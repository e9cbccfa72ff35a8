import CountedHeap.Proofs.Shell.Commands

/-!
# Sessions of the shell

* `create_grants`, `session_grants`: a context is made from nothing, and then lines are read.
* `session_take`: a session whose lines are read to their end has been through all of them.
* `names_counted`: after each of its lines the shell owns one count for each name, and one root for each
  name that has one.
-/

namespace CountedHeap

namespace Shell

variable {β : Type} {fuel : ℕ} {w w' : World Screen} {X : Multiset Handle} {v : Value} {n : ℕ}

/-! ## Before the first line -/

/-- What is known of the roots before there are any. -/
def Unrooted (roots : ℕ → Option Value) : Prop :=
  ∀ n, roots n = none

section

variable {P : (ℕ → Option Value) → Prop} {Y : Multiset Handle} {r : Handle}

theorem make_meets {op : Operation Handle} (h : Stake host P X w) (htaken : op.taken = 0)
    (hgiven : ∀ r, op.given w.heap r = {r}) (hm : ∀ q ∈ op.mentioned, q ∈ X) (hop : ¬ op.reroots) :
    Meets ((Engine.top host fuel).perform op) w (fun _ _ => True) fun r => Stake host P (X + {r}) :=
  Meets.mono (h.perform silent_host op htaken (.of_held hm) hop) (fun _ _ _ => trivial)
    fun r _ hw => hgiven r ▸ hw

theorem keep_meets {op : Operation Unit} (h : Stake host P X w) (htaken : op.taken = 0)
    (hgiven : op.given w.heap () = 0) (hm : ∀ q ∈ op.mentioned, w.heap.Reached X q) (hop : ¬ op.reroots) :
    Meets ((Engine.top host fuel).perform op) w (fun _ _ => True) fun _ => Stake host P X :=
  Meets.mono (h.perform silent_host op htaken hm hop) (fun _ _ _ => trivial) fun _ w' hw => by
    rwa [hgiven, add_zero] at hw

theorem giveBack_meets (h : Stake host P X w) (hX : X = Y + {r}) :
    Meets ((Engine.top host fuel).perform (.release (.ref r))) w (fun _ _ => True)
      fun _ => Stake host P Y := by
  subst hX
  exact Meets.mono (h.release (v := .ref r) silent_host) (fun _ _ _ => trivial) fun _ _ hw => hw

end

theorem create_grants (fuel : ℕ) {t : Screen} :
    Grants host fuel Context.create ⟨.empty {}, t⟩ (fun _ _ => True)
    fun c => Stake host (Rooted c {c.mainRoot}) 0 := by
  have h₀ : Stake host Unrooted 0 ⟨.empty {}, t⟩ := ⟨.start {} t, fun _ => rfl⟩
  simp only [Context.create, grants_bind, grants_attempt, grants_pure]
  refine Meets.mono (make_meets h₀ rfl (fun _ => rfl) (by simp [Operation.mentioned]) not_false)
    (fun _ _ => id) fun o w₁ h₁ => ?_
  refine Meets.mono (make_meets h₁ rfl (fun _ => rfl) (by simp [Operation.mentioned]) not_false)
    (fun _ _ => id) fun g w₂ h₂ => ?_
  refine Meets.mono (make_meets h₂ rfl (fun _ => rfl) (by simp [Operation.mentioned]) not_false)
    (fun _ _ => id) fun p w₃ h₃ => ?_
  refine Meets.mono (make_meets h₃ rfl (fun _ => rfl) (by simp [Operation.mentioned]) not_false)
    (fun _ _ => id) fun m w₄ h₄ => ?_
  -- The four cells are held while the built-ins and the prototype of the main thread are set.
  have hreach : ∀ (h : Heap) l, l ⊆ [m, o, g, p] → ∀ q ∈ l, h.Reached (0 + {o} + {g} + {p} + {m}) q := by
    intro h l hl q hq
    have hmem := hl hq
    exact .start (.inl (by simp_all; tauto))
  refine Meets.mono (keep_meets h₄ rfl rfl (hreach _ _ (by simp [Operation.mentioned])) not_false)
    (fun _ _ => id) fun _ w₅ h₅ => ?_
  refine Meets.mono (keep_meets h₅ rfl rfl (hreach _ _ (by simp [Operation.mentioned])) not_false)
    (fun _ _ => id) fun _ w₆ h₆ => ?_
  refine Meets.mono (keep_meets h₆ rfl rfl (hreach _ _ (by simp [Operation.mentioned])) not_false)
    (fun _ _ => id) fun _ w₇ h₇ => ?_
  refine Meets.mono (keep_meets h₇ rfl rfl (hreach _ _ (by simp [Operation.mentioned])) not_false)
    (fun _ _ => id) fun _ w₈ h₈ => ?_
  refine Meets.mono (giveBack_meets (Y := {g} + {p} + {m}) h₈ (by abel)) (fun _ _ => id) fun _ w₉ h₉ => ?_
  refine Meets.mono (giveBack_meets (Y := {p} + {m}) h₉ (by abel)) (fun _ _ => id) fun _ w₁₀ h₁₀ => ?_
  refine Meets.mono (giveBack_meets (Y := {m}) h₁₀ (by abel)) (fun _ _ => id) fun _ w₁₁ h₁₁ => ?_
  -- From here on a root holds the main thread.
  have hheld : ∀ r ∈ (Operation.addRoot (.ref m)).mentioned, r ∈ ({m} : Multiset Handle) := fun r hr => by
    rw [List.mem_singleton.mp hr]
    exact Multiset.mem_singleton_self m
  have hgoes := h₁₁.goes fuel (.addRoot (.ref m)) rfl (.of_held hheld)
  refine Meets.mono (hgoes.and (addRoot_roots h₁₁.run.reachable.sound.1)) (fun _ _ _ => trivial) ?_
  rintro n w₁₂ ⟨hrun, -, hroots⟩
  have h₁₂ : Stake host (Rooted ⟨m, n⟩ {n}) {m} w₁₂ := ⟨hrun, .first h₁₁.roots hroots⟩
  refine Meets.mono (giveBack_meets (Y := 0) h₁₂ (by abel)) (fun _ _ => id) fun _ w₁₃ h₁₃ => ?_
  refine keep_meets h₁₃ rfl rfl (fun q hq => ?_) not_false
  rw [List.mem_singleton.mp hq]
  exact Heap.reached_of_root h₁₃.roots.main (List.mem_singleton_self _)

theorem start_grants (fuel : ℕ) :
    Grants host fuel start ⟨.empty {}, ""⟩ (fun _ _ => True) fun s => Owns s 0 := by
  simp only [start, grants_bind, grants_attempt, grants_lift, after_run_modifyState, grants_pure]
  refine After.mono (create_grants fuel) ?_
  rintro (e | c) w hw
  · trivial
  · have hnext : Meets ((Engine.top host fuel).perform .registerNative) w
        (fun _ => Stake host (Rooted c {c.mainRoot}) 0) fun _ => Stake host (Rooted c {c.mainRoot}) 0 :=
      hw.perform silent_host .registerNative rfl (.of_held fun _ hr => by cases hr) not_false
    exact Meets.mono hnext (fun _ _ _ => trivial) fun _ _ hw' =>
      ⟨hw'.onHost _, List.nodup_nil, List.nodup_nil⟩

/-! ## Lines -/

theorem session_grants (lines : List String) :
    Grants host fuel (session lines) ⟨.empty {}, ""⟩ (fun _ _ => True) fun p => Owns p.2 0 := by
  simp only [session, grants_bind, grants_lift]
  refine After.mono (start_grants fuel) ?_
  rintro (e | s) w hw
  · trivial
  · exact hw.readLines lines

/-- Where lines are read to their end, so are the first of them. -/
theorem readLines_take {lines : List String} {s : State} (k : ℕ)
    (h : Returns (run host fuel (readLines lines s)) w) :
    Returns (run host fuel (readLines (lines.take k) s)) w := by
  induction lines generalizing s w k with
  | nil => rwa [List.take_nil]
  | cons line rest ih =>
    cases k with
    | zero => exact ⟨_, _, rfl⟩
    | succ k =>
      rw [List.take_succ_cons]
      unfold readLines at h ⊢
      simp only [returns_run_bind] at h ⊢
      obtain ⟨_, w₁, hprompt, ⟨ending, s₂⟩, w₂, hline, hrest⟩ := h
      refine ⟨_, w₁, hprompt, ⟨ending, s₂⟩, w₂, hline, ?_⟩
      cases ending with
      | some ending => exact hrest
      | none => exact ih k hrest

/-- A session whose lines are read to their end has a shell, and so has one over the first of them. -/
theorem session_take {lines : List String} {p : Ending × State} (k : ℕ)
    (h : run host fuel (session lines).run w = some (.ok p, w')) :
    ∃ q w'', run host fuel (session (lines.take k)).run w = some (.ok q, w'') := by
  have hlift : ∀ lines s v, run host fuel (ExceptT.lift (readLines lines s) :
      ExceptT HeapError (Program Screen) (Ending × State)).run v =
        (run host fuel (readLines lines s) v).bind fun x => some (.ok x.1, x.2) := by
    intro lines s v
    rw [ExceptT.run_lift, map_eq_pure_bind, run_bind]
    rfl
  unfold session at h ⊢
  rw [ExceptT.run_bind, run_bind] at h ⊢
  obtain ⟨⟨e | s, w₁⟩, hstart, hread⟩ := Option.bind_eq_some_iff.mp h
  · cases hread
  · obtain ⟨⟨q, w₂⟩, hlines, -⟩ := Option.bind_eq_some_iff.mp ((hlift lines s w₁).symm.trans hread)
    obtain ⟨q', w₃, hfirst⟩ := readLines_take k ⟨q, w₂, hlines⟩
    refine ⟨q', w₃, ?_⟩
    rw [hstart, Option.bind_some]
    refine (hlift (lines.take k) s w₁).trans ?_
    rw [hfirst, Option.bind_some]

/-- A live cell is counted once for each reference of a live cell, for each root, for the key of finalizers and
for each name of the shell, and the roots are that of the main thread and one for each name that has one. -/
structure State.Counted (s : State) (w : World Screen) : Prop where
  names : (s.names.map Prod.fst).Nodup
  counts : ∀ r n, w.heap.count? r = some n →
    n = (w.heap.arena.owned ∅).count r + w.heap.rootRefs.count r +
      (if w.heap.finalizerKey = some r then 1 else 0) + s.names.countP fun p => p.2 = .ref r
  rootNames : (s.roots.map Prod.fst).Nodup
  rootNumbers : (s.context.mainRoot :: s.roots.map Prod.snd).Nodup
  roots : ∀ n, (w.heap.root? n).isSome ↔ n ∈ s.context.mainRoot :: s.roots.map Prod.snd

theorem Owns.counted {s : State} (h : Owns s 0 w) : s.Counted w := by
  have hexact := (h.stake.run.kept silent_host).exact
  refine ⟨h.names, fun r n hr => ?_, h.roots, h.stake.roots.distinct, h.stake.roots.used⟩
  have hkey : (w.heap.finalizerKey.toList : Multiset Handle).count r =
      if w.heap.finalizerKey = some r then 1 else 0 := by
    cases w.heap.finalizerKey <;> simp [Multiset.count_singleton, eq_comm]
  have hcount := hexact.count r n hr
  unfold Heap.stored State.held at hcount
  rw [add_zero, Multiset.count_add, Multiset.count_add, Multiset.count_add, Multiset.coe_count, hkey,
    Bindings.count_refs] at hcount
  exact hcount

/-- After any number of its lines, whatever they are and whether or not they are refused, a session owns one
count for each of its names, and its roots are that of the main thread and one for each name in its table. -/
theorem names_counted {lines : List String} {p : Ending × State}
    (h : run host fuel (session lines).run ⟨.empty {}, ""⟩ = some (.ok p, w)) (k : ℕ) :
    ∃ ending s w', run host fuel (session (lines.take k)).run ⟨.empty {}, ""⟩ =
      some (.ok (ending, s), w') ∧ s.Counted w' := by
  obtain ⟨⟨ending, s⟩, w', hrun⟩ := session_take k h
  exact ⟨ending, s, w', hrun, (session_grants _ _ _ hrun).counted⟩

/-- A string with two names, of which one has got a second root, and an object that has lost its own. -/
def rebound : List String :=
  ["obj a", "str b hello", "str c hello", "root b", "root b", "set a k b", "set b k a", "root a", "drop a",
    "unroot a", "drop d", "fin b", "obj d", "fin d", "gc"]

theorem names_counted_rebound : ∃ ending s w, run host 9 (session rebound).run ⟨.empty {}, ""⟩ =
      some (.ok (ending, s), w) ∧ s.Counted w ∧ s.names.map Prod.fst = ["d", "c", "b"] ∧
      s.roots.map Prod.fst = ["b"] := by
  have hend : (run host 9 (session rebound).run ⟨.empty {}, ""⟩).any (fun x => ∃ p ∈ x.1.toOption,
      p.2.names.map Prod.fst = ["d", "c", "b"] ∧ p.2.roots.map Prod.fst = ["b"]) = true := by
    decide +kernel
  obtain ⟨⟨result, w⟩, e, hp⟩ := (Option.any_eq_true _ _).mp hend
  obtain ⟨p, hp, hnames, hroots⟩ := of_decide_eq_true hp
  obtain rfl : result = .ok p := ok_of_mem_toOption hp
  obtain ⟨ending, s, w', e', hcounted⟩ := names_counted e rebound.length
  rw [List.take_length, e] at e'
  cases e'
  exact ⟨_, _, _, e, hcounted, hnames, hroots⟩

end Shell

end CountedHeap
