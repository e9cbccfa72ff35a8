import CountedHeap.Proofs.Keep.Operations
import CountedHeap.Proofs.Reclaim.Quiet

/-!
# What the engines keep

Whether an engine keeps the terms depends on the native functions of the host. There are three ways
for it to do so: the terms may ask nothing of counts, the functions may release only what they hold,
or they may leave the heap alone.

* `Keeps.run_lax`: any program keeps terms on which counts are not strict.
* `Program.Honest`, `Keeps.run_honest`: a program that releases only what it holds keeps counts exact.
* `Program.Silent`: a program that performs no operation.
* `inPass_keeps`, `inDrain_keeps`, `top_keeps`: the three engines.
-/

namespace CountedHeap

variable {σ α : Type} {E : Engine σ} {T : Terms σ} {w : World σ} {X Z : Multiset Handle}
  {host : Host σ} {fuel : ℕ}

/-! ## Programs -/

/-- Terms on which counts are not strict ask nothing of what is in flight. -/
theorem Terms.Holds.lax (hT : ∀ s, ¬ T.strict s) (hk : T.Holds w X) : T.Holds w Z :=
  ⟨hk.sound, hk.level, fun hs => absurd hs (hT _)⟩

/-- A program changes the state of its host, if at all, in such a way that what relates this to the
heap goes on to hold. -/
def Program.Loyal (P : σ → Heap → Prop) : Program σ α → Heap → Prop
  | .done _, _ => True
  | .perform _ next, _ => ∀ answer h, (next answer).Loyal P h
  | .readHeap next, h => (next h).Loyal P h
  | .readHost next, h => ∀ s, (next s).Loyal P h
  | .modifyHost f next, h => (∀ s, h.Sound → P s h → P (f s) h) ∧ (next ()).Loyal P h

theorem Program.loyal {P : Heap → Prop} (p : Program σ α) (h : Heap) : p.Loyal (fun _ => P) h := by
  induction p generalizing h with
  | done a => trivial
  | perform op next ih => exact fun answer h => ih answer h
  | readHeap next ih => exact ih h h
  | readHost next ih => exact fun s => ih s h
  | modifyHost f next ih => exact ⟨fun _ _ hP => hP, ih () h⟩

/-- Where counts are not strict, any loyal program keeps the terms. -/
theorem Engine.Keeps.run_lax (K : E.Keeps T) (hT : ∀ s, ¬ T.strict s) (hkey : T.Rekeys)
    (p : Program σ α) (hp : p.Loyal T.level w.heap) (hk : T.Holds w X) :
    After (p.run E.perform) w fun _ w' => T.Holds w' X := by
  induction p generalizing w with
  | done a =>
    rintro _ _ e
    cases e
    exact hk
  | perform op next ih =>
    rintro b w'' e
    unfold Program.run at e
    have hk' : T.Holds w (X + op.taken) := hk.lax hT
    have hop := K.perform op (fun _ => hkey) hk'
    cases hrun : (E.perform op).run w with
    | none => simp [hrun] at e
    | some x =>
      obtain ⟨answer, w'⟩ := x
      rw [hrun] at e
      refine ih answer (hp answer _) ?_ b w'' e
      have := hop answer w' hrun
      cases answer with
      | ok a => exact (this fun hs => absurd hs (hT _)).lax hT
      | error e => exact this
  | readHeap next ih => exact ih _ hp hk
  | readHost next ih => exact ih _ (hp _) hk
  | modifyHost f next ih =>
    exact ih () hp.2 ⟨hk.sound, hp.1 _ hk.sound hk.level, fun hs => absurd hs (hT _)⟩

/-- A program releases only counts that it holds, and makes cells that refer to live cells only. What
it holds is either in the state of its host or, between two steps, in flight. -/
def Program.Honest (E : Engine σ) (held : σ → Multiset Handle) :
    Program σ α → World σ → Multiset Handle → Prop
  | .done _, _, X => X = 0
  | .perform op next, w, X => op.taken ≤ X ∧ ∀ answer w', (E.perform op).run w = some (answer, w') →
    match answer with
    | .ok a => (∀ r ∈ op.made a, w'.heap.Whole r) ∧
      (next answer).Honest E held w' (X - op.taken + op.given w.heap a)
    | .error _ => (next answer).Honest E held w' (X - op.taken)
  | .readHeap next, w, X => (next w.heap).Honest E held w X
  | .readHost next, w, X => (next w.host).Honest E held w X
  | .modifyHost f next, w, X => ∃ X', held w.host + X = held (f w.host) + X' ∧
    (next ()).Honest E held ⟨w.heap, f w.host⟩ X'

/-- An honest program keeps counts exact. -/
theorem Engine.Keeps.run_honest {P : Heap → Prop} {hP : Heap.Steady P} (K : E.Keeps (T.during P hP))
    (hT : ∀ s, T.strict s) (hkey : (T.during P hP).Rekeys) (p : Program σ α)
    (hp : p.Honest E T.held w X) (hk : (T.during P hP).Holds w (Z + X)) :
    After (p.run E.perform) w fun _ w' => (T.during P hP).Holds w' Z := by
  induction p generalizing w X with
  | done a =>
    rintro _ _ e
    cases e
    unfold Program.Honest at hp
    rwa [hp, add_zero] at hk
  | perform op next ih =>
    rintro b w'' e
    unfold Program.run at e
    unfold Program.Honest at hp
    obtain ⟨htaken, hnext⟩ := hp
    have hsplit : Z + X = Z + (X - op.taken) + op.taken := by
      rw [add_assoc, Multiset.sub_add_cancel htaken]
    rw [hsplit] at hk
    have hop := K.perform op (fun _ => hkey) hk
    cases hrun : (E.perform op).run w with
    | none => simp [hrun] at e
    | some x =>
      obtain ⟨answer, w'⟩ := x
      rw [hrun] at e
      have hdone := hop answer w' hrun
      have hgo := hnext answer w' hrun
      cases answer with
      | ok a =>
        have hk' := hdone fun _ => hgo.1
        rw [add_assoc] at hk'
        exact ih (.ok a) hgo.2 hk' b w'' e
      | error e' => exact ih (.error e') hgo hdone b w'' e
  | readHeap next ih => exact ih _ hp hk
  | readHost next ih => exact ih _ hp hk
  | modifyHost f next ih =>
    obtain ⟨X', hX, hp⟩ := hp
    refine ih () hp ⟨hk.sound, hk.level, fun _ => ?_⟩
    have hb : w.heap.Balanced ∅ (T.held w.host + (Z + X)) := hk.balanced (hT _)
    rw [add_left_comm, hX] at hb
    change w.heap.Balanced ∅ (T.held (f w.host) + (Z + X'))
    rwa [add_left_comm] at hb

/-- A program performs no operation. -/
def Program.Silent : Program σ α → Prop
  | .done _ => True
  | .perform _ _ => False
  | .readHeap next => ∀ h, (next h).Silent
  | .readHost next => ∀ s, (next s).Silent
  | .modifyHost _ next => (next ()).Silent

theorem Program.Silent.run {p : Program σ α} (hp : p.Silent) (w : World σ) :
    ∃ a s, p.run E.perform w = some (a, ⟨w.heap, s⟩) := by
  induction p generalizing w with
  | done a => exact ⟨a, w.host, rfl⟩
  | perform op next ih => exact hp.elim
  | readHeap next ih => exact ih _ (hp _) w
  | readHost next ih => exact ih _ (hp _) w
  | modifyHost f next ih => exact ih () hp ⟨w.heap, f w.host⟩

/-- No native function performs an operation. -/
def Host.Silent (host : Host σ) : Prop :=
  ∀ id v, (host id v).Silent

theorem Host.Silent.caller (hh : host.Silent) (E : Engine σ) : (E.caller host).Silent :=
  fun id v w => (hh id v).run w

/-! ## Engines within passes and drains -/

/-- The native functions of a host keep the terms wherever they run. -/
def Host.Keeps (host : Host σ) (T : Terms σ) : Prop :=
  ∀ E, E = Engine.inPass ∨ E = Engine.inDrain host → ∀ P hP, E.Keeps (T.during P hP) →
    (T.during P hP).Rekeys → Caller.Keeps (E.caller host) (T.during P hP)

theorem Host.keeps_lax (hT : ∀ s, ¬ T.strict s) : host.Keeps T :=
  fun _ _ _ _ K hkey id v w _ hk => K.run_lax hT hkey (host id v) ((host id v).loyal w.heap) hk

/-- The native functions of a host are honest in every heap whose counts are exact. -/
def Host.Honest (host : Host σ) (held : σ → Multiset Handle) : Prop :=
  ∀ E, E = Engine.inPass ∨ E = Engine.inDrain host → ∀ id v w X, w.heap.Sound →
    w.heap.Balanced ∅ (held w.host + X) → (host id v).Honest E held w 0

theorem Host.Honest.keeps (hh : host.Honest T.held) (hT : ∀ s, T.strict s) : host.Keeps T := by
  intro E hE P hP K hkey id v w X hk
  refine K.run_honest hT hkey (X := 0) (host id v) ?_ (by rwa [add_zero])
  exact hh E hE id v w X hk.sound (hk.balanced (hT _))

/-- Within a drain or a pass, a count given back leaves what follows to the loop that is under way. -/
theorem release_keeps {P : σ → Heap → Prop} (hP : ∀ s, Heap.Yielding (P s)) (hE : E.drain = pure ())
    {r : Handle} (hk : (T.among P fun s => (hP s).steady).Holds w (X + {r})) :
    After (E.release r) w fun _ w' => (T.among P fun s => (hP s).steady).Holds w' X ∧
      (w.heap.finalizerKey = none → w'.heap.finalizerKey = none) := by
  have hkept : (T.among P fun s => (hP s).steady).Holds ⟨(w.heap.release r).1, w.host⟩ X := by
    have hk' : w.heap.Kept (T.strict w.host) (P w.host) (T.held w.host + X + {r}) := by
      rw [add_assoc]
      exact hk
    exact hk'.release (hP _)
  have hdone : (T.among P fun s => (hP s).steady).Holds ⟨(w.heap.release r).1, w.host⟩ X ∧
      (w.heap.finalizerKey = none → (w.heap.release r).1.finalizerKey = none) :=
    ⟨hkept, fun h0 => (hk.sound.release.2.key).trans h0⟩
  unfold Engine.release
  rw [after_bind, after_change, hE]
  split
  · exact after_pure.mpr hdone
  · exact after_pure.mpr hdone

theorem inPass_keeps {P : σ → Heap → Prop} (hP : ∀ s, Heap.Yielding (P s)) :
    (Engine.inPass : Engine σ).Keeps (T.among P fun s => (hP s).steady) where
  release _ _ _ hk := release_keeps hP rfl hk
  collect _ _ _ hk := after_pure.mpr ⟨hk, id⟩

/-- A pass frees no queued cell. -/
theorem Heap.standing_beginPass {h : Heap} {l : List Handle} {o : PassOptions} (hs : h.Sound)
    (hqueue : ∀ r ∈ l, r.index ∈ h.arena.members .queue) (hl : Standing l h) :
    Standing l (h.beginPass o).1 := by
  have hk : Kept False (fun _ => True) h 0 := ⟨hs, trivial, False.elim⟩
  have hpass := hk.beginPass (o := o)
  intro r hr
  obtain ⟨n, b, hb, -⟩ := hl r hr
  have hmem : r.index ∈ (h.beginPass o).1.arena.members .queue := by
    rw [hpass.level.2.1]
    exact hqueue r hr
  obtain ⟨m, c, hc, hcomp⟩ := hpass.sound.arena.cell_of_mem hmem
  rw [Shrinks.beginPass.handleAt_eq hpass.sound hmem, hb.handleAt] at hc
  exact ⟨m, c, hc, hcomp⟩

theorem Heap.Follows.beginPass {h : Heap} {seen : List Heap} {o : PassOptions} (hs : h.Sound)
    (hf : Follows seen (h.arena.members .queue) h) :
    Follows seen (h.arena.members .queue) (h.beginPass o).1 := by
  refine ⟨hf.order, hf.queue, fun x hx => standing_beginPass hs (fun r hr => ?_) (hf.standing x hx)⟩
  obtain ⟨i, hi, rfl⟩ := List.mem_map.mp hr
  exact (hf.queue x hx).subset hi

/-- A drain is under way, and the heap follows on those that have been seen. -/
abbrev Heap.DrainFollows (queue : List ℕ) (seen : List Heap) (h : Heap) : Prop :=
  Heap.Draining queue h ∧ Heap.Follows seen (h.arena.members .queue) h

theorem Heap.yielding_drainFollows (queue : List ℕ) (seen : List Heap) :
    Heap.Yielding (Heap.DrainFollows queue seen) :=
  (Heap.yielding_draining queue).and (Heap.yielding_following seen)

/-- A pass is under way, and the heap follows on those that have been seen. -/
abbrev Heap.PassFollows (queue pending : List ℕ) (seen : List Heap) (h : Heap) : Prop :=
  Heap.WithinPass queue pending h ∧ Heap.Follows seen queue h

theorem Heap.yielding_passFollows (queue pending : List ℕ) (seen : List Heap) :
    Heap.Yielding (Heap.PassFollows queue pending seen) :=
  (Heap.yielding_withinPass queue pending).and (Heap.lasting_follows seen queue).yielding

theorem Terms.rekeys_passFollows {q K : List ℕ} {L : σ → List Heap} :
    (T.among (fun s => Heap.PassFollows q K (L s))
      fun s => (Heap.yielding_passFollows q K (L s)).steady).Rekeys :=
  fun s h _ hl => ⟨hl.1, (Heap.lasting_follows (L s) q).of_core h _ rfl rfl hl.2⟩

theorem Terms.rekeys_drainFollows {queue : List ℕ} {L : σ → List Heap} :
    (T.among (fun s => Heap.DrainFollows queue (L s))
      fun s => (Heap.yielding_drainFollows queue (L s)).steady).Rekeys :=
  fun s h _ hl => ⟨hl.1, (Heap.lasting_follows (L s) _).of_core h _ rfl rfl hl.2⟩

/-- A pass within a drain, where native functions may see what the heap is. -/
theorem innerPass_follows {L : σ → List Heap} {queue : List ℕ} {o : PassOptions}
    (hcall : ∀ q K, Caller.Keeps (Engine.inPass.caller host) (T.among
      (fun s => Heap.PassFollows q K (L s))
      fun s => (Heap.yielding_passFollows q K (L s)).steady))
    (hk : (T.among (fun s => Heap.DrainFollows queue (L s))
      fun s => (Heap.yielding_drainFollows queue (L s)).steady).Holds w X) :
    After (pass (Engine.inPass.caller host) (pure ()) o) w fun _ w' =>
      (T.among (fun s => Heap.DrainFollows queue (L s))
        fun s => (Heap.yielding_drainFollows queue (L s)).steady).Holds w' X := by
  set q := w.heap.arena.members .queue
  have hqueued : ∀ {zero : List ℕ} {w' : World σ},
      Requeued (T.among (fun s => Heap.DrainFollows queue (L s))
        fun s => (Heap.yielding_drainFollows queue (L s)).steady) X q zero w' →
      Heap.Follows (L w'.host) q w'.heap →
      Heap.DrainFollows queue (L w'.host) w'.heap := by
    rintro zero w' hre hf
    have hgrown : q <+: w'.heap.arena.members .queue := by
      rw [hre.kept.level.2]
      exact List.prefix_append _ _
    exact ⟨⟨hre.kept.level.1, hk.level.1.2.trans hgrown⟩, hf.mono hgrown⟩
  refine pass_after (passBody_keeps (R := fun s => Heap.Follows (L s) q)
    (fun s => Heap.lasting_follows _ _) (hk.level.2.beginPass hk.sound) ?_ hk) ?_ ?_
  · exact fun _ K => hcall q K
  · rintro w' ⟨zero, -, hre, hf⟩
    exact hre.kept.relevel (hqueued hre hf)
  · rintro n w' ⟨zero, -, hre, hf⟩
    exact after_pure.mpr (hre.kept.relevel (hqueued hre hf))

theorem innerPass_keeps (hH : host.Keeps T) {queue : List ℕ} {o : PassOptions}
    (hk : (T.during (Heap.Draining queue) (Heap.yielding_draining queue).steady).Holds w X) :
    After (pass (Engine.inPass.caller host) (pure ()) o) w fun _ w' =>
      (T.during (Heap.Draining queue) (Heap.yielding_draining queue).steady).Holds w' X := by
  have hk' : (T.during (Heap.DrainFollows queue [])
      (Heap.yielding_drainFollows queue []).steady).Holds w X :=
    hk.relevel ⟨hk.level, Heap.follows_nil⟩
  refine (innerPass_follows (L := fun _ => []) (fun q K => ?_) hk').mono
    fun _ _ hk'' => hk''.relevel hk''.level.1
  exact hH _ (.inl rfl) _ _ (inPass_keeps fun _ => Heap.yielding_passFollows q K [])
    (Terms.rekeys_passFollows (L := fun _ => []))

theorem pass_key {call : Caller σ} {o : PassOptions} (h0 : w.heap.finalizerKey = none) :
    After (pass call (pure ()) o) w fun _ w' => w'.heap.finalizerKey = none := by
  have hbegun : (w.heap.beginPass o).1.finalizerKey = none := Heap.Shrinks.beginPass.key.trans h0
  refine pass_after (passBody_shrinks (Heap.unfinalized_of_key h0).quiet) ?_ ?_
  · exact fun _ hs => hs.key.trans hbegun
  · exact fun _ _ hs => after_pure.mpr (hs.key.trans hbegun)

theorem inDrain_follows {L : σ → List Heap} (hcall : ∀ q K, Caller.Keeps
    (Engine.inPass.caller host) (T.among (fun s => Heap.PassFollows q K (L s))
      fun s => (Heap.yielding_passFollows q K (L s)).steady)) (queue : List ℕ) :
    (Engine.inDrain host).Keeps (T.among (fun s => Heap.DrainFollows queue (L s))
      fun s => (Heap.yielding_drainFollows queue (L s)).steady) where
  release _ _ _ hk := release_keeps (fun s => Heap.yielding_drainFollows queue (L s)) rfl hk
  collect w _ _ hk := by
    by_cases h0 : w.heap.finalizerKey = none
    · exact ((innerPass_follows hcall hk).and (pass_key h0)).mono fun _ _ h => ⟨h.1, fun _ => h.2⟩
    · exact (innerPass_follows hcall hk).mono fun _ _ h => ⟨h, fun h0' => absurd h0' h0⟩

theorem inDrain_keeps (hH : host.Keeps T) (queue : List ℕ) : (Engine.inDrain host).Keeps
    (T.during (Heap.Draining queue) (Heap.yielding_draining queue).steady) where
  release _ _ _ hk := release_keeps (fun _ => Heap.yielding_draining queue) rfl hk
  collect w _ _ hk := by
    by_cases h0 : w.heap.finalizerKey = none
    · exact ((innerPass_keeps hH hk).and (pass_key h0)).mono fun _ _ h => ⟨h.1, fun _ => h.2⟩
    · exact (innerPass_keeps hH hk).mono fun _ _ h => ⟨h, fun h0' => absurd h0' h0⟩

end CountedHeap
