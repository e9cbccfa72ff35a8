import CountedHeap.Proofs.Keep.Logging

/-!
# Interning is canonical

The intern table holds no count, and is kept in step by those who make and free strings. It is exact
wherever an operation is performed, also while a finalizer runs within a pass or a drain. So a content
that is there is found, and a content that has been interned while room was made for it is found as well.

* `enduring_interned`: passes and drains keep the table exact.
* `Heap.Canonical`: what is said about the table and the strings of a heap.
* `Interning`, `Interning.Canonical`: an intern that has succeeded, and what is said about it.
* `Keeps.intern_canonical`: an intern wherever the table is exact.
* `interning_canonical`: every heap between operations, and every intern of an operation and of all
  finalizers that run meanwhile.
-/

namespace CountedHeap

open Heap (OutsidePass)

namespace Heap

variable {h : Heap}

theorem enduring_interned : Enduring Interned :=
  .of_texts (fun _ _ hl => hl.interned)
    (fun _ _ ht htables hi => hi.congr (congrArg Prod.fst htables) ht) fun _ hi => hi.congr rfl rfl

/-! ## Between operations -/

/-- No two strings have the same content, and the table has one entry for each string, under the hash
of its content and in the bucket of this hash, no other entries, and counts the strings. -/
structure Canonical (h : Heap) : Prop where
  distinct : ∀ r r' t t', h.arena.texts r = some t → h.arena.texts r' = some t' →
    t.content = t'.content → r = r'
  entries : ∀ (bucket : ℕ) (hash : UInt32) (r : Handle),
    (∃ es : Array (UInt32 × Handle), h.strings.buckets[bucket]? = some es ∧ (hash, r) ∈ es) ↔
      ∃ t, h.arena.texts r = some t ∧ hash = contentHash t.content ∧
        bucket = hash.toNat % h.strings.buckets.size
  once : (h.strings.buckets.toList.flatMap fun es => es.toList.map Prod.snd).Nodup
  count : h.strings.count = h.arena.countOf .string

theorem Interned.canonical (hi : h.Interned) : h.Canonical := by
  refine ⟨hi.distinct, fun bucket hash r => ?_, ?_, hi.count_eq⟩
  · constructor
    · rintro ⟨es, hes, hmem⟩
      obtain ⟨t, ht, rfl⟩ := (hi.entries hash r).mp (InternTable.mem_entries.mpr ⟨_, _, hes, hmem⟩)
      exact ⟨t, ht, rfl, (hi.table.placed _ _ hes _ hmem).symm⟩
    · rintro ⟨t, ht, rfl, rfl⟩
      exact ⟨_, hi.table.getElem?_bucket, hi.table.mem_bucket.mpr ((hi.entries _ r).mpr ⟨t, ht, rfl⟩)⟩
  · have honce := hi.once
    rwa [InternTable.entries, InternTable.contents, List.map_flatMap] at honce

end Heap

/-! ## Interns -/

/-- An intern that has succeeded: what was interned in which heap, and with what result. -/
structure Interning where
  content : String
  before : Heap
  result : Handle
  after : Heap

namespace Interning

/-- The result is a string with the content. If there was one, then it is this one, and it has been
counted, and nothing else has happened. -/
structure Canonical (e : Interning) : Prop where
  string : ∃ t, e.after.arena.texts e.result = some t ∧ t.content = e.content
  found : ∀ r t, e.before.arena.texts r = some t → t.content = e.content → e.result = r ∧
    e.after = e.before.retain r ∧ e.after.count? r = (e.before.count? r).map (· + 1)

/-- What there is to say about an operation that has been performed. -/
def ofOperation : {β : Type} → Operation β → Heap → Except HeapError β → Heap → List Interning
  | _, .intern content _, h, .ok r, h' => [⟨content, h, r, h'⟩]
  | _, _, _, _, _ => []

end Interning

section

variable {σ : Type} {E : Engine σ} {T : Terms σ} {w : World σ} {X : Multiset Handle}

/-- What a look-up has found is counted. -/
theorem Heap.Interned.canonical_retain {h : Heap} {content : String} {r : Handle} (hi : h.Interned)
    (hr : h.interned? content = some r) : Interning.Canonical ⟨content, h, r, h.retain r⟩ := by
  obtain ⟨t, ht, hc⟩ := hi.interned?_eq_some.mp hr
  obtain ⟨n, hn⟩ := Arena.texts_eq_some.mp ht
  have hcore := Heap.Kept.core_retain hn
  have hretained : (h.retain r).arena.Holds r (n + 1) (.string t) := by
    unfold Arena.Holds
    rw [hcore, Function.update_self]
  refine ⟨⟨t, hretained.texts, hc⟩, fun r' t' ht' hc' => ?_⟩
  obtain rfl : r' = r := hi.distinct r' r t' t ht' ht (hc'.trans hc.symm)
  refine ⟨rfl, rfl, ?_⟩
  rw [Heap.count?_eq_some.mpr ⟨_, hretained⟩, Heap.count?_eq_some.mpr ⟨_, hn⟩]
  rfl

/-- Wherever the table is exact, an intern does what it should. -/
theorem Engine.Keeps.intern_canonical (K : E.Keeps T) (hT : ∀ s h, T.level s h → h.Interned)
    {content : String} {isStatic : Bool} (hk : T.Holds w X) :
    Meets (E.intern content isStatic) w (fun _ _ => True) fun r w' =>
      Interning.Canonical ⟨content, w.heap, r, w'.heap⟩ := by
  have hi := hT _ _ hk.level
  unfold Engine.intern Engine.alloc
  simp only [meets_bind, meets_surely, after_query]
  cases hfound : w.heap.interned? content with
  | some r =>
    simp only [meets_bind, meets_surely, after_modifyHeap, meets_pure]
    exact hi.canonical_retain hfound
  | none =>
    -- There was no string with the content, so all that matters is what the result is.
    have hnew : ∀ {r : Handle} {h' : Heap}, (∃ t, h'.arena.texts r = some t ∧ t.content = content) →
        Interning.Canonical ⟨content, w.heap, r, h'⟩ := by
      refine fun hr => ⟨hr, fun q t ht hc => ?_⟩
      rw [hi.interned?_eq_some.mpr ⟨t, ht, hc⟩] at hfound
      cases hfound
    simp only [meets_bind, meets_surely]
    refine Meets.mono (K.reserve hk) (fun _ _ _ => trivial) fun _ w₁ hw₁ => ?_
    have hk₁ := hw₁.1
    have hi₁ := hT _ _ hk₁.level
    simp only [after_change, after_query]
    cases hfound₁ : (w₁.heap.place (.string ⟨content, isStatic⟩)).1.interned? content with
    | some q =>
      obtain ⟨hidle, -⟩ := Heap.Kept.giveUp (T.steady _) hk₁ hfound₁
      obtain ⟨-, htexts, t, ht, hc⟩ := hk₁.giveUp_texts hi₁ hfound₁
      simp only [meets_bind, meets_surely, after_modifyHeap, Engine.release, after_bind, after_change,
        hidle, Bool.false_eq_true, if_false, after_pure, meets_pure]
      exact hnew ⟨t, by rw [htexts, ht], hc⟩
    | none =>
      simp only [meets_bind, meets_surely, after_modifyHeap, meets_pure]
      refine hnew ⟨⟨content, isStatic⟩, ?_, rfl⟩
      change (w₁.heap.place (.string ⟨content, isStatic⟩)).1.arena.texts _ = _
      rw [hk₁.texts_placeString, Function.update_self]

theorem Engine.Keeps.canonical_of_operation (K : E.Keeps T) (hT : ∀ s h, T.level s h → h.Interned)
    (hk : T.Holds w X) {β : Type} {op : Operation β} {answer : Except HeapError β} {w' : World σ}
    (e : (E.perform op).run w = some (answer, w')) :
    ∀ x ∈ Interning.ofOperation op w.heap answer w'.heap, x.Canonical := by
  intro x hx
  cases op with
  | intern content isStatic =>
    cases answer with
    | ok r =>
      obtain rfl := List.mem_singleton.mp hx
      exact K.intern_canonical hT hk _ _ e
    | error _ => cases hx
  | _ => cases hx

end

/-! ## Every intern of an operation -/

variable {σ : Type} {host : Host σ} {fuel : ℕ} {w : World σ}

/-- The interns that native functions have performed so far have been canonical. -/
def Logged (s : σ × List Interning) (h : Heap) : Prop :=
  h.Interned ∧ ∀ e ∈ s.2, e.Canonical

theorem enduring_logged (s : σ × List Interning) : Heap.Enduring (Logged s) where
  yielding h h' hl := And.imp_left (Heap.enduring_interned.yielding h h' hl)
  of_core h h' hc hs := And.imp_left (Heap.enduring_interned.of_core h h' hc hs)
  beginPass h o hs := And.imp_left (Heap.enduring_interned.beginPass h o hs)
  leaveQueue h i keep hs hmem := And.imp_left (Heap.enduring_interned.leaveQueue h i keep hs hmem)

/-- What native functions log of their interns stays canonical. -/
theorem endures_logged :
    (host.logging Interning.ofOperation).Endures Logged enduring_logged := by
  refine .of_callers fun E P hP hkey K id v w X hk => ?_
  have hlog : Logs E (fun s h => P h ∧ Logged s h) Interning.ofOperation := by
    intro β op w w' answer hs hl hrun _ hl'
    refine ⟨hl'.1, hl'.2.1, fun x hx => ?_⟩
    rcases List.mem_append.mp hx with hx | hx
    · exact hl'.2.2 x hx
    · exact K.canonical_of_operation (X := 0) (fun _ _ hl => hl.2.1) (lax_holds_iff.mpr ⟨hs, hl⟩) hrun
        x hx
  have hrun := K.run_logging hkey (fun _ _ _ _ hl => hl) hlog (host id v) (lax_holds_iff.mp hk)
  exact After.mono hrun fun _ _ hw' => lax_holds_iff.mpr hw'

theorem Reachable.interned (hw : Reachable host w) : w.heap.Interned :=
  hw.enduring Heap.enduring_interned Heap.Interned.empty

/-- Interning is canonical. Between operations no two strings have the same content, and the table has
one entry for each string and no others. When an operation is performed whose native functions log their
interns, which makes no other difference, then every intern that has succeeded has led to a string with
the content, namely to the one that was there before if there was one: those of the operation itself as
well as those of all finalizers that have run meanwhile. -/
theorem interning_canonical (host : Host σ) (w : World σ) (hw : Reachable host w) :
    w.heap.Canonical ∧ ∀ fuel (β : Type) (op : Operation β),
      Erases Prod.fst ((Engine.top (host.logging Interning.ofOperation) fuel).perform op).run
        ((Engine.top host fuel).perform op).run ∧
      After ((Engine.top (host.logging Interning.ofOperation) fuel).perform op).run
        ⟨w.heap, w.host, []⟩ fun answer w' =>
          w'.heap.Canonical ∧
            ∀ e ∈ w'.host.2 ++ Interning.ofOperation op w.heap answer w'.heap, e.Canonical := by
  have hi := hw.interned
  refine ⟨hi.canonical, fun fuel β op => ⟨(erases_top erases_logging).perform op, ?_⟩⟩
  rintro answer w' e
  have K : (Engine.top (host.logging Interning.ofOperation) fuel).Keeps
    (Terms.outside Logged enduring_logged) := top_enduring endures_logged
  have hk : (Terms.outside Logged enduring_logged).Holds ⟨w.heap, w.host, []⟩ 0 :=
    lax_holds_iff.mpr ⟨hw.sound.1, hw.sound.2, hi, by simp⟩
  obtain ⟨-, -, hi', hlog⟩ :=
    K.perform_lax (Terms.rekeys_adding (fun _ => Heap.steady_outsidePass []) enduring_logged
      fun _ _ _ => id) op (lax_holds_iff.mp hk) answer w' e
  refine ⟨hi'.canonical, fun x hx => ?_⟩
  rcases List.mem_append.mp hx with hx | hx
  · exact hlog x hx
  · exact K.canonical_of_operation (fun _ _ hl => hl.2.1) hk e x hx

/-- The host whose native functions intern a content. -/
def Host.interning (content : String) : Host σ :=
  fun _ _ => .perform (.intern content false) fun _ => .done .returned

/-- Three objects that refer to themselves, the first of which has a finalizer. The client has dropped all
of them, and there is no room for another string. -/
def crammed : World Unit :=
  let host := Host.interning "x"
  let w := advance host 5 .registerNative ⟨.empty { maxBytes := 1000 }, ()⟩
  let w := advance host 5 (.allocObject none) w
  let w := advance host 5 (.intern "k" false) w
  let w := advance host 5 (.setFinalizer ⟨0, 0⟩ (.native ⟨0⟩)) w
  let w := advance host 5 (.allocObject none) w
  let w := advance host 5 (.allocObject none) w
  let w := advance host 5 (.putProp ⟨0, 0⟩ ⟨1, 0⟩ (.ref ⟨0, 0⟩)) w
  let w := advance host 5 (.putProp ⟨3, 0⟩ ⟨1, 0⟩ (.ref ⟨3, 0⟩)) w
  let w := advance host 5 (.putProp ⟨4, 0⟩ ⟨1, 0⟩ (.ref ⟨4, 0⟩)) w
  let w := advance host 5 (.release (.ref ⟨0, 0⟩)) w
  let w := advance host 5 (.release (.ref ⟨3, 0⟩)) w
  advance host 5 (.release (.ref ⟨4, 0⟩)) w

theorem reachable_crammed : Reachable (Host.interning "x") crammed := by
  unfold crammed
  repeat' refine Reachable.advance ?_ _ _
  exact .start _ ()

/-- The client interns a content that is not there. This takes an emergency pass, whose finalizer interns
the same content. The client gets the string of the finalizer. -/
theorem interning_canonical_crammed : Reachable (Host.interning "x") crammed ∧
    crammed.heap.Canonical ∧ ∃ w',
      ((Engine.top ((Host.interning "x").logging Interning.ofOperation) 5).perform
        (.intern "x" false)).run ⟨crammed.heap, crammed.host, []⟩ = some (.ok ⟨3, 1⟩, w') ∧
      w'.heap.Canonical ∧ w'.host.2.map Interning.result = [⟨3, 1⟩] ∧
      ∀ e ∈ w'.host.2 ++ [⟨"x", crammed.heap, ⟨3, 1⟩, w'.heap⟩], e.Canonical := by
  obtain ⟨hcanonical, hall⟩ := interning_canonical (Host.interning "x") crammed reachable_crammed
  have hran : (((Engine.top ((Host.interning "x").logging Interning.ofOperation) 5).perform
      (.intern "x" false)).run ⟨crammed.heap, crammed.host, []⟩).map
        (fun p => (p.1.toOption, p.2.host.2.map Interning.result)) =
      some (some ⟨3, 1⟩, [⟨3, 1⟩]) := by
    decide +kernel
  obtain ⟨⟨answer, w'⟩, e, he⟩ := Option.map_eq_some_iff.mp hran
  obtain ⟨hanswer, hlog⟩ := Prod.mk.inj he
  cases answer with
  | error e => cases hanswer
  | ok r =>
    cases hanswer
    obtain ⟨hafter, hevents⟩ := (hall 5 _ (.intern "x" false)).2 _ _ e
    exact ⟨reachable_crammed, hcanonical, w', e, hafter, hlog, hevents⟩

end CountedHeap
