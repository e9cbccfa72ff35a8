import CountedHeap.Proofs.Keep.Threads

/-!
# Making cells keeps the terms

An allocation may have to make room first, and the emergency pass that does so may free a cell that
the new one is to refer to. The terms are kept where this has not happened: where the new cell refers
to live cells.

* `Heap.Whole`: a cell refers to live cells only.
* `Keeps.alloc`: a cell is placed once there is room.
* `Keeps.allocObjectWith`, `Keeps.allocThread`, `Keeps.allocFunction`: cells of each kind.
-/

namespace CountedHeap

namespace Heap

variable {h : Heap} {X : Multiset Handle} {r : Handle} {n : ℕ} {b : Body}

/-- A cell refers to live cells only. -/
def Whole (h : Heap) (r : Handle) : Prop :=
  ∀ n b, h.arena.Holds r n b → ∀ q ∈ b.refs, h.isLive q = true

/-- Where all references in a heap name live cells, so do those of each cell. -/
theorem Exact.whole (hx : h.Exact X) (r : Handle) : h.Whole r := by
  intro n b hb q hq
  exact hx.live q (Multiset.mem_add.mpr (.inl (mem_stored_of_refs hb hq)))

namespace Kept

variable {s : Prop} {P : Heap → Prop}

/-- What is written to a buffer is not counted. -/
theorem modifyBuffer (hP : Steady P) (hk : Kept s P h X) (hr : h.isLive r = true)
    (f : Buffer → Buffer) : Kept s P (h.modifyBuffer r f) X := by
  obtain ⟨n, b, hb⟩ := Arena.isLive_iff.mp hr
  have hk' : Kept s P h (X + 0) := by simpa using hk
  have hvalid := hk.sound.arena.bodies r n b hb
  rw [← add_zero X]
  refine hk'.edit hP hb (Body.isComposite_modifyBuffer f) (Body.text?_modifyBuffer f) ?_ fun _ => ?_
  · cases b <;> exact hvalid
  · cases b <;> rfl

/-- The key of finalizers is made. -/
theorem setKey (hk : Kept s P h (X + {r})) (hkey : h.finalizerKey = none)
    (hP : P { h with finalizerKey := some r }) :
    Kept s P { h with finalizerKey := some r } X := by
  refine ⟨⟨hk.sound.arena, hk.sound.freeRoots, hk.sound.rootsFree⟩, hP, fun hs => ?_⟩
  refine (hk.balanced hs).shift rfl ?_
  unfold stored
  rw [hkey]
  change h.arena.owned ∅ + h.rootRefs + {r} + X = h.arena.owned ∅ + h.rootRefs + 0 + (X + {r})
  abel

/-- A count is taken on what is live. -/
theorem retainLive (hP : Steady P) {rs : List Handle} (hk : Kept s P h X) :
    Kept s P (h.retainAll rs) (X + (rs.filter h.isLive : List Handle)) := by
  induction rs generalizing h X with
  | nil => simpa [Heap.retainAll] using hk
  | cons q rs ih =>
    rw [show h.retainAll (q :: rs) = (h.retain q).retainAll rs from rfl]
    have hlive : (h.retain q).isLive = h.isLive := funext fun _ => isLive_retain
    by_cases hq : h.isLive q = true
    · have := ih (hk.retain hP (r := q) fun _ => hq)
      rw [hlive, add_assoc, Multiset.singleton_add, Multiset.cons_coe] at this
      rwa [List.filter_cons_of_pos hq]
    · have hsame : h.retain q = h := by
        unfold Heap.retain
        rw [if_neg hq]
      rw [hsame, List.filter_cons_of_neg hq]
      exact ih hk

end Kept

/-- What a cell refers to does not depend on counts. -/
theorem whole_uncount {i : ℕ} : (h.uncount i).Whole r ↔ h.Whole r := by
  have hlive : ∀ q, (h.uncount i).isLive q = h.isLive q := fun _ => Arena.isLive_modifyAt
  have hget : (h.uncount i).arena.get? r = if r.index = i then
      (h.arena.get? r).map (·.modifyHeader .release) else h.arena.get? r := Arena.get?_modifyAt
  constructor
  · intro hw n b hb q hq
    obtain ⟨c, hc, -, rfl⟩ := hb.get?
    rw [hc] at hget
    rw [← hlive]
    split at hget
    · exact hw _ _ (Arena.holds_of_get? hget) q hq
    · exact hw _ _ (Arena.holds_of_get? hget) q hq
  · intro hw n b hb q hq
    obtain ⟨c, hc, -, rfl⟩ := hb.get?
    rw [hc] at hget
    rw [hlive]
    split at hget
    · obtain ⟨c', hc', rfl⟩ := Option.map_eq_some_iff.mp hget.symm
      exact hw _ _ (Arena.holds_of_get? hc') q hq
    · exact hw _ _ (Arena.holds_of_get? hget.symm) q hq

/-- A release that is not the last only counts. -/
theorem release_of_counted (hr : h.arena.counted r ≠ 1) (hl : h.isLive r = true) :
    h.release r = (h.uncount r.index, false) := by
  rcases h.release_cases r with ⟨hdead, -⟩ | ⟨n, b, hb, hcases⟩
  · rw [hl] at hdead
    cases hdead
  · rw [hb.counted] at hr
    rcases hcases with ⟨-, he⟩ | ⟨rfl, -⟩ | ⟨rfl, -⟩
    · exact he
    · exact absurd rfl hr
    · exact absurd rfl hr

theorem counted_retain_le (q : Handle) : h.arena.counted q ≤ (h.retain r).arena.counted q := by
  unfold retain
  split
  · rename_i hl
    rw [show (h.modifyAt r.index (·.modifyHeader .acquire)).arena =
      h.arena.modifyAt r.index (·.modifyHeader .acquire) from rfl]
    unfold Arena.counted
    rw [Arena.get?_modifyAt]
    split
    · cases h.arena.get? q <;> simp [Cell.modifyHeader, Header.acquire]
    · exact le_rfl
  · exact le_rfl

theorem counted_retainAll_le {rs : List Handle} (q : Handle) :
    h.arena.counted q ≤ (h.retainAll rs).arena.counted q := by
  induction rs generalizing h with
  | nil => exact le_rfl
  | cons p rs ih => exact (counted_retain_le q).trans ih

/-- Taking counts on a live cell raises its count. -/
theorem counted_lt_retainAll {rs : List Handle} (hr : r ∈ rs) (hl : h.isLive r = true) :
    h.arena.counted r < (h.retainAll rs).arena.counted r := by
  induction rs generalizing h with
  | nil => cases hr
  | cons q rs ih =>
    rw [show h.retainAll (q :: rs) = (h.retain q).retainAll rs from rfl]
    by_cases hq : r = q
    · subst hq
      refine lt_of_lt_of_le ?_ (counted_retainAll_le r)
      have hlive : ∀ q ∈ [r], h.isLive q = true := by simpa using hl
      have := Kept.counted_retainAll hlive r
      rw [show h.retainAll [r] = h.retain r from rfl, List.count_singleton_self] at this
      omega
    · have hr' : r ∈ rs := (List.mem_cons.mp hr).resolve_left hq
      exact lt_of_le_of_lt (counted_retain_le r) (ih hr' (by rwa [isLive_retain]))

end Heap

namespace Engine.Keeps

variable {σ : Type} {E : Engine σ} {T : Terms σ} {w : World σ} {X : Multiset Handle}
  {r : Handle} {v : Value} {n : ℕ} {b : Body} {o : Object}

/-- A cell has been placed in a heap that met the terms, and has counted what it refers to. -/
structure Made (T : Terms σ) (w : World σ) (X : Multiset Handle) (b : Body) (r : Handle)
    (w' : World σ) : Prop where
  heap : ∃ h, T.Holds ⟨h, w'.host⟩ X ∧ T.since w.heap h ∧
    w'.heap = (h.place b).1.retainAll b.refs ∧ r = (h.place b).2

/-- Where the new cell refers to live cells, the terms are met with its one count in flight. -/
theorem Made.holds {w' : World σ} (hm : Made T w X b r w') (hb : b.Valid) (htext : b.text? = none)
    (hw : T.strict w'.host → w'.heap.Whole r) : T.Holds w' (X + {r}) := by
  obtain ⟨h, hk, -, hheap, rfl⟩ := hm
  obtain ⟨h', s⟩ := w'
  dsimp only at hheap hk hw
  subst hheap
  have hcell := Arena.holds_place hk.sound.arena.free b
  obtain ⟨m, hcell'⟩ := Heap.holds_retainAll (h := (h.place b).1) hcell b.refs
  refine hk.give fun _ hZ => hZ.place (T.steady _) hb htext fun hs q hq => ?_
  have := hw hs m b hcell' q hq
  rwa [Heap.isLive_retainAll] at this

/-- What the creator holds and the new cell refers to is counted twice. -/
theorem Made.counted {w' : World σ} {q : Handle} (hm : Made T w (X + {q}) b r w')
    (hs : T.strict w'.host) (hq : q ∈ b.refs) :
    w'.heap.isLive q = true ∧ w'.heap.arena.counted q ≠ 1 := by
  obtain ⟨h, hk, -, hheap, -⟩ := hm
  have hb := hk.balanced hs
  have hlive : h.arena.isLive q = true := hb.live_of_held (by simp)
  have hpos : 0 < h.arena.counted q := by
    rw [hb q, Multiset.count_pos]
    simp
  obtain ⟨m, body, hcell⟩ := Arena.isLive_iff.mp hlive
  have hkeep : (h.place b).1.arena.Holds q m body := hcell.place hk.sound.arena.free b
  have hlt := Heap.counted_lt_retainAll hq hkeep.isLive
  rw [hheap]
  refine ⟨?_, ?_⟩
  · rw [Heap.isLive_retainAll]
    exact hkeep.isLive
  · rw [hkeep.counted, ← hcell.counted] at hlt
    omega

/-- Room is made, if there is any. -/
theorem reserve (K : E.Keeps T) (hk : T.Holds w X) :
    Meets (E.reserve n) w (fun _ w' => T.Holds w' X)
      (fun _ w' => T.Holds w' X ∧ T.since w.heap w'.heap) := by
  unfold Engine.reserve
  simp only [meets_bind, meets_surely, after_query]
  split
  · simp only [meets_bind, meets_surely]
    refine (K.collect w X _ hk).mono fun _ w' hk' => ?_
    simp only [after_query]
    split
    · simpa only [meets_refuse] using hk'.1
    · simpa only [meets_pure] using hk'
  · simpa only [meets_pure] using ⟨hk, T.since_refl _⟩

theorem alloc (K : E.Keeps T) (hk : T.Holds w X) :
    Meets (E.alloc b) w (fun _ w' => T.Holds w' X) (fun r w' =>
      ∃ h, T.Holds ⟨h, w'.host⟩ X ∧ T.since w.heap h ∧ w'.heap = (h.place b).1 ∧
        r = (h.place b).2) := by
  unfold Engine.alloc
  simp only [meets_bind, meets_surely]
  refine Meets.mono (K.reserve hk) (fun _ _ hk' => hk') fun _ w' hk' => ?_
  simp only [after_change]
  exact ⟨w'.heap, hk'.1, hk'.2, rfl, rfl⟩

/-- Buffers refer to nothing. -/
theorem Holds.buffer (hk : T.Holds w X) (bytes : Buffer) :
    T.Holds ⟨(w.heap.place (.buffer bytes)).1, w.host⟩
      (X + {(w.heap.place (.buffer bytes)).2}) :=
  hk.give fun _ hZ => hZ.place (b := .buffer bytes) (T.steady _) (by rintro p ⟨⟩) rfl
    (by simp [Body.refs])

theorem allocBytes (K : E.Keeps T) {bytes : Buffer} (hk : T.Holds w X) :
    Meets (E.alloc (.buffer bytes)) w (fun _ w' => T.Holds w' X)
      (fun r w' => T.Holds w' (X + {r})) := by
  refine Meets.mono (K.alloc hk) (fun _ _ hk' => hk') ?_
  rintro r ⟨_, s⟩ ⟨h, hk', -, rfl, rfl⟩
  exact Holds.buffer hk' bytes

theorem allocObjectWith (K : E.Keeps T) (hk : T.Holds w X) :
    Meets (E.allocObjectWith o) w (fun _ w' => T.Holds w' X)
      (fun r w' => Made T w X (.object o) r w') := by
  unfold Engine.allocObjectWith
  simp only [meets_bind, meets_check, meets_surely]
  refine ⟨fun _ _ => hk, fun _ _ => ?_⟩
  refine Meets.mono (K.alloc hk) (fun _ _ hk' => hk') ?_
  rintro r w' ⟨h, hk', hsince, hheap, hr⟩
  simp only [after_modifyHeap, meets_pure]
  exact ⟨h, hk', hsince, congrArg (·.retainAll o.refs) hheap, hr⟩

theorem allocThread (K : E.Keeps T) {source : Option Handle} (hk : T.Holds w X) :
    Meets (E.allocThread source) w (fun _ w' => T.Holds w' X)
      (fun r w' => ∃ b : Body, b.Valid ∧ b.text? = none ∧ Made T w X b r w') := by
  unfold Engine.allocThread
  simp only [meets_bind, meets_check, meets_surely, after_query]
  refine ⟨fun _ _ => hk, fun builtins _ => ?_⟩
  refine Meets.mono (K.alloc hk) (fun _ _ hk' => hk') ?_
  rintro r w' ⟨h, hk', hsince, hheap, hr⟩
  simp only [after_modifyHeap, meets_pure]
  refine ⟨_, ?_, rfl, h, hk', hsince, ?_, hr⟩
  · rintro p hp
    cases hp
    exact PropertyTable.Valid.empty
  · dsimp only
    rw [hheap]
    rfl

theorem allocBuffer (K : E.Keeps T) {length : ℕ} {dynamic : Bool} (hk : T.Holds w X) :
    Meets (E.allocBuffer length dynamic) w (fun _ w' => T.Holds w' X)
      (fun r w' => T.Holds w' (X + {r})) := by
  unfold Engine.allocBuffer
  simp only [meets_bind, meets_surely]
  refine Meets.mono (K.reserve hk) (fun _ _ hk' => hk') fun _ w' hk' => ?_
  simp only [after_change]
  exact Holds.buffer hk'.1 _

/-- The buffer of a function's code is counted by the function, if that is made. -/
theorem allocFunction (K : E.Keeps T) {proto : Option Handle} {constants : List Value}
    {functions : List Handle} {code : ByteArray} (hk : T.Holds w X) :
    Meets (E.allocFunction proto constants functions code) w (fun _ w' => T.Holds w' X)
      (fun r w' => (T.strict w'.host → w'.heap.Whole r) → T.Holds w' (X + {r})) := by
  unfold Engine.allocFunction
  simp only [meets_bind, meets_check]
  refine ⟨fun _ _ => hk, fun _ _ => ?_⟩
  refine Meets.mono (K.allocBytes hk) (fun _ _ hk' => hk') fun buffer w₁ hk₁ => ?_
  refine meets_outcome.mpr (Meets.mono (K.allocObjectWith hk₁) (fun e w₂ hk₂ => ?_)
    fun r w₂ hm => ?_)
  · simp only [meets_surely]
    exact (K.release w₂ X buffer hk₂).mono fun _ w₃ hk₃ => meets_refuse.mpr hk₃.1
  · simp only [meets_surely]
    by_cases hw : T.strict w₂.host → w₂.heap.Whole r
    · have hk₂ := hm.holds (by rintro p hp; cases hp; exact PropertyTable.Valid.empty) rfl hw
      rw [add_right_comm] at hk₂
      exact (K.release w₂ _ buffer hk₂).mono fun _ w₃ hk₃ => meets_pure.mpr fun _ => hk₃.1
    · -- The function has lost a part, and still has it when its buffer is given back.
      simp only [Classical.not_imp] at hw
      obtain ⟨hs, hnot⟩ := hw
      obtain ⟨hlive, hcount⟩ := hm.counted hs (q := buffer)
        (by simp [Body.refs, Object.refs, Callable.refs, CompiledFunction.refs])
      unfold Engine.release
      simp only [after_bind, after_change, Heap.release_of_counted hcount hlive, Bool.false_eq_true,
        ite_false, after_pure, meets_pure]
      intro hw
      exact absurd (Heap.whole_uncount.mp (hw hs)) hnot

end Engine.Keeps

end CountedHeap
