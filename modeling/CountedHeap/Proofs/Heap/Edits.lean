import CountedHeap.Mutation.Coroutines
import CountedHeap.Mutation.Finalizers
import CountedHeap.Proofs.Cell.Edits
import CountedHeap.Proofs.Heap.Kept

/-!
# Steps at looked-up cells

An operation looks a cell up before it changes it. What the look-up has found, an object, a thread or
a buffer, says what the change takes and gives up.

* `object_eq_ok`, `thread_eq_ok`, `buffer_eq_ok`: what a look-up has found.
* `endThread_induction`: what the changes preserve that end a thread.
* `Kept.editObject`, `Kept.storeObject`, `Kept.editThread`, `Kept.storeThread`: changes of what was
  found.
* `Kept.storeSlot`, `Kept.dropSlot`, `Kept.storeElement`, …: the changes that operations make.
-/

namespace CountedHeap.Heap

variable {h : Heap} {X given taken : Multiset Handle} {r key : Handle} {n i : ℕ} {o : Object}
  {t : Thread} {b : Buffer} {v old : Value} {slot : Slot}

/-! ## Look-ups -/

theorem bind_eq_ok {α β : Type} {x : Except HeapError α} {f : α → Except HeapError β} {b : β} :
    x >>= f = .ok b ↔ ∃ a, x = .ok a ∧ f a = .ok b := by
  cases x <;> simp [bind, Except.bind]

/-- A check that refuses on a condition, and otherwise goes on. -/
theorem ite_throw_eq_ok {α β : Type} {p : Prop} [Decidable p] {e : HeapError}
    {f : α → Except HeapError β} {x : Except HeapError β} {b : β} :
    (if p then throw e >>= f else x) = .ok b ↔ ¬ p ∧ x = .ok b := by
  by_cases hp : p <;> simp [hp, throw, throwThe, MonadExceptOf.throw, bind, Except.bind]

theorem object_eq_ok : h.object r = .ok o ↔
    ∃ c, h.arena.get? r = some c ∧ c.body.object? = some o := by
  unfold object
  cases h.arena.get? r with
  | none => simp
  | some c => cases hb : c.body.object? <;> simp [hb]

theorem thread_eq_ok : h.thread r = .ok t ↔
    ∃ header, h.arena.get? r = some ⟨header, .thread t⟩ := by
  unfold thread
  cases h.arena.get? r with
  | none => simp
  | some c =>
    obtain ⟨header, body⟩ := c
    cases body <;> simp

theorem buffer_eq_ok : h.buffer r = .ok b ↔
    ∃ header, h.arena.get? r = some ⟨header, .buffer b⟩ := by
  unfold buffer
  cases h.arena.get? r with
  | none => simp
  | some c =>
    obtain ⟨header, body⟩ := c
    cases body <;> simp

theorem live_of_object (ho : h.object r = .ok o) : h.isLive r = true := by
  obtain ⟨c, hc, -⟩ := object_eq_ok.mp ho
  exact (Arena.holds_of_get? hc).isLive

theorem live_of_thread (ht : h.thread r = .ok t) : h.isLive r = true := by
  obtain ⟨header, hc⟩ := thread_eq_ok.mp ht
  exact (Arena.holds_of_get? hc).isLive

theorem live_of_buffer (hb : h.buffer r = .ok b) : h.isLive r = true := by
  obtain ⟨header, hc⟩ := buffer_eq_ok.mp hb
  exact (Arena.holds_of_get? hc).isLive

/-! ## The end of a thread -/

section

variable {q : Handle} {resumer : Option Handle}

/-- What is preserved when a thread ends: it is terminated, its resumer may run again, and the current
thread is replaced. -/
theorem endThread_induction {P : Heap → Prop}
    (hend : P (h.modifyThread q ({ · with state := .terminated, resumer := none })))
    (hwake : ∀ h' r t, resumer = some r → h'.thread r = .ok t → P h' → P (h'.setState r .running))
    (hcurrent : ∀ h' c, c = none ∨ c = resumer → P h' → P (h'.setCurrent c)) :
    P (h.endThread q resumer) := by
  unfold endThread
  cases resumer with
  | none =>
    dsimp only
    split
    · exact hcurrent _ _ (.inl rfl) hend
    · exact hend
  | some r =>
    refine hcurrent _ _ (.inr rfl) ?_
    unfold wake
    split
    · exact hwake _ r _ rfl ‹_› hend
    · exact hend

theorem current_endThread : (h.endThread q resumer).current =
    resumer.or (if h.current = some q then none else h.current) := by
  unfold endThread
  cases resumer with
  | some r => rfl
  | none =>
    dsimp only
    split
    · exact (if_pos ‹_›).symm
    · exact (if_neg ‹_›).symm

theorem isLive_endThread : (h.endThread q resumer).isLive r = h.isLive r :=
  endThread_induction (P := fun h' => h'.isLive r = h.isLive r) Arena.isLive_modifyAt
    (fun _ _ _ _ _ hl => Arena.isLive_modifyAt.trans hl) fun _ _ _ hl => hl

/-- Neither the roots nor the key of finalizers change. -/
theorem aside_endThread : (h.endThread q resumer).roots = h.roots ∧
    (h.endThread q resumer).finalizerKey = h.finalizerKey :=
  endThread_induction (P := fun h' => h'.roots = h.roots ∧ h'.finalizerKey = h.finalizerKey)
    ⟨rfl, rfl⟩ (fun _ _ _ _ _ hs => hs) fun _ _ _ hs => hs

end

/-! ## Values -/

/-- A value that can be stored refers to live cells. -/
theorem live_of_checkValue (hv : h.checkValue v = .ok ()) : ∀ q ∈ v.refs, h.isLive q = true := by
  unfold checkValue at hv
  unfold Value.refs
  cases hh : v.handle? with
  | none => simp
  | some q =>
    rw [hh] at hv
    dsimp only at hv
    split at hv
    · simpa
    · cases hv

/-! ## Changes of what was found -/

namespace Kept

variable {s : Prop} {P : Heap → Prop}

theorem editObject (hP : Steady P) (hk : Kept s P h (X + taken)) (ho : h.object r = .ok o)
    {f : Object → Object} (hv : o.props.Valid → (f o).props.Valid)
    (hrefs : o.props.Valid → ((f o).refs : Multiset Handle) + given = o.refs + taken) :
    Kept s P (h.modifyObject r f) (X + given) := by
  obtain ⟨c, hc, hb⟩ := object_eq_ok.mp ho
  have hr := Arena.holds_of_get? hc
  have hprops := hk.sound.arena.bodies _ _ _ hr o hb
  refine hk.edit hP hr (Body.isComposite_modifyObject f) (Body.text?_modifyObject f) ?_ fun _ =>
    Body.refs_modifyObject hb (hrefs hprops)
  exact Body.valid_modifyObject hb (hv hprops)

theorem storeObject (hP : Steady P) {new : List Handle} (hk : Kept s P h X)
    (ho : h.object r = .ok o) {f : Object → Object} (hl : s → ∀ q ∈ new, h.isLive q = true)
    (hv : o.props.Valid → (f o).props.Valid)
    (hrefs : o.props.Valid → ((f o).refs : Multiset Handle) + given = o.refs + new) :
    Kept s P ((h.modifyObject r f).retainAll new) (X + given) := by
  obtain ⟨c, hc, hb⟩ := object_eq_ok.mp ho
  have hr := Arena.holds_of_get? hc
  have hprops := hk.sound.arena.bodies _ _ _ hr o hb
  exact hk.store hP hr (Body.isComposite_modifyObject f) (Body.text?_modifyObject f)
    (Body.valid_modifyObject hb (hv hprops)) hl fun _ => Body.refs_modifyObject hb (hrefs hprops)

theorem editThread (hP : Steady P) (hk : Kept s P h (X + taken)) (ht : h.thread r = .ok t)
    {f : Thread → Thread} (ho : (f t).object = t.object)
    (hrefs : ((f t).refs : Multiset Handle) + given = t.refs + taken) :
    Kept s P (h.modifyThread r f) (X + given) := by
  obtain ⟨header, hc⟩ := thread_eq_ok.mp ht
  have hr := Arena.holds_of_get? hc
  refine hk.edit hP hr (Body.isComposite_modifyThread f) (Body.text?_modifyThread f) ?_ fun _ => hrefs
  rintro p hp
  cases hp
  rw [ho]
  exact hk.sound.arena.bodies _ _ _ hr t.object rfl

theorem storeThread (hP : Steady P) {new : List Handle} (hk : Kept s P h X)
    (ht : h.thread r = .ok t) {f : Thread → Thread} (ho : (f t).object = t.object)
    (hl : s → ∀ q ∈ new, h.isLive q = true)
    (hrefs : ((f t).refs : Multiset Handle) + given = t.refs + new) :
    Kept s P ((h.modifyThread r f).retainAll new) (X + given) := by
  obtain ⟨header, hc⟩ := thread_eq_ok.mp ht
  have hr := Arena.holds_of_get? hc
  refine hk.store hP hr (Body.isComposite_modifyThread f) (Body.text?_modifyThread f) ?_ hl fun _ => hrefs
  rintro p hp
  cases hp
  rw [ho]
  exact hk.sound.arena.bodies _ _ _ hr t.object rfl

/-- A change of a thread that leaves alone what the thread counts. -/
theorem adjustThread (hP : Steady P) (hk : Kept s P h X) (ht : h.thread r = .ok t)
    {f : Thread → Thread} (ho : (f t).object = t.object) (hrefs : (f t).refs = t.refs) :
    Kept s P (h.modifyThread r f) X := by
  have hk' : Kept s P h (X + 0) := by simpa using hk
  rw [← add_zero X]
  exact hk'.editThread hP ht ho (by rw [hrefs])

end Kept

/-! ## Properties, prototypes and elements -/

theorem live_of_checkKind {kind : CellKind} (hk : h.checkKind r kind = .ok ()) :
    h.isLive r = true := by
  unfold checkKind kind? at hk
  unfold isLive Arena.isLive
  cases hc : h.arena.get? r with
  | none => simp [hc] at hk
  | some c => rfl

theorem text_of_checkKind (hk : h.checkKind r .string = .ok ()) : ∃ t, h.text r = .ok t := by
  unfold checkKind kind? at hk
  unfold text
  cases hc : h.arena.get? r with
  | none => simp [hc] at hk
  | some c =>
    obtain ⟨header, body⟩ := c
    cases body with
    | string t => exact ⟨t, rfl⟩
    | object o => simp [hc, Cell.kind, Body.kind] at hk
    | buffer b => simp [hc, Cell.kind, Body.kind] at hk
    | thread t => simp [hc, Cell.kind, Body.kind] at hk

theorem checkStore_eq_ok (hc : h.checkStore r key slot = .ok ()) :
    h.isLive key = true ∧ (∀ q ∈ slot.refs, h.isLive q = true) ∧ ∃ o, h.object r = .ok o := by
  unfold checkStore at hc
  cases hk : h.checkKind key .string with
  | error e => simp [hk, bind, Except.bind] at hc
  | ok u =>
    simp only [hk, bind, Except.bind] at hc
    by_cases hs : slot.refs.all h.isLive = true
    · rw [if_pos hs] at hc
      cases ho : h.object r with
      | error e => simp [ho] at hc
      | ok o => exact ⟨live_of_checkKind hk, by simpa using hs, o, rfl⟩
    · rw [if_neg hs] at hc
      cases hc

theorem checkPrototype_eq_ok {proto old : Option Handle} (hc : h.checkPrototype r proto = .ok old) :
    ∃ o, h.object r = .ok o ∧ (∀ q ∈ proto, h.isLive q = true) ∧ o.proto = old := by
  unfold checkPrototype at hc
  simp only [bind_eq_ok] at hc
  obtain ⟨o, ho, _, hp, _, -, hold⟩ := hc
  refine ⟨o, ho, ?_, by cases hold; rfl⟩
  rintro q hq
  cases hq
  unfold checkProto at hp
  cases hq : h.object q with
  | error e => simp [hq, Except.map] at hp
  | ok p => exact live_of_object hq

theorem checkArray_eq_ok (hc : h.checkArray r = .ok n) : ∃ o, h.object r = .ok o := by
  unfold checkArray at hc
  simp only [bind_eq_ok] at hc
  obtain ⟨o, ho, -⟩ := hc
  exact ⟨o, ho⟩

theorem checkRoot_eq_ok : h.checkRoot n = .ok v ↔ h.root? n = some v := by
  unfold checkRoot
  cases h.root? n <;> simp

namespace Kept

variable {s : Prop} {P : Heap → Prop}

theorem storeSlot (hP : Steady P) (hk : Kept s P h X) (hc : h.checkStore r key slot = .ok ()) :
    Kept s P (h.storeSlot r key slot).1 (X + ((h.storeSlot r key slot).2 : List Handle)) := by
  obtain ⟨hkey, hslot, o, ho⟩ := checkStore_eq_ok hc
  have hv : o.props.Valid → ({ o with props := (o.props.set key slot).1 } : Object).props.Valid :=
    fun hv => hv.set
  have hown : h.ownSlot? r key = o.props.get? key := by simp [ownSlot?, ho]
  unfold Heap.storeSlot
  rw [hown]
  cases hg : o.props.get? key with
  | some old =>
    exact hk.storeObject hP ho (fun _ => hslot) hv fun hv => Object.refs_set_replaced hv hg
  | none =>
    have hall : ∀ q ∈ slot.refs ++ [key], h.isLive q = true := by
      intro q hq
      rcases List.mem_append.mp hq with hq | hq
      · exact hslot q hq
      · rw [List.mem_singleton.mp hq]
        exact hkey
    have := hk.storeObject hP (f := fun o => { o with props := (o.props.set key slot).1 }) ho
      (fun _ => hall) hv fun hv => Object.refs_set_inserted hv hg
    rw [Heap.retainAll, List.foldl_append, add_zero] at this
    rw [Multiset.coe_nil, add_zero]
    exact this

theorem dropSlot (hP : Steady P) {displaced : List Handle} (hk : Kept s P h X)
    (hd : (h.dropSlot r key).2 = some displaced) :
    Kept s P (h.dropSlot r key).1 (X + displaced) := by
  unfold Heap.dropSlot at hd ⊢
  cases hown : h.ownSlot? r key with
  | none => simp [hown] at hd
  | some old =>
    simp only [hown, Option.some.injEq] at hd
    subst hd
    dsimp only
    unfold ownSlot? at hown
    cases ho : h.object r with
    | error e => simp [ho] at hown
    | ok o =>
      simp only [ho] at hown
      have hk' : Kept s P h (X + 0) := by simpa using hk
      exact hk'.editObject hP ho (fun hv => hv.delete) fun hv => Object.refs_delete hv hown

theorem dropSlot_none (hk : Kept s P h X) (hd : (h.dropSlot r key).2 = none) :
    Kept s P (h.dropSlot r key).1 X := by
  unfold Heap.dropSlot at hd ⊢
  cases hown : h.ownSlot? r key with
  | none => exact hk
  | some old => simp [hown] at hd

theorem linkPrototype (hP : Steady P) {proto : Option Handle} (hk : Kept s P h X)
    (ho : h.object r = .ok o) (hl : ∀ q ∈ proto, h.isLive q = true) :
    Kept s P (h.linkPrototype r proto) (X + (o.proto.toList : List Handle)) := by
  have := hk.storeObject hP (f := ({ · with proto := proto })) ho
    (fun _ q hq => hl q (by simpa using hq)) id fun _ => Object.refs_setProto proto
  unfold Heap.linkPrototype modifyObject
  rw [← retainAll_modifyBody]
  exact this

theorem appendElement (hP : Steady P) (hk : Kept s P h X) (ho : h.object r = .ok o)
    (hv : h.checkValue v = .ok ()) : Kept s P (h.appendElement r v) X := by
  rw [← add_zero X]
  exact hk.storeObject hP ho (fun _ => live_of_checkValue hv) id fun _ =>
    Object.refs_pushElement v

theorem storeElement (hP : Steady P) (hk : Kept s P h X) (ho : h.object r = .ok o)
    (hv : h.checkValue v = .ok ()) :
    Kept s P (h.storeElement r i v).1 (X + ((h.storeElement r i v).2 : List Handle)) := by
  unfold Heap.storeElement
  rw [ho]
  exact hk.storeObject hP ho (fun _ => live_of_checkValue hv) id fun _ =>
    Object.refs_storeElement v i

end Kept

/-! ## Threads -/

namespace Kept

variable {s : Prop} {P : Heap → Prop}

theorem setState (hP : Steady P) (hk : Kept s P h X) (ht : h.thread r = .ok t)
    (state : ThreadState) : Kept s P (h.setState r state) X :=
  hk.adjustThread hP ht rfl rfl

theorem setCurrent (hP : Steady P) (hk : Kept s P h X) (c : Option Handle) :
    Kept s P (h.setCurrent c) X :=
  hk.aside hP rfl rfl rfl rfl rfl rfl rfl

end Kept

end CountedHeap.Heap
