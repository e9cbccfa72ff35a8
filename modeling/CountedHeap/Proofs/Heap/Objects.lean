import CountedHeap.Proofs.Heap.Shrinks

/-!
# What look-ups see

A look-up of a property sees nothing of a heap but the objects that handles name. An operation that edits
properties or a prototype changes one of these objects, and the counts that it takes change none.

* `object_modifyObject`, `object_retainAll`: edits and counts.
* `object_linkPrototype`, `object_storeSlot`, `object_dropSlot`: what operations edit.
* `findWithin_eq_some`, `unfinalized_iff`: what is found is some object's own.
-/

namespace CountedHeap.Heap

variable {h : Heap} {r q key : Handle} {o : Object} {slot : Slot}

/-- Of a cell only the body is seen. -/
theorem object_congr {h' : Heap}
    (hbody : (h'.arena.get? q).map (·.body) = (h.arena.get? q).map (·.body)) :
    h'.object q = h.object q := by
  unfold object
  cases hc : h.arena.get? q with
  | none =>
    rw [hc, Option.map_none, Option.map_eq_none_iff] at hbody
    rw [hbody]
  | some c =>
    rw [hc, Option.map_some] at hbody
    obtain ⟨c', hc', hsame⟩ := Option.map_eq_some_iff.mp hbody
    rw [hc']
    dsimp only [Cell.kind]
    rw [hsame]

theorem object_modifyAt {f : Cell → Cell} {i : ℕ} (hf : ∀ c, (f c).body = c.body) :
    (h.modifyAt i f).object = h.object := by
  funext q
  refine object_congr ?_
  rw [show (h.modifyAt i f).arena = h.arena.modifyAt i f from rfl, Arena.get?_modifyAt]
  split
  · cases h.arena.get? q <;> simp [hf]
  · rfl

theorem object_retain : (h.retain r).object = h.object := by
  unfold retain
  split
  · exact object_modifyAt fun _ => rfl
  · rfl

@[simp] theorem object_retainAll {rs : List Handle} : (h.retainAll rs).object = h.object := by
  induction rs generalizing h with
  | nil => rfl
  | cons r rs ih => exact ih.trans object_retain

/-- What an object is edited to is found under its handle, and nothing else changes. -/
theorem object_modifyObject (ho : h.object r = .ok o) (f : Object → Object) :
    (h.modifyObject r f).object = Function.update h.object r (.ok (f o)) := by
  obtain ⟨⟨header, body⟩, hc, hobject⟩ := object_eq_ok.mp ho
  have hget : ∀ q, (h.modifyObject r f).arena.get? q =
      if q.index = r.index then (h.arena.get? q).map (·.modifyBody (·.modifyObject f))
      else h.arena.get? q := fun _ => Arena.get?_modifyAt
  funext q
  rcases eq_or_ne q r with rfl | hq
  · rw [Function.update_self]
    refine object_eq_ok.mpr ⟨_, (hget q).trans (by rw [if_pos rfl, hc]; rfl), ?_⟩
    cases body <;> cases hobject <;> rfl
  · rw [Function.update_of_ne hq]
    refine object_congr ?_
    rw [hget]
    split
    · rename_i hi
      -- Two live handles of one slot are the same.
      have hstale : h.arena.get? q = none := by
        refine Option.eq_none_iff_forall_ne_some.mpr fun d hd => hq ?_
        exact (Arena.holds_of_get? hd).eq_of_index (Arena.holds_of_get? hc) hi
      rw [hstale]
      rfl
    · rfl

theorem object_linkPrototype (ho : h.object r = .ok o) (proto : Option Handle) :
    (h.linkPrototype r proto).object = Function.update h.object r (.ok { o with proto := proto }) := by
  have hretained : (h.retainAll proto.toList).object r = .ok o := by rwa [object_retainAll]
  exact (object_modifyObject hretained _).trans (by rw [object_retainAll])

theorem object_storeSlot (ho : h.object r = .ok o) :
    (h.storeSlot r key slot).1.object =
      Function.update h.object r (.ok { o with props := (o.props.set key slot).1 }) := by
  have hstored : ((h.modifyObject r fun o => { o with props := (o.props.set key slot).1 }).retainAll
      slot.refs).object = Function.update h.object r (.ok { o with props := (o.props.set key slot).1 }) :=
    object_retainAll.trans (object_modifyObject ho _)
  unfold storeSlot
  cases h.ownSlot? r key with
  | none => exact object_retain.trans hstored
  | some _ => exact hstored

theorem ownSlot?_eq (ho : h.object r = .ok o) : h.ownSlot? r key = o.props.get? key := by
  unfold ownSlot?
  rw [ho]

theorem object_dropSlot (ho : h.object r = .ok o) (hslot : o.props.get? key = some slot) :
    (h.dropSlot r key).1.object =
      Function.update h.object r (.ok { o with props := (o.props.delete key).1 }) := by
  unfold dropSlot
  rw [ownSlot?_eq ho, hslot]
  exact object_modifyObject ho _

/-! ## Holders -/

/-- What a look-up finds is the own property of an object. -/
theorem findWithin_eq_some {n : ℕ} (hf : h.findWithin key n r = .ok (some (q, slot))) :
    ∃ o, h.object q = .ok o ∧ o.props.get? key = some slot := by
  induction n generalizing r with
  | zero => cases hf
  | succ n ih =>
    unfold findWithin at hf
    cases ho : h.object r with
    | error e => simp [ho] at hf
    | ok o =>
      rw [ho] at hf
      dsimp only at hf
      split at hf
      · rename_i slot' hslot
        cases hf
        exact ⟨o, ho, hslot⟩
      · split at hf
        · exact ih hf
        · cases hf

/-- No finalizer is found if no object has one of its own. -/
theorem unfinalized_iff : h.Unfinalized ↔ ∀ fk q o v, h.finalizerKey = some fk →
    h.object q = .ok o → o.props.get? fk = some (.data v) → v.isUndefined = true := by
  constructor
  · intro hu fk q o v hkey ho hslot
    have hfound : h.findInChain q fk = .ok (some (q, .data v)) := by
      simp [findInChain, maxPrototypeChain, findWithin, ho, hslot]
    have hnone := hu q
    unfold resolveFinalizer at hnone
    rw [hkey] at hnone
    simpa [hfound] using hnone
  · intro hall r
    unfold resolveFinalizer
    split
    · rfl
    · rename_i fk hkey
      split
      · rename_i q v hfound
        obtain ⟨o, ho, hslot⟩ := findWithin_eq_some hfound
        rw [if_pos (hall fk q o v hkey ho hslot)]
      · rfl

/-- Whether a finalizer is found can be found out slot by slot. -/
instance decidableUnfinalized : Decidable h.Unfinalized :=
  decidable_of_iff (∀ i ∈ List.range h.arena.slots.size,
      h.resolveFinalizer (h.arena.handleAt i) = none) <| by
    refine ⟨fun hall r => ?_, fun hu i _ => hu _⟩
    by_contra hsome
    cases hc : h.arena.get? r with
    | none =>
      have hstale : h.object r = .error .invalidHandle := by
        unfold object
        rw [hc]
      unfold resolveFinalizer findInChain maxPrototypeChain findWithin at hsome
      cases hkey : h.finalizerKey <;> simp [hkey, hstale] at hsome
    | some c =>
      have hr := Arena.holds_of_get? hc
      refine hsome ?_
      rw [← hr.handleAt]
      exact hall _ (List.mem_range.mpr (Arena.lt_size_of_core hr))

/-- One object is edited, and gets no finalizer of its own. -/
theorem Unfinalized.update {h' : Heap} (hu : h.Unfinalized) (hkey : h'.finalizerKey = h.finalizerKey)
    (hobj : h'.object = Function.update h.object r (.ok o))
    (ho : ∀ fk v, h.finalizerKey = some fk → o.props.get? fk = some (.data v) → v.isUndefined = true) :
    h'.Unfinalized := by
  refine unfinalized_iff.mpr fun fk q o' v hfk hq hslot => ?_
  rw [hkey] at hfk
  rw [hobj] at hq
  rcases eq_or_ne q r with rfl | hne
  · rw [Function.update_self] at hq
    cases hq
    exact ho fk v hfk hslot
  · rw [Function.update_of_ne hne] at hq
    exact unfinalized_iff.mp hu fk q o' v hfk hq hslot

end CountedHeap.Heap
