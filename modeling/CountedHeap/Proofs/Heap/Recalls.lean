import CountedHeap.Proofs.Heap.Interned
import CountedHeap.Proofs.Text.Offsets

/-!
# The offset cache of a heap

The cache names strings and counts none of them. It can be trusted if it forgets a string whenever one is
freed, before the slot of the string is used again.

* `Heap.tables`: what is kept about strings beside their cells.
* `Heap.Recalls`: the cache can be trusted, and is as large as the configuration says.
* `Recalls.findOffset`: what a look-up finds then, whatever the cache holds.
* `Recalls.grow`, `Recalls.drop`, `Recalls.remember`: a string is made, a string is freed, an offset is
  remembered.
-/

namespace CountedHeap.Heap

variable {h h' : Heap} {r : Handle} {t : Text} {i : ℕ}

/-- What is kept about strings beside their cells, and how much of it there may be. -/
def tables (h : Heap) : InternTable × OffsetCache × Config :=
  (h.strings, h.offsets, h.config)

theorem text_eq_ok : h.text r = .ok t ↔ h.arena.texts r = some t := by
  unfold text Arena.texts
  cases h.arena.get? r with
  | none => simp
  | some c =>
    obtain ⟨header, b⟩ := c
    cases b <;> simp [Body.text?]

/-- The cache can be trusted. -/
structure Recalls (h : Heap) : Prop where
  capacity : h.offsets.capacity = h.config.offsetCacheSize
  tells : h.offsets.Tells h.arena.texts

namespace Recalls

theorem empty (config : Config) : Recalls (.empty config) :=
  ⟨rfl, .empty⟩

/-- Strings are made at most. -/
theorem grow (hc : h.Recalls) (ho : h'.offsets = h.offsets) (hconfig : h'.config = h.config)
    (ht : ∀ r t, h.arena.texts r = some t → h'.arena.texts r = some t) : h'.Recalls := by
  refine ⟨?_, ?_⟩
  · rw [ho, hconfig]
    exact hc.capacity
  · rw [ho]
    exact hc.tells.mono fun e _ => ht e.string

theorem congr (hc : h.Recalls) (ho : h'.offsets = h.offsets) (hconfig : h'.config = h.config)
    (ht : h'.arena.texts = h.arena.texts) : h'.Recalls :=
  hc.grow ho hconfig fun _ _ hr => ht ▸ hr

/-- A string is freed, and forgotten. -/
theorem drop (hc : h.Recalls) (ho : h'.offsets = h.offsets.remove r) (hconfig : h'.config = h.config)
    (ht : h'.arena.texts = Function.update h.arena.texts r none) : h'.Recalls := by
  refine ⟨?_, ?_⟩
  · rw [ho, hconfig]
    exact hc.capacity
  · rw [ho, ht]
    exact hc.tells.remove

/-- All strings are forgotten. -/
theorem flush (hc : h.Recalls) (ho : h'.offsets = h.offsets.flush) (hconfig : h'.config = h.config) :
    h'.Recalls := by
  refine ⟨?_, ?_⟩
  · rw [ho, hconfig]
    exact hc.capacity
  · rw [ho]
    exact hc.tells.flush

/-! ## Looking up an offset -/

/-- Whatever the cache holds, the search starts from a true offset. -/
theorem scanStart (hc : h.Recalls) (ht : h.arena.texts r = some t) :
    (h.scanStart r t i).2 = byteOffset t.content.toList (h.scanStart r t i).1 := by
  have hends : ∀ p : Prop, [Decidable p] →
      (if p then (t.charCount, t.size) else (0, 0)).2 =
        byteOffset t.content.toList (if p then (t.charCount, t.size) else (0, 0)).1 := by
    intro p _
    split
    · exact byteOffset_charCount.symm
    · exact byteOffset_zero.symm
  unfold Heap.scanStart
  dsimp only
  split
  · rename_i known hknown
    split
    · exact hc.tells.right_of_nearest? ht hknown
    · exact hends _
  · exact hends _

/-- So the offset that is found is the true one. -/
theorem findOffset (hc : h.Recalls) (ht : h.arena.texts r = some t) (hi : i ≤ t.charCount) :
    h.findOffset r i = .ok (byteOffset t.content.toList i, !t.isAscii) := by
  unfold Heap.findOffset
  rw [text_eq_ok.mpr ht]
  simp only [bind, Except.bind, pure, Except.pure, if_neg (Nat.not_lt.mpr hi)]
  cases hascii : t.isAscii with
  | true => simp [Text.byteOffset_of_isAscii hascii hi]
  | false => simp [hc.scanStart ht, scan_byteOffset]

theorem remember (hc : h.Recalls) (ht : h.arena.texts r = some t) (hi : i ≤ t.charCount) :
    (h.rememberOffset r i (byteOffset t.content.toList i)).Recalls := by
  refine ⟨?_, hc.tells.record ht hi⟩
  change (h.offsets.record r i _).capacity = _
  unfold OffsetCache.record
  split <;> exact hc.capacity

/-- An offset that has been found is remembered. -/
theorem remember_found (hc : h.Recalls) {byte : ℕ} {looked : Bool}
    (hfound : h.findOffset r i = .ok (byte, looked)) : (h.rememberOffset r i byte).Recalls := by
  obtain ⟨t, ht, hi⟩ : ∃ t, h.arena.texts r = some t ∧ i ≤ t.charCount := by
    unfold Heap.findOffset at hfound
    cases htext : h.text r with
    | error e => simp [htext, bind, Except.bind] at hfound
    | ok t =>
      refine ⟨t, text_eq_ok.mp htext, Nat.not_lt.mp fun hlt => ?_⟩
      simp [htext, bind, Except.bind, hlt, throw, throwThe, MonadExceptOf.throw] at hfound
  rw [hc.findOffset ht hi] at hfound
  cases hfound
  exact hc.remember ht hi

end Recalls

end CountedHeap.Heap
