import CountedHeap.Proofs.Heap.Withers

/-!
# Slots in the course of time

Whatever an operation does, the books of the arena only go on: no slot is freed less often than before,
and a cell that has not been freed is the same cell.

* `Heap.books_retainAll`: counts are not booked.
* `Heap.Goes`: the books go on.
* `Goes.withers`, `Goes.shifts`, `Goes.place`, `Goes.resizeBuffer`, …: the steps.
-/

namespace CountedHeap

/-! ## What a change leaves of a body -/

/-- A change that leaves the kind of a body, its text, and its size if it is a leaf. -/
structure Body.Alter (f : Body → Body) : Prop where
  kind : ∀ b, (f b).kind = b.kind
  text : ∀ b, (f b).text? = b.text?
  size : ∀ b, b.isComposite = false → (f b).size = b.size

namespace Body

theorem Akin.alter {f : Body → Body} (hf : ∀ b, Akin b (f b)) : Alter f :=
  ⟨fun b => (hf b).kind, fun b => (hf b).text, fun b => (hf b).size⟩

theorem alter_modifyObject {f : Object → Object} : Alter (·.modifyObject f) := by
  refine ⟨fun b => ?_, fun b => text?_modifyObject f, fun b hb => ?_⟩
  · cases b <;> rfl
  · cases b <;> first | rfl | cases hb

theorem alter_modifyThread {f : Thread → Thread} : Alter (·.modifyThread f) := by
  refine ⟨fun b => ?_, fun b => text?_modifyThread f, fun b hb => ?_⟩
  · cases b <;> rfl
  · cases b <;> first | rfl | cases hb

end Body

namespace Heap

open Body (Alter)

variable {h h' h'' : Heap} {r t : Handle} {i length : ℕ} {b : Body} {rs : List Handle}

@[simp] theorem books_retain : (h.retain r).arena.books = h.arena.books := by
  unfold retain
  split
  · exact Arena.books_modifyAt_of_eq fun _ => rfl
  · rfl

@[simp] theorem books_retainAll : (h.retainAll rs).arena.books = h.arena.books := by
  induction rs generalizing h with
  | nil => rfl
  | cons r rs ih => exact (ih (h := h.retain r)).trans books_retain

theorem books_resizeBuffer : (h.resizeBuffer r length).arena.books =
    (h.arena.books.account r.index (Body.cellBytes + length)).edit r.index
      (·.modifyBuffer (·.resize length)) := by
  have hbody := Arena.books_modifyBody (a := h.arena.account r.index (Body.cellBytes + length))
    (i := r.index) (·.modifyBuffer (·.resize length))
  rwa [Arena.books_account] at hbody

/-- A handle that has named a buffer, and still names a cell, names a buffer. -/
theorem buffer_of_later {h₀ : Heap} {c : Buffer} (hl : h₀.arena.books.Later h.arena.books)
    (hr : h₀.buffer r = .ok c) (hlive : h.isLive r = true) : ∃ t b,
      h.arena.books.slot r.index = some t ∧ t.body = some b ∧
        (t.freed < 2 ^ 32 → b.kind = .buffer) := by
  obtain ⟨header, hc⟩ := buffer_eq_ok.mp hr
  obtain ⟨b, t, ht, hg, hb⟩ := Arena.isLive_iff_names.mp hlive
  refine ⟨t, b, ht, hb, fun hf => ?_⟩
  obtain ⟨_, b', _, _, hb', hkind, -⟩ := hl.same (Arena.holds_of_get? hc).names ht hg hf
  obtain rfl : b = b' := Option.some.inj (hb.symm.trans hb')
  exact hkind

/-- The books go on, if new cells only get slots that are free. -/
structure Goes (h h' : Heap) : Prop where
  free : h.arena.FreeOk → h'.arena.FreeOk
  later : h.arena.FreeOk → h.arena.books.Later h'.arena.books

namespace Goes

theorem refl : Goes h h :=
  ⟨id, fun _ => .refl⟩

theorem trans (h₁ : Goes h h') (h₂ : Goes h' h'') : Goes h h'' :=
  ⟨fun hf => h₂.free (h₁.free hf), fun hf => (h₁.later hf).trans (h₂.later (h₁.free hf))⟩

theorem retainAll : Goes h (h.retainAll rs) := by
  induction rs generalizing h with
  | nil => exact refl
  | cons r rs ih =>
    have hretain : Goes h (h.retain r) := by
      refine ⟨fun hf => ?_, fun _ => books_retain ▸ .refl⟩
      unfold Heap.retain
      split
      · exact hf.modifyAt _
      · exact hf
    exact hretain.trans ih

theorem modifyBody {f : Body → Body} (hf : Alter f) : Goes h (h.modifyAt i (·.modifyBody f)) := by
  refine ⟨fun hfree => hfree.modifyAt _, fun _ => ?_⟩
  change h.arena.books.Later (h.arena.modifyAt i (·.modifyBody f)).books
  rw [Arena.books_modifyBody]
  exact .edit hf.kind hf.text

theorem place : Goes h (h.place b).1 := by
  refine ⟨fun hf => hf.place b, fun hf => ?_⟩
  change h.arena.books.Later (h.arena.place b).1.books
  rw [Arena.books_place hf]
  exact .enter (Arena.vacant_iff_books.mp (Arena.vacant_place hf))

/-- A buffer is not composite, as long as it is there. -/
theorem resizeBuffer {h₀ : Heap} {c : Buffer} (hl : h₀.arena.books.Later h.arena.books)
    (hr : h₀.buffer r = .ok c) (hlive : h.isLive r = true) : Goes h (h.resizeBuffer r length) := by
  constructor
  · intro hf
    have hfree : (h.arena.account r.index (Body.cellBytes + length)).FreeOk :=
      hf.of_core rfl (Arena.core_account _)
    exact hfree.modifyAt _
  · intro _
    rw [books_resizeBuffer]
    refine Books.Later.trans (.account fun t b ht hf hb => ?_) (.edit (fun b => ?_) fun b => ?_)
    · obtain ⟨t', b', ht', hb', hkind⟩ := buffer_of_later hl hr hlive
      obtain rfl : t = t' := Option.some.inj (ht.symm.trans ht')
      obtain rfl : b = b' := Option.some.inj (hb.symm.trans hb')
      unfold Body.isComposite
      rw [hkind hf]
      rfl
    · cases b <;> rfl
    · exact Body.text?_modifyBuffer _

theorem withers (hw : Withers h h') : Goes h h' :=
  ⟨hw.free, fun _ => hw.books.later⟩

theorem linkPrototype {proto : Option Handle} : Goes h (h.linkPrototype r proto) :=
  retainAll.trans (modifyBody Body.alter_modifyObject)

end Goes

/-! ## The strokes that make no cells and set no links -/

/-- Counts, roots and the contents of cells change. -/
inductive Stirs : Heap → Heap → Prop where
  | body (h : Heap) (i : ℕ) {f : Body → Body} (hf : Alter f) : Stirs h (h.modifyAt i (·.modifyBody f))
  | aside {h h' : Heap} (hfree : h.arena.FreeOk → h'.arena.FreeOk)
      (hbooks : h'.arena.books = h.arena.books) : Stirs h h'

theorem Touch.stirs (ht : Touch h h') : Stirs h h' := by
  cases ht with
  | retain r => exact .aside (Goes.retainAll : Goes h (h.retainAll [r])).free books_retain
  | body i hf => exact .body h i (Body.Akin.alter hf)
  | aside harena _ _ _ _ _ _ => exact .aside (fun hf => harena ▸ hf) (by rw [harena])

theorem Shift.stirs (hs : Shift h h') : Stirs h h' := by
  cases hs with
  | touch ht => exact ht.stirs
  | thread t _ _ _ => exact .body h t.index Body.alter_modifyThread
  | current c => exact .aside id rfl

end Heap

end CountedHeap
