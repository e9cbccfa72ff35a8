import CountedHeap.Proofs.Accounts
import CountedHeap.Proofs.Keep.Logging

/-!
# How the arena represents its cells

Wherever anyone looks at the heap, the free list has the vacant slots, the two lists are threaded in
both directions through the composite cells, and what is counted is what is there. A handle that has
been returned for a cell names this cell until the slot is freed, and no other cell afterwards.

* `Arena.walkBack`: a list from tail to head.
* `Arena.Represents`: what is said of slots, lists and numbers.
* `Sound.represents`: this holds of sound arenas.
* `Chronicled.sound`: all heaps that anyone looks at are sound.
* `Heap.Names`: what a handle that names a cell says about a later heap.
* `arena_represents`: all of this in every run.
* `arena_represents_recycled`: a run in which a finalizer makes a cell.
-/

namespace CountedHeap

namespace Arena

variable {a : Arena} {ch : Chain} {l : List ℕ} {i : ℕ}

/-- The slots of a list from a slot back, at most as many as the first argument says. -/
def walkBack (a : Arena) : ℕ → Option ℕ → List ℕ
  | n + 1, some i => i :: walkBack a n (a.linksAt i).prev
  | _, _ => []

/-- The number of occupied slots. -/
def occupied (a : Arena) : ℕ :=
  a.slots.toList.countP fun s => s.cell.isSome

/-- A list is threaded in both directions through the slots that are tagged with it. -/
structure Doubly (a : Arena) (ch : Chain) : Prop where
  nodup : (a.members ch).Nodup
  length : (a.ends ch).length = (a.members ch).length
  head : (a.ends ch).head = (a.members ch).head?
  tail : (a.ends ch).tail = (a.members ch).getLast?
  first : ∀ i ∈ (a.members ch).head?, (a.linksAt i).prev = none
  last : ∀ i ∈ (a.members ch).getLast?, (a.linksAt i).next = none
  back : a.walkBack (a.ends ch).length (a.ends ch).tail = (a.members ch).reverse
  tagged : ∀ i, i ∈ a.members ch ↔ a.chainOf i = some ch

/-- What slots, lists and numbers say about the cells. -/
structure Represents (a : Arena) : Prop where
  nodup : a.free.Nodup
  free : ∀ i, i ∈ a.free ↔ ∃ s, a.slots[i]? = some s ∧ s.cell = none
  doubly : ∀ ch, a.Doubly ch
  disjoint : ∀ i, i ∈ a.members .allocated → i ∉ a.members .queue
  composite : ∀ i, (i ∈ a.members .allocated ∨ i ∈ a.members .queue) ↔
    ∃ c, a.cellAt? i = some c ∧ c.isComposite = true
  liveCount : a.liveCount = a.occupied
  countOf : a.liveCount = a.countOf .string + a.countOf .object + a.countOf .buffer + a.countOf .thread

/-! ## Sound arenas -/

theorem IsChain.walkBack_eq (h : a.IsChain ch l) : ∀ l₁ l₂, l = l₁ ++ l₂ →
    a.walkBack l₁.length l₁.getLast? = l₁.reverse := by
  intro l₁
  induction l₁ using List.reverseRecOn with
  | nil => intro _ _; rfl
  | append_singleton l₁ i ih =>
    intro l₂ e
    rw [List.getLast?_concat, List.length_append, List.length_singleton, walkBack,
      h.links l₁ i l₂ (by rw [e]; simp), ih ([i] ++ l₂) (by rw [e]; simp)]
    simp

theorem IsChain.doubly (h : a.IsChain ch (a.members ch)) : a.Doubly ch where
  nodup := h.nodup
  length := h.length
  head := h.head
  tail := h.tail
  first i hi := by
    obtain ⟨l, hl⟩ := List.head?_eq_some_iff.mp hi
    rw [h.links [] i l hl]
    rfl
  last i hi := by
    obtain ⟨l, hl⟩ := List.getLast?_eq_some_iff.mp hi
    rw [h.links l i [] hl]
    rfl
  back := by
    rw [h.length, h.tail]
    exact h.walkBack_eq _ [] (List.append_nil _).symm
  tagged i := by
    rw [chainOf_eq]
    exact h.mem_iff

/-- Slots that are not free are occupied. -/
theorem FreeOk.liveCount_eq (h : a.FreeOk) : a.liveCount = a.occupied := by
  have hfree : a.free.Perm ((List.range a.slots.size).filter fun i => (a.cellAt? i).isNone) := by
    refine (List.perm_ext_iff_of_nodup h.1 (List.nodup_range.filter _)).mpr fun i => ?_
    rw [h.2, List.mem_filter, List.mem_range]
    unfold cellAt?
    constructor
    · rintro ⟨s, hs, hc⟩
      exact ⟨(Array.getElem?_eq_some_iff.mp hs).1, by simp [hs, hc]⟩
    · rintro ⟨hi, hc⟩
      rw [Array.getElem?_eq_getElem hi] at hc ⊢
      exact ⟨_, rfl, by simpa using hc⟩
  have hvacant : a.free.length = a.slots.toList.countP fun s => ¬ s.cell.isSome := by
    rw [hfree.length_eq, ← List.countP_eq_length_filter, ← countP_slots]
    congr
    funext s
    cases s.cell <;> rfl
  have hall := List.length_eq_countP_add_countP (fun s : ArenaSlot => s.cell.isSome)
    (l := a.slots.toList)
  rw [Array.length_toList, ← hvacant] at hall
  unfold liveCount occupied
  omega

/-- Every cell is of one of the kinds. -/
theorem occupied_eq : a.occupied =
    a.countOf .string + a.countOf .object + a.countOf .buffer + a.countOf .thread := by
  simp only [countOf_eq_countP]
  unfold occupied
  induction a.slots.toList with
  | nil => rfl
  | cons s l ih =>
    simp only [List.countP_cons, ih]
    rcases s with ⟨n, links, bytes, - | c⟩
    · simp
    · cases hk : c.kind <;> simp [hk] <;> omega

theorem Sound.represents (h : a.Sound) : a.Represents where
  nodup := h.free.1
  free := h.free.2
  doubly ch := (h.threaded ch).doubly
  disjoint i hi hi' := Chain.noConfusion (h.threaded.eq_of_mem hi hi')
  composite i := by
    rw [h.mem_members, h.mem_members, cellAt?_isComposite_iff, ← h.linked]
    cases (a.linksAt i).chain with
    | none => simp
    | some ch => cases ch <;> simp
  liveCount := h.free.liveCount_eq
  countOf := h.free.liveCount_eq.trans occupied_eq

end Arena

/-! ## Sound heaps wherever anyone looks -/

variable {σ : Type} {host : Host σ}

/-- All heaps that have been noted are sound. -/
def Sounded (s : σ × List Moment) (_ : Heap) : Prop :=
  ∀ m ∈ s.2, m.heap.Sound

theorem enduring_sounded (s : σ × List Moment) : Heap.Enduring (Sounded s) where
  yielding _ _ _ := id
  of_core _ _ _ _ := id
  beginPass _ _ _ := id
  leaveQueue _ _ _ _ _ := id

/-- A sound heap is noted. -/
theorem Sounded.note {s : σ × List Moment} {h : Heap} {m : Moment} (hall : Sounded s h)
    (hm : m.heap.Sound) : Sounded (s.1, s.2 ++ [m]) h := by
  intro m' hm'
  rcases List.mem_append.mp hm' with hm' | hm'
  · exact hall m' hm'
  · obtain rfl := List.mem_singleton.mp hm'
    exact hm

/-- Native functions see sound heaps only, and leave sound heaps. -/
theorem endures_sounded : host.chronicled.Endures Sounded enduring_sounded := by
  refine .of_callers fun E P hP hkey K id v w X hk => ?_
  have hlog : Logs E (fun s h => P h ∧ Sounded s h)
      fun op _ answer h' => [⟨h', op.returned answer⟩] :=
    fun _ _ _ _ _ _ _ _ hs' hl' => ⟨hl'.1, hl'.2.note hs'⟩
  obtain ⟨hs, hl⟩ := lax_holds_iff.mp hk
  have hstart : Sounded (w.host.1, w.host.2 ++ [⟨w.heap, none⟩]) w.heap := hl.2.note hs
  have hrun := K.run_logging hkey (fun _ _ _ _ hl => hl) hlog (host id v)
    (w := ⟨w.heap, w.host.1, w.host.2 ++ [⟨w.heap, none⟩]⟩) ⟨hs, hl.1, hstart⟩
  exact fun a w' e => lax_holds_iff.mpr (hrun a w' e)

theorem Chronicled.sound {w : World (σ × List Moment)} (hw : Chronicled host w) :
    w.heap.Sound ∧ Heap.OutsidePass [] w.heap ∧ Sounded w.host w.heap := by
  induction hw with
  | start config s =>
    have hempty : Heap.Kept False Heap.AtRest (.empty config) 0 := kept_empty
    refine ⟨hempty.sound, hempty.level.1, fun m hm => ?_⟩
    obtain rfl := List.mem_singleton.mp hm
    exact hempty.sound
  | @perform _ op fuel _ w' answer _ e ih =>
    have K : (Engine.top host.chronicled fuel).Keeps (Terms.outside Sounded enduring_sounded) :=
      top_enduring endures_sounded
    obtain ⟨hs, hout, hall⟩ := K.perform_lax (Terms.rekeys_adding
      (fun _ => Heap.steady_outsidePass []) enduring_sounded fun _ _ _ => id) op ih _ _ e
    exact ⟨hs, hout, hall.note hs⟩
  | host s _ ih => exact ih

/-! ## Handles in the course of time -/

namespace Heap

/-- How often a slot has been freed. -/
def freedAt (h : Heap) (i : ℕ) : ℕ :=
  ((h.arena.slots[i]?).map (·.freed)).getD 0

/-- What a handle that names a cell says about a later heap: it names the same cell until its slot is
freed, and none afterwards. -/
structure Tracks (h h' : Heap) (r : Handle) : Prop where
  freed : h.freedAt r.index ≤ h'.freedAt r.index
  same : h'.freedAt r.index = h.freedAt r.index → ∃ c c', h.arena.get? r = some c ∧
    h'.arena.get? r = some c' ∧ c'.kind = c.kind ∧ c'.body.text? = c.body.text?
  gone : h.freedAt r.index < h'.freedAt r.index → h'.arena.get? r = none

theorem freedAt_of_slot {h : Heap} {i : ℕ} {t : Tenure} (ht : h.arena.books.slot i = some t) :
    h.freedAt i = t.freed := by
  obtain ⟨s, hs, rfl⟩ := Option.map_eq_some_iff.mp ht
  unfold freedAt
  rw [hs]
  rfl

theorem tracks_of_later {h h' : Heap} {r : Handle} (hl : h.arena.books.Later h'.arena.books)
    (hu : h'.arena.books.Unwrapped) (hr : h.isLive r = true) : Tracks h h' r := by
  obtain ⟨b, hnames⟩ := Arena.isLive_iff_names.mp hr
  obtain ⟨t, ht, hg, hb⟩ := id hnames
  obtain ⟨t', ht', hlater⟩ := hl.slot _ t ht
  have hfreed := freedAt_of_slot ht
  have hfreed' := freedAt_of_slot ht'
  refine ⟨?_, fun he => ?_, fun hlt => ?_⟩
  · rw [hfreed, hfreed']
    exact hlater.freed
  · rw [hfreed, hfreed'] at he
    obtain ⟨b', hb', hkind, htext, -⟩ := hlater.same he b hb
    obtain ⟨n, hn⟩ := Arena.books_names.mp hnames
    obtain ⟨m, hm⟩ := Arena.books_names.mp ⟨t', ht', he ▸ hg, hb'⟩
    obtain ⟨c, hc, -, rfl⟩ := hn.get?
    obtain ⟨c', hc', -, rfl⟩ := hm.get?
    exact ⟨c, c', hc, hc', hkind, htext⟩
  · rw [hfreed, hfreed'] at hlt
    rw [Arena.get?_eq_none_iff, Bool.eq_false_iff]
    intro hlive
    obtain ⟨b', t'', ht'', hg', -⟩ := Arena.isLive_iff_names.mp hlive
    obtain rfl : t' = t'' := Option.some.inj (ht'.symm.trans ht'')
    obtain ⟨t₀, -, ht₀, he, -⟩ := hl.same hnames ht' hg' (hu _ t' ht')
    obtain rfl : t = t₀ := Option.some.inj (ht.symm.trans ht₀)
    exact absurd he hlt.ne'

end Heap

/-- Wherever anyone looks at the heap in a run, whatever finalizers do: the free list has each vacant slot
once and no other, the two lists are threaded in both directions through the slots that are tagged with
them, each composite cell is on one of them and nothing else is, and the numbers of cells are right. As
long as no slot has been freed 2^32 times, a handle that is returned for a cell names a cell, and a handle
that names a cell names this cell as long as its slot has not been freed, and no cell ever after. -/
theorem arena_represents (host : Host σ) (w : World (σ × List Moment)) (hw : Chronicled host w) :
    w.heap.arena.Represents ∧ (∀ m ∈ w.host.2, m.heap.arena.Represents) ∧
    ((∀ s ∈ w.heap.arena.slots, s.freed < 2 ^ 32) →
      (∀ m ∈ w.host.2, ∀ r ∈ m.returned, m.heap.isLive r = true) ∧
      w.host.2.Pairwise fun m m' => ∀ r, m.heap.isLive r = true → Heap.Tracks m.heap m'.heap r) := by
  obtain ⟨hs, -, hall⟩ := hw.sound
  have hnoted := accounts_kept.noted hw
  refine ⟨hs.arena.represents, fun m hm => (hall m hm).arena.represents, fun hslots => ?_⟩
  have hu : ∀ m ∈ w.host.2, m.heap.arena.books.Unwrapped :=
    fun m hm => (Arena.unwrapped_of_slots hslots).earlier (hnoted.since m hm)
  refine ⟨fun m hm r hr => ?_, ?_⟩
  · obtain ⟨b, t, ht, hg, hb, -⟩ := (hnoted.each m hm).2 r hr (hu m hm)
    exact Arena.isLive_iff_names.mpr ⟨b, t, ht, hg, hb⟩
  · exact hnoted.order.imp_of_mem fun _ hm' hl _ hr => Heap.tracks_of_later hl (hu _ hm') hr

/-- The host whose native functions make a buffer. -/
def Host.making : Host σ :=
  fun _ _ => .perform (.allocBuffer 1 false) fun _ => .done .returned

/-- An object with a finalizer has been dropped, and a buffer has been made after it. -/
def recycled : World (Unit × List Moment) :=
  let host := Host.making
  let w := chronicle host 5 .registerNative ⟨.empty {}, (), [⟨.empty {}, none⟩]⟩
  let w := chronicle host 5 (.allocObject none) w
  let w := chronicle host 5 (.setFinalizer ⟨0, 0⟩ (.native ⟨0⟩)) w
  let w := chronicle host 5 (.release (.ref ⟨0, 0⟩)) w
  chronicle host 5 (.allocBuffer 1 false) w

theorem chronicled_recycled : Chronicled .making recycled := by
  unfold recycled
  repeat' refine Chronicled.next ?_ _ _
  exact .start _ ()

/-- The finalizer still sees the object and makes the buffer elsewhere. The client's buffer then comes into
the slot of the object, whose handle names nothing by then. -/
theorem arena_represents_recycled : Chronicled .making recycled ∧ recycled.heap.arena.Represents ∧
    (∀ s ∈ recycled.heap.arena.slots, s.freed < 2 ^ 32) ∧
    recycled.host.2.map (fun m => (m.returned, m.heap.isLive ⟨0, 0⟩, m.heap.isLive ⟨0, 1⟩)) =
      [(none, false, false), (none, false, false), (some ⟨0, 0⟩, true, false), (none, true, false),
        (none, true, false), (some ⟨2, 0⟩, true, false), (none, false, false),
        (some ⟨0, 1⟩, false, true)] ∧
    recycled.host.2.Pairwise fun m m' => ∀ r, m.heap.isLive r = true → Heap.Tracks m.heap m'.heap r := by
  have hslots : ∀ s ∈ recycled.heap.arena.slots.toList, s.freed < 2 ^ 32 := by
    decide +kernel
  have hall : ∀ s ∈ recycled.heap.arena.slots, s.freed < 2 ^ 32 :=
    fun s hs => hslots s (Array.mem_toList_iff.mpr hs)
  obtain ⟨hrepresents, -, htracks⟩ := arena_represents .making recycled chronicled_recycled
  exact ⟨chronicled_recycled, hrepresents, hall, by decide +kernel, (htracks hall).2⟩

end CountedHeap
