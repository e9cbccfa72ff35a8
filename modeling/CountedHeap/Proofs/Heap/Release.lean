import CountedHeap.Proofs.Heap.Kept
import CountedHeap.Reclaim.Release

/-!
# What a release does

Giving a count back changes one count. If it was the last, a leaf is freed at once and a composite
cell goes to the tail of the queue, unless a tracing pass is under way or it is queued already.

* `release_cases`: all that can happen.
* `Heap.Loose`: the queue has grown at its tail, if at all, and not within a tracing pass.
* `Sound.uncount`, `Sound.freeLeaf`, `Sound.queueUncounted`: what becomes of the lists in each case.
* `Balanced.release`, `Balanced.releaseQuietly`, `Kept.release`: what is given back is no longer in
  flight.
-/

namespace CountedHeap.Heap

variable {h h' h'' : Heap} {X : Multiset Handle} {D : Finset ℕ} {r q : Handle} {n i : ℕ} {b : Body}

/-- The count of a cell goes down. -/
def uncount (h : Heap) (i : ℕ) : Heap :=
  h.modifyAt i (·.modifyHeader .release)

/-- A leaf is freed, and no table names it any longer. -/
theorem reachZero_leaf (hb : b.isComposite = false) : ∃ strings offsets counters,
    h.reachZero r b = ({ h with
      arena := h.arena.release r.index
      strings := strings
      offsets := offsets
      counters := counters }, false) := by
  cases b with
  | string t => exact ⟨_, _, _, rfl⟩
  | buffer b => exact ⟨_, _, _, rfl⟩
  | object o => cases hb
  | thread t => cases hb

/-- A composite cell is queued, unless it is or a tracing pass is under way. -/
theorem reachZero_composite (hb : b.isComposite = true) : h.reachZero r b =
    if h.sweeping = true ∨ (h.arena.linksAt r.index).chain = some .queue then (h, false)
    else (h.enqueue r.index, true) := by
  have hchain : h.arena.chainOf r.index = (h.arena.linksAt r.index).chain := Arena.chainOf_eq
  cases b with
  | string t => cases hb
  | buffer b => cases hb
  | object o => simp [reachZero, hchain]
  | thread t => simp [reachZero, hchain]

/-- All that a release can do. -/
theorem release_cases (h : Heap) (r : Handle) :
    (h.isLive r = false ∧ h.release r = (h, false)) ∨
    ∃ n b, h.arena.Holds r n b ∧
      (((n = 1 → b.isComposite = true ∧
          (h.sweeping = true ∨ (h.arena.linksAt r.index).chain = some .queue)) ∧
        h.release r = (h.uncount r.index, false)) ∨
      (n = 1 ∧ b.isComposite = false ∧ ∃ strings offsets counters,
        h.release r = ({ h.uncount r.index with
          arena := (h.uncount r.index).arena.release r.index
          strings := strings
          offsets := offsets
          counters := counters }, false)) ∨
      (n = 1 ∧ b.isComposite = true ∧ h.sweeping = false ∧
        (h.arena.linksAt r.index).chain ≠ some .queue ∧
        h.release r = ((h.uncount r.index).enqueue r.index, true))) := by
  unfold Heap.release
  cases hc : h.arena.get? r with
  | none => exact .inl ⟨Arena.get?_eq_none_iff.mp hc, rfl⟩
  | some c =>
    obtain ⟨header, body⟩ := c
    refine .inr ⟨header.count, body, Arena.holds_of_get? hc, ?_⟩
    have hlinks : (h.uncount r.index).arena.linksAt = h.arena.linksAt := Arena.linksAt_modifyAt _
    change _ ∨ _ ∨ _
    by_cases hone : header.count = 1
    · have hlast : header.isLast = true := by simp [Header.isLast, hone]
      dsimp only
      rw [if_pos hlast]
      cases hb : body.isComposite with
      | false => exact .inr (.inl ⟨hone, rfl, reachZero_leaf hb⟩)
      | true =>
        rw [show h.modifyAt r.index (·.modifyHeader .release) = h.uncount r.index from rfl,
          reachZero_composite hb, hlinks]
        by_cases hstay : (h.uncount r.index).sweeping = true ∨
            (h.arena.linksAt r.index).chain = some .queue
        · rw [if_pos hstay]
          exact .inl ⟨fun _ => ⟨rfl, hstay⟩, rfl⟩
        · rw [if_neg hstay]
          simp only [not_or, Bool.not_eq_true] at hstay
          exact .inr (.inr ⟨hone, rfl, hstay.1, hstay.2, rfl⟩)
    · have hlast : header.isLast ≠ true := by simp [Header.isLast, hone]
      dsimp only
      rw [if_neg hlast]
      exact .inl ⟨fun h1 => absurd h1 hone, rfl⟩

/-- A count that is given back does not bear on when the next pass is to begin. -/
@[simp] theorem pace_release : (h.release r).1.pace = h.pace := by
  have hzero : ∀ (h : Heap) b, (h.reachZero r b).1.pace = h.pace := by
    intro h b
    unfold reachZero
    cases b <;> dsimp only <;> first | rfl | (split <;> rfl)
  unfold Heap.release
  cases h.arena.get? r with
  | none => rfl
  | some c =>
    dsimp only
    split
    · exact hzero _ _
    · rfl

@[simp] theorem pace_releaseQuietly {rs : List Handle} : (h.releaseQuietly rs).pace = h.pace := by
  induction rs generalizing h with
  | nil => rfl
  | cons r rs ih => exact ih.trans pace_release

/-- No composite cell has been freed, and the queue has grown at its tail, if at all; within a tracing
pass it has not. -/
structure Loose (h h' : Heap) : Prop where
  sweeping : h'.sweeping = h.sweeping
  key : h'.finalizerKey = h.finalizerKey
  queue : h.arena.members .queue <+: h'.arena.members .queue
  still : h.sweeping = true → h'.arena.members .queue = h.arena.members .queue
  linked : ∀ i, (h.arena.linksAt i).chain ≠ none → (h'.arena.linksAt i).chain ≠ none
  cells : ∀ r n b, h.arena.Holds r n b → b.isComposite = true →
    ∃ m c, h'.arena.Holds r m c ∧ c.isComposite = true
  interned : h.Interned → h'.Interned
  recalls : h.Recalls → h'.Recalls

/-- The queue is the same, and so are the cells, leaf or composite as they were. -/
theorem Loose.of_lasts (hs : h'.sweeping = h.sweeping) (hk : h'.finalizerKey = h.finalizerKey)
    (hq : h'.arena.members .queue = h.arena.members .queue)
    (hl : ∀ i, (h.arena.linksAt i).chain ≠ none → (h'.arena.linksAt i).chain ≠ none)
    (hc : Lasts h.arena h'.arena) (hi : h.Interned → h'.Interned) (ho : h.Recalls → h'.Recalls) :
    Loose h h' := by
  refine ⟨hs, hk, by rw [hq], fun _ => hq, hl, fun r n b hr hb => ?_, hi, ho⟩
  obtain ⟨m, c, hr', hkind⟩ := hc r n b hr
  exact ⟨m, c, hr', hkind.trans hb⟩

theorem Calm.loose (hc : Calm h h') : Loose h h' :=
  .of_lasts hc.sweeping hc.key hc.queue hc.linked hc.cells hc.interned hc.recalls

theorem Loose.trans (h₁ : Loose h h') (h₂ : Loose h' h'') : Loose h h'' where
  sweeping := h₂.sweeping.trans h₁.sweeping
  key := h₂.key.trans h₁.key
  queue := h₁.queue.trans h₂.queue
  still hs := (h₂.still (h₁.sweeping.trans hs)).trans (h₁.still hs)
  linked i hi := h₂.linked i (h₁.linked i hi)
  cells r n b hr hb := by
    obtain ⟨m, c, hc, hcomp⟩ := h₁.cells r n b hr hb
    exact h₂.cells r m c hc hcomp
  interned hi := h₂.interned (h₁.interned hi)
  recalls hc := h₂.recalls (h₁.recalls hc)

/-! ## One count less -/

theorem core_uncount (hr : h.arena.Holds r n b) : (h.uncount r.index).arena.core =
    Function.update h.arena.core r.index (some (r.generation, some (n - 1, b))) := by
  rw [show (h.uncount r.index).arena = h.arena.modifyAt r.index (·.modifyHeader .release) from rfl,
    Arena.core_modifyAt (F := fun x => (x.1 - 1, x.2)) fun _ => rfl,
    show h.arena.core r.index = _ from hr]
  rfl

theorem holds_uncount (hr : h.arena.Holds r n b) : (h.uncount r.index).arena.Holds r (n - 1) b := by
  unfold Arena.Holds
  rw [core_uncount hr, Function.update_self]

theorem linksAt_uncount : (h.uncount i).arena.linksAt = h.arena.linksAt :=
  Arena.linksAt_modifyAt _

/-- Cells other than the one released keep their counts, and all keep their bodies. -/
theorem stored_uncount : (h.uncount i).stored D = h.stored D :=
  stored_congr (fun _ => Arena.refsAt_modifyAt fun _ => rfl) rfl rfl

theorem Balanced.uncount (hb : h.Balanced D (X + {r})) (hr : h.arena.Holds r n b) :
    0 < n ∧ (h.uncount r.index).Balanced D X := by
  have hn := hb.count_eq hr
  simp only [Multiset.count_add, Multiset.count_singleton_self] at hn
  refine ⟨by omega, hb.recount (Arena.counted_update hr (core_uncount hr)) stored_uncount ?_ ?_⟩
  · rw [hr.counted]
    simp only [Multiset.count_add, Multiset.count_singleton_self]
    omega
  · intro s hs
    rw [Multiset.count_add, Multiset.count_singleton, if_neg hs, add_zero]

/-- A cell that nothing counts is freed: it is set aside, or it owns nothing. -/
theorem Balanced.free {g : UInt32} (hb : h.Balanced D X) (hr : h.arena.Holds r 0 b)
    (hown : r.index ∈ D ∨ b.refs = [])
    (hc : h'.arena.core = Function.update h.arena.core r.index (some (g, none)))
    (hroots : h'.roots = h.roots) (hkey : h'.finalizerKey = h.finalizerKey) : h'.Balanced D X := by
  refine hb.shift (Arena.counted_free hr hc) ?_
  have hother : ∀ j ≠ r.index, h'.arena.refsAt j = h.arena.refsAt j := by
    intro j hj
    rw [Arena.refsAt_eq_core, Arena.refsAt_eq_core, hc, Function.update_of_ne hj]
  have howned : h'.arena.owned D = h.arena.owned D := by
    refine Arena.owned_congr fun j hj => ?_
    by_cases hjr : j = r.index
    · subst hjr
      rw [hr.refsAt, hown.resolve_left hj, Arena.refsAt_eq_core, hc, Function.update_self]
      rfl
    · exact hother j hjr
  unfold stored rootRefs rootValues
  rw [howned, hroots, hkey]

theorem core_enqueue : (h.enqueue i).arena.core = h.arena.core := by
  unfold enqueue modifyArena
  dsimp only
  rw [Arena.core_linkTail, Arena.core_unlink]

theorem Balanced.enqueue (hb : h.Balanced D X) : (h.enqueue i).Balanced D X :=
  hb.of_core core_enqueue rfl rfl

theorem Sound.enqueue (hs : h.Sound) (hi : (h.arena.linksAt i).chain ≠ none) :
    (h.enqueue i).Sound ∧ (h.enqueue i).arena.members =
      Function.update (fun ch => (h.arena.members ch).erase i) .queue
        ((h.arena.members .queue).erase i ++ [i]) := by
  obtain ⟨hsound, hmem⟩ := hs.arena.enqueue hi
  exact ⟨⟨hsound, hs.freeRoots, hs.rootsFree⟩, hmem⟩

/-- What is given back is no longer in flight. -/
theorem Balanced.release (hb : h.Balanced D (X + {r})) : (h.release r).1.Balanced D X := by
  have hlive := hb.live_of_held (r := r) (by simp)
  rcases h.release_cases r with ⟨hdead, -⟩ | ⟨n, b, hr, hcases⟩
  · rw [show h.isLive r = h.arena.isLive r from rfl, hlive] at hdead
    cases hdead
  · obtain ⟨-, hb'⟩ := hb.uncount hr
    rcases hcases with ⟨-, he⟩ | ⟨rfl, hleaf, strings, offsets, counters, he⟩ | ⟨-, -, -, -, he⟩
    · rw [he]
      exact hb'
    · rw [he]
      exact hb'.free (holds_uncount hr) (.inr (Body.refs_eq_nil hleaf))
        (Arena.core_release (holds_uncount hr)) rfl rfl
    · rw [he]
      exact hb'.enqueue

/-- A release takes a count off one cell, or empties its slot. -/
theorem core_release (hr : h.arena.Holds r n b) : (h.release r).1.arena.core =
    Function.update h.arena.core r.index (if n = 1 ∧ b.isComposite = false then
      some (r.generation + 1, none) else some (r.generation, some (n - 1, b))) := by
  rcases h.release_cases r with ⟨hdead, -⟩ | ⟨m, c, hr', hcases⟩
  · rw [show h.isLive r = true from hr.isLive] at hdead
    cases hdead
  obtain ⟨rfl, rfl⟩ := hr'.unique hr
  rcases hcases with ⟨hone, he⟩ | ⟨rfl, hleaf, _, _, _, he⟩ | ⟨rfl, hcomp, -, -, he⟩
  · rw [he, if_neg]
    · exact core_uncount hr
    · rintro ⟨h1, hleaf⟩
      rw [(hone h1).1] at hleaf
      cases hleaf
  · rw [he, if_pos ⟨rfl, hleaf⟩]
    dsimp only
    rw [Arena.core_release (holds_uncount hr), core_uncount hr, Function.update_idem]
  · rw [he, if_neg (by simp [hcomp])]
    exact core_enqueue.trans (core_uncount hr)

/-- A release takes the entry of a string out of the table if it frees the string. -/
theorem strings_release (hr : h.arena.Holds r n b) : (h.release r).1.strings =
    if n = 1 then b.text?.elim h.strings fun t => (h.strings.remove t.hash r).1 else h.strings := by
  obtain ⟨⟨header, b⟩, hc, rfl, rfl⟩ := hr.get?
  unfold release
  rw [hc]
  dsimp only
  by_cases hone : header.count = 1
  · rw [if_pos hone, if_pos (by simpa [Header.isLast] using hone)]
    cases b with
    | string t => rfl
    | buffer b => rfl
    | object o => unfold reachZero; dsimp only; split <;> rfl
    | thread t => unfold reachZero; dsimp only; split <;> rfl
  · rw [if_neg hone, if_neg (by simpa [Header.isLast] using hone)]
    rfl

/-- A release keeps the intern table exact. -/
theorem Interned.release (hi : h.Interned) : (h.release r).1.Interned := by
  rcases h.release_cases r with ⟨-, he⟩ | ⟨n, b, hr, -⟩
  · rw [he]
    exact hi
  have hcore := core_release hr
  have hstrings := strings_release hr
  by_cases hfreed : n = 1 ∧ b.isComposite = false
  · rw [if_pos hfreed] at hcore
    rw [if_pos hfreed.1] at hstrings
    have htexts := Arena.texts_free hr hcore
    cases ht : b.text? with
    | some t => exact hi.drop (hr.texts.trans ht) (by rw [hstrings, ht]; rfl) htexts
    | none =>
      refine hi.congr (by rw [hstrings, ht]; rfl) (htexts.trans ?_)
      rw [Function.update_eq_self_iff, hr.texts, ht]
  · rw [if_neg hfreed] at hcore
    refine hi.congr (hstrings.trans ?_) (Arena.texts_update hr hcore rfl)
    split
    · rename_i hone
      rw [Body.text?_eq_none (by simpa [hone] using hfreed)]
      rfl
    · rfl

/-- A release forgets a string if it frees it. -/
theorem offsets_release (hr : h.arena.Holds r n b) : (h.release r).1.offsets =
    (if n = 1 then b.text?.elim h.offsets fun _ => h.offsets.remove r else h.offsets) ∧
      (h.release r).1.config = h.config := by
  obtain ⟨⟨header, b⟩, hc, rfl, rfl⟩ := hr.get?
  unfold release
  rw [hc]
  dsimp only
  by_cases hone : header.count = 1
  · rw [if_pos hone, if_pos (by simpa [Header.isLast] using hone)]
    cases b with
    | string t => exact ⟨rfl, rfl⟩
    | buffer b => exact ⟨rfl, rfl⟩
    | object o => unfold reachZero; dsimp only; split <;> exact ⟨rfl, rfl⟩
    | thread t => unfold reachZero; dsimp only; split <;> exact ⟨rfl, rfl⟩
  · rw [if_neg hone, if_neg (by simpa [Header.isLast] using hone)]
    exact ⟨rfl, rfl⟩

/-- After a release the offset cache can still be trusted. -/
theorem Recalls.release (ho : h.Recalls) : (h.release r).1.Recalls := by
  rcases h.release_cases r with ⟨-, he⟩ | ⟨n, b, hr, -⟩
  · rw [he]
    exact ho
  have hcore := core_release hr
  obtain ⟨hoffsets, hconfig⟩ := offsets_release hr
  by_cases hfreed : n = 1 ∧ b.isComposite = false
  · rw [if_pos hfreed] at hcore
    rw [if_pos hfreed.1] at hoffsets
    have htexts := Arena.texts_free hr hcore
    cases ht : b.text? with
    | some t => exact ho.drop (by rw [hoffsets, ht]; rfl) hconfig htexts
    | none =>
      refine ho.congr (by rw [hoffsets, ht]; rfl) hconfig (htexts.trans ?_)
      rw [Function.update_eq_self_iff, hr.texts, ht]
  · rw [if_neg hfreed] at hcore
    refine ho.congr (hoffsets.trans ?_) hconfig (Arena.texts_update hr hcore rfl)
    split
    · rename_i hone
      rw [Body.text?_eq_none (by simpa [hone] using hfreed)]
      rfl
    · rfl

/-- Other cells are not touched by a release. -/
theorem holds_release_iff (hr : h.arena.Holds r n b) (hq : q.index ≠ r.index) {m : ℕ} {c : Body} :
    (h.release r).1.arena.Holds q m c ↔ h.arena.Holds q m c := by
  unfold Arena.Holds
  rw [core_release hr, Function.update_of_ne hq]

/-- A release frees no composite cell. -/
theorem composite_release {k : ℕ} {c : Body} (hq : h.arena.Holds q k c) (hc : c.isComposite = true) :
    ∃ m, (h.release r).1.arena.Holds q m c := by
  rcases h.release_cases r with ⟨-, he⟩ | ⟨n, b, hr, -⟩
  · rw [he]
    exact ⟨k, hq⟩
  · by_cases hi : q.index = r.index
    · obtain rfl := hq.eq_of_index hr hi
      obtain ⟨-, rfl⟩ := hq.unique hr
      refine ⟨n - 1, ?_⟩
      unfold Arena.Holds
      rw [core_release hr, Function.update_self, if_neg (by simp [hc])]
    · exact ⟨k, (holds_release_iff hr hi).mpr hq⟩

/-- A release frees nothing but a leaf whose last count it was. -/
theorem freed_of_release (hr : h.arena.Holds r n b) (hlive : h.isLive q = true)
    (hdead : (h.release r).1.isLive q = false) : q = r ∧ n = 1 ∧ b.isComposite = false := by
  obtain ⟨m, c, hq⟩ := Arena.isLive_iff.mp hlive
  by_cases hi : q.index = r.index
  · obtain rfl := hq.eq_of_index hr hi
    refine ⟨rfl, ?_⟩
    by_contra hlast
    have hstays : (h.release q).1.arena.Holds q (n - 1) b := by
      unfold Arena.Holds
      rw [core_release hr, Function.update_self, if_neg hlast]
    rw [show (h.release q).1.isLive q = true from hstays.isLive] at hdead
    cases hdead
  · have hstays := ((holds_release_iff hr hi).mpr hq).isLive
    rw [show (h.release r).1.isLive q = true from hstays] at hdead
    cases hdead

/-! ## What becomes of the lists -/

/-- A count is taken off that is not the last one of a leaf, and the lists stay as they are. -/
theorem Sound.uncount (hs : h.Sound) (hr : h.arena.Holds r n b) (hone : n = 1 → b.isComposite = true) :
    (h.uncount r.index).Sound ∧ (h.uncount r.index).arena.members = h.arena.members := by
  have hleft : b.isComposite = false → 0 < n - 1 := by
    intro hleaf
    have hpos := hs.arena.leaves r n b hr hleaf
    have hne : n ≠ 1 := by
      intro h1
      rw [hone h1] at hleaf
      cases hleaf
    omega
  obtain ⟨hsound, hmem⟩ := hs.arena.recell hr (core_uncount hr) linksAt_uncount rfl rfl rfl hleft
    (hs.arena.bodies r n b hr)
  exact ⟨⟨hsound, hs.freeRoots, hs.rootsFree⟩, hmem⟩

/-- The last count of a leaf is taken off and its slot is emptied. It was on no list. -/
theorem Sound.freeLeaf (hs : h.Sound) (hr : h.arena.Holds r 1 b) (hleaf : b.isComposite = false) :
    ((h.uncount r.index).arena.release r.index).Sound ∧
    ((h.uncount r.index).arena.release r.index).members = h.arena.members ∧
    ((h.uncount r.index).arena.release r.index).linksAt = h.arena.linksAt := by
  have hlinks : ((h.uncount r.index).arena.release r.index).linksAt = h.arena.linksAt :=
    Arena.linksAt_release.trans linksAt_uncount
  have hends : ((h.uncount r.index).arena.release r.index).ends = h.arena.ends :=
    Arena.ends_release
  have ht := hs.arena.threaded.congr hends hlinks
  refine ⟨hs.arena.vacate (g := r.generation + 1) hr ?_ (fun j _ => by rw [hlinks]) ?_
    (Arena.free_release (holds_uncount hr)) (ht.members_eq ▸ ht), ht.members_eq, hlinks⟩
  · rw [Arena.core_release (holds_uncount hr), core_uncount hr, Function.update_idem]
  · rw [hlinks]
    exact hs.arena.chain_eq_none hr hleaf

/-- A cell whose last count is taken off leaves its list for the end of the queue. -/
theorem Sound.queueUncounted (hs : h.Sound) (hr : h.arena.Holds r n b) (hcomp : b.isComposite = true) :
    ((h.uncount r.index).enqueue r.index).Sound ∧
    ((h.uncount r.index).enqueue r.index).arena.members =
      Function.update (fun ch => (h.arena.members ch).erase r.index) .queue
        ((h.arena.members .queue).erase r.index ++ [r.index]) ∧
    ∀ i, (((h.uncount r.index).enqueue r.index).arena.linksAt i).chain ≠ none ↔
      (h.arena.linksAt i).chain ≠ none := by
  obtain ⟨hs₁, hmem⟩ := hs.uncount hr fun _ => hcomp
  have hlinked : ((h.uncount r.index).arena.linksAt r.index).chain ≠ none := by
    rw [linksAt_uncount]
    exact hs.arena.chain_ne_none hr hcomp
  obtain ⟨hs₂, hmem₂⟩ := hs₁.enqueue hlinked
  refine ⟨hs₂, by rw [hmem₂, hmem], fun i => ?_⟩
  rw [hs₁.arena.linked_iff hs₂.arena core_enqueue, linksAt_uncount]

/-- A release keeps a heap sound, and queues a cell whose last count it was. -/
theorem Sound.release_cases (hs : h.Sound) : (h.release r).1.Sound ∧ Loose h (h.release r).1 ∧
    (h.release r).1.arena.members .queue =
      h.arena.members .queue ++ (if (h.release r).2 then [r.index] else []) ∧
    ((h.release r).2 = true → h.arena.counted r = 1) := by
  have hcells : ∀ q k c, h.arena.Holds q k c → c.isComposite = true →
      ∃ m c', (h.release r).1.arena.Holds q m c' ∧ c'.isComposite = true := by
    intro q k c hq hc
    obtain ⟨m, hm⟩ := composite_release hq hc
    exact ⟨m, c, hm, hc⟩
  have hinterned : h.Interned → (h.release r).1.Interned := Interned.release
  have hrecalls : h.Recalls → (h.release r).1.Recalls := Recalls.release
  rcases h.release_cases r with ⟨-, he⟩ | ⟨n, b, hr, hcases⟩
  · rw [he]
    exact ⟨hs, Calm.refl.loose, by simp, by simp⟩
  rcases hcases with ⟨hone, he⟩ | ⟨rfl, hleaf, strings, offsets, counters, he⟩ |
    ⟨rfl, hcomp, hsweep, hchain, he⟩
  · obtain ⟨hsound, hmem⟩ := hs.uncount hr fun h1 => (hone h1).1
    rw [he] at hcells hinterned hrecalls ⊢
    exact ⟨hsound, ⟨rfl, rfl, by rw [hmem], fun _ => by rw [hmem],
      fun i hi => by rwa [linksAt_uncount], hcells, hinterned, hrecalls⟩, by simp [hmem], by simp⟩
  · obtain ⟨hsound, hmem, hlinks⟩ := hs.freeLeaf hr hleaf
    rw [he] at hcells hinterned hrecalls ⊢
    exact ⟨⟨hsound, hs.freeRoots, hs.rootsFree⟩, ⟨rfl, rfl, by rw [hmem], fun _ => by rw [hmem],
      fun i hi => by rwa [hlinks], hcells, hinterned, hrecalls⟩, by simp [hmem], by simp⟩
  · obtain ⟨hsound, hmem, hlinked⟩ := hs.queueUncounted hr hcomp
    have hnot : r.index ∉ h.arena.members .queue := fun hm => hchain (hs.arena.mem_members.mp hm)
    have hqueue : ((h.uncount r.index).enqueue r.index).arena.members .queue =
        h.arena.members .queue ++ [r.index] := by
      rw [hmem, Function.update_self, List.erase_of_not_mem hnot]
    rw [he] at hcells hinterned hrecalls ⊢
    refine ⟨hsound, ⟨rfl, rfl, ?_, fun hsw => ?_, fun i => (hlinked i).mpr, hcells, hinterned,
      hrecalls⟩, by simpa using hqueue, fun _ => hr.counted⟩
    · rw [hqueue]
      exact List.prefix_append _ _
    · rw [hsweep] at hsw
      cases hsw

theorem Sound.release (hs : h.Sound) : (h.release r).1.Sound ∧ Loose h (h.release r).1 :=
  ⟨hs.release_cases.1, hs.release_cases.2.1⟩

/-- Outside of passes a cell that has lost its last count is no longer allocated. -/
theorem Tight.release (ht : h.Tight) (hs : h.Sound) (hsweep : h.sweeping = false) :
    (h.release r).1.Tight := by
  rcases h.release_cases r with ⟨-, he⟩ | ⟨n, b, hr, hcases⟩
  · rw [he]
    exact ht
  have hcore := core_release hr
  rcases hcases with ⟨hone, he⟩ | ⟨rfl, hleaf, strings, offsets, counters, he⟩ |
    ⟨rfl, hcomp, -, -, he⟩
  · have hsame := (hs.uncount hr fun h1 => (hone h1).1).2
    rw [he] at hcore ⊢
    refine ht.update (hcore.trans (congrArg _ (if_neg ?_))) (fun j _ hj => by rwa [hsame] at hj) ?_
    · rintro ⟨h1, hleaf⟩
      rw [(hone h1).1] at hleaf
      cases hleaf
    · rintro _ _ ⟨⟩ hi
      rw [hsame] at hi
      have hpos := ht r n b hr hi
      have hne : n ≠ 1 := by
        intro h1
        have hqueued := ((hone h1).2).resolve_left (by simp [hsweep])
        rw [hs.arena.mem_members.mp hi] at hqueued
        cases hqueued
      omega
  · have hsame := (hs.freeLeaf hr hleaf).2.1
    rw [he] at hcore ⊢
    refine ht.update (hcore.trans (congrArg _ (if_pos ⟨rfl, hleaf⟩)))
      (fun j _ hj => by rwa [hsame] at hj) ?_
    rintro _ _ ⟨⟩
  · have hlists := (hs.queueUncounted hr hcomp).2.1
    rw [he] at hcore ⊢
    have hallocated : ∀ j, j ∈ ((h.uncount r.index).enqueue r.index).arena.members .allocated →
        j ∈ h.arena.members .allocated ∧ j ≠ r.index := by
      intro j hj
      rw [hlists, Function.update_of_ne (by simp)] at hj
      have hnd := (hs.arena.threaded .allocated).nodup
      exact ⟨List.mem_of_mem_erase hj, fun e => hnd.not_mem_erase (e ▸ hj)⟩
    refine ht.update (hcore.trans (congrArg _ (if_neg (by simp [hcomp]))))
      (fun j _ hj => (hallocated j hj).1) ?_
    exact fun _ _ _ hi => absurd rfl (hallocated _ hi).2

/-! ## Counts given back without working the queue off -/

theorem Balanced.releaseQuietly {rs : List Handle} (hb : h.Balanced D (X + rs)) :
    (h.releaseQuietly rs).Balanced D X := by
  induction rs generalizing h with
  | nil => simpa [Heap.releaseQuietly] using hb
  | cons r rs ih =>
    rw [add_coe_cons] at hb
    exact ih hb.release

theorem Sound.releaseQuietly {rs : List Handle} (hs : h.Sound) :
    (h.releaseQuietly rs).Sound ∧ Loose h (h.releaseQuietly rs) := by
  induction rs generalizing h with
  | nil => exact ⟨hs, Calm.refl.loose⟩
  | cons r rs ih =>
    obtain ⟨hs₁, hl₁⟩ := hs.release (r := r)
    obtain ⟨hs₂, hl₂⟩ := ih hs₁
    exact ⟨hs₂, hl₁.trans hl₂⟩

theorem Tight.releaseQuietly {rs : List Handle} (ht : h.Tight) (hs : h.Sound)
    (hsweep : h.sweeping = false) : (h.releaseQuietly rs).Tight := by
  induction rs generalizing h with
  | nil => exact ht
  | cons r rs ih =>
    obtain ⟨hs₁, hl₁⟩ := hs.release (r := r)
    exact ih (ht.release hs hsweep) hs₁ (hl₁.sweeping.trans hsweep)

/-- A condition that releases keep. -/
def Yielding (P : Heap → Prop) : Prop :=
  ∀ h h', Loose h h' → P h → P h'

theorem Yielding.steady {P : Heap → Prop} (hP : Yielding P) : Steady P :=
  fun h h' hc => hP h h' hc.loose

theorem Yielding.and {P Q : Heap → Prop} (hP : Yielding P) (hQ : Yielding Q) :
    Yielding fun h => P h ∧ Q h :=
  fun h h' hl hk => ⟨hP h h' hl hk.1, hQ h h' hl hk.2⟩

namespace Kept

variable {s : Prop} {P : Heap → Prop}

theorem release (hP : Yielding P) (hk : Kept s P h (X + {r})) : Kept s P (h.release r).1 X := by
  obtain ⟨hsound, hloose⟩ := hk.sound.release (r := r)
  exact ⟨hsound, hP _ _ hloose hk.level, fun hs => (hk.balanced hs).release⟩

end Kept

end CountedHeap.Heap
