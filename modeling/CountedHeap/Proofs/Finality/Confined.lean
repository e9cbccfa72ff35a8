import CountedHeap.Proofs.Heap.Aloof

/-!
# What an operation leaves alone

A client that passes only handles of cells that it reaches changes no cell that is out of use. Such a cell
is referred to by cells out of use only, and it has all its counts from them. As long as neither the cell nor
its counts change, no other reference to it can have been stored: the counts would not be exact. So nothing
that is out of use is put to use.

* `Heap.Usable`: what a client may pass.
* `Heap.Confined`: all that changes is what a client may pass, and what is new.
* `Confined.retainAll`, `Confined.modifyObject`, `Confined.place`, …: the changes that operations make.
* `Confined.leafKey`, `Shrinks.leafKey`: the key of finalizers is that of a leaf.
* `Confined.usable`: no cell is put to use.
* `Confined.aloof`: no finalized cell is in use afterwards.
-/

namespace CountedHeap

theorem Arena.composite_iff {a : Arena} {r : Handle} :
    a.Composite r ↔ ∃ c, a.get? r = some c ∧ c.isComposite = true := by
  constructor
  · rintro ⟨n, b, hr, hcomp⟩
    obtain ⟨c, hc, -, rfl⟩ := hr.get?
    exact ⟨c, hc, hcomp⟩
  · rintro ⟨c, hc, hcomp⟩
    exact ⟨_, _, holds_of_get? hc, hcomp⟩

/-- A string or a buffer. -/
def Arena.Leaf (a : Arena) (r : Handle) : Prop :=
  ∃ n b, a.Holds r n b ∧ b.isComposite = false

theorem Arena.Leaf.not_composite {a : Arena} {r : Handle} (hr : a.Leaf r) : ¬ a.Composite r := by
  rintro ⟨n, b, hb, hcomp⟩
  obtain ⟨m, c, hc, hleaf⟩ := hr
  rw [(hb.unique hc).2, hleaf] at hcomp
  cases hcomp

namespace Heap

open Arena (Composite Finalized Holds Leaf Traces)

variable {h h' h'' : Heap} {S : Handle → Prop} {X Y : Multiset Handle} {r p q g : Handle} {n i : ℕ}
  {b : Body}

/-- A composite cell in use, or no composite cell. -/
def Usable (h : Heap) (X : Multiset Handle) (r : Handle) : Prop :=
  h.arena.Composite r → h.InUse X r

/-- What the client reaches may be passed. -/
theorem Reached.usable (hr : h.Reached X r) : h.Usable X r :=
  hr.inUse

/-- The key of finalizers is that of a leaf. -/
def LeafKey (h : Heap) : Prop :=
  ∀ q ∈ h.finalizerKey, h.arena.Leaf q

/-- What is not to change, does not. A composite cell stays one, and a leaf a leaf, and no mark of a
finalized cell changes. What a catcher names was named before, or is no composite cell. -/
structure Confined (S : Handle → Prop) (h h' : Heap) : Prop where
  cells : ∀ r n b, h.arena.Holds r n b → ¬ S r → h'.arena.Holds r n b
  spares : Spares h h'
  leaves : ∀ r, h.arena.Leaf r → h'.arena.Leaf r
  finalized : ∀ r, h'.arena.Finalized r ↔ h.arena.Finalized r
  names : ∀ p n b, h'.arena.Holds p n b → ∀ q ∈ b.caughtNames,
    (∃ m c, h.arena.Holds p m c ∧ q ∈ c.caughtNames) ∨ ¬ h.arena.Composite q
  current : ∀ c, h'.current = some c → h.current = some c ∨ S c
  key : ∀ q ∈ h'.finalizerKey, q ∈ h.finalizerKey ∨ h'.arena.Leaf q

namespace Confined

/-! ## The changes that operations make -/

/-- Changes beside the cells. -/
theorem aside (harena : h'.arena = h.arena)
    (hcurrent : ∀ c, h'.current = some c → h.current = some c ∨ S c)
    (hkey : ∀ q ∈ h'.finalizerKey, q ∈ h.finalizerKey ∨ h'.arena.Leaf q) : Confined S h h' where
  cells r n b hr _ := harena ▸ hr
  spares := .of_core (by rw [harena])
  leaves r hr := harena ▸ hr
  finalized r := by rw [harena]
  names p n b hp q hq := .inl ⟨n, b, harena ▸ hp, hq⟩
  current := hcurrent
  key := hkey

/-- Changes of tables, roots and counters. -/
theorem beside (harena : h'.arena = h.arena) (hcurrent : h'.current = h.current)
    (hkey : h'.finalizerKey = h.finalizerKey) : Confined S h h' :=
  aside harena (fun _ hc => .inl (hcurrent ▸ hc)) fun _ hq => .inl (hkey ▸ hq)

theorem refl : Confined S h h :=
  beside rfl rfl rfl

theorem trans (h₁ : Confined S h h') (h₂ : Confined S h' h'') : Confined S h h'' where
  cells r n b hr hS := h₂.cells r n b (h₁.cells r n b hr hS) hS
  spares := h₁.spares.trans h₂.spares
  leaves r hr := h₂.leaves r (h₁.leaves r hr)
  finalized r := (h₂.finalized r).trans (h₁.finalized r)
  names p n b hp q hq := by
    rcases h₂.names p n b hp q hq with ⟨m, c, hc, hq⟩ | hq
    · exact h₁.names p m c hc q hq
    · exact .inr fun hcomp => hq (h₁.spares q hcomp)
  current c hc := (h₂.current c hc).elim (h₁.current c) .inr
  key q hq := (h₂.key q hq).elim (fun hq => (h₁.key q hq).imp_right (h₂.leaves q)) .inr

/-- The contents or the count of a cell change. -/
theorem modifyAt {f : Cell → Cell} (hr : h.isLive r = true) (hS : S r)
    (hkind : ∀ c, (f c).isComposite = c.isComposite)
    (hmark : ∀ c, (f c).header.marks.finalized = c.header.marks.finalized)
    (hnames : ∀ c, ∀ q ∈ (f c).body.caughtNames, q ∈ c.body.caughtNames ∨ ¬ h.arena.Composite q) :
    Confined S h (h.modifyAt r.index f) := by
  obtain ⟨k, c, hc⟩ := Arena.isLive_iff.mp hr
  have hget : ∀ q, (h.modifyAt r.index f).arena.get? q =
      if q.index = r.index then (h.arena.get? q).map f else h.arena.get? q :=
    fun q => Arena.get?_modifyAt
  have hcomp : ∀ q, (h.modifyAt r.index f).arena.Composite q ↔ h.arena.Composite q := by
    intro q
    rw [Arena.composite_iff, Arena.composite_iff, hget]
    split
    · cases h.arena.get? q <;> simp [hkind]
    · rfl
  refine ⟨fun q m b hq hS' => ?_, fun q => (hcomp q).mpr, ?_, fun q => ?_, fun p m b hp q hq => ?_,
    fun _ => .inl, fun _ => .inl⟩
  · -- Another cell is in another slot.
    have hne : q.index ≠ r.index := fun hi => hS' (hq.eq_of_index hc hi ▸ hS)
    obtain ⟨d, hd, rfl, rfl⟩ := hq.get?
    exact Arena.holds_of_get? (((hget q).trans (if_neg hne)).trans hd)
  · rintro q ⟨m, b, hq, hleaf⟩
    obtain ⟨d, hd, -, rfl⟩ := hq.get?
    have hnew := hget q
    rw [hd, Option.map_some] at hnew
    split at hnew
    · exact ⟨_, _, Arena.holds_of_get? hnew, (hkind d).trans hleaf⟩
    · exact ⟨_, _, Arena.holds_of_get? hnew, hleaf⟩
  · exact and_congr (hcomp q) (by rw [show (h.modifyAt r.index f).arena.ran = h.arena.ran from
      Arena.ran_modifyAt hmark])
  · obtain ⟨d, hd, rfl, rfl⟩ := hp.get?
    rw [hget] at hd
    split at hd
    · obtain ⟨d, hold, rfl⟩ := Option.map_eq_some_iff.mp hd
      exact (hnames d q hq).imp_left fun hq => ⟨_, _, Arena.holds_of_get? hold, hq⟩
    · exact .inl ⟨_, _, Arena.holds_of_get? hd, hq⟩

theorem modifyBody {f : Body → Body} (hr : h.isLive r = true) (hS : S r)
    (hkind : ∀ b, (f b).kind = b.kind)
    (hnames : ∀ b, ∀ q ∈ (f b).caughtNames, q ∈ b.caughtNames ∨ ∃ t, h.text q = .ok t) :
    Confined S h (h.modifyAt r.index (·.modifyBody f)) := by
  refine modifyAt hr hS (fun c => congrArg CellKind.isComposite (hkind c.body)) (fun _ => rfl)
    fun c q hq => (hnames c.body q hq).imp_right ?_
  rintro ⟨t, ht⟩ ⟨n, b, hq, hcomp⟩
  obtain ⟨m, hm⟩ := Arena.texts_eq_some.mp (text_eq_ok.mp ht)
  rw [(hq.unique hm).2] at hcomp
  cases hcomp

theorem retain (hS : S r) : Confined S h (h.retain r) := by
  unfold Heap.retain
  split
  · exact modifyAt ‹_› hS (fun _ => rfl) (fun _ => rfl) fun _ _ => .inl
  · exact refl

theorem retainAll {rs : List Handle} (hS : ∀ r ∈ rs, S r) : Confined S h (h.retainAll rs) := by
  induction rs generalizing h with
  | nil => exact refl
  | cons r rs ih =>
    obtain ⟨hr, hrs⟩ := List.forall_mem_cons.mp hS
    exact (retain hr).trans (ih hrs)

theorem modifyObject {f : Object → Object} (hr : h.isLive r = true) (hS : S r) :
    Confined S h (h.modifyObject r f) :=
  modifyBody hr hS (fun b => by cases b <;> rfl) fun _ _ hq =>
    .inl (Body.caughtNames_modifyObject ▸ hq)

theorem modifyBuffer {f : Buffer → Buffer} (hr : h.isLive r = true) (hS : S r) :
    Confined S h (h.modifyBuffer r f) :=
  modifyBody hr hS (fun b => by cases b <;> rfl) fun _ _ hq =>
    .inl (Body.caughtNames_modifyBuffer ▸ hq)

theorem modifyThread {f : Thread → Thread} (hr : h.isLive r = true) (hS : S r)
    (hnames : ∀ x, ∀ q ∈ (f x).caughtNames, q ∈ x.caughtNames ∨ ∃ t, h.text q = .ok t) :
    Confined S h (h.modifyThread r f) :=
  modifyBody hr hS (fun b => by cases b <;> rfl) fun _ _ => Body.mem_caughtNames_modifyThread hnames

/-- A change of a thread that adds no catcher. -/
theorem editThread {f : Thread → Thread} (hr : h.isLive r = true) (hS : S r)
    (hcatchers : ∀ x, ∀ c ∈ (f x).catchers, c ∈ x.catchers) : Confined S h (h.modifyThread r f) :=
  modifyThread hr hS fun x _ => .inl ∘ Thread.mem_caughtNames_of_subset (hcatchers x)

theorem setState {s : ThreadState} (hr : h.isLive r = true) (hS : S r) :
    Confined S h (h.setState r s) :=
  editThread hr hS fun _ _ => id

theorem setCurrent {o : Option Handle} (hS : ∀ c ∈ o, S c) : Confined S h (h.setCurrent o) :=
  aside rfl (fun c hc => .inr (hS c hc)) fun _ => .inl

/-- A cell is made. -/
theorem place (hf : h.arena.FreeOk) (hb : b.caughtNames = []) : Confined S h (h.place b).1 where
  cells _ _ _ hr _ := hr.place hf b
  spares := by
    rintro r ⟨n, c, hr, hcomp⟩
    exact ⟨n, c, hr.place hf b, hcomp⟩
  leaves := by
    rintro r ⟨n, c, hr, hleaf⟩
    exact ⟨n, c, hr.place hf b, hleaf⟩
  finalized r := by
    have hran : (h.place b).1.arena.ran = h.arena.ran := Arena.ran_place hf
    constructor
    · rintro ⟨⟨n, c, hr, hcomp⟩, hmark⟩
      rw [hran] at hmark
      -- The new cell does not have the mark, for its slot was empty.
      have hne : r.index ≠ h.arena.nextSlot := fun hi => by
        rw [hi, Arena.ran_of_vacant (Arena.vacant_place hf)] at hmark
        cases hmark
      refine ⟨⟨n, c, ?_, hcomp⟩, hmark⟩
      have hr : (h.arena.place b).1.Holds r n c := hr
      unfold Arena.Holds at hr ⊢
      rwa [Arena.core_place hf, Arena.place_snd_index, Function.update_of_ne hne] at hr
    · rintro ⟨⟨n, c, hr, hcomp⟩, hmark⟩
      exact ⟨⟨n, c, hr.place hf b, hcomp⟩, hran ▸ hmark⟩
  names p n c hp q hq := by
    rcases Arena.holds_of_place hf hp with ⟨-, rfl⟩ | hold
    · rw [hb] at hq
      cases hq
    · exact .inl ⟨n, c, hold, hq⟩
  current _ := .inl
  key _ := .inl

theorem resizeBuffer {length : ℕ} (hr : h.isLive r = true) (hS : S r) :
    Confined S h (h.resizeBuffer r length) := by
  have haccount : Confined S h (h.modifyArena (·.account r.index (Body.cellBytes + length))) := by
    have hholds : ∀ q n b, (h.arena.account r.index (Body.cellBytes + length)).Holds q n b ↔
        h.arena.Holds q n b := fun q n b => by
      unfold Arena.Holds
      rw [Arena.core_account]
    refine ⟨fun q n b hq _ => (hholds q n b).mpr hq, .of_core (Arena.core_account _), ?_, fun q => ?_,
      fun p n b hp q hq => .inl ⟨n, b, (hholds p n b).mp hp, hq⟩, fun _ => .inl, fun _ => .inl⟩
    · rintro q ⟨n, b, hq, hleaf⟩
      exact ⟨n, b, (hholds q n b).mpr hq, hleaf⟩
    exact Arena.finalized_congr (Arena.core_account _) (Arena.ran_account _)
  refine haccount.trans (modifyBuffer ?_ hS)
  obtain ⟨n, b, hb⟩ := Arena.isLive_iff.mp hr
  have hb' : (h.arena.account r.index (Body.cellBytes + length)).Holds r n b := by
    unfold Arena.Holds
    rw [Arena.core_account]
    exact hb
  exact hb'.isLive

/-! ### Properties, prototypes and elements -/

theorem storeSlot {key : Handle} {slot : Slot} (hr : h.isLive r = true) (hS : S r) (hkey : S key)
    (hslot : ∀ q ∈ slot.refs, S q) : Confined S h (h.storeSlot r key slot).1 := by
  unfold Heap.storeSlot
  dsimp only
  split
  · exact ((modifyObject hr hS).trans (retainAll hslot)).trans (retain hkey)
  · exact (modifyObject hr hS).trans (retainAll hslot)

theorem dropSlot {key : Handle} (hr : h.isLive r = true) (hS : S r) :
    Confined S h (h.dropSlot r key).1 := by
  unfold Heap.dropSlot
  split
  · exact refl
  · exact modifyObject hr hS

theorem linkPrototype {proto : Option Handle} (hr : h.isLive r = true) (hS : S r)
    (hproto : ∀ q ∈ proto.toList, S q) : Confined S h (h.linkPrototype r proto) :=
  (retainAll hproto).trans (modifyObject (isLive_retainAll.trans hr) hS)

theorem appendElement {v : Value} (hr : h.isLive r = true) (hS : S r) (hv : ∀ q ∈ v.refs, S q) :
    Confined S h (h.appendElement r v) :=
  (modifyObject hr hS).trans (retainAll hv)

theorem storeElement {v : Value} (hr : h.isLive r = true) (hS : S r) (hv : ∀ q ∈ v.refs, S q) :
    Confined S h (h.storeElement r i v).1 :=
  (modifyObject hr hS).trans (retainAll hv)

/-! ### Roots -/

theorem holdRoot {v : Value} (hv : ∀ q ∈ v.refs, S q) : Confined S h (h.holdRoot v).1 := by
  refine (retainAll hv).trans ?_
  unfold Heap.holdRoot
  dsimp only
  split <;> exact beside rfl rfl rfl

theorem storeRoot {v : Value} (hv : ∀ q ∈ v.refs, S q) : Confined S h (h.storeRoot i v) := by
  have hroots : Confined S h { h with roots := h.roots.setIfInBounds i (some v) } :=
    beside rfl rfl rfl
  exact hroots.trans (retainAll hv)

theorem dropRoot : Confined S h (h.dropRoot i).1 := by
  unfold Heap.dropRoot
  split
  · exact beside rfl rfl rfl
  · exact refl

/-! ### Threads -/

/-- A thread changes, and counts what it has not counted. -/
theorem storeThread {f : Thread → Thread} {rs : List Handle} (hr : h.isLive r = true) (hS : S r)
    (hcatchers : ∀ x, ∀ c ∈ (f x).catchers, c ∈ x.catchers) (hrs : ∀ q ∈ rs, S q) :
    Confined S h ((h.modifyThread r f).retainAll rs) :=
  (editThread hr hS hcatchers).trans (retainAll hrs)

theorem switchTo (hp : h.isLive p = true) (hSp : S p) (hr : h.isLive r = true) (hS : S r) :
    Confined S h (h.switchTo p r) := by
  have hwait : Confined S h (h.setState p .resumed) := setState hp hSp
  have hrun : Confined S (h.setState p .resumed) ((h.setState p .resumed).modifyThread r
      ({ · with state := .running, resumer := some p })) :=
    editThread (Arena.isLive_modifyAt.trans hr) hS fun _ _ => id
  exact (hwait.trans hrun).trans (retain hSp)

theorem switchBack (hp : h.isLive p = true) (hSp : S p) (hr : h.isLive r = true) (hS : S r) :
    Confined S h (h.switchBack p r) := by
  have hwait : Confined S h (h.modifyThread p ({ · with state := .yielded, resumer := none })) :=
    editThread hp hSp fun _ _ => id
  have hrun := hwait.trans (setState (s := .running) (Arena.isLive_modifyAt.trans hr) hS)
  exact hrun.trans (setCurrent fun c hc => by cases hc; exact hS)

theorem endThread {o : Option Handle} (hr : h.isLive r = true) (hS : S r) (ho : ∀ q ∈ o, S q) :
    Confined S h (h.endThread r o) := by
  have hended : Confined S h (h.modifyThread r ({ · with state := .terminated, resumer := none })) :=
    editThread hr hS fun _ _ => id
  refine endThread_induction (P := Confined S h) hended (fun h' q x hq hx hc => ?_) fun h' c hc hold => ?_
  · exact hc.trans (setState (live_of_thread hx) (ho q hq))
  · refine hold.trans (setCurrent fun q hq => ?_)
    rcases hc with rfl | rfl
    · cases hq
    · exact ho q hq

/-! ### The key of finalizers -/

theorem leafKey (hc : Confined S h h') (hk : h.LeafKey) : h'.LeafKey :=
  fun q hq => (hc.key q hq).elim (fun hq => hc.leaves q (hk q hq)) id

end Confined

/-- What has a count is there, and is what it was. -/
theorem Shrinks.leaf (hs : Shrinks h h') (hb : h'.Balanced ∅ X) (hq : h.arena.Leaf q)
    (hm : q ∈ h'.stored ∅ + X) : h'.arena.Leaf q := by
  obtain ⟨n, b, hcell⟩ := Arena.isLive_iff.mp (hb.live hm)
  obtain ⟨m, hold⟩ := hs.cells q n b hcell
  obtain ⟨k, c, hc, hleaf⟩ := hq
  exact ⟨n, b, hcell, (hold.unique hc).2 ▸ hleaf⟩

/-- The key is not freed, for it has a count. -/
theorem Shrinks.leafKey (hs : Shrinks h h') (hb : h'.Balanced ∅ X) (hk : h.LeafKey) : h'.LeafKey := by
  intro q hq
  refine hs.leaf hb (hk q (hs.key ▸ hq)) (Multiset.mem_add.mpr (.inl ?_))
  exact Multiset.mem_add.mpr (.inr (Option.mem_toList.mpr hq))

/-! ## Cells out of use -/

/-- What refers to a cell out of use is a cell out of use. -/
theorem unused_of_mem_refs (hg : h.arena.Composite g) (hused : ¬ h.InUse X g)
    (hp : h.arena.Holds p n b) (hgb : g ∈ b.refs) : ¬ h.Usable X p := by
  intro huse
  have hused' := huse ⟨n, b, hp, Body.isComposite_of_mem_refs hgb⟩
  exact hused (.step hused' hp (Body.mem_tracedRefs hgb) hg)

/-- All counts of a cell out of use are those of cells. -/
theorem Balanced.count_unused (hb : h.Balanced ∅ X) (hr : h.arena.Holds g n b)
    (hg : h.arena.Composite g) (hused : ¬ h.InUse X g) : n = (h.arena.owned ∅).count g := by
  have hheld : X.count g = 0 := Multiset.count_eq_zero.mpr fun hm =>
    hused (.start (.inl (.inl (.inl hm))) hg)
  have hroot : (h.rootRefs : Multiset Handle).count g = 0 :=
    Multiset.count_eq_zero.mpr fun hm => hused (.start (.inl (.inl (.inr hm))) hg)
  have hkey : (h.finalizerKey.toList : Multiset Handle).count g = 0 := by
    refine Multiset.count_eq_zero.mpr fun hm => hused (.start (.inr ?_) hg)
    exact Option.mem_toList.mp hm
  have hcount := hb.count_eq hr
  unfold stored at hcount
  simp only [Multiset.count_add, hheld, hroot, hkey, add_zero] at hcount
  exact hcount

namespace Confined

section

variable (hc : Confined (h.Usable X) h h')
include hc

/-- The references to a cell out of use stay where they are. -/
theorem count_refsAt_le (hg : h.arena.Composite g) (hused : ¬ h.InUse X g) :
    (h.arena.refsAt i).count g ≤ (h'.arena.refsAt i).count g := by
  by_cases hm : g ∈ h.arena.refsAt i
  · obtain ⟨n, b, hp, hgb⟩ := Arena.exists_holds_of_mem_refsAt hm
    have hp' := hc.cells _ n b hp (unused_of_mem_refs hg hused hp hgb)
    rw [show h.arena.refsAt i = b.refs from hp.refsAt, show h'.arena.refsAt i = b.refs from hp'.refsAt]
  · rw [List.count_eq_zero.mpr hm]
    exact Nat.zero_le _

variable (hb : h.Balanced ∅ X) (hb' : h'.Balanced ∅ Y)
include hb hb'

/-- Nor are there others. -/
theorem count_refsAt (hg : h.arena.Composite g) (hused : ¬ h.InUse X g) :
    (∀ i, (h'.arena.refsAt i).count g = (h.arena.refsAt i).count g) ∧
      g ∉ (h'.rootRefs : Multiset Handle) + h'.finalizerKey.toList + Y := by
  obtain ⟨n, b, hr, -⟩ := id hg
  have hr' := hc.cells g n b hr fun huse => hused (huse hg)
  have hbefore := hb.count_unused hr hg hused
  have hafter := hb'.count_eq hr'
  unfold stored at hafter
  rw [add_assoc, add_assoc, Multiset.count_add, ← add_assoc] at hafter
  let m := max h.arena.slots.size h'.arena.slots.size
  have howned : ∀ a : Arena, a.slots.size ≤ m →
      (a.owned ∅).count g = ∑ i ∈ Finset.range m \ ∅, (a.refsAt i).count g := by
    intro a ha
    rw [Arena.owned_eq_sum ha, Multiset.count_sum']
    simp only [Multiset.coe_count]
  rw [howned _ (le_max_left _ _)] at hbefore
  rw [howned _ (le_max_right _ _)] at hafter
  have hle : ∀ i ∈ Finset.range m \ ∅, (h.arena.refsAt i).count g ≤ (h'.arena.refsAt i).count g :=
    fun i _ => hc.count_refsAt_le hg hused
  have hsum := Finset.sum_le_sum hle
  have hsame := (Finset.sum_eq_sum_iff_of_le hle).mp (by omega)
  refine ⟨fun i => ?_, Multiset.count_eq_zero.mp (by omega)⟩
  by_cases hi : i < m
  · exact (hsame i (by simpa using hi)).symm
  · rw [Arena.refsAt_of_size_le ((le_max_left _ _).trans (not_lt.mp hi)),
      Arena.refsAt_of_size_le ((le_max_right _ _).trans (not_lt.mp hi))]

/-- No cell is put to use that was out of use. -/
theorem usable (hr : h'.InUse Y r) : h.Usable X r := by
  unfold InUse at hr
  induction hr with
  | @start q hq hcomp' =>
    intro hcomp
    by_contra hused
    obtain ⟨-, helsewhere⟩ := hc.count_refsAt hb hb' hcomp hused
    simp only [Multiset.mem_add, not_or, Multiset.mem_coe] at helsewhere
    obtain ⟨⟨hroot, hkey⟩, hheld⟩ := helsewhere
    rcases hq with ((hq | hq) | ⟨n, b, hq, hactive⟩ | hq) | hq
    · exact hheld hq
    · exact hroot hq
    · -- A thread that is out of use is as it was.
      obtain ⟨m, c, hold, -⟩ := id hcomp
      have hnew := hc.cells q m c hold fun huse => hused (huse hcomp)
      rw [(hq.unique hnew).2] at hactive
      exact hused (.start (.inl (.inr (.inl ⟨m, c, hold, hactive⟩))) hcomp)
    · rcases hc.current q hq with hq | huse
      · exact hused (.start (.inl (.inr (.inr hq))) hcomp)
      · exact hused (huse hcomp)
    · exact hkey (Option.mem_toList.mpr hq)
  | @step p q n b _ hp hq _ ih =>
    intro hcomp
    by_contra hused
    rw [b.tracedRefs_eq, List.mem_append] at hq
    rcases hq with hq | hq
    · -- The reference was there before, in a cell out of use.
      have hmem : q ∈ h.arena.refsAt p.index := by
        rw [← List.count_pos_iff, ← (hc.count_refsAt hb hb' hcomp hused).1, hp.refsAt, List.count_pos_iff]
        exact hq
      obtain ⟨m, c, hold, hqc⟩ := Arena.exists_holds_of_mem_refsAt hmem
      have hunused := unused_of_mem_refs hcomp hused hold hqc
      have hnew := hc.cells _ m c hold hunused
      exact hunused (hnew.eq_of_index hp rfl ▸ ih)
    · rcases hc.names p n b hp q hq with ⟨m, c, hold, hqc⟩ | hnot
      · have hthread : h.arena.Composite p := by
          refine ⟨m, c, hold, ?_⟩
          cases c with
          | thread t => rfl
          | object _ => cases hqc
          | string _ => cases hqc
          | buffer _ => cases hqc
        refine hused (.step (ih hthread) hold ?_ hcomp)
        rw [c.tracedRefs_eq]
        exact List.mem_append_right _ hqc
      · exact hnot hcomp

/-- No finalized cell is put to use. -/
theorem aloof (ha : h.Aloof X) : h'.Aloof Y := fun r hr huse =>
  have hold := (hc.finalized r).mp hr
  ha r hold (hc.usable hb hb' huse hold.1)

end

end Confined

end Heap

end CountedHeap
