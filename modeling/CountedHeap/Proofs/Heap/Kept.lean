import CountedHeap.Mutation.Allocation
import CountedHeap.Mutation.Roots
import CountedHeap.Proofs.Arena.Sound
import CountedHeap.Proofs.Bags
import CountedHeap.Proofs.Heap.Balance
import CountedHeap.Proofs.Heap.Recalls

/-!
# What every step of an operation keeps

An operation is made of small steps: a count is taken, a cell is overwritten, a root is set, a cell
is made. Each keeps the heap sound, and if references are accounted for, it keeps the counts exact
against a bag of references that are in flight. None of these steps takes a cell off a list.

* `Heap.Sound`: the arena is sound, and so are the roots.
* `Heap.Pace`: what says when the next tracing pass is to begin, and how many there have been.
* `Heap.Mild`: the queue is the same, cells that were on a list still are, and passes come no sooner.
* `Heap.Calm`: besides, the intern table is exact and the offset cache can be trusted if it was so before.
* `Heap.Kept`: soundness, a condition that calm steps keep, and, where counts are strict, balance.
* `Kept.retainAll`, `Kept.edit`, `Kept.place`, `Kept.holdRoot`, …: the steps.
-/

namespace CountedHeap.Heap

variable {h h' h'' : Heap} {X Y given taken : Multiset Handle} {r : Handle} {n m i : ℕ} {b : Body}

/-- What every heap satisfies. -/
structure Sound (h : Heap) : Prop where
  arena : h.arena.Sound
  freeRoots : h.freeRoots.Nodup
  rootsFree : ∀ n ∈ h.freeRoots, h.roots[n]? = some none

/-- The cells of one arena are cells of another one, leaf or composite as they were. -/
def Lasts (a a' : Arena) : Prop :=
  ∀ r n b, a.Holds r n b → ∃ m c, a'.Holds r m c ∧ c.isComposite = b.isComposite

theorem Lasts.of_core {a a' : Arena} (hc : a'.core = a.core) : Lasts a a' := by
  intro r n b hr
  refine ⟨n, b, ?_, rfl⟩
  unfold Arena.Holds
  rw [hc]
  exact hr

/-- One cell is another one of its kind now. -/
theorem Lasts.update {a a' : Arena} {c : Body} (hr : a.Holds r n b)
    (hc : a'.core = Function.update a.core r.index (some (r.generation, some (m, c))))
    (hkind : c.isComposite = b.isComposite) : Lasts a a' := by
  intro q k d hq
  by_cases hi : q.index = r.index
  · obtain rfl := hq.eq_of_index hr hi
    obtain ⟨-, rfl⟩ := hq.unique hr
    refine ⟨m, c, ?_, hkind⟩
    unfold Arena.Holds
    rw [hc, Function.update_self]
  · refine ⟨k, d, ?_, rfl⟩
    unfold Arena.Holds
    rw [hc, Function.update_of_ne hi]
    exact hq

/-- Every allocated cell is counted. -/
def Tight (h : Heap) : Prop :=
  ∀ r n b, h.arena.Holds r n b → r.index ∈ h.arena.members .allocated → 0 < n

/-- Whether a heap is tight depends on its cells and on which of them are allocated. -/
theorem Tight.of_core (ht : h.Tight) (hc : h'.arena.core = h.arena.core)
    (hm : ∀ i ∈ h'.arena.members .allocated, i ∈ h.arena.members .allocated) : h'.Tight := by
  intro r n b hr hi
  unfold Arena.Holds at hr
  rw [hc] at hr
  exact ht r n b hr (hm _ hi)

/-- One cell is another one now, which is counted. -/
theorem Tight.update {x : Option (ℕ × Body)} {g : UInt32} (ht : h.Tight)
    (hc : h'.arena.core = Function.update h.arena.core i (some (g, x)))
    (hm : ∀ j ≠ i, j ∈ h'.arena.members .allocated → j ∈ h.arena.members .allocated)
    (hx : ∀ m c, x = some (m, c) → i ∈ h'.arena.members .allocated → 0 < m) : h'.Tight := by
  intro r n b hr hi
  unfold Arena.Holds at hr
  rw [hc] at hr
  by_cases hri : r.index = i
  · rw [hri, Function.update_self] at hr
    cases hr
    exact hx n b rfl (hri ▸ hi)
  · rw [Function.update_of_ne hri] at hr
    exact ht r n b hr (hm _ hri hi)

/-- What says when the next tracing pass is to begin, and how many composite cells drains have freed and
how many passes have run so far. -/
structure Pace where
  trigger : ℤ
  freed : ℕ
  passes : ℕ
  config : Config

def pace (h : Heap) : Pace :=
  ⟨h.trigger, h.counters.queueFrees, h.counters.passes, h.config⟩

/-- Nothing has been freed, queued or taken off a list, no allocated cell has lost its last count, and
the key of finalizers and the pace of passes are the same. -/
structure Mild (h h' : Heap) : Prop where
  sweeping : h'.sweeping = h.sweeping
  key : h'.finalizerKey = h.finalizerKey
  queue : h'.arena.members .queue = h.arena.members .queue
  linked : ∀ i, (h.arena.linksAt i).chain ≠ none → (h'.arena.linksAt i).chain ≠ none
  cells : Lasts h.arena h'.arena
  tight : h.Tight → h'.Tight
  pace : h'.pace = h.pace

/-- The intern table and the offset cache have been kept in step as well. -/
structure Calm (h h' : Heap) : Prop extends Mild h h' where
  interned : h.Interned → h'.Interned
  recalls : h.Recalls → h'.Recalls

theorem Mild.refl : Mild h h :=
  ⟨rfl, rfl, rfl, fun _ hi => hi, .of_core rfl, id, rfl⟩

theorem Calm.refl : Calm h h :=
  ⟨.refl, id, id⟩

/-- A condition that calm steps keep. -/
def Steady (P : Heap → Prop) : Prop :=
  ∀ h h', Calm h h' → P h → P h'

/-- A sound heap at some level, whose counts are exact against a bag where counts are strict. -/
structure Kept (strict : Prop) (P : Heap → Prop) (h : Heap) (X : Multiset Handle) : Prop where
  sound : h.Sound
  level : P h
  balanced : strict → h.Balanced ∅ X

/-- Strict counts are exact. -/
theorem Kept.exact {P : Heap → Prop} (hk : h.Kept True P X) : h.Exact X :=
  exact_iff.mpr (hk.balanced trivial)

/-! ## What is stored -/

theorem stored_congr {D : Finset ℕ} (ha : ∀ i, h'.arena.refsAt i = h.arena.refsAt i)
    (hr : h'.roots = h.roots) (hk : h'.finalizerKey = h.finalizerKey) :
    h'.stored D = h.stored D := by
  unfold stored rootRefs rootValues
  rw [Arena.owned_congr fun i _ => ha i, hr, hk]

/-- Another cell in one slot. -/
theorem stored_update (ha : ∀ j ≠ i, h'.arena.refsAt j = h.arena.refsAt j)
    (hr : h'.roots = h.roots) (hk : h'.finalizerKey = h.finalizerKey) :
    h'.stored ∅ + h.arena.refsAt i = h.stored ∅ + h'.arena.refsAt i := by
  have := Arena.owned_update (D := ∅) (Finset.notMem_empty i) ha
  unfold stored rootRefs rootValues
  rw [hr, hk, add_right_comm _ _ (h.arena.refsAt i : Multiset Handle),
    add_right_comm _ _ (h.arena.refsAt i : Multiset Handle), this]
  abel

theorem rootRefs_eq : h.rootRefs = h.roots.toList.flatMap fun v => (v.map Value.refs).getD [] := by
  unfold rootRefs rootValues
  rw [List.filterMap_eq_flatMap_toList, List.flatMap_assoc]
  congr 1
  funext v
  cases v <;> simp

/-! ## Taking counts and changing bodies -/

/-- Taking counts changes cells only. -/
theorem retainAll_eq {rs : List Handle} :
    h.retainAll rs = { h with arena := (h.retainAll rs).arena } := by
  induction rs generalizing h with
  | nil => rfl
  | cons q rs ih =>
    have hq : h.retain q = { h with arena := (h.retain q).arena } := by
      unfold retain
      split <;> rfl
    rw [show h.retainAll (q :: rs) = (h.retain q).retainAll rs from rfl, ih, hq]

/-- The order of changing roots and of taking counts does not matter. -/
theorem retainAll_roots {rs : List Handle} {roots : Array (Option Value)} :
    ({ h with roots := roots } : Heap).retainAll rs = { h.retainAll rs with roots := roots } := by
  induction rs generalizing h with
  | nil => rfl
  | cons q rs ih =>
    have hq : ({ h with roots := roots } : Heap).retain q = { h.retain q with roots := roots } := by
      unfold retain
      rw [show ({ h with roots := roots } : Heap).isLive q = h.isLive q from rfl]
      split <;> rfl
    have hcons : ∀ h : Heap, h.retainAll (q :: rs) = (h.retain q).retainAll rs := fun _ => rfl
    rw [hcons, hcons, hq, ih]

@[simp] theorem isLive_retain {q : Handle} : (h.retain r).isLive q = h.isLive q := by
  unfold retain
  split
  · exact Arena.isLive_modifyAt
  · rfl

@[simp] theorem isLive_retainAll {q : Handle} {rs : List Handle} :
    (h.retainAll rs).isLive q = h.isLive q := by
  induction rs generalizing h with
  | nil => rfl
  | cons p rs ih => exact (ih (h := h.retain p)).trans isLive_retain

/-- The order of a change of bodies and of taking counts does not matter. -/
theorem retain_modifyBody {f : Body → Body} : (h.modifyAt i (·.modifyBody f)).retain r =
    (h.retain r).modifyAt i (·.modifyBody f) := by
  unfold retain
  rw [show (h.modifyAt i (·.modifyBody f)).isLive r = h.isLive r from Arena.isLive_modifyAt]
  split
  · exact congrArg (fun a => { h with arena := a })
      (Arena.modifyAt_comm (f := (·.modifyBody f)) (g := (·.modifyHeader .acquire)) fun _ => rfl)
  · rfl

theorem retainAll_modifyBody {f : Body → Body} {rs : List Handle} :
    (h.modifyAt i (·.modifyBody f)).retainAll rs =
      (h.retainAll rs).modifyAt i (·.modifyBody f) := by
  induction rs generalizing h with
  | nil => rfl
  | cons p rs ih =>
    have hcons : ∀ h : Heap, h.retainAll (p :: rs) = (h.retain p).retainAll rs := fun _ => rfl
    rw [hcons, hcons, retain_modifyBody, ih]

theorem holds_retain (hr : h.arena.Holds r n b) (q : Handle) :
    ∃ m, (h.retain q).arena.Holds r m b := by
  obtain ⟨c, hc, -, rfl⟩ := hr.get?
  unfold retain
  split
  · by_cases hi : r.index = q.index
    · refine ⟨_, Arena.holds_of_get? (c := c.modifyHeader .acquire) ?_⟩
      rw [show (h.modifyAt q.index (·.modifyHeader .acquire)).arena =
        h.arena.modifyAt q.index (·.modifyHeader .acquire) from rfl, Arena.get?_modifyAt,
        if_pos hi, hc]
      rfl
    · refine ⟨_, Arena.holds_of_get? (c := c) ?_⟩
      rw [show (h.modifyAt q.index (·.modifyHeader .acquire)).arena =
        h.arena.modifyAt q.index (·.modifyHeader .acquire) from rfl, Arena.get?_modifyAt,
        if_neg hi, hc]
  · exact ⟨n, hr⟩

theorem holds_retainAll (hr : h.arena.Holds r n b) (rs : List Handle) :
    ∃ m, (h.retainAll rs).arena.Holds r m b := by
  induction rs generalizing h n with
  | nil => exact ⟨n, hr⟩
  | cons q rs ih =>
    obtain ⟨m, hm⟩ := holds_retain hr q
    exact ih hm

/-! ## Steps beside the cells -/

namespace Kept

variable {s : Prop} {P : Heap → Prop}

/-- A step that neither cells, roots nor lists see, and after which the offset cache can be trusted. -/
theorem besides (hP : Steady P) (hk : Kept s P h X) (ha : h'.arena = h.arena)
    (hr : h'.roots = h.roots) (hf : h'.freeRoots = h.freeRoots)
    (hkey : h'.finalizerKey = h.finalizerKey) (hs : h'.sweeping = h.sweeping)
    (hstrings : h'.strings = h.strings) (hrecalls : h.Recalls → h'.Recalls) (hpace : h'.pace = h.pace) :
    Kept s P h' X := by
  refine ⟨⟨ha ▸ hk.sound.arena, hf ▸ hk.sound.freeRoots, ?_⟩, ?_, fun hstrict => ?_⟩
  · rw [hf, hr]
    exact hk.sound.rootsFree
  · exact hP h h' ⟨⟨hs, hkey, by rw [ha], by rw [ha]; exact fun _ hi => hi, .of_core (by rw [ha]),
      fun ht => ht.of_core (by rw [ha]) (by rw [ha]; exact fun _ hi => hi), hpace⟩,
      fun hi => hi.congr hstrings (by rw [ha]), hrecalls⟩ hk.level
  · refine (hk.balanced hstrict).shift (by rw [ha]) ?_
    rw [stored_congr (fun i => by rw [ha]) hr hkey]

/-- A step that neither cells, roots, lists nor tables see. -/
theorem aside (hP : Steady P) (hk : Kept s P h X) (ha : h'.arena = h.arena)
    (hr : h'.roots = h.roots) (hf : h'.freeRoots = h.freeRoots)
    (hkey : h'.finalizerKey = h.finalizerKey) (hs : h'.sweeping = h.sweeping)
    (htables : h'.tables = h.tables) (hpace : h'.pace = h.pace) : Kept s P h' X :=
  hk.besides hP ha hr hf hkey hs (congrArg Prod.fst htables)
    (fun hc => hc.congr (congrArg (·.2.1) htables) (congrArg (·.2.2) htables) (by rw [ha])) hpace

/-- A step that leaves cells, lists and roots as they are, up to marks, links and bytes, and keeps the
condition. -/
theorem sameCells (hk : Kept s P h X) (hc : h'.arena.core = h.arena.core)
    (hl : h'.arena.linksAt = h.arena.linksAt) (he : h'.arena.ends = h.arena.ends)
    (hfree : h'.arena.free = h.arena.free) (hr : h'.roots = h.roots)
    (hf : h'.freeRoots = h.freeRoots) (hkey : h'.finalizerKey = h.finalizerKey)
    (hP : h'.arena.members = h.arena.members → P h') : Kept s P h' X := by
  obtain ⟨hsound, hmem⟩ := hk.sound.arena.congr hc hl he hfree
  refine ⟨⟨hsound, hf ▸ hk.sound.freeRoots, ?_⟩, hP hmem, fun hstrict => ?_⟩
  · rw [hf, hr]
    exact hk.sound.rootsFree
  · refine (hk.balanced hstrict).shift ?_ ?_
    · funext r
      exact Arena.counted_congr (by rw [hc])
    · rw [stored_congr (fun i => by rw [Arena.refsAt_eq_core, Arena.refsAt_eq_core, hc]) hr hkey]

/-! ## Steps at one cell -/

theorem core_recount (hr : h.arena.Holds r n b) {f : Cell → Cell} (hf : ∀ c, (f c).body = c.body)
    (hm : ∀ c, c.header.count = n → (f c).header.count = m) :
    (h.modifyAt r.index f).arena.core =
      Function.update h.arena.core r.index (some (r.generation, some (m, b))) := by
  obtain ⟨c, hc, hcn, hcb⟩ := hr.get?
  obtain ⟨slot, hslot, hg, hcell⟩ := Arena.get?_eq_some_iff.mp hc
  funext j
  unfold modifyAt modifyArena Arena.modifyAt Arena.core
  dsimp only
  rw [Array.getElem?_modify]
  by_cases hj : r.index = j
  · subst hj
    simp [hslot, hg, hcell, hf, hcb, hm c hcn]
  · simp [hj, Function.update_of_ne (Ne.symm hj)]

/-- The count of a cell changes, and the references in flight with it, in a way that keeps the
condition. -/
theorem recountWith (hk : Kept s P h X) (hr : h.arena.Holds r n b)
    {f : Cell → Cell} (hf : ∀ c, (f c).body = c.body)
    (hm : ∀ c, c.header.count = n → (f c).header.count = m) (hpos : b.isComposite = false → 0 < m)
    (hX : s → m + X.count r = n + Y.count r) (ho : s → ∀ q ≠ r, Y.count q = X.count q)
    (hP : (h.modifyAt r.index f).arena.core = Function.update h.arena.core r.index
        (some (r.generation, some (m, b))) →
      (h.modifyAt r.index f).arena.members = h.arena.members → P (h.modifyAt r.index f)) :
    Kept s P (h.modifyAt r.index f) Y := by
  have hcore := core_recount hr hf hm
  obtain ⟨hsound, hmem⟩ := hk.sound.arena.recell hr hcore (Arena.linksAt_modifyAt f) rfl rfl rfl
    hpos (hk.sound.arena.bodies r n b hr)
  have hrefs : ∀ i, (h.modifyAt r.index f).arena.refsAt i = h.arena.refsAt i := by
    intro i
    rw [Arena.refsAt_eq_core, Arena.refsAt_eq_core, hcore]
    by_cases hi : i = r.index
    · subst hi
      rw [Function.update_self, show h.arena.core r.index = _ from hr]
      rfl
    · rw [Function.update_of_ne hi]
  refine ⟨⟨hsound, hk.sound.freeRoots, hk.sound.rootsFree⟩, hP hcore hmem, fun hstrict => ?_⟩
  refine (hk.balanced hstrict).recount (Arena.counted_update hr hcore)
    (stored_congr hrefs rfl rfl) ?_ (ho hstrict)
  rw [hr.counted]
  exact hX hstrict

/-- A count goes up. -/
theorem recount (hP : Steady P) (hk : Kept s P h X) (hr : h.arena.Holds r n b)
    {f : Cell → Cell} (hf : ∀ c, (f c).body = c.body)
    (hm : ∀ c, c.header.count = n → (f c).header.count = m) (hpos : 0 < m)
    (hX : s → m + X.count r = n + Y.count r) (ho : s → ∀ q ≠ r, Y.count q = X.count q) :
    Kept s P (h.modifyAt r.index f) Y := by
  refine hk.recountWith hr hf hm (fun _ => hpos) hX ho fun hcore hmem => ?_
  refine hP h _ ⟨⟨rfl, rfl, by rw [hmem], fun i hi => ?_, .update hr hcore rfl, fun ht => ?_, rfl⟩,
    fun hi => hi.congr rfl (Arena.texts_update hr hcore rfl),
    fun hc => hc.congr rfl rfl (Arena.texts_update hr hcore rfl)⟩ hk.level
  · rw [show (h.modifyAt r.index f).arena.linksAt = h.arena.linksAt from Arena.linksAt_modifyAt f]
    exact hi
  · refine ht.update hcore (fun j _ hj => by rwa [hmem] at hj) ?_
    rintro _ _ ⟨⟩ -
    exact hpos

/-- A count is taken. -/
theorem retain (hP : Steady P) (hk : Kept s P h X) (hl : s → h.isLive r = true) :
    Kept s P (h.retain r) (X + {r}) := by
  unfold Heap.retain
  by_cases hlive : h.isLive r = true
  · rw [if_pos hlive]
    obtain ⟨n, b, hr⟩ := Arena.isLive_iff.mp hlive
    refine hk.recount hP hr (m := n + 1) (fun _ => rfl) ?_ (Nat.succ_pos n) ?_ ?_
    · rintro c rfl
      rfl
    · intro _
      rw [Multiset.count_add, Multiset.count_singleton_self]
      omega
    · intro _ q hq
      rw [Multiset.count_add, Multiset.count_singleton, if_neg hq, add_zero]
  · rw [if_neg hlive]
    exact ⟨hk.sound, hk.level, fun hs => absurd (hl hs) hlive⟩

theorem retainAll (hP : Steady P) {rs : List Handle} (hk : Kept s P h X)
    (hl : s → ∀ q ∈ rs, h.isLive q = true) : Kept s P (h.retainAll rs) (X + rs) := by
  induction rs generalizing h X with
  | nil => simpa [Heap.retainAll] using hk
  | cons q rs ih =>
    have hq := hk.retain hP (r := q) fun hs => hl hs q (by simp)
    have := ih hq fun hs p hp => by
      rw [isLive_retain]
      exact hl hs p (by simp [hp])
    rw [add_assoc, Multiset.singleton_add, Multiset.cons_coe] at this
    exact this

/-- The body of a cell changes: what it gives up is in flight then, what it takes was before. -/
theorem edit (hP : Steady P) (hk : Kept s P h (X + taken)) (hr : h.arena.Holds r n b)
    {f : Body → Body} (hkind : (f b).isComposite = b.isComposite) (htext : (f b).text? = b.text?)
    (hvalid : (f b).Valid) (hrefs : s → ((f b).refs : Multiset Handle) + given = b.refs + taken) :
    Kept s P (h.modifyAt r.index (·.modifyBody f)) (X + given) := by
  have hcore : (h.modifyAt r.index (·.modifyBody f)).arena.core = Function.update h.arena.core
      r.index (some (r.generation, some (n, f b))) := by
    rw [show (h.modifyAt r.index (·.modifyBody f)).arena =
      h.arena.modifyAt r.index (·.modifyBody f) from rfl,
      Arena.core_modifyAt (F := fun x => (x.1, f x.2)) fun _ => rfl,
      show h.arena.core r.index = _ from hr]
    rfl
  obtain ⟨hsound, hmem⟩ := hk.sound.arena.recell hr hcore (Arena.linksAt_modifyAt _) rfl rfl hkind
    (fun hleaf => hk.sound.arena.leaves r n b hr hleaf) hvalid
  refine ⟨⟨hsound, hk.sound.freeRoots, hk.sound.rootsFree⟩, ?_, fun hstrict => ?_⟩
  · refine hP h _ ⟨⟨rfl, rfl, by rw [hmem], fun i hi => ?_, .update hr hcore hkind, fun ht => ?_, rfl⟩,
      fun hi => hi.congr rfl (Arena.texts_update hr hcore htext),
      fun hc => hc.congr rfl rfl (Arena.texts_update hr hcore htext)⟩ hk.level
    · rw [show (h.modifyAt r.index (·.modifyBody f)).arena.linksAt = h.arena.linksAt from
        Arena.linksAt_modifyAt _]
      exact hi
    · refine ht.update hcore (fun j _ hj => by rwa [hmem] at hj) ?_
      rintro _ _ ⟨⟩ hi
      rw [hmem] at hi
      exact ht r n b hr hi
  · refine (hk.balanced hstrict).shift ?_ ?_
    · rw [Arena.counted_update hr hcore, ← hr.counted, Function.update_eq_self]
    · have hother : ∀ j ≠ r.index,
          (h.modifyAt r.index (·.modifyBody f)).arena.refsAt j = h.arena.refsAt j := by
        intro j hj
        rw [Arena.refsAt_eq_core, Arena.refsAt_eq_core, hcore, Function.update_of_ne hj]
      have hst := stored_update hother rfl rfl
      rw [hr.refsAt, Arena.refsAt_of_core (by rw [hcore, Function.update_self])] at hst
      have hrefs := hrefs hstrict
      -- Both sides, with what the cell owns before and after.
      apply add_right_cancel (b := (b.refs : Multiset Handle))
      calc (h.modifyAt r.index (·.modifyBody f)).stored ∅ + (X + given) + b.refs
          = (h.modifyAt r.index (·.modifyBody f)).stored ∅ + b.refs + (X + given) := by abel
        _ = h.stored ∅ + (f b).refs + (X + given) := by rw [hst]
        _ = h.stored ∅ + X + ((f b).refs + given) := by abel
        _ = h.stored ∅ + X + (b.refs + taken) := by rw [hrefs]
        _ = h.stored ∅ + (X + taken) + b.refs := by abel

/-- A cell is overwritten, and counts what it has come to refer to. -/
theorem store (hP : Steady P) {new : List Handle} (hk : Kept s P h X) (hr : h.arena.Holds r n b)
    {f : Body → Body} (hkind : (f b).isComposite = b.isComposite) (htext : (f b).text? = b.text?)
    (hvalid : (f b).Valid) (hl : s → ∀ q ∈ new, h.isLive q = true)
    (hrefs : s → ((f b).refs : Multiset Handle) + given = b.refs + new) :
    Kept s P ((h.modifyAt r.index (·.modifyBody f)).retainAll new) (X + given) := by
  rw [retainAll_modifyBody]
  obtain ⟨m, hr'⟩ := holds_retainAll hr new
  exact (hk.retainAll hP hl).edit hP hr' hkind htext hvalid hrefs

/-! ## New cells -/

theorem core_retain (hr : h.arena.Holds r n b) : (h.retain r).arena.core =
    Function.update h.arena.core r.index (some (r.generation, some (n + 1, b))) := by
  unfold Heap.retain
  rw [if_pos (show h.isLive r = true from hr.isLive)]
  rw [show (h.modifyAt r.index (·.modifyHeader .acquire)).arena =
    h.arena.modifyAt r.index (·.modifyHeader .acquire) from rfl,
    Arena.core_modifyAt (F := fun x => (x.1 + 1, x.2)) fun _ => rfl,
    show h.arena.core r.index = _ from hr]
  rfl

/-- Counts are taken on live cells. -/
theorem counted_retainAll {rs : List Handle} (hl : ∀ q ∈ rs, h.isLive q = true) (r : Handle) :
    (h.retainAll rs).arena.counted r = h.arena.counted r + rs.count r := by
  induction rs generalizing h with
  | nil => rfl
  | cons q rs ih =>
    have hq : h.isLive q = true := hl q (by simp)
    obtain ⟨n, b, hn⟩ := Arena.isLive_iff.mp hq
    have := ih (h := h.retain q) fun p hp => by
      rw [isLive_retain]
      exact hl p (by simp [hp])
    rw [show h.retainAll (q :: rs) = (h.retain q).retainAll rs from rfl, this,
      Arena.counted_update hn (core_retain hn), List.count_cons]
    by_cases hr : r = q
    · subst hr
      rw [Function.update_self, hn.counted, beq_self_eq_true, if_pos rfl]
      omega
    · rw [Function.update_of_ne hr, if_neg (by simpa using Ne.symm hr), add_zero]

theorem stored_retainAll {rs : List Handle} {D : Finset ℕ} :
    (h.retainAll rs).stored D = h.stored D := by
  induction rs generalizing h with
  | nil => rfl
  | cons q rs ih =>
    rw [show h.retainAll (q :: rs) = (h.retain q).retainAll rs from rfl, ih]
    unfold Heap.retain
    split
    · exact stored_congr (fun i => Arena.refsAt_modifyAt fun _ => rfl) rfl rfl
    · rfl

theorem core_place (hs : h.Sound) : (h.place b).1.arena.core = Function.update h.arena.core
    (h.place b).2.index (some ((h.place b).2.generation, some (1, b))) :=
  Arena.core_place hs.arena.free b

theorem vacant_place (hs : h.Sound) : h.arena.Vacant (h.place b).2.index := by
  rw [show (h.place b).2.index = h.arena.nextSlot from Arena.place_snd_index]
  exact Arena.vacant_place hs.arena.free

/-- A cell is made. -/
theorem mild_place (hs : h.Sound) (hb : b.Valid) : Mild h (h.place b).1 := by
  have hsound := hs.arena.place hb
  have hcore := core_place (b := b) hs
  refine ⟨rfl, rfl, ?_, fun i hi => ?_, fun q n c hq => ?_, fun ht => ?_, rfl⟩
  · change (h.arena.place b).1.members .queue = _
    rw [hsound.2]
    split <;> simp
  · change ((h.arena.place b).1.linksAt i).chain ≠ none
    rw [hsound.1.linked]
    have hi' := (hs.arena.linked i).mp hi
    have hne : i ≠ h.arena.nextSlot := by
      rintro rfl
      exact hi hs.arena.chain_nextSlot
    change ∃ g n b', (h.place b).1.arena.core i = _ ∧ _
    rw [hcore, show (h.place b).2.index = h.arena.nextSlot from Arena.place_snd_index,
      Function.update_of_ne hne]
    exact hi'
  · exact ⟨n, c, hq.place hs.arena.free b, rfl⟩
  · refine ht.update hcore (fun j hj hmem => ?_) ?_
    · change j ∈ (h.arena.place b).1.members .allocated at hmem
      rw [show (h.place b).2.index = h.arena.nextSlot from Arena.place_snd_index] at hj
      rw [hsound.2] at hmem
      split at hmem
      · rw [Function.update_self] at hmem
        exact (List.mem_cons.mp hmem).resolve_left hj
      · exact hmem
    · rintro _ _ ⟨⟩ -
      exact Nat.one_pos

theorem balanced_place (hs : h.Sound) (hbal : h.Balanced ∅ X)
    (hl : ∀ q ∈ b.refs, (h.place b).1.isLive q = true) :
    ((h.place b).1.retainAll b.refs).Balanced ∅ (X + {(h.place b).2}) := by
  intro q
  have hcore := core_place (b := b) hs
  obtain ⟨hzero, hcounted⟩ := Arena.counted_place (vacant_place hs) hcore
  have hother : ∀ j ≠ (h.place b).2.index, (h.place b).1.arena.refsAt j = h.arena.refsAt j := by
    intro j hj
    rw [Arena.refsAt_eq_core, Arena.refsAt_eq_core, hcore, Function.update_of_ne hj]
  have hst : (h.place b).1.stored ∅ = h.stored ∅ + b.refs := by
    have := stored_update hother rfl rfl
    have hnew : (h.place b).1.arena.refsAt (h.place b).2.index = b.refs :=
      Arena.refsAt_of_core (by rw [hcore, Function.update_self])
    have hnil : h.arena.refsAt (h.place b).2.index = [] := by
      rw [Arena.refsAt_eq_core]
      have hvacant := vacant_place (b := b) hs
      cases hc : h.arena.core (h.place b).2.index with
      | none => rfl
      | some x =>
        obtain ⟨g, y⟩ := x
        cases y with
        | none => rfl
        | some z => exact absurd hc (hvacant g z)
    rw [hnil, hnew] at this
    simpa using this
  rw [counted_retainAll hl, stored_retainAll, hst, hcounted]
  have hq := hbal q
  simp only [Multiset.count_add, Multiset.coe_count, Multiset.count_singleton] at hq ⊢
  by_cases hqr : q = (h.place b).2
  · rw [hqr, Function.update_self, if_pos rfl]
    rw [hqr, hzero] at hq
    omega
  · rw [Function.update_of_ne hqr, if_neg hqr]
    omega

/-- A cell that is not a string is made, and counts what it refers to. -/
theorem place (hP : Steady P) (hk : Kept s P h X) (hb : b.Valid) (htext : b.text? = none)
    (hl : s → ∀ q ∈ b.refs, (h.place b).1.isLive q = true) :
    Kept s P ((h.place b).1.retainAll b.refs) (X + {(h.place b).2}) := by
  have htexts : (h.place b).1.arena.texts = h.arena.texts := by
    rw [Arena.texts_place (vacant_place hk.sound) (core_place hk.sound), htext,
      Function.update_eq_self_iff]
    exact (Arena.texts_of_vacant (vacant_place hk.sound)).symm
  have hcalm : Calm h (h.place b).1 :=
    ⟨mild_place hk.sound hb, fun hi => hi.congr rfl htexts, fun hc => hc.congr rfl rfl htexts⟩
  have hplaced : Kept False P (h.place b).1 0 :=
    ⟨⟨(hk.sound.arena.place hb).1, hk.sound.freeRoots, hk.sound.rootsFree⟩, hP _ _ hcalm hk.level,
      False.elim⟩
  have hret : Kept False P ((h.place b).1.retainAll b.refs) (0 + b.refs) :=
    hplaced.retainAll hP False.elim
  exact ⟨hret.sound, hret.level, fun hs => balanced_place hk.sound (hk.balanced hs) (hl hs)⟩

/-! ## Roots -/

/-- The roots change, and so does what is in flight. -/
theorem reroot (hk : Kept s P h (X + taken)) (hP : Steady P) {roots : Array (Option Value)}
    {free : List ℕ} (hnd : free.Nodup) (hfree : ∀ n ∈ free, roots[n]? = some none)
    (hrefs : s → ((roots.toList.flatMap fun v => (v.map Value.refs).getD [] : List Handle) :
      Multiset Handle) + given = h.rootRefs + taken) :
    Kept s P { h with roots := roots, freeRoots := free } (X + given) := by
  refine ⟨⟨hk.sound.arena, hnd, hfree⟩,
    hP h _ ⟨⟨rfl, rfl, rfl, fun _ hi => hi, .of_core rfl, id, rfl⟩, fun hi => hi.congr rfl rfl,
      fun hc => hc.congr rfl rfl rfl⟩ hk.level,
    fun hs => ?_⟩
  refine (hk.balanced hs).shift rfl ?_
  have hroots := hrefs hs
  unfold stored
  rw [show ({ h with roots := roots, freeRoots := free } : Heap).rootRefs = _ from rootRefs_eq]
  calc h.arena.owned ∅ + (roots.toList.flatMap fun v => (v.map Value.refs).getD [] : List Handle) +
        h.finalizerKey.toList + (X + given)
      = h.arena.owned ∅ + h.finalizerKey.toList + X +
        ((roots.toList.flatMap fun v => (v.map Value.refs).getD [] : List Handle) + given) := by abel
    _ = h.arena.owned ∅ + h.finalizerKey.toList + X + (h.rootRefs + taken) := by rw [hroots]
    _ = h.arena.owned ∅ + h.rootRefs + h.finalizerKey.toList + (X + taken) := by abel

/-- One root is overwritten. -/
theorem coe_rootRefs_set {roots : Array (Option Value)} {old : Option Value} (v : Option Value)
    (hold : roots[n]? = some old) :
    (((roots.setIfInBounds n v).toList.flatMap fun v => (v.map Value.refs).getD [] : List Handle) :
      Multiset Handle) + ((old.map Value.refs).getD [] : List Handle) =
      (roots.toList.flatMap fun v => (v.map Value.refs).getD [] : List Handle) +
        ((v.map Value.refs).getD [] : List Handle) := by
  rw [Array.toList_setIfInBounds]
  exact coe_flatMap_set _ _ (by simpa using hold)

/-- A value is held in a root. -/
theorem holdRoot (hP : Steady P) {v : Value} (hk : Kept s P h X)
    (hl : s → ∀ q ∈ v.refs, h.isLive q = true) : Kept s P (h.holdRoot v).1 X := by
  have hret := hk.retainAll hP hl
  rw [← add_zero X]
  unfold Heap.holdRoot
  dsimp only
  cases hf : (h.retainAll v.refs).freeRoots with
  | nil =>
    dsimp only
    refine hret.reroot hP List.nodup_nil (by simp) fun _ => ?_
    rw [add_zero, rootRefs_eq, Array.toList_push, coe_flatMap_concat]
    rfl
  | cons n rest =>
    dsimp only
    have hnd := hret.sound.freeRoots
    rw [hf, List.nodup_cons] at hnd
    have hn := hret.sound.rootsFree n (by simp [hf])
    refine hret.reroot hP hnd.2 (fun m hm => ?_) fun _ => ?_
    · have hne : n ≠ m := fun e => hnd.1 (e ▸ hm)
      rw [Array.getElem?_setIfInBounds, if_neg hne]
      exact hret.sound.rootsFree m (by simp [hf, hm])
    · rw [rootRefs_eq]
      exact coe_rootRefs_set (some v) hn

/-- A root is overwritten. -/
theorem storeRoot (hP : Steady P) {v old : Value} (hk : Kept s P h X)
    (hold : h.root? n = some old) (hl : s → ∀ q ∈ v.refs, h.isLive q = true) :
    Kept s P (h.storeRoot n v) (X + old.refs) := by
  have hret := hk.retainAll hP hl
  have hroots : (h.retainAll v.refs).roots = h.roots := by rw [retainAll_eq]
  have hn : h.roots[n]? = some (some old) := Option.join_eq_some_iff.mp hold
  unfold Heap.storeRoot
  rw [retainAll_roots]
  refine hret.reroot hP hret.sound.freeRoots (fun m hm => ?_) fun _ => ?_
  · have hne : n ≠ m := by
      rintro rfl
      have := hret.sound.rootsFree n hm
      rw [hroots, hn] at this
      cases this
    rw [Array.getElem?_setIfInBounds, if_neg hne, ← hroots]
    exact hret.sound.rootsFree m hm
  · rw [rootRefs_eq, hroots]
    exact coe_rootRefs_set (some v) hn

/-- A root is removed. -/
theorem dropRoot (hP : Steady P) (hk : Kept s P h X) :
    Kept s P (h.dropRoot n).1 (X + ((h.dropRoot n).2.elim [] Value.refs : List Handle)) := by
  unfold Heap.dropRoot
  cases hold : h.root? n with
  | none => simpa using hk
  | some old =>
    have hn : h.roots[n]? = some (some old) := Option.join_eq_some_iff.mp hold
    have hk' : Kept s P h (X + 0) := by simpa using hk
    refine hk'.reroot hP (List.nodup_cons.mpr ⟨?_, hk.sound.freeRoots⟩) (fun m hm => ?_) fun _ => ?_
    · intro hm
      have := hk.sound.rootsFree n hm
      rw [hn] at this
      cases this
    · by_cases hne : n = m
      · subst hne
        simp [(Array.getElem?_eq_some_iff.mp hn).1]
      · rw [Array.getElem?_setIfInBounds, if_neg hne]
        exact hk.sound.rootsFree m ((List.mem_cons.mp hm).resolve_left (Ne.symm hne))
    · rw [rootRefs_eq]
      exact coe_rootRefs_set none hn

end Kept

end CountedHeap.Heap
