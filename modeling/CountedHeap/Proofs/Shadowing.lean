import CountedHeap.Proofs.Depth
import CountedHeap.Proofs.Property.Ordered

/-!
# Stores and deletions shadow

A store of a property changes what is found wherever the object that it goes to comes first on a chain among
the objects with such a property, and nothing else. A deletion makes a look-up find what it would find if
there had been no such property. The cells that are freed by the way are on no chain that anything is left
of.

* `Facet`, `search`: what an object shows to look-ups, and a look-up among such facets.
* `Nearest`: the first object on a chain that has a property.
* `search_put`, `search_set_none`: a look-up after a store.
* `Agree`: two heaps show the same from some cells on.
* `Heap.Stored`, `Heap.Deleted`: the effect of a store and of a deletion.
* `stores_shadow`: this is the effect in every world that is reached where counts are exact and no finalizer
  is found, unless the store puts a finalizer in the place of an accessor.
-/

namespace CountedHeap

open Heap (Kept OutsidePass Shrinks)

/-- What an object shows to look-ups: its prototype and its own properties. -/
structure Facet where
  proto : Option Handle
  own : Handle → Option Slot

/-- The facet with another property of its own, or without one. -/
def Facet.set (f : Facet) (key : Handle) (slot : Option Slot) : Facet :=
  { f with own := Function.update f.own key slot }

/-- The facets of cells, and why some have none. -/
abbrev View := Handle → Except HeapError Facet

/-- A look-up among facets, which visits at most as many as the number says. -/
def search (V : View) (key : Handle) : ℕ → Handle → Except HeapError (Option (Handle × Slot))
  | 0, _ => .error .prototypeChainTooDeep
  | n + 1, r =>
    match V r with
    | .error e => .error e
    | .ok f =>
      match f.own key with
      | some slot => .ok (some (r, slot))
      | none =>
        match f.proto with
        | some p => search V key n p
        | none => .ok none

/-- Among the first cells on the chain from a cell, as many as the number says, `r` comes first of those that
have a property. -/
inductive Nearest (V : View) (key r : Handle) : ℕ → Handle → Prop where
  | here {n : ℕ} {f : Facet} : V r = .ok f → f.own key ≠ none → Nearest V key r (n + 1) r
  | next {n : ℕ} {q p : Handle} {f : Facet} : V q = .ok f → f.own key = none → f.proto = some p →
      Nearest V key r n p → Nearest V key r (n + 1) q

variable {σ : Type} {V V' : View} {S : Handle → Prop} {r q x key k : Handle} {slot : Slot} {n : ℕ}
  {f : Facet} {h h' : Heap} {o : Object}

/-! ## Look-ups among facets -/

theorem search_of_own (hq : V q = .ok f) (hslot : f.own key = some slot) :
    search V key (n + 1) q = .ok (some (q, slot)) := by
  simp [search, hq, hslot]

theorem search_of_proto {p : Handle} (hq : V q = .ok f) (hnone : f.own key = none)
    (hp : f.proto = some p) : search V key (n + 1) q = search V key n p := by
  simp [search, hq, hnone, hp]

/-- Two views show the same of a property of a cell, and from its prototype on. -/
theorem search_congr {f' : Facet} (hq : V q = .ok f) (hq' : V' q = .ok f') (hown : f'.own key = f.own key)
    (hproto : f'.proto = f.proto)
    (hrest : ∀ p, f.own key = none → f.proto = some p → search V' key n p = search V key n p) :
    search V' key (n + 1) q = search V key (n + 1) q := by
  unfold search
  rw [hq, hq']
  dsimp only
  rw [hown, hproto]
  cases hslot : f.own key with
  | some slot => rfl
  | none =>
    cases hp : f.proto with
    | none => rfl
    | some p => exact hrest p hslot hp

/-- The nearest cell with a property is the one that is found. -/
theorem Nearest.search (hn : Nearest V key r n q) (hr : V r = .ok f) (hslot : f.own key = some slot) :
    CountedHeap.search V key n q = .ok (some (r, slot)) := by
  induction hn with
  | here _ _ => exact search_of_own hr hslot
  | next hq hnone hp _ ih => rw [search_of_proto hq hnone hp, ih]

/-- A property of a cell makes no difference to look-ups of other properties, and none where another cell is
nearer. -/
theorem search_update {f' : Facet} (hr : V r = .ok f) (hproto : f'.proto = f.proto)
    (hown : k ≠ key → f'.own k = f.own k) (hslot : f'.own key ≠ none)
    (hother : ¬ (k = key ∧ Nearest (Function.update V r (.ok f')) key r n q)) :
    search (Function.update V r (.ok f')) k n q = search V k n q := by
  induction n generalizing q with
  | zero => rfl
  | succ n ih =>
    rcases eq_or_ne q r with rfl | hqr
    · have hq : Function.update V q (.ok f') q = .ok f' := Function.update_self ..
      have hk : k ≠ key := fun hk => hother ⟨hk, .here hq hslot⟩
      exact search_congr hr hq (hown hk) hproto fun p _ _ => ih fun hnear => hk hnear.1
    · have hq : Function.update V r (.ok f') q = V q := Function.update_of_ne hqr ..
      cases hf : V q with
      | error e => simp [search, hq, hf]
      | ok g =>
        refine search_congr hf (hq.trans hf) rfl rfl fun p hnone hp => ih fun hnear => hother ?_
        exact ⟨hnear.1, .next (hq.trans hf) (hnear.1 ▸ hnone) hp hnear.2⟩

/-! ## Views that agree -/

/-- Two views show the same of some cells, which no prototype leads out of. -/
structure Agree (S : Handle → Prop) (V V' : View) : Prop where
  same : ∀ q, S q → V' q = V q
  closed : ∀ q f p, S q → V q = .ok f → f.proto = some p → S p

theorem Agree.search (ha : Agree S V V') (hq : S q) :
    CountedHeap.search V' key n q = CountedHeap.search V key n q := by
  induction n generalizing q with
  | zero => rfl
  | succ n ih =>
    cases hf : V q with
    | error e => simp [CountedHeap.search, ha.same q hq, hf]
    | ok f =>
      exact search_congr hf ((ha.same q hq).trans hf) rfl rfl fun p _ hp =>
        ih (ha.closed q f p hq hf hp)

theorem Agree.nearest (ha : Agree S V V') (hq : S q) (hn : Nearest V' key r n q) :
    Nearest V key r n q := by
  induction hn with
  | here hf hslot => exact .here ((ha.same _ hq).symm.trans hf) hslot
  | next hf hnone hp _ ih =>
    have hf := (ha.same _ hq).symm.trans hf
    exact .next hf hnone hp (ih (ha.closed _ _ _ hq hf hp))

theorem Agree.symm (ha : Agree S V V') : Agree S V' V :=
  ⟨fun q hq => (ha.same q hq).symm, fun q f p hq hf =>
    ha.closed q f p hq ((ha.same q hq).symm.trans hf)⟩

/-! ## The facets of a heap -/

namespace Heap

/-- The facets that a heap shows. -/
def facet (h : Heap) : View :=
  fun r => (h.object r).map fun o => ⟨o.proto, o.props.get?⟩

theorem facet_of_object (ho : h.object r = .ok o) : h.facet r = .ok ⟨o.proto, o.props.get?⟩ := by
  unfold facet
  rw [ho]
  rfl

theorem findWithin_eq_search : h.findWithin key n r = search h.facet key n r := by
  induction n generalizing r with
  | zero => rfl
  | succ n ih =>
    unfold findWithin search facet
    cases h.object r with
    | error e => rfl
    | ok o =>
      dsimp only [Except.map]
      cases o.props.get? key with
      | some slot => rfl
      | none =>
        cases o.proto with
        | none => rfl
        | some p => exact ih

theorem facet_update {h' : Heap} {o' : Object}
    (hobj : h'.object = Function.update h.object r (.ok o')) :
    h'.facet = Function.update h.facet r (.ok ⟨o'.proto, o'.props.get?⟩) := by
  funext q
  unfold facet
  rw [hobj]
  rcases eq_or_ne q r with rfl | hq
  · rw [Function.update_self, Function.update_self]
    rfl
  · rw [Function.update_of_ne hq, Function.update_of_ne hq]

/-- Where the same cells are followed by the same prototypes, chains are the same. -/
theorem follow_of_protos (hS : ∀ q, S q → (h'.facet q).map Facet.proto = (h.facet q).map Facet.proto)
    (hclosed : ∀ q f p, S q → h.facet q = .ok f → f.proto = some p → S p) (hq : S q) :
    h'.follow n (some q) = h.follow n (some q) ∧ ∀ p ∈ (h.follow n (some q)).2, S p := by
  induction n generalizing q with
  | zero => exact ⟨rfl, fun p hp => Option.some.inj hp ▸ hq⟩
  | succ n ih =>
    have hsame := hS q hq
    cases ho : h.object q with
    | error e =>
      cases ho' : h'.object q with
      | error e' =>
        rw [follow_error ho, follow_error ho']
        exact ⟨rfl, fun p hp => Option.some.inj hp ▸ hq⟩
      | ok o' => simp [facet, ho, ho', Except.map] at hsame
    | ok o =>
      cases ho' : h'.object q with
      | error e' => simp [facet, ho, ho', Except.map] at hsame
      | ok o' =>
        have hproto : o'.proto = o.proto := by simpa [facet, ho, ho', Except.map] using hsame
        rw [follow_some ho, follow_some ho', hproto]
        cases hp : o.proto with
        | none => simp [follow_none]
        | some p =>
          obtain ⟨hrest, hend⟩ := ih (hclosed q _ p hq (facet_of_object ho) hp)
          exact ⟨by rw [hrest], hend⟩

theorem facet_eq_ok (hf : h.facet r = .ok f) :
    ∃ o, h.object r = .ok o ∧ f = ⟨o.proto, o.props.get?⟩ := by
  unfold facet at hf
  cases ho : h.object r with
  | error e => simp [ho, Except.map] at hf
  | ok o =>
    rw [ho] at hf
    exact ⟨o, rfl, (Except.ok.inj hf).symm⟩

/-- Where no reference is stale, prototypes are live. -/
theorem live_of_proto {p : Handle} (hx : h.Whole q) (hf : h.facet q = .ok f) (hp : f.proto = some p) :
    h.isLive p = true := by
  obtain ⟨o, ho, rfl⟩ := facet_eq_ok hf
  obtain ⟨⟨header, body⟩, hc, hobject⟩ := object_eq_ok.mp ho
  have hmem : p ∈ o.refs := by simp [Object.refs, show o.proto = some p from hp]
  refine hx _ _ (Arena.holds_of_get? hc) p ?_
  cases body with
  | object o' =>
    cases hobject
    exact hmem
  | thread t =>
    cases hobject
    simp [Body.refs, Thread.refs, hmem]
  | string _ => cases hobject
  | buffer _ => cases hobject

theorem Shrinks.facet (hs : Shrinks h h') (hq : h'.isLive q = true) : h'.facet q = h.facet q := by
  obtain ⟨n, b, hb⟩ := Arena.isLive_iff.mp hq
  obtain ⟨m, hm⟩ := hs.cells q n b hb
  obtain ⟨c, hc, -, rfl⟩ := hb.get?
  obtain ⟨c', hc', -, hbody⟩ := hm.get?
  have hobject : h'.object q = h.object q := object_congr (by
    rw [hc, hc', Option.map_some, Option.map_some, hbody])
  unfold Heap.facet
  rw [hobject]

/-- What is left of a heap shows what it showed before, if counts are exact. -/
theorem Shrinks.agree {X : Multiset Handle} (hs : Shrinks h h') (hx : h'.Exact X) :
    Agree (h'.isLive · = true) h.facet h'.facet where
  same _ hq := hs.facet hq
  closed q _ _ hq hf hp := live_of_proto (hx.whole q) ((hs.facet hq).trans hf) hp

/-! ## Stores and deletions -/

/-- The chains of what is left are what they were, and lead to nothing that has been freed. -/
def KeepsChains (h h' : Heap) : Prop :=
  ∀ x n, h'.isLive x = true → h'.follow n (some x) = h.follow n (some x) ∧
    ∀ q ∈ (h'.follow n (some x)).2, h'.isLive q = true

/-- The effect of a store: the new property is found from wherever the object comes first on the chain among
those with such a property, and everything else is found, or not, as before. -/
structure Stored (h : Heap) (r key : Handle) (slot : Slot) (h' : Heap) : Prop where
  found : ∀ x, h'.isLive x = true → Nearest h'.facet key r maxPrototypeChain x →
    h'.findInChain x key = .ok (some (r, slot))
  others : ∀ x k, h'.isLive x = true →
    ¬ (k = key ∧ Nearest h'.facet key r maxPrototypeChain x) → h'.findInChain x k = h.findInChain x k
  chains : h.KeepsChains h'

/-- The effect of a deletion: what is found is what would be found if the object had no such property. -/
structure Deleted (h : Heap) (r key : Handle) (h' : Heap) : Prop where
  found : ∀ x k, h'.isLive x = true → h'.findInChain x k =
    search (Function.update h.facet r ((h.facet r).map (·.set key none))) k maxPrototypeChain x
  chains : h.KeepsChains h'

/-- A store that puts a finalizer in the place of an accessor, whose functions are then given back. -/
def Arms (h : Heap) (r key : Handle) (slot : Slot) : Prop :=
  h.finalizerKey = some key ∧ (∃ v, slot = .data v ∧ v.isUndefined = false) ∧
    ∃ getter setter, h.ownSlot? r key = some (.accessor getter setter)

section

variable {X : Multiset Handle} {h₁ : Heap}

theorem facet_storeSlot (ho : h.object r = .ok o) (hv : o.props.Valid) :
    (h.storeSlot r key slot).1.facet =
      Function.update h.facet r ((h.facet r).map (·.set key (some slot))) := by
  rw [facet_update (object_storeSlot ho), facet_of_object ho, hv.get?_set]
  rfl

theorem facet_dropSlot (ho : h.object r = .ok o) (hv : o.props.Valid) :
    (h.dropSlot r key).1.facet = Function.update h.facet r ((h.facet r).map (·.set key none)) := by
  rw [facet_of_object ho]
  cases hslot : o.props.get? key with
  | none =>
    have hsame : Facet.set ⟨o.proto, o.props.get?⟩ key none = ⟨o.proto, o.props.get?⟩ := by
      unfold Facet.set
      rw [← hslot, Function.update_eq_self]
    unfold dropSlot
    rw [ownSlot?_eq ho, hslot]
    dsimp only [Except.map]
    rw [hsame, ← facet_of_object ho, Function.update_eq_self]
  | some slot =>
    rw [facet_update (object_dropSlot ho hslot), hv.get?_delete]
    rfl

/-- An edit of properties, after which cells are freed only, keeps chains. -/
theorem keepsChains_of_edit {slot? : Option Slot} (hs : Shrinks h₁ h') (hx : h'.Exact X)
    (hedit : h₁.facet = Function.update h.facet r ((h.facet r).map (·.set key slot?))) :
    h.KeepsChains h' := by
  have hprotos : ∀ q, h'.isLive q = true →
      (h'.facet q).map Facet.proto = (h.facet q).map Facet.proto := by
    intro q hq
    rw [hs.facet hq, hedit]
    rcases eq_or_ne q r with rfl | hqr
    · rw [Function.update_self]
      cases h.facet q <;> rfl
    · rw [Function.update_of_ne hqr]
  intro x n hx'
  have hfollow := follow_of_protos (n := n) hprotos (fun q f p hq hf hp => ?_) hx'
  · exact ⟨hfollow.1, hfollow.1 ▸ hfollow.2⟩
  · have hsame := hprotos q hq
    rw [hf] at hsame
    cases hf' : h'.facet q with
    | error e => simp [hf', Except.map] at hsame
    | ok f' =>
      have hp' : f'.proto = some p := by simpa [hf', Except.map, hp] using hsame
      exact live_of_proto (hx.whole q) hf' hp'

/-- A store, after which cells are freed only. -/
theorem stored_of_shrinks (hs : Shrinks (h.storeSlot r key slot).1 h') (hx : h'.Exact X)
    (ho : h.object r = .ok o) (hv : o.props.Valid) : h.Stored r key slot h' := by
  have hedit : (h.storeSlot r key slot).1.facet = _ := facet_storeSlot ho hv
  have hagree := hs.agree hx
  refine ⟨fun x hlive hn => ?_, fun x k hlive hn => ?_, keepsChains_of_edit hs hx hedit⟩
  all_goals
    unfold findInChain
    rw [findWithin_eq_search, hagree.search hlive]
  · have hr : (h.storeSlot r key slot).1.facet r = .ok (Facet.set ⟨o.proto, o.props.get?⟩ key (some slot)) := by
      rw [hedit, Function.update_self, facet_of_object ho]
      rfl
    exact (hagree.nearest hlive hn).search hr (Function.update_self ..)
  · have hother : ¬ (k = key ∧ Nearest (h.storeSlot r key slot).1.facet key r maxPrototypeChain x) :=
      fun hnear => hn ⟨hnear.1, hagree.symm.nearest hlive hnear.2⟩
    rw [findWithin_eq_search]
    rw [hedit, facet_of_object ho] at hother ⊢
    exact search_update (facet_of_object ho) rfl (fun hk => Function.update_of_ne hk ..)
      (by simp [Facet.set]) hother

/-- A deletion, after which cells are freed only. -/
theorem deleted_of_shrinks (hs : Shrinks (h.dropSlot r key).1 h') (hx : h'.Exact X)
    (ho : h.object r = .ok o) (hv : o.props.Valid) : h.Deleted r key h' := by
  have hedit : (h.dropSlot r key).1.facet = _ := facet_dropSlot ho hv
  refine ⟨fun x k hlive => ?_, keepsChains_of_edit hs hx hedit⟩
  unfold findInChain
  rw [findWithin_eq_search, (hs.agree hx).search hlive, hedit]

end

end Heap

/-! ## Operations -/

/-- The operation that stores a property. -/
def Slot.put : Slot → Handle → Handle → Operation Unit
  | .data v, r, key => .putProp r key v
  | .accessor getter setter, r, key => .putAccessor r key getter setter

namespace Heap

theorem finalizerKey_retainAll {rs : List Handle} : (h.retainAll rs).finalizerKey = h.finalizerKey := by
  rw [retainAll_eq]

/-- No finalizer turns up when something is displaced, unless the store puts one in the place of an
accessor. -/
theorem unfinalized_storeSlot (hu : h.Unfinalized) (ho : h.object r = .ok o) (hv : o.props.Valid)
    (harms : ¬ h.Arms r key slot) (hold : (h.storeSlot r key slot).2 ≠ []) :
    (h.storeSlot r key slot).1.Unfinalized := by
  have hown : ∀ fk v, h.finalizerKey = some fk → o.props.get? fk = some (.data v) → v.isUndefined = true :=
    fun fk v hfk hslot => unfinalized_iff.mp hu fk r o v hfk ho hslot
  unfold storeSlot at hold ⊢
  rw [ownSlot?_eq ho] at hold ⊢
  cases hslot : o.props.get? key with
  | none => simp [hslot] at hold
  | some old =>
    rw [hslot] at hold
    refine hu.update finalizerKey_retainAll (object_retainAll.trans (object_modifyObject ho _))
      fun fk v hfk hfound => ?_
    dsimp only at hfound
    rw [hv.get?_set] at hfound
    rcases eq_or_ne fk key with rfl | hne
    · rw [Function.update_self, Option.some.injEq] at hfound
      cases old with
      | data v' =>
        cases v' <;> first | exact absurd rfl hold | cases hown fk _ hfk hslot
      | accessor getter setter =>
        by_contra hv
        refine harms ⟨hfk, ⟨v, hfound, by simpa using hv⟩, getter, setter, ?_⟩
        rw [ownSlot?_eq ho, hslot]
    · rw [Function.update_of_ne hne] at hfound
      exact hown fk v hfk hfound

theorem unfinalized_dropSlot (hu : h.Unfinalized) (ho : h.object r = .ok o) (hv : o.props.Valid) :
    (h.dropSlot r key).1.Unfinalized := by
  unfold dropSlot
  rw [ownSlot?_eq ho]
  cases hslot : o.props.get? key with
  | none => exact hu
  | some old =>
    refine hu.update rfl (object_modifyObject ho _) fun fk v hfk hfound => ?_
    dsimp only at hfound
    rw [hv.get?_delete] at hfound
    rcases eq_or_ne fk key with rfl | hne
    · rw [Function.update_self] at hfound
      cases hfound
    · rw [Function.update_of_ne hne] at hfound
      exact unfinalized_iff.mp hu fk r o v hfk ho hfound

end Heap

section

variable {host : Host σ} {w w' : World σ} {X : Multiset Handle} {fuel : ℕ}

theorem Reachable.valid (hw : Reachable host w) (ho : w.heap.object r = .ok o) : o.props.Valid := by
  obtain ⟨c, hc, hobject⟩ := Heap.object_eq_ok.mp ho
  exact hw.sound.1.arena.bodies _ _ _ (Arena.holds_of_get? hc) o hobject

/-- What is displaced is given back, and that only frees cells. -/
theorem after_releaseAll {rs : List Handle} (hk : Kept True (OutsidePass []) w.heap (X + rs))
    (hu : rs ≠ [] → w.heap.Unfinalized) :
    After ((Engine.top host fuel).releaseAll rs) w fun _ w' =>
      Shrinks w.heap w'.heap ∧ w'.heap.Exact X := by
  rcases eq_or_ne rs [] with rfl | hrs
  · exact after_pure.mpr ⟨.refl, by simpa using hk.exact⟩
  · exact (top_releaseAll_fades (.inr (hu hrs)) hk).mono fun _ _ hw' =>
      ⟨hw'.2.toShrinks, hw'.1.exact⟩

theorem meets_putSlot (hw : Reachable host w) (hx : w.heap.Exact X) (hu : w.heap.Unfinalized)
    (harms : ¬ w.heap.Arms r key slot) :
    Meets ((Engine.top host fuel).putSlot r key slot) w (fun _ _ => True) fun _ w' =>
      w.heap.Stored r key slot w'.heap := by
  simp only [Engine.putSlot, meets_bind, meets_check, meets_surely, after_change]
  refine ⟨fun _ _ => trivial, fun _ hc => ?_⟩
  obtain ⟨-, -, o, ho⟩ := Heap.checkStore_eq_ok hc
  have hv := hw.valid ho
  have hk := (hw.kept hx).storeSlot (Heap.steady_outsidePass []) hc
  exact (after_releaseAll (w := ⟨(w.heap.storeSlot r key slot).1, w.host⟩) hk
    (Heap.unfinalized_storeSlot hu ho hv harms)).mono fun _ _ hw' =>
      Heap.stored_of_shrinks hw'.1 hw'.2 ho hv

theorem meets_deleteProp (hw : Reachable host w) (hx : w.heap.Exact X) (hu : w.heap.Unfinalized) :
    Meets ((Engine.top host fuel).deleteProp r key) w (fun _ _ => True) fun _ w' =>
      w.heap.Deleted r key w'.heap := by
  simp only [Engine.deleteProp, meets_bind, meets_check, meets_surely, after_change]
  refine ⟨fun _ _ => trivial, fun o ho => ?_⟩
  have hv := hw.valid ho
  cases hd : (w.heap.dropSlot r key).2 with
  | none =>
    have hk := (hw.kept hx).dropSlot_none hd
    exact meets_pure.mpr (Heap.deleted_of_shrinks .refl
      hk.exact ho hv)
  | some displaced =>
    have hk := (hw.kept hx).dropSlot (Heap.steady_outsidePass []) hd
    simp only [meets_bind, meets_surely, meets_pure]
    exact (after_releaseAll (w := ⟨(w.heap.dropSlot r key).1, w.host⟩) hk fun _ =>
      Heap.unfinalized_dropSlot hu ho hv).mono fun _ _ hw' =>
        Heap.deleted_of_shrinks hw'.1 hw'.2 ho hv

/-- A store or a deletion of a property, in a world that is reached where counts are exact and no finalizer
is found. Unless the store puts a finalizer in the place of an accessor, what is left once the displaced
property has been given back is as the store or the deletion alone would have it: from each live cell, a
look-up of the stored property finds it if the object comes first on the chain, and every other look-up
answers what it answered before; after a deletion look-ups answer as if there had been no such property. All
chains of what is left are what they were, and lead to nothing that has been freed. -/
theorem stores_shadow (host : Host σ) (w : World σ) (X : Multiset Handle) (r key : Handle) (fuel : ℕ)
    (hw : Reachable host w) (hx : w.heap.Exact X) (hu : w.heap.Unfinalized) :
    (∀ slot w', ((Engine.top host fuel).perform (slot.put r key)).run w = some (.ok (), w') →
      ¬ w.heap.Arms r key slot → w.heap.Stored r key slot w'.heap) ∧
    ∀ existed w', ((Engine.top host fuel).perform (.deleteProp r key)).run w = some (.ok existed, w') →
      w.heap.Deleted r key w'.heap := by
  refine ⟨fun slot w' e harms => ?_, fun existed w' e => meets_deleteProp hw hx hu _ w' e⟩
  have hput : (Engine.top host fuel).perform (slot.put r key) =
      (Engine.top host fuel).putSlot r key slot := by
    cases slot <;> rfl
  rw [hput] at e
  exact meets_putSlot hw hx hu harms _ w' e

end

/-- An object has a property that another one inherits, and nothing else counts what is stored there. -/
def lent : List Command :=
  [⟨_, .allocObject none⟩, ⟨_, .allocObject none⟩, ⟨_, .allocObject (some ⟨1, 0⟩)⟩,
    ⟨_, .intern "k" false⟩, ⟨_, .putProp ⟨1, 0⟩ ⟨3, 0⟩ (.ref ⟨0, 0⟩)⟩, ⟨_, .release (.ref ⟨0, 0⟩)⟩]

/-- The prototype of an object and one property of its own. -/
def Heap.glimpse (h : Heap) (r key : Handle) : Option (Option Handle × Option Slot) :=
  (h.facet r).toOption.map fun f => (f.proto, f.own key)

theorem Heap.glimpse_eq_some {proto : Option Handle} {slot? : Option Slot}
    (hg : h.glimpse r key = some (proto, slot?)) :
    ∃ f, h.facet r = .ok f ∧ f.proto = proto ∧ f.own key = slot? := by
  obtain ⟨f, hf, he⟩ := Option.map_eq_some_iff.mp hg
  exact ⟨f, ok_of_mem_toOption hf, (Prod.mk.inj he).1, (Prod.mk.inj he).2⟩

/-- The property is overwritten, or deleted. What was stored there is freed, and the heir finds the new
property or none. -/
theorem stores_shadow_lent : ∃ w w₁ w₂ : World Unit, Reachable .idle w ∧
    w.heap.Exact {⟨1, 0⟩, ⟨2, 0⟩, ⟨3, 0⟩} ∧ w.heap.Unfinalized ∧
    ¬ w.heap.Arms ⟨1, 0⟩ ⟨3, 0⟩ (.data .null) ∧
    ((Engine.top .idle 5).perform (.putProp ⟨1, 0⟩ ⟨3, 0⟩ .null)).run w = some (.ok (), w₁) ∧
    w₁.heap.isLive ⟨0, 0⟩ = false ∧
    w₁.heap.findInChain ⟨2, 0⟩ ⟨3, 0⟩ = .ok (some (⟨1, 0⟩, .data .null)) ∧
    ((Engine.top .idle 5).perform (.deleteProp ⟨1, 0⟩ ⟨3, 0⟩)).run w = some (.ok true, w₂) ∧
    w₂.heap.isLive ⟨0, 0⟩ = false ∧ w₂.heap.findInChain ⟨2, 0⟩ ⟨3, 0⟩ = .ok none := by
  have hran : (rehearse (fun _ => (Engine.top .idle 5).perform) lent
      (⟨.empty {}, ()⟩ : World Unit) 0).any (fun x =>
        x.1.heap.Exact {⟨1, 0⟩, ⟨2, 0⟩, ⟨3, 0⟩} ∧ x.1.heap.finalizerKey = none ∧
        x.1.heap.glimpse ⟨2, 0⟩ ⟨3, 0⟩ = some (some ⟨1, 0⟩, none) ∧
        x.1.heap.glimpse ⟨1, 0⟩ ⟨3, 0⟩ = some (none, some (.data (.ref ⟨0, 0⟩))) ∧
        (((Engine.top .idle 5).perform (.putProp ⟨1, 0⟩ ⟨3, 0⟩ .null)).run x.1).any (fun y =>
          y.1 = .ok () ∧ y.2.heap.isLive ⟨0, 0⟩ = false ∧ y.2.heap.isLive ⟨2, 0⟩ = true ∧
          y.2.heap.glimpse ⟨2, 0⟩ ⟨3, 0⟩ = some (some ⟨1, 0⟩, none) ∧
          y.2.heap.glimpse ⟨1, 0⟩ ⟨3, 0⟩ = some (none, some (.data .null))) = true ∧
        (((Engine.top .idle 5).perform (.deleteProp ⟨1, 0⟩ ⟨3, 0⟩)).run x.1).any (fun y =>
          y.1 = .ok true ∧ y.2.heap.isLive ⟨0, 0⟩ = false ∧ y.2.heap.isLive ⟨2, 0⟩ = true) = true) =
      true := by
    decide +kernel
  obtain ⟨⟨w, Y⟩, hw, hfacts⟩ := (Option.any_eq_true _ _).mp hran
  obtain ⟨hx, hkey, hheir, hholder, hput, hdelete⟩ := of_decide_eq_true hfacts
  obtain ⟨⟨_, w₁⟩, e₁, hfacts₁⟩ := (Option.any_eq_true _ _).mp hput
  obtain ⟨⟨_, w₂⟩, e₂, hfacts₂⟩ := (Option.any_eq_true _ _).mp hdelete
  obtain ⟨rfl, hfreed₁, hlive₁, hheir₁, hholder₁⟩ := of_decide_eq_true hfacts₁
  obtain ⟨rfl, hfreed₂, hlive₂⟩ := of_decide_eq_true hfacts₂
  have hr : Reachable .idle w := ((Run.start {} ()).rehearse_careful hw).reachable
  have hu : w.heap.Unfinalized := Heap.unfinalized_of_key hkey
  have harms : ¬ w.heap.Arms ⟨1, 0⟩ ⟨3, 0⟩ (.data .null) := by
    rintro ⟨hfk, -⟩
    rw [hkey] at hfk
    cases hfk
  obtain ⟨hstored, hdeleted⟩ := stores_shadow .idle w _ ⟨1, 0⟩ ⟨3, 0⟩ 5 hr hx hu
  refine ⟨w, w₁, w₂, hr, hx, hu, harms, e₁, hfreed₁, ?_, e₂, hfreed₂, ?_⟩
  · obtain ⟨f, hf, hproto, hnone⟩ := Heap.glimpse_eq_some hheir₁
    obtain ⟨g, hg, -, hslot⟩ := Heap.glimpse_eq_some hholder₁
    exact (hstored (.data .null) w₁ e₁ harms).found _ hlive₁
      (.next hf hnone hproto (.here hg (by simp [hslot])))
  · obtain ⟨f, hf, hproto, hnone⟩ := Heap.glimpse_eq_some hheir
    obtain ⟨g, hg, hlast, -⟩ := Heap.glimpse_eq_some hholder
    rw [(hdeleted true w₂ e₂).found _ _ hlive₂]
    simp [search, maxPrototypeChain, hf, hg, hproto, hnone, hlast, Facet.set, Except.map]

/-- The host whose native functions store null in an object. -/
def Host.nulling (r key : Handle) : Host σ :=
  fun _ _ => .perform (.putProp r key .null) fun _ => .done .returned

/-- An object had a finalizer, and now has an accessor in its place. The getter, which only the accessor
counts, has the object as its prototype. -/
def disarmed : List Command :=
  [⟨_, .registerNative⟩, ⟨_, .allocObject none⟩, ⟨_, .allocObject (some ⟨0, 0⟩)⟩,
    ⟨_, .allocObject none⟩, ⟨_, .intern "k" false⟩, ⟨_, .setFinalizer ⟨0, 0⟩ (.native ⟨0⟩)⟩,
    ⟨_, .intern finalizerKeyText true⟩, ⟨_, .putAccessor ⟨0, 0⟩ ⟨4, 0⟩ (.ref ⟨1, 0⟩) .undefined⟩,
    ⟨_, .release (.ref ⟨1, 0⟩)⟩]

/-- The finalizer is put in the place of the accessor, whose getter inherits it. So it runs when the getter
is given back, and stores a property of another object. -/
theorem armed_over_accessor : ∃ (w w' : World Unit) (X : Multiset Handle) (r key x k : Handle) (slot : Slot),
    Reachable (.nulling ⟨2, 0⟩ ⟨3, 0⟩) w ∧ w.heap.Exact X ∧ w.heap.Unfinalized ∧
    {r, key, x, k} ≤ X ∧ k ≠ key ∧
    ((Engine.top (.nulling ⟨2, 0⟩ ⟨3, 0⟩) 5).perform (slot.put r key)).run w =
      some (.ok (), w') ∧
    w'.heap.isLive x = true ∧ w'.heap.kind? k = some .string ∧
    w'.heap.getProp x k ≠ w.heap.getProp x k := by
  have hran : (rehearse (fun _ => (Engine.top (.nulling ⟨2, 0⟩ ⟨3, 0⟩) 5).perform) disarmed
      (⟨.empty {}, ()⟩ : World Unit) 0).any (fun x =>
        x.2 = {⟨0, 0⟩, ⟨2, 0⟩, ⟨3, 0⟩, ⟨4, 0⟩} ∧ x.1.heap.Exact x.2 ∧ x.1.heap.Unfinalized ∧
        (x.1.heap.getProp ⟨2, 0⟩ ⟨3, 0⟩).toOption = some none ∧
        (((Engine.top (.nulling ⟨2, 0⟩ ⟨3, 0⟩) 5).perform
          (Slot.put (.data (.native ⟨0⟩)) ⟨0, 0⟩ ⟨4, 0⟩)).run x.1).map (fun y =>
            (y.1, y.2.heap.isLive ⟨2, 0⟩, y.2.heap.kind? ⟨3, 0⟩,
              (y.2.heap.getProp ⟨2, 0⟩ ⟨3, 0⟩).toOption)) =
          some (.ok (), true, some .string, some (some (.data .null)))) = true := by
    decide +kernel
  obtain ⟨⟨w, X⟩, hw, hfacts⟩ := (Option.any_eq_true _ _).mp hran
  obtain ⟨rfl, hx, hu, hbefore, hput⟩ := of_decide_eq_true hfacts
  obtain ⟨⟨_, w'⟩, e, hsame⟩ := Option.map_eq_some_iff.mp hput
  simp only [Prod.mk.injEq] at hsame
  obtain ⟨rfl, hlive, hkind, hafter⟩ := hsame
  refine ⟨w, w', _, ⟨0, 0⟩, ⟨4, 0⟩, ⟨2, 0⟩, ⟨3, 0⟩, .data (.native ⟨0⟩),
    ((Run.start {} ()).rehearse_careful hw).reachable, hx, hu, ?_, by decide, e, hlive, hkind, ?_⟩
  · exact (by decide : ({⟨0, 0⟩, ⟨4, 0⟩, ⟨2, 0⟩, ⟨3, 0⟩} : Multiset Handle) ≤
      {⟨0, 0⟩, ⟨2, 0⟩, ⟨3, 0⟩, ⟨4, 0⟩})
  · rw [ok_of_mem_toOption hbefore, ok_of_mem_toOption hafter]
    decide

end CountedHeap
