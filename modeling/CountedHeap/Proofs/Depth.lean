import CountedHeap.Proofs.Ancestry
import CountedHeap.Proofs.Heap.Objects
import CountedHeap.Proofs.Memory

/-!
# How deep a prototype may lie

A look-up visits as many objects as a prototype may have on its chain. The look-up begins with the object
whose prototype this is, so where the prototype has as many as it may, the last object of its chain is never
visited.

* `Heap.Lacks`, `findWithin_tooDeep_iff`: look-ups that end before the chain does.
* `checkChain_eq_ok`: what is known of the chain of a prototype that has been accepted.
* `Heap.Deepens`: where a look-up fails for the depth of a chain.
* `linked_deepens`: once a prototype has been set.
-/

namespace CountedHeap

open Heap (Kept OutsidePass)

variable {σ : Type} {h h' : Heap} {r q key : Handle} {proto old next : Option Handle} {n m : ℕ}
  {o : Object} {l : List Handle}

namespace Heap

/-- An object or a thread that has no such property of its own. -/
def Lacks (h : Heap) (r key : Handle) : Prop :=
  ∃ o, h.object r = .ok o ∧ o.props.get? key = none

/-! ## Chains -/

/-- A chain that ends is the same where its objects are. -/
theorem follow_congr (hend : (h.follow n next).2 = none)
    (hobj : ∀ q ∈ (h.follow n next).1, h'.object q = h.object q) : h'.follow n next = h.follow n next := by
  induction n generalizing next with
  | zero => rfl
  | succ n ih =>
    cases next with
    | none => rfl
    | some r =>
      cases ho : h.object r with
      | error e => simp [follow_error ho] at hend
      | ok o =>
        rw [follow_some ho] at hend hobj
        have hr : h'.object r = .ok o := (hobj r List.mem_cons_self).trans ho
        rw [follow_some ho, follow_some hr, ih hend fun q hq => hobj q (List.mem_cons_of_mem _ hq)]

/-- A prototype is accepted if its chain ends in time and does not pass the object that is to get it. -/
theorem checkChain_eq_ok : h.checkChain r n next = .ok () ↔
    (h.follow n next).2 = none ∧ r ∉ (h.follow n next).1 := by
  induction n generalizing next with
  | zero =>
    cases next with
    | none => simp [checkChain, follow]
    | some p => by_cases hp : p = r <;> simp [checkChain, follow, hp]
  | succ n ih =>
    cases next with
    | none => simp [checkChain, follow]
    | some p =>
      cases ho : h.object p with
      | error e =>
        rw [follow_error ho]
        by_cases hp : p = r <;> simp [checkChain, hp, ho]
      | ok o =>
        rw [follow_some ho, List.mem_cons, not_or, and_left_comm, ← ih]
        by_cases hp : p = r
        · simp [checkChain, hp]
        · simp [checkChain, hp, ho, Ne.symm hp]

/-- A look-up fails for the depth of a chain if it has visited as many objects as it may, none of which has
the property, and the chain goes on. The objects may have been found in an earlier heap. -/
theorem findWithin_tooDeep_iff (hend : (h.follow n (some r)).2 = none)
    (hobj : ∀ q ∈ (h.follow n (some r)).1, ∀ o, h'.object q = .ok o → h.object q = .ok o) :
    h'.findWithin key m r = .error .prototypeChainTooDeep ↔
      m < (h.follow n (some r)).1.length ∧ ∀ q ∈ (h.follow n (some r)).1.take m, h'.Lacks q key := by
  induction m generalizing n r with
  | zero =>
    refine iff_of_true rfl ⟨?_, by simp⟩
    cases n with
    | zero => cases hend
    | succ n =>
      cases ho : h.object r with
      | error e => simp [follow_error ho] at hend
      | ok o => simp [follow_some ho]
  | succ m ih =>
    cases n with
    | zero => cases hend
    | succ n =>
      cases hr : h.object r with
      | error e => simp [follow_error hr] at hend
      | ok o =>
        rw [follow_some hr] at hend hobj ⊢
        simp only [List.take_succ_cons, List.forall_mem_cons, List.length_cons,
          Nat.add_lt_add_iff_right]
        cases hr' : h'.object r with
        | error e =>
          have hfreed : ¬ h'.Lacks r key := by simp [Lacks, hr']
          have hother : e ≠ .prototypeChainTooDeep := by
            rintro rfl
            unfold object at hr'
            split at hr'
            · cases hr'
            · split at hr' <;> cases hr'
          simp [findWithin, hr', hfreed, hother]
        | ok o' =>
          obtain rfl : o' = o := Except.ok.inj ((hobj r List.mem_cons_self o' hr').symm.trans hr)
          cases hkey : o'.props.get? key with
          | some slot =>
            have hfound : ¬ h'.Lacks r key := by simp [Lacks, hr', hkey]
            simp [findWithin, hr', hkey, hfound]
          | none =>
            have hlacks : h'.Lacks r key := ⟨o', hr', hkey⟩
            cases hproto : o'.proto with
            | none => simp [findWithin, hr', hkey, hproto, follow_none]
            | some p =>
              rw [hproto] at hend hobj
              have hrest := ih hend fun q hq => hobj q (List.mem_cons_of_mem _ hq)
              simp only [findWithin, hr', hkey, hproto, hrest, hlacks, true_and]

theorem length_follow_le : (h.follow n next).1.length ≤ n := by
  induction n generalizing next with
  | zero => exact Nat.le_refl 0
  | succ n ih =>
    cases next with
    | none => exact Nat.zero_le _
    | some r =>
      cases ho : h.object r with
      | error e => simp [follow_error ho]
      | ok o =>
        rw [follow_some ho]
        exact Nat.succ_le_succ ih

/-! ## Look-ups -/

/-- The chain of the prototype of an object has as many objects as may be visited, and a property is not
found before the last of them. -/
def OutOfSight (h : Heap) (r : Handle) (chain : List Handle) (key : Handle) : Prop :=
  chain.length = maxPrototypeChain ∧ ∀ q ∈ (r :: chain).take maxPrototypeChain, h.Lacks q key

/-- Look-ups on an object whose prototype has a chain fail for its depth where properties are out of sight,
and only there. -/
def Deepens (h : Heap) (r : Handle) (chain : List Handle) : Prop :=
  ∀ key, (h.getProp r key = .error .prototypeChainTooDeep ↔ h.OutOfSight r chain key) ∧
    (h.getValue r key = .error .prototypeChainTooDeep ↔ h.OutOfSight r chain key) ∧
    (h.hasProp r key = .error .prototypeChainTooDeep ↔ h.OutOfSight r chain key)

theorem map_eq_error {α β : Type} {x : Except HeapError α} {f : α → β} {e : HeapError} :
    x.map f = .error e ↔ x = .error e := by
  cases x <;> simp [Except.map]

/-- This is so in every heap that has on the chain only what there was when it was followed. -/
theorem deepens_of_objects {chain : List Handle} (hchain : h.follow (n + 1) (some r) = (r :: chain, none))
    (hlength : chain.length ≤ maxPrototypeChain)
    (hobj : ∀ q ∈ r :: chain, ∀ o, h'.object q = .ok o → h.object q = .ok o) : h'.Deepens r chain := by
  intro key
  have hdeep : h'.findInChain r key = .error .prototypeChainTooDeep ↔ h'.OutOfSight r chain key := by
    unfold findInChain OutOfSight
    have hlists : (h.follow (n + 1) (some r)).1 = r :: chain := by rw [hchain]
    rw [findWithin_tooDeep_iff (by rw [hchain]) (by rwa [hlists]), hlists, List.length_cons,
      Nat.lt_succ_iff]
    exact and_congr_left fun _ => ⟨fun hle => Nat.le_antisymm hlength hle, fun he => he.ge⟩
  exact ⟨map_eq_error.trans hdeep, map_eq_error.trans (map_eq_error.trans hdeep),
    map_eq_error.trans hdeep⟩

theorem unfinalized_linkPrototype (hu : h.Unfinalized) (ho : h.object r = .ok o) :
    (h.linkPrototype r proto).Unfinalized := by
  refine hu.update ?_ (object_linkPrototype ho proto) fun fk v hfk hslot =>
    unfinalized_iff.mp hu fk r o v hfk ho hslot
  change (h.retainAll proto.toList).finalizerKey = _
  rw [retainAll_eq]

/-- Once a link has been accepted and set, the chain of the object is that of its prototype and the object
itself. -/
theorem follow_linkPrototype {p : Handle} (hc : h.checkPrototype r (some p) = .ok old) :
    ∃ chain, h.follow maxPrototypeChain (some p) = (chain, none) ∧ r ∉ chain ∧
      (h.linkPrototype r (some p)).follow (maxPrototypeChain + 1) (some r) = (r :: chain, none) := by
  unfold checkPrototype at hc
  simp only [bind_eq_ok] at hc
  obtain ⟨o, ho, _, -, _, hchain, -⟩ := hc
  obtain ⟨hend, hcycle⟩ := checkChain_eq_ok.mp hchain
  have hobject := object_linkPrototype ho (some p)
  have hr : (h.linkPrototype r (some p)).object r = .ok { o with proto := some p } := by
    rw [hobject, Function.update_self]
  have hrest : (h.linkPrototype r (some p)).follow maxPrototypeChain (some p) =
      h.follow maxPrototypeChain (some p) :=
    follow_congr hend fun q hq => by
      rw [hobject, Function.update_of_ne (ne_of_mem_of_not_mem hq hcycle)]
  exact ⟨_, Prod.ext rfl hend, hcycle, by rw [follow_some hr, hrest, hend]⟩

end Heap

/-! ## Prototypes that have been set -/

variable {host : Host σ} {w w' : World σ} {fuel : ℕ}

/-- Where no finalizer is found, an operation that sets a prototype links it and only frees cells then. -/
theorem meets_setPrototype (hw : Reachable host w) :
    Meets ((Engine.top host fuel).setPrototype r proto) w (fun _ _ => True) fun _ w' =>
      (∃ old, w.heap.checkPrototype r proto = .ok old) ∧ (w.heap.Unfinalized → ∀ q o,
        w'.heap.object q = .ok o → (w.heap.linkPrototype r proto).object q = .ok o) := by
  simp only [Engine.setPrototype, meets_bind, meets_check, meets_surely, after_modifyHeap]
  refine ⟨fun _ _ => trivial, fun old hc => ?_⟩
  by_cases hu : w.heap.Unfinalized
  · obtain ⟨hs, hlevel⟩ := hw.sound
    obtain ⟨o, ho, hlive, rfl⟩ := Heap.checkPrototype_eq_ok hc
    have hk : Kept False (OutsidePass []) w.heap 0 := ⟨hs, hlevel, False.elim⟩
    have hlinked := hk.linkPrototype (Heap.steady_outsidePass []) ho hlive
    exact (top_releaseAll_fades (w := ⟨w.heap.linkPrototype r proto, w.host⟩)
      (.inr (Heap.unfinalized_linkPrototype hu ho)) hlinked).mono fun _ _ hw' =>
        ⟨⟨_, hc⟩, fun _ _ _ hq => hw'.2.toShrinks.object hq⟩
  · exact fun _ _ _ => ⟨⟨old, hc⟩, fun hu' => absurd hu' hu⟩

/-- An object gets a prototype. The chain of the prototype has been followed to its end, and as soon as the
link is there look-ups on the object fail for the depth of the chain only where a property is out of
sight: where the chain is as long as it may be, so that its last object is not visited. The same is true once
the prototype that the object had before has been given back, unless finalizers that this runs have changed
an object of the chain. -/
theorem linked_deepens (host : Host σ) (w w' : World σ) (fuel : ℕ) (r p : Handle)
    (hw : Reachable host w)
    (e : ((Engine.top host fuel).perform (.setPrototype r (some p))).run w = some (.ok (), w')) :
    ∃ chain, w.heap.follow maxPrototypeChain (some p) = (chain, none) ∧ r ∉ chain ∧
      (w.heap.linkPrototype r (some p)).Deepens r chain ∧
      (w.heap.Unfinalized ∨ (∀ q ∈ r :: chain, ∀ o, w'.heap.object q = .ok o →
        (w.heap.linkPrototype r (some p)).object q = .ok o) → w'.heap.Deepens r chain) := by
  obtain ⟨⟨old, hc⟩, hfreed⟩ := meets_setPrototype hw _ w' e
  obtain ⟨chain, hfollow, hcycle, hlinked⟩ := Heap.follow_linkPrototype hc
  have hlength : chain.length ≤ maxPrototypeChain := by
    have hle : (w.heap.follow maxPrototypeChain (some p)).1.length ≤ maxPrototypeChain :=
      Heap.length_follow_le
    rwa [hfollow] at hle
  refine ⟨chain, hfollow, hcycle, Heap.deepens_of_objects hlinked hlength fun _ _ _ => id, ?_⟩
  rintro (hu | hobj)
  · exact Heap.deepens_of_objects hlinked hlength fun q _ o hq => hfreed hu q o hq
  · exact Heap.deepens_of_objects hlinked hlength hobj

/-- An object and its prototype, which only the object counts, and another object and a string. -/
def descended : List Command :=
  [⟨_, .allocObject none⟩, ⟨_, .allocObject (some ⟨0, 0⟩)⟩, ⟨_, .allocObject none⟩,
    ⟨_, .intern "k" false⟩, ⟨_, .release (.ref ⟨0, 0⟩)⟩]

/-- The object gets the other one as its prototype, and the old prototype is freed. The property that
neither of them has can be looked up. -/
theorem linked_deepens_descended : ∃ w w' : World Unit, Reachable .idle w ∧
    ((Engine.top .idle 5).perform (.setPrototype ⟨1, 0⟩ (some ⟨2, 0⟩))).run w = some (.ok (), w') ∧
    w.heap.Unfinalized ∧ w.heap.isLive ⟨0, 0⟩ = true ∧ w'.heap.isLive ⟨0, 0⟩ = false ∧
    w'.heap.Deepens ⟨1, 0⟩ [⟨2, 0⟩] ∧
    w'.heap.getProp ⟨1, 0⟩ ⟨3, 0⟩ ≠ .error .prototypeChainTooDeep := by
  have hran : (rehearse (fun _ => (Engine.top .idle 5).perform) descended
      (⟨.empty {}, ()⟩ : World Unit) 0).any (fun x =>
        x.1.heap.finalizerKey = none ∧ x.1.heap.isLive ⟨0, 0⟩ = true ∧
        x.1.heap.follow maxPrototypeChain (some ⟨2, 0⟩) = ([⟨2, 0⟩], none) ∧
        (((Engine.top .idle 5).perform (.setPrototype ⟨1, 0⟩ (some ⟨2, 0⟩))).run x.1).map
          (fun y => (y.1, y.2.heap.isLive ⟨0, 0⟩)) = some (.ok (), false)) = true := by
    decide +kernel
  obtain ⟨⟨w, X⟩, hw, hfacts⟩ := (Option.any_eq_true _ _).mp hran
  obtain ⟨hkey, hlive, hfollow, hdone⟩ := of_decide_eq_true hfacts
  obtain ⟨⟨_, w'⟩, e, hsame⟩ := Option.map_eq_some_iff.mp hdone
  obtain ⟨rfl, hfreed⟩ := Prod.mk.inj hsame
  have hr : Reachable .idle w := ((Run.start {} ()).rehearse_careful hw).reachable
  have hu : w.heap.Unfinalized := Heap.unfinalized_of_key hkey
  obtain ⟨chain, hfollow', -, -, hafter⟩ := linked_deepens .idle w w' 5 _ _ hr e
  obtain rfl : [⟨2, 0⟩] = chain := (Prod.mk.inj (hfollow.symm.trans hfollow')).1
  have hdeepens := hafter (.inl hu)
  refine ⟨w, w', hr, e, hu, hlive, hfreed, hdeepens, fun hdeep => ?_⟩
  exact absurd ((hdeepens _).1.mp hdeep).1 (by decide)

/-! ## A chain of the full length -/

namespace Heap

variable {b c : Body}

/-- What a handle names stays when a cell is made. -/
theorem Gains.names (hg : h.Gains b r h') (hq : h.arena.books.Names q c) :
    h'.arena.books.Names q c := by
  obtain ⟨t, ht, hrest⟩ := hq
  exact ⟨t, (hg.slot (Arena.isLive_iff_names.mpr ⟨c, t, ht, hrest⟩)).trans ht, hrest⟩

theorem Gains.object (hg : h.Gains b r h') (hq : h.object q = .ok o) : h'.object q = .ok o := by
  obtain ⟨c, hc, ho⟩ := object_iff_names.mp hq
  exact object_iff_names.mpr ⟨c, hg.names hc, ho⟩

end Heap

/-- A client holds a string, an object, and the first of some objects without properties that have each
other as prototypes. Each object takes 192 bytes. -/
structure Strung (n : ℕ) (w : World Unit) (X : Multiset Handle) (r : Handle) : Prop where
  run : Run .idle Discipline.careful w X
  held : {⟨0, 0⟩, ⟨1, 0⟩, r} ≤ X
  text : ∃ t, w.heap.arena.books.Names ⟨0, 0⟩ (.string t)
  object : w.heap.object ⟨1, 0⟩ = .ok { kind := .plain }
  chain : ∃ l, w.heap.follow n (some r) = (l, none) ∧ l.length = n ∧ ⟨1, 0⟩ ∉ l ∧
    ∀ q ∈ l, w.heap.Lacks q ⟨0, 0⟩
  used : w.heap.arena.books.used ≤ 1000 + 192 * n
  limit : w.heap.arena.books.limit = 64 * 1024 * 1024

theorem strung_one : ∃ w X, Strung 1 w X ⟨2, 0⟩ := by
  have hran : (rehearse (fun _ => (Engine.top .idle 3).perform) [⟨_, .intern "k" false⟩,
      ⟨_, .allocObject none⟩, ⟨_, .allocObject none⟩] (⟨.empty {}, ()⟩ : World Unit) 0).any (fun x =>
        x.2 = {⟨0, 0⟩, ⟨1, 0⟩, ⟨2, 0⟩} ∧ (x.1.heap.text ⟨0, 0⟩).toOption = some ⟨"k", false⟩ ∧
        (x.1.heap.object ⟨1, 0⟩).toOption = some { kind := .plain } ∧
        (x.1.heap.object ⟨2, 0⟩).toOption = some { kind := .plain } ∧
        x.1.heap.arena.usedBytes ≤ 1192 ∧ x.1.heap.arena.maxBytes = 64 * 1024 * 1024) = true := by
    decide +kernel
  obtain ⟨⟨w, X⟩, e, hw⟩ := (Option.any_eq_true _ _).mp hran
  obtain ⟨rfl, htext, hobject, hfirst, hused, hlimit⟩ := of_decide_eq_true hw
  have hfirst := ok_of_mem_toOption hfirst
  refine ⟨w, _, (Run.start {} ()).rehearse_careful e, le_rfl, ?_, ok_of_mem_toOption hobject,
    ⟨[⟨2, 0⟩], ?_, rfl, by decide, ?_⟩, hused, hlimit⟩
  · obtain ⟨n, hn⟩ := Arena.texts_eq_some.mp (Heap.text_eq_ok.mp (ok_of_mem_toOption htext))
    exact ⟨_, hn.names⟩
  · rw [Heap.follow_some hfirst]
    rfl
  · rw [List.forall_mem_singleton]
    exact ⟨_, hfirst, by decide⟩

/-- Where there is room for another object, a careful client makes one whose prototype it holds. -/
theorem Run.allocObject {w : World Unit} {X : Multiset Handle} (hr : Run .idle Discipline.careful w X)
    (hX : r ∈ X) (ho : w.heap.object r = .ok o) (hroom : w.heap.arena.hasRoom 192 = true) :
    ∃ (w' : World Unit) (r' : Handle), Run .idle Discipline.careful w' (X + {r'}) ∧
      w.heap.Gains (.object { kind := .plain, proto := some r }) r' w'.heap := by
  have hmade : (Operation.allocObject (some r)).makes? w.heap =
      some (.object { kind := .plain, proto := some r }) :=
    Heap.created?_eq_some.mpr ⟨by simp [Heap.checkProto, ho, Except.map], rfl⟩
  have hsize : (Body.object { kind := .plain, proto := some r }).size = 192 := rfl
  have hcleared : (Engine.top .idle 0).Cleared 192 w w := by
    unfold Engine.Cleared
    rw [if_pos hroom]
  have hlive : ∀ q ∈ (Body.object { kind := .plain, proto := some r }).refs,
      w.heap.isLive q = true := by
    intro q hq
    obtain rfl : q = r := by simpa [Body.refs, Object.refs_create, Callable.refs] using hq
    exact Heap.live_of_object ho
  obtain ⟨answer, w', hrun, hdone⟩ := Engine.perform_of_cleared (E := Engine.top .idle 0) hmade hcleared
    hr.reachable.sound.1 hr.reachable.interned hlive fun _ => id
  cases answer with
  | error e => simp [hsize, hroom] at hdone
  | ok r' =>
    obtain ⟨-, _, hreturned, hgains⟩ := hdone
    cases hreturned
    have hheld : ∀ q ∈ (Operation.allocObject (some r)).mentioned, q ∈ X := by
      intro q hq
      obtain rfl := List.mem_singleton.mp hq
      exact hX
    have hstep : Run .idle Discipline.careful w' (X - 0 + {r'}) :=
      hr.step ⟨Multiset.zero_le _, 0, hrun⟩ (Operation.Careful.of_held hheld)
    rw [tsub_zero] at hstep
    exact ⟨w', r', hstep, hgains⟩

/-- Another object is made, with the first one as its prototype. -/
theorem Strung.succ {w : World Unit} {X : Multiset Handle} (hs : Strung n w X r)
    (hn : 0 < n ∧ n < maxPrototypeChain) : ∃ w' X' r', Strung (n + 1) w' X' r' := by
  obtain ⟨l, hfollow, hlength, hout, hlacks⟩ := hs.chain
  obtain ⟨t, ht⟩ := hs.text
  obtain ⟨first, hfirst⟩ : ∃ o, w.heap.object r = .ok o := by
    cases ho : w.heap.object r with
    | error e => simp [Heap.follow_error ho] at hfollow
    | ok o => exact ⟨o, rfl⟩
  have hroom : w.heap.arena.hasRoom 192 = true := by
    have hused : w.heap.arena.usedBytes ≤ 1000 + 192 * n := hs.used
    have hlimit : w.heap.arena.maxBytes = 64 * 1024 * 1024 := hs.limit
    have hmax : n < 10000 := hn.2
    refine decide_eq_true ?_
    omega
  obtain ⟨w', r', hrun, hgains⟩ := hs.run.allocObject (Multiset.mem_of_le hs.held (by simp)) hfirst hroom
  have hnew : w'.heap.object r' = .ok { kind := .plain, proto := some r } :=
    Heap.object_iff_names.mpr ⟨_, hgains.holds.names, rfl⟩
  have hobjects : ∀ q ∈ l, w'.heap.object q = w.heap.object q := by
    intro q hq
    obtain ⟨o, ho, -⟩ := hlacks q hq
    rw [ho, hgains.object ho]
  have hkept : w'.heap.follow n (some r) = (l, none) := by
    rw [← hfollow]
    refine Heap.follow_congr (by rw [hfollow]) fun q hq => hobjects q ?_
    rwa [hfollow] at hq
  refine ⟨w', _, r', hrun, ?_, ⟨t, hgains.names ht⟩, hgains.object hs.object,
    ⟨r' :: l, ?_, by simp [hlength], ?_, ?_⟩, ?_, ?_⟩
  · have hpair : {⟨0, 0⟩, ⟨1, 0⟩} ≤ X := le_trans (Multiset.le_add_right _ {r}) hs.held
    exact add_le_add_left hpair {r'}
  · rw [Heap.follow_some hnew, hkept]
  · refine fun hmem => (List.mem_cons.mp hmem).elim (fun hsame => ?_) hout
    obtain ⟨c, hc, -⟩ := Heap.object_eq_ok.mp hs.object
    exact (hsame ▸ hgains.vacant).not_holds (Arena.holds_of_get? hc)
  · refine List.forall_mem_cons.mpr ⟨⟨_, hnew, rfl⟩, fun q hq => ?_⟩
    obtain ⟨o, ho, hnone⟩ := hlacks q hq
    exact ⟨o, hgains.object ho, hnone⟩
  · rw [hgains.books]
    have hused := hs.used
    change w.heap.arena.books.used + 192 ≤ _
    omega
  · rw [hgains.books]
    exact hs.limit

theorem exists_strung (hpos : 1 ≤ n) (hn : n ≤ maxPrototypeChain) : ∃ w X r, Strung n w X r := by
  induction n, hpos using Nat.le_induction with
  | base =>
    obtain ⟨w, X, hs⟩ := strung_one
    exact ⟨w, X, _, hs⟩
  | succ n hpos ih =>
    obtain ⟨w, X, r, hs⟩ := ih (Nat.le_of_succ_le hn)
    exact hs.succ ⟨hpos, hn⟩

/-- A client that holds all that it passes gives an object a prototype with the longest chain that is
accepted, and then cannot look up a property of the object, although no cell has a stale reference. -/
theorem accepted_not_looked_up : ∃ (w w' : World Unit) (X : Multiset Handle) (r p key : Handle) (t : Text),
    Run .idle Discipline.careful w X ∧ {key, r, p} ≤ X ∧ (∀ q, w.heap.Whole q) ∧
      w.heap.text key = .ok t ∧
      ((Engine.top .idle 0).perform (.setPrototype r (some p))).run w = some (.ok (), w') ∧
      w'.heap.getProp r key = .error .prototypeChainTooDeep ∧
      w'.heap.getValue r key = .error .prototypeChainTooDeep ∧
      w'.heap.hasProp r key = .error .prototypeChainTooDeep := by
  obtain ⟨w, X, p, hs⟩ := exists_strung (n := maxPrototypeChain) (by decide) le_rfl
  obtain ⟨l, hfollow, hlength, hout, hlacks⟩ := hs.chain
  obtain ⟨t, ht⟩ := hs.text
  have hchain : w.heap.checkChain ⟨1, 0⟩ maxPrototypeChain (some p) = .ok () :=
    Heap.checkChain_eq_ok.mpr (by rw [hfollow]; exact ⟨rfl, hout⟩)
  have hproto : w.heap.checkProto (some p) = .ok () := by
    cases ho : w.heap.object p with
    | error e => simp [Heap.follow_error ho] at hfollow
    | ok o => simp [Heap.checkProto, ho, Except.map]
  have hcheck : w.heap.checkPrototype ⟨1, 0⟩ (some p) = .ok none := by
    unfold Heap.checkPrototype
    simp only [hs.object, hproto, hchain, bind, Except.bind, pure, Except.pure]
  have hrun : ((Engine.top .idle 0).perform (.setPrototype ⟨1, 0⟩ (some p))).run w =
      some (.ok (), ⟨w.heap.linkPrototype ⟨1, 0⟩ (some p), w.host⟩) := by
    change ((Engine.top .idle 0).setPrototype ⟨1, 0⟩ (some p)).run w = _
    unfold Engine.setPrototype
    rw [run_check_bind_ok hcheck]
    rfl
  obtain ⟨chain, hfollow', -, hlinked⟩ := Heap.follow_linkPrototype hcheck
  obtain rfl : l = chain := (Prod.mk.inj (hfollow.symm.trans hfollow')).1
  have hlost : (w.heap.linkPrototype ⟨1, 0⟩ (some p)).OutOfSight ⟨1, 0⟩ l ⟨0, 0⟩ := by
    have hobject := Heap.object_linkPrototype hs.object (some p)
    refine ⟨hlength, fun q hq => ?_⟩
    rcases List.mem_cons.mp (List.mem_of_mem_take hq) with rfl | hq
    · exact ⟨_, by rw [hobject, Function.update_self], rfl⟩
    · unfold Heap.Lacks
      rw [hobject, Function.update_of_ne (ne_of_mem_of_not_mem hq hout)]
      exact hlacks q hq
  obtain ⟨hget, hvalue, hhas⟩ :=
    Heap.deepens_of_objects hlinked hlength.le (fun _ _ _ => id) ⟨0, 0⟩
  refine ⟨w, _, X, ⟨1, 0⟩, p, ⟨0, 0⟩, t, hs.run, hs.held, fun q => ?_, ?_, hrun, hget.mpr hlost,
    hvalue.mpr hlost, hhas.mpr hlost⟩
  · exact (hs.run.kept Host.silent_idle).exact.whole q
  · obtain ⟨n, hn⟩ := Arena.books_names.mp ht
    exact Heap.text_eq_ok.mpr (Arena.texts_eq_some.mpr ⟨n, hn⟩)

end CountedHeap
