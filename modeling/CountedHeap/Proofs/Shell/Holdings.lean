import CountedHeap.Proofs.Counting
import CountedHeap.Proofs.Roots
import CountedHeap.Shell.Session

/-!
# What the shell holds

The shell holds one count for each name that is bound to a cell, and one root for each name in its table. A name
is bound once, so that binding it and taking it away are each other's reverse.

* `Bindings.Distinct`, `Distinct.perm_erase`: no name is bound twice.
* `State.held`, `State.slots`: the references and the roots that are accounted for.
* `Rooted`: the roots that there are, when one is made or removed.
-/

namespace CountedHeap

theorem Builtins.mem_refs {b : Builtins} {id : BuiltinId} {r : Handle} (hr : b.get id = some r) :
    r ∈ b.refs := by
  unfold Builtins.refs
  cases id <;> simp_all [Builtins.get]

namespace Shell

variable {α β : Type} {fuel : ℕ} {w w' : World Screen} {name : String}

/-! ## Bindings -/

namespace Bindings

variable {b : Bindings α} {a : α}

/-- The names that are bound. -/
def keys (b : Bindings α) : List String :=
  b.map Prod.fst

/-- No name is bound twice. -/
def Distinct (b : Bindings α) : Prop :=
  b.keys.Nodup

theorem erase_cons_self : erase ((name, a) :: b) name = erase b name :=
  List.filter_cons_of_neg (by simp)

theorem erase_cons_of_ne {other : String} (hne : other ≠ name) :
    erase ((other, a) :: b) name = (other, a) :: erase b name :=
  List.filter_cons_of_pos (by simpa using hne)

theorem find?_eq_none_iff : b.find? name = none ↔ name ∉ b.keys := by
  unfold find? keys
  rw [List.lookup_eq_none_iff, List.mem_map]
  constructor
  · rintro h ⟨p, hp, rfl⟩
    simpa using h p hp
  · exact fun h p hp => bne_iff_ne.mpr fun he => h ⟨p, hp, he.symm⟩

theorem erase_eq_self (hname : name ∉ b.keys) : b.erase name = b :=
  List.filter_eq_self.mpr fun _ hp => decide_eq_true fun he => hname (he ▸ List.mem_map_of_mem hp)

theorem mem_keys_erase {other : String} (h : other ∈ (b.erase name).keys) :
    other ∈ b.keys ∧ other ≠ name := by
  obtain ⟨p, hp, rfl⟩ := List.mem_map.mp h
  obtain ⟨hmem, hne⟩ := List.mem_filter.mp hp
  exact ⟨List.mem_map_of_mem hmem, of_decide_eq_true hne⟩

theorem Distinct.erase (hb : b.Distinct) : (b.erase name).Distinct :=
  List.Nodup.sublist (List.Sublist.map _ List.filter_sublist) hb

theorem Distinct.insert (hb : b.Distinct) : (b.insert name a).Distinct :=
  List.nodup_cons.mpr ⟨fun h => (mem_keys_erase h).2 rfl, hb.erase⟩

/-- A name that is bound is bound once. -/
theorem Distinct.perm_erase (hb : b.Distinct) (hfind : b.find? name = some a) :
    b.Perm ((name, a) :: b.erase name) := by
  unfold find? at hfind
  induction b with
  | nil => cases hfind
  | cons p b ih =>
    obtain ⟨other, c⟩ := p
    obtain ⟨hnot, hdistinct⟩ := List.nodup_cons.mp hb
    by_cases hname : name = other
    · subst hname
      rw [List.lookup_cons_self] at hfind
      cases hfind
      rw [erase_cons_self, erase_eq_self hnot]
    · rw [List.lookup_cons, beq_false_of_ne hname] at hfind
      rw [erase_cons_of_ne (Ne.symm hname)]
      exact ((ih hdistinct hfind).cons _).trans (.swap _ _ _)

end Bindings

/-! ## What the shell has of a heap -/

/-- The references that values hold which names are bound to. -/
def Bindings.refs (b : Bindings Value) : Multiset Handle :=
  (b.flatMap fun p => p.2.refs : List Handle)

/-- The numbers that names are bound to. -/
def Bindings.numbers (b : Bindings ℕ) : Multiset ℕ :=
  (b.map Prod.snd : List ℕ)

namespace Bindings

theorem refs_cons {b : Bindings Value} {v : Value} :
    refs ((name, v) :: b) = (v.refs : Multiset Handle) + refs b := by
  unfold refs
  rw [List.flatMap_cons, Multiset.coe_add]

theorem Distinct.refs_erase {b : Bindings Value} {v : Value} (hb : b.Distinct)
    (hfind : b.find? name = some v) : b.refs = v.refs + (b.erase name).refs := by
  have hcons : refs ((name, v) :: b.erase name) = v.refs + (b.erase name).refs := refs_cons
  rw [← hcons]
  exact Multiset.coe_eq_coe.mpr ((hb.perm_erase hfind).flatMap_right _)

theorem Distinct.numbers_erase {b : Bindings ℕ} {n : ℕ} (hb : b.Distinct)
    (hfind : b.find? name = some n) : b.numbers = n ::ₘ (b.erase name).numbers :=
  Multiset.coe_eq_coe.mpr ((hb.perm_erase hfind).map _)

theorem mem_refs {b : Bindings Value} {v : Value} {r : Handle} (hfind : b.find? name = some v)
    (hr : r ∈ v.refs) : r ∈ b.refs := by
  obtain ⟨l₁, l₂, hb, -⟩ := List.lookup_eq_some_iff.mp hfind
  refine Multiset.mem_coe.mpr (List.mem_flatMap.mpr ⟨(name, v), ?_, hr⟩)
  rw [hb]
  simp

/-- A cell is held once for each name that is bound to it. -/
theorem count_refs {b : Bindings Value} {r : Handle} :
    b.refs.count r = b.countP fun p => p.2 = .ref r := by
  have hone : ∀ v : Value, (v.refs : Multiset Handle).count r = if v = .ref r then 1 else 0 := by
    intro v
    cases v <;> simp [Value.refs, Value.handle?, Multiset.count_singleton, eq_comm]
  induction b with
  | nil => rfl
  | cons p b ih => rw [refs_cons, Multiset.count_add, ih, hone, List.countP_cons, add_comm]; simp

end Bindings

/-- The references that the shell holds: one for each name that is bound to a cell. -/
def State.held (s : State) : Multiset Handle :=
  s.names.refs

/-- The roots that the shell knows: that of the main thread, and one for each name in its table. -/
def State.slots (s : State) : Multiset ℕ :=
  s.context.mainRoot ::ₘ s.roots.numbers

/-- The native functions of the shell leave the heap alone. -/
theorem silent_host : Host.Silent host :=
  fun _ _ => trivial

/-! ## Roots -/

variable {c : Context} {slots : Multiset ℕ} {X : Multiset Handle} {v : Value} {n : ℕ} {op : Operation β}

/-- Roots that are all known, one of which holds the main thread. -/
structure Rooted (c : Context) (slots : Multiset ℕ) (roots : ℕ → Option Value) : Prop where
  distinct : slots.Nodup
  used : ∀ n, (roots n).isSome ↔ n ∈ slots
  mainRoot : c.mainRoot ∈ slots
  main : roots c.mainRoot = some (.ref c.main)

namespace Rooted

variable {roots roots' : ℕ → Option Value}

theorem add (h : Rooted c slots roots) (hfree : roots n = none)
    (hroots : ∀ m, roots' m = if m = n then some v else roots m) : Rooted c (n ::ₘ slots) roots' := by
  have hnew : n ∉ slots := fun hn => by
    have hused := (h.used n).mpr hn
    rw [hfree] at hused
    cases hused
  have hne : c.mainRoot ≠ n := fun he => hnew (he ▸ h.mainRoot)
  refine ⟨Multiset.nodup_cons.mpr ⟨hnew, h.distinct⟩, fun m => ?_,
    Multiset.mem_cons_of_mem h.mainRoot, ?_⟩
  · rw [hroots, Multiset.mem_cons]
    split
    · simp [*]
    · simp [*, h.used]
  · rw [hroots, if_neg hne]
    exact h.main

/-- The first root that there is holds the main thread. -/
theorem first {m : Handle} (h : ∀ m, roots m = none)
    (hroots : ∀ k, roots' k = if k = n then some (.ref m) else roots k) : Rooted ⟨m, n⟩ {n} roots' := by
  refine ⟨Multiset.nodup_singleton n, fun k => ?_, Multiset.mem_singleton_self n, ?_⟩
  · rw [hroots, h, Multiset.mem_singleton]
    split <;> simp [*]
  · rw [hroots, if_pos rfl]

/-- Any root but that of the main thread may be removed. -/
theorem remove (h : Rooted c (n ::ₘ slots) roots) (hmain : c.mainRoot ∈ slots)
    (hroots : ∀ m, roots' m = if m = n then none else roots m) : Rooted c slots roots' := by
  obtain ⟨hnot, hdistinct⟩ := Multiset.nodup_cons.mp h.distinct
  have hne : c.mainRoot ≠ n := fun he => hnot (he ▸ hmain)
  refine ⟨hdistinct, fun m => ?_, hmain, ?_⟩
  · rw [hroots]
    split
    · simp [*]
    · simp [*, h.used]
  · rw [hroots, if_neg hne]
    exact h.main

end Rooted

/-- What is held may be made a root. -/
theorem holdRoot_meets (h : Stake host (Rooted c slots) X w) (hv : ∀ r ∈ v.refs, r ∈ X) :
    Meets ((Engine.top host fuel).perform (.addRoot v)) w (fun _ => Stake host (Rooted c slots) X)
      fun n => Stake host (Rooted c (n ::ₘ slots)) X := by
  have hgoes := h.goes fuel (.addRoot v) rfl (.of_held hv)
  refine Meets.mono (hgoes.and (addRoot_roots h.run.reachable.sound.1)) ?_ ?_
  · rintro _ w' ⟨-, rfl⟩
    exact h
  · rintro n w' ⟨hrun, hfree, hroots⟩
    exact ⟨add_zero X ▸ hrun, h.roots.add hfree hroots⟩

/-- Any root but that of the main thread may be removed. -/
theorem dropRoot_meets (h : Stake host (Rooted c (n ::ₘ slots)) X w) (hmain : c.mainRoot ∈ slots) :
    Meets ((Engine.top host fuel).perform (.removeRoot n)) w (fun _ _ => False)
      fun _ => Stake host (Rooted c slots) X := by
  have hgoes := h.goes fuel (.removeRoot n) rfl (.of_held fun _ hr => by cases hr)
  refine Meets.mono (hgoes.and (removeRoot_roots silent_host)) (fun _ _ hw => hw.2) ?_
  rintro _ w' ⟨hrun, hroots⟩
  exact ⟨add_zero X ▸ hrun, h.roots.remove hmain hroots⟩

end Shell

end CountedHeap
