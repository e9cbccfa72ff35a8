import CountedHeap.Proofs.Arena.Given

/-!
# Prototypes in the books

A prototype may have been freed, and another cell may stand where it stood. The link still leads nowhere
else as long as generations do not come round: a handle that has been issued never names another cell.

* `Books.Issued`: handles that have been given out for objects and threads.
* `Books.Inherits`: the links from cells that are there.
* `Books.Lineal`: all links lead to what has been issued, and none leads back.
* `Lineal.later`, `Lineal.enter`, `Lineal.relink`: what becomes of this.
-/

namespace CountedHeap

/-- The prototype of a cell, and the built-ins from which the prototypes of others are taken. -/
def Body.forebears (b : Body) : List Handle :=
  b.proto?.toList ++ b.builtins.refs

namespace Books

variable {B B' : Books} {r p q : Handle} {b b' : Body} {i : ℕ}

/-- A handle has been given out for an object or a thread. -/
abbrev Issued (B : Books) (r : Handle) : Prop :=
  B.Given (fun k => k.isComposite = true) r

/-- A cell that is there has a prototype. -/
def Inherits (B : Books) (r p : Handle) : Prop :=
  ∃ b, B.Names r b ∧ b.proto? = some p

/-- Prototypes are among the handles that have been given out, and no chain of them gets back to where it
started. -/
structure Lineal (B : Books) : Prop where
  issued : ∀ r b, B.Names r b → ∀ p ∈ b.forebears, B.Issued p
  acyclic : ∀ r, ¬ Relation.TransGen B.Inherits r r

theorem Names.issued (hr : B.Names r b) (hu : B.Unwrapped) (hb : b.isComposite = true) :
    B.Issued r :=
  hr.given hu hb

theorem Issued.later (hr : B.Issued r) (hl : B.Later B') : B'.Issued r :=
  hr.ages hl.ages

/-- What has been given out for an object or a thread names nothing else. -/
theorem Issued.composite (hr : B.Issued r) (hu : B.Unwrapped) (hb : B.Names r b) :
    b.isComposite = true :=
  hr.kind hu hb

/-! ## Chains -/

/-- If a link from a cell is replaced by one that does not lead back to the cell, no chain leads back. -/
theorem acyclic_of_link {R R' : Handle → Handle → Prop} (h : ∀ q, ¬ Relation.TransGen R q q)
    (hlink : ∀ q p, R' q p → R q p ∨ q = r ∧ ¬ Relation.ReflTransGen R p r) :
    ∀ q, ¬ Relation.TransGen R' q q := by
  -- Up to its first visit of the cell a chain has no new link.
  have hback : ∀ p, Relation.ReflTransGen R' p r → Relation.ReflTransGen R p r := by
    intro p hp
    induction hp using Relation.ReflTransGen.head_induction_on with
    | refl => exact .refl
    | head hstep _ ih =>
      rcases hlink _ _ hstep with hold | ⟨rfl, -⟩
      · exact ih.head hold
      · exact .refl
  have hsplit : ∀ q p, Relation.TransGen R' q p → Relation.TransGen R q p ∨
      ∃ s, Relation.ReflTransGen R' q r ∧ ¬ Relation.ReflTransGen R s r ∧
        Relation.ReflTransGen R' s p := by
    intro q p hp
    induction hp with
    | single hstep =>
      rcases hlink _ _ hstep with hold | ⟨rfl, hnot⟩
      · exact .inl (.single hold)
      · exact .inr ⟨_, .refl, hnot, .refl⟩
    | tail hchain hstep ih =>
      rcases ih with hold | ⟨s, hto, hnot, hfrom⟩
      · rcases hlink _ _ hstep with hlast | ⟨rfl, hnot⟩
        · exact .inl (hold.tail hlast)
        · exact .inr ⟨_, hchain.to_reflTransGen, hnot, .refl⟩
      · exact .inr ⟨s, hto, hnot, hfrom.tail hstep⟩
  intro q hq
  rcases hsplit q q hq with hold | ⟨s, hto, hnot, hfrom⟩
  · exact h q hold
  · exact hnot (hback s (hfrom.trans hto))

namespace Lineal

/-- Cells are freed, and the others keep their forebears, apart from built-ins that have been given out. -/
theorem later (h : B.Lineal) (hl : B.Later B') (hnames : ∀ r b', B'.Names r b' → ∃ b, B.Names r b ∧
    b'.proto? = b.proto? ∧ ∀ p ∈ b'.builtins.refs, p ∈ b.builtins.refs ∨ B.Issued p) : B'.Lineal := by
  constructor
  · intro r b' hr p hp
    obtain ⟨b, hb, hproto, hbuiltins⟩ := hnames r b' hr
    refine Issued.later (B := B) ?_ hl
    rcases List.mem_append.mp hp with hp | hp
    · exact h.issued r b hb p (List.mem_append_left _ (hproto ▸ hp))
    · rcases hbuiltins p hp with hp | hp
      · exact h.issued r b hb p (List.mem_append_right _ hp)
      · exact hp
  · intro r hr
    have hsub : ∀ q p, B'.Inherits q p → B.Inherits q p := by
      rintro q p ⟨b', hq, hp⟩
      obtain ⟨b, hb, hproto, -⟩ := hnames q b' hq
      exact ⟨b, hb, hproto ▸ hp⟩
    exact h.acyclic r (Relation.TransGen.mono hsub _ _ hr)

/-- A new cell has no heirs. -/
theorem enter (h : B.Lineal) (hl : B.Later B') (hr : ¬ B.Issued r)
    (hnames : ∀ q b', B'.Names q b' → B.Names q b' ∨ q = r ∧ b' = b)
    (hb : ∀ p ∈ b.forebears, B.Issued p) : B'.Lineal := by
  constructor
  · intro q b' hq p hp
    rcases hnames q b' hq with hq | ⟨rfl, rfl⟩
    · exact (h.issued q b' hq p hp).later hl
    · exact (hb p hp).later hl
  · refine acyclic_of_link h.acyclic (r := r) fun q p hqp => ?_
    obtain ⟨b', hq, hp⟩ := hqp
    rcases hnames q b' hq with hq | ⟨rfl, rfl⟩
    · exact .inl ⟨b', hq, hp⟩
    · refine .inr ⟨rfl, fun hchain => ?_⟩
      have hissued : B.Issued p := hb p (List.mem_append_left _ (by rw [hp]; exact .head _))
      rcases Relation.ReflTransGen.cases_tail hchain with rfl | ⟨s, -, b'', hs, hlast⟩
      · exact hr hissued
      · exact hr (h.issued s b'' hs _ (List.mem_append_left _ (by rw [hlast]; exact .head _)))

/-- A cell gets another prototype, whose chain does not lead to the cell. -/
theorem relink {proto : Option Handle} (h : B.Lineal) (hl : B.Later B')
    (hnames : ∀ q b', B'.Names q b' → ∃ b, B.Names q b ∧ b'.builtins = b.builtins ∧
      (b'.proto? = b.proto? ∨ q = r ∧ b'.proto? = proto))
    (hproto : ∀ p ∈ proto, B.Issued p ∧ ¬ Relation.ReflTransGen B.Inherits p r) : B'.Lineal := by
  constructor
  · intro q b' hq p hp
    obtain ⟨b, hb, hbuiltins, hcases⟩ := hnames q b' hq
    refine Issued.later (B := B) ?_ hl
    rcases List.mem_append.mp hp with hp | hp
    · rcases hcases with hsame | ⟨-, hnew⟩
      · exact h.issued q b hb p (List.mem_append_left _ (hsame ▸ hp))
      · exact (hproto p (Option.mem_toList.mp (hnew ▸ hp))).1
    · exact h.issued q b hb p (List.mem_append_right _ (hbuiltins ▸ hp))
  · refine acyclic_of_link h.acyclic (r := r) fun q p hqp => ?_
    obtain ⟨b', hq, hp⟩ := hqp
    obtain ⟨b, hb, -, hcases⟩ := hnames q b' hq
    rcases hcases with hsame | ⟨rfl, hnew⟩
    · exact .inl ⟨b, hb, hsame ▸ hp⟩
    · exact .inr ⟨rfl, (hproto p (hnew ▸ hp)).2⟩

end Lineal

end Books

end CountedHeap
