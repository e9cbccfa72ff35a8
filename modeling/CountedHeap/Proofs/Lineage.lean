import CountedHeap.Proofs.Control
import CountedHeap.Proofs.Heap.Wanes

/-!
# Threads that wait

A thread that has resumed another one waits for it. In runs without finalizers the threads that wait
form one line, from the resumer of the current thread on, as long as no thread is parted from its
resumer. A client parts them if it drops the last count of the thread that runs.

* `Heap.Backed`: the line of the threads that wait.
* `Heap.Lined`: whatever waits is in the line of the thread that runs.
* `Lined.stands`, `Lined.wanes`, `Lined.resume`, …: what the steps preserve.
* `Lined.not_parts`: passes part no thread from its resumer.
* `Engine.united`: operations where drains do not either.
* `waiting_in_line`: between operations, the threads that wait are those behind the current one.
* `stranded_after_drop`: a thread that waits for none.
-/

namespace CountedHeap

open Heap (Controlled Stands Stroke Withers)

namespace Heap

variable {h h' : Heap} {t t' c r : Handle} {o o' : Option Handle} {s s' : ThreadState} {l : List Handle}
  {p : ThreadState × Option Handle}

/-! ## The line of those that wait -/

/-- The threads that wait, from one on, each the resumer of the one before. -/
inductive Backed (h : Heap) : Option Handle → List Handle → Prop where
  | nobody : Backed h none []
  | behind {r : Handle} {o : Option Handle} {l : List Handle} : h.post r = some (.resumed, o) →
      Backed h o l → Backed h (some r) (r :: l)

namespace Backed

theorem waits (hb : Backed h o l) (hr : r ∈ l) : ∃ o, h.post r = some (.resumed, o) := by
  induction hb with
  | nobody => cases hr
  | behind hp _ ih =>
    rcases List.mem_cons.mp hr with rfl | hr
    · exact ⟨_, hp⟩
    · exact ih hr

/-- The line goes on where its threads stand as they stood. -/
theorem congr (hb : Backed h o l) (hp : ∀ r ∈ l, h'.post r = h.post r) : Backed h' o l := by
  induction hb with
  | nobody => exact .nobody
  | behind hr _ ih =>
    refine .behind ((hp _ List.mem_cons_self).trans hr) (ih fun r hr => hp r ?_)
    exact List.mem_cons_of_mem _ hr

/-- Whatever is in the line is the resumer of the one before, and the first of the one that runs. -/
theorem ahead (hb : Backed h o l) (hr : r ∈ l) :
    o = some r ∨ ∃ t ∈ l, h.post t = some (.resumed, some r) := by
  induction hb with
  | nobody => cases hr
  | @behind x o l hx _ ih =>
    rcases List.mem_cons.mp hr with rfl | hr
    · exact .inl rfl
    · refine .inr ((ih hr).elim (fun ho => ⟨x, List.mem_cons_self, ho ▸ hx⟩) ?_)
      rintro ⟨t, ht, hp⟩
      exact ⟨t, List.mem_cons_of_mem _ ht, hp⟩

/-- The resumer of one in the line comes later. -/
theorem later (hb : Backed h o l) (ht : t ∈ l) (hp : h.post t = some (s, some r)) : r ∈ l.tail := by
  induction hb with
  | nobody => cases ht
  | @behind x o l hx hb ih =>
    rcases List.mem_cons.mp ht with rfl | ht
    · rw [hx] at hp
      cases hp
      cases hb
      exact List.mem_cons_self
    · exact List.mem_of_mem_tail (ih ht)

/-- The first in line is the resumer of none in the line. -/
theorem not_first (hb : Backed h (some r) l) (hnd : l.Nodup) (ht : t ∈ l) :
    h.post t ≠ some (s, some r) := by
  intro hp
  have hlater := hb.later ht hp
  cases hb
  exact (List.nodup_cons.mp hnd).1 hlater

/-- None is the resumer of two in the line. -/
theorem unique (hb : Backed h o l) (hnd : l.Nodup) (ht : t ∈ l) (ht' : t' ∈ l)
    (hp : h.post t = some (s, some r)) (hp' : h.post t' = some (s', some r)) : t = t' := by
  induction hb with
  | nobody => cases ht
  | @behind x o l hx hb ih =>
    have hnd' := (List.nodup_cons.mp hnd).2
    -- The one after the first is the resumer of the first, and of none behind it.
    have hfirst : ∀ {t s s'}, t ∈ l → h.post t = some (s, some r) →
        h.post x ≠ some (s', some r) := by
      intro t s s' ht hp hp'
      rw [hx] at hp'
      cases hp'
      exact hb.not_first hnd' ht hp
    rcases List.mem_cons.mp ht with rfl | hmem <;> rcases List.mem_cons.mp ht' with rfl | hmem'
    · rfl
    · exact absurd hp (hfirst hmem' hp')
    · exact absurd hp' (hfirst hmem hp)
    · exact ih hnd' hmem hmem'

end Backed

/-- The thread that runs has behind it, in a line, whatever thread waits. -/
structure Lined (h : Heap) : Prop extends Controlled h where
  line : ∀ t o, h.post t = some (.running, o) → ∃ l, Backed h o l ∧ l.Nodup ∧
    ∀ r q, h.post r = some (.resumed, q) → r ∈ l
  alone : (∀ t o, h.post t ≠ some (.running, o)) → ∀ r q, h.post r ≠ some (.resumed, q)

namespace Lined

theorem empty {config : Config} : Lined (.empty config) := by
  refine ⟨.empty, fun t o ht => ?_, fun _ r q hr => ?_⟩
  · cases ht
  · cases hr

theorem stands (hl : Lined h) (hs : Stands h h') : Lined h' := by
  have hold : ∀ {t s o}, s ≠ .inactive → h'.post t = some (s, o) → h.post t = some (s, o) := by
    intro t s o hs' ht
    rcases hs.new t _ ht with hold | hnew
    · exact hold
    · cases hnew
      exact absurd rfl hs'
  refine ⟨hl.toControlled.stands hs, fun t o ht => ?_, fun hnone r q hr => ?_⟩
  · obtain ⟨l, hb, hnd, hall⟩ := hl.line t o (hold (by simp) ht)
    refine ⟨l, hb.congr fun r hr => ?_, hnd, fun r q hr => hall r q (hold (by simp) hr)⟩
    obtain ⟨q, hq⟩ := hb.waits hr
    rw [hq, hs.old r _ hq]
  · exact hl.alone (fun t o ht => hnone t o (hs.old t _ ht)) r q (hold (by simp) hr)

end Lined

/-! ## Threads and their resumers -/

/-- A thread and its resumer have been parted: one of the two is left. -/
def Parts (h h' : Heap) : Prop :=
  ∃ t p, h.post t = some p ∧ ∃ r ∈ p.2, (h'.post t).isSome ≠ (h'.post r).isSome

instance : Decidable (Parts h h') :=
  decidable_of_iff _
    (exists_post (Q := fun t p => ∃ r ∈ p.2, (h'.post t).isSome ≠ (h'.post r).isSome)).symm

/-- If none are parted, then a line that loses its first thread is lost, and otherwise it stays. -/
theorem Backed.of_not_parts (hb : Backed h o l) (hp : ¬ Parts h h')
    (hleft : ∀ r p, h'.post r = some p → h.post r = some p) :
    ((∃ r ∈ o, h'.post r = none) → ∀ r ∈ l, h'.post r = none) ∧
      ((∀ r ∈ o, (h'.post r).isSome) → Backed h' o l) := by
  induction hb with
  | nobody => exact ⟨fun _ _ hr => (List.not_mem_nil hr).elim, fun _ => .nobody⟩
  | @behind r o l hr _ ih =>
    -- The thread behind this one is there if and only if this one is.
    have hnext : ∀ q ∈ o, (h'.post r).isSome = (h'.post q).isSome := by
      intro q hq
      by_contra hne
      exact hp ⟨r, _, hr, q, hq, hne⟩
    constructor
    · rintro ⟨r', hr', hgone⟩ q hq
      obtain rfl : r = r' := Option.some.inj hr'
      rcases List.mem_cons.mp hq with rfl | hq
      · exact hgone
      · cases o with
        | none =>
          cases ‹Backed h none l›
          cases hq
        | some q' =>
          refine ih.1 ⟨q', rfl, ?_⟩ q hq
          have := hnext q' rfl
          rw [hgone] at this
          simpa using this.symm
    · intro hthere
      have hr' : (h'.post r).isSome = true := hthere r rfl
      obtain ⟨p, hp'⟩ := Option.isSome_iff_exists.mp hr'
      have hsame : h'.post r = some (.resumed, o) := by
        rw [← hr, hleft r p hp', hp']
      exact .behind hsame (ih.2 fun q hq => hnext q hq ▸ hr')

/-- What a pass reaches is not garbage. -/
theorem not_garbage_of_marked {options : PassOptions} (hm : (h.toSweep options).arena.Marked t.index) :
    t.index ∉ h.garbage options := by
  intro hi
  have hreached : (h.toSweep options).isReached t.index = true := isReached_iff.mpr (.inr hm)
  have hnot := (List.mem_filter.mp hi).2
  rw [hreached] at hnot
  cases hnot

/-- A pass reaches a thread that runs or waits. -/
theorem marked_of_active {options : PassOptions} (ht : h.post t = some (s, o))
    (hs : s = .running ∨ s = .resumed) : (h.toSweep options).arena.Marked t.index := by
  obtain ⟨x, hx, rfl, -⟩ := thread_of_post ht
  obtain ⟨header, hc⟩ := thread_eq_ok.mp hx
  have hactive : x.state.isActive = true := by
    rcases hs with hs | hs <;> rw [hs] <;> rfl
  refine (marked_toSweep_iff (composite_of_post ht)).mpr (.start (.inl ?_) (composite_of_post ht))
  exact mem_outsideHolds.mpr (.inl ⟨(Arena.holds_of_get? hc).handleAt, _, Arena.cellAt?_of_get? hc, rfl,
    .inr (.inl hactive)⟩)

namespace Lined

theorem wanes (hl : Lined h) (hw : Wanes h h') (hp : ¬ Parts h h') : Lined h' := by
  have hcontrolled : Controlled h' := ((hl.toControlled.flag false).withers hw).flag h'.draining
  have hleft : ∀ r p, h'.post r = some p → h.post r = some p := fun _ _ => hw.post
  refine ⟨hcontrolled, fun t o ht => ?_, fun hnone r q hr => ?_⟩
  · have ht' := hleft t _ ht
    obtain ⟨l, hb, hnd, hall⟩ := hl.line t o ht'
    refine ⟨l, (hb.of_not_parts hp hleft).2 fun r hr => ?_, hnd, fun r q hr => hall r q (hleft r _ hr)⟩
    by_contra hgone
    refine hp ⟨t, _, ht', r, hr, ?_⟩
    rw [ht]
    simpa using hgone
  · have hr' := hleft r _ hr
    by_cases hrun : ∃ t o, h.post t = some (.running, o)
    · obtain ⟨t, o, ht⟩ := hrun
      obtain ⟨l, hb, -, hall⟩ := hl.line t o ht
      have htgone : h'.post t = none := by
        cases ht' : h'.post t with
        | none => rfl
        | some p =>
          have hsame := hleft t p ht'
          rw [ht] at hsame
          exact absurd (hsame ▸ ht') (hnone t o)
      cases o with
      | none =>
        cases hb
        cases hall r q hr'
      | some q' =>
        have hgone : h'.post q' = none := by
          by_contra hthere
          refine hp ⟨t, _, ht, q', rfl, ?_⟩
          rw [htgone]
          simpa [Option.isSome_iff_ne_none] using hthere
        rw [(hb.of_not_parts hp hleft).1 ⟨q', rfl, hgone⟩ r (hall r q hr')] at hr
        cases hr
    · exact hl.alone (fun t o ht => hrun ⟨t, o, ht⟩) r q hr'

/-- The resumer of a thread waits. -/
theorem resumer_waits (hl : Lined h) (ht : h.post t = some (s, some r)) :
    ∃ q, h.post r = some (.resumed, q) := by
  rcases hl.resumer t s r ht with rfl | rfl
  · obtain ⟨l, hb, -⟩ := hl.line t _ ht
    cases hb with
    | behind hr _ => exact ⟨_, hr⟩
  · by_cases hrun : ∃ c o, h.post c = some (.running, o)
    · obtain ⟨c, o, hc⟩ := hrun
      obtain ⟨l, hb, -, hall⟩ := hl.line c o hc
      exact hb.waits (List.mem_of_mem_tail (hb.later (hall t _ ht) ht))
    · exact absurd ht (hl.alone (fun c o hc => hrun ⟨c, o, hc⟩) t _)

/-- A pass parts no thread from its resumer: it reaches whatever runs or waits. -/
theorem not_parts {options : PassOptions} (hl : Lined h) (hw : Wanes h h')
    (hspared : ∀ r, h.arena.Composite r → r.index ∉ h.garbage options → h'.arena.Composite r) :
    ¬ Parts h h' := by
  rintro ⟨t, ⟨s, o⟩, ht, r, rfl, hne⟩
  have hleft : ∀ {r s q}, h.post r = some (s, q) → s = .running ∨ s = .resumed →
      (h'.post r).isSome = true := by
    intro r s q hr hs
    have hcomp := composite_of_post hr
    rw [hw.post_of_composite (hspared r hcomp (not_garbage_of_marked (marked_of_active hr hs)))]
    rw [hr]
    rfl
  obtain ⟨q, hr⟩ := hl.resumer_waits ht
  rw [hleft ht (hl.resumer t s r ht), hleft hr (.inr rfl)] at hne
  exact hne rfl

/-! ## Switches -/

theorem start (hl : Lined h) (ht : h.checkStart t = .ok ()) :
    Lined ((h.setState t .running).setCurrent (some t)) := by
  obtain ⟨⟨o, ho⟩, hidle⟩ := posts_of_checkStart ht
  obtain rfl := hl.no_resumer ho (by simp) (by simp)
  have hnone : ∀ r o, h.post r ≠ some (.running, o) :=
    fun r o hr => hidle r (hl.running r o hr) o hr
  have hpost : ((h.setState t .running).setCurrent (some t)).post =
      Function.update h.post t (some (.running, none)) := post_setState ho _
  have hwaits : ∀ r q, ((h.setState t .running).setCurrent (some t)).post r ≠
      some (.resumed, q) := by
    intro r q hr
    by_cases hrt : r = t
    · rw [hpost, hrt, Function.update_self] at hr
      cases hr
    · rw [hpost, Function.update_of_ne hrt] at hr
      exact hl.alone hnone r q hr
  refine ⟨hl.toControlled.start ht, fun r o hr => ?_, fun _ r q hr => hwaits r q hr⟩
  have hrt : r = t := by
    by_contra hne
    rw [hpost, Function.update_of_ne hne] at hr
    exact hnone r o hr
  rw [hpost, hrt, Function.update_self] at hr
  cases hr
  exact ⟨[], .nobody, List.nodup_nil, fun r q hr => absurd hr (hwaits r q)⟩

theorem resume (hl : Lined h) {old : Option Handle} (ht : h.checkResume t = .ok (c, old)) :
    old = none ∧ Lined ((h.switchTo c t).setCurrent (some t)) := by
  obtain ⟨hold, hcontrolled⟩ := hl.toControlled.resume ht
  obtain ⟨hcur, ⟨o, ho⟩, hne, s, hs, hidle⟩ := posts_of_checkResume ht
  have hpost : ((h.switchTo c t).setCurrent (some t)).post = Function.update
      (Function.update h.post c (some (.resumed, o))) t (some (.running, some c)) :=
    post_setCurrent.trans (post_switchTo ho hs hne)
  have hat : ∀ r ≠ t, r ≠ c → ((h.switchTo c t).setCurrent (some t)).post r = h.post r := by
    intro r hrt hrc
    rw [hpost, Function.update_of_ne hrt, Function.update_of_ne hrc]
  have htrun : ((h.switchTo c t).setCurrent (some t)).post t = some (.running, some c) := by
    rw [hpost, Function.update_self]
  refine ⟨hold, hcontrolled, fun r q hr => ?_, fun hnone => absurd htrun (hnone t _)⟩
  obtain rfl : r = t := Option.some.inj ((hcontrolled.running r q hr).symm.trans rfl)
  rw [htrun] at hr
  cases hr
  obtain ⟨l, hb, hnd, hall⟩ := hl.line c o ho
  have hlr : ∀ q ∈ l, q ≠ r ∧ q ≠ c := by
    intro q hq
    obtain ⟨q', hq'⟩ := hb.waits hq
    constructor
    · rintro rfl
      rw [hs] at hq'
      cases hq'
      rcases hidle with h | h <;> cases h
    · rintro rfl
      rw [ho] at hq'
      cases hq'
  have hcpost : ((h.switchTo c r).setCurrent (some r)).post c = some (.resumed, o) := by
    rw [hpost, Function.update_of_ne hne, Function.update_self]
  refine ⟨c :: l, .behind hcpost (hb.congr fun q hq => hat q (hlr q hq).1 (hlr q hq).2),
    List.nodup_cons.mpr ⟨fun hc => (hlr c hc).2 rfl, hnd⟩, fun q q' hq => ?_⟩
  by_cases hqc : q = c
  · exact hqc ▸ List.mem_cons_self
  · have hqr : q ≠ r := by
      rintro rfl
      rw [htrun] at hq
      cases hq
    exact List.mem_cons_of_mem _ (hall q q' ((hat q hqr hqc) ▸ hq))

/-- The thread that runs steps back, and its resumer runs again. -/
theorem handBack (hl : Lined h) (hc : h.post c = some (.running, some r))
    (hr : h.post r = some (.resumed, o)) (hcontrolled : Controlled h') (hcur : h'.current = some r)
    {s : ThreadState} (hs : s ≠ .resumed)
    (hpost : h'.post = Function.update (Function.update h.post c (some (s, none))) r
      (some (.running, o))) : Lined h' := by
  have hrrun : h'.post r = some (.running, o) := by
    rw [hpost, Function.update_self]
  refine ⟨hcontrolled, fun t q ht => ?_, fun hnone => absurd hrrun (hnone r _)⟩
  obtain rfl : r = t := Option.some.inj (hcur.symm.trans (hcontrolled.running t q ht))
  rw [hrrun] at ht
  cases ht
  obtain ⟨l, hb, hnd, hall⟩ := hl.line c _ hc
  cases hb with
  | @behind _ o' l hr' hb =>
    rw [hr] at hr'
    cases hr'
    obtain ⟨hnot, hnd⟩ := List.nodup_cons.mp hnd
    have hat : ∀ q ≠ r, q ≠ c → h'.post q = h.post q := by
      intro q hqr hqc
      rw [hpost, Function.update_of_ne hqr, Function.update_of_ne hqc]
    refine ⟨l, hb.congr fun q hq => hat q ?_ ?_, hnd, fun q q' hq => ?_⟩
    · rintro rfl
      exact hnot hq
    · rintro rfl
      obtain ⟨q', hq'⟩ := hb.waits hq
      rw [hc] at hq'
      cases hq'
    · have hqr : q ≠ r := by
        rintro rfl
        rw [hrrun] at hq
        cases hq
      have hqc : q ≠ c := by
        rintro rfl
        rw [hpost, Function.update_of_ne hqr, Function.update_self] at hq
        simp only [Option.some.injEq, Prod.mk.injEq] at hq
        exact hs hq.1
      rw [hat q hqr hqc] at hq
      exact (List.mem_cons.mp (hall q q' hq)).resolve_left hqr

theorem yield (hl : Lined h) (hy : h.checkYield = .ok (c, r)) : Lined (h.switchBack c r) := by
  obtain ⟨hcur, hc, o, hr⟩ := posts_of_checkYield hy
  have hne : c ≠ r := by
    rintro rfl
    rw [hc] at hr
    cases hr
  exact hl.handBack hc hr (hl.toControlled.yield hy) rfl (by simp) (post_switchBack hc hr hne)

theorem endThread (hl : Lined h) (ht : h.post t = some (s, o)) (hs : s ≠ .resumed) :
    Lined (h.endThread t o) := by
  have hnone : ∀ {h : Heap}, Lined h → ∀ {t}, h.post t = some (.running, none) →
      ∀ r q, h.post r ≠ some (.resumed, q) := by
    intro h hl t ht r q hr
    obtain ⟨l, hb, -, hall⟩ := hl.line t none ht
    cases hb
    cases hall r q hr
  have hthere : ∀ r ∈ o, (h.post r).isSome := by
    rintro r rfl
    obtain ⟨l, hb, -⟩ := hl.line t _ (((hl.resumer t s r ht).resolve_right hs) ▸ ht)
    cases hb with
    | behind hr _ => exact hr ▸ rfl
  have hendable : h.endable t = true := by
    unfold endable
    rw [ht, Bool.and_eq_true, bne_iff_ne, Option.all_eq_true]
    exact ⟨hs, hthere⟩
  have hcontrolled := hl.toControlled.endThread ht hendable
  cases o with
  | some r =>
    obtain rfl : s = .running := (hl.resumer t s r ht).resolve_right hs
    obtain ⟨l, hb, -⟩ := hl.line t _ ht
    cases hb with
    | @behind _ q _ hr _ =>
      have hrt : r ≠ t := by
        rintro rfl
        rw [ht] at hr
        cases hr
      have hr' : Function.update h.post t (some (.terminated, none)) r = some (.resumed, q) := by
        rwa [Function.update_of_ne hrt]
      exact hl.handBack ht hr hcontrolled rfl (by simp) (post_endThread_some ht hr')
  | none =>
    have hpost := post_endThread_none ht
    have hat : ∀ r ≠ t, (h.endThread t none).post r = h.post r := by
      intro r hrt
      rw [hpost, Function.update_of_ne hrt]
    have hgone : ∀ {r s' q}, s' ≠ .terminated → (h.endThread t none).post r = some (s', q) →
        r ≠ t ∧ h.post r = some (s', q) := by
      intro r s' q hs' hr
      have hrt : r ≠ t := by
        rintro rfl
        rw [hpost, Function.update_self] at hr
        simp only [Option.some.injEq, Prod.mk.injEq] at hr
        exact hs' hr.1.symm
      exact ⟨hrt, hat r hrt ▸ hr⟩
    refine ⟨hcontrolled, fun r q hr => ?_, fun hidle r q hr => ?_⟩
    · obtain ⟨hrt, hr'⟩ := hgone (by simp) hr
      obtain ⟨l, hb, hnd, hall⟩ := hl.line r q hr'
      refine ⟨l, hb.congr fun x hx => hat x ?_, hnd, fun x y hx => hall x y (hgone (by simp) hx).2⟩
      rintro rfl
      obtain ⟨y, hy⟩ := hb.waits hx
      rw [ht] at hy
      cases hy
      exact hs rfl
    · obtain ⟨-, hr'⟩ := hgone (by simp) hr
      by_cases hrun : s = .running
      · exact hnone hl (hrun ▸ ht) r q hr'
      · refine hl.alone (fun x y hx => ?_) r q hr'
        have hxt : x ≠ t := by
          rintro rfl
          rw [ht] at hx
          cases hx
          exact hrun rfl
        exact hidle x y ((hat x hxt).trans hx)

end Lined

end Heap

/-! ## Threads that stay with their resumers -/

section

variable {σ α β : Type} {host : Host σ} {w : World σ} {X : Multiset Handle} {fuel : ℕ} {t : Handle}

/-- An action that has a result only if it parts no thread from its resumer. -/
def uniting (x : Action σ α) : Action σ α :=
  fun w => (x w).filter fun p => ¬ w.heap.Parts p.2.heap

theorem restricting_uniting {x : Action σ α} : (restricting σ).rel (uniting x) x :=
  fun _ _ e => (Option.filter_eq_some_iff.mp e).1

theorem after_uniting {x : Action σ α} {Q : α → World σ → Prop}
    (hx : After x w fun a w' => ¬ w.heap.Parts w'.heap → Q a w') : After (uniting x) w Q := by
  intro a w' e
  obtain ⟨e, hp⟩ := Option.filter_eq_some_iff.mp e
  exact hx a w' e (of_decide_eq_true hp)

/-- The engine at the top, where no drain parts a thread from its resumer. -/
def Engine.united (host : Host σ) (fuel : ℕ) : Engine σ where
  drain := uniting (Engine.top host fuel).drain
  collect := pass (inPass.caller host) (uniting (Engine.top host fuel).drain)
  slack := fuel

/-- United operations do what operations do otherwise, if they have a result. -/
theorem united_restricts (op : Operation β) : (restricting σ).Lift
    ((Engine.united host fuel).perform op) ((Engine.top host fuel).perform op) := by
  have hagree : (restricting σ).Agree (Engine.united host fuel) (Engine.top host fuel) :=
    ⟨Simulation.rel_release withering_restricting restricting_uniting, fun _ =>
      withering_restricting.pass (fun _ _ => restricting_refl) restricting_uniting, rfl⟩
  exact hagree.perform_all turning_restricting op

/-- There are no finalizers, those that wait are in line, and some threads do not wait. -/
structure Heap.LinedWhere (T : Handle → Prop) (h : Heap) : Prop extends Heap.Lined h where
  key : h.finalizerKey = none
  busy : ∀ t, T t → ∀ o, h.post t ≠ some (.resumed, o)

namespace Heap.LinedWhere

variable {T : Handle → Prop} {h h' : Heap} {r : Handle}

theorem stands (hl : LinedWhere T h) (hs : Stands h h') (hk : h'.finalizerKey = h.finalizerKey) :
    LinedWhere T h' := by
  refine ⟨hl.toLined.stands hs, hk.trans hl.key, fun t ht o hp => ?_⟩
  rcases hs.new t _ hp with hold | hnew
  · exact hl.busy t ht o hold
  · cases hnew

theorem wanes (hl : LinedWhere T h) (hw : Wanes h h') (hp : ¬ Parts h h') : LinedWhere T h' :=
  ⟨hl.toLined.wanes hw hp, hw.key.trans hl.key, fun t ht o ho =>
    hl.busy t ht o (hw.post ho)⟩

theorem stroke (hl : LinedWhere T h) (hs : Stroke h h') : LinedWhere T h' := by
  refine hl.stands (hs.stands hl.free) ?_
  cases hs with
  | touch ht =>
    cases ht with
    | retain r =>
      unfold Heap.retain
      split <;> rfl
    | body => rfl
    | aside _ _ _ _ _ hkey => exact hkey
  | roots => rfl
  | link => rfl
  | builtin => rfl
  | resize => rfl
  | place => rfl

/-- A count that is given back leaves threads where they stand. -/
theorem release (hl : LinedWhere T h) : LinedWhere T (h.release r).1 := by
  have hw : Withers h (h.release r).1 := .release
  have hcur : (h.release r).1.current = h.current := by
    rcases h.release_cases r with ⟨-, he⟩ | ⟨_, _, -, ⟨-, he⟩ | ⟨-, -, _, _, _, he⟩ |
      ⟨-, -, -, -, he⟩⟩ <;>
    exact congrArg (fun x : Heap × Bool => x.1.current) he
  refine hl.stands ⟨hw.free hl.free, hcur, fun t p ht => ?_, fun t p ht => .inl (hw.post ht)⟩ hw.key
  exact (hw.post_of_composite (Heap.Spares.release t (Heap.composite_of_post ht))).trans ht

end Heap.LinedWhere

open Heap (LinedWhere)

variable {T : Handle → Prop}

theorem stroking_lined : (keeping σ (LinedWhere T)).Stroking :=
  stroking_keeping fun _ _ hs hl => hl.stroke hs

theorem united_agrees : (keeping σ (LinedWhere T)).Agree (Engine.united host fuel)
    (Engine.united host fuel) := by
  have hdrain : ∀ w : World σ, LinedWhere T w.heap →
      After (Engine.united host fuel).drain w fun _ w' => LinedWhere T w'.heap :=
    fun w hl => after_uniting ((drain_wanes (Heap.unfinalized_of_key hl.key)).mono
      fun _ _ hw hp => hl.wanes hw hp)
  refine ⟨fun r w hl => ?_, fun o w hl => ?_, rfl⟩
  · unfold Engine.release
    rw [after_bind, after_change]
    split
    · exact hdrain ⟨(w.heap.release r).1, w.host⟩ hl.release
    · exact after_pure.mpr hl.release
  · have hbody : After (passBody (Engine.inPass.caller host) o) w fun _ w' => LinedWhere T w'.heap :=
      (passBody_wanes (Heap.unfinalized_of_key hl.key)).mono fun _ _ hw =>
        hl.wanes hw.1 (hl.not_parts hw.1 hw.2)
    exact pass_after hbody (fun _ => id) fun _ w' hl' => hdrain w' hl'

/-- A thread that is ended ran when it was asked for, and so it does not wait when its stacks are empty. -/
theorem united_terminates (t : Handle) : (keeping σ (LinedWhere fun _ => False)).Lift
    ((Engine.united host fuel).terminateThread t) ((Engine.united host fuel).terminateThread t) := by
  refine lift_keeping_iff.mpr fun w hl => ?_
  rw [Engine.terminateThread_eq, meets_bind]
  cases hrun : w.heap.checkState t .running with
  | error e =>
    unfold Engine.unwindAll
    rw [meets_bind, meets_check, hrun]
    exact ⟨fun _ _ => hl, nofun⟩
  | ok _ =>
    obtain ⟨o, ho⟩ := Heap.post_of_checkState hrun
    have hbusy : LinedWhere (· = t) w.heap := by
      refine ⟨hl.toLined, hl.key, ?_⟩
      rintro _ rfl o' ho'
      rw [ho] at ho'
      cases ho'
    have hagree : (keeping σ (LinedWhere (· = t))).Agree (Engine.united host fuel)
        (Engine.united host fuel) := united_agrees
    have hunwound := lift_keeping_iff.mp (hagree.unwindAll (r := t) stroking_lined.touching) w hbusy
    refine hunwound.mono (fun _ _ hl' => ⟨hl'.toLined, hl'.key, fun _ hf => hf.elim⟩) fun _ w' hl' => ?_
    simp only [meets_bind, meets_surely, meets_check, after_modifyHeap]
    refine ⟨fun _ _ => ⟨hl'.toLined, hl'.key, fun _ hf => hf.elim⟩, fun o ho => ?_⟩
    obtain ⟨s, hs⟩ := Heap.post_of_resumer ho
    have hend : s ≠ .resumed := by
      rintro rfl
      exact hl'.busy t rfl o hs
    have hk : (w'.heap.endThread t o).finalizerKey = none := Heap.aside_endThread.2.trans hl'.key
    exact united_agrees.releaseAll _ ⟨hl'.toLined.endThread hs hend, hk, fun _ hf => hf.elim⟩

/-- What an operation without finalizers preserves. -/
theorem united_keeps (op : Operation β) (hi : ¬ op.installs) :
    (keeping σ (LinedWhere fun _ => False)).Lift ((Engine.united host fuel).perform op)
      ((Engine.united host fuel).perform op) := by
  have hidle : ∀ {h : Heap}, h.Lined → h.finalizerKey = none → LinedWhere (fun _ => False) h :=
    fun hl hk => ⟨hl, hk, fun _ hf => hf.elim⟩
  have hagree : (keeping σ (LinedWhere fun _ => False)).Agree (Engine.united host fuel)
      (Engine.united host fuel) := united_agrees
  by_cases hop : op.switches
  · refine lift_keeping_iff.mpr fun w hl => ?_
    cases op
    case startThread t =>
      change Meets (startThread t) w _ _
      unfold startThread
      simp only [meets_bind, meets_check, meets_surely, after_modifyHeap]
      exact ⟨fun _ _ => hl, fun _ ht => hidle (hl.start ht) hl.key⟩
    case resumeThread t =>
      change Meets ((Engine.united host fuel).resumeThread t) w _ _
      unfold Engine.resumeThread
      simp only [meets_bind, meets_check]
      refine ⟨fun _ _ => hl, ?_⟩
      rintro ⟨c, old⟩ ht
      obtain ⟨rfl, hl'⟩ := hl.resume ht
      have hk : ((w.heap.switchTo c t).setCurrent (some t)).finalizerKey = none := by
        rw [Heap.finalizerKey_setCurrent, ← hl.key]
        unfold Heap.switchTo Heap.retain
        split <;> rfl
      simp only [meets_surely, after_modifyHeap]
      exact after_pure.mpr (hidle hl' hk)
    case yieldThread =>
      change Meets (Engine.united host fuel).yieldThread w _ _
      unfold Engine.yieldThread
      simp only [meets_bind, meets_check]
      refine ⟨fun _ _ => hl, ?_⟩
      rintro ⟨c, r⟩ hy
      simp only [meets_surely, after_modifyHeap]
      exact hagree.release r _ (hidle (hl.yield hy) hl.key)
    case terminateThread t =>
      exact lift_keeping_iff.mp (united_terminates t) w hl
    all_goals exact hop.elim
  · exact hagree.perform (hagree.makes stroking_lined) stroking_lined.touching op
      (fun _ => stroking_lined.rooting) (fun h => absurd h hi) fun h => absurd h hop

theorem Heap.LinedWhere.idle {h : Heap} (hl : h.Lined) (hk : h.finalizerKey = none) :
    LinedWhere (fun _ => False) h :=
  ⟨hl, hk, fun _ hf => hf.elim⟩

/-! ## Between operations -/

/-- No finalizer is installed, and no drain parts a thread from its resumer. -/
def Discipline.united (host : Host σ) : Discipline σ :=
  fun _ op w _ answer w' => ¬ op.installs ∧
    ∃ fuel, ((Engine.united host fuel).perform op).run w = some (answer, w')

theorem Run.lined (hr : Run host (Discipline.united host) w X) :
    LinedWhere (fun _ => False) w.heap := by
  induction hr with
  | start config s => exact .idle .empty rfl
  | step _ _ hd ih =>
    obtain ⟨hi, _, e⟩ := hd
    exact united_keeps _ hi _ ih _ _ e
  | host s _ ih => exact ih

/-- Whatever counts are dropped and whatever is collected: as long as no thread is parted from its
resumer, each thread that waits is the resumer of one thread, which runs or waits, and from the current
thread on each resumer leads to the next one, until all that wait have come, once each. -/
theorem waiting_in_line (hr : Run host (Discipline.united host) w X) :
    (∀ r q, w.heap.post r = some (.resumed, q) → ∃! t, ∃ s, w.heap.post t = some (s, some r) ∧
      (s = .running ∨ s = .resumed)) ∧
    ∃ l, w.heap.Backed (w.heap.current.bind fun t => (w.heap.post t).bind Prod.snd) l ∧ l.Nodup ∧
      ∀ r, r ∈ l ↔ ∃ q, w.heap.post r = some (.resumed, q) := by
  have hl := hr.lined.toLined
  by_cases hrun : ∃ t o, w.heap.post t = some (.running, o)
  · obtain ⟨c, o, hc⟩ := hrun
    obtain ⟨l, hb, hnd, hall⟩ := hl.line c o hc
    have hfrom : ∀ {t s r}, w.heap.post t = some (s, some r) → t = c ∨ t ∈ l := by
      intro t s r ht
      rcases hl.resumer t s r ht with rfl | rfl
      · exact .inl (Option.some.inj ((hl.running t _ ht).symm.trans (hl.running c o hc)))
      · exact .inr (hall t _ ht)
    refine ⟨fun r q hr => ?_, l, ?_, hnd, fun r => ⟨hb.waits, fun ⟨q, hq⟩ => hall r q hq⟩⟩
    · rcases hb.ahead (hall r q hr) with rfl | ⟨t, ht, hp⟩
      · refine ⟨c, ⟨_, hc, .inl rfl⟩, ?_⟩
        rintro t ⟨s, ht, -⟩
        exact (hfrom ht).resolve_right fun hmem => hb.not_first hnd hmem ht
      · refine ⟨t, ⟨_, hp, .inr rfl⟩, ?_⟩
        rintro t' ⟨s, ht', -⟩
        rcases hfrom ht' with rfl | hmem
        · rw [hc] at ht'
          cases ht'
          exact absurd hp (hb.not_first hnd ht)
        · exact hb.unique hnd hmem ht ht' hp
    · rw [hl.running c o hc, Option.bind_some, hc]
      exact hb
  · have hnone := hl.alone fun t o ht => hrun ⟨t, o, ht⟩
    have hcur : w.heap.current = none :=
      Option.eq_none_iff_forall_ne_some.mpr fun t ht => hrun ⟨t, hl.current t ht⟩
    refine ⟨fun r q hr => absurd hr (hnone r q), [], ?_, List.nodup_nil, fun r => ?_⟩
    · rw [hcur]
      exact .nobody
    · exact ⟨fun hr => (List.not_mem_nil hr).elim, fun ⟨q, hq⟩ => absurd hq (hnone r q)⟩

end

/-- A thread has resumed a second one and this a third one. The client has dropped the first two and has
collected. -/
def nested : List Command :=
  [⟨_, .allocThread none⟩, ⟨_, .allocThread none⟩, ⟨_, .allocThread none⟩, ⟨_, .startThread ⟨0, 0⟩⟩,
    ⟨_, .resumeThread ⟨1, 0⟩⟩, ⟨_, .resumeThread ⟨2, 0⟩⟩, ⟨_, .release (.ref ⟨0, 0⟩)⟩,
    ⟨_, .release (.ref ⟨1, 0⟩)⟩, ⟨_, .collect {}⟩]

/-- Both are still there, and only the second one waits for the third. -/
theorem waiting_in_line_nested : ∃ (w : World Unit) (X : Multiset Handle),
    Run .idle (Discipline.united .idle) w X ∧
      w.heap.post ⟨1, 0⟩ = some (.resumed, some ⟨0, 0⟩) ∧
      ∃! t, ∃ s, w.heap.post t = some (s, some ⟨1, 0⟩) ∧ (s = .running ∨ s = .resumed) := by
  have hend : (rehearse (fun _ => (Engine.united (.idle : Host Unit) 5).perform) nested
      ⟨.empty {}, ()⟩ 0).any (fun x => x.1.heap.post ⟨1, 0⟩ = some (.resumed, some ⟨0, 0⟩)) = true := by
    decide +kernel
  obtain ⟨⟨w, X⟩, e, hp⟩ := (Option.any_eq_true _ _).mp hend
  have hinstalls : ∀ c ∈ nested, ¬ c.2.installs := by
    simp [nested, Operation.installs]
  have hr : Run .idle (Discipline.united .idle) w X :=
    (Run.start {} ()).rehearse (fun c hc _ _ _ _ _ e =>
      ⟨⟨5, united_restricts _ _ _ e⟩, hinstalls c hc, 5, e⟩) e
  have hwaits : w.heap.post ⟨1, 0⟩ = some (.resumed, some ⟨0, 0⟩) := of_decide_eq_true hp
  exact ⟨w, X, hr, hwaits, (waiting_in_line hr).1 _ _ hwaits⟩

/-- A thread has resumed another one, of which the client then drops the only count: the one that runs is
freed, no thread is current, and the first one waits for none. -/
theorem stranded_after_drop : ∃ (w : World Unit) (X : Multiset Handle),
    Run .idle Discipline.careful w X ∧ w.heap.finalizerKey = none ∧ w.heap.current = none ∧
      w.heap.post ⟨0, 0⟩ = some (.resumed, none) ∧
      ∀ t s, w.heap.post t ≠ some (s, some ⟨0, 0⟩) := by
  have hend : (rehearse (fun _ => (Engine.top (.idle : Host Unit) 5).perform)
      [⟨_, .allocThread none⟩, ⟨_, .allocThread none⟩, ⟨_, .startThread ⟨0, 0⟩⟩,
        ⟨_, .resumeThread ⟨1, 0⟩⟩, ⟨_, .release (.ref ⟨1, 0⟩)⟩] ⟨.empty {}, ()⟩ 0).any (fun x =>
      x.1.heap.finalizerKey = none ∧ x.1.heap.current = none ∧
        x.1.heap.post ⟨0, 0⟩ = some (.resumed, none) ∧
        ¬ ∃ i ∈ List.range x.1.heap.arena.slots.size,
          ∃ p ∈ x.1.heap.post (x.1.heap.arena.handleAt i), p.2 = some ⟨0, 0⟩) = true := by
    decide +kernel
  obtain ⟨⟨w, X⟩, e, hp⟩ := (Option.any_eq_true _ _).mp hend
  obtain ⟨hkey, hcur, hpost, hnone⟩ := of_decide_eq_true hp
  refine ⟨w, X, (Run.start {} ()).rehearse_careful e, hkey, hcur, hpost, fun t s ht => hnone ?_⟩
  exact (Heap.exists_post (Q := fun _ p => p.2 = some ⟨0, 0⟩)).mp ⟨t, _, ht, rfl⟩

end CountedHeap
