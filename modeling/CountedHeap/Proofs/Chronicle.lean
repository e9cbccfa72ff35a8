import CountedHeap.Proofs.Erasure
import CountedHeap.Proofs.Invariance

/-!
# Chronicles of runs

A run can be told with every heap in it that anyone may look at: the one a native function is called
with, those that its operations leave, and those that the operations at the top leave, in the order in
which they come. Where good heaps follow on good heaps at every step of an operation, all of these heaps
are good, and each of them leads to every later one.

* `Operation.returned`: the handle of the cell that an operation has made or found.
* `Moment`, `Program.chronicled`, `Chronicled`: runs in which everything is noted.
* `Reachable.chronicled`, `Chronicled.reachable`: this makes no other difference.
* `Course`: good heaps, and which of them may follow on which.
* `Course.alloc_noted`, `Course.lift_bufferResize`: the emergency passes on the way.
* `Course.Kept`: what has to be shown of the steps of operations.
* `Course.Kept.noted`: then this is what is to be said of a run.
-/

namespace CountedHeap

variable {σ α β : Type} {host : Host σ} {fuel : ℕ}

/-- The handle that an operation has returned, if it makes cells. -/
def Operation.returned : {β : Type} → Operation β → Except HeapError β → Option Handle
  | _, allocObject _, .ok r => some r
  | _, allocArray _, .ok r => some r
  | _, allocEnvironment _, .ok r => some r
  | _, allocFunction _ _ _ _, .ok r => some r
  | _, allocNativeFunction _ _, .ok r => some r
  | _, allocBuffer _ _, .ok r => some r
  | _, allocBufferFrom _, .ok r => some r
  | _, allocThread _, .ok r => some r
  | _, intern _ _, .ok r => some r
  | _, _, _ => none

/-! ## What is noted -/

/-- A heap that a native function sees or that an operation leaves, and the handle that the operation
has returned, if it makes cells. -/
structure Moment where
  heap : Heap
  returned : Option Handle

/-- A program that notes every heap that it sees, and otherwise does the same. -/
def Program.chronicled (p : Program σ α) : Program (σ × List Moment) α :=
  .note (fun h => [⟨h, none⟩]) (p.logging fun op _ answer h' => [⟨h', op.returned answer⟩])

/-- A host whose native functions note every heap that they see. -/
def Host.chronicled (host : Host σ) : Host (σ × List Moment) :=
  fun id v => (host id v).chronicled

/-- The worlds that operations at the top lead to, with all that has been noted on the way. -/
inductive Chronicled (host : Host σ) : World (σ × List Moment) → Prop where
  | start (config : Config) (s : σ) : Chronicled host ⟨.empty config, s, [⟨.empty config, none⟩]⟩
  | perform {β : Type} {op : Operation β} {fuel : ℕ} {w w' : World (σ × List Moment)}
      {answer : Except HeapError β} :
      Chronicled host w → ((Engine.top host.chronicled fuel).perform op).run w = some (answer, w') →
      Chronicled host ⟨w'.heap, w'.host.1, w'.host.2 ++ [⟨w'.heap, op.returned answer⟩]⟩
  | host {w : World (σ × List Moment)} (s : σ) :
      Chronicled host w → Chronicled host ⟨w.heap, s, w.host.2⟩

theorem erases_chronicled : Host.Erases Prod.fst host.chronicled host := by
  intro E' E h id v w
  have hlogged : Host.Erases Prod.fst
      (host.logging fun op _ answer h' => [(⟨h', op.returned answer⟩ : Moment)]) host := erases_logging
  exact hlogged h id v ⟨w.heap, w.host.1, w.host.2 ++ [⟨w.heap, none⟩]⟩

/-- Without the notes, a run of which everything is noted is a run like any other. -/
theorem Chronicled.reachable {w : World (σ × List Moment)} (hw : Chronicled host w) :
    Reachable host (w.erase Prod.fst) := by
  induction hw with
  | start config s => exact .start config s
  | @perform β op fuel w w' answer _ e ih =>
    have hrun := ((erases_top erases_chronicled).perform op).run e
    exact .perform ih hrun
  | host s _ ih => exact .host s ih

/-- Everything can be noted of any run. -/
theorem Reachable.chronicled {w : World σ} (hw : Reachable host w) :
    ∃ log, Chronicled host ⟨w.heap, w.host, log⟩ := by
  induction hw with
  | start config s => exact ⟨_, .start config s⟩
  | @perform β op fuel w w' answer _ e ih =>
    obtain ⟨log, hlog⟩ := ih
    obtain ⟨w'', e'', rfl⟩ := ((erases_top erases_chronicled).perform op).exists_run
      (w := ⟨w.heap, w.host, log⟩) e
    exact ⟨_, .perform hlog e''⟩
  | host s _ ih =>
    obtain ⟨log, hlog⟩ := ih
    exact ⟨log, .host s hlog⟩

/-- The world after an operation that is noted, or the same world if the bound is too low. -/
def chronicle (host : Host σ) (fuel : ℕ) (op : Operation β) (w : World (σ × List Moment)) :
    World (σ × List Moment) :=
  match ((Engine.top host.chronicled fuel).perform op).run w with
  | some (answer, w') => ⟨w'.heap, w'.host.1, w'.host.2 ++ [⟨w'.heap, op.returned answer⟩]⟩
  | none => w

theorem Chronicled.next {w : World (σ × List Moment)} (hw : Chronicled host w) (fuel : ℕ)
    (op : Operation β) : Chronicled host (chronicle host fuel op w) := by
  unfold chronicle
  split
  · exact .perform hw ‹_›
  · exact hw

/-! ## Courses -/

/-- What holds of heaps, what each of them says about all later ones, and what is to be said of a handle
that is returned for a cell. -/
structure Course where
  good : Heap → Prop
  leads : Heap → Heap → Prop
  returns : Heap → Handle → Prop
  refl : ∀ h, leads h h
  trans : ∀ h h' h'', leads h h' → leads h' h'' → leads h h''

namespace Course

variable (K : Course)

/-- A change from good heaps to good heaps. -/
def Passes (h h' : Heap) : Prop :=
  K.good h → K.good h' ∧ K.leads h h'

variable {K} in
theorem Passes.refl {h : Heap} : K.Passes h h :=
  fun hg => ⟨hg, K.refl h⟩

variable {K} in
theorem Passes.trans {h h' h'' : Heap} (h₁ : K.Passes h h') (h₂ : K.Passes h' h'') :
    K.Passes h h'' := by
  intro hg
  obtain ⟨hg', hleads⟩ := h₁ hg
  obtain ⟨hg'', hleads'⟩ := h₂ hg'
  exact ⟨hg'', K.trans _ _ _ hleads hleads'⟩

variable {K} in
/-- Step by step. -/
theorem Passes.of_steps {step : Heap → Heap → Prop} (hstep : ∀ h h', step h h' → K.Passes h h')
    {h h' : Heap} (hs : Relation.ReflTransGen step h h') : K.Passes h h' := by
  induction hs with
  | refl => exact refl
  | tail _ hlast ih => exact ih.trans (hstep _ _ hlast)

/-- What has been noted is as it should be. -/
structure Noted (w : World (σ × List Moment)) : Prop where
  good : K.good w.heap
  each : ∀ m ∈ w.host.2, K.good m.heap ∧ ∀ r ∈ m.returned, K.returns m.heap r
  order : w.host.2.Pairwise fun m m' => K.leads m.heap m'.heap
  since : ∀ m ∈ w.host.2, K.leads m.heap w.heap

/-- The course goes on. -/
theorem Noted.go {K : Course} {w : World (σ × List Moment)} {h : Heap} (hw : K.Noted w)
    (hp : K.Passes w.heap h) : K.Noted ⟨h, w.host⟩ ∧ K.leads w.heap h := by
  obtain ⟨hgood, hleads⟩ := hp hw.good
  exact ⟨⟨hgood, hw.each, hw.order, fun m hm => K.trans _ _ _ (hw.since m hm) hleads⟩, hleads⟩

/-- Actions on a course. -/
def simulation (σ : Type) : Simulation (σ × List Moment) (σ × List Moment) where
  rel _ x := ∀ w, K.Noted w → After x w fun _ w' => K.Noted w' ∧ K.leads w.heap w'.heap
  step := K.Passes
  pure w hw := after_pure.mpr ⟨hw, K.refl _⟩
  bind := by
    intro α β _ x _ f hx hf w hw
    refine after_bind.mpr ((hx w hw).mono fun a w₁ hw₁ => ?_)
    exact (hf a w₁ hw₁.1).mono fun _ w₂ hw₂ => ⟨hw₂.1, K.trans _ _ _ hw₁.2 hw₂.2⟩
  change _ hf _ hw := after_change.mpr (hw.go (hf _))
  query _ w hw := after_query.mpr ⟨hw, K.refl _⟩
  fail hf _ hw := after_modifyHeap.mpr (hw.go (hf _))
  stop _ _ := after_none.mpr trivial

variable {K} in
theorem lift_iff {x' x : Attempt (σ × List Moment) α} : (K.simulation σ).Lift x' x ↔
    ∀ w, K.Noted w → Meets x w (fun _ w' => K.Noted w' ∧ K.leads w.heap w'.heap)
      fun _ w' => K.Noted w' ∧ K.leads w.heap w'.heap := by
  refine forall_congr' fun w => imp_congr_right fun _ => forall_congr' fun r => ?_
  cases r <;> exact Iff.rfl

/-! ### Room -/

section

variable {K} {E : Engine (σ × List Moment)} {w : World (σ × List Moment)} {b : Body} {r : Handle}
  {length : ℕ} (hE : (K.simulation σ).Agree E E)
include hE

/-- Room is made, whatever finalizers do meanwhile. -/
theorem reserve_room (hw : K.Noted w) (bytes : ℕ) : Meets (E.reserve bytes) w
    (fun _ w' => K.Noted w' ∧ K.leads w.heap w'.heap) fun _ w' =>
      (K.Noted w' ∧ K.leads w.heap w'.heap) ∧ w'.heap.arena.hasRoom bytes = true := by
  unfold Engine.reserve
  simp only [meets_bind, meets_surely, after_query]
  cases hroom : w.heap.arena.hasRoom bytes with
  | true =>
    simp only [Bool.not_true, Bool.false_eq_true, if_false, meets_pure]
    exact ⟨⟨hw, K.refl _⟩, hroom⟩
  | false =>
    simp only [Bool.not_false, if_true, meets_bind, meets_surely, after_query]
    refine (hE.collect _ w hw).mono fun _ w₁ hw₁ => ?_
    cases hroom₁ : w₁.heap.arena.hasRoom bytes with
    | true =>
      simp only [Bool.not_true, Bool.false_eq_true, if_false, meets_pure]
      exact ⟨hw₁, hroom₁⟩
    | false =>
      simp only [Bool.not_false, if_true, meets_refuse]
      exact hw₁

/-- A cell is placed when room has been made for it. -/
theorem alloc_noted (hw : K.Noted w) (hplace : ∀ h, K.leads w.heap h →
      h.arena.hasRoom b.size = true → K.Passes h (h.place b).1) :
    Meets (E.alloc b) w (fun _ w' => K.Noted w' ∧ K.leads w.heap w'.heap) fun r w' =>
      (K.Noted w' ∧ K.leads w.heap w'.heap) ∧ ∃ h, K.good h ∧ h.place b = (w'.heap, r) := by
  unfold Engine.alloc
  simp only [meets_bind, meets_surely, after_change]
  refine (reserve_room hE hw b.size).mono (fun _ _ hw₁ => hw₁) fun _ w₁ hw₁ => ?_
  obtain ⟨⟨hw₁, hleads⟩, hroom⟩ := hw₁
  obtain ⟨hw₂, hleads'⟩ := hw₁.go (hplace _ hleads hroom)
  exact ⟨⟨hw₂, K.trans _ _ _ hleads hleads'⟩, w₁.heap, hw₁.good, rfl⟩

/-- A buffer is resized when room has been made for it. -/
theorem lift_bufferResize (hresize : ∀ h₀ h c, K.leads h₀ h → h₀.buffer r = .ok c →
      h.isLive r = true → h.arena.canResize r.index (Body.cellBytes + length) = true →
      K.Passes h (h.resizeBuffer r length)) :
    (K.simulation σ).Lift (E.bufferResize r length) (E.bufferResize r length) := by
  refine lift_iff.mpr fun w hw => ?_
  have hstart : K.Noted w ∧ K.leads w.heap w.heap := ⟨hw, K.refl _⟩
  unfold Engine.bufferResize
  simp only [meets_bind, meets_surely, meets_check, after_query]
  refine ⟨fun _ _ => hstart, fun _ hdynamic => ?_⟩
  obtain ⟨c, hc, -⟩ := Heap.bind_eq_ok.mp hdynamic
  cases hroom : w.heap.arena.canResize r.index (Body.cellBytes + length) with
  | true =>
    simp only [Bool.not_true, Bool.false_eq_true, if_false, meets_surely, after_modifyHeap]
    exact hw.go (hresize _ _ c (K.refl _) hc (Heap.live_of_buffer hc) hroom)
  | false =>
    simp only [Bool.not_false, if_true, meets_bind, meets_surely, meets_check, after_query]
    refine (hE.collect _ w hw).mono fun _ w₁ hw₁ => ?_
    obtain ⟨hw₁, hleads⟩ := hw₁
    refine ⟨fun _ _ => ⟨hw₁, hleads⟩, fun cell hcell => ?_⟩
    cases hroom₁ : w₁.heap.arena.canResize r.index (Body.cellBytes + length) with
    | true =>
      simp only [Bool.not_true, Bool.false_eq_true, if_false, meets_surely, after_modifyHeap]
      have hlive : w₁.heap.isLive r = true := by
        unfold Heap.cell at hcell
        cases hget : w₁.heap.arena.get? r with
        | none => simp [hget] at hcell
        | some c => exact (Arena.holds_of_get? hget).isLive
      obtain ⟨hw₂, hleads'⟩ := hw₁.go (hresize _ _ c hleads hc hlive hroom₁)
      exact ⟨hw₂, K.trans _ _ _ hleads hleads'⟩
    | false =>
      simp only [Bool.not_false, if_true, meets_bind, meets_refuse]
      exact ⟨hw₁, hleads⟩

end

/-! ### All that is noted -/

/-- Something more is noted. -/
theorem Noted.note {K : Course} {w : World (σ × List Moment)} {r : Option Handle} (hw : K.Noted w)
    (hr : ∀ q ∈ r, K.returns w.heap q) :
    K.Noted ⟨w.heap, w.host.1, w.host.2 ++ [⟨w.heap, r⟩]⟩ := by
  refine ⟨hw.good, fun m hm => ?_, ?_, fun m hm => ?_⟩
  · rcases List.mem_append.mp hm with hm | hm
    · exact hw.each m hm
    · obtain rfl := List.mem_singleton.mp hm
      exact ⟨hw.good, hr⟩
  · refine List.pairwise_append.mpr ⟨hw.order, List.pairwise_singleton _ _, fun m hm m' hm' => ?_⟩
    obtain rfl := List.mem_singleton.mp hm'
    exact hw.since m hm
  · rcases List.mem_append.mp hm with hm | hm
    · exact hw.since m hm
    · obtain rfl := List.mem_singleton.mp hm
      exact K.refl _

/-- What has to be shown of the steps of operations. -/
structure Kept : Prop where
  empty : ∀ config, K.good (.empty config)
  withers : ∀ h h', Heap.Withers h h' → K.Passes h h'
  shifts : ∀ h h', Heap.Shifts h h' → K.Passes h h'
  flag : ∀ (h : Heap) b, K.Passes h { h with draining := b }
  reroots : ∀ (h : Heap) values free, K.Passes h { h with roots := values, freeRoots := free }
  rekey : ∀ (h : Heap) key, K.Passes h { h with finalizerKey := some key }
  makes : ∀ {σ : Type} {E : Engine (σ × List Moment)}, (K.simulation σ).Agree E E →
    (K.simulation σ).Makes E E
  returned : ∀ {σ : Type} {E : Engine (σ × List Moment)}, (K.simulation σ).Agree E E →
    ∀ {β : Type} (op : Operation β) (w : World (σ × List Moment)), K.Noted w →
      After (E.perform op).run w fun answer w' => ∀ r ∈ op.returned answer, K.returns w'.heap r

namespace Kept

variable {K} {E : Engine (σ × List Moment)}

/-- Operations go on with the course. -/
theorem perform (hK : K.Kept) (h : (K.simulation σ).Agree E E) (op : Operation β) :
    (K.simulation σ).Lift (E.perform op) (E.perform op) := by
  have hshifting : (K.simulation σ).Shifting := hK.shifts
  have hrooting : (K.simulation σ).Rooting := by
    intro h h' hr
    refine .of_steps (fun h h' hr => ?_) hr
    cases hr with
    | touch ht => exact hK.shifts _ _ (.single (.touch ht))
    | roots values free => exact hK.reroots _ values free
  exact h.perform (hK.makes h) hshifting.touching op (fun _ => hrooting) (fun _ => hK.rekey) fun hop =>
    h.switch hshifting hop

/-- Native functions that note what they see go on with it as well. -/
theorem run (hK : K.Kept) (h : (K.simulation σ).Agree E E) (p : Program σ α) :
    (K.simulation σ).rel (p.chronicled.run E.perform) (p.chronicled.run E.perform) := by
  have hlogging : ∀ p : Program σ α, ∀ w, K.Noted w →
      After ((p.logging fun op _ answer h' => [(⟨h', op.returned answer⟩ : Moment)]).run E.perform) w
        fun _ w' => K.Noted w' ∧ K.leads w.heap w'.heap := by
    intro p
    induction p with
    | done a => exact fun w hw => after_pure.mpr ⟨hw, K.refl _⟩
    | perform op next ih =>
      intro w hw a w'' e
      simp only [Program.logging, Program.run] at e
      cases hrun : (E.perform op).run w with
      | none => simp [hrun] at e
      | some p =>
        obtain ⟨answer, w'⟩ := p
        rw [hrun] at e
        obtain ⟨hw', hleads⟩ := hK.perform h op w hw answer w' hrun
        have hnoted := hw'.note (hK.returned h op w hw answer w' hrun)
        obtain ⟨hw'', hleads'⟩ := ih answer _ hnoted a w'' e
        exact ⟨hw'', K.trans _ _ _ hleads hleads'⟩
    | readHeap next ih => exact fun w hw => ih w.heap w hw
    | readHost next ih => exact fun w hw => ih w.host.1 w hw
    | modifyHost f next ih =>
      exact fun w hw => ih () ⟨w.heap, f w.host.1, w.host.2⟩ ⟨hw.good, hw.each, hw.order, hw.since⟩
  intro w hw a w' e
  have hseen : K.Noted ⟨w.heap, w.host.1, w.host.2 ++ [⟨w.heap, none⟩]⟩ :=
    hw.note fun _ hq => absurd hq (Option.not_mem_none _)
  exact hlogging p _ hseen a w' e

/-- That engines are related says something of the second one only. -/
theorem agree_self {E' : Engine (σ × List Moment)} (h : (K.simulation σ).Agree E' E) :
    (K.simulation σ).Agree E E :=
  ⟨h.release, h.collect, rfl⟩

/-- The engine at the top keeps to the course. -/
theorem agree (hK : K.Kept) : (K.simulation σ).Agree (Engine.top host.chronicled fuel)
    (Engine.top host.chronicled fuel) := by
  have hwithering : (K.simulation σ).Withering := hK.withers
  have hfin : (K.simulation σ).Finalizes .plain .plain host.chronicled host.chronicled :=
    fun _ _ h _ _ => hwithering.runFinalizer fun _ _ => hK.run (agree_self h) _
  have hdrain : (K.simulation σ).rel (Engine.top host.chronicled fuel).drain
      (Engine.top host.chronicled fuel).drain := Simulation.rel_drain hwithering hfin hK.flag
  exact Simulation.agree_top hwithering hfin hdrain

/-- In a run of which everything is noted, all heaps are good, each leads to the later ones, and what is
returned for a cell is as it should be. -/
theorem noted (hK : K.Kept) {w : World (σ × List Moment)} (hw : Chronicled host w) : K.Noted w := by
  induction hw with
  | start config s =>
    refine ⟨hK.empty config, fun m hm => ?_, List.pairwise_singleton _ _, fun m hm => ?_⟩
    · obtain rfl := List.mem_singleton.mp hm
      exact ⟨hK.empty config, fun _ hr => absurd hr (Option.not_mem_none _)⟩
    · obtain rfl := List.mem_singleton.mp hm
      exact K.refl _
  | perform _ e ih =>
    exact (hK.perform hK.agree _ _ ih _ _ e).1.note (hK.returned hK.agree _ _ ih _ _ e)
  | host s _ ih => exact ⟨ih.good, ih.each, ih.order, ih.since⟩

end Kept

end Course

end CountedHeap
