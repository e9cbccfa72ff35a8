import CountedHeap.Proofs.Acyclic
import CountedHeap.Proofs.Collection
import CountedHeap.Proofs.Heap.Withers
import CountedHeap.Proofs.Order

/-!
# What a tracing pass spares

A pass frees garbage before it runs finalizers. From then on it frees no composite cell, whatever the
finalizers do: a count that goes to zero is left to the end of the pass, which queues the cell.

* `Engine.watching`: the engine within a pass, which takes note when the queue is to be worked off.
* `Sweeping`: the positions of a pass that looks for the next finalizer, with every heap that was seen.
* `Sweeping.invariant`: what a step from one position to the next preserves.
* `pass_spares_composites`: only garbage is freed, nothing else is begun meanwhile, and cells left at
  zero are queued.
-/

namespace CountedHeap

namespace Heap

open Arena (Composite Marked)

variable {h h' h'' : Heap} {r q : Handle} {i : ℕ} {o : PassOptions}

theorem lasting_spares (h : Heap) : Lasting (Spares h) where
  yielding h₁ h₂ hl hs r hr :=
    (lasting_standing [r]).yielding h₁ h₂ hl (fun q hq => by
      rw [List.mem_singleton.mp hq]
      exact hs r hr) r (by simp)
  of_core h₁ h₂ hc hstrings hs r hr :=
    (lasting_standing [r]).of_core h₁ h₂ hc hstrings (fun q hq => by
      rw [List.mem_singleton.mp hq]
      exact hs r hr) r (by simp)

/-- Within a pass no release queues a cell. -/
theorem release_within (hsweep : h.sweeping = true) : (h.release r).2 = false := by
  rcases h.release_cases r with ⟨-, he⟩ | ⟨n, b, -, ⟨-, he⟩ | ⟨-, -, _, _, _, he⟩ |
    ⟨-, -, hnot, -, -⟩⟩
  · rw [he]
  · rw [he]
  · rw [he]
  · rw [hnot] at hsweep
    cases hsweep

/-! ## What a pass frees at first -/

/-- The lists when a pass has swept. -/
theorem Sound.beginPass (hs : h.Sound) : (h.beginPass o).1.Sound ∧
    (h.beginPass o).1.arena.members .queue = h.arena.members .queue ∧
    ∀ i, i ∈ (h.beginPass o).1.arena.members .allocated ↔
      i ∈ h.arena.members .allocated ∧ i ∉ h.garbage o := by
  have hmarked : Kept False (fun _ => True) (h.toSweep o) 0 :=
    Kept.toSweep (P := fun _ => True) ⟨hs, trivial, False.elim⟩
  obtain ⟨hsound, hqueue, halloc⟩ := hmarked.sound.sweep sweeping_toSweep (nodup_garbage hs)
    fun _ => allocated_of_garbage (o := o) hs
  rw [members_toSweep hs] at hqueue halloc
  rw [beginPass_eq]
  dsimp only
  split
  · exact ⟨⟨hsound.arena, hsound.freeRoots, hsound.rootsFree⟩, hqueue, halloc⟩
  · exact ⟨hsound, hqueue, halloc⟩

/-- The composite cells that are there when a pass has swept are those that were not garbage. -/
theorem composite_beginPass_iff (hs : h.Sound) (hr : h.arena.Composite r) :
    (h.beginPass o).1.arena.Composite r ↔ r.index ∉ h.garbage o := by
  obtain ⟨hsound, hqueue, halloc⟩ := hs.beginPass (o := o)
  constructor
  · rintro ⟨n, b, hb, -⟩ hi
    have hdead := dead_of_garbage hs hr hi
    rw [show (h.beginPass o).1.isLive r = true from hb.isLive] at hdead
    cases hdead
  · intro hi
    obtain ⟨n, b, hb, hcomp⟩ := id hr
    have hlisted : ∃ ch, r.index ∈ (h.beginPass o).1.arena.members ch := by
      obtain ⟨ch, hch⟩ := hs.arena.mem_of_cell hb hcomp
      cases ch with
      | allocated => exact ⟨_, (halloc _).mpr ⟨hch, hi⟩⟩
      | queue => exact ⟨_, hqueue.symm ▸ hch⟩
    obtain ⟨ch, hch⟩ := hlisted
    have hcell := hsound.arena.cell_of_mem hch
    rwa [Shrinks.beginPass.handleAt_eq hsound hch, hb.handleAt] at hcell

/-- What a cell with a pending finalizer owns, at once or over other cells, is not garbage. -/
theorem not_garbage_of_owned (hs : h.Sound) (hi : i ∈ h.pendingCells o)
    (hq : Relation.ReflTransGen h.Owns (h.arena.handleAt i) q) :
    h.arena.Composite q ∧ q.index ∉ h.garbage o := by
  have hmarked : h.arena.Composite q ∧ (h.toSweep o).arena.Marked q.index := by
    induction hq with
    | refl =>
      obtain ⟨hmem, hmark⟩ := marked_of_pending hs hi
      exact ⟨hs.arena.cell_of_mem hmem, hmark⟩
    | @tail p q _ ho ih =>
      obtain ⟨n, b, hp, hqb, hq⟩ := ho
      have halike : Arena.Alike h.arena (h.toSweep o).arena := alike_toSweep
      refine ⟨hq, (closed_toSweep p n b (halike.holds.mpr hp) ih.2 q (Body.mem_tracedRefs hqb)
        (halike.composite.mpr hq)).resolve_right (by simp)⟩
  exact ⟨hmarked.1, fun hG => ((mem_garbage hs).mp hG).2 hmarked.2⟩

/-! ## What finalizers see -/

/-- A pass queues the allocated cells that nothing counts. -/
theorem mem_zeroCounts_iff (hs : h.Sound) : i ∈ h.zeroCounts ↔
    i ∈ h.arena.members .allocated ∧ h.arena.counted (h.arena.handleAt i) = 0 := by
  refine ⟨mem_zeroCounts, fun ⟨hi, hzero⟩ => ?_⟩
  obtain ⟨n, b, hb, -⟩ := hs.arena.cell_of_mem hi
  obtain ⟨c, hc, hn, -⟩ := hb.get?
  have hcell : h.arena.cellAt? i = some c := Arena.cellAt?_of_get? hc
  rw [hb.counted] at hzero
  unfold zeroCounts
  refine List.mem_filter.mpr ⟨hi, ?_⟩
  rw [hcell]
  simpa [hn] using hzero

/-- The finalizer that a pass finds for a cell that it has set aside, when the turn of the cell comes. -/
def dueFinalizer (h : Heap) (i : ℕ) : Option (Handle × Finalizer) :=
  (h.arena.cellAt? i).bind fun _ =>
    (h.resolveFinalizer (h.arena.handleAt i)).map (h.arena.handleAt i, ·)

theorem handleAt_of_due {f : Finalizer} (hfound : h.dueFinalizer i = some (r, f)) :
    r = h.arena.handleAt i := by
  obtain ⟨c, -, hf⟩ := Option.bind_eq_some_iff.mp hfound
  obtain ⟨f', -, he⟩ := Option.map_eq_some_iff.mp hf
  cases he
  rfl

/-- The notes of a pass tell of heaps only, from a first one on. In all of them the pass was under way and
the queue was the same, and none of their composite cells has been freed since. -/
def Witnesses (x : Heap) (queue : List ℕ) (notes : List (Option Heap)) (h : Heap) : Prop :=
  ∃ seen : List Heap, notes = (x :: seen).map some ∧ (x :: seen).Pairwise Spares ∧
    ∀ y ∈ x :: seen, Spares y h ∧ y.sweeping = true ∧ y.arena.members .queue = queue

variable {x : Heap} {queue K : List ℕ} {notes : List (Option Heap)}

theorem lasting_witnesses (x : Heap) (queue : List ℕ) (notes : List (Option Heap)) :
    Lasting (Witnesses x queue notes) where
  yielding h₁ h₂ hl := fun ⟨seen, hn, hp, hall⟩ => ⟨seen, hn, hp, fun y hy =>
    ⟨(lasting_spares y).yielding h₁ h₂ hl (hall y hy).1, (hall y hy).2⟩⟩
  of_core h₁ h₂ hc hstrings := fun ⟨seen, hn, hp, hall⟩ => ⟨seen, hn, hp, fun y hy =>
    ⟨(lasting_spares y).of_core h₁ h₂ hc hstrings (hall y hy).1, (hall y hy).2⟩⟩

theorem witnesses_first (hl : WithinPass queue K x) : Witnesses x queue [some x] x := by
  refine ⟨[], rfl, List.pairwise_singleton _ _, fun y hy => ?_⟩
  rw [List.mem_singleton.mp hy]
  exact ⟨.refl, hl.1, hl.2.1⟩

/-- A heap is seen. -/
theorem Witnesses.look (hw : Witnesses x queue notes h) (hl : WithinPass queue K h) :
    Witnesses x queue (notes ++ [some h]) h := by
  obtain ⟨seen, rfl, hp, hall⟩ := hw
  refine ⟨seen ++ [h], by simp, ?_, ?_⟩
  · rw [← List.cons_append]
    refine List.pairwise_append.mpr ⟨hp, List.pairwise_singleton _ _, fun y hy z hz => ?_⟩
    rw [List.mem_singleton.mp hz]
    exact (hall y hy).1
  · intro y hy
    rw [← List.cons_append] at hy
    rcases List.mem_append.mp hy with hy | hy
    · exact hall y hy
    · rw [List.mem_singleton.mp hy]
      exact ⟨.refl, hl.1, hl.2.1⟩

/-- A pass is under way, and has freed no composite cell since it was in a first heap. -/
abbrev PassSpares (x : Heap) (queue K : List ℕ) (notes : List (Option Heap)) (h : Heap) : Prop :=
  WithinPass queue K h ∧ Witnesses x queue notes h

theorem yielding_passSpares (x : Heap) (queue K : List ℕ) (notes : List (Option Heap)) :
    Yielding (PassSpares x queue K notes) :=
  (yielding_withinPass queue K).and (lasting_witnesses x queue notes).yielding

end Heap

open Heap (Kept PassSpares Spares WithinPass Witnesses lasting_witnesses yielding_passSpares)

variable {σ : Type} {host : Host σ} {o : PassOptions} {w₀ : World σ} {x : Heap}
  {w : World (σ × List (Option Heap))} {queue K l : List ℕ} {i : ℕ} {r : Handle}
  {f : Heap.Finalizer}

/-! ## While finalizers run -/

/-- Within a pass, where a note is taken if the queue is to be worked off. -/
def Engine.watching : Engine (σ × List (Option Heap)) where
  drain := fun w => some ((), ⟨w.heap, w.host.1, w.host.2 ++ [none]⟩)
  collect _ := pure false
  slack := 0

/-- A native function is called within a pass, and takes note of every heap that it comes across. -/
def watch (host : Host σ) : Caller (σ × List (Option Heap)) :=
  Engine.watching.caller (host.noting fun h => [some h])

/-- What is watched is what happens without notes. -/
theorem watch_erase (id : NativeId) (v : Value) :
    Erases Prod.fst (watch host id v) (Engine.inPass.caller host id v) := by
  have hengine : Engine.Erases Prod.fst (Engine.watching : Engine (σ × List (Option Heap)))
      Engine.inPass := ⟨fun _ => rfl, fun _ _ => rfl, rfl⟩
  exact hengine.run_noting (host id v)

/-- What holds while finalizers run, whatever they do. -/
abbrev Terms.sparing (σ : Type) (x : Heap) (queue K : List ℕ) : Terms (σ × List (Option Heap)) :=
  (Terms.lax (σ × List (Option Heap))).among (fun s => PassSpares x queue K s.2)
    fun s => (yielding_passSpares x queue K s.2).steady

theorem watching_keeps : Engine.watching.Keeps (Terms.sparing σ x queue K) where
  release w X r hk := by
    obtain ⟨hs, hl⟩ := lax_holds_iff.mp hk
    have hrelease := hs.release (r := r)
    unfold Engine.release
    rw [after_bind, after_change, Heap.release_within hl.1.1, if_neg Bool.false_ne_true]
    exact after_pure.mpr ⟨lax_holds_iff.mpr ⟨hrelease.1, yielding_passSpares _ _ _ _ _ _ hrelease.2 hl⟩,
      fun h0 => hrelease.2.key.trans h0⟩
  collect _ _ _ hk := after_pure.mpr ⟨hk, id⟩

theorem watch_keeps : Caller.Keeps (watch host) (Terms.sparing σ x queue K) := by
  intro id v w X hk
  refine watching_keeps.run_lax (fun _ => not_false) (fun s h r hl => ?_) _
    (Program.loyal_noting (fun s h _ hP => ⟨hP.1, hP.2.look hP.1⟩) (fun _ _ _ hP => hP) _ _) hk
  exact ⟨hl.1, (lasting_witnesses x queue s.2).of_core h _ rfl rfl hl.2⟩

/-- The worlds in which a pass looks for the finalizer of the next cell that was set aside, with the
heaps that have been seen since it has swept, and the cells whose turn is still to come. -/
inductive Sweeping (host : Host σ) (o : PassOptions) (w₀ : World σ) :
    World (σ × List (Option Heap)) → List ℕ → Prop where
  | start : Sweeping host o w₀
      ⟨(w₀.heap.beginPass o).1, w₀.host, [some (w₀.heap.beginPass o).1]⟩
      (w₀.heap.beginPass o).2.pending
  | skip {w : World (σ × List (Option Heap))} {i : ℕ} {l : List ℕ} :
      Sweeping host o w₀ w (i :: l) → w.heap.dueFinalizer i = none → Sweeping host o w₀ w l
  | turn {w w' : World (σ × List (Option Heap))} {i : ℕ} {l : List ℕ} {r : Handle}
      {f : Heap.Finalizer} : Sweeping host o w₀ w (i :: l) → w.heap.dueFinalizer i = some (r, f) →
      runFinalizer (watch host) r f ⟨w.heap.beginFinalizer i, w.host⟩ = some ((), w') →
      Sweeping host o w₀ ⟨w'.heap.endFinalizer i, w'.host⟩ l

/-- What a step from one position of a pass to the next preserves. -/
theorem Sweeping.invariant (hs : w₀.heap.Sound) (hw : Sweeping host o w₀ w l) :
    (Terms.sparing σ (w₀.heap.beginPass o).1 (w₀.heap.arena.members .queue)
      (w₀.heap.pendingCells o)).Holds w 0 ∧ ∀ i ∈ l, i ∈ w₀.heap.pendingCells o := by
  induction hw with
  | start =>
    have hbegun : Kept False (WithinPass (w₀.heap.arena.members .queue) (w₀.heap.pendingCells o))
        (w₀.heap.beginPass o).1 0 :=
      Kept.beginPass (P := fun _ => True) ⟨hs, trivial, False.elim⟩
    exact ⟨lax_holds_iff.mpr ⟨hbegun.sound, hbegun.level, Heap.witnesses_first hbegun.level⟩,
      fun i hi => hi⟩
  | skip _ _ ih => exact ⟨ih.1, fun j hj => ih.2 j (List.mem_cons_of_mem _ hj)⟩
  | @turn w w' i l r f _ hfound e ih =>
    obtain ⟨hk, hl⟩ := ih
    refine ⟨?_, fun j hj => hl j (List.mem_cons_of_mem _ hj)⟩
    exact (watch_keeps.guarded (fun s => yielding_passSpares _ _ _ s.2) hk
      (fun s h _ hP => hP.1.2.2 i (hl i (by simp))) (Heap.handleAt_of_due hfound) () w' e).2

/-- A pass goes through all positions. -/
theorem runPending_sweeping (hw : Sweeping host o w₀ w l) :
    After (runPending (watch host) l) w fun _ w' => Sweeping host o w₀ w' [] := by
  induction l generalizing w with
  | nil => exact after_pure.mpr hw
  | cons i l ih =>
    unfold runPending
    rw [after_bind, after_query]
    split
    · rename_i hfound
      exact ih (hw.skip hfound)
    · rename_i r f hfound
      rw [after_bind, after_modifyHeap, after_bind]
      intro _ w' e
      rw [after_bind, after_modifyHeap, after_bind]
      exact (ih (hw.turn hfound e)).mono fun _ _ hw' => after_pure.mpr hw'

/-! ## All of a pass -/

/-- The state of a pass before it looks for the next finalizer. -/
structure Position (host : Host σ) (o : PassOptions) (w₀ : World σ)
    (w : World (σ × List (Option Heap))) (l : List ℕ) : Prop where
  /-- Notes were taken of heaps only: no release asked for the queue to be worked off. In all heaps seen
  the pass was under way, and from each to the next no composite cell was freed. -/
  notes : ∃ seen : List Heap, w.host.2 = seen.map some ∧ seen.head? = some (w₀.heap.beginPass o).1 ∧
    (seen ++ [w.heap]).Pairwise Spares ∧ ∀ h ∈ seen ++ [w.heap], h.sweeping = true ∧
      h.arena.members .queue = w₀.heap.arena.members .queue ∧ ∀ r, (h.release r).2 = false
  /-- The next finalizer is called with a cell that was set aside. This cell and all that it owned when
  the pass began are live. -/
  next : ∀ i rest r f, l = i :: rest → w.heap.dueFinalizer i = some (r, f) →
    r = w₀.heap.arena.handleAt i ∧ ∀ q, Relation.ReflTransGen w₀.heap.Owns r q →
      (w.heap.beginFinalizer i).isLive q = true

theorem Sweeping.position (hs : w₀.heap.Sound) (hw : Sweeping host o w₀ w l) :
    Position host o w₀ w l := by
  obtain ⟨hk, hl⟩ := hw.invariant hs
  obtain ⟨hsound, hpass, seen, hnotes, hpairs, hall⟩ := lax_holds_iff.mp hk
  refine ⟨⟨_, hnotes, rfl, List.pairwise_append.mpr ⟨hpairs, List.pairwise_singleton _ _, ?_⟩, ?_⟩, ?_⟩
  · intro y hy z hz
    rw [List.mem_singleton.mp hz]
    exact (hall y hy).1
  · intro h hh
    rcases List.mem_append.mp hh with hh | hh
    · exact ⟨(hall h hh).2.1, (hall h hh).2.2, fun r => Heap.release_within (hall h hh).2.1⟩
    · rw [List.mem_singleton.mp hh]
      exact ⟨hpass.1, hpass.2.1, fun r => Heap.release_within hpass.1⟩
  · rintro i rest r f rfl hfound
    have hspared : ∀ q, Relation.ReflTransGen w₀.heap.Owns (w₀.heap.arena.handleAt i) q →
        w.heap.arena.Composite q := by
      intro q hq
      obtain ⟨hcomp, hnot⟩ := Heap.not_garbage_of_owned hs (hl i (by simp)) hq
      exact (hall _ (by simp)).1 q ((Heap.composite_beginPass_iff hs hcomp).mpr hnot)
    obtain ⟨n, b, hb, -⟩ := hspared _ .refl
    have hr : r = w₀.heap.arena.handleAt i := (Heap.handleAt_of_due hfound).trans hb.handleAt
    refine ⟨hr, fun q hq => ?_⟩
    obtain ⟨m, c, hc, -⟩ := hspared q (hr ▸ hq)
    exact Arena.isLive_modifyAt.trans hc.isLive

/-- From the last position of a pass to the point where the cells that it has queued are worked off. -/
structure Requeues (w : World (σ × List (Option Heap))) (w₁ : World σ) : Prop where
  host : w₁.host = w.host.1
  ended : w₁.heap.sweeping = false
  spares : Spares w.heap w₁.heap
  /-- Cells left at zero are queued, behind those that are. -/
  queue : ∃ zero, w₁.heap.arena.members .queue = w.heap.arena.members .queue ++ zero ∧
    ∀ i, i ∈ zero ↔ i ∈ w.heap.arena.members .allocated ∧
      w.heap.arena.counted (w.heap.arena.handleAt i) = 0
  /-- No cell at zero is left behind. -/
  tight : w₁.heap.Tight

/-- A pass ends with the cells queued that finalizers have left at zero. -/
theorem requeues_finishPass {settled : Heap} {p : PassStart} {n : ℕ}
    (hk : (Terms.sparing σ x queue K).Holds w 0) (hr : Heap.Remarked w.heap settled) :
    Requeues w ⟨(settled.finishPass o p n).1, w.host.1⟩ ∧
      ((settled.finishPass o p n).2 = 0 →
        (settled.finishPass o p n).1.arena.members .queue = w.heap.arena.members .queue) := by
  obtain ⟨hsound, hpass, -⟩ := lax_holds_iff.mp hk
  have hsettled : Kept False (WithinPass queue K) settled 0 :=
    Kept.remark (Heap.yielding_withinPass queue K) ⟨hsound, hpass, False.elim⟩ hr
  have hmembers : settled.arena.members = w.heap.arena.members := hr.arena.members hsound.arena
  obtain ⟨hkept, htight, hcore⟩ := hsettled.finishPass (o := o) (p := p) (n := n)
  have hqueue : (settled.finishPass o p n).1.arena.members .queue =
      w.heap.arena.members .queue ++ settled.zeroCounts := by
    rw [hkept.level.2, hpass.2.1]
  refine ⟨⟨rfl, hkept.level.1, ?_, ⟨settled.zeroCounts, hqueue, fun i => ?_⟩, htight⟩, fun h0 => ?_⟩
  · exact Heap.Spares.of_core (hcore.trans hr.arena.core)
  · rw [Heap.mem_zeroCounts_iff hsettled.sound, hmembers, Arena.handleAt_congr hr.arena.core,
      Arena.counted_congr (congrFun hr.arena.core _)]
  · have hzero : settled.zeroCounts = [] := List.eq_nil_of_length_eq_zero h0
    rw [hqueue, hzero, List.append_nil]

/-- A pass frees garbage when it begins, and no other composite cell. Whatever the finalizers do that it
runs, they are called with live cells that own live cells. Meanwhile nothing is queued, no queue is worked off
and no other pass begins, and when all of them have run the cells left at zero are queued. -/
theorem pass_spares_composites (hs : w₀.heap.Sound) (o : PassOptions) :
    (∀ r, w₀.heap.arena.Composite r →
      ((w₀.heap.beginPass o).1.arena.Composite r ↔ r.index ∉ w₀.heap.garbage o)) ∧
    (∀ w l, Sweeping host o w₀ w l → Position host o w₀ w l) ∧
    (∀ o' w, (Engine.inPass : Engine σ).collect o' w = some (false, w)) ∧
    ∀ drain, After (pass (Engine.inPass.caller host) drain o) w₀ fun ran w₂ => ran = true ∧
      ∃ w w₁, Sweeping host o w₀ w [] ∧ Requeues w w₁ ∧
        (w₂ = w₁ ∧ w₁.heap.arena.members .queue = w.heap.arena.members .queue ∨
          drain w₁ = some ((), w₂)) := by
  refine ⟨fun r hr => Heap.composite_beginPass_iff hs hr, fun w l hw => hw.position hs,
    fun _ _ => rfl, fun drain => pass_ran.and ?_⟩
  have hbody : After (passBody (Engine.inPass.caller host) o) w₀ fun n w₁ =>
      ∃ w, Sweeping host o w₀ w [] ∧ Requeues w w₁ ∧
        (n = 0 → w₁.heap.arena.members .queue = w.heap.arena.members .queue) := by
    unfold passBody
    rw [after_bind, after_change, after_bind]
    have hstart : Sweeping host o w₀
        ⟨(w₀.heap.beginPass o).1, w₀.host, [some (w₀.heap.beginPass o).1]⟩
        (w₀.heap.beginPass o).2.pending := .start
    refine ((withering_erasing _).runPending fun _ _ =>
      (withering_erasing _).runFinalizer watch_erase).after
      ((runPending_sweeping hstart).mono fun n w hw => ?_)
    have hk := (hw.invariant hs).1
    dsimp only
    split
    · rw [after_bind, after_modifyHeap, after_change]
      exact ⟨w, hw, requeues_finishPass hk Heap.remarked_settle⟩
    · rw [after_change]
      exact ⟨w, hw, requeues_finishPass hk .refl⟩
  refine pass_after hbody ?_ ?_
  · rintro w₁ ⟨w, hw, hre, hidle⟩
    exact ⟨w, w₁, hw, hre, .inl ⟨rfl, hidle rfl⟩⟩
  · rintro n w₁ ⟨w, hw, hre, -⟩ _ w₂ e
    exact ⟨w, w₁, hw, hre, .inr e⟩

/-- The host whose native functions cut a property off an object and ask for a pass. -/
def Host.cutting (holder key : Handle) : Host σ :=
  fun _ _ => .perform (.deleteProp holder key) fun _ => .perform (.collect {}) fun _ =>
    .done .returned

/-- Two objects that refer to each other, the first of which has a finalizer, and a third that refers to
itself. The client has dropped all of them. -/
def ringed : World Unit :=
  let host := Host.cutting ⟨0, 0⟩ ⟨1, 0⟩
  let w := advance host 5 .registerNative ⟨.empty {}, ()⟩
  let w := advance host 5 (.allocObject none) w
  let w := advance host 5 (.intern "k" false) w
  let w := advance host 5 (.allocObject none) w
  let w := advance host 5 (.setFinalizer ⟨0, 0⟩ (.native ⟨0⟩)) w
  let w := advance host 5 (.allocObject none) w
  let w := advance host 5 (.putProp ⟨0, 0⟩ ⟨1, 0⟩ (.ref ⟨2, 0⟩)) w
  let w := advance host 5 (.putProp ⟨2, 0⟩ ⟨1, 0⟩ (.ref ⟨0, 0⟩)) w
  let w := advance host 5 (.putProp ⟨4, 0⟩ ⟨1, 0⟩ (.ref ⟨4, 0⟩)) w
  let w := advance host 5 (.release (.ref ⟨0, 0⟩)) w
  let w := advance host 5 (.release (.ref ⟨2, 0⟩)) w
  advance host 5 (.release (.ref ⟨4, 0⟩)) w

theorem sound_ringed : ringed.heap.Sound := by
  have hw : Reachable (Host.cutting ⟨0, 0⟩ ⟨1, 0⟩) ringed := by
    unfold ringed
    repeat' refine Reachable.advance ?_ _ _
    exact .start {} ()
  exact hw.sound.1

/-- The third object is garbage. The finalizer of the first one cuts the second one off, which stays
there and is queued in the end. -/
theorem pass_spares_composites_ringed : ringed.heap.Sound ∧ ringed.heap.garbage {} = [4] ∧
    ¬ (ringed.heap.beginPass {}).1.arena.Composite ⟨4, 0⟩ ∧
    (ringed.heap.beginPass {}).1.arena.Composite ⟨2, 0⟩ ∧
    ∃ w₂, pass (Engine.inPass.caller (Host.cutting ⟨0, 0⟩ ⟨1, 0⟩)) (pure ()) {} ringed =
        some (true, w₂) ∧ w₂.heap.queued = [⟨2, 0⟩] ∧
      ∃ w w₁, Sweeping (Host.cutting ⟨0, 0⟩ ⟨1, 0⟩) {} ringed w [] ∧
        Position (Host.cutting ⟨0, 0⟩ ⟨1, 0⟩) {} ringed w [] ∧ Requeues w w₁ ∧ w₂ = w₁ := by
  obtain ⟨hfreed, hposition, -, hpass⟩ :=
    @pass_spares_composites Unit (Host.cutting ⟨0, 0⟩ ⟨1, 0⟩) ringed sound_ringed {}
  have hgarbage : ringed.heap.garbage {} = [4] := by decide +kernel
  have hcomposite : ∀ i ∈ [2, 4], ringed.heap.arena.Composite ⟨i, 0⟩ := by
    have hcells : ∀ i ∈ [2, 4], ringed.heap.arena.handleAt i = ⟨i, 0⟩ ∧
        i ∈ ringed.heap.arena.members .allocated := by decide +kernel
    intro i hi
    exact (hcells i hi).1 ▸ sound_ringed.arena.cell_of_mem (hcells i hi).2
  obtain ⟨w₂, e, hqueued⟩ : ∃ w₂, pass (Engine.inPass.caller (Host.cutting ⟨0, 0⟩ ⟨1, 0⟩))
      (pure ()) {} ringed = some (true, w₂) ∧ w₂.heap.queued = [⟨2, 0⟩] := by
    have hran : (pass (Engine.inPass.caller (Host.cutting ⟨0, 0⟩ ⟨1, 0⟩)) (pure ()) {} ringed).map
        (fun x => (x.1, x.2.heap.queued)) = some (true, [⟨2, 0⟩]) := by decide +kernel
    obtain ⟨⟨ran, w₂⟩, e, he⟩ := Option.map_eq_some_iff.mp hran
    obtain ⟨rfl, hqueued⟩ := Prod.mk.injEq .. ▸ he
    exact ⟨w₂, e, hqueued⟩
  refine ⟨sound_ringed, hgarbage, fun hc => ?_, ?_, w₂, e, hqueued, ?_⟩
  · exact (hfreed _ (hcomposite 4 (by simp))).mp hc (by simp [hgarbage])
  · exact (hfreed _ (hcomposite 2 (by simp))).mpr (by simp [hgarbage])
  · obtain ⟨-, w, w₁, hw, hre, hsame | hdrain⟩ := hpass (pure ()) true w₂ e
    · exact ⟨w, w₁, hw, hposition w [] hw, hre, hsame.1⟩
    · obtain rfl : w₁ = w₂ := congrArg Prod.snd (Option.some.inj hdrain)
      exact ⟨w, w₁, hw, hposition w [] hw, hre, rfl⟩

end CountedHeap
