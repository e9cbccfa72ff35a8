import CountedHeap.Proofs.Finality.Recording
import CountedHeap.Proofs.Heap.Aloof

/-!
# What is recorded while finalizers are silent

Where counts are exact and no finalized cell is in use, silent drains and passes run each finalizer in
time, and free each cell in time. Afterwards no finalized cell is in use either. A pass that does not
skip finalizers leaves no cell out of use whose finalizer has not run.

* `Caller.Mute`: calls leave the heap and the record alone.
* `Recorded`: the record tells which cells have been finalized, and none of them is in use.
* `Heap.Spent`: what was out of use has been finalized, or has no finalizer.
* `settleRecorded_quiet`, `drainRecorded_quiet`: turns of a drain, and all of it.
* `bodyRecorded_quiet`: a pass.
* `recorded_drain_quiet`, `recorded_collect_quiet`: drains and passes at the top.
-/

namespace CountedHeap

open Heap (Ages Dwindles Fades Fading Kept OutsidePass AtRest Remarked Shrinks Withers)

variable {σ : Type} {host : Host σ} {call : Caller (σ × List Event)} {w : World (σ × List Event)}
  {X : Multiset Handle} {i j n fuel : ℕ} {l : List ℕ} {o : PassOptions} {r q : Handle}
  {f : Heap.Finalizer} {h h' : Heap} {g : Counters → Counters}

@[simp] theorem after_record {look : Heap → List Event}
    {Q : Unit → World (σ × List Event) → Prop} :
    After (record look) w Q ↔ Q () ⟨w.heap, w.host.1, w.host.2 ++ look w.heap⟩ :=
  after_jot

/-! ## Finalizers that leave the record alone -/

/-- Calls of native functions end, and leave the heap and the record alone. -/
def Caller.Mute (call : Caller (σ × List Event)) : Prop :=
  ∀ id v w, ∃ ending s, call id v w = some (ending, ⟨w.heap, s, w.host.2⟩)

theorem Program.Silent.run_recorded {α : Type} {p : Program σ α} (hp : p.Silent)
    (E : Engine (σ × List Event)) (w : World (σ × List Event)) :
    ∃ a s, (p.noting fun _ => []).run E.perform w = some (a, ⟨w.heap, s, w.host.2⟩) := by
  obtain ⟨h, s, l⟩ := w
  induction p generalizing s with
  | done a => exact ⟨a, s, by simp [Program.noting, Program.note, Program.run]⟩
  | perform op next ih => exact hp.elim
  | readHeap next ih => simpa [Program.noting, Program.note, Program.run] using ih h (hp h) s
  | readHost next ih => simpa [Program.noting, Program.note, Program.run] using ih s (hp s) s
  | modifyHost f next ih => simpa [Program.noting, Program.note, Program.run] using ih () hp (f s)

theorem Host.Silent.mute (hh : host.Silent) (E : Engine (σ × List Event)) :
    Caller.Mute (E.caller host.recorded) :=
  fun id v w => (hh id v).run_recorded E w

theorem Caller.Mute.silent (hcall : Caller.Mute call) : call.Silent := by
  intro id v w
  obtain ⟨ending, s, he⟩ := hcall id v w
  exact ⟨ending, _, he⟩

theorem Caller.Mute.after (hcall : Caller.Mute call) {id : NativeId} {v : Value} :
    After (call id v) w fun _ w' => w'.host.2 = w.host.2 := by
  obtain ⟨ending, s, he⟩ := hcall id v w
  intro a w' e
  rw [he] at e
  cases e
  rfl

/-- A finalizer that leaves everything alone is only counted. -/
theorem runFinalizer_mute (hcall : Caller.Mute call) :
    After (runFinalizer call r f) w fun _ w' =>
      (∃ g, w'.heap = w.heap.modifyCounters g) ∧ w'.host.2 = w.host.2 := by
  refine (runFinalizer_silent hcall.silent).and ?_
  have hrest : ∀ w' : World (σ × List Event), w'.host.2 = w.host.2 → ∀ ending : Ending,
      After (if ending ≠ .returned then modifyHeap (·.modifyCounters fun c =>
        { c with finalizerErrors := c.finalizerErrors + 1 }) else pure ()) w'
        fun _ w'' => w''.host.2 = w.host.2 := by
    intro w' hw ending
    split
    · exact after_modifyHeap.mpr hw
    · exact after_pure.mpr hw
  unfold runFinalizer
  rw [after_bind, after_modifyHeap, after_bind, after_query]
  split
  · rw [after_bind]
    exact hcall.after.mono fun ending w' hw => hrest w' hw ending
  · rw [after_bind, after_pure]
    refine hrest _ ?_ _
    rfl

namespace Heap

/-- The heap after a finalizer has run that leaves everything alone. -/
def served (h : Heap) (i : ℕ) (g : Counters → Counters) : Heap :=
  ((h.beginFinalizer i).modifyCounters g).endFinalizer i

theorem remarked_served : Remarked h (h.served i g) :=
  remarked_guarded

theorem withers_served : Withers h (h.served i g) :=
  (Withers.beginFinalizer.trans .modifyCounters).trans .endFinalizer

theorem ran_served (hi : h.arena.Composite (h.arena.handleAt i)) :
    (h.served i g).arena.ran = Function.update h.arena.ran i true := by
  have hbegun : (h.beginFinalizer i).arena.ran = Function.update h.arena.ran i true := by
    obtain ⟨n, b, hb, -⟩ := hi
    obtain ⟨c, hc, -⟩ := hb.get?
    rw [Arena.get?_handleAt] at hc
    unfold beginFinalizer modifyAt modifyArena
    dsimp only
    rw [Arena.ran_setFinalized (v := true) fun _ => rfl, hc]
    rfl
  have hended : (h.served i g).arena.ran = (h.beginFinalizer i).arena.ran :=
    Arena.ran_modifyAt (a := (h.beginFinalizer i).arena) (f := (·.modifyHeader .release))
      fun _ => rfl
  exact hended.trans hbegun

/-- The cell whose finalizer has run is finalized. -/
theorem finalized_served (hi : h.arena.Composite (h.arena.handleAt i)) :
    (h.served i g).arena.Finalized q ↔ h.arena.Finalized q ∨ q = h.arena.handleAt i := by
  unfold Arena.Finalized
  rw [remarked_served.arena.composite, ran_served hi]
  by_cases hq : q.index = i
  · subst hq
    rw [Function.update_self]
    constructor
    · rintro ⟨⟨n, b, hb, -⟩, -⟩
      exact .inr hb.handleAt.symm
    · rintro (⟨hq, -⟩ | hq)
      · exact ⟨hq, rfl⟩
      · exact ⟨hq ▸ hi, rfl⟩
  · rw [Function.update_of_ne hq]
    refine (or_iff_left ?_).symm
    rintro rfl
    exact hq rfl

theorem ages_served (hi : h.arena.Composite (h.arena.handleAt i)) : Ages h (h.served i g) :=
  ⟨remarked_served.shrinks, fun _ hq _ => (finalized_served hi).mpr (.inl hq)⟩

/-! ## Turns of a drain -/

/-- A cell that leaves the queue for good is the only composite cell that is freed. -/
theorem composite_leaveQueue (hs : h.Sound) (hr : h.arena.Composite r) :
    (h.leaveQueue r.index false).1.arena.Composite q ↔ h.arena.Composite q ∧ q ≠ r := by
  obtain ⟨n, b, hr, hcomp⟩ := hr
  have hloose : Loose (h.evict r.index) ((h.evict r.index).releaseQuietly b.refs) :=
    (hs.evict hr hcomp).1.releaseQuietly.2
  rw [leaveQueue_false hr]
  constructor
  · intro hq
    have hevicted : (h.evict r.index).arena.Composite q := Shrinks.releaseQuietly.composite hq
    obtain ⟨m, c, hc, hcomp'⟩ := hevicted
    unfold Arena.Holds at hc
    rw [core_evict hr] at hc
    by_cases hi : q.index = r.index
    · rw [hi, Function.update_self] at hc
      simp at hc
    · rw [Function.update_of_ne hi] at hc
      exact ⟨⟨m, c, hc, hcomp'⟩, fun he => hi (he ▸ rfl)⟩
  · rintro ⟨⟨m, c, hc, hcomp'⟩, hne⟩
    refine hloose.cells q m c ?_ hcomp' |>.imp fun k => fun ⟨d, hd, hcd⟩ => ⟨d, hd, hcd⟩
    unfold Arena.Holds
    rw [core_evict hr, Function.update_of_ne fun hi => hne (hc.eq_of_index hr hi)]
    exact hc

theorem Remarked.sound (hr : Remarked h h') (hs : h.Sound) : h'.Sound :=
  (Kept.remark (s := False) (X := 0) (fun _ _ _ _ => trivial) ⟨hs, trivial, False.elim⟩ hr).sound

/-- What a turn of a drain does to marks. -/
theorem Dwindles.settled (hs : h.Sound) (hr : h.arena.Composite r) (hremarked : Remarked h h')
    (hwithers : Withers h h') (hran : ∀ j ≠ r.index, h'.arena.ran j = h.arena.ran j) :
    Dwindles h (h'.leaveQueue r.index false).1 ∧ ∀ q,
      (h'.leaveQueue r.index false).1.arena.Finalized q ↔ h.arena.Finalized q ∧ q ≠ r := by
  have hleft : ∀ q, (h'.leaveQueue r.index false).1.arena.Composite q ↔
      h.arena.Composite q ∧ q ≠ r := fun q => by
    rw [composite_leaveQueue (hremarked.sound hs) (hremarked.arena.composite.mpr hr),
      hremarked.arena.composite]
  have hother : ∀ q, h.arena.Composite q → q ≠ r → q.index ≠ r.index := by
    rintro q ⟨n, b, hq, -⟩ hne hi
    obtain ⟨m, c, hr, -⟩ := hr
    exact hne (hq.eq_of_index hr hi)
  have hdwindles : Dwindles h (h'.leaveQueue r.index false).1 := by
    refine .of_withers (hwithers.trans .leaveQueue) fun q hq => ?_
    obtain ⟨hcomp, hne⟩ := (hleft q).mp hq
    exact (Dwindles.leaveQueue.ran q hq).trans (hran _ (hother q hcomp hne))
  refine ⟨hdwindles, fun q => ?_⟩
  rw [hdwindles.finalized_iff, hleft]
  exact ⟨fun hq => ⟨hq.1, hq.2.2⟩, fun hq => ⟨hq.1, hq.1.1, hq.2⟩⟩

end Heap

/-! ## What the record tells -/

/-- Since a moment the record has gone on, and it tells of every composite cell that was there then and
has gone. -/
def Complete (h₀ : Heap) (before : List Event) (h : Heap) (now : List Event) : Prop :=
  ∃ later, now = before ++ later ∧ ∀ r, h₀.arena.Composite r →
    h.arena.Composite r ∨ ∃ due, Event.freed r due ∈ later

/-- The record is complete and tells which cells have been finalized, and none of them is in use. -/
structure Recounted (h₀ : Heap) (before : List Event) (w : World (σ × List Event))
    (X : Multiset Handle) : Prop where
  aloof : w.heap.Aloof X
  told : Told w.host.2 w.heap.arena.Finalized
  complete : Complete h₀ before w.heap w.host.2

section

variable {h₀ : Heap} {before now later : List Event} {s : σ}

theorem Complete.refl : Complete h now h now :=
  ⟨[], (List.append_nil now).symm, fun _ hr => .inl hr⟩

/-- Cells go, and the record with it. -/
theorem Complete.free (hc : Complete h₀ before h now)
    (hgone : ∀ r, h.arena.Composite r → h'.arena.Composite r ∨ ∃ due, Event.freed r due ∈ later) :
    Complete h₀ before h' (now ++ later) := by
  obtain ⟨since, rfl, hsince⟩ := hc
  refine ⟨since ++ later, List.append_assoc _ _ _, fun r hr => ?_⟩
  rcases hsince r hr with hr | ⟨due, hr⟩
  · refine (hgone r hr).imp_right ?_
    rintro ⟨due, hdue⟩
    exact ⟨due, List.mem_append_right _ hdue⟩
  · exact .inr ⟨due, List.mem_append_left _ hr⟩

/-- Changes in which no composite cell goes. -/
theorem Complete.keep (hc : Complete h₀ before h now)
    (hkept : ∀ r, h.arena.Composite r → h'.arena.Composite r) : Complete h₀ before h' now := by
  have hfree : Complete h₀ before h' (now ++ []) := hc.free fun r hr => .inl (hkept r hr)
  rwa [List.append_nil] at hfree

/-- Changes that neither free a composite cell nor finalize one. -/
theorem Recounted.dwindle (hr : Recounted h₀ before w X) (hd : Dwindles w.heap h)
    (hkept : ∀ r, w.heap.arena.Composite r → h.arena.Composite r) :
    Recounted h₀ before ⟨h, w.host⟩ X := by
  refine ⟨hd.aloof hr.aloof, hr.told.congr fun q => ?_, hr.complete.keep hkept⟩
  rw [hd.finalized_iff]
  exact and_iff_left_of_imp fun hq => hkept q hq.1

/-- What the client gives up puts no cell to use. -/
theorem Recounted.mono {Y : Multiset Handle} (hr : Recounted h₀ before w X) (hY : Y ≤ X) :
    Recounted h₀ before w Y :=
  ⟨fun r hran huse => hr.aloof r hran (huse.mono hY), hr.told, hr.complete⟩

/-- A cell is finalized that is out of use and has not been finalized. -/
theorem Recounted.finalize (hr : Recounted h₀ before w X)
    (hi : w.heap.arena.Composite (w.heap.arena.handleAt i))
    (hran : w.heap.arena.ran i = false) (hused : ¬ w.heap.InUse X (w.heap.arena.handleAt i)) :
    Recounted h₀ before
      ⟨w.heap.served i g, s, w.host.2 ++ [.finalized (w.heap.arena.handleAt i)]⟩ X := by
  refine ⟨fun q hq huse => ?_, hr.told.finalize ?_ fun q => Heap.finalized_served hi, ?_⟩
  · have huse := (Heap.ages_served hi).inUse huse
    rcases (Heap.finalized_served hi).mp hq with hq | rfl
    · exact hr.aloof q hq huse
    · exact hused huse
  · rintro ⟨-, hrun⟩
    rw [show w.heap.arena.ran (w.heap.arena.handleAt i).index = _ from hran] at hrun
    cases hrun
  · exact hr.complete.free fun q hq => .inl (Heap.remarked_served.arena.composite.mpr hq)

end

/-! ## Turns of a drain, with their record -/

namespace Heap

/-- The finalizer of the head runs if it has not run. -/
theorem ran_of_headFinalizer (hf : h.headFinalizer i = some f) : h.arena.ran i = false := by
  unfold headFinalizer at hf
  unfold Arena.ran
  cases hc : h.arena.cellAt? i with
  | none => rfl
  | some c =>
    simp only [hc] at hf
    split at hf
    · cases hf
    · rename_i hmark
      simpa using hmark

/-- It does not run again. -/
theorem ran_of_no_headFinalizer (hf : h.headFinalizer i = none)
    (hfound : h.hasFinalizer (h.arena.handleAt i) = true) : h.arena.ran i = true := by
  unfold headFinalizer at hf
  unfold Arena.ran
  unfold hasFinalizer at hfound
  cases hc : h.arena.cellAt? i with
  | none =>
    simp only [hc] at hf
    rw [hf] at hfound
    cases hfound
  | some c =>
    simp only [hc] at hf
    split at hf
    · assumption
    · rw [hf] at hfound
      cases hfound

end Heap

section

variable {h₀ : Heap} {before now : List Event} {s : σ} {due : Bool}

/-- A queued cell is freed, after its finalizer has run if this is due. -/
theorem Recounted.leaveQueue (hr : Recounted h₀ before w X) (hs : w.heap.Sound)
    (hcomp : w.heap.arena.Composite r) (hremarked : Remarked w.heap h)
    (hwithers : Withers w.heap h) (hran : ∀ j ≠ r.index, h.arena.ran j = w.heap.arena.ran j)
    (htold : Told now h.arena.Finalized) (hcomplete : Complete h₀ before w.heap now)
    (hdue : due = true → h.arena.Finalized r) :
    Recounted h₀ before ⟨(h.leaveQueue r.index false).1, s, now ++ [.freed r due]⟩ X ∧
      Ages w.heap (h.leaveQueue r.index false).1 := by
  obtain ⟨hd, -⟩ := Dwindles.settled hs hcomp hremarked hwithers hran
  obtain ⟨-, hleft⟩ := Dwindles.settled (hremarked.sound hs)
    (hremarked.arena.composite.mpr hcomp) Remarked.refl Withers.refl fun _ _ => rfl
  refine ⟨⟨hd.aloof hr.aloof, htold.free hdue hleft, hcomplete.free fun q hq => ?_⟩, hd.ages⟩
  by_cases he : q = r
  · subst he
    exact .inr ⟨due, List.mem_singleton.mpr rfl⟩
  · left
    rw [Heap.composite_leaveQueue (hremarked.sound hs) (hremarked.arena.composite.mpr hcomp)]
    exact ⟨hremarked.arena.composite.mpr hq, he⟩

/-- One turn of a silent drain frees the head of the queue, and records that it has been finalized if it
had to be. -/
theorem settleRecorded_quiet (hcall : Caller.Mute call) (hf : Fading True w.heap X)
    (hr : Recounted h₀ before w X) (hi : w.heap.arena.queue.head = some i) :
    After (settleRecorded call i) w fun _ w' =>
      (Fading True w'.heap X ∧ Recounted h₀ before w' X) ∧ Ages w.heap w'.heap := by
  have hs := hf.kept.sound
  have hmem := hf.mem_head hi
  have hcomp := hs.arena.cell_of_mem hmem
  unfold settleRecorded
  rw [after_bind, after_query]
  cases hfin : w.heap.headFinalizer i with
  | none =>
    simp only [after_bind, after_record, after_change]
    have hran : (!false && w.heap.hasFinalizer (w.heap.arena.handleAt i)) = true →
        w.heap.arena.Finalized (w.heap.arena.handleAt i) :=
      fun hdue => ⟨hcomp, Heap.ran_of_no_headFinalizer hfin hdue⟩
    obtain ⟨hrec, hages⟩ := hr.leaveQueue (s := w.host.1) hs hcomp .refl .refl (fun _ _ => rfl)
      hr.told hr.complete hran
    exact ⟨⟨(hf.leaveQueue_remarked hmem .refl).1, hrec⟩, hages⟩
  | some f =>
    obtain ⟨b, hzero⟩ := hf.head trivial hi
    simp only [after_bind, after_query, after_record, after_modifyHeap, after_change]
    refine (runFinalizer_mute hcall).mono ?_
    rintro _ w' ⟨⟨g, hw⟩, hhost⟩
    dsimp only at hw hhost
    rw [hw, Heap.endHeadFinalizer_guarded hzero, hhost]
    have hnot : ¬ w.heap.arena.Finalized (w.heap.arena.handleAt i) := fun hran =>
      Bool.false_ne_true ((Heap.ran_of_headFinalizer hfin).symm.trans hran.2)
    have hran : ∀ j ≠ i, (w.heap.served i g).arena.ran j = w.heap.arena.ran j := fun j hj => by
      rw [Heap.ran_served hcomp, Function.update_of_ne hj]
    have hdue : (!false && (w.heap.served i g).hasFinalizer (w.heap.arena.handleAt i)) = true →
        (w.heap.served i g).arena.Finalized (w.heap.arena.handleAt i) :=
      fun _ => (Heap.finalized_served hcomp).mpr (.inr rfl)
    obtain ⟨hrec, hages⟩ := hr.leaveQueue (s := w'.host.1) hs hcomp
      Heap.remarked_served Heap.withers_served hran
      (hr.told.finalize hnot fun _ => Heap.finalized_served hcomp)
      (hr.complete.free fun q hq => .inl hq) hdue
    refine ⟨⟨(hf.leaveQueue_remarked hmem Heap.remarked_served).1, ?_⟩, hages⟩
    have hentry : (w.heap.served i g).freeing false i = .freed (w.heap.arena.handleAt i)
        (!false && (w.heap.served i g).hasFinalizer (w.heap.arena.handleAt i)) := by
      unfold Heap.freeing
      rw [Heap.remarked_served.arena.handleAt]
    rw [← hentry] at hrec
    exact hrec

end

/-! ## A pass, with its record -/

namespace Heap

/-- Cells that a pass has set aside and that have not had their turn: they are out of use and have not
been finalized. -/
structure Awaiting (h : Heap) (X : Multiset Handle) (l : List ℕ) : Prop where
  nodup : l.Nodup
  composite : ∀ i ∈ l, h.arena.Composite (h.arena.handleAt i)
  ran : ∀ i ∈ l, h.arena.ran i = false
  unused : ∀ i ∈ l, ¬ h.InUse X (h.arena.handleAt i)

/-- The finalizer of a cell has run, or there is none. -/
def Over (h : Heap) (r : Handle) : Prop :=
  h.arena.Finalized r ∨ h.resolveFinalizer r = none

/-- No finalizer is to run any longer of a cell that was out of use. -/
def Spent (h₀ : Heap) (X : Multiset Handle) (h : Heap) : Prop :=
  ∀ r, ¬ h₀.InUse X r → h.arena.Composite r → h.Over r

theorem Awaiting.tail (ha : Awaiting h X (i :: l)) : Awaiting h X l :=
  ⟨(List.nodup_cons.mp ha.nodup).2, fun j hj => ha.composite j (by simp [hj]),
    fun j hj => ha.ran j (by simp [hj]), fun j hj => ha.unused j (by simp [hj])⟩

theorem Awaiting.served (ha : Awaiting h X (i :: l)) : Awaiting (h.served i g) X l := by
  have hi := ha.composite i (by simp)
  have hat := (remarked_served (h := h) (i := i) (g := g)).arena.handleAt
  refine ⟨ha.tail.nodup, fun j hj => ?_, fun j hj => ?_, fun j hj huse => ?_⟩
  · rw [hat, remarked_served.arena.composite]
    exact ha.tail.composite j hj
  · have hne : j ≠ i := fun he => (List.nodup_cons.mp ha.nodup).1 (he ▸ hj)
    rw [ran_served hi, Function.update_of_ne hne]
    exact ha.tail.ran j hj
  · rw [hat] at huse
    exact ha.tail.unused j hj ((ages_served hi).inUse huse)

/-- A finalizer is not found for a cell that is there only if it has none. -/
theorem resolveFinalizer_of_not_due (hdue : h.dueFinalizer i = none)
    (hi : h.arena.Composite (h.arena.handleAt i)) :
    h.resolveFinalizer (h.arena.handleAt i) = none := by
  obtain ⟨n, b, hb, -⟩ := hi
  obtain ⟨c, hc, -⟩ := hb.get?
  rw [Arena.get?_handleAt] at hc
  unfold dueFinalizer at hdue
  rw [hc, Option.bind_some, Option.map_eq_none_iff] at hdue
  exact hdue

theorem Over.ages (ho : h.Over r) (ha : Ages h h') (hr : h'.arena.Composite r) : h'.Over r := by
  rcases ho with hran | hnone
  · exact .inl (ha.finalized r hran hr)
  · refine .inr (Option.eq_none_iff_forall_not_mem.mpr fun f hf => ?_)
    have hfound := ha.toShrinks.resolveFinalizer hf
    rw [hnone] at hfound
    cases hfound

theorem nodup_pendingCells (hs : h.Sound) : (h.pendingCells o).Nodup := by
  have hnd := (hs.arena.threaded .allocated).nodup
  rw [← alike_markHeld.members hs.arena] at hnd
  unfold pendingCells
  split
  · exact List.nodup_nil
  · exact hnd.filter _

theorem Spent.ages {h₀ : Heap} (hs : Spent h₀ X h) (ha : Ages h h') : Spent h₀ X h' :=
  fun r hr hcomp => (hs r hr (ha.toShrinks.composite hcomp)).ages ha hcomp

end Heap

section

variable {h₀ : Heap} {before : List Event}

/-- The finalizers of cells out of use run, each of them once. -/
theorem runRecorded_quiet (hcall : Caller.Mute call) (hr : Recounted h₀ before w X)
    (ha : w.heap.Awaiting X l) : After (runRecorded call l) w fun _ w' =>
      Recounted h₀ before w' X ∧ Remarked w.heap w'.heap ∧ Ages w.heap w'.heap ∧
        ∀ i ∈ l, w'.heap.Over (w.heap.arena.handleAt i) := by
  induction l generalizing w with
  | nil => exact after_pure.mpr ⟨hr, .refl, .refl, fun _ hi => by cases hi⟩
  | cons i l ih =>
    have hi := ha.composite i (by simp)
    unfold runRecorded
    rw [after_bind, after_query]
    cases hdue : w.heap.dueFinalizer i with
    | none =>
      refine (ih hr ha.tail).mono fun _ w' => ?_
      rintro ⟨hr', hremarked, hages, hdone⟩
      have hover : w.heap.Over (w.heap.arena.handleAt i) :=
        .inr (Heap.resolveFinalizer_of_not_due hdue hi)
      exact ⟨hr', hremarked, hages, List.forall_mem_cons.mpr
        ⟨hover.ages hages (hremarked.arena.composite.mpr hi), hdone⟩⟩
    | some found =>
      obtain ⟨r, f⟩ := found
      obtain rfl := Heap.handleAt_of_due hdue
      simp only [after_bind, after_record, after_modifyHeap]
      refine (runFinalizer_mute hcall).mono ?_
      rintro _ w₁ ⟨⟨g, hw⟩, hhost⟩
      dsimp only at hw hhost
      rw [hw]
      have hr₁ := hr.finalize (g := g) (s := w₁.host.1) hi (ha.ran i (by simp)) (ha.unused i (by simp))
      rw [← hhost] at hr₁
      refine (ih hr₁ ha.served).mono fun n w' => ?_
      rintro ⟨hr', hremarked, hages, hdone⟩
      have hserved := Heap.remarked_served (h := w.heap) (i := i) (g := g)
      have hover : (w.heap.served i g).Over (w.heap.arena.handleAt i) :=
        .inl ((Heap.finalized_served hi).mpr (.inr rfl))
      refine after_pure.mpr ⟨hr', hserved.trans hremarked, (Heap.ages_served hi).trans hages,
        List.forall_mem_cons.mpr ⟨hover.ages hages ?_, fun j hj => ?_⟩⟩
      · exact (hserved.trans hremarked).arena.composite.mpr hi
      · have hj := hdone j hj
        rwa [show (w.heap.served i g).arena.handleAt = _ from hserved.arena.handleAt] at hj

/-- What a pass frees is recorded, and has been finalized if it had to be. -/
theorem Recounted.beginPass (hk : w.heap.Still X) (hr : Recounted h₀ before w X) :
    Recounted h₀ before ⟨(w.heap.beginPass o).1, w.host.1,
      w.host.2 ++ (w.heap.garbage o).map (w.heap.freeing o.skipFinalizers)⟩ X := by
  have hs := hk.sound
  have hd := Dwindles.beginPass (o := o) hk hr.aloof
  have hgarbage : ∀ i ∈ w.heap.garbage o, i ∈ w.heap.arena.members .allocated ∧
      ¬ (w.heap.toSweep o).arena.Marked i := fun i hi => (Heap.mem_garbage hs).mp hi
  have hat : ∀ q, w.heap.arena.Composite q → w.heap.arena.handleAt q.index = q := by
    rintro q ⟨_, _, hq, -⟩
    exact hq.handleAt
  refine ⟨hd.aloof hr.aloof, hr.told.freeAll (fun i => rfl) (Heap.nodup_garbage hs) ?_ ?_, ?_⟩
  · intro i hi hdue
    obtain ⟨halloc, hunmarked⟩ := hgarbage i hi
    have hcomp := hs.arena.cell_of_mem halloc
    refine ⟨hcomp, ?_⟩
    by_contra hran
    -- It would have been set aside, and would not be garbage.
    rw [Bool.and_eq_true, Bool.not_eq_true'] at hdue
    refine hunmarked (Heap.marked_of_pending hs ?_).2
    refine (Heap.mem_pendingCells hk hr.aloof).mpr
      ⟨hdue.1, halloc, fun huse => hunmarked ?_, Bool.not_eq_true _ ▸ hran, hdue.2⟩
    refine (Heap.marked_toSweep_iff hcomp).mpr ?_
    exact (((hk.balanced trivial).traces_outsideHolds hs hk.level.2).mpr huse).mono fun _ => .inl
  · intro q
    rw [hd.finalized_iff]
    refine and_congr_right fun hq => (Heap.composite_beginPass_iff hs hq.1).trans ?_
    constructor
    · rintro hi i hmem rfl
      exact hi hmem
    · intro hne hi
      exact hne q.index hi (hat q hq.1).symm
  · refine hr.complete.free fun q hq => ?_
    by_cases hi : q.index ∈ w.heap.garbage o
    · have hentry : w.heap.freeing o.skipFinalizers q.index =
          .freed q (!o.skipFinalizers && w.heap.hasFinalizer q) := by
        rw [Heap.freeing, hat q hq]
      exact .inr ⟨_, List.mem_map.mpr ⟨q.index, hi, hentry⟩⟩
    · exact .inl ((Heap.composite_beginPass_iff hs hq).mpr hi)

/-- The cells that a pass has set aside have not had their turn when it has swept. -/
theorem Heap.Still.awaiting (hk : h.Still X) (ha : h.Aloof X) :
    (h.beginPass o).1.Awaiting X (h.pendingCells o) := by
  have hs := hk.sound
  have hd := Dwindles.beginPass (o := o) hk ha
  have hpending : ∀ i ∈ h.pendingCells o, h.arena.Composite (h.arena.handleAt i) ∧
      (h.beginPass o).1.arena.handleAt i = h.arena.handleAt i ∧
      (h.beginPass o).1.arena.Composite (h.arena.handleAt i) := by
    intro i hi
    obtain ⟨halloc, hmarked⟩ := Heap.marked_of_pending hs hi
    have hcomp := hs.arena.cell_of_mem halloc
    have hleft : (h.beginPass o).1.arena.Composite (h.arena.handleAt i) :=
      (Heap.composite_beginPass_iff hs hcomp).mpr fun hmem => ((Heap.mem_garbage hs).mp hmem).2 hmarked
    obtain ⟨_, _, hb, -⟩ := id hleft
    exact ⟨hcomp, hb.handleAt, hleft⟩
  refine ⟨Heap.nodup_pendingCells hs, fun i hi => ?_, fun i hi => ?_, fun i hi huse => ?_⟩
  · rw [(hpending i hi).2.1]
    exact (hpending i hi).2.2
  · exact (hd.ran _ (hpending i hi).2.2).trans ((Heap.mem_pendingCells hk ha).mp hi).2.2.2.1
  · rw [(hpending i hi).2.1] at huse
    exact ((Heap.mem_pendingCells hk ha).mp hi).2.2.1 (hd.ages.inUse huse)

/-- When the cells that a pass has set aside have had their turn, no finalizer is to run of what was out
of use. -/
theorem Heap.Still.spent (hk : h.Still X) (ha : h.Aloof X) (hages : Ages (h.beginPass o).1 h')
    (hover : ∀ i ∈ h.pendingCells o, h'.Over ((h.beginPass o).1.arena.handleAt i)) :
    Heap.Spent h X h' := by
  intro r hr hleft
  have hs := hk.sound
  have hbegun := Dwindles.beginPass (o := o) hk ha
  have hswept := hages.toShrinks.composite hleft
  have hcomp := hbegun.toShrinks.composite hswept
  have halloc := hs.allocated hk.level.2 hcomp
  obtain ⟨_, _, hb, -⟩ := id hcomp
  obtain ⟨_, _, hb₁, -⟩ := id hswept
  by_cases hpending : r.index ∈ h.pendingCells o
  · have hover := hover _ hpending
    rwa [hb₁.handleAt] at hover
  · have hnot := fun hcases => hpending ((Heap.mem_pendingCells hk ha).mpr hcases)
    rw [hb.handleAt] at hnot
    have hover : h.Over r := by
      by_cases hskip : o.skipFinalizers = true
      · -- Where finalizers are skipped, all that is out of use is garbage.
        exfalso
        have hmarked : (h.toSweep o).arena.Marked r.index := by
          by_contra hunmarked
          exact (Heap.composite_beginPass_iff hs hcomp).mp hswept
            ((Heap.mem_garbage hs).mpr ⟨halloc, hunmarked⟩)
        refine hr (((hk.balanced trivial).traces_outsideHolds hs hk.level.2).mp
          (((Heap.marked_toSweep_iff hcomp).mp hmarked).mono fun q hq => hq.resolve_right ?_))
        simp [Heap.pendingCells, hskip]
      · by_cases hran : h.arena.ran r.index = true
        · exact .inl ⟨hcomp, hran⟩
        · refine .inr (Option.not_isSome_iff_eq_none.mp fun hfound => hnot ?_)
          exact ⟨by simpa using hskip, halloc, hr, by simpa using hran, hfound⟩
    exact (hover.ages hbegun.ages hswept).ages hages hleft

/-- When a pass is over, no finalizer is to run of what was out of use before. -/
theorem bodyRecorded_quiet (hcall : Caller.Mute call) (hk : w.heap.Still X)
    (hr : Recounted h₀ before w X) : After (bodyRecorded call o) w fun _ w' =>
      Recounted h₀ before w' X ∧ Ages w.heap w'.heap ∧ Heap.Spent w.heap X w'.heap := by
  have hbegun := Dwindles.beginPass (o := o) hk hr.aloof
  have hawaiting := hk.awaiting (o := o) hr.aloof
  have hwithin := hk.beginPass (o := o)
  rw [hk.level.2] at hwithin
  have hpending : (w.heap.beginPass o).2.pending = w.heap.pendingCells o := by
    rw [Heap.beginPass_eq]
  rw [hpending] at hwithin
  unfold bodyRecorded
  simp only [after_bind, after_record, after_change, hpending]
  refine (runRecorded_quiet hcall (hr.beginPass hk) hawaiting).mono fun n w₁ => ?_
  rintro ⟨hr₁, hremarked, hages, hover⟩
  have hkept : Kept True (Heap.WithinPass [] (w.heap.pendingCells o)) w₁.heap X :=
    hwithin.remark (Heap.yielding_withinPass _ _) hremarked
  have hspent := hk.spent hr.aloof hages hover
  -- The end of a pass leaves cells and marks alone.
  have hend : ∀ h, Kept True (Heap.WithinPass [] (w.heap.pendingCells o)) h X →
      Dwindles w₁.heap h → h.arena.core = w₁.heap.arena.core → ∀ p n,
        Recounted h₀ before ⟨(h.finishPass o p n).1, w₁.host⟩ X ∧
          Ages w.heap (h.finishPass o p n).1 ∧ Heap.Spent w.heap X (h.finishPass o p n).1 := by
    intro h hh hd hcore p n
    have hd' : Dwindles w₁.heap (h.finishPass o p n).1 := hd.trans .finishPass
    refine ⟨hr₁.dwindle hd' ?_, (hbegun.ages.trans hages).trans hd'.ages, hspent.ages hd'.ages⟩
    rintro q ⟨m, b, hq, hcomp⟩
    refine ⟨m, b, ?_, hcomp⟩
    unfold Arena.Holds
    rw [hh.finishPass.2.2, hcore]
    exact hq
  split
  · rw [after_bind, after_modifyHeap, after_change,
      Heap.settle_eq fun i hi hmarked => hawaiting.unused i hi ?_]
    · exact hend _ (hkept.remark (Heap.yielding_withinPass _ _) Heap.remarked_markHeld)
        ⟨Heap.remarked_markHeld.shrinks, fun _ _ => congrFun Heap.ran_markHeld _⟩
        Heap.alike_markHeld.core _ _
    · have hcomp := hremarked.arena.composite.mpr (hawaiting.composite i hi)
      exact hages.inUse (((hkept.balanced trivial).marked_markHeld hkept.sound hkept.level.2.1
        hcomp).mp hmarked)
  · rw [after_change]
    exact hend _ hkept .refl rfl _ _

end

/-! ## Drains and passes at the top -/

section

variable {h₀ : Heap} {before : List Event}

/-- A silent pass, up to the point where what it has queued is worked off. -/
theorem passRecorded_body (hh : host.Silent) (hk : w.heap.Still X) (hr : Recounted h₀ before w X) :
    After (bodyRecorded (Engine.inPass.caller host.recorded) o) w fun n w' =>
      ((Fading True w'.heap X ∧ Recounted h₀ before w' X) ∧ Ages w.heap w'.heap ∧
        Heap.Spent w.heap X w'.heap) ∧ (n = 0 → OutsidePass [] w'.heap) := by
  have herases : Erases Prod.fst (bodyRecorded (Engine.inPass.caller host.recorded) o)
      (passBody (Engine.inPass.caller host) o) :=
    erases_bodyRecorded fun _ _ => erases_inPass.run_noting _
  have hfading := herases.lift (w := w)
    (passBody_fading (.inl ⟨trivial, hh.caller Engine.inPass⟩) hk)
  refine (hfading.and (bodyRecorded_quiet (hh.mute _) hk hr)).mono ?_
  rintro n w' ⟨⟨⟨hf, -⟩, h0⟩, hr', hages, hspent⟩
  exact ⟨⟨⟨hf, hr'⟩, hages, hspent⟩, h0⟩

/-- A silent drain runs finalizers in time and frees cells in time. -/
theorem recorded_drain_quiet (hh : host.Silent) (hf : Fading True w.heap X)
    (hr : Recounted h₀ before w X) : After (Engine.recorded host fuel).drain w fun _ w' =>
      (w'.heap.Still X ∧ Recounted h₀ before w' X) ∧ Ages w.heap w'.heap := by
  have haside : ∀ {h h' : Heap}, Remarked h h' → h'.arena = h.arena → Fading True h X →
      Dwindles h h' ∧ Fading True h' X ∧ ∀ r, h.arena.Composite r → h'.arena.Composite r :=
    fun hremarked harena hf => ⟨.aside harena hremarked.roots hremarked.key hremarked.current,
      hf.remark hremarked, fun r hcomp => hremarked.arena.composite.mpr hcomp⟩
  have hflag : ∀ (h : Heap) b, Remarked h { h with draining := b } :=
    fun _ _ => .of_alike .refl rfl rfl rfl rfl rfl rfl
  obtain ⟨hopen, hf', hkept⟩ := haside (hflag w.heap true) rfl hf
  change After (drainRecorded _ _ fuel) w _
  unfold drainRecorded
  rw [after_bind, after_modifyHeap, after_bind]
  refine (workOff_invariant (w := ⟨{ w.heap with draining := true }, w.host⟩)
    (I := fun w' => (Fading True w'.heap X ∧ Recounted h₀ before w' X) ∧ Ages w.heap w'.heap)
    ?_ ?_ ?_ ⟨⟨hf', hr.dwindle hopen hkept⟩, hopen.ages⟩).mono ?_
  · rintro w₁ i ⟨⟨hf₁, hr₁⟩, hages⟩ hi
    exact (settleRecorded_quiet (hh.mute _) hf₁ hr₁ hi).mono fun _ _ h => ⟨h.1, hages.trans h.2⟩
  · rintro w₁ n ⟨⟨hf₁, hr₁⟩, hages⟩ -
    have hspend : Remarked w₁.heap (w₁.heap.spendTrigger n) :=
      .of_alike .refl rfl rfl rfl rfl rfl rfl
    obtain ⟨hd, hf₂, hkept⟩ := haside hspend rfl hf₁
    exact ⟨⟨hf₂, hr₁.dwindle hd hkept⟩, hages.trans hd.ages⟩
  · rintro w₁ ⟨⟨hf₁, hr₁⟩, hages⟩ hhead
    change After (passRecorded _ (pure ()) {}) w₁ _
    unfold passRecorded
    rw [after_bind]
    refine (passRecorded_body hh (kept_outsidePass hf₁.kept hhead) hr₁).mono ?_
    rintro n w₂ ⟨⟨hw₂, hages₂, -⟩, -⟩
    split
    · rw [after_bind, after_pure, after_pure]
      exact ⟨hw₂, hages.trans hages₂⟩
    · exact after_pure.mpr ⟨hw₂, hages.trans hages₂⟩
  · rintro _ w₁ ⟨⟨⟨hf₁, hr₁⟩, hages⟩, hhead⟩
    obtain ⟨hd, hf₂, hkept⟩ := haside (hflag w₁.heap false) rfl hf₁
    rw [after_modifyHeap]
    exact ⟨⟨kept_outsidePass hf₂.kept hhead, hr₁.dwindle hd hkept⟩, hages.trans hd.ages⟩

/-- So does a pass, and no finalizer is to run afterwards of what was out of use before. -/
theorem recorded_collect_quiet (hh : host.Silent) (hk : w.heap.Still X)
    (hr : Recounted h₀ before w X) : After ((Engine.recorded host fuel).collect o) w fun _ w' =>
      (w'.heap.Still X ∧ Recounted h₀ before w' X) ∧ Ages w.heap w'.heap ∧
        Heap.Spent w.heap X w'.heap := by
  change After (passRecorded _ (Engine.recorded host fuel).drain o) w _
  unfold passRecorded
  rw [after_bind]
  refine (passRecorded_body hh hk hr).mono ?_
  rintro n w₁ ⟨⟨⟨hf₁, hr₁⟩, hages, hspent⟩, h0⟩
  split
  · rw [after_bind]
    refine (recorded_drain_quiet hh hf₁ hr₁).mono fun _ w₂ h => after_pure.mpr ?_
    exact ⟨h.1, hages.trans h.2, hspent.ages h.2⟩
  · rename_i hn
    exact after_pure.mpr ⟨⟨hf₁.kept.relevel (h0 (by omega)), hr₁⟩, hages, hspent⟩

/-- So does a count that is given back. -/
theorem recorded_release_quiet (hh : host.Silent) (hk : w.heap.Still (X + {r}))
    (hr : Recounted h₀ before w (X + {r})) : After ((Engine.recorded host fuel).release r) w
      fun _ w' => (w'.heap.Still X ∧ Recounted h₀ before w' X) ∧ Ages w.heap w'.heap := by
  obtain ⟨hf, -⟩ := fading_release hk
  have hd : Dwindles w.heap (w.heap.release r).1 := .release
  have hr' : Recounted h₀ before ⟨(w.heap.release r).1, w.host⟩ X :=
    (hr.dwindle hd fun q hq => Heap.Spares.release q hq).mono (Multiset.le_add_right _ _)
  unfold Engine.release
  rw [after_bind, after_change]
  split
  · exact (recorded_drain_quiet (w := ⟨(w.heap.release r).1, w.host⟩) hh hf hr').mono
      fun _ _ h => ⟨h.1, hd.ages.trans h.2⟩
  · rename_i hqueued
    refine after_pure.mpr ⟨⟨hf.kept.relevel ?_, hr'⟩, hd.ages⟩
    exact (queue_release hk.sound hk.level).2 (by simpa using hqueued)

end

end CountedHeap
