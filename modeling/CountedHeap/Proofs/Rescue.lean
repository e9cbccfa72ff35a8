import CountedHeap.Proofs.Runs

/-!
# What a drain frees

A drain looks at the count of a cell only where it has just run the finalizer of that cell. A cell
without one, or whose finalizer has run before, is freed when its turn comes, also where a finalizer
that ran earlier in the same drain has stored it again.

* `Heap.Settled`: what a turn does to the head of the queue.
* `drain_frees_uncounted`: a turn frees a cell that nothing counts, exactly if it was due, and counts
  stay exact as long as all heads are.
* `drain_frees_stored_again`: a head that is not due.
-/

namespace CountedHeap

open Heap (Draining Kept OutsidePass yielding_draining)

namespace Heap

variable {h h₁ h' : Heap} {X : Multiset Handle} {r : Handle} {n i : ℕ} {d : Departure} {keep : Bool}

/-- What a turn does to the head of the queue, which leaves the queue of the second heap. -/
structure Settled (h h₁ h' : Heap) (i : ℕ) (d : Departure) : Prop where
  /-- A cell without a finalizer to run is freed as it is. -/
  plain : h.headFinalizer i = none → h₁ = h ∧ d = .freed
  /-- Nothing counts a cell that is freed, if and only if its turn was due. -/
  uncounted : (d = .freed → h₁.arena.counted (h₁.arena.handleAt i) = 0) ↔ h.Due i
  /-- What is freed is gone. -/
  freed : d = .freed → h'.isLive (h₁.arena.handleAt i) = false
  /-- What is rescued is there, and on the list of allocated cells. -/
  rescued : d = .rescued → h'.isLive (h₁.arena.handleAt i) = true ∧ i ∈ h'.arena.members .allocated

theorem leaveQueue_freed : (h.leaveQueue i keep).2 = .freed ↔ keep = false := by
  cases keep with
  | false => exact ⟨fun _ => rfl, fun _ => rfl⟩
  | true => exact ⟨fun hd => Departure.noConfusion hd, fun hk => Bool.noConfusion hk⟩

theorem leaveQueue_rescued : (h.leaveQueue i keep).2 = .rescued ↔ keep = true := by
  cases keep with
  | false => exact ⟨fun hd => Departure.noConfusion hd, fun hk => Bool.noConfusion hk⟩
  | true => exact ⟨fun _ => rfl, fun _ => rfl⟩

/-- A cell that is freed is not there any longer. -/
theorem dead_leaveQueue (hs : h.Sound) (hi : i ∈ h.arena.members .queue) :
    (h.leaveQueue i false).1.isLive (h.arena.handleAt i) = false := by
  obtain ⟨n, b, hr, -⟩ := hs.arena.cell_of_mem hi
  set r := h.arena.handleAt i
  rw [show i = r.index from rfl, leaveQueue_false hr]
  refine Bool.eq_false_iff.mpr fun hlive => ?_
  obtain ⟨m, c, hc⟩ := Arena.isLive_iff.mp hlive
  exact emptied_evict hr hc

/-- A cell that is rescued goes back to the list of allocated cells. -/
theorem live_leaveQueue (hs : h.Sound) (hi : i ∈ h.arena.members .queue) :
    (h.leaveQueue i true).1.isLive (h.arena.handleAt i) = true ∧
      i ∈ (h.leaveQueue i true).1.arena.members .allocated := by
  obtain ⟨n, b, hr, -⟩ := hs.arena.cell_of_mem hi
  have hlinked : (h.arena.linksAt i).chain ≠ none := by
    rw [hs.arena.mem_members.mp hi]
    simp
  have hmembers := (hs.arena.rescue hlinked ({ · with finalized := false })).2
  have hcore : (h.leaveQueue i true).1.arena.core = h.arena.core :=
    ((Arena.core_linkHead _).trans (Arena.core_modifyMarks _)).trans Arena.core_unlink
  constructor
  · have hr' : (h.leaveQueue i true).1.arena.Holds (h.arena.handleAt i) n b := by
      unfold Arena.Holds at hr ⊢
      rwa [hcore]
    exact hr'.isLive
  · have hallocated := congrFun hmembers .allocated
    rw [Function.update_self] at hallocated
    rw [show (h.leaveQueue i true).1.arena.members .allocated = _ from hallocated]
    exact List.mem_cons_self

end Heap

variable {σ : Type} {host : Host σ} {held : σ → Multiset Handle} {w₀ w w₁ : World σ}
  {X : Multiset Handle} {i : ℕ} {keep : Bool} {T : Terms σ} {call : Caller σ}

/-- Where the terms are kept by finalizers, a turn settles the head. -/
theorem Departs.settled {P : Heap → Prop} {hP : Heap.Steady P}
    (hcall : ¬ w.heap.Unfinalized → ∀ q,
      Caller.Keeps call (T.during (Draining q) (yielding_draining q).steady))
    (hk : (T.during P hP).Holds w X) (hsweep : w.heap.sweeping = false)
    (hi : w.heap.arena.queue.head = some i) (hd : Departs call i w keep w₁) :
    w.heap.Settled w₁.heap (w₁.heap.leaveQueue i keep).1 i (w₁.heap.leaveQueue i keep).2 := by
  obtain ⟨hk₁, hzero⟩ := hd.keeps hcall hk hsweep hi
  have hmem : i ∈ w₁.heap.arena.members .queue := hk₁.level.2.subset (by simp)
  refine ⟨fun hf => ?_, ⟨fun hfreed hf => ?_, fun hdue hfreed => ?_⟩, fun hfreed => ?_, fun hkept => ?_⟩
  · cases hd with
    | plain _ => exact ⟨rfl, rfl⟩
    | finalized hf' _ =>
      rw [hf] at hf'
      cases hf'
  · cases hd with
    | plain _ => exact hfreed rfl
    | finalized hf' _ =>
      rw [hf] at hf'
      cases hf'
  · rcases hzero (Heap.leaveQueue_freed.mp hfreed) with hf | hcounted
    · cases hd with
      | plain _ => exact hdue hf
      | finalized hf' _ =>
        rw [hf] at hf'
        cases hf'
    · exact hcounted
  · rw [Heap.leaveQueue_freed.mp hfreed]
    exact Heap.dead_leaveQueue hk₁.sound hmem
  · rw [Heap.leaveQueue_rescued.mp hkept]
    exact Heap.live_leaveQueue hk₁.sound hmem

/-- In a drain whose finalizers release only counts that they hold, and in which every head so far had a
finalizer to run or was not counted, counts are exact. The next turn frees a cell that is not counted,
if and only if the head is due as well, and then counts stay exact. -/
theorem drain_frees_uncounted (hh : host.Honest held)
    (hk : Kept True (Draining []) w₀.heap (held w₀.host + X))
    (hd : Drains host Heap.Due w₀ w) (hi : w.heap.arena.queue.head = some i) :
    w.heap.Exact (held w.host + X) ∧
      ∀ keep w₁, Departs ((Engine.inDrain host).caller host) i w keep w₁ →
        w.heap.Settled w₁.heap (w₁.heap.leaveQueue i keep).1 i (w₁.heap.leaveQueue i keep).2 ∧
        (w.heap.Due i → (w₁.heap.leaveQueue i keep).1.Exact (held w₁.host + X)) := by
  have hH : host.Keeps (Terms.plain True held) := hh.keeps fun _ => trivial
  have hcall : ∀ q, Caller.Keeps ((Engine.inDrain host).caller host)
      ((Terms.plain True held).during (Draining q) (yielding_draining q).steady) :=
    fun q => hH _ (.inr rfl) _ _ (inDrain_keeps hH q) fun _ _ _ hP => hP
  have hw : ((Terms.plain True held).during (Draining []) (yielding_draining []).steady).Holds w X :=
    hd.keeps hH (fun _ _ _ _ hdue => hdue) (plain_holds.mpr hk)
  refine ⟨hw.exact, fun keep w₁ hdep => ?_⟩
  refine ⟨hdep.settled (fun _ => hcall) hw hw.level.1 hi, fun hdue => ?_⟩
  have hturn := after_settleHead.mp
    (settleHead_keeps (fun _ => hcall) hw hw.level.1 hi fun _ _ => hdue) keep w₁ hdep
  exact hturn.exact

/-! ## A cell that is stored again while it is queued -/

/-- The host whose native functions store a cell in an object. -/
def Host.storing (holder key stored : Handle) : Host σ :=
  fun _ _ => .perform (.putProp holder key (.ref stored)) fun _ => .done .returned

theorem Host.honest_storing {holder key stored : Handle} :
    (Host.storing holder key stored : Host σ).Honest fun _ => 0 := by
  intro E _ id v w X _ _
  refine ⟨le_rfl, fun answer w' _ => ?_⟩
  cases answer with
  | ok _ => exact ⟨nofun, rfl⟩
  | error _ => exact rfl

/-- The client holds an object, a key, and an array of two more objects, the first of which has a
finalizer. -/
def paired : World Unit :=
  let w := advance .idle 5 .registerNative ⟨.empty {}, ()⟩
  let w := advance .idle 5 (.allocObject none) w
  let w := advance .idle 5 (.intern "k" false) w
  let w := advance .idle 5 (.allocObject none) w
  let w := advance .idle 5 (.setFinalizer ⟨2, 0⟩ (.native ⟨0⟩)) w
  let w := advance .idle 5 (.allocObject none) w
  let w := advance .idle 5 (.allocArray none) w
  let w := advance .idle 5 (.arrayPush ⟨5, 0⟩ (.ref ⟨2, 0⟩)) w
  let w := advance .idle 5 (.arrayPush ⟨5, 0⟩ (.ref ⟨4, 0⟩)) w
  let w := advance .idle 5 (.release (.ref ⟨2, 0⟩)) w
  advance .idle 5 (.release (.ref ⟨4, 0⟩)) w

theorem run_paired : Run .idle Discipline.careful paired {⟨0, 0⟩, ⟨1, 0⟩, ⟨5, 0⟩} := by
  have r₀ : Run .idle Discipline.careful ⟨.empty {}, ()⟩ 0 := .start {} ()
  have r₁ := r₀.advance 5 .registerNative (.ok ⟨0⟩) (by decide) (by decide +kernel)
    (Operation.Careful.of_held (by decide))
  have r₂ := r₁.advance 5 (.allocObject none) (.ok ⟨0, 0⟩) (by decide) (by decide +kernel)
    (Operation.Careful.of_held (by decide))
  have r₃ := r₂.advance 5 (.intern "k" false) (.ok ⟨1, 0⟩) (by decide) (by decide +kernel)
    (Operation.Careful.of_held (by decide))
  have r₄ := r₃.advance 5 (.allocObject none) (.ok ⟨2, 0⟩) (by decide) (by decide +kernel)
    (Operation.Careful.of_held (by decide))
  have r₅ := r₄.advance 5 (.setFinalizer ⟨2, 0⟩ (.native ⟨0⟩)) (.ok ()) (by decide)
    (by decide +kernel) (Operation.Careful.of_held (by decide))
  have r₆ := r₅.advance 5 (.allocObject none) (.ok ⟨4, 0⟩) (by decide) (by decide +kernel)
    (Operation.Careful.of_held (by decide))
  have r₇ := r₆.advance 5 (.allocArray none) (.ok ⟨5, 0⟩) (by decide) (by decide +kernel)
    (Operation.Careful.of_held (by decide))
  have r₈ := r₇.advance 5 (.arrayPush ⟨5, 0⟩ (.ref ⟨2, 0⟩)) (.ok 1) (by decide) (by decide +kernel)
    (Operation.Careful.of_held (by decide))
  have r₉ := r₈.advance 5 (.arrayPush ⟨5, 0⟩ (.ref ⟨4, 0⟩)) (.ok 2) (by decide) (by decide +kernel)
    (Operation.Careful.of_held (by decide))
  have r₁₀ := r₉.advance 5 (.release (.ref ⟨2, 0⟩)) (.ok ()) (by decide) (by decide +kernel)
    (Operation.Careful.of_held (by decide))
  exact r₁₀.advance 5 (.release (.ref ⟨4, 0⟩)) (.ok ()) (by decide) (by decide +kernel)
    (Operation.Careful.of_held (by decide))

/-- The array is dropped, and a drain begins. -/
def unpaired : World Unit :=
  ⟨(paired.heap.release ⟨5, 0⟩).1, ()⟩

theorem kept_unpaired : Kept True (Draining []) unpaired.heap {⟨0, 0⟩, ⟨1, 0⟩} := by
  have hk : Kept True Heap.AtRest paired.heap ({⟨0, 0⟩, ⟨1, 0⟩} + {⟨5, 0⟩}) :=
    run_paired.kept Host.silent_idle
  have hreleased := (kept_draining (hk.relevel hk.level.1)).release (yielding_draining [])
  dsimp only [unpaired]
  exact hreleased

/-- The finalizers of the drain store the second of the two objects. -/
abbrev pairHost : Host Unit :=
  .storing ⟨0, 0⟩ ⟨1, 0⟩ ⟨4, 0⟩

/-- A turn of the drain. -/
def turned (i : ℕ) (w : World Unit) : World Unit :=
  ((settleHead ((Engine.inDrain pairHost).caller pairHost) i w).map Prod.snd).getD w

theorem settleHead_turned {w : World Unit} {d : Departure}
    (ha : (settleHead ((Engine.inDrain pairHost).caller pairHost) i w).map Prod.fst = some d) :
    settleHead ((Engine.inDrain pairHost).caller pairHost) i w = some (d, turned i w) := by
  unfold turned
  obtain ⟨⟨a, w'⟩, e, rfl⟩ := Option.map_eq_some_iff.mp ha
  rw [e]
  rfl

/-- The array has been freed, and its elements are queued. -/
def dismantled : World Unit :=
  turned 5 ⟨{ unpaired.heap with draining := true }, ()⟩

theorem drains_dismantled {due : Heap → ℕ → Prop} (hdue : ∀ h, h.Due 5 → due h 5) :
    Drains pairHost due unpaired dismantled := by
  refine .turn .start (i := 5) ?_ (hdue _ fun _ => ?_) (settleHead_turned (d := .freed) ?_)
  · decide +kernel
  · decide +kernel
  · decide +kernel

theorem head_dismantled : dismantled.heap.arena.queue.head = some 2 := by
  decide +kernel

/-- The first element has its turn: its finalizer runs, and counts stay exact. -/
theorem drain_frees_uncounted_dismantled : pairHost.Honest (fun _ => 0) ∧
    Kept True (Draining []) unpaired.heap (0 + {⟨0, 0⟩, ⟨1, 0⟩}) ∧
    Drains pairHost Heap.Due unpaired dismantled ∧ dismantled.heap.arena.queue.head = some 2 ∧
    dismantled.heap.Exact (0 + {⟨0, 0⟩, ⟨1, 0⟩}) := by
  have hk : Kept True (Draining []) unpaired.heap (0 + {⟨0, 0⟩, ⟨1, 0⟩}) :=
    (zero_add ({⟨0, 0⟩, ⟨1, 0⟩} : Multiset Handle)).symm ▸ kept_unpaired
  have hd : Drains pairHost Heap.Due unpaired dismantled := drains_dismantled fun _ => id
  exact ⟨Host.honest_storing, hk, hd, head_dismantled,
    (drain_frees_uncounted Host.honest_storing hk hd head_dismantled).1⟩

/-- The finalizer of the first element has stored the second one, which is still queued. The second one
is counted, but it has no finalizer: it is freed, and what has been stored is left dangling. -/
theorem drain_frees_stored_again : pairHost.Honest (fun _ => 0) ∧
    Kept True (Draining []) unpaired.heap {⟨0, 0⟩, ⟨1, 0⟩} ∧
    ∃ w w' : World Unit, Drains pairHost (fun _ _ => True) unpaired w ∧
      w.heap.arena.queue.head = some 4 ∧ w.heap.count? ⟨4, 0⟩ = some 1 ∧
      settleHead ((Engine.inDrain pairHost).caller pairHost) 4 w = some (.freed, w') ∧
      w'.heap.isLive ⟨4, 0⟩ = false ∧
      w'.heap.ownSlot? ⟨0, 0⟩ ⟨1, 0⟩ = some (.data (.ref ⟨4, 0⟩)) := by
  have hfirst : Drains pairHost (fun _ _ => True) unpaired dismantled :=
    drains_dismantled fun _ _ => trivial
  have hsecond := hfirst.turn head_dismantled trivial
    (settleHead_turned (d := .freed) (by decide +kernel))
  exact ⟨Host.honest_storing, kept_unpaired, _, _, hsecond, by decide +kernel, by decide +kernel,
    settleHead_turned (by decide +kernel), by decide +kernel, by decide +kernel⟩

end CountedHeap
