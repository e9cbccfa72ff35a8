import CountedHeap.Proofs.Chronicle
import CountedHeap.Proofs.Coroutines.Switches

/-!
# The stacks of threads

Giving references back runs finalizers, and these may push onto the stacks of a thread that is being
unwound, and pop from them. Between two changes of its own a thread is in order, whatever comes in between,
and a change is made only where it leaves the thread in order. What a thread may hold is settled when it is
made, by the configuration of the heap, which never changes.

* `Heap.Limited`: the limits of every thread are those of the heap.
* `limited`, `limited_kept`: this goes on, wherever anyone looks.
* `Thread.Ordered`: what this says about the stacks of a thread.
* `Engine.yieldThread_prevented`: when yielding is prevented.
* `stacks_ordered`: all of this holds in every world that is reached.
-/

namespace CountedHeap

variable {σ : Type}

/-- How long the stacks of a thread may become that is made under a configuration. -/
def Config.stackLimits (c : Config) : ℕ × ℕ × ℕ :=
  (c.valueLimit, c.callLimit, c.catchLimit)

namespace Heap

variable {h h' : Heap} {r t : Handle} {i : ℕ} {f : Body → Body} {b : Body}

/-- The limits of every thread are those of the heap. -/
def Limited (h : Heap) : Prop :=
  ∀ r n b, h.arena.Holds r n b → ∀ l ∈ b.limits?, l = h.config.stackLimits

/-- Cells may come and go and change, as long as their limits are those of cells there were. -/
theorem Limited.of_cells (hl : h.Limited) (hconfig : h'.config = h.config)
    (hcells : ∀ r n b, h'.arena.Holds r n b → ∃ m b₀, h.arena.Holds r m b₀ ∧ b₀.limits? = b.limits?) :
    h'.Limited := by
  intro r n b hr l hb
  obtain ⟨m, b₀, hr₀, hsame⟩ := hcells r n b hr
  rw [hconfig]
  exact hl r m b₀ hr₀ l (hsame ▸ hb)

theorem Limited.of_core (hl : h.Limited) (hconfig : h'.config = h.config)
    (hc : h'.arena.core = h.arena.core) : h'.Limited := by
  refine hl.of_cells hconfig fun r n b hr => ⟨n, b, ?_, rfl⟩
  unfold Arena.Holds at hr ⊢
  rwa [← hc]

theorem Limited.modifyBody (hl : h.Limited) (hf : ∀ b, (f b).limits? = b.limits?) :
    (h.modifyAt i (·.modifyBody f)).Limited := by
  refine hl.of_cells rfl fun r n b hr => ?_
  obtain ⟨c, hc, -, rfl⟩ := hr.get?
  rw [show (h.modifyAt i (·.modifyBody f)).arena = h.arena.modifyAt i (·.modifyBody f) from rfl,
    Arena.get?_modifyAt] at hc
  split at hc
  · obtain ⟨c₀, hc₀, rfl⟩ := Option.map_eq_some_iff.mp hc
    exact ⟨_, _, Arena.holds_of_get? hc₀, (hf c₀.body).symm⟩
  · exact ⟨_, _, Arena.holds_of_get? hc, rfl⟩

theorem Limited.place (hl : h.Limited) (hfree : h.arena.FreeOk)
    (hb : ∀ l ∈ b.limits?, l = h.config.stackLimits) : (h.place b).1.Limited := by
  intro r n b' hr l hl'
  rcases Arena.holds_of_place hfree hr with ⟨-, rfl⟩ | hold
  · exact hb l hl'
  · exact hl r n b' hold l hl'

end Heap

/-! ## The course of the limits -/

/-- Every thread keeps to the limits of the heap, and these stay what they are. -/
def limited : Course where
  good h := h.arena.FreeOk ∧ h.Limited
  leads h h' := h'.config = h.config
  returns _ _ := True
  refl _ := rfl
  trans _ _ _ h₁ h₂ := h₂.trans h₁

namespace limited

variable {h h' : Heap} {r t : Handle} {b : Body} {i length : ℕ}

theorem passes_modifyBody {f : Body → Body} (hf : ∀ b, (f b).limits? = b.limits?) :
    limited.Passes h (h.modifyAt i (·.modifyBody f)) :=
  fun hg => ⟨⟨hg.1.modifyAt _, hg.2.modifyBody hf⟩, rfl⟩

theorem passes_of_core (hfree : h'.arena.free = h.arena.free) (hc : h'.arena.core = h.arena.core)
    (hconfig : h'.config = h.config) : limited.Passes h h' :=
  fun hg => ⟨⟨hg.1.of_core hfree hc, hg.2.of_core hconfig hc⟩, hconfig⟩

theorem passes_withers (hw : Heap.Withers h h') : limited.Passes h h' := by
  intro hg
  refine ⟨⟨hw.free hg.1, hg.2.of_cells hw.config fun r n b hr => ?_⟩, hw.config⟩
  obtain ⟨m, hm⟩ := hw.cells r n b hr
  exact ⟨m, b, hm, rfl⟩

theorem passes_retain : limited.Passes h (h.retain r) := by
  unfold Heap.retain
  split
  · exact passes_withers (.modifyAt fun _ => rfl)
  · exact .refl

theorem passes_retainAll {rs : List Handle} : limited.Passes h (h.retainAll rs) := by
  induction rs generalizing h with
  | nil => exact .refl
  | cons r rs ih => exact passes_retain.trans (ih (h := h.retain r))

theorem passes_shift (hs : Heap.Shift h h') : limited.Passes h h' := by
  cases hs with
  | touch ht =>
    cases ht with
    | retain r => exact passes_retain
    | body i hf => exact passes_modifyBody fun b => (hf b).limits
    | aside harena _ _ _ _ _ hconfig => exact passes_of_core (by rw [harena]) (by rw [harena]) hconfig
  | thread t hframe _ _ =>
    exact passes_modifyBody fun _ => Body.limits?_modifyThread fun x => (hframe x).2.2
  | current c => exact passes_of_core rfl rfl rfl

theorem shifting : (limited.simulation σ).Shifting :=
  fun _ _ hs => .of_steps (fun _ _ => passes_shift) hs

theorem passes_place (hb : ∀ l ∈ b.limits?, l = h.config.stackLimits) :
    limited.Passes h (h.place b).1 :=
  fun hg => ⟨⟨hg.1.place b, hg.2.place hg.1 hb⟩, rfl⟩

theorem passes_linkPrototype {proto : Option Handle} :
    limited.Passes h (h.linkPrototype r proto) :=
  passes_retainAll.trans (passes_modifyBody fun _ => Body.limits?_modifyObject)

theorem passes_storeBuiltin {id : BuiltinId} {o : Option Handle} :
    limited.Passes h (h.storeBuiltin t id o) := by
  have hset : limited.Passes h
      (h.modifyThread t fun x => { x with builtins := x.builtins.set id o }) :=
    passes_modifyBody fun _ => Body.limits?_modifyThread fun _ => rfl
  exact hset.trans passes_retainAll

theorem passes_resizeBuffer : limited.Passes h (h.resizeBuffer r length) := by
  have haccount : limited.Passes h
      (h.modifyArena (·.account r.index (Body.cellBytes + length))) :=
    passes_of_core rfl (Arena.core_account _) rfl
  exact haccount.trans (passes_modifyBody fun _ => Body.limits?_modifyBuffer)

section

variable {E : Engine (σ × List Moment)} (hE : (limited.simulation σ).Agree E E)
include hE

theorem lift_alloc (hb : b.limits? = none) : (limited.simulation σ).Lift (E.alloc b) (E.alloc b) :=
  hE.alloc fun _ => passes_place fun _ hl => by rw [hb] at hl; cases hl

/-- A thread is made with the limits of the heap, whatever an emergency pass does before. -/
theorem lift_allocThread {source : Option Handle} :
    (limited.simulation σ).Lift (E.allocThread source) (E.allocThread source) := by
  refine Course.lift_iff.mpr fun w hw => ?_
  unfold Engine.allocThread
  simp only [meets_bind, meets_surely, meets_check, after_query]
  refine ⟨fun _ _ => ⟨hw, rfl⟩, fun builtins _ => ?_⟩
  refine (Course.alloc_noted hE hw fun h hleads _ => passes_place ?_).mono (fun _ _ hw₁ => hw₁) ?_
  · rintro l ⟨⟩
    rw [hleads]
    rfl
  · rintro r w₁ ⟨⟨hw₁, hleads⟩, -⟩
    rw [after_modifyHeap, meets_pure]
    obtain ⟨hw₂, hleads'⟩ := hw₁.go passes_retainAll
    exact ⟨hw₂, hleads'.trans hleads⟩

theorem makes : (limited.simulation σ).Makes E E where
  leaf {body} hb := lift_alloc hE (by cases body <;> first | rfl | cases hb)
  object := .allocObjectWith shifting.touching (lift_alloc hE rfl)
  thread := lift_allocThread hE
  link := hE.setPrototype fun _ => passes_linkPrototype
  builtin := hE.setBuiltin fun _ => passes_storeBuiltin
  resize := hE.bufferResize fun _ => passes_resizeBuffer

end

end limited

/-- Wherever anyone looks, threads keep to the limits of the heap. -/
theorem limited_kept : limited.Kept where
  empty config := ⟨(Arena.Sound.empty config.maxBytes).free, fun r n b hr => by
    obtain ⟨c, hc, -⟩ := hr.get?
    cases hc⟩
  withers _ _ := limited.passes_withers
  shifts := limited.shifting (σ := Unit)
  flag _ _ := limited.passes_of_core rfl rfl rfl
  reroots _ _ _ := limited.passes_of_core rfl rfl rfl
  rekey _ _ := limited.passes_of_core rfl rfl rfl
  makes hE := limited.makes hE
  returned _ _ _ _ _ := fun _ _ _ _ _ => trivial

/-! ## Yielding -/

namespace Heap

variable {h : Heap} {t : Handle} {x : Thread}

/-- A thread that is looked for in vain, or that is in another state, does not prevent yielding. -/
theorem checkState_ne_prevented {s : ThreadState} : h.checkState t s ≠ .error .yieldPrevented := by
  unfold checkState Heap.thread
  intro he
  split at he
  · cases he
  · rename_i y hy
    simp only [bind, Except.bind] at he
    split at he <;> cases he
  · cases he

/-- Whether the running thread may yield is decided by its count of calls that prevent it. -/
theorem checkYield_prevented_iff (hc : h.current = some t) (hx : h.thread t = .ok x)
    (hs : x.state = .running) : h.checkYield = .error .yieldPrevented ↔ 0 < x.preventing := by
  unfold checkYield
  rw [runningThread_ok hc hx hs]
  simp only [bind, Except.bind, hx]
  by_cases hp : 0 < x.preventing
  · rw [if_pos hp]
    exact iff_of_true rfl hp
  · rw [if_neg hp]
    refine iff_of_false (fun he => ?_) hp
    cases hr : x.resumer with
    | none =>
      rw [hr] at he
      cases he
    | some r =>
      rw [hr] at he
      dsimp only at he
      cases hstate : h.checkState r .resumed with
      | ok u =>
        rw [hstate] at he
        cases he
      | error e =>
        rw [hstate] at he
        cases he
        exact checkState_ne_prevented hstate

end Heap

/-- A request to yield is answered in this way if the check says so. -/
theorem Engine.yieldThread_prevented_iff {E : Engine σ} {w : World σ} :
    (E.yieldThread.run w).map Prod.fst = some (.error .yieldPrevented) ↔
      w.heap.checkYield = .error .yieldPrevented := by
  have hanswer : Meets E.yieldThread w (fun e _ => w.heap.checkYield = .error e) fun _ _ => True := by
    unfold Engine.yieldThread
    simp only [meets_bind, meets_check, meets_surely, after_modifyHeap]
    exact ⟨fun _ he => he, fun _ _ _ _ _ => trivial⟩
  constructor
  · intro hrun
    obtain ⟨⟨answer, w'⟩, e, ha⟩ := Option.map_eq_some_iff.mp hrun
    cases ha
    exact hanswer _ w' e
  · intro hcheck
    have hrun : E.yieldThread.run w = some (.error .yieldPrevented, w) := run_check_bind_error hcheck
    rw [hrun]
    rfl

/-! ## Every world that is reached -/

/-- What holds of the stacks of a thread in a heap of some configuration. -/
structure Thread.Ordered (config : Config) (x : Thread) : Prop where
  /-- Every catcher belongs to a call on the stack. -/
  caught : ∀ c ∈ x.catchers, c.activation < x.calls.size
  /-- The calls that prevent yielding are counted. -/
  preventing : x.preventing = x.calls.toList.countP (·.flags.preventYield)
  values : x.values.size ≤ config.valueLimit
  calls : x.calls.size ≤ config.callLimit
  catchers : x.catchers.size ≤ config.catchLimit
  /-- The bottom of the frame lies within the stack, so that the values above it can be told by a
  difference. -/
  framed : x.values.bottom ≤ x.values.size

/-- In every world that is reached, whatever finalizers do, the stacks of all threads are in order. The
running thread may not yield if and only if some call on its stack prevents it. -/
theorem stacks_ordered {host : Host σ} {w : World σ} (hw : Reachable host w) :
    (∀ t x, w.heap.thread t = .ok x → x.Ordered w.heap.config) ∧
    ∀ t x fuel, w.heap.current = some t → w.heap.thread t = .ok x → x.state = .running →
      ((((Engine.top host fuel).perform .yieldThread).run w).map Prod.fst =
          some (.error .yieldPrevented) ↔
        ∃ a ∈ x.calls, a.flags.preventYield = true) := by
  obtain ⟨log, hlog⟩ := hw.chronicled
  have hlimited : w.heap.Limited := (limited_kept.noted hlog).good.2
  refine ⟨fun t x hx => ?_, fun t x fuel hc hx hs => ?_⟩
  · have hproper := hw.proper t x hx
    obtain ⟨header, hcell⟩ := Heap.thread_eq_ok.mp hx
    have hlimits : x.limits = w.heap.config.stackLimits :=
      hlimited t _ _ (Arena.holds_of_get? hcell) _ rfl
    have hvalues : x.values.limit = w.heap.config.valueLimit := congrArg Prod.fst hlimits
    have hcalls : x.callLimit = w.heap.config.callLimit := congrArg (·.2.1) hlimits
    have hcatchers : x.catchLimit = w.heap.config.catchLimit := congrArg (·.2.2) hlimits
    exact {
      caught := hproper.caught
      preventing := hproper.preventing
      values := hvalues ▸ hproper.values.bounded
      calls := hcalls ▸ hproper.calls
      catchers := hcatchers ▸ hproper.catchers
      framed := hproper.values.framed }
  · have hcount := (hw.proper t x hx).preventing
    have hprevents : 0 < x.preventing ↔ ∃ a ∈ x.calls, a.flags.preventYield = true := by
      rw [hcount, List.countP_pos_iff]
      simp only [Array.mem_toList_iff]
    exact (Engine.yieldThread_prevented_iff.trans (Heap.checkYield_prevented_iff hc hx hs)).trans hprevents

/-- A finalizer that enters a call on the thread whose value has been popped, and sets a catcher for it. -/
def meddler : Host Unit :=
  fun _ _ => .perform (.pushActivation ⟨0, 0⟩ { func := ⟨1, 0⟩, flags := { preventYield := true } })
    fun _ => .perform (.pushCatcher ⟨0, 0⟩ (.ofKind .handler 0 0 0)) fun _ => .done .returned

/-- A running thread has popped the last reference to an object with that finalizer. -/
def meddled : World Unit :=
  Attains.follow (fun fuel _ => (Engine.top meddler fuel).perform) 9
    [⟨_, .allocThread none⟩, ⟨_, .registerNative⟩, ⟨_, .allocNativeFunction ⟨0⟩ none⟩,
      ⟨_, .allocObject none⟩, ⟨_, .setFinalizer ⟨2, 0⟩ (.native ⟨0⟩)⟩, ⟨_, .push ⟨0, 0⟩ (.ref ⟨2, 0⟩)⟩,
      ⟨_, .release (.ref ⟨2, 0⟩)⟩, ⟨_, .startThread ⟨0, 0⟩⟩, ⟨_, .pop ⟨0, 0⟩⟩]
    ⟨.empty {}, ()⟩

theorem reachable_meddled : Reachable meddler meddled := by
  have hattains : Attains (fun fuel _ => (Engine.top meddler fuel).perform) meddled :=
    (Attains.start {} ()).steps 9 _
  exact hattains.reachable fun _ _ _ => restricting_refl

theorem stacks_ordered_meddled : Reachable meddler meddled ∧
    (∃ x, meddled.heap.thread ⟨0, 0⟩ = .ok x ∧ x.Ordered meddled.heap.config ∧
      x.calls.size = 1 ∧ x.catchers.size = 1) ∧
    (((Engine.top meddler 9).perform .yieldThread).run meddled).map Prod.fst =
      some (.error .yieldPrevented) := by
  have hseen : ∃ x ∈ (meddled.heap.thread ⟨0, 0⟩).toOption, meddled.heap.current = some ⟨0, 0⟩ ∧
      x.state = .running ∧ x.calls.size = 1 ∧ x.catchers.size = 1 ∧
      ∃ a ∈ x.calls, a.flags.preventYield = true := by
    decide +kernel
  obtain ⟨x, hmem, hcurrent, hstate, hcalls, hcatchers, hprevents⟩ := hseen
  have hx := ok_of_mem_toOption hmem
  obtain ⟨hordered, hyield⟩ := stacks_ordered reachable_meddled
  exact ⟨reachable_meddled, ⟨x, hx, hordered _ x hx, hcalls, hcatchers⟩,
    (hyield _ x 9 hcurrent hx hstate).mpr hprevents⟩

end CountedHeap
