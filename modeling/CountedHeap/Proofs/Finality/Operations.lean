import CountedHeap.Proofs.Finality.Tidy

/-!
# All operations of a careful client are recorded in order

The operations on threads, which look their thread up again after they have given counts back: it has stayed
in the reach of the client. With them, every operation keeps the record in order.

* `Heap.usable_of_current`, `Usable.resumer`: the threads that an operation looks up itself.
* `Reached.adjustThread`, `Reached.switchTo`: threads that change stay in reach.
* `Tidy.unwindWithin`, `Tidy.terminateThread`, …: the operations on threads.
* `Tidy.ledgered`, `Tidy.perform`: every operation.
-/

namespace CountedHeap

open Heap (Confined Shrinks Still Usable)

variable {σ : Type} {host : Host σ} {fuel n i : ℕ} {h₀ h : Heap} {before : List Event}
  {w : World (σ × List Event)} {X given : Multiset Handle} {c r t : Handle} {rs : List Handle} {v : Value}
  {x : Thread} {f : Thread → Thread}

namespace Heap

theorem map_eq_ok {α β : Type} {e : Except HeapError α} {g : α → β} {b : β} :
    e.map g = .ok b ↔ ∃ a, e = .ok a ∧ g a = b := by
  cases e <;> simp [Except.map]

/-- The current thread is in use, if it is there. -/
theorem usable_of_current (hc : h.current = some c) : h.Usable X c :=
  fun hcomp => .start (.inl (.inr (.inr hc))) hcomp

theorem Usable.resumer (hu : h.Usable X c) (hc : h.thread c = .ok x) (hr : x.resumer = some r) :
    h.Usable X r := by
  obtain ⟨header, hget⟩ := thread_eq_ok.mp hc
  have hcell := Arena.holds_of_get? hget
  refine fun hcomp => .step (hu ⟨_, _, hcell, rfl⟩) hcell (Body.mem_tracedRefs ?_) hcomp
  exact List.mem_append_right _ (by rw [hr]; exact List.mem_singleton.mpr rfl)

/-- A thread that refers to what it referred to keeps everything in reach. -/
theorem Reached.adjustThread (hr : h.Reached X r) (hrefs : ∀ x, (f x).refs = x.refs) :
    (h.modifyThread c f).Reached X r := by
  refine hr.of_others rfl fun p n b hp _ => ?_
  obtain ⟨d, hd, rfl, rfl⟩ := hp.get?
  have hget : (h.modifyThread c f).arena.get? p = if p.index = c.index then
      (h.arena.get? p).map (·.modifyBody (·.modifyThread f)) else h.arena.get? p := Arena.get?_modifyAt
  rw [hd] at hget
  split at hget
  · refine ⟨_, _, Arena.holds_of_get? hget, ?_⟩
    obtain ⟨header, body⟩ := d
    cases body with
    | thread x =>
      change x.refs ⊆ (f x).refs
      rw [hrefs x]
      exact List.Subset.refl _
    | object _ => exact List.Subset.refl _
    | string _ => exact List.Subset.refl _
    | buffer _ => exact List.Subset.refl _
  · exact ⟨_, _, Arena.holds_of_get? hget, List.Subset.refl _⟩

/-- A thread that begins to run stays in reach. -/
theorem Reached.switchTo (hr : h.Reached X t) (hlive : h.isLive t = true) :
    (h.switchTo c t).Reached X t := by
  have hwait : (h.setState c .resumed).Reached X t := hr.adjustThread fun _ => rfl
  exact (hwait.modifyThread (Arena.isLive_modifyAt.trans hlive)).retain

end Heap

namespace Tidy

/-! ## Stacks and built-ins -/

section

variable (hw : Tidy h₀ before w X) (hr : w.heap.Reached X t) (ht : w.heap.thread t = .ok x)
  (hobject : (f x).object = x.object) (hcatchers : ∀ x, ∀ c ∈ (f x).catchers, c ∈ x.catchers)
include hw hr ht hobject hcatchers

/-- A thread gives references up. -/
theorem editThread (hrefs : ((f x).refs : Multiset Handle) + given = x.refs + 0) :
    Tidy h₀ before ⟨w.heap.modifyThread t f, w.host⟩ (X + given) := by
  have hk : w.heap.Still (X + 0) := by simpa using hw.still
  exact hw.edit (hk.editThread (Heap.steady_outsidePass []) ht hobject hrefs)
    (.editThread (Heap.live_of_thread ht) hr.usable hcatchers)

/-- A thread takes references, and may give some up. -/
theorem storeThread (hrs : ∀ q ∈ rs, w.heap.Reached X q)
    (hrefs : ((f x).refs : Multiset Handle) + given = x.refs + rs) :
    Tidy h₀ before ⟨(w.heap.modifyThread t f).retainAll rs, w.host⟩ (X + given) :=
  hw.edit (hw.still.storeThread (Heap.steady_outsidePass []) ht hobject (fun _ q hq => hw.live (hrs q hq))
    hrefs) (.storeThread (Heap.live_of_thread ht) hr.usable hcatchers fun q hq => (hrs q hq).usable)

end

section

variable (hh : host.Silent) (hw : Tidy h₀ before w X) (hr : w.heap.Reached X t)
include hh hw hr

omit hh in
theorem push (hv : ∀ q ∈ v.refs, w.heap.Reached X q) : Tidily h₀ before (push t v) w X := by
  unfold CountedHeap.push Tidily
  simp only [meets_bind, meets_check, meets_surely, after_modifyHeap]
  refine ⟨fun _ _ => hw, fun _ hc => ?_⟩
  obtain ⟨-, x, hx, -⟩ := Heap.checkPush_eq_ok hc
  rw [← add_zero X]
  exact hw.storeThread hr hx rfl (fun _ _ => id) hv (Thread.refs_push v)

omit hh in
theorem pushActivation {a : Activation} (ha : ∀ q ∈ a.refs, w.heap.Reached X q) :
    Tidily h₀ before (pushActivation t a) w X := by
  unfold CountedHeap.pushActivation Tidily
  simp only [meets_bind, meets_check, meets_surely, after_modifyHeap]
  refine ⟨fun _ _ => hw, fun _ hc => ?_⟩
  obtain ⟨-, x, hx, -⟩ := Heap.checkActivation_eq_ok hc
  rw [← add_zero X]
  exact hw.storeThread hr hx rfl (fun _ _ => id) ha (Thread.refs_pushActivation a)

omit hh in
/-- A catcher names a string. -/
theorem pushCatcher {c : Catcher} : Tidily h₀ before (pushCatcher t c) w X := by
  unfold CountedHeap.pushCatcher Tidily
  simp only [meets_bind, meets_check, meets_surely, after_modifyHeap]
  refine ⟨fun _ _ => hw, fun _ hc => ?_⟩
  obtain ⟨hname, x, hx, -⟩ := Heap.checkCatcher_eq_ok hc
  refine hw.edit (hw.still.adjustThread (Heap.steady_outsidePass []) hx rfl rfl)
    (.modifyThread (Heap.live_of_thread hx) hr.usable fun y q hq => ?_)
  obtain ⟨d, hd, hqd⟩ := List.mem_flatMap.mp hq
  rcases Array.mem_push.mp (Array.mem_toList_iff.mp hd) with hd | rfl
  · exact .inl (List.mem_flatMap.mpr ⟨d, Array.mem_toList_iff.mpr hd, hqd⟩)
  · exact .inr (hname q (Option.mem_toList.mp hqd))

omit hh in
theorem unwindCatchers : Meets (unwindCatchers t n) w (fun _ w' => Tidy h₀ before w' X)
    (fun _ w' => Tidy h₀ before w' X ∧ w'.heap.Reached X t) := by
  unfold CountedHeap.unwindCatchers
  simp only [meets_bind, meets_check, meets_surely, after_modifyHeap]
  refine ⟨fun _ _ => hw, fun x hx => ⟨?_, hr.modifyThread (Heap.live_of_thread hx)⟩⟩
  exact hw.edit (hw.still.adjustThread (Heap.steady_outsidePass []) hx rfl rfl)
    (.editThread (Heap.live_of_thread hx) hr.usable fun _ _ => Thread.mem_takeCatchers)

theorem pop : Tidily h₀ before ((Engine.recorded host fuel).pop t) w X := by
  unfold Engine.pop Tidily
  simp only [meets_bind, meets_check, meets_surely, after_modifyHeap]
  refine ⟨fun _ _ => hw, fun v hc => ?_⟩
  obtain ⟨x, hx, hv⟩ := Heap.checkPop_eq_ok hc
  exact giveBack hh (hw.editThread hr hx rfl (fun _ _ => id) (Thread.refs_pop hv))

theorem popN : Tidily h₀ before ((Engine.recorded host fuel).popN t n) w X := by
  unfold Engine.popN Tidily
  simp only [meets_bind, meets_check, meets_surely, after_modifyHeap]
  refine ⟨fun _ _ => hw, ?_⟩
  rintro ⟨values, length⟩ hc
  obtain ⟨x, hx, rfl⟩ := Heap.checkPopN_eq_ok hc
  exact giveBack hh (hw.editThread hr hx rfl (fun _ _ => id) (Thread.refs_truncate length))

theorem replace (hv : ∀ q ∈ v.refs, w.heap.Reached X q) :
    Tidily h₀ before ((Engine.recorded host fuel).replace t i v) w X := by
  unfold Engine.replace Tidily
  simp only [meets_bind, meets_check, meets_surely, after_modifyHeap]
  refine ⟨fun _ _ => hw, fun old hc => ?_⟩
  obtain ⟨-, x, hx, ho⟩ := Heap.checkReplace_eq_ok hc
  exact giveBack hh (hw.storeThread hr hx rfl (fun _ _ => id) hv (Thread.refs_replace v ho))

theorem setBuiltin {id : BuiltinId} {o : Option Handle} (ho : ∀ q ∈ o.toList, w.heap.Reached X q) :
    Tidily h₀ before ((Engine.recorded host fuel).setBuiltin t id o) w X := by
  unfold Engine.setBuiltin Tidily
  simp only [meets_bind, meets_check, meets_surely, after_modifyHeap]
  refine ⟨fun _ _ => hw, fun old hc => ?_⟩
  obtain ⟨-, x, hx, rfl⟩ := Heap.checkBuiltin_eq_ok hc
  exact giveBack hh (hw.storeThread hr hx rfl (fun _ _ hc => hc) ho (Thread.refs_setBuiltin id o))

/-- Calls are left one after the other, and the thread stays in reach. -/
theorem unwindWithin {length : ℕ} : Meets ((Engine.recorded host fuel).unwindWithin t length n) w
    (fun _ w' => Tidy h₀ before w' X) (fun _ w' => Tidy h₀ before w' X ∧ w'.heap.Reached X t) := by
  induction n generalizing w with
  | zero => simp only [Engine.unwindWithin, meets_none]
  | succ n ih =>
    simp only [Engine.unwindWithin, meets_bind, meets_check]
    refine ⟨fun _ _ => hw, fun found hc => ?_⟩
    cases found with
    | none => simpa only [meets_pure] using ⟨hw, hr⟩
    | some a =>
      obtain ⟨x, hx, ha⟩ := Heap.checkUnwind_eq_ok hc
      have hleft : Tidy h₀ before ⟨w.heap.modifyThread t (·.popActivation a), w.host⟩ (X + a.refs) :=
        hw.editThread hr hx rfl (fun _ _ => Thread.mem_catchersBelow) (Thread.refs_popActivation ha)
      have hstay : (w.heap.modifyThread t (·.popActivation a)).Reached X t :=
        hr.modifyThread (Heap.live_of_thread hx)
      simp only [meets_bind, meets_surely, after_modifyHeap]
      exact (releaseAll hh hleft).mono fun _ w₁ h₁ => ih h₁.1 (h₁.1.reached h₁.2 hstay)

theorem unwindCalls : Meets ((Engine.recorded host fuel).unwindCalls t n) w
    (fun _ w' => Tidy h₀ before w' X) (fun _ w' => Tidy h₀ before w' X ∧ w'.heap.Reached X t) := by
  unfold Engine.unwindCalls
  simp only [meets_bind, meets_check]
  exact ⟨fun _ _ => hw, fun _ _ => unwindWithin hh hw hr⟩

theorem popActivation : Tidily h₀ before ((Engine.recorded host fuel).popActivation t) w X := by
  unfold Engine.popActivation Tidily
  simp only [meets_bind, meets_check]
  refine ⟨fun _ _ => hw, fun calls _ => ?_⟩
  split
  · simpa only [meets_refuse] using hw
  · exact Meets.mono (unwindCalls hh hw hr) (fun _ _ h => h) fun _ _ h => h.1

/-! ## Switches -/

omit hh in
theorem startThread : Tidily h₀ before (startThread t) w X := by
  unfold CountedHeap.startThread Tidily
  simp only [meets_bind, meets_check, meets_surely, after_modifyHeap]
  refine ⟨fun _ _ => hw, fun _ hc => ?_⟩
  obtain ⟨x, hx⟩ := Heap.checkStart_eq_ok hc
  refine hw.edit ((hw.still.setState (Heap.steady_outsidePass []) hx .running).setCurrent
    (Heap.steady_outsidePass []) _) ((Confined.setState (Heap.live_of_thread hx) hr.usable).trans
      (.setCurrent fun c hc => ?_))
  cases hc
  exact hr.usable

theorem resumeThread : Tidily h₀ before ((Engine.recorded host fuel).resumeThread t) w X := by
  unfold Engine.resumeThread Tidily
  simp only [meets_bind, meets_check]
  refine ⟨fun _ _ => hw, ?_⟩
  rintro ⟨c, old⟩ hc
  obtain ⟨hcurrent, -⟩ := Heap.posts_of_checkResume hc
  obtain ⟨⟨y, hy⟩, hne, x, hx, rfl⟩ := Heap.checkResume_eq_ok hc
  have hlive := Heap.live_of_thread hx
  have hswitched := hw.edit (hw.still.switchTo (Heap.steady_outsidePass []) hy hx hne)
    (.switchTo (Heap.live_of_thread hy) (Heap.usable_of_current hcurrent) hlive hr.usable)
  simp only [meets_surely, after_modifyHeap]
  refine (releaseAll hh hswitched).mono fun _ w₁ h₁ => ?_
  have hr₁ := h₁.1.reached h₁.2 (hr.switchTo hlive)
  refine h₁.1.edit (h₁.1.still.setCurrent (Heap.steady_outsidePass []) _) (.setCurrent fun d hd => ?_)
  cases hd
  exact hr₁.usable

omit hr in
theorem yieldThread : Tidily h₀ before (Engine.recorded host fuel).yieldThread w X := by
  unfold Engine.yieldThread Tidily
  simp only [meets_bind, meets_check]
  refine ⟨fun _ _ => hw, ?_⟩
  rintro ⟨c, r⟩ hc
  obtain ⟨hcurrent, -⟩ := Heap.posts_of_checkYield hc
  obtain ⟨⟨y, hy, hresumer⟩, x, hx⟩ := Heap.checkYield_eq_ok hc
  have hu := Heap.usable_of_current (X := X) hcurrent
  simp only [meets_surely, after_modifyHeap]
  refine (release hh (hw.edit (hw.still.switchBack (Heap.steady_outsidePass []) hy hresumer hx) ?_)).mono
    fun _ _ h => h.1
  exact .switchBack (Heap.live_of_thread hy) hu (Heap.live_of_thread hx) (hu.resumer hy hresumer)

theorem terminateThread : Tidily h₀ before ((Engine.recorded host fuel).terminateThread t) w X := by
  unfold Engine.terminateThread Tidily
  simp only [meets_bind, meets_check]
  refine ⟨fun _ _ => hw, fun _ _ => ?_⟩
  refine Meets.mono (unwindCatchers hw hr) (fun _ _ h => h) fun _ w₁ h₁ => ?_
  refine Meets.mono (unwindCalls hh h₁.1 h₁.2) (fun _ _ h => h) ?_
  rintro _ w₂ ⟨hw₂, hr₂⟩
  refine ⟨fun _ _ => hw₂, fun values hvalues => ?_⟩
  simp only [meets_surely, after_modifyHeap]
  obtain ⟨x, hx, rfl⟩ := Heap.map_eq_ok.mp hvalues
  have hcleared := hw₂.editThread hr₂ hx
    (f := fun x => { x with values := (x.values.setBottom 0).truncate 0 }) rfl (fun _ _ => id) Thread.refs_clear
  refine (releaseAll hh hcleared).mono fun _ w₃ h₃ => ⟨fun _ _ => h₃.1, fun resumer hresumer => ?_⟩
  have hr₃ := h₃.1.reached h₃.2 (hr₂.modifyThread (Heap.live_of_thread hx))
  obtain ⟨y, hy, rfl⟩ := Heap.map_eq_ok.mp hresumer
  refine giveBack hh (h₃.1.edit (h₃.1.still.endThread (Heap.steady_outsidePass []) hy) ?_)
  exact .endThread (Heap.live_of_thread hy) hr₃.usable fun q hq => hr₃.usable.resumer hy hq

end

/-! ## All operations -/

section

variable {β : Type} {op : Operation β}

/-- An operation ends tidily, with what the client then holds. -/
def Ledgered (h₀ : Heap) (before : List Event) (op : Operation β) (x : Attempt (σ × List Event) β)
    (w : World (σ × List Event)) (X : Multiset Handle) : Prop :=
  Meets x w (fun _ w' => Tidy h₀ before w' (X - op.taken))
    fun a w' => Tidy h₀ before w' (X - op.taken + op.given w.heap a)

/-- Operations that take no references, and leave none. -/
theorem keeping {x : Attempt (σ × List Event) β} (htaken : op.taken = 0)
    (hgiven : ∀ h a, op.given h a = 0) (hx : Tidily h₀ before x w X) : Ledgered h₀ before op x w X := by
  refine Meets.mono hx (fun e w' hw' => ?_) fun a w' hw' => ?_
  · rwa [htaken, tsub_zero]
  · rwa [htaken, hgiven, tsub_zero, add_zero]

/-- Operations that leave the count of a cell. -/
theorem making {op : Operation Handle} {x : Attempt (σ × List Event) Handle} (htaken : op.taken = 0)
    (hgiven : ∀ h r, op.given h r = {r}) (hx : Meets x w (fun _ w' => Tidy h₀ before w' X)
      fun r w' => Tidy h₀ before w' (X + {r})) : Ledgered h₀ before op x w X := by
  refine Meets.mono hx (fun e w' hw' => ?_) fun r w' hw' => ?_
  · rwa [htaken, tsub_zero]
  · rwa [htaken, hgiven, tsub_zero]

theorem growing {op : Operation Handle} {x : Attempt (σ × List Event) Handle} (htaken : op.taken = 0)
    (hgiven : ∀ h r, op.given h r = {r}) (hx : Meets x w (fun _ w' => Tidy h₀ before w' X)
      fun r w' => Grown h₀ before w X r w') : Ledgered h₀ before op x w X :=
  making htaken hgiven (Meets.mono hx (fun _ _ h => h) fun _ _ h => h.1)

/-- Every operation of a careful client ends tidily. -/
theorem ledgered (hh : host.Silent) (hw : Tidy h₀ before w X) (hX : op.taken ≤ X)
    (hc : op.Careful w.heap X) :
    Ledgered h₀ before op ((Engine.recorded host fuel).perform op) w X := by
  cases op
  case release v =>
    have hw' : Tidy h₀ before w (X - (v.refs : List Handle) + v.refs) := by
      rwa [Multiset.sub_add_cancel (show (v.refs : Multiset Handle) ≤ X from hX)]
    refine meets_surely.mpr ((giveBack hh hw').mono fun _ w₁ hw₁ => ?_)
    rwa [show ∀ h a, Operation.given (.release v) h a = 0 from fun _ _ => rfl, add_zero]
  case retain v =>
    refine meets_surely.mpr (after_modifyHeap.mpr ?_)
    rw [show (Operation.retain v).taken = 0 from rfl, tsub_zero]
    exact hw.edit (hw.still.retainLive (Heap.steady_outsidePass []))
      (.retainAll fun q hq => (hc q hq).usable)
  case registerNative =>
    refine keeping rfl (fun _ _ => rfl) (meets_surely.mpr (after_change.mpr ?_))
    exact hw.edit (hw.still.aside (Heap.steady_outsidePass []) rfl rfl rfl rfl rfl rfl rfl)
      (.beside rfl rfl rfl)
  case collect o =>
    exact keeping rfl (fun _ _ => rfl) (meets_surely.mpr ((collect hh hw).mono fun _ _ h => h.1))
  case addRoot v => exact keeping rfl (fun _ _ => rfl) (addRoot hw fun q hq => (hc q hq).usable)
  case setRoot n v => exact keeping rfl (fun _ _ => rfl) (setRoot hh hw fun q hq => (hc q hq).usable)
  case removeRoot n => exact keeping rfl (fun _ _ => rfl) (removeRoot hh hw)
  case allocObject proto =>
    exact growing rfl (fun _ _ => rfl) (create hh hw hc fun _ hq => by cases hq)
  case allocArray proto =>
    exact growing rfl (fun _ _ => rfl) (create hh hw hc fun _ hq => by cases hq)
  case allocEnvironment parent =>
    exact growing rfl (fun _ _ => rfl) (create hh hw hc fun _ hq => by cases hq)
  case allocFunction proto constants functions code =>
    exact making rfl (fun _ _ => rfl) (allocFunction hh hw hc)
  case allocNativeFunction id proto =>
    refine growing rfl (fun _ _ => rfl) (meets_bind.mpr (meets_check.mpr ⟨fun _ _ => hw, fun _ _ => ?_⟩))
    exact create hh hw hc fun _ hq => by cases hq
  case allocBuffer length dynamic =>
    refine growing rfl (fun _ _ => rfl) ?_
    change Meets ((Engine.recorded host fuel).allocBuffer length dynamic) w _ _
    rw [Engine.allocBuffer_eq]
    exact allocBytes hh hw
  case allocBufferFrom bytes => exact growing rfl (fun _ _ => rfl) (allocBytes hh hw)
  case allocThread source =>
    exact growing rfl (fun _ _ => rfl) (allocThread hh hw fun t ht =>
      hc t (Option.mem_toList.mpr ht))
  case intern content isStatic =>
    exact making rfl (fun _ _ => rfl) (Meets.mono (intern hh hw) (fun _ _ h => h) fun _ _ h => h.1.1)
  case charOffset s i => exact keeping rfl (fun _ _ => rfl) (charOffset hw)
  case bufferWrite b i byte =>
    exact keeping rfl (fun _ _ => rfl) (bufferWrite hw (hc b (.head _)).usable)
  case bufferResize b length =>
    exact keeping rfl (fun _ _ => rfl) (bufferResize hh hw (hc b (.head _)))
  case putProp r key v =>
    exact keeping rfl (fun _ _ => rfl) (putSlot hh hw (hc r (.head _)).usable
      (hc key (.tail _ (.head _))).usable fun q hq => (hc q (.tail _ (.tail _ hq))).usable)
  case putAccessor r key getter setter =>
    exact keeping rfl (fun _ _ => rfl) (putSlot hh hw (hc r (.head _)).usable
      (hc key (.tail _ (.head _))).usable fun q hq => (hc q (.tail _ (.tail _ hq))).usable)
  case deleteProp r key =>
    exact keeping rfl (fun _ _ => rfl) (deleteProp hh hw (hc r (.head _)).usable)
  case setPrototype r proto =>
    exact keeping rfl (fun _ _ => rfl) (setPrototype hh hw (hc r (.head _)).usable
      fun q hq => (hc q (.tail _ hq)).usable)
  case arrayPush r v =>
    exact keeping rfl (fun _ _ => rfl) (arrayPush hw (hc r (.head _)).usable
      fun q hq => (hc q (.tail _ hq)).usable)
  case arraySet r i v =>
    exact keeping rfl (fun _ _ => rfl) (arraySet hh hw (hc r (.head _)).usable
      fun q hq => (hc q (.tail _ hq)).usable)
  case setFinalizer r function =>
    exact keeping rfl (fun _ _ => rfl) (setFinalizer hh hw (hc r (.head _)) fun q hq =>
      hc q (.tail _ hq))
  case push t v =>
    exact keeping rfl (fun _ _ => rfl) (push hw (hc t (.head _)) fun q hq => hc q (.tail _ hq))
  case pop t => exact keeping rfl (fun _ _ => rfl) (pop hh hw (hc t (.head _)))
  case popN t n => exact keeping rfl (fun _ _ => rfl) (popN hh hw (hc t (.head _)))
  case replace t i v =>
    exact keeping rfl (fun _ _ => rfl) (replace hh hw (hc t (.head _)) fun q hq => hc q (.tail _ hq))
  case setBuiltin t id r =>
    exact keeping rfl (fun _ _ => rfl) (setBuiltin hh hw (hc t (.head _)) fun q hq =>
      hc q (.tail _ hq))
  case pushActivation t a =>
    exact keeping rfl (fun _ _ => rfl) (pushActivation hw (hc t (.head _)) fun q hq =>
      hc q (.tail _ hq))
  case popActivation t => exact keeping rfl (fun _ _ => rfl) (popActivation hh hw (hc t (.head _)))
  case unwindCalls t length =>
    exact keeping rfl (fun _ _ => rfl) (Meets.mono (unwindCalls hh hw (hc t (.head _)))
      (fun _ _ h => h) fun _ _ h => h.1)
  case pushCatcher t c => exact keeping rfl (fun _ _ => rfl) (pushCatcher hw (hc t (.head _)))
  case unwindCatchers t length =>
    exact keeping rfl (fun _ _ => rfl) (Meets.mono (unwindCatchers hw (hc t (.head _)))
      (fun _ _ h => h) fun _ _ h => h.1)
  case startThread t => exact keeping rfl (fun _ _ => rfl) (startThread hw (hc t (.head _)))
  case resumeThread t => exact keeping rfl (fun _ _ => rfl) (resumeThread hh hw (hc t (.head _)))
  case yieldThread => exact keeping rfl (fun _ _ => rfl) (yieldThread hh hw)
  case terminateThread t =>
    exact keeping rfl (fun _ _ => rfl) (terminateThread hh hw (hc t (.head _)))

/-- So it keeps the record in order. -/
theorem perform (hh : host.Silent) (hw : Tidy h₀ before w X) (hX : op.taken ≤ X)
    (hc : op.Careful w.heap X) : After ((Engine.recorded host fuel).perform op).run w fun answer w' =>
      Tidy h₀ before w' (op.ledger w.heap X answer) := by
  refine After.mono (ledgered hh hw hX hc) fun answer w' hw' => ?_
  cases answer with
  | ok a => exact hw'
  | error e => exact hw'

end

end Tidy

end CountedHeap
