import CountedHeap.Proofs.Action
import CountedHeap.Proofs.Heap.Blind
import CountedHeap.Proofs.Heap.Posts
import CountedHeap.Proofs.Keep.Operations

/-!
# Relations that every operation respects

An operation is made of strokes, looks at the heap, counts given back and passes, one after another.
None of them has to do with how many finalizers have failed. A relation between actions that respects
some changes of the heap, and sequences, respects everything that is made of such changes, wherever it
is performed.

* `Simulation`: such a relation, with the changes that it respects.
* `Simulation.Agree`: engines that are related in what they give back and in their passes.
* `Simulation.Makes`: engines that are related in what they decide about cells.
* `Simulation.Agree.perform`: then every operation is related, if those that switch threads are.
* `Simulation.Agree.perform_all`: where everything that operations do is respected, all of them are.
* `Simulation.Withering.pass`, `Simulation.Withering.drainQueue`: passes and drains are related if calls
  of finalizers are.
-/

namespace CountedHeap

open Heap (Touches Reroots Strokes Shifts Turns Withers)

/-- What precedes the end of a thread: its stacks are emptied. -/
def Engine.unwindAll {σ : Type} (E : Engine σ) (t : Handle) : Attempt σ Unit := do
  check (·.checkState t .running)
  unwindCatchers t 0
  E.unwindCalls t 0
  let values ← check (·.stackValues t)
  surely (modifyHeap (·.clearValues t))
  surely (E.releaseAll (values.flatMap Value.refs))

theorem Engine.terminateThread_eq {σ : Type} (E : Engine σ) (t : Handle) :
    E.terminateThread t = (do
      E.unwindAll t
      let resumer ← check fun h => (h.thread t).map (·.resumer)
      surely (modifyHeap (·.endThread t resumer))
      surely (E.releaseAll resumer.toList)) := by
  unfold terminateThread unwindAll
  simp only [bind_assoc]

/-! ## Changes of threads that their checks allow

A check allows a change only where it leaves the thread in order, so it makes no difference if the
change is not made elsewhere. -/

/-- Where the check has allowed it, a change that leaves the thread in order is that change. -/
theorem Heap.modifyThread_orderly {h : Heap} {t : Handle} {x : Thread} {f : Thread → Thread}
    (hx : h.thread t = .ok x) (hf : x.Proper → (f x).Proper) :
    h.modifyThread t f = h.modifyThread t (Thread.orderly f) :=
  modifyThread_congr hx (Thread.orderly_eq hf).symm

/-- A catcher with its name, if this is the name of a string. -/
def Heap.lettered (h : Heap) (c : Catcher) : Catcher :=
  { c with name := c.name.filter fun q => (h.text q).isOk }

theorem Heap.text_of_lettered {h : Heap} {c : Catcher} {q : Handle} (hq : q ∈ (h.lettered c).name) :
    ∃ t, h.text q = .ok t := by
  obtain ⟨-, hok⟩ := Option.filter_eq_some_iff.mp hq
  cases ht : h.text q with
  | ok t => exact ⟨t, rfl⟩
  | error e =>
    rw [ht] at hok
    cases hok

theorem Heap.lettered_eq {h : Heap} {c : Catcher} (hc : ∀ q ∈ c.name, ∃ t, h.text q = .ok t) :
    h.lettered c = c := by
  have hname : c.name.filter (fun q => (h.text q).isOk) = c.name := by
    cases hq : c.name with
    | none => rfl
    | some q =>
      obtain ⟨t, ht⟩ := hc q hq
      rw [Option.filter_some, ht]
      rfl
  unfold lettered
  rw [hname]

section

variable {σ : Type} {t : Handle}

theorem push_eq (v : Value) : (push t v : Attempt σ Unit) = (do
    check (·.checkPush t v)
    surely (modifyHeap fun h => (h.modifyThread t
      (Thread.orderly fun x => { x with values := x.values.push v })).retainAll v.refs)) := by
  refine check_bind_congr fun w _ hc => ?_
  obtain ⟨-, x, hx, hroom⟩ := Heap.checkPush_eq_ok hc
  let run (h : Heap) : Option (Except HeapError Unit × World σ) := some (.ok (), ⟨h, w.host⟩)
  have hsame := Heap.modifyThread_orderly hx (f := fun x => { x with values := x.values.push v })
    fun hp => hp.withValues (hp.values.push hroom)
  exact congrArg (fun h => run (h.retainAll v.refs)) hsame

theorem pushActivation_eq (a : Activation) : (pushActivation t a : Attempt σ Unit) = (do
    check (·.checkActivation t a)
    surely (modifyHeap fun h =>
      (h.modifyThread t (Thread.orderly (·.pushActivation a))).retainAll a.refs)) := by
  refine check_bind_congr fun w _ hc => ?_
  obtain ⟨-, x, hx, hroom⟩ := Heap.checkActivation_eq_ok hc
  let run (h : Heap) : Option (Except HeapError Unit × World σ) := some (.ok (), ⟨h, w.host⟩)
  have hsame := Heap.modifyThread_orderly hx (f := (·.pushActivation a)) (·.pushActivation hroom)
  exact congrArg (fun h => run (h.retainAll a.refs)) hsame

theorem pushCatcher_eq (c : Catcher) : (pushCatcher t c : Attempt σ Unit) = (do
    check (·.checkCatcher t c)
    surely (modifyHeap fun h => h.modifyThread t
      (Thread.orderly fun x => { x with catchers := x.catchers.push (h.lettered c) }))) := by
  refine check_bind_congr fun w _ hc => ?_
  obtain ⟨hname, x, hx, hcall, hroom⟩ := Heap.checkCatcher_eq_ok hc
  let run (h : Heap) : Option (Except HeapError Unit × World σ) := some (.ok (), ⟨h, w.host⟩)
  have hsame := Heap.modifyThread_orderly hx (f := fun x => { x with catchers := x.catchers.push c })
    (·.pushCatcher hcall hroom)
  change run (w.heap.modifyThread t fun x => { x with catchers := x.catchers.push c }) =
    run (w.heap.modifyThread t (Thread.orderly fun x =>
      { x with catchers := x.catchers.push (w.heap.lettered c) }))
  rw [hsame, Heap.lettered_eq hname]

namespace Engine

variable (E : Engine σ)

theorem pop_eq : E.pop t = (do
    let v ← check (·.checkPop t)
    surely (modifyHeap (·.modifyThread t (Thread.orderly fun x => { x with values := x.values.pop })))
    surely (E.releaseAll v.refs)) := by
  refine check_bind_congr fun w v hc => ?_
  obtain ⟨x, hx, hv⟩ := Heap.checkPop_eq_ok hc
  have hsame := Heap.modifyThread_orderly hx (f := fun x => { x with values := x.values.pop })
    fun hp => hp.withValues (hp.values.pop hv)
  exact modifyHeap_bind_congr hsame

/-- An unwinding leaves the innermost call, for that is the one that it has found. -/
theorem unwindWithin_succ (length n : ℕ) :
    E.unwindWithin t length (n + 1) = (do
      match ← check (·.checkUnwind t length) with
      | none => return
      | some a =>
        surely (modifyHeap (·.modifyThread t (Thread.orderly (·.popActivation a))))
        surely (E.releaseAll a.refs)
        E.unwindWithin t length n) := by
  rw [unwindWithin]
  refine check_bind_congr fun w found hc => ?_
  cases found with
  | none => rfl
  | some a =>
    obtain ⟨x, hx, ha⟩ := Heap.checkUnwind_eq_ok hc
    have hsame := Heap.modifyThread_orderly hx (f := (·.popActivation a)) (·.popActivation ha)
    exact modifyHeap_bind_congr hsame

/-- A thread is not resumed by itself. -/
theorem resumeThread_eq : E.resumeThread t = (do
    let (c, old) ← check (·.checkResume t)
    surely (modifyHeap fun h => if c.index = t.index then h else h.switchTo c t)
    surely (E.releaseAll old.toList)
    surely (modifyHeap (·.setCurrent (some t)))) := by
  refine check_bind_congr fun w found hc => ?_
  obtain ⟨-, ⟨o, hrun⟩, hne, s, hidle, -⟩ := Heap.posts_of_checkResume hc
  have hindex : found.1.index ≠ t.index := fun hi => hne (Heap.eq_of_posts hrun hidle hi)
  exact modifyHeap_bind_congr (if_neg hindex).symm

end Engine

end

/-- The buffer of zero bytes takes up what has been made room for. -/
theorem Engine.allocBuffer_eq {σ : Type} (E : Engine σ) (length : ℕ) (dynamic : Bool) :
    E.allocBuffer length dynamic = E.alloc (.buffer (.zeroed length dynamic)) := by
  have hsize : (Body.buffer (.zeroed length dynamic)).size = Body.cellBytes + length :=
    congrArg (Body.cellBytes + ·) (size_zeroBytes length)
  unfold allocBuffer alloc
  rw [hsize]

/-- One more finalizer has failed. -/
def Heap.countFailure (h : Heap) : Heap :=
  h.modifyCounters fun c => { c with finalizerErrors := c.finalizerErrors + 1 }

/-- A relation between actions that respects some changes of the heap, looks at it, and sequences. -/
structure Simulation (τ σ : Type) where
  rel : {α : Type} → Action τ α → Action σ α → Prop
  /-- The changes that are respected. -/
  step : Heap → Heap → Prop
  pure : ∀ {α : Type} {a : α}, rel (Pure.pure a) (Pure.pure a)
  bind : ∀ {α β : Type} {x' : Action τ α} {x : Action σ α} {f' : α → Action τ β}
    {f : α → Action σ β}, rel x' x → (∀ a, rel (f' a) (f a)) → rel (x' >>= f') (x >>= f)
  change : ∀ {α : Type} {f : Heap → Heap × α}, Oblivious f → (∀ h, step h (f h).1) →
    rel (CountedHeap.change f) (CountedHeap.change f)
  query : ∀ {α : Type} {f : Heap → α}, Blind f → rel (CountedHeap.query f) (CountedHeap.query f)
  fail : (∀ h, step h (Heap.countFailure h)) →
    rel (CountedHeap.modifyHeap Heap.countFailure) (CountedHeap.modifyHeap Heap.countFailure)
  stop : ∀ {α : Type}, rel (fun _ => none : Action τ α) (fun _ => none)

namespace Simulation

variable {σ τ α β : Type} (S : Simulation τ σ)

/-- What decides nothing about any cell is respected. -/
def Touching : Prop :=
  ∀ h h', Touches h h' → S.step h h'

/-- Strokes are respected. -/
def Stroking : Prop :=
  ∀ h h', Strokes h h' → S.step h h'

/-- It is respected that there are other roots. -/
def Rooting : Prop :=
  ∀ h h', Reroots h h' → S.step h h'

/-- It is respected that threads are switched. -/
def Shifting : Prop :=
  ∀ h h', Shifts h h' → S.step h h'

/-- It is respected that finalizers come into play. -/
def Rekeying : Prop :=
  ∀ (h : Heap) key, S.step h { h with finalizerKey := some key }

/-- Strokes are respected, and whatever operations do besides. -/
def Turning : Prop :=
  ∀ h h', Turns h h' → S.step h h'

/-- What passes and drains do is respected. -/
def Withering : Prop :=
  ∀ h h', Withers h h' → S.step h h'

variable {S}

theorem Stroking.touching (hS : S.Stroking) : S.Touching :=
  fun h h' ht => hS h h' (.of_touches ht)

theorem Stroking.rooting (hS : S.Stroking) : S.Rooting :=
  fun h h' hr => hS h h' (.of_reroots hr)

theorem Shifting.touching (hS : S.Shifting) : S.Touching :=
  fun h h' ht => hS h h' (Relation.ReflTransGen.mono (fun _ _ => Heap.Shift.touch) h h' ht)

theorem Turning.stroking (hS : S.Turning) : S.Stroking :=
  fun h h' hs => hS h h' (Relation.ReflTransGen.mono (fun _ _ => Heap.Turn.stroke) h h' hs)

theorem Turning.shifting (hS : S.Turning) : S.Shifting :=
  fun h h' hs => hS h h' (Relation.ReflTransGen.mono (fun _ _ => Heap.Turn.shift) h h' hs)

theorem modifyHeap {f : Heap → Heap} (hn : Neutral f) (hf : ∀ h, S.step h (f h)) :
    S.rel (CountedHeap.modifyHeap f) (CountedHeap.modifyHeap f) :=
  S.change (f := fun h => (f h, ())) hn.oblivious hf

theorem ite {c : Prop} [Decidable c] {x' y' : Action τ α} {x y : Action σ α} (hx : S.rel x' x)
    (hy : S.rel y' y) : S.rel (if c then x' else y') (if c then x else y) := by
  split
  · exact hx
  · exact hy

variable (S)

/-- The same for attempts. -/
def Lift (x' : Attempt τ α) (x : Attempt σ α) : Prop :=
  S.rel x'.run x.run

namespace Lift

variable {S}

theorem pure {a : α} : S.Lift (Pure.pure a) (Pure.pure a) :=
  S.pure

theorem bind {x' : Attempt τ α} {x : Attempt σ α} {f' : α → Attempt τ β} {f : α → Attempt σ β}
    (hx : S.Lift x' x) (hf : ∀ a, S.Lift (f' a) (f a)) : S.Lift (x' >>= f') (x >>= f) := by
  unfold Lift
  rw [ExceptT.run_bind, ExceptT.run_bind]
  refine S.bind hx fun r => ?_
  cases r with
  | ok a => exact hf a
  | error e => exact S.pure

theorem surely {x' : Action τ α} {x : Action σ α} (hx : S.rel x' x) :
    S.Lift (surely x') (surely x) := by
  unfold Lift CountedHeap.surely
  rw [ExceptT.run_lift, ExceptT.run_lift, map_eq_pure_bind, map_eq_pure_bind]
  exact S.bind hx fun _ => S.pure

theorem query {f : Heap → α} (hf : Blind f) :
    S.Lift (CountedHeap.surely (CountedHeap.query f)) (CountedHeap.surely (CountedHeap.query f)) :=
  surely (S.query hf)

theorem change {f : Heap → Heap × α} (hn : Oblivious f) (hf : ∀ h, S.step h (f h).1) :
    S.Lift (CountedHeap.surely (CountedHeap.change f)) (CountedHeap.surely (CountedHeap.change f)) :=
  surely (S.change hn hf)

theorem modifyHeap {f : Heap → Heap} (hn : Neutral f) (hf : ∀ h, S.step h (f h)) :
    S.Lift (CountedHeap.surely (CountedHeap.modifyHeap f))
      (CountedHeap.surely (CountedHeap.modifyHeap f)) :=
  surely (S.modifyHeap hn hf)

theorem check {f : Heap → Except HeapError α} (hf : Blind f) :
    S.Lift (check f) (check f) :=
  S.query hf

theorem refuse {e : HeapError} : S.Lift (refuse e : Attempt τ α) (refuse e) :=
  S.pure

theorem outcome {x' : Attempt τ α} {x : Attempt σ α} (hx : S.Lift x' x) :
    S.Lift (outcome x') (outcome x) :=
  surely hx

theorem stop : S.Lift (ExceptT.mk fun _ => none : Attempt τ α) (ExceptT.mk fun _ => none) :=
  S.stop

theorem ite {c : Prop} [Decidable c] {x' y' : Attempt τ α} {x y : Attempt σ α}
    (hx : S.Lift x' x) (hy : S.Lift y' y) :
    S.Lift (if c then x' else y') (if c then x else y) := by
  split
  · exact hx
  · exact hy

section

variable {E' : Engine τ} {E : Engine σ}

theorem allocObjectWith (hS : S.Touching) {o : Object}
    (halloc : S.Lift (E'.alloc (.object o)) (E.alloc (.object o))) :
    S.Lift (E'.allocObjectWith o) (E.allocObjectWith o) :=
  .bind (.check fun _ _ => rfl) fun _ => .bind halloc fun _ =>
    .bind (.modifyHeap Heap.neutral_retainAll fun _ => hS _ _ .retainAll) fun _ => .pure

theorem allocThread (hS : S.Touching) {source : Option Handle}
    (halloc : ∀ config builtins,
      let t := Thread.create config builtins.threadPrototype builtins
      S.Lift (E'.alloc (.thread t)) (E.alloc (.thread t))) :
    S.Lift (E'.allocThread source) (E.allocThread source) :=
  .bind (.check fun _ _ => rfl) fun _ => .bind (.query fun _ _ => rfl) fun _ =>
    .bind (halloc _ _) fun _ =>
      .bind (.modifyHeap Heap.neutral_retainAll fun _ => hS _ _ .retainAll) fun _ => .pure

end

end Lift

/-- Engines whose counts given back and passes are related. -/
structure Agree (E' : Engine τ) (E : Engine σ) : Prop where
  release : ∀ r, S.rel (E'.release r) (E.release r)
  collect : ∀ o, S.rel (E'.collect o) (E.collect o)
  slack : E'.slack = E.slack

/-- Engines that are related in what they decide about cells: that they are made, and what their
prototypes, built-ins and lengths are. -/
structure Makes (E' : Engine τ) (E : Engine σ) : Prop where
  leaf : ∀ {body : Body}, body.isComposite = false → S.Lift (E'.alloc body) (E.alloc body)
  object : ∀ {o : Object}, S.Lift (E'.allocObjectWith o) (E.allocObjectWith o)
  thread : ∀ {source : Option Handle}, S.Lift (E'.allocThread source) (E.allocThread source)
  link : ∀ {r : Handle} {proto : Option Handle},
    S.Lift (E'.setPrototype r proto) (E.setPrototype r proto)
  builtin : ∀ {t : Handle} {id : BuiltinId} {r : Option Handle},
    S.Lift (E'.setBuiltin t id r) (E.setBuiltin t id r)
  resize : ∀ {r : Handle} {length : ℕ}, S.Lift (E'.bufferResize r length) (E.bufferResize r length)

namespace Agree

variable {S} {E' : Engine τ} {E : Engine σ} {r t : Handle} {rs : List Handle} {body : Body}
  {o : Object}

theorem releaseAll (h : S.Agree E' E) : S.rel (E'.releaseAll rs) (E.releaseAll rs) := by
  induction rs with
  | nil => exact S.pure
  | cons r rs ih => exact S.bind (h.release r) fun _ => ih

theorem reserve (h : S.Agree E' E) {bytes : ℕ} : S.Lift (E'.reserve bytes) (E.reserve bytes) :=
  .bind (.query fun _ _ => rfl) fun _ => .ite (.bind (.surely (h.collect _)) fun _ =>
    .bind (.query fun _ _ => rfl) fun _ => .ite .refuse .pure) .pure

/-! ### What is decided about cells -/

theorem alloc (h : S.Agree E' E) (hplace : ∀ h, S.step h (h.place body).1) :
    S.Lift (E'.alloc body) (E.alloc body) :=
  .bind h.reserve fun _ => .change (fun _ _ => rfl) hplace

theorem setPrototype (h : S.Agree E' E) {proto : Option Handle}
    (hlink : ∀ h, S.step h (h.linkPrototype r proto)) :
    S.Lift (E'.setPrototype r proto) (E.setPrototype r proto) :=
  .bind (.check Heap.blind_checkPrototype) fun _ =>
    .bind (.modifyHeap Heap.neutral_linkPrototype hlink) fun _ => .surely h.releaseAll

theorem setBuiltin (h : S.Agree E' E) {id : BuiltinId} {o : Option Handle}
    (hstore : ∀ h, S.step h (h.storeBuiltin t id o)) :
    S.Lift (E'.setBuiltin t id o) (E.setBuiltin t id o) :=
  .bind (.check fun _ _ => rfl) fun _ =>
    .bind (.modifyHeap Heap.neutral_storeBuiltin hstore) fun _ => .surely h.releaseAll

theorem bufferResize (h : S.Agree E' E) {length : ℕ}
    (hresize : ∀ h, S.step h (h.resizeBuffer r length)) :
    S.Lift (E'.bufferResize r length) (E.bufferResize r length) := by
  have hdone : S.Lift (surely (CountedHeap.modifyHeap (·.resizeBuffer r length)))
      (surely (CountedHeap.modifyHeap (·.resizeBuffer r length))) :=
    .modifyHeap (fun _ _ => rfl) hresize
  exact .bind (.check fun _ _ => rfl) fun _ => .bind (.query fun _ _ => rfl) fun _ => .ite
    (.bind (.surely (h.collect _)) fun _ => .bind (.check fun _ _ => rfl) fun _ =>
      .bind (.query fun _ _ => rfl) fun _ => .ite (.bind .refuse fun _ => hdone) hdone)
    hdone

/-- It is enough that cells may be made and links set. -/
theorem makes_of (h : S.Agree E' E) (hS : S.Touching)
    (halloc : ∀ {body : Body}, (body.post = none ∨ body.post = some (.inactive, none)) →
      body.Proper → S.Lift (E'.alloc body) (E.alloc body))
    (hlink : ∀ h r proto, S.step h (Heap.linkPrototype h r proto))
    (hstore : ∀ h t id o, S.step h (Heap.storeBuiltin h t id o))
    (hresize : ∀ r length, S.Lift (E'.bufferResize r length) (E.bufferResize r length)) :
    S.Makes E' E where
  leaf {body} hb := by
    cases body with
    | string t => exact halloc (.inl rfl) trivial
    | buffer b => exact halloc (.inl rfl) trivial
    | object o => cases hb
    | thread t => cases hb
  object := .allocObjectWith hS (halloc (.inl rfl) trivial)
  thread := .allocThread hS fun _ _ => halloc (.inr rfl) Thread.proper_create
  link := h.setPrototype fun _ => hlink _ _ _
  builtin := h.setBuiltin fun _ => hstore _ _ _ _
  resize := hresize _ _

/-- It is enough that strokes are respected. -/
theorem makes (h : S.Agree E' E) (hS : S.Stroking) : S.Makes E' E :=
  h.makes_of hS.touching (fun hb hproper => h.alloc fun _ => hS _ _ (.place hb hproper))
    (fun _ _ _ => hS _ _ .linkPrototype) (fun _ _ _ _ => hS _ _ .storeBuiltin)
    fun _ _ => h.bufferResize fun _ => hS _ _ .resizeBuffer

/-! ### Everything else -/

section

variable (h : S.Agree E' E) (hS : S.Touching)
include h hS

theorem putSlot {key : Handle} {slot : Slot} : S.Lift (E'.putSlot r key slot) (E.putSlot r key slot) :=
  .bind (.check fun _ _ => rfl) fun _ =>
    .bind (.change Heap.oblivious_storeSlot fun _ => hS _ _ .storeSlot) fun _ => .surely h.releaseAll

theorem deleteProp {key : Handle} : S.Lift (E'.deleteProp r key) (E.deleteProp r key) := by
  refine .bind (.check fun _ _ => rfl) fun _ =>
    .bind (.change Heap.oblivious_dropSlot fun _ => hS _ _ .dropSlot) fun displaced => ?_
  cases displaced with
  | some displaced => exact .bind (.surely h.releaseAll) fun _ => .pure
  | none => exact .pure

theorem unwindWithin {length n : ℕ} :
    S.Lift (E'.unwindWithin r length n) (E.unwindWithin r length n) := by
  induction n with
  | zero => exact .stop
  | succ n ih =>
    rw [Engine.unwindWithin_succ, Engine.unwindWithin_succ]
    refine .bind (.check fun _ _ => rfl) fun found => ?_
    cases found with
    | none => exact .pure
    | some a =>
      exact .bind (.modifyHeap (fun _ _ => rfl) fun _ =>
        hS _ _ (.orderly (fun _ => ⟨rfl, rfl⟩) (fun _ => ⟨rfl, rfl, rfl⟩) fun _ _ =>
          .inl ∘ Thread.mem_caughtNames_of_subset fun _ => Thread.mem_catchersBelow)) fun _ =>
        .bind (.surely h.releaseAll) fun _ => ih

theorem unwindCalls {length : ℕ} : S.Lift (E'.unwindCalls r length) (E.unwindCalls r length) := by
  refine .bind (.check fun _ _ => rfl) fun calls => ?_
  rw [h.slack]
  exact h.unwindWithin hS

/-- What precedes the end of a thread is related. -/
theorem unwindAll : S.Lift (E'.unwindAll r) (E.unwindAll r) :=
  .bind (.check fun _ _ => rfl) fun _ =>
    .bind (.bind (.check fun _ _ => rfl) fun _ =>
      .modifyHeap (fun _ _ => rfl) fun _ => hS _ _ .takeCatchers) fun _ =>
    .bind (h.unwindCalls hS) fun _ => .bind (.check fun _ _ => rfl) fun _ =>
    .bind (.modifyHeap (fun _ _ => rfl) fun _ => hS _ _ .clearValues) fun _ => .surely h.releaseAll

end

section

variable (h : S.Agree E' E) (hm : S.Makes E' E)
include h hm

theorem allocFunction {proto : Option Handle} {constants : List Value} {functions : List Handle}
    {code : ByteArray} : S.Lift (E'.allocFunction proto constants functions code)
      (E.allocFunction proto constants functions code) := by
  refine .bind (.check fun _ _ => rfl) fun _ => .bind (hm.leaf rfl) fun _ =>
    .bind (.outcome hm.object) fun made =>
    .bind (.surely (h.release _)) fun _ => ?_
  cases made with
  | ok r => exact .pure
  | error e => exact .refuse

variable (hS : S.Touching)
include hS

theorem intern {content : String} {isStatic : Bool} :
    S.Lift (E'.intern content isStatic) (E.intern content isStatic) := by
  have hretain : ∀ r, S.Lift (surely (CountedHeap.modifyHeap (Heap.retain · r)))
      (surely (CountedHeap.modifyHeap (Heap.retain · r))) :=
    fun r => .modifyHeap Heap.neutral_retain fun _ => hS _ _ .retain
  refine .bind (.query fun _ _ => rfl) fun found => ?_
  cases found with
  | some r => exact .bind (hretain r) fun _ => .pure
  | none =>
    refine .bind (hm.leaf rfl) fun made => .bind (.query fun _ _ => rfl) fun found => ?_
    cases found with
    | some r => exact .bind (hretain r) fun _ => .bind (.surely (h.release _)) fun _ => .pure
    | none =>
      exact .bind (.modifyHeap (fun _ _ => rfl) fun _ =>
        hS _ _ (.aside rfl rfl rfl rfl rfl rfl rfl)) fun _ => .pure

theorem setFinalizer (hkey : S.Rekeying) {function : Value} :
    S.Lift (E'.setFinalizer r function) (E.setFinalizer r function) := by
  refine .bind (.check fun _ _ => rfl) fun _ => .bind ?_ fun _ => h.putSlot hS
  refine .bind (.query fun _ _ => rfl) fun key => ?_
  cases key with
  | some key => exact .pure
  | none =>
    exact .bind (h.intern hm hS) fun key =>
      .bind (.modifyHeap (fun _ _ => rfl) fun h => hkey h key) fun _ => .pure

/-- Every operation is related, if those that switch threads are. -/
theorem perform (op : Operation β) (hroot : op.reroots → S.Rooting) (hkey : op.installs → S.Rekeying)
    (hswitch : op.switches → S.Lift (E'.perform op) (E.perform op)) :
    S.Lift (E'.perform op) (E.perform op) := by
  cases op
  case registerNative => exact .change (fun _ _ => rfl) fun _ => hS _ _ (.aside rfl rfl rfl rfl rfl rfl rfl)
  case retain v => exact .modifyHeap Heap.neutral_retainAll fun _ => hS _ _ .retainAll
  case release v => exact .surely h.releaseAll
  case collect o => exact .surely (h.collect o)
  case addRoot v =>
    exact .bind (.check fun _ _ => rfl) fun _ => .change Heap.oblivious_holdRoot fun _ =>
      hroot trivial _ _ .holdRoot
  case setRoot n v =>
    exact .bind (.check fun _ _ => rfl) fun _ => .bind (.check fun _ _ => rfl) fun _ =>
      .bind (.modifyHeap Heap.neutral_storeRoot fun _ => hroot trivial _ _ .storeRoot) fun _ =>
        .surely h.releaseAll
  case removeRoot n =>
    exact .bind (.change Heap.oblivious_dropRoot fun _ => hroot trivial _ _ .dropRoot) fun _ =>
      .bind (.surely h.releaseAll) fun _ => .pure
  case allocObject proto => exact hm.object
  case allocArray proto => exact hm.object
  case allocEnvironment parent => exact hm.object
  case allocFunction proto constants functions code => exact h.allocFunction hm
  case allocNativeFunction id proto => exact .bind (.check fun _ _ => rfl) fun _ => hm.object
  case allocBuffer length dynamic =>
    change S.Lift (E'.allocBuffer length dynamic) (E.allocBuffer length dynamic)
    rw [Engine.allocBuffer_eq, Engine.allocBuffer_eq]
    exact hm.leaf rfl
  case allocBufferFrom bytes => exact hm.leaf rfl
  case allocThread source => exact hm.thread
  case intern content isStatic => exact h.intern hm hS
  case charOffset s i =>
    exact .bind (.check fun _ _ => rfl) fun _ =>
      .ite (.bind (.modifyHeap (fun _ _ => rfl) fun _ =>
        hS _ _ (.aside rfl rfl rfl rfl rfl rfl rfl)) fun _ => .pure) .pure
  case bufferWrite b i byte =>
    exact .bind (.check fun _ _ => rfl) fun _ => .ite (.bind (.modifyHeap (fun _ _ => rfl) fun _ =>
      hS _ _ (.modifyBuffer fun c => c.size_write i byte)) fun _ => .pure) .pure
  case bufferResize b length => exact hm.resize
  case putProp r key v => exact h.putSlot hS
  case putAccessor r key getter setter => exact h.putSlot hS
  case deleteProp r key => exact h.deleteProp hS
  case setPrototype r proto => exact hm.link
  case arrayPush r v =>
    exact .bind (.check fun _ _ => rfl) fun _ => .bind (.check fun _ _ => rfl) fun _ =>
      .bind (.modifyHeap Heap.neutral_appendElement fun _ => hS _ _ .appendElement) fun _ => .pure
  case arraySet r i v =>
    exact .bind (.check fun _ _ => rfl) fun _ => .bind (.check fun _ _ => rfl) fun _ =>
      .bind (.change Heap.oblivious_storeElement fun _ => hS _ _ .storeElement) fun _ =>
        .surely h.releaseAll
  case setFinalizer r function => exact h.setFinalizer hm hS (hkey trivial)
  case push t v =>
    change S.Lift (push t v) (push t v)
    rw [push_eq, push_eq]
    exact .bind (.check fun _ _ => rfl) fun _ => .modifyHeap Heap.neutral_storeThread fun _ =>
      hS _ _ (.orderlyRetain (fun _ => ⟨rfl, rfl⟩) (fun _ => ⟨rfl, rfl, rfl⟩) fun _ => rfl)
  case pop t =>
    change S.Lift (E'.pop t) (E.pop t)
    rw [Engine.pop_eq, Engine.pop_eq]
    exact .bind (.check fun _ _ => rfl) fun _ =>
      .bind (.modifyHeap (fun _ _ => rfl) fun _ =>
        hS _ _ (.orderly (fun _ => ⟨rfl, rfl⟩) (fun _ => ⟨rfl, rfl, rfl⟩) fun _ _ => .inl)) fun _ =>
        .surely h.releaseAll
  case popN t n =>
    exact .bind (.check fun _ _ => rfl) fun _ =>
      .bind (.modifyHeap (fun _ _ => rfl) fun _ => hS _ _ .truncateValues) fun _ =>
        .surely h.releaseAll
  case replace t i v =>
    exact .bind (.check fun _ _ => rfl) fun _ =>
      .bind (.modifyHeap Heap.neutral_storeThread fun _ => hS _ _ .storeValue) fun _ =>
        .surely h.releaseAll
  case setBuiltin t id r => exact hm.builtin
  case pushActivation t a =>
    change S.Lift (pushActivation t a) (pushActivation t a)
    rw [pushActivation_eq, pushActivation_eq]
    exact .bind (.check fun _ _ => rfl) fun _ => .modifyHeap Heap.neutral_storeThread fun _ =>
      hS _ _ (.orderlyRetain (fun _ => ⟨rfl, rfl⟩) (fun _ => ⟨rfl, rfl, rfl⟩) fun _ => rfl)
  case popActivation t => exact .bind (.check fun _ _ => rfl) fun _ => .ite .refuse (h.unwindCalls hS)
  case unwindCalls t length => exact h.unwindCalls hS
  case pushCatcher t c =>
    change S.Lift (pushCatcher t c) (pushCatcher t c)
    rw [pushCatcher_eq, pushCatcher_eq]
    refine .bind (.check fun _ _ => rfl) fun _ => .modifyHeap (fun _ _ => rfl) fun h =>
      hS _ _ (.orderly (fun _ => ⟨rfl, rfl⟩) (fun _ => ⟨rfl, rfl, rfl⟩) fun x q hq => ?_)
    obtain ⟨d, hd, hname⟩ := List.mem_flatMap.mp hq
    rcases Array.mem_push.mp (Array.mem_toList_iff.mp hd) with hd | rfl
    · exact .inl (List.mem_flatMap.mpr ⟨d, Array.mem_toList_iff.mpr hd, hname⟩)
    · exact .inr (Heap.text_of_lettered (Option.mem_toList.mp hname))
  case unwindCatchers t length =>
    exact .bind (.check fun _ _ => rfl) fun _ => .modifyHeap (fun _ _ => rfl) fun _ =>
      hS _ _ .takeCatchers
  case startThread t => exact hswitch trivial
  case resumeThread t => exact hswitch trivial
  case yieldThread => exact hswitch trivial
  case terminateThread t => exact hswitch trivial

end

/-- The operations that switch threads are related if this is respected. -/
theorem switch (h : S.Agree E' E) (hS : S.Shifting) {op : Operation β} (hop : op.switches) :
    S.Lift (E'.perform op) (E.perform op) := by
  cases op
  case startThread t =>
    exact .bind (.check fun _ _ => rfl) fun _ => .modifyHeap (fun _ _ => rfl) fun _ => hS _ _ .start
  case resumeThread t =>
    change S.Lift (E'.resumeThread t) (E.resumeThread t)
    rw [Engine.resumeThread_eq, Engine.resumeThread_eq]
    exact .bind (.check fun _ _ => rfl) fun _ =>
      .bind (.modifyHeap Heap.neutral_switchAway fun _ => hS _ _ .switchAway) fun _ =>
        .bind (.surely h.releaseAll) fun _ => .modifyHeap (fun _ _ => rfl) fun _ => hS _ _ .setCurrent
  case yieldThread =>
    exact .bind (.check fun _ _ => rfl) fun _ =>
      .bind (.modifyHeap (fun _ _ => rfl) fun _ => hS _ _ .switchBack) fun _ =>
        .surely (h.release _)
  case terminateThread t =>
    change S.Lift (E'.terminateThread t) (E.terminateThread t)
    rw [Engine.terminateThread_eq, Engine.terminateThread_eq]
    exact .bind (h.unwindAll hS.touching) fun _ => .bind (.check fun _ _ => rfl) fun _ =>
      .bind (.modifyHeap Heap.neutral_endThread fun _ => hS _ _ .endThread) fun _ =>
        .surely h.releaseAll
  all_goals exact hop.elim

/-- Where whatever operations do is respected, all of them are related. -/
theorem perform_all (h : S.Agree E' E) (hS : S.Turning) (op : Operation β) :
    S.Lift (E'.perform op) (E.perform op) :=
  h.perform (h.makes hS.stroking) hS.stroking.touching op (fun _ => hS.stroking.rooting)
    (fun _ h _ => hS _ _ (.single (.key h _))) fun hop => h.switch hS.shifting hop

end Agree

/-! ## Finalizers, passes and drains -/

namespace Withering

variable {S} {call' : Caller τ} {call : Caller σ} {r : Handle} {f : Heap.Finalizer} {i : ℕ}

theorem modify (hS : S.Withering) {f : Heap → Heap} (hn : Neutral f) (hf : ∀ h, Withers h (f h)) :
    S.rel (CountedHeap.modifyHeap f) (CountedHeap.modifyHeap f) :=
  S.modifyHeap hn fun h => hS _ _ (hf h)

theorem change (hS : S.Withering) {f : Heap → Heap × α} (hn : Oblivious f)
    (hf : ∀ h, Withers h (f h).1) :
    S.rel (CountedHeap.change f) (CountedHeap.change f) :=
  S.change hn fun h => hS _ _ (hf h)

/-- Finalizers are related if calls of native functions are. -/
theorem runFinalizer (hS : S.Withering) (hcall : ∀ id v, S.rel (call' id v) (call id v)) :
    S.rel (runFinalizer call' r f) (runFinalizer call r f) := by
  have hcounted : ∀ ending : Ending, S.rel
      (if ending ≠ .returned then CountedHeap.modifyHeap Heap.countFailure else Pure.pure ())
      (if ending ≠ .returned then CountedHeap.modifyHeap Heap.countFailure else Pure.pure ()) :=
    fun _ => S.ite (S.fail fun _ => hS _ _ .modifyCounters) S.pure
  refine S.bind (hS.modify (fun _ _ => rfl) fun _ => .modifyCounters) fun _ =>
    S.bind (S.query fun _ _ => rfl) fun found => ?_
  cases found with
  | some id => exact S.bind (hcall id _) hcounted
  | none => exact S.bind S.pure hcounted

section

variable (hS : S.Withering)
  (hcall : ∀ r f, S.rel (CountedHeap.runFinalizer call' r f) (CountedHeap.runFinalizer call r f))
include hS hcall

theorem runPending {l : List ℕ} : S.rel (runPending call' l) (runPending call l) := by
  induction l with
  | nil => exact S.pure
  | cons i l ih =>
    refine S.bind (S.query Heap.blind_pending) fun found => ?_
    cases found with
    | none => exact ih
    | some found =>
      exact S.bind (hS.modify (fun _ _ => rfl) fun _ => .beginFinalizer) fun _ =>
        S.bind (hcall _ _) fun _ => S.bind (hS.modify (fun _ _ => rfl) fun _ =>
          .endFinalizer) fun _ =>
        S.bind ih fun _ => S.pure

theorem passBody {o : PassOptions} : S.rel (passBody call' o) (passBody call o) := by
  refine S.bind (hS.change Heap.oblivious_beginPass fun _ => .beginPass) fun p =>
    S.bind (hS.runPending hcall) fun n => ?_
  have hend : S.rel (CountedHeap.change (·.finishPass o p n)) (CountedHeap.change (·.finishPass o p n)) :=
    hS.change Heap.oblivious_finishPass fun _ => .finishPass
  exact S.ite (S.bind (hS.modify Heap.neutral_settle fun _ => .settle) fun _ => hend) hend

theorem pass {drain' : Action τ Unit} {drain : Action σ Unit} (hdrain : S.rel drain' drain)
    {o : PassOptions} : S.rel (pass call' drain' o) (pass call drain o) := by
  rw [pass_eq, pass_eq]
  exact S.bind (hS.passBody hcall) fun _ => S.ite (S.bind hdrain fun _ => S.pure) S.pure

theorem settleHead : S.rel (settleHead call' i) (settleHead call i) := by
  have hleave : ∀ keep, S.rel (CountedHeap.change (·.leaveQueue i keep))
      (CountedHeap.change (·.leaveQueue i keep)) :=
    fun _ => hS.change Heap.oblivious_leaveQueue fun _ => .leaveQueue
  refine S.bind (S.query Heap.blind_headFinalizer) fun found => ?_
  cases found with
  | none => exact hleave false
  | some f =>
    exact S.bind (S.query fun _ _ => rfl) fun _ => S.bind (hS.modify (fun _ _ => rfl) fun _ =>
      .beginFinalizer) fun _ =>
      S.bind (hcall _ _) fun _ =>
      S.bind (hS.change Heap.oblivious_endHeadFinalizer fun _ => .endHeadFinalizer) hleave

end

/-- Working the queue off is related if what is done with its head is. -/
theorem workOff (hS : S.Withering) {settle' : ℕ → Action τ Departure} {settle : ℕ → Action σ Departure}
    (hsettle : ∀ i, S.rel (settle' i) (settle i)) {collect' : Action τ Bool}
    {collect : Action σ Bool} (hcollect : S.rel collect' collect) {fuel freed : ℕ} :
    S.rel (workOff settle' collect' fuel freed) (workOff settle collect fuel freed) := by
  induction fuel generalizing freed with
  | zero => exact S.stop
  | succ fuel ih =>
    refine S.bind (S.query fun _ _ => rfl) fun head => ?_
    cases head with
    | some i =>
      refine S.bind (hsettle i) fun d => ?_
      cases d with
      | freed => exact ih
      | rescued => exact ih
    | none =>
      refine S.bind (S.query fun _ _ => rfl) fun paced => S.ite S.pure ?_
      refine S.bind (hS.modify (fun _ _ => rfl) fun _ => .spendTrigger) fun _ =>
        S.bind (S.query fun _ _ => rfl) fun _ => S.ite ?_ S.pure
      exact S.bind hcollect fun _ => S.bind (S.query fun _ _ => rfl) fun _ => S.ite ih S.pure

section

variable (hS : S.Withering)
  (hcall : ∀ r f, S.rel (CountedHeap.runFinalizer call' r f) (CountedHeap.runFinalizer call r f))
include hS hcall

theorem drainLoop {collect' : Action τ Bool} {collect : Action σ Bool}
    (hcollect : S.rel collect' collect) {fuel freed : ℕ} :
    S.rel (drainLoop call' collect' fuel freed) (drainLoop call collect fuel freed) := by
  rw [drainLoop_eq, drainLoop_eq]
  exact hS.workOff (fun _ => hS.settleHead hcall) hcollect

/-- A drain says that it is under way, and that it is over. -/
theorem drainQueue (hflag : ∀ (h : Heap) b, S.step h { h with draining := b })
    {collect' : Action τ Bool} {collect : Action σ Bool} (hcollect : S.rel collect' collect)
    {fuel : ℕ} : S.rel (drainQueue call' collect' fuel) (drainQueue call collect fuel) :=
  S.bind (S.modifyHeap (fun _ _ => rfl) fun h => hflag h true) fun _ =>
    S.bind (hS.drainLoop hcall hcollect) fun _ =>
    S.modifyHeap (fun _ _ => rfl) fun h => hflag h false

end

end Withering

end Simulation

end CountedHeap
