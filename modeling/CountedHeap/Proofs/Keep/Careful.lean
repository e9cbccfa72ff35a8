import CountedHeap.Proofs.Keep.Top

/-!
# Careful clients

An emergency pass may free a cell that the client has just named. It frees none that the client
reaches over owned references from what it holds or from a root, so that a client which names only
such cells never gets a cell with a stale reference.

* `Operation.mentioned`, `Operation.Careful`: the handles that a client passes.
* `Terms.Secures`: a condition on references under which cells are there once room has been made.
* `Made.whole`: a new cell that refers to what is secured.
* `Keeps.perform_whole`: an operation that is passed what is secured makes no cell with a stale
  reference.
* `secures_reached`: what is reached is secured if finalizers are quiet.
-/

namespace CountedHeap

/-- The handles that a client passes to an operation. -/
def Operation.mentioned : {β : Type} → Operation β → List Handle
  | _, registerNative => []
  | _, retain v => v.refs
  | _, release v => v.refs
  | _, collect _ => []
  | _, addRoot v => v.refs
  | _, setRoot _ v => v.refs
  | _, removeRoot _ => []
  | _, allocObject proto => proto.toList
  | _, allocArray proto => proto.toList
  | _, allocEnvironment parent => parent.toList
  | _, allocFunction proto constants functions _ =>
    proto.toList ++ constants.flatMap Value.refs ++ functions
  | _, allocNativeFunction _ proto => proto.toList
  | _, allocBuffer _ _ => []
  | _, allocBufferFrom _ => []
  | _, allocThread source => source.toList
  | _, intern _ _ => []
  | _, charOffset s _ => [s]
  | _, bufferWrite b _ _ => [b]
  | _, bufferResize b _ => [b]
  | _, putProp r key v => r :: key :: v.refs
  | _, putAccessor r key getter setter => r :: key :: (getter.refs ++ setter.refs)
  | _, deleteProp r key => [r, key]
  | _, setPrototype r proto => r :: proto.toList
  | _, arrayPush r v => r :: v.refs
  | _, arraySet r _ v => r :: v.refs
  | _, setFinalizer r function => r :: function.refs
  | _, push t v => t :: v.refs
  | _, pop t => [t]
  | _, popN t _ => [t]
  | _, replace t _ v => t :: v.refs
  | _, setBuiltin t _ r => t :: r.toList
  | _, pushActivation t a => t :: a.refs
  | _, popActivation t => [t]
  | _, unwindCalls t _ => [t]
  | _, pushCatcher t c => t :: c.name.toList
  | _, unwindCatchers t _ => [t]
  | _, startThread t => [t]
  | _, resumeThread t => [t]
  | _, yieldThread => []
  | _, terminateThread t => [t]

/-- The built-ins that a new thread shares with another one. -/
def Operation.shared : {β : Type} → Operation β → Heap → List Handle
  | _, allocThread source, h => ((h.builtinsOf source).map Builtins.refs).toOption.getD []
  | _, _, _ => []

/-- A client passes only handles of cells that it reaches from those it holds and from the roots. -/
def Operation.Careful {β : Type} (op : Operation β) (h : Heap) (held : Multiset Handle) : Prop :=
  ∀ r ∈ op.mentioned, h.Reached held r

namespace Heap

variable {h : Heap} {X : Multiset Handle} {r : Handle} {b : Body}

/-- A new cell has the count of its creator, and refers to what it was made to refer to. -/
theorem whole_place (hs : h.Sound) (hb : ∀ q ∈ b.refs, h.isLive q = true) :
    ((h.place b).1.retainAll b.refs).Whole (h.place b).2 := by
  intro n b' hr q hq
  obtain ⟨m, hm⟩ :=
    holds_retainAll (h := (h.place b).1) (Arena.holds_place hs.arena.free b) b.refs
  obtain ⟨-, rfl⟩ := hr.unique hm
  obtain ⟨k, c, hc⟩ := Arena.isLive_iff.mp (hb q hq)
  rw [isLive_retainAll]
  exact (hc.place hs.arena.free b').isLive

/-- Cells that were there refer to what they referred to when a cell has been placed. -/
theorem refsAt_place (hs : h.Sound) (hr : h.isLive r = true) {rs : List Handle} :
    ((h.place b).1.retainAll rs).arena.refsAt r.index = h.arena.refsAt r.index := by
  obtain ⟨n, b', hb⟩ := Arena.isLive_iff.mp hr
  have hplaced : (h.place b).1.arena.Holds r n b' := hb.place hs.arena.free b
  obtain ⟨m, hm⟩ := holds_retainAll hplaced rs
  rw [hm.refsAt, hb.refsAt]

/-- The built-ins of a thread are reached over the thread. -/
theorem Reached.shared {source : Option Handle} (hs : ∀ t ∈ source, h.Reached X t)
    (hr : r ∈ (Operation.allocThread source).shared h) : h.Reached X r := by
  cases source with
  | none =>
    rw [show (Operation.allocThread none).shared h = [] from rfl] at hr
    cases hr
  | some t =>
    unfold Operation.shared builtinsOf at hr
    cases hthread : h.thread t with
    | error e => simp [hthread, Except.map, Except.toOption] at hr
    | ok thread =>
      simp only [hthread, Except.map, Except.toOption, Option.getD_some] at hr
      obtain ⟨header, hc⟩ := thread_eq_ok.mp hthread
      refine .step (hs t rfl) (Arena.holds_of_get? hc) ?_
      simp only [Body.refs, Thread.refs, List.mem_append]
      exact .inl (.inr hr)

end Heap

/-- An object without properties refers to its prototype and to what it calls. -/
theorem Object.refs_create {kind : ObjectKind} {proto : Option Handle} {callable : Callable} :
    ({ kind := kind, proto := proto, callable := callable } : Object).refs =
      proto.toList ++ callable.refs := by
  simp [Object.refs, PropertyTable.refs, PropertyTable.toList, PropertyTable.empty]

/-- A new thread refers to the built-ins that it shares. -/
theorem Thread.mem_refs_create {config : Config} {builtins : Builtins} {r : Handle}
    (hr : r ∈ (Thread.create config builtins.threadPrototype builtins).refs) :
    r ∈ builtins.refs := by
  unfold Thread.refs Thread.create at hr
  rw [Object.refs_create] at hr
  simp only [Callable.refs, ValueStack.refs, ValueStack.empty, List.flatMap_nil, List.append_nil,
    Option.toList_none, List.mem_append] at hr
  refine hr.elim (fun hproto => ?_) id
  unfold Builtins.refs
  exact List.mem_append_right _ hproto

/-! ## References that are secured -/

/-- A condition on references under which cells are there once room has been made. -/
structure Terms.Secures {σ : Type} (T : Terms σ) (P : Heap → Multiset Handle → Handle → Prop) :
    Prop where
  live {h : Heap} {s : σ} {X : Multiset Handle} {r : Handle} :
    T.Holds ⟨h, s⟩ X → P h X r → h.isLive r = true
  /-- What is secured stays so while counts are given back. -/
  since {h h' : Heap} {s : σ} {X : Multiset Handle} {r : Handle} :
    T.Holds ⟨h', s⟩ X → T.since h h' → P h X r → P h' X r
  /-- A buffer is secured by the count of its creator. -/
  placed {h : Heap} {X : Multiset Handle} {r : Handle} (bytes : Buffer) : h.Sound →
    P h X r ∨ r = (h.place (.buffer bytes)).2 →
    P (h.place (.buffer bytes)).1 (X + {(h.place (.buffer bytes)).2}) r

namespace Engine.Keeps

variable {σ : Type} {E : Engine σ} {host : Host σ} {T : Terms σ} {w w' : World σ}
  {X : Multiset Handle} {r : Handle} {b : Body} {o : Object}
  {P : Heap → Multiset Handle → Handle → Prop}

/-- A new cell that refers to what is secured, or to what a cell that is secured still refers to. -/
theorem Made.whole (hm : Made T w X b r w') (hT : ∀ s, T.strict s) (hP : T.Secures P)
    (hr : ∀ q ∈ b.refs, P w.heap X q ∨ ∃ t, P w.heap X t ∧ q ∈ w'.heap.arena.refsAt t.index) :
    w'.heap.Whole r := by
  obtain ⟨h, hk, hs, hheap, rfl⟩ := hm
  have hlive : ∀ {q}, P w.heap X q → h.isLive q = true :=
    fun hq => hP.live hk (hP.since hk hs hq)
  rw [hheap] at hr ⊢
  refine Heap.whole_place hk.sound fun q hq => ?_
  obtain hq | ⟨t, ht, hq⟩ := hr q hq
  · exact hlive hq
  · rw [Heap.refsAt_place hk.sound (hlive ht)] at hq
    exact (hk.balanced (hT _)).live (Multiset.mem_add.mpr (.inl (Heap.mem_stored_of_refsAt hq)))

theorem allocObjectWith_whole (K : E.Keeps T) (hT : ∀ s, T.strict s) (hP : T.Secures P)
    (hk : T.Holds w X) (hr : ∀ q ∈ o.refs, P w.heap X q) :
    Meets (E.allocObjectWith o) w (fun _ _ => True) fun r w' => w'.heap.Whole r :=
  Meets.mono (K.allocObjectWith hk) (fun _ _ _ => trivial) fun _ _ hm =>
    hm.whole hT hP fun q hq => .inl (hr q hq)

/-- The built-ins of a new thread are looked up before room is made for it. -/
theorem allocThread_whole (K : E.Keeps T) (hT : ∀ s, T.strict s) (hP : T.Secures P)
    {source : Option Handle} (hk : T.Holds w X) :
    Meets (E.allocThread source) w (fun _ _ => True) fun r w' =>
      (∀ q ∈ (Operation.allocThread source).shared w.heap, P w.heap X q ∨
        ∃ t, P w.heap X t ∧ q ∈ w'.heap.arena.refsAt t.index) → w'.heap.Whole r := by
  unfold Engine.allocThread
  simp only [meets_bind, meets_check, meets_surely, after_query]
  refine ⟨fun _ _ => trivial, fun builtins hbuiltins => ?_⟩
  refine Meets.mono (K.alloc hk) (fun _ _ _ => trivial) ?_
  rintro r w' ⟨h, hk', hs, hheap, hr'⟩
  simp only [after_modifyHeap, meets_pure]
  have hm : Made T w X (.thread (.create w.heap.config builtins.threadPrototype builtins)) r
      ⟨w'.heap.retainAll (Thread.create w.heap.config builtins.threadPrototype builtins).refs,
        w'.host⟩ :=
    ⟨h, hk', hs, congrArg (Heap.retainAll · _) hheap, hr'⟩
  refine fun hr => hm.whole hT hP fun q hq => hr q ?_
  change q ∈ ((w.heap.builtinsOf source).map Builtins.refs).toOption.getD []
  rw [hbuiltins]
  exact Thread.mem_refs_create hq

/-- The code of a function is held while the function is made. -/
theorem allocFunction_whole (K : E.Keeps T) (hT : ∀ s, T.strict s) (hP : T.Secures P)
    {proto : Option Handle} {constants : List Value} {functions : List Handle} {code : ByteArray}
    (hk : T.Holds w X)
    (hr : ∀ q ∈ proto.toList ++ constants.flatMap Value.refs ++ functions, P w.heap X q) :
    Meets (E.allocFunction proto constants functions code) w (fun _ _ => True)
      fun r w' => w'.heap.Whole r := by
  unfold Engine.allocFunction Engine.allocBufferFrom
  simp only [meets_bind, meets_check]
  refine ⟨fun _ _ => trivial, fun _ _ => ?_⟩
  refine Meets.mono (K.alloc hk) (fun _ _ _ => trivial) ?_
  rintro buffer w₁ ⟨h, hk₁, hs, hheap, hb⟩
  have hleaf := Holds.buffer hk₁ ⟨code, false⟩
  rw [← hheap, ← hb] at hleaf
  have hsecured : ∀ q, P h X q ∨ q = buffer → P w₁.heap (X + {buffer}) q := by
    intro q hq
    have hplaced := hP.placed (X := X) (r := q) ⟨code, false⟩ hk₁.sound (by rwa [← hb])
    rwa [← hheap, ← hb] at hplaced
  refine meets_outcome.mpr (Meets.mono (K.allocObjectWith hleaf) (fun e w₂ hk₂ => ?_)
    fun r w₂ hm => ?_)
  · simp only [meets_surely, meets_refuse]
    exact fun _ _ _ => trivial
  · have hw : w₂.heap.Whole r := by
      refine hm.whole hT hP fun q hq => .inl (hsecured q ?_)
      simp only [Body.refs, Object.refs_create, Callable.refs, CompiledFunction.refs,
        Option.toList_some, List.mem_append, List.mem_singleton] at hq hr
      rcases hq with hproto | (hconstant | hfunction) | rfl
      · exact .inl (hP.since hk₁ hs (hr q (.inl (.inl hproto))))
      · exact .inl (hP.since hk₁ hs (hr q (.inl (.inr hconstant))))
      · exact .inl (hP.since hk₁ hs (hr q (.inr hfunction)))
      · exact .inr rfl
    obtain ⟨hlive, hcount⟩ := hm.counted (hT _) (q := buffer)
      (by simp [Body.refs, Object.refs, Callable.refs, CompiledFunction.refs])
    unfold Engine.release
    simp only [meets_surely, after_bind, after_change, Heap.release_of_counted hcount hlive,
      Bool.false_eq_true, ite_false, after_pure, meets_pure]
    exact Heap.whole_uncount.mpr hw

/-- An operation that is passed what is secured makes no cell with a stale reference; of the built-ins
that a thread shares it is enough that the other thread still refers to them. -/
theorem perform_whole (K : E.Keeps T) (hT : ∀ s, T.strict s) (hP : T.Secures P) {β : Type}
    (op : Operation β) (hk : T.Holds w (X + op.taken))
    (hc : ∀ q ∈ op.mentioned, P w.heap (X + op.taken) q) :
    Meets (E.perform op) w (fun _ _ => True) fun answer w' =>
      (∀ q ∈ op.shared w.heap, P w.heap (X + op.taken) q ∨
        ∃ t ∈ op.mentioned, q ∈ w'.heap.arena.refsAt t.index) →
      ∀ r ∈ op.made answer, w'.heap.Whole r := by
  have hsome : ∀ {x : Attempt σ Handle} {Q : World σ → Prop},
      Meets x w (fun _ _ => True) (fun r w' => Q w' → w'.heap.Whole r) →
      Meets x w (fun _ _ => True) fun r w' => Q w' → ∀ q ∈ some r, w'.heap.Whole q := by
    intro x Q hx
    refine Meets.mono hx (fun _ _ _ => trivial) fun r w' hw hQ q hq => ?_
    cases hq
    exact hw hQ
  have hplain : ∀ {kind : ObjectKind} {callable : Callable} {proto : Option Handle}
      {Q : World σ → Prop}, callable.refs = [] →
      (∀ q ∈ proto.toList, P w.heap (X + op.taken) q) →
      Meets (E.allocObjectWith { kind := kind, proto := proto, callable := callable }) w
        (fun _ _ => True) fun r w' => Q w' → ∀ q ∈ some r, w'.heap.Whole q := by
    intro kind callable proto Q hcallable hproto
    refine hsome (Meets.mono (K.allocObjectWith_whole hT hP hk fun q hq => ?_)
      (fun _ _ _ => trivial) fun _ _ hw _ => hw)
    rw [Object.refs_create, hcallable, List.append_nil] at hq
    exact hproto q hq
  cases op
  case allocObject proto => exact hplain rfl hc
  case allocArray proto => exact hplain rfl hc
  case allocEnvironment parent => exact hplain rfl hc
  case allocNativeFunction id proto =>
    simp only [Engine.perform, Engine.allocNativeFunction, meets_bind, meets_check]
    exact ⟨fun _ _ => trivial, fun _ _ => hplain rfl hc⟩
  case allocFunction proto constants functions code =>
    exact hsome (Meets.mono (K.allocFunction_whole hT hP hk hc) (fun _ _ _ => trivial)
      fun _ _ hw _ => hw)
  case allocThread source =>
    refine hsome (Meets.mono (K.allocThread_whole hT hP hk) (fun _ _ _ => trivial)
      fun _ _ hw hshared => hw fun q hq => (hshared q hq).imp_right ?_)
    rintro ⟨t, ht, hq⟩
    exact ⟨t, hc t ht, hq⟩
  all_goals
    rintro (e | a) w' -
    · trivial
    · rintro - r ⟨⟩

end Engine.Keeps

/-- What is reached is secured if finalizers are quiet. -/
theorem Terms.secures_reached {σ : Type} {host : Host σ} :
    (Terms.quiet host).Secures fun h X r => h.Reached X r where
  live hk hr := hr.live ((quiet_holds_iff.mp hk).1.balanced trivial)
  since hk hs hr := hs.reached ((quiet_holds_iff.mp hk).1.balanced trivial) hr
  placed bytes hs hr := by
    obtain hr | rfl := hr
    · refine hr.mono (fun q hq => hq.imp_left fun hq => Multiset.mem_add.mpr (.inl hq)) ?_
      exact fun p n b hp => ⟨n, hp.place hs.arena.free (.buffer bytes)⟩
    · exact .start (.inl (by simp))

end CountedHeap
