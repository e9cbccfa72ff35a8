import CountedHeap.Proofs.Keep.Interning

/-!
# Every operation keeps the terms

* `Operation.taken`, `Operation.given`: the references that an operation takes over from its client,
  and those that it leaves to it.
* `Operation.made`: the cell that an operation has made and that refers to others.
* `Keeps.perform`: the terms are kept by every operation that makes no cell with a stale reference.
* `Keeps.run`: and by every program of such operations.
-/

namespace CountedHeap

namespace Operation

variable {β : Type}

/-- The references that an operation takes over from its client. -/
def taken : Operation β → Multiset Handle
  | release v => v.refs
  | _ => 0

/-- The references that an operation leaves to its client: a count on a live cell, or a new cell or
string. -/
def given : {β : Type} → Operation β → Heap → β → Multiset Handle
  | _, retain v, h, _ => (v.refs.filter h.isLive : List Handle)
  | _, allocObject _, _, r => {r}
  | _, allocArray _, _, r => {r}
  | _, allocEnvironment _, _, r => {r}
  | _, allocFunction _ _ _ _, _, r => {r}
  | _, allocNativeFunction _ _, _, r => {r}
  | _, allocBuffer _ _, _, r => {r}
  | _, allocBufferFrom _, _, r => {r}
  | _, allocThread _, _, r => {r}
  | _, intern _ _, _, r => {r}
  | _, _, _, _ => 0

/-- The cell that an operation has made, if it is one that refers to others. -/
def made : {β : Type} → Operation β → β → Option Handle
  | _, allocObject _, r => some r
  | _, allocArray _, r => some r
  | _, allocEnvironment _, r => some r
  | _, allocFunction _ _ _ _, r => some r
  | _, allocNativeFunction _ _, r => some r
  | _, allocThread _, r => some r
  | _, _, _ => none

/-- Whether an operation installs a finalizer. -/
def installs : {β : Type} → Operation β → Prop
  | _, setFinalizer _ _ => True
  | _, _ => False

end Operation

/-- A buffer gets another length, and other bytes are accounted for it. -/
theorem Heap.Kept.resizeBuffer {s : Prop} {P : Heap → Prop} (hP : Steady P) {h : Heap}
    {X : Multiset Handle} {r : Handle} {length : ℕ} (hk : Kept s P h X) (hr : h.isLive r = true) :
    Kept s P (h.resizeBuffer r length) X := by
  set h' := h.modifyArena (·.account r.index (Body.cellBytes + length))
  have hcore : h'.arena.core = h.arena.core := Arena.core_account _
  have hlinks : h'.arena.linksAt = h.arena.linksAt := Arena.linksAt_account _
  have haccount : Kept s P h' X :=
    hk.sameCells hcore hlinks rfl rfl rfl rfl rfl fun hmem =>
      hP h _ ⟨⟨rfl, rfl, by rw [hmem], by rw [hlinks]; exact fun _ hi => hi, .of_core hcore,
        fun ht => ht.of_core hcore (by rw [hmem]; exact fun _ hi => hi), rfl⟩,
        fun hi => hi.congr rfl (Arena.texts_of_core hcore),
        fun hc => hc.congr rfl rfl (Arena.texts_of_core hcore)⟩ hk.level
  refine haccount.modifyBuffer hP ?_ _
  obtain ⟨n, b, hb⟩ := Arena.isLive_iff.mp hr
  have hb' : (h.arena.account r.index (Body.cellBytes + length)).Holds r n b := by
    unfold Arena.Holds
    rw [Arena.core_account]
    exact hb
  exact hb'.isLive

namespace Engine.Keeps

variable {σ : Type} {E : Engine σ} {T : Terms σ} {w : World σ} {X : Multiset Handle}
  {r key : Handle} {v : Value} {slot : Slot} {n : ℕ} {o : Object}

/-! ## Buffers and finalizers -/

/-- The key of finalizers is made once, and the heap takes over its count. -/
theorem finalizerKey (K : E.Keeps T) (hT : T.Rekeys) (hk : T.Holds w X) :
    T.Keeping E.finalizerKey w X := by
  unfold Engine.finalizerKey Terms.Keeping
  simp only [meets_bind, meets_surely, after_query]
  cases hkey : w.heap.finalizerKey with
  | some key => simpa only [meets_pure] using hk
  | none =>
    simp only [meets_bind]
    refine Meets.mono (K.intern hk) (fun _ _ hk' => hk') ?_
    rintro key w' ⟨hk', hkey'⟩
    simp only [meets_surely, after_modifyHeap, meets_pure]
    rw [← add_zero X]
    refine hk'.trade fun Z hZ => ?_
    rw [add_zero]
    exact hZ.setKey (hkey' hkey) (hT _ _ _ hZ.level)

theorem setFinalizer (K : E.Keeps T) (hT : T.Rekeys) (hk : T.Holds w X) :
    T.Keeping (E.setFinalizer r v) w X := by
  unfold Engine.setFinalizer Terms.Keeping
  simp only [meets_bind, meets_check]
  refine ⟨fun _ _ => hk, fun _ _ => ?_⟩
  exact Meets.mono (K.finalizerKey hT hk) (fun _ _ hk' => hk') fun key w' hk' => K.putSlot hk'

theorem bufferWrite {i : ℕ} {byte : UInt8} (hk : T.Holds w X) :
    T.Keeping (bufferWrite r i byte) w X := by
  unfold CountedHeap.bufferWrite Terms.Keeping
  simp only [meets_bind, meets_check]
  refine ⟨fun _ _ => hk, fun size hb => ?_⟩
  split
  · simp only [meets_bind, meets_surely, after_modifyHeap, meets_pure]
    cases hr : w.heap.buffer r with
    | error e => simp [hr, Except.map] at hb
    | ok b =>
      exact hk.same fun _ hZ => hZ.modifyBuffer (T.steady _) (Heap.live_of_buffer hr) _
  · simpa only [meets_pure] using hk

theorem resizeBuffer {length : ℕ} (hk : T.Holds w X) (hr : w.heap.isLive r = true) :
    T.Holds ⟨w.heap.resizeBuffer r length, w.host⟩ X :=
  hk.same fun _ hZ => hZ.resizeBuffer (T.steady _) hr

theorem bufferResize (K : E.Keeps T) {length : ℕ} (hk : T.Holds w X) :
    T.Keeping (E.bufferResize r length) w X := by
  unfold Engine.bufferResize Terms.Keeping
  simp only [meets_bind, meets_check, meets_surely, after_query]
  refine ⟨fun _ _ => hk, fun _ hb => ?_⟩
  have hlive : w.heap.isLive r = true := by
    unfold Heap.checkDynamic at hb
    obtain ⟨b, hb, -⟩ := Heap.bind_eq_ok.mp hb
    exact Heap.live_of_buffer hb
  split
  · simp only [meets_bind, meets_surely]
    refine (K.collect w X _ hk).mono fun _ w' hk' => ?_
    simp only [meets_check, after_query]
    refine ⟨fun _ _ => hk'.1, fun c hc => ?_⟩
    have hlive' : w'.heap.isLive r = true := by
      unfold Heap.cell at hc
      unfold Heap.isLive Arena.isLive
      cases hg : w'.heap.arena.get? r with
      | none => simp [hg] at hc
      | some c => rfl
    split
    · simpa only [meets_bind, meets_refuse] using hk'.1
    · simpa only [meets_bind, meets_pure, meets_surely, after_modifyHeap] using
        resizeBuffer hk'.1 hlive'
  · simpa only [meets_bind, meets_pure, meets_surely, after_modifyHeap] using resizeBuffer hk hlive

theorem charOffset {i : ℕ} (hk : T.Holds w X) : T.Keeping (charOffset r i) w X := by
  unfold CountedHeap.charOffset Terms.Keeping
  simp only [meets_bind, meets_check]
  refine ⟨fun _ _ => hk, fun found hfound => ?_⟩
  obtain ⟨byte, scanned⟩ := found
  dsimp only
  split
  · simp only [meets_bind, meets_surely, after_modifyHeap, meets_pure]
    exact hk.same fun _ hZ => hZ.besides (T.steady _) rfl rfl rfl rfl rfl rfl
      (fun hc => hc.remember_found hfound) rfl
  · simpa only [meets_bind, meets_pure] using hk

/-! ## All operations -/

/-- Every operation keeps the terms, unless the cell that it makes refers to one that is gone. -/
theorem perform (K : E.Keeps T) {β : Type} (op : Operation β) (hT : op.installs → T.Rekeys)
    (hk : T.Holds w (X + op.taken)) : Meets (E.perform op) w (fun _ w' => T.Holds w' X)
      (fun answer w' => (T.strict w'.host → ∀ r ∈ op.made answer, w'.heap.Whole r) →
        T.Holds w' (X + op.given w.heap answer)) := by
  -- Operations that neither take nor leave references.
  have hkeeping : ∀ {γ : Type} {x : Attempt σ γ} {Q : γ → World σ → Prop}, T.Keeping x w X →
      Meets x w (fun _ w' => T.Holds w' X) (fun answer w' => Q answer w' → T.Holds w' (X + 0)) := by
    intro γ x Q hx
    exact Meets.mono hx (fun _ _ hk' => hk') fun _ _ hk' _ => by rwa [add_zero]
  -- Operations that make a cell which refers to others.
  have hobject : ∀ {o : Object}, o.props.Valid → T.Holds w X → Meets (E.allocObjectWith o) w
      (fun _ w' => T.Holds w' X) (fun r w' =>
        (T.strict w'.host → ∀ q ∈ some r, w'.heap.Whole q) → T.Holds w' (X + {r})) := by
    intro o hv hk
    exact Meets.mono (K.allocObjectWith hk) (fun _ _ hk' => hk') fun r w' hm hw =>
      hm.holds (by rintro p hp; cases hp; exact hv) rfl fun hs => hw hs r rfl
  cases op
  case release v =>
    simp only [Engine.perform, meets_surely]
    exact (K.releaseAll hk).mono fun _ _ hk' _ => by
      rwa [show Operation.given _ _ _ = 0 from rfl, add_zero]
  all_goals
    replace hk : T.Holds w X := by rwa [show Operation.taken _ = 0 from rfl, add_zero] at hk
  case registerNative =>
    simp only [Engine.perform, meets_surely, after_change]
    refine fun _ => ?_
    rw [show Operation.given _ _ _ = 0 from rfl, add_zero]
    exact hk.same fun _ hZ => hZ.aside (T.steady _) rfl rfl rfl rfl rfl rfl rfl
  case retain v =>
    simp only [Engine.perform, meets_surely, after_modifyHeap]
    exact fun _ => hk.give fun _ hZ => hZ.retainLive (T.steady _)
  case collect o =>
    simp only [Engine.perform, meets_surely]
    exact (K.collect w X o hk).mono fun _ _ hk' _ => by
      rw [show Operation.given _ _ _ = 0 from rfl, add_zero]
      exact hk'.1
  case allocObject proto => exact hobject PropertyTable.Valid.empty hk
  case allocArray proto => exact hobject PropertyTable.Valid.empty hk
  case allocEnvironment parent => exact hobject PropertyTable.Valid.empty hk
  case allocNativeFunction id proto =>
    simp only [Engine.perform, Engine.allocNativeFunction, meets_bind, meets_check]
    exact ⟨fun _ _ => hk, fun _ _ => hobject PropertyTable.Valid.empty hk⟩
  case allocFunction proto constants functions code =>
    exact Meets.mono (K.allocFunction hk) (fun _ _ hk' => hk') fun r _ hk' hw =>
      hk' fun hs => hw hs r rfl
  case allocThread source =>
    refine Meets.mono (K.allocThread hk) (fun _ _ hk' => hk') ?_
    rintro r _ ⟨b, hb, htext, hm⟩ hw
    exact hm.holds hb htext fun hs => hw hs r rfl
  case allocBuffer length dynamic =>
    exact Meets.mono (K.allocBuffer hk) (fun _ _ hk' => hk') fun _ _ hk' _ => hk'
  case allocBufferFrom bytes =>
    exact Meets.mono (K.allocBytes hk) (fun _ _ hk' => hk') fun _ _ hk' _ => hk'
  case intern content isStatic =>
    exact Meets.mono (K.intern hk) (fun _ _ hk' => hk') fun _ _ hk' _ => hk'.1
  case addRoot v => exact hkeeping (addRoot hk)
  case setRoot n v => exact hkeeping (K.setRoot hk)
  case removeRoot n => exact hkeeping (K.removeRoot hk)
  case charOffset s i => exact hkeeping (charOffset hk)
  case bufferWrite b i byte => exact hkeeping (bufferWrite hk)
  case bufferResize b length => exact hkeeping (K.bufferResize hk)
  case putProp r key v => exact hkeeping (K.putSlot hk)
  case putAccessor r key getter setter => exact hkeeping (K.putSlot hk)
  case deleteProp r key => exact hkeeping (K.deleteProp hk)
  case setPrototype r proto => exact hkeeping (K.setPrototype hk)
  case arrayPush r v => exact hkeeping (arrayPush hk)
  case arraySet r i v => exact hkeeping (K.arraySet hk)
  case setFinalizer r function => exact hkeeping (K.setFinalizer (hT trivial) hk)
  case push t v => exact hkeeping (push hk)
  case pop t => exact hkeeping (K.pop hk)
  case popN t n => exact hkeeping (K.popN hk)
  case replace t i v => exact hkeeping (K.replace hk)
  case setBuiltin t id r => exact hkeeping (K.setBuiltin hk)
  case pushActivation t a => exact hkeeping (pushActivation hk)
  case popActivation t => exact hkeeping (K.popActivation hk)
  case unwindCalls t length => exact hkeeping (K.unwindCalls hk)
  case pushCatcher t c => exact hkeeping (pushCatcher hk)
  case unwindCatchers t length => exact hkeeping (unwindCatchers hk)
  case startThread t => exact hkeeping (startThread hk)
  case resumeThread t => exact hkeeping (K.resumeThread hk)
  case yieldThread => exact hkeeping (K.yieldThread hk)
  case terminateThread t => exact hkeeping (K.terminateThread hk)

end Engine.Keeps

end CountedHeap
