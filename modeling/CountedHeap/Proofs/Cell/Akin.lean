import CountedHeap.Proofs.Cell.Edits
import CountedHeap.Proofs.Cell.Proper

/-!
# What a change of a cell leaves alone

Most changes of a cell decide nothing about it. It goes on to be of its kind, a string keeps its text,
a buffer its length, a thread stands where it stood, and what prototypes are taken from is the same.

* `Body.post`: the state of a thread and its resumer, which is what other threads depend on.
* `Body.proto?`, `Body.builtins`: where prototypes are taken from.
* `Body.limits?`: how long the stacks of a thread may become.
* `Body.caughtNames`: what a tracing pass follows besides the references that a cell owns.
* `Body.Akin`: a body before and after such a change.
* `size_zeroBytes`, `Buffer.size_write`, `Buffer.size_resize`: the lengths of buffers.
-/

namespace CountedHeap

/-! ## Buffers -/

@[simp] theorem size_zeroBytes (n : ℕ) : (zeroBytes n).size = n := by
  induction n using Nat.strongRec with
  | ind n ih =>
    rw [zeroBytes]
    split
    · simp [*]
    · have hhalf := ih (n / 2) (by omega)
      dsimp only
      split
      · rw [ByteArray.size_append, hhalf]
        omega
      · rw [ByteArray.size_push, ByteArray.size_append, hhalf]
        omega

namespace Buffer

theorem size_write (b : Buffer) (i : ℕ) (byte : UInt8) : (b.write i byte).size = b.size := by
  unfold write size
  dsimp only
  split
  · exact Array.size_set ..
  · rfl

theorem size_resize (b : Buffer) (length : ℕ) : (b.resize length).size = length := by
  unfold resize size
  dsimp only
  split
  · simpa using ‹length ≤ b.bytes.size›
  · simp only [ByteArray.size_append, size_zeroBytes]
    omega

end Buffer

/-! ## Bodies -/

namespace Body

/-- The state of a thread and its resumer. -/
def post : Body → Option (ThreadState × Option Handle)
  | thread t => some (t.state, t.resumer)
  | object _ | string _ | buffer _ => none

theorem isActiveThread_of_post {b : Body} {s : ThreadState} {o : Option Handle}
    (h : b.post = some (s, o)) (hs : s.isActive = true) : b.isActiveThread = true := by
  cases b with
  | thread t =>
    cases h
    exact hs
  | object _ => cases h
  | string _ => cases h
  | buffer _ => cases h

theorem post_modifyObject {b : Body} {f : Object → Object} : (b.modifyObject f).post = b.post := by
  cases b <;> rfl

theorem post_modifyBuffer {b : Body} {f : Buffer → Buffer} : (b.modifyBuffer f).post = b.post := by
  cases b <;> rfl

theorem post_modifyThread {b : Body} {f : Thread → Thread}
    (hf : ∀ t, (f t).state = t.state ∧ (f t).resumer = t.resumer) :
    (b.modifyThread f).post = b.post := by
  cases b with
  | thread t => simp [modifyThread, post, hf t]
  | object _ => rfl
  | string _ => rfl
  | buffer _ => rfl

/-- The prototype of an object or a thread. -/
def proto? (b : Body) : Option Handle :=
  b.object?.bind (·.proto)

/-- The built-ins of a thread; other cells have none. -/
def builtins : Body → Builtins
  | thread t => t.builtins
  | object _ | string _ | buffer _ => {}

/-- How long the stacks of a thread may become. -/
def limits? : Body → Option (ℕ × ℕ × ℕ)
  | thread t => some t.limits
  | object _ | string _ | buffer _ => none

theorem limits?_modifyObject {b : Body} {f : Object → Object} :
    (b.modifyObject f).limits? = b.limits? := by
  cases b <;> rfl

theorem limits?_modifyBuffer {b : Body} {f : Buffer → Buffer} :
    (b.modifyBuffer f).limits? = b.limits? := by
  cases b <;> rfl

theorem limits?_modifyThread {b : Body} {f : Thread → Thread} (hf : ∀ t, (f t).limits = t.limits) :
    (b.modifyThread f).limits? = b.limits? := by
  cases b with
  | thread t => exact congrArg some (hf t)
  | object _ => rfl
  | string _ => rfl
  | buffer _ => rfl

/-- The names of caught variables in a thread; other cells have none. -/
def caughtNames : Body → List Handle
  | thread t => t.caughtNames
  | object _ | string _ | buffer _ => []

/-- A tracing pass follows the references that a cell owns and the names of caught variables. -/
theorem tracedRefs_eq (b : Body) : b.tracedRefs = b.refs ++ b.caughtNames := by
  cases b <;> first | rfl | exact (List.append_nil _).symm

theorem caughtNames_modifyObject {b : Body} {f : Object → Object} :
    (b.modifyObject f).caughtNames = b.caughtNames := by
  cases b <;> rfl

theorem caughtNames_modifyBuffer {b : Body} {f : Buffer → Buffer} :
    (b.modifyBuffer f).caughtNames = b.caughtNames := by
  cases b <;> rfl

/-- A change of a thread that lets names turn up only on a condition. -/
theorem mem_caughtNames_modifyThread {b : Body} {f : Thread → Thread} {P : Handle → Prop} {q : Handle}
    (hf : ∀ t, ∀ q ∈ (f t).caughtNames, q ∈ t.caughtNames ∨ P q)
    (hq : q ∈ (b.modifyThread f).caughtNames) : q ∈ b.caughtNames ∨ P q := by
  cases b with
  | thread t => exact hf t q hq
  | object _ => exact .inl hq
  | string _ => exact .inl hq
  | buffer _ => exact .inl hq

/-- The body of a cell before and after a change that decides nothing about the cell. -/
structure Akin (b b' : Body) : Prop where
  kind : b'.kind = b.kind
  text : b'.text? = b.text?
  post : b'.post = b.post
  proto : b'.proto? = b.proto?
  builtins : b'.builtins = b.builtins
  limits : b'.limits? = b.limits?
  size : b.isComposite = false → b'.size = b.size
  proper : b.Proper → b'.Proper

namespace Akin

variable {b : Body}

theorem modifyObject {f : Object → Object} (hf : ∀ o, (f o).proto = o.proto) :
    Akin b (b.modifyObject f) := by
  refine ⟨?_, text?_modifyObject f, post_modifyObject, ?_, ?_, limits?_modifyObject, fun hb => ?_,
    .modifyObject⟩
  · cases b <;> rfl
  · cases b <;> simp [Body.modifyObject, proto?, object?, hf]
  · cases b <;> rfl
  · cases b <;> first | rfl | cases hb

theorem modifyBuffer {f : Buffer → Buffer} (hf : ∀ c, (f c).size = c.size) :
    Akin b (b.modifyBuffer f) := by
  refine ⟨?_, text?_modifyBuffer f, post_modifyBuffer, ?_, ?_, limits?_modifyBuffer, fun _ => ?_,
    .modifyBuffer⟩
  · cases b <;> rfl
  · cases b <;> rfl
  · cases b <;> rfl
  · cases b <;> simp [Body.modifyBuffer, Body.size, hf]

theorem modifyThread {f : Thread → Thread}
    (hf : ∀ t, (f t).state = t.state ∧ (f t).resumer = t.resumer)
    (hframe : ∀ t, (f t).object = t.object ∧ (f t).builtins = t.builtins ∧ (f t).limits = t.limits)
    (hproper : ∀ t : Thread, t.Proper → (f t).Proper) : Akin b (b.modifyThread f) := by
  refine ⟨?_, text?_modifyThread f, post_modifyThread hf, ?_, ?_,
    limits?_modifyThread fun t => (hframe t).2.2, fun hb => ?_, .modifyThread hproper⟩
  · cases b <;> rfl
  · cases b <;> simp [Body.modifyThread, proto?, object?, hframe]
  · cases b <;> simp [Body.modifyThread, Body.builtins, hframe]
  · cases b <;> first | rfl | cases hb

end Akin

end Body

end CountedHeap
