import CountedHeap.Proofs.Shell.Holdings
import CountedHeap.Proofs.Shell.Steps

/-!
# Commands keep the accounts of the shell

A command takes counts and gives them back, and may be refused at any point. In between the shell owns more than
its names say: the count of a cell that is still to be bound, or has just lost its name, or of a key.

* `Owns`: what the shell owns, and some references more.
* `Owns.bindName`, `Owns.withKey`: such references are given back, whatever comes in between.
* `Owns.execute`: every command leaves one count for each name.
* `Owns.readLines`: so does every line, and a refusal that is written.
-/

namespace CountedHeap

namespace Shell

variable {α β : Type} {fuel : ℕ} {w : World Screen} {name : String} {X : Multiset Handle} {v : Value}
  {op : Operation β}

/-- What the shell owns: what its names are bound to, and some references more. -/
structure Owns (s : State) (X : Multiset Handle) (w : World Screen) : Prop where
  stake : Stake host (Rooted s.context s.slots) (s.held + X) w
  names : s.names.Distinct
  roots : s.roots.Distinct

namespace Owns

variable {s : State} {Y : Multiset Handle}

theorem screen (h : Owns s X w) (t : Screen) : Owns s X ⟨w.heap, t⟩ :=
  ⟨h.stake.onHost t, h.names, h.roots⟩

/-- An operation that takes no count and is not on roots leaves the shell what it has. -/
theorem perform (h : Owns s X w) (op : Operation β) (htaken : op.taken = 0)
    (hc : op.Careful w.heap (s.held + X)) (hop : ¬ op.reroots) :
    Meets ((Engine.top host fuel).perform op) w (fun _ => Owns s X)
      fun a => Owns s (X + op.given w.heap a) := by
  refine Meets.mono (h.stake.perform silent_host op htaken hc hop)
    (fun _ w' hw => ⟨hw, h.names, h.roots⟩) fun a w' hw => ?_
  rw [add_assoc] at hw
  exact ⟨hw, h.names, h.roots⟩

theorem release (h : Owns s (X + v.refs) w) :
    Meets ((Engine.top host fuel).perform (.release v)) w (fun _ => Owns s X) fun _ => Owns s X := by
  have hstake := h.stake
  rw [← add_assoc] at hstake
  exact Meets.mono (hstake.release silent_host) (fun _ _ hw => ⟨hw, h.names, h.roots⟩)
    fun _ _ hw => ⟨hw, h.names, h.roots⟩

/-- What is among the built-ins of the main thread is reached. -/
theorem reached_builtin (h : Owns s X w) {id : BuiltinId} {r : Handle}
    (hr : s.context.builtin w.heap id = some r) : w.heap.Reached (s.held + X) r := by
  have hmain : w.heap.Reached (s.held + X) s.context.main :=
    Heap.reached_of_root h.stake.roots.main (List.mem_singleton_self _)
  unfold Context.builtin Heap.builtin at hr
  cases hthread : w.heap.thread s.context.main with
  | error e =>
    rw [hthread] at hr
    cases hr
  | ok t =>
    rw [hthread] at hr
    obtain ⟨header, hcell⟩ := Heap.thread_eq_ok.mp hthread
    refine hmain.step (Arena.holds_of_get? hcell) ?_
    have hmem : r ∈ t.builtins.refs := Builtins.mem_refs hr
    simp only [Body.refs, Thread.refs, List.mem_append]
    exact .inl (.inr hmem)

/-- What names are bound to may change with the references that are held otherwise. -/
theorem rename {names : Bindings Value} (h : Owns s X w) (hnames : names.Distinct)
    (hheld : names.refs + Y = s.held + X) : Owns { s with names := names } Y w :=
  ⟨by
    change Stake host (Rooted s.context s.slots) (names.refs + Y) w
    rw [hheld]
    exact h.stake, hnames, h.roots⟩

/-- A name is bound to what comes with a count, and the count of what it was bound to is given back. -/
theorem bindName (h : Owns s v.refs w) :
    Leads fuel (bindName name v) s w (fun _ s' => Owns s' 0) fun _ s' => Owns s' 0 := by
  have hinsert : (s.names.insert name v).refs = v.refs + (s.names.erase name).refs := Bindings.refs_cons
  unfold Shell.bindName
  simp only [leads_bind, leads_write, leads_get, leads_set]
  cases hfind : s.names.find? name with
  | none =>
    have hsame : s.names.erase name = s.names :=
      Bindings.erase_eq_self (Bindings.find?_eq_none_iff.mp hfind)
    rw [leads_pure]
    refine (h.screen _).rename h.names.insert ?_
    rw [hinsert, hsame, add_zero, add_comm]
    rfl
  | some old =>
    have hold : s.held = old.refs + (s.names.erase name).refs := h.names.refs_erase hfind
    rw [leads_perform]
    refine release ((h.screen _).rename h.names.insert ?_)
    rw [hinsert, hold, zero_add]
    abel

/-- The cell of a key is held as long as it is needed. -/
theorem withKey {key : String} {f : Handle → Step (Except HeapError β)} (h : Owns s 0 w)
    (hf : ∀ k w', Owns s {k} w' →
      Leads fuel (f k) s w' (fun _ _ _ => False) fun _ s' => Owns s' {k}) :
    Leads fuel (withKey key f) s w (fun _ s' => Owns s' 0) fun _ s' => Owns s' 0 := by
  unfold Shell.withKey
  simp only [leads_bind, leads_perform]
  refine Meets.mono (h.perform (.intern key false) rfl (.of_held fun _ hr => by cases hr) not_false)
    (fun _ _ hw => hw) fun k w₁ hw₁ => ?_
  rw [zero_add] at hw₁
  refine (hf k w₁ hw₁).mono (fun _ _ _ => False.elim) fun result s₂ w₂ hw₂ => ?_
  rw [← zero_add ({k} : Multiset Handle)] at hw₂
  refine Meets.mono (release (v := .ref k) hw₂) (fun _ _ hw => hw) fun _ w₃ hw₃ => ?_
  cases result with
  | ok b => exact leads_pure.mpr hw₃
  | error e => exact leads_throw.mpr hw₃

/-- What a name is bound to is held. -/
theorem mem_held {r : Handle} (hfind : s.names.find? name = some v) (hr : r ∈ v.refs) :
    r ∈ s.held + X :=
  Multiset.mem_add.mpr (.inl (Bindings.mem_refs hfind hr))

theorem mem_held_of_handle? {r : Handle} (hfind : s.names.find? name = some v) (hr : v.handle? = some r) :
    r ∈ s.held + X := by
  refine mem_held hfind ?_
  unfold Value.refs
  rw [hr]
  exact List.mem_singleton_self r

/-- The references of an operand are held, for it is a constant or what a name is bound to. -/
theorem operand {word : String} (h : Owns s X w) :
    Leads fuel (operand word) s w (fun _ s' => Owns s' X) fun v s' w' =>
      s' = s ∧ w' = w ∧ ∀ r ∈ v.refs, ∀ Y, r ∈ s.held + Y := by
  unfold Shell.operand
  split
  case h_5 =>
    split
    · exact leads_pure.mpr ⟨rfl, rfl, fun _ hr => by cases hr⟩
    · exact leads_lookup.mpr ⟨fun _ => h, fun v hfind => ⟨rfl, rfl, fun r hr _ => mem_held hfind hr⟩⟩
  all_goals exact leads_pure.mpr ⟨rfl, rfl, fun _ hr => by cases hr⟩

/-- A name is bound to a new cell, or to a string. -/
theorem bindMade {op : Operation Handle} (h : Owns s 0 w) (htaken : op.taken = 0)
    (hc : op.Careful w.heap (s.held + 0)) (hop : ¬ op.reroots) (hgiven : ∀ r, op.given w.heap r = {r}) :
    Meets ((Engine.top host fuel).perform op) w (fun _ => Owns s 0) fun r w' =>
      Leads fuel (Shell.bindName name (.ref r)) s w' (fun _ s' => Owns s' 0) fun _ s' => Owns s' 0 := by
  refine Meets.mono (h.perform op htaken hc hop) (fun _ _ hw => hw) fun r w' hw => bindName ?_
  rwa [hgiven, zero_add] at hw

/-! ## Commands -/

theorem makeObject {proto : Option String} (h : Owns s 0 w) :
    Leads fuel (execute (.obj name proto)) s w (fun _ s' => Owns s' 0) fun _ s' => Owns s' 0 := by
  have hmade : ∀ p : Option Handle, (∀ r ∈ p, w.heap.Reached (s.held + 0) r) →
      Meets ((Engine.top host fuel).perform (.allocObject p)) w (fun _ => Owns s 0) fun r w' =>
        Leads fuel (Shell.bindName name (.ref r)) s w' (fun _ s' => Owns s' 0) fun _ s' => Owns s' 0 :=
    fun p hp => h.bindMade rfl (fun r hr => hp r (Option.mem_toList.mp hr)) not_false fun _ => rfl
  unfold execute
  cases proto with
  | some other =>
    simp only [leads_bind, leads_map, leads_lookupCell, leads_perform, leads_pure]
    refine ⟨fun _ => h, fun v hfind => ⟨fun _ => h, fun r hr => hmade _ ?_⟩⟩
    rintro _ ⟨⟩
    exact .start (.inl (mem_held_of_handle? hfind hr))
  | none =>
    simp only [leads_bind, leads_get, leads_inspect, leads_perform, leads_pure]
    exact hmade _ fun r hr => h.reached_builtin hr

theorem makeRoot (h : Owns s 0 w) :
    Leads fuel (execute (.root name)) s w (fun _ s' => Owns s' 0) fun _ s' => Owns s' 0 := by
  unfold execute
  simp only [leads_bind, leads_lookup, leads_perform, leads_get, leads_set]
  refine ⟨fun _ => h, fun v hfind => ?_⟩
  refine Meets.mono (holdRoot_meets h.stake fun r hr => mem_held hfind hr)
    (fun _ _ hw => ⟨hw, h.names, h.roots⟩) fun n w' hw => ?_
  have hinsert : (s.roots.insert name n).numbers = n ::ₘ (s.roots.erase name).numbers := rfl
  cases hroot : s.roots.find? name with
  | none =>
    have hsame : s.roots.erase name = s.roots :=
      Bindings.erase_eq_self (Bindings.find?_eq_none_iff.mp hroot)
    have hslots : n ::ₘ s.slots = s.context.mainRoot ::ₘ (s.roots.insert name n).numbers := by
      rw [hinsert, hsame, Multiset.cons_swap]
      rfl
    rw [hslots] at hw
    exact leads_pure.mpr ⟨hw, h.names, h.roots.insert⟩
  | some old =>
    have hold : s.roots.numbers = old ::ₘ (s.roots.erase name).numbers := h.roots.numbers_erase hroot
    have hslots : n ::ₘ s.slots = old ::ₘ s.context.mainRoot ::ₘ (s.roots.insert name n).numbers := by
      unfold State.slots
      rw [hinsert, hold, Multiset.cons_swap n, Multiset.cons_swap n old, Multiset.cons_swap _ old]
    rw [hslots] at hw
    simp only [leads_bind, leads_perform, leads_pure]
    exact Meets.mono (dropRoot_meets hw (Multiset.mem_cons_self _ _)) (fun _ _ hf => hf.elim)
      fun _ _ hw' => ⟨hw', h.names, h.roots.insert⟩

theorem removeRoot (h : Owns s 0 w) :
    Leads fuel (execute (.unroot name)) s w (fun _ s' => Owns s' 0) fun _ s' => Owns s' 0 := by
  unfold execute
  simp only [leads_bind, leads_get]
  cases hroot : s.roots.find? name with
  | none => exact leads_throw.mpr h
  | some n =>
    have hn : s.roots.numbers = n ::ₘ (s.roots.erase name).numbers := h.roots.numbers_erase hroot
    have hslots : s.slots = n ::ₘ s.context.mainRoot ::ₘ (s.roots.erase name).numbers := by
      unfold State.slots
      rw [hn, Multiset.cons_swap]
    have hstake := h.stake
    rw [hslots] at hstake
    simp only [leads_bind, leads_set, leads_perform, leads_pure]
    exact Meets.mono (dropRoot_meets hstake (Multiset.mem_cons_self _ _)) (fun _ _ hf => hf.elim)
      fun _ _ hw => ⟨hw, h.names, h.roots.erase⟩

theorem dropName (h : Owns s 0 w) :
    Leads fuel (execute (.drop name)) s w (fun _ s' => Owns s' 0) fun _ s' => Owns s' 0 := by
  unfold execute
  simp only [leads_bind, leads_lookup, leads_modify, leads_perform, leads_pure]
  refine ⟨fun _ => h, fun v hfind => release (h.rename h.names.erase ?_)⟩
  have hheld : s.held = v.refs + (s.names.erase name).refs := h.names.refs_erase hfind
  rw [hheld]
  abel

theorem setProperty {key value : String} (h : Owns s 0 w) :
    Leads fuel (execute (.set name key value)) s w (fun _ s' => Owns s' 0) fun _ s' => Owns s' 0 := by
  unfold execute
  simp only [leads_bind, leads_lookupCell, leads_pure]
  refine ⟨fun _ => h, fun x hfind => ⟨fun _ => h, fun r hr => ?_⟩⟩
  refine h.operand.mono (fun _ _ _ hw => hw) ?_
  rintro v s' w' ⟨rfl, rfl, hv⟩
  refine h.withKey fun k w₁ hw₁ => leads_tryOperation.mpr ?_
  refine Meets.mono (hw₁.perform (.putProp r k v) rfl (.of_held ?_) not_false) (fun _ _ hw => hw)
    fun _ w₂ hw₂ => ?_
  · rintro q hq
    rcases List.mem_cons.mp hq with rfl | hq
    · exact mem_held_of_handle? hfind hr
    · rcases List.mem_cons.mp hq with rfl | hq
      · exact Multiset.mem_add.mpr (.inr (Multiset.mem_singleton_self _))
      · exact hv q hq _
  · rwa [show (Operation.putProp r k v).given w₁.heap _ = 0 from rfl, add_zero] at hw₂

theorem getProperty {key : String} (h : Owns s 0 w) :
    Leads fuel (execute (.get name key)) s w (fun _ s' => Owns s' 0) fun _ s' => Owns s' 0 := by
  unfold execute
  simp only [leads_bind, leads_lookupCell]
  refine ⟨fun _ => h, fun x hfind => ⟨fun _ => h, fun r hr => ?_⟩⟩
  refine (h.withKey fun k w₁ hw₁ => leads_inspect.mpr hw₁).mono (fun _ _ _ hw => hw) fun slot s' w' hw => ?_
  cases slot with
  | some slot =>
    simp only [leads_bind, leads_write, leads_pure]
    exact hw.screen _
  | none =>
    simp only [leads_bind, leads_write, leads_pure]
    exact hw.screen _

theorem installFinalizer (h : Owns s 0 w) :
    Leads fuel (execute (.fin name)) s w (fun _ s' => Owns s' 0) fun _ s' => Owns s' 0 := by
  unfold execute
  simp only [leads_bind, leads_lookupCell, leads_get, leads_perform, leads_pure]
  refine ⟨fun _ => h, fun x hfind => ⟨fun _ => h, fun r hr => ?_⟩⟩
  refine Meets.mono (h.perform (.setFinalizer r (.native s.finalizer)) rfl (.of_held ?_) not_false)
    (fun _ _ hw => hw) fun _ w' hw => ?_
  · rintro q hq
    rw [List.mem_singleton.mp hq]
    exact mem_held_of_handle? hfind hr
  · rwa [show Operation.given _ _ _ = 0 from rfl, add_zero] at hw

theorem collect {options : PassOptions} (h : Owns s 0 w) :
    Leads fuel (execute (.gc options)) s w (fun _ s' => Owns s' 0) fun _ s' => Owns s' 0 := by
  unfold execute
  simp only [leads_bind, leads_perform, leads_inspect, leads_write, leads_pure]
  refine Meets.mono (h.perform (.collect options) rfl (.of_held fun _ hr => by cases hr) not_false)
    (fun _ _ hw => hw) fun _ w' hw => ?_
  rw [show (Operation.collect options).given w.heap _ = 0 from rfl, add_zero] at hw
  exact hw.screen _

/-- Whatever a command does, and whether or not it is refused, the shell owns one count for each name. -/
theorem execute (h : Owns s 0 w) (command : Command) :
    Leads fuel (execute command) s w (fun _ s' => Owns s' 0) fun _ s' => Owns s' 0 := by
  cases command with
  | obj name proto => exact h.makeObject
  | str name text =>
    unfold Shell.execute
    simp only [leads_bind, leads_perform, leads_pure]
    exact h.bindMade rfl (.of_held fun _ hr => by cases hr) not_false fun _ => rfl
  | buf name length dynamic =>
    unfold Shell.execute
    simp only [leads_bind, leads_perform, leads_pure]
    exact h.bindMade rfl (.of_held fun _ hr => by cases hr) not_false fun _ => rfl
  | set obj key value => exact h.setProperty
  | get obj key => exact h.getProperty
  | drop name => exact h.dropName
  | root name => exact h.makeRoot
  | unroot name => exact h.removeRoot
  | fin name => exact h.installFinalizer
  | gc options => exact h.collect
  | stats =>
    unfold Shell.execute
    simp only [leads_bind, leads_inspect, leads_write, leads_pure]
    exact h.screen _
  | help =>
    unfold Shell.execute
    simp only [leads_bind, leads_write, leads_pure]
    exact h.screen _
  | quit =>
    unfold Shell.execute
    simpa only [leads_bind, leads_pure] using h

/-! ## Lines -/

/-- A refusal is written, and nothing else happens. -/
theorem evaluate (h : Owns s 0 w) (line : List Char) :
    After (run host fuel (evaluate line s)) w fun p => Owns p.2 0 := by
  unfold Shell.evaluate
  split
  · exact after_run_pure.mpr h
  · rw [after_run_bind]
    refine After.mono (?_ : Leads fuel _ s w (fun _ s' => Owns s' 0) fun _ s' => Owns s' 0) ?_
    · cases Command.parse? line with
      | some command => exact h.execute command
      | none => exact leads_throw.mpr h
    · rintro ⟨e | a, s'⟩ w' hw
      · simp only [after_run_bind, after_run_modifyState, after_run_pure]
        exact screen hw _
      · exact after_run_pure.mpr hw

theorem readLine (h : Owns s 0 w) (line : String) :
    After (run host fuel (readLine line s)) w fun p => Owns p.2 0 := by
  unfold Shell.readLine
  split
  · exact after_run_pure.mpr h
  · simp only [after_run_bind, after_run_pure]
    exact h.evaluate _

theorem readLines (h : Owns s 0 w) (lines : List String) :
    After (run host fuel (readLines lines s)) w fun p => Owns p.2 0 := by
  induction lines generalizing s w with
  | nil =>
    unfold Shell.readLines
    simp only [after_run_bind, after_run_modifyState, after_run_pure]
    exact h.screen _
  | cons line rest ih =>
    unfold Shell.readLines
    simp only [after_run_bind, after_run_modifyState]
    refine (readLine (h.screen _) line).mono ?_
    rintro ⟨_ | ending, s'⟩ w' hw
    · exact ih hw
    · exact after_run_pure.mpr hw

end Owns

end Shell

end CountedHeap
