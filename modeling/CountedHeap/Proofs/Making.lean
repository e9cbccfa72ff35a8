import CountedHeap.Proofs.Invariance
import CountedHeap.Proofs.Rescue

/-!
# What new cells refer to

The references of a new cell are checked, and the built-ins of a new thread looked up, before there is
room for the cell; an emergency pass that makes room may run finalizers in between. What the client
holds it does not free. It may free the built-ins, which only the other thread holds: a finalizer that
takes one out of there leaves the new thread with a stale reference.

* `Engine.prompt`: the engine at the top, where drains meet no cell that has been stored again.
* `Terms.secures_held`: what a client holds is there once room has been made.
* `made_refers_to_live`: a new cell refers to live cells, each of which counts it.
* `made_refers_to_freed`: a thread that shares a built-in which is freed before it is placed.
-/

namespace CountedHeap

open Heap (Kept OutsidePass)

variable {σ : Type} {host past : Host σ} {held : σ → Multiset Handle} {w w' : World σ}
  {X : Multiset Handle} {fuel : ℕ} {r : Handle} {T : Terms σ}

/-! ## Prompt drains -/

/-- No drain from here meets a cell that is counted and has no finalizer to run. -/
def Host.Prompt (host : Host σ) (w : World σ) : Prop :=
  ∀ w' i, Drains host (fun _ _ => True) w w' → w'.heap.arena.queue.head = some i → w'.heap.Due i

open Classical in
/-- The engine at the top, where a drain has a result only if no cell that it meets has been stored
again without being finalized. -/
noncomputable def Engine.prompt (host : Host σ) (fuel : ℕ) : Engine σ :=
  let drain : Action σ Unit := fun w => if host.Prompt w then (Engine.top host fuel).drain w else none
  { drain := drain
    collect := pass (Engine.inPass.caller host) drain
    slack := fuel }

/-- Prompt operations do what operations at the top do, if they have a result. -/
theorem prompt_restricts {β : Type} (op : Operation β) : (restricting σ).Lift
    ((Engine.prompt host fuel).perform op) ((Engine.top host fuel).perform op) := by
  have hdrain : (restricting σ).rel (Engine.prompt host fuel).drain (Engine.top host fuel).drain :=
    fun _ _ e => (Option.ite_none_right_eq_some.mp e).2
  have hagree : (restricting σ).Agree (Engine.prompt host fuel) (Engine.top host fuel) :=
    ⟨Simulation.rel_release withering_restricting hdrain,
      fun _ => withering_restricting.pass (fun _ _ => restricting_refl) hdrain, rfl⟩
  exact hagree.perform_all turning_restricting op

/-- They keep counts exact if finalizers do. -/
theorem prompt_keeps (hH : host.Keeps T) : (Engine.prompt host fuel).Keeps T.atTop := by
  refine top_keeps_of_drain hH (fun w X hk _ w' e => ?_) fun w h0 _ w' e => ?_
  · obtain ⟨hp, e⟩ := Option.ite_none_right_eq_some.mp e
    exact top_drain_keeps hH (fun _ w' i _ => hp w' i) hk _ _ e
  · exact top_drain_key h0 _ _ (Option.ite_none_right_eq_some.mp e).2

/-! ## New cells -/

/-- An operation that makes a cell takes nothing from its client, who gets a count on the cell. -/
theorem Operation.ledger_of_made {β : Type} {op : Operation β} {a : β} {h : Heap}
    (hmade : op.made a = some r) : op.taken = 0 ∧ op.given h a = {r} := by
  cases op <;> cases hmade <;> exact ⟨rfl, rfl⟩

/-- What a client holds is there once room has been made. -/
theorem Terms.secures_held (hT : ∀ s, T.strict s) : T.Secures fun _ X r => r ∈ X where
  live hk hr := (hk.balanced (hT _)).live_of_held (Multiset.mem_add.mpr (.inr hr))
  since _ _ hr := hr
  placed _ _ hr := by simpa [or_comm] using hr

/-- A client that holds all cells that it passes gets a cell that refers to live cells only, each of
which counts it, whatever finalizers do meanwhile as long as they give back no counts but their own and
a drain frees nothing that has been stored again. The built-ins that a thread shares have to be held as
well, or the other thread has to refer to them still. -/
theorem made_refers_to_live (hw : Reachable past w) (hh : host.Honest held)
    (hx : w.heap.Exact (held w.host + X)) {op : Operation Handle} (hmade : op.made r = some r)
    (hargs : ∀ q ∈ op.mentioned, q ∈ X)
    (e : ((Engine.prompt host fuel).perform op).run w = some (.ok r, w'))
    (hshared : ∀ q ∈ op.shared w.heap, q ∈ X ∨
      ∃ t ∈ op.mentioned, q ∈ w'.heap.arena.refsAt t.index) :
    (∀ q ∈ w'.heap.arena.refsAt r.index, w'.heap.isLive q = true) ∧
      w'.heap.Exact (held w'.host + (X + {r})) := by
  let T := (Terms.plain True held).atTop
  have hT : ∀ s, T.strict s := fun _ => trivial
  obtain ⟨htaken, hgiven⟩ : op.taken = 0 ∧ op.given w.heap r = {r} :=
    Operation.ledger_of_made hmade
  have hk : T.Holds w (X + op.taken) := by
    rw [htaken, add_zero]
    exact hw.kept hx
  have K : (Engine.prompt host fuel).Keeps T := prompt_keeps (hh.keeps fun _ => trivial)
  have hwhole : w'.heap.Whole r := by
    refine K.perform_whole hT (Terms.secures_held hT) op hk (fun q hq => ?_) _ _ e
      (fun q hq => (hshared q hq).imp_left ?_) r hmade
    · exact Multiset.mem_add.mpr (.inl (hargs q hq))
    · exact fun hq => Multiset.mem_add.mpr (.inl hq)
  have hrekeys : T.Rekeys := fun _ _ _ hP => hP
  have hk' : T.Holds w' (X + {r}) := by
    have hdone := K.perform op (fun _ => hrekeys) hk _ _ e
    rw [← hgiven]
    refine hdone fun _ q hq => ?_
    obtain rfl : r = q := Option.some.inj (hmade.symm.trans hq)
    exact hwhole
  have hb : w'.heap.Balanced ∅ (held w'.host + (X + {r})) := hk'.balanced trivial
  have hr : w'.heap.isLive r = true := hb.live_of_held (by simp)
  obtain ⟨n, b, hcell⟩ := Arena.isLive_iff.mp hr
  refine ⟨fun q hq => hwhole n b hcell q ?_, Heap.exact_iff.mpr hb⟩
  rwa [hcell.refsAt] at hq

/-! ## A built-in that is taken out of the source -/

/-- The host whose native functions take the global object out of a thread. -/
def Host.clearing (t : Handle) : Host σ :=
  fun _ _ => .perform (.setBuiltin t .global none) fun _ => .done .returned

theorem Host.honest_clearing {t : Handle} : (Host.clearing t : Host σ).Honest fun _ => 0 := by
  intro E _ id v w X _ _
  refine ⟨le_rfl, fun answer w' _ => ?_⟩
  cases answer with
  | ok _ => exact ⟨nofun, rfl⟩
  | error _ => exact rfl

/-- The client makes a thread with a global object, which it holds as well. An object with a finalizer
and a thread, which both refer to themselves, are dropped. There is no room for another thread. -/
def cramped : List Command :=
  [⟨_, .registerNative⟩, ⟨_, .allocThread none⟩, ⟨_, .allocObject none⟩,
    ⟨_, .setBuiltin ⟨0, 0⟩ .global (some ⟨1, 0⟩)⟩, ⟨_, .allocObject none⟩,
    ⟨_, .setFinalizer ⟨2, 0⟩ (.native ⟨0⟩)⟩, ⟨_, .allocThread none⟩,
    ⟨_, .setBuiltin ⟨4, 0⟩ .global (some ⟨4, 0⟩)⟩, ⟨_, .intern "k" false⟩,
    ⟨_, .putProp ⟨2, 0⟩ ⟨5, 0⟩ (.ref ⟨2, 0⟩)⟩, ⟨_, .release (.ref ⟨5, 0⟩)⟩,
    ⟨_, .release (.ref ⟨2, 0⟩)⟩, ⟨_, .release (.ref ⟨4, 0⟩)⟩]

/-- Some operations of a client lead to a world in which counts are exact. -/
theorem exact_of_rehearse {ops : List Command} {config : Config} {x : World Unit × Multiset Handle}
    (e : rehearse (fun _ => (Engine.top .idle 5).perform) ops ⟨.empty config, ()⟩ 0 = some x) :
    Reachable .idle x.1 ∧ x.1.heap.Exact x.2 := by
  have hr : Run .idle Discipline.careful x.1 x.2 := (Run.start config ()).rehearse_careful e
  exact ⟨hr.reachable, (hr.kept Host.silent_idle).exact⟩

/-- The thread shares its global object with a new one. A finalizer takes the object out of it while
room is made, but the client holds the object. -/
theorem made_refers_to_live_cramped : ∃ w w' : World Unit, Reachable .idle w ∧
    (Host.clearing ⟨0, 0⟩ : Host Unit).Honest (fun _ => 0) ∧
    w.heap.Exact (0 + {⟨0, 0⟩, ⟨1, 0⟩}) ∧
    ((Engine.prompt (.clearing ⟨0, 0⟩) 5).perform (.allocThread (some ⟨0, 0⟩))).run w =
      some (.ok ⟨4, 1⟩, w') ∧
    w'.heap.arena.refsAt 0 = [] ∧ w'.heap.arena.refsAt 4 = [⟨1, 0⟩] ∧
    w'.heap.isLive ⟨1, 0⟩ = true ∧ w'.heap.Exact (0 + ({⟨0, 0⟩, ⟨1, 0⟩} + {⟨4, 1⟩})) := by
  have hran : (rehearse (fun _ => (Engine.top .idle 5).perform) cramped
      (⟨.empty { maxBytes := 1900 }, ()⟩ : World Unit) 0).map (fun x => (x.2,
        (Operation.allocThread (some ⟨0, 0⟩)).shared x.1.heap,
        (((Engine.prompt (.clearing ⟨0, 0⟩) 5).perform (.allocThread (some ⟨0, 0⟩))).run x.1).map
          fun y => (y.1.toOption, [0, 4].map y.2.heap.arena.refsAt))) =
      some ({⟨0, 0⟩, ⟨1, 0⟩}, [⟨1, 0⟩], some (some ⟨4, 1⟩, [[], [⟨1, 0⟩]])) := by
    decide +kernel
  obtain ⟨⟨w, X⟩, e, hw⟩ := Option.map_eq_some_iff.mp hran
  simp only [Prod.mk.injEq, Option.map_eq_some_iff, List.map_cons, List.map_nil, List.cons.injEq,
    and_true] at hw
  obtain ⟨rfl, hshared, ⟨answer, w'⟩, e', hanswer, hold, hnew⟩ := hw
  obtain ⟨hreach, hx⟩ := exact_of_rehearse e
  cases answer with
  | error _ => cases hanswer
  | ok r =>
    cases hanswer
    have hx₀ : w.heap.Exact (0 + {⟨0, 0⟩, ⟨1, 0⟩}) := by rwa [zero_add]
    obtain ⟨hlive, hx'⟩ := made_refers_to_live hreach Host.honest_clearing hx₀ rfl (by decide) e'
      fun q hq => .inl (by rw [hshared] at hq; obtain rfl := List.mem_singleton.mp hq; decide)
    exact ⟨w, w', hreach, Host.honest_clearing, hx₀, e', hold, hnew, hlive _ (by simp [hnew]), hx'⟩

/-- Without the count of the client the object is freed, and the new thread refers to it all the
same. -/
theorem made_refers_to_freed : ∃ w w' : World Unit, Reachable .idle w ∧
    (Host.clearing ⟨0, 0⟩ : Host Unit).Honest (fun _ => 0) ∧ w.heap.Exact {⟨0, 0⟩} ∧
    ((Engine.top (.clearing ⟨0, 0⟩) 5).perform (.allocThread (some ⟨0, 0⟩))).run w =
      some (.ok ⟨1, 1⟩, w') ∧
    ⟨1, 0⟩ ∈ w'.heap.arena.refsAt 1 ∧ w'.heap.isLive ⟨1, 0⟩ = false := by
  have hran : (rehearse (fun _ => (Engine.top .idle 5).perform)
      (cramped ++ [⟨_, .release (.ref ⟨1, 0⟩)⟩])
      (⟨.empty { maxBytes := 1900 }, ()⟩ : World Unit) 0).map (fun x => (x.2,
        (((Engine.top (.clearing ⟨0, 0⟩) 5).perform (.allocThread (some ⟨0, 0⟩))).run x.1).map
          fun y => (y.1.toOption, y.2.heap.arena.refsAt 1, y.2.heap.isLive ⟨1, 0⟩))) =
      some ({⟨0, 0⟩}, some (some ⟨1, 1⟩, [⟨1, 0⟩], false)) := by
    decide +kernel
  obtain ⟨⟨w, X⟩, e, hw⟩ := Option.map_eq_some_iff.mp hran
  simp only [Prod.mk.injEq, Option.map_eq_some_iff] at hw
  obtain ⟨rfl, ⟨answer, w'⟩, e', hanswer, hnew, hdead⟩ := hw
  obtain ⟨hreach, hx⟩ := exact_of_rehearse e
  cases answer with
  | error _ => cases hanswer
  | ok r =>
    cases hanswer
    exact ⟨w, w', hreach, Host.honest_clearing, hx, e', by simp [hnew], hdead⟩

end CountedHeap
