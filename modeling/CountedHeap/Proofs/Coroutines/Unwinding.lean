import CountedHeap.Proofs.Heap.Contents
import CountedHeap.Proofs.Heap.Proper
import CountedHeap.Proofs.Heap.Wanes

/-!
# Leaving calls

Where no finalizer is found, leaving calls comes to an end, whether or not counts are exact. Giving back
what a call refers to may free the thread itself, and then its calls are looked for in vain. As long as the
thread is there, its innermost calls go one by one. Each takes its catchers with it, and those that were
pushed after them, whatever call they belong to.

* `Poised`: a world between two operations, where no finalizer is found.
* `Thread.Trims`, `Trimmed`: something has been taken off the stacks of a thread.
* `Thread.Unwound`: calls have been left.
* `Poised.unwindWithin`, `Poised.unwindAll`: calls are left, and stacks are emptied.
* `calls_unwound`: what leaving calls does to a thread.
-/

namespace CountedHeap

open Heap (Attends Kept OutsidePass Wanes Becomes)

variable {σ : Type} {host : Host σ} {s : Prop} {fuel n k : ℕ} {w w' w'' : World σ}
  {X Y given : Multiset Handle} {t : Handle} {x : Thread} {rs : List Handle}

theorem Heap.thread_of_dead {h : Heap} (ht : h.isLive t = false) : h.thread t = .error .invalidHandle := by
  unfold Heap.thread
  cases hc : h.arena.get? t with
  | none => rfl
  | some c =>
    have hlive : h.isLive t = true := (Arena.holds_of_get? hc).isLive
    rw [ht] at hlive
    cases hlive

/-- A change of a thread is not the end of any cell. -/
theorem Heap.Attends.modifyThread {h : Heap} {f : Thread → Thread} (hx : h.thread t = .ok x) :
    Attends h (h.modifyThread t f) := by
  have hbody := Heap.body?_modifyThread (f := f) hx
  refine ⟨fun c hc => ?_, id, fun c hc hcell => .inl ⟨hc, ?_⟩⟩
  · rw [Heap.isLive_eq_body?, hbody]
    have hct : c ≠ t := by
      rintro rfl
      rw [Heap.isLive_eq_body?, Heap.body?_eq_thread.mpr hx] at hc
      cases hc
    rwa [Function.update_of_ne hct, ← Heap.isLive_eq_body?]
  · obtain ⟨b, hb, hcomp⟩ := Heap.composite_iff_body?.mp hcell
    rw [Heap.composite_iff_body?, hbody]
    by_cases hct : c = t
    · exact ⟨.thread (f x), by rw [hct, Function.update_self], rfl⟩
    · exact ⟨b, by rwa [Function.update_of_ne hct], hcomp⟩

/-- A world between two operations, where no finalizer is found. Counts are exact if this is asked for. The
bound is high enough for the cells that are there. -/
structure Poised (s : Prop) (fuel : ℕ) (X : Multiset Handle) (w : World σ) : Prop where
  kept : Kept s (OutsidePass []) w.heap X
  unfinalized : w.heap.Unfinalized
  bound : 2 * w.heap.arena.compositeCount < fuel

namespace Poised

theorem live (hp : Poised True fuel X w) (ht : t ∈ X) : w.heap.isLive t = true :=
  (hp.kept.balanced trivial).live_of_held ht

/-- Where object parts stay, a world stays poised. -/
theorem becomes {R : Handle → Body → Body → Prop} (hp : Poised s fuel X w)
    (hk : Kept s (OutsidePass []) w'.heap Y) (hb : Becomes R w.heap w'.heap)
    (hR : ∀ r b b', R r b b' → b'.object? = b.object?) : Poised s fuel Y w' := by
  have hle := hb.compositeCount_le hR hp.kept.sound hk.sound
  have hbound := hp.bound
  exact ⟨hk, hb.unfinalized hR hp.unfinalized, by omega⟩

/-- What a cell that is held has come to hold. -/
theorem body?_of_becomes {f : Handle → Body → Body} {b : Body} (hp : Poised True fuel X w') (ht : t ∈ X)
    (hb : Becomes (fun r b b' => b' = f r b) w.heap w'.heap) (hbody : w.heap.body? t = some b) :
    w'.heap.body? t = some (f t b) := by
  obtain ⟨b', hb'⟩ := Heap.exists_body?.mpr (hp.live ht)
  obtain ⟨b₀, hb₀, rfl⟩ := hb.cells t b' hb'
  rw [hbody] at hb₀
  cases hb₀
  exact hb'

/-- Counts are given back, and cells are freed. -/
theorem releaseAll (host : Host σ) (hp : Poised s fuel (X + rs) w) :
    Succeeds (surely ((Engine.top host fuel).releaseAll rs)) w fun _ w' =>
      Poised s fuel X w' ∧ Wanes w.heap w'.heap := by
  have hquiet : host.Quiet s w.heap := .inr hp.unfinalized
  obtain ⟨hreturns, hafter⟩ := top_releaseAll_quiet hquiet hp.kept hp.bound
  refine succeeds_surely.mpr ⟨hreturns, (hafter.and (releaseAll_wanes hp.unfinalized)).mono ?_⟩
  rintro _ w' ⟨⟨hk, hs⟩, hw⟩
  exact ⟨hp.becomes hk hs.toShrinks.becomes fun _ b b' he => by rw [he], hw⟩

theorem release {r : Handle} (host : Host σ) (hp : Poised s fuel (X + {r}) w) :
    Succeeds (surely ((Engine.top host fuel).release r)) w fun _ w' =>
      Poised s fuel X w' ∧ Wanes w.heap w'.heap := by
  have hone : (Engine.top host fuel).releaseAll [r] = (Engine.top host fuel).release r := by
    change ((Engine.top host fuel).release r >>= fun _ => pure ()) = _
    exact bind_pure_unit
  rw [← hone]
  exact releaseAll host (show Poised s fuel (X + ([r] : List Handle)) w from hp)

end Poised

/-! ## What stacks lose -/

theorem ValueStack.values_cleared (s : ValueStack) : ((s.setBottom 0).truncate 0).values = #[] := by
  unfold truncate
  split
  · rename_i hsize
    exact Array.eq_empty_of_size_eq_zero (Nat.le_zero.mp hsize)
  · simp

/-- The references on the stacks of a thread. -/
def Thread.stackRefs (x : Thread) : List Handle :=
  x.values.refs ++ x.calls.toList.flatMap Activation.refs

theorem Thread.refs_eq : (x.refs : Multiset Handle) =
    x.object.refs + x.builtins.refs + x.stackRefs + x.resumer.toList := by
  unfold refs stackRefs
  simp only [← Multiset.coe_add]
  abel

/-- The stacks of a thread are empty. -/
structure Thread.Cleared (x : Thread) : Prop where
  values : x.values.values = #[]
  calls : x.calls = #[]
  catchers : x.catchers = #[]

theorem Thread.Cleared.stackRefs (h : x.Cleared) : x.stackRefs = [] := by
  unfold Thread.stackRefs ValueStack.refs
  rw [h.values, h.calls]
  rfl

/-- A thread after something has been taken off its stacks. -/
structure Thread.Trims (x x' : Thread) : Prop where
  object : x'.object = x.object
  builtins : x'.builtins = x.builtins
  state : x'.state = x.state
  resumer : x'.resumer = x.resumer

theorem Thread.Trims.refl : x.Trims x :=
  ⟨rfl, rfl, rfl, rfl⟩

theorem Thread.Trims.trans {x x' x'' : Thread} (h₁ : x.Trims x') (h₂ : x'.Trims x'') : x.Trims x'' :=
  ⟨h₂.object.trans h₁.object, h₂.builtins.trans h₁.builtins, h₂.state.trans h₁.state,
    h₂.resumer.trans h₁.resumer⟩

/-- Something is taken off the stacks of one thread. -/
def trims (t r : Handle) (b b' : Body) : Prop :=
  b' = b ∨ r = t ∧ ∃ x x', b = .thread x ∧ b' = .thread x' ∧ x.Trims x'

theorem trims.trans {r : Handle} {b b' b'' : Body} (h₁ : trims t r b b') (h₂ : trims t r b' b'') :
    trims t r b b'' := by
  rcases h₁ with rfl | ⟨hr, x, x', rfl, rfl, hx⟩
  · exact h₂
  · rcases h₂ with rfl | ⟨-, _, x'', he, rfl, hx'⟩
    · exact .inr ⟨hr, x, x', rfl, rfl, hx⟩
    · cases he
      exact .inr ⟨hr, x, x'', rfl, rfl, hx.trans hx'⟩

theorem trims.object? {r : Handle} {b b' : Body} (h : trims t r b b') : b'.object? = b.object? := by
  rcases h with rfl | ⟨-, x, x', rfl, rfl, hx⟩
  · rfl
  · exact congrArg some hx.object

/-- A world in which a thread has lost something from its stacks. -/
structure Trimmed (s : Prop) (fuel : ℕ) (X : Multiset Handle) (t : Handle) (w w' : World σ) : Prop where
  poised : Poised s fuel X w'
  attends : Attends w.heap w'.heap
  becomes : Becomes (trims t) w.heap w'.heap

theorem Trimmed.refl (hp : Poised s fuel X w) : Trimmed s fuel X t w w :=
  ⟨hp, (Wanes.refl (h := w.heap)).attends, fun _ b hb => ⟨b, hb, .inl rfl⟩, rfl, rfl⟩

theorem Trimmed.trans (h₁ : Trimmed s fuel X t w w') (h₂ : Trimmed s fuel Y t w' w'') :
    Trimmed s fuel Y t w w'' :=
  ⟨h₂.poised, h₁.attends.trans h₂.attends, h₁.becomes.trans h₂.becomes fun _ _ _ _ _ _ => trims.trans⟩

namespace Poised

/-- A thread loses something from its stacks, which is in flight then. -/
theorem trim (hp : Poised s fuel X w) (hx : w.heap.thread t = .ok x)
    {f : Thread → Thread} (hf : x.Trims (f x))
    (hrefs : ((f x).refs : Multiset Handle) + given = x.refs + 0) :
    Trimmed s fuel (X + given) t w ⟨w.heap.modifyThread t f, w.host⟩ ∧
      (w.heap.modifyThread t f).thread t = .ok (f x) := by
  have hk : Kept s (OutsidePass []) w.heap (X + 0) := by simpa using hp.kept
  have hbody := Heap.body?_modifyThread (f := f) hx
  have hbecomes : Becomes (trims t) w.heap (w.heap.modifyThread t f) := by
    refine ⟨fun r b' hb' => ?_, rfl, rfl⟩
    rw [hbody] at hb'
    by_cases hr : r = t
    · subst hr
      rw [Function.update_self] at hb'
      exact ⟨_, Heap.body?_eq_thread.mpr hx, .inr ⟨rfl, x, f x, rfl, (Option.some.inj hb').symm, hf⟩⟩
    · rw [Function.update_of_ne hr] at hb'
      exact ⟨b', hb', .inl rfl⟩
  refine ⟨⟨?_, .modifyThread hx, hbecomes⟩, Heap.body?_eq_thread.mp (by rw [hbody, Function.update_self])⟩
  exact hp.becomes (hk.editThread (Heap.steady_outsidePass []) hx hf.object hrefs) hbecomes
    fun _ _ _ => trims.object?

/-- What is in flight is given back. If the thread is left, it is as it was. -/
theorem giveBack (host : Host σ) (hp : Poised s fuel (X + rs) w) (hx : w.heap.thread t = .ok x) :
    Succeeds (surely ((Engine.top host fuel).releaseAll rs)) w fun _ w' =>
      Trimmed s fuel X t w w' ∧ (w'.heap.isLive t = true → w'.heap.thread t = .ok x) := by
  refine (hp.releaseAll host).mono fun _ w' h => ?_
  refine ⟨⟨h.1, h.2.attends, h.2.shrinks.becomes.mono fun _ _ _ he => .inl he⟩, fun hlive => ?_⟩
  obtain ⟨b, hb⟩ := Heap.exists_body?.mpr hlive
  have hsame := h.2.shrinks.body? hb
  rw [Heap.body?_eq_thread.mpr hx] at hsame
  cases hsame
  exact Heap.body?_eq_thread.mp hb

end Poised

/-! ## Leaving calls -/

/-- A thread after its innermost calls have been left until a length is not exceeded. The catchers have
been cut at the first one whose call is gone. -/
structure Thread.Unwound (n : ℕ) (x x' : Thread) : Prop extends Thread.Trims x x' where
  values : x'.values = x.values
  calls : x'.calls.toList = x.calls.toList.take n
  catchers : x'.catchers.toList = x.catchers.toList.takeWhile (·.activation < x'.calls.size)

namespace Thread

/-- Nothing is to be left. -/
theorem Proper.unwound_self (hx : x.Proper) (hn : x.calls.size ≤ n) : x.Unwound n x where
  toTrims := .refl
  values := rfl
  calls := (List.take_of_length_le hn).symm
  catchers := by
    refine (List.takeWhile_eq_self_iff.mpr fun c hc => ?_).symm
    exact decide_eq_true (hx.caught c (Array.mem_toList_iff.mp hc))

/-- One call is left, and then the others. -/
theorem Unwound.of_popActivation {a : Activation} {x' : Thread} (hn : n < x.calls.size)
    (h : (x.popActivation a).Unwound n x') : x.Unwound n x' where
  toTrims := (show x.Trims (x.popActivation a) from ⟨rfl, rfl, rfl, rfl⟩).trans h.toTrims
  values := h.values
  calls := by
    have hpop : (x.popActivation a).calls.toList = x.calls.toList.dropLast := Array.toList_pop
    rw [h.calls, hpop, List.dropLast_eq_take, List.take_take]
    congr 1
    have hlen : x.calls.toList.length = x.calls.size := Array.length_toList
    omega
  catchers := by
    have hcut : (x.popActivation a).catchers.toList =
        x.catchers.toList.takeWhile (·.activation < x.calls.size - 1) :=
      x.catchersBelow_eq_takeWhile (x.calls.size - 1)
    have hsize : x'.calls.size = n := by
      have hlen := congrArg List.length h.calls
      have hpop : (x.popActivation a).calls.size = x.calls.size - 1 := Array.size_pop
      rw [List.length_take, Array.length_toList, Array.length_toList, hpop] at hlen
      omega
    rw [h.catchers, hcut, hsize, List.takeWhile_takeWhile]
    congr 1
    funext c
    simp only [decide_eq_true_eq, decide_eq_decide]
    omega

end Thread

/-- A thread that is gone has no calls to leave. -/
theorem unwindWithin_gone {E : Engine σ} (hdead : w.heap.isLive t = false) (hk : 0 < k) :
    Settles (E.unwindWithin t n k) w (fun e w' => e = .invalidHandle ∧ w' = w) fun _ _ => False := by
  obtain ⟨k, rfl⟩ := Nat.exists_eq_add_of_lt hk
  have hcheck : w.heap.checkUnwind t n = .error .invalidHandle := by
    unfold Heap.checkUnwind
    rw [Heap.thread_of_dead hdead]
    rfl
  simp only [Nat.zero_add, Engine.unwindWithin, settles_bind, settles_check, hcheck]
  refine ⟨fun e he => ?_, fun _ he => by cases he⟩
  cases he
  simp

namespace Poised

/-- The innermost calls of a thread are left, one after the other. The thread may be gone before the last
one is. -/
theorem unwindWithin (host : Host σ) (hp : Poised s fuel X w) (hx : w.heap.thread t = .ok x)
    (hproper : x.Proper) (hk : x.calls.size - n < k) :
    Settles ((Engine.top host fuel).unwindWithin t n k) w
      (fun e w' => e = .invalidHandle ∧ w'.heap.isLive t = false ∧ Trimmed s fuel X t w w')
      (fun _ w' => Trimmed s fuel X t w w' ∧
        ∃ x', w'.heap.thread t = .ok x' ∧ x'.Proper ∧ x.Unwound n x') := by
  induction k generalizing w x with
  | zero => omega
  | succ k ih =>
    have hcheck : w.heap.checkUnwind t n = .ok (if x.calls.size ≤ n then none else x.calls.back?) := by
      unfold Heap.checkUnwind
      rw [hx]
      rfl
    simp only [Engine.unwindWithin, settles_bind, settles_check, hcheck]
    refine ⟨fun _ he => (by cases he), fun a ha => ?_⟩
    cases ha
    by_cases hn : x.calls.size ≤ n
    · rw [if_pos hn, settles_pure]
      exact ⟨.refl hp, x, hx, hproper, hproper.unwound_self hn⟩
    · rw [if_neg hn]
      obtain ⟨a, hback⟩ : ∃ a, x.calls.back? = some a := by
        have hlast : x.calls.size - 1 < x.calls.size := by omega
        exact ⟨_, Array.getElem?_eq_getElem hlast⟩
      have hleft : x.Trims (x.popActivation a) := ⟨rfl, rfl, rfl, rfl⟩
      obtain ⟨htrimmed, hx'⟩ := hp.trim (f := (·.popActivation a)) hx hleft (Thread.refs_popActivation hback)
      have hgive := htrimmed.poised.giveBack host hx'
      rw [hback]
      simp only [settles_bind, settles_surely, returns_modifyHeap, after_modifyHeap, true_and]
      rw [succeeds_surely] at hgive
      refine ⟨hgive.1, hgive.2.mono fun _ w₁ h₁ => ?_⟩
      have hdone : Trimmed s fuel X t w w₁ := htrimmed.trans h₁.1
      by_cases hlive : w₁.heap.isLive t = true
      · have hsize : (x.popActivation a).calls.size = x.calls.size - 1 := Array.size_pop
        refine (ih h₁.1.poised (h₁.2 hlive) (hproper.popActivation hback) (by omega)).mono ?_ ?_
        · rintro e w' ⟨he, hdead, htrimmed'⟩
          exact ⟨he, hdead, hdone.trans htrimmed'⟩
        · rintro _ w' ⟨htrimmed', x', hx', hproper', hunwound⟩
          exact ⟨hdone.trans htrimmed', x', hx', hproper', hunwound.of_popActivation (by omega)⟩
      · rw [Bool.not_eq_true] at hlive
        refine (unwindWithin_gone hlive (by omega)).mono ?_ fun _ _ => False.elim
        rintro e w' ⟨he, rfl⟩
        exact ⟨he, hlive, hdone⟩

/-- The innermost calls of a thread are left. -/
theorem unwindCalls (host : Host σ) (hp : Poised s fuel X w) (hx : w.heap.thread t = .ok x)
    (hproper : x.Proper) :
    Settles ((Engine.top host fuel).unwindCalls t n) w
      (fun e w' => e = .invalidHandle ∧ w'.heap.isLive t = false ∧ Trimmed s fuel X t w w')
      (fun _ w' => Trimmed s fuel X t w w' ∧
        ∃ x', w'.heap.thread t = .ok x' ∧ x'.Proper ∧ x.Unwound n x') := by
  have hsize : (w.heap.thread t).map (·.calls.size) = .ok x.calls.size := by
    rw [hx]
    rfl
  unfold Engine.unwindCalls
  simp only [settles_bind, settles_check, hsize]
  refine ⟨fun _ he => (by cases he), fun k hk => ?_⟩
  cases hk
  exact hp.unwindWithin host hx hproper (by omega)

/-- The stacks of a thread are emptied. -/
theorem unwindAll (host : Host σ) (hp : Poised s fuel X w) (hx : w.heap.thread t = .ok x)
    (hproper : x.Proper) (hs : x.state = .running) :
    Settles ((Engine.top host fuel).unwindAll t) w
      (fun e w' => e = .invalidHandle ∧ w'.heap.isLive t = false ∧ Trimmed s fuel X t w w')
      (fun _ w' => Trimmed s fuel X t w w' ∧ (w'.heap.isLive t = true →
        ∃ x', w'.heap.thread t = .ok x' ∧ x.Trims x' ∧ x'.Cleared)) := by
  have hdropped : x.Trims { x with catchers := x.catchers.take 0 } := ⟨rfl, rfl, rfl, rfl⟩
  have hnothing : (({ x with catchers := x.catchers.take 0 } : Thread).refs : Multiset Handle) + 0 =
      x.refs + 0 := rfl
  obtain ⟨hcaught, hx₁⟩ := hp.trim (f := fun x => { x with catchers := x.catchers.take 0 })
    hx hdropped hnothing
  rw [add_zero] at hcaught
  have hcalls := hcaught.poised.unwindCalls (n := 0) host hx₁ hproper.takeCatchers
  unfold Engine.unwindAll unwindCatchers
  simp only [settles_bind, settles_check, settles_surely, returns_modifyHeap, after_modifyHeap, true_and,
    Heap.checkState_ok hx hs, hx, reduceCtorEq, false_implies, implies_true]
  refine fun _ _ => fun _ _ => hcalls.mono ?_ ?_
  · rintro e w' ⟨he, hdead, htrimmed⟩
    exact ⟨he, hdead, hcaught.trans htrimmed⟩
  · rintro _ w₂ ⟨hcalled, x₂, hx₂, -, hunwound⟩
    have hvalues : w₂.heap.stackValues t = .ok (x₂.values.above 0) := by
      unfold Heap.stackValues
      rw [hx₂]
      rfl
    have hlost : x₂.Trims { x₂ with values := (x₂.values.setBottom 0).truncate 0 } :=
      ⟨rfl, rfl, rfl, rfl⟩
    obtain ⟨hcleared, hx₃⟩ := hcalled.poised.trim
      (f := fun x => { x with values := (x.values.setBottom 0).truncate 0 }) hx₂ hlost Thread.refs_clear
    have hgive := hcleared.poised.giveBack host hx₃
    rw [succeeds_surely] at hgive
    rw [hvalues]
    refine ⟨fun _ he => (by cases he), fun v hv => ?_⟩
    cases hv
    refine ⟨hgive.1, hgive.2.mono fun _ w₄ h₄ => ?_⟩
    refine ⟨((hcaught.trans hcalled).trans hcleared).trans h₄.1, fun hlive => ⟨_, h₄.2 hlive, ?_, ?_⟩⟩
    · exact (hdropped.trans hunwound.toTrims).trans hlost
    · have hnone : ({ x with catchers := x.catchers.take 0 } : Thread).catchers.toList = [] := by simp
      refine ⟨x₂.values.values_cleared, Array.toList_eq_nil_iff.mp hunwound.calls, ?_⟩
      rw [← Array.toList_eq_nil_iff, hunwound.catchers, hnone, List.takeWhile_nil]

end Poised

/-! ## What is left -/

/-- A list is cut where it is filtered if and only if nothing that is wanted stands behind something that
is not. -/
theorem takeWhile_eq_filter_iff {α : Type} {p : α → Bool} {l : List α} :
    l.takeWhile p = l.filter p ↔ l.Pairwise fun a b => p b = true → p a = true := by
  induction l with
  | nil => simp
  | cons a l ih =>
    rw [List.pairwise_cons]
    by_cases ha : p a = true
    · rw [List.takeWhile_cons_of_pos ha, List.filter_cons_of_pos ha, List.cons.injEq, ih]
      simp [ha]
    · rw [List.takeWhile_cons_of_neg ha, List.filter_cons_of_neg ha, eq_comm, List.filter_eq_nil_iff]
      constructor
      · intro hnone
        refine ⟨fun b hb hp => absurd hp (hnone b hb), ?_⟩
        exact List.pairwise_of_forall_mem_list fun b _ c hc hp => absurd hp (hnone c hc)
      · exact fun h b hb hp => ha (h.1 b hb hp)

/-- Where no finalizer is found, leaving calls comes to an end. If the thread is there still, its outermost
calls are left, with the catchers up to the first one whose call is gone. These are all the catchers of the
calls that are left if and only if none of them was pushed after one whose call is gone. -/
theorem calls_unwound {w : World σ} (hw : Reachable host w) (hu : w.heap.Unfinalized)
    (hx : w.heap.thread t = .ok x) (hfuel : 2 * w.heap.arena.compositeCount < fuel) :
    ∃ answer w', ((Engine.top host fuel).perform (.unwindCalls t n)).run w = some (answer, w') ∧
      (w'.heap.isLive t = false → answer = .error .invalidHandle) ∧
      (w'.heap.isLive t = true → answer = .ok () ∧ ∃ x', w'.heap.thread t = .ok x' ∧ x.Unwound n x' ∧
        (x'.catchers.toList = x.catchers.toList.filter (·.activation < x'.calls.size) ↔
          x.catchers.toList.Pairwise fun c d =>
            d.activation < x'.calls.size → c.activation < x'.calls.size)) := by
  obtain ⟨hs, hlevel⟩ := hw.sound
  have hpoised : Poised False fuel 0 w := ⟨⟨hs, hlevel, nofun⟩, hu, hfuel⟩
  obtain ⟨answer, w', hrun, hend⟩ := hpoised.unwindCalls (n := n) host hx (hw.proper t x hx)
  refine ⟨answer, w', hrun, ?_⟩
  cases answer with
  | error e =>
    obtain ⟨rfl, hdead, -⟩ := hend
    refine ⟨fun _ => rfl, fun hlive => ?_⟩
    rw [hdead] at hlive
    cases hlive
  | ok a =>
    obtain ⟨-, x', hx', -, hunwound⟩ := hend
    refine ⟨fun hdead => ?_, fun _ => ⟨rfl, x', hx', hunwound, ?_⟩⟩
    · rw [Heap.live_of_thread hx'] at hdead
      cases hdead
    · rw [hunwound.catchers, takeWhile_eq_filter_iff]
      simp only [decide_eq_true_eq]

/-- A thread in two calls, with catchers for two of them. -/
def guarded (first second : ℕ) : List Command :=
  [⟨_, .registerNative⟩, ⟨_, .allocNativeFunction ⟨0⟩ none⟩, ⟨_, .allocThread none⟩,
    ⟨_, .pushActivation ⟨1, 0⟩ { func := ⟨0, 0⟩ }⟩, ⟨_, .pushActivation ⟨1, 0⟩ { func := ⟨0, 0⟩ }⟩,
    ⟨_, .pushCatcher ⟨1, 0⟩ (.ofKind .handler first 0 0)⟩,
    ⟨_, .pushCatcher ⟨1, 0⟩ (.ofKind .handler second 0 0)⟩]

/-- The catcher of the inner call was pushed last. The inner call is left with it. -/
theorem calls_unwound_guarded : ∃ (w : World Unit) (x : Thread), Reachable .idle w ∧ w.heap.Unfinalized ∧
    w.heap.thread ⟨1, 0⟩ = .ok x ∧ 2 * w.heap.arena.compositeCount < 9 ∧ x.catchers.size = 2 ∧
    ∃ answer w', ((Engine.top .idle 9).perform (.unwindCalls ⟨1, 0⟩ 1)).run w = some (answer, w') ∧
      (w'.heap.isLive ⟨1, 0⟩ = true → ∃ x', w'.heap.thread ⟨1, 0⟩ = .ok x' ∧ x.Unwound 1 x') := by
  have hend : (rehearse (fun _ => (Engine.top (.idle : Host Unit) 9).perform) (guarded 0 1)
      ⟨.empty {}, ()⟩ 0).any (fun y => y.1.heap.finalizerKey = none ∧
        2 * y.1.heap.arena.compositeCount < 9 ∧
        (y.1.heap.thread ⟨1, 0⟩).map (·.catchers.size) = .ok 2) = true := by
    decide +kernel
  obtain ⟨⟨w, X⟩, e, hp⟩ := (Option.any_eq_true _ _).mp hend
  obtain ⟨hkey, hfuel, hcatchers⟩ := of_decide_eq_true hp
  have hw : Reachable .idle w := ((Run.start {} ()).rehearse_careful e).reachable
  cases hx : w.heap.thread ⟨1, 0⟩ with
  | error e =>
    rw [hx] at hcatchers
    cases hcatchers
  | ok x =>
    rw [hx] at hcatchers
    have hu : w.heap.Unfinalized := Heap.unfinalized_of_key hkey
    obtain ⟨answer, w', hrun, -, hleft⟩ := calls_unwound (n := 1) hw hu hx hfuel
    refine ⟨w, x, hw, hu, hx, hfuel, Except.ok.inj hcatchers, answer, w', hrun, fun hlive => ?_⟩
    obtain ⟨-, x', hx', hunwound, -⟩ := hleft hlive
    exact ⟨x', hx', hunwound⟩

/-- The catcher of the outer call was pushed last. It is gone with the inner call, although the outer one
has not been left. -/
theorem catcher_lost_with_inner_call : ∃ (w w' : World Unit) (x x' : Thread), Reachable .idle w ∧
    w.heap.finalizerKey = none ∧ w.heap.thread ⟨1, 0⟩ = .ok x ∧
    ((Engine.top .idle 9).perform (.unwindCalls ⟨1, 0⟩ 1)).run w = some (.ok (), w') ∧
    w'.heap.thread ⟨1, 0⟩ = .ok x' ∧ x'.calls.size = 1 ∧
    (∃ c ∈ x.catchers, c.activation < x'.calls.size) ∧ x'.catchers = #[] := by
  have hend : (rehearse (fun _ => (Engine.top (.idle : Host Unit) 9).perform) (guarded 1 0)
      ⟨.empty {}, ()⟩ 0).any (fun y => y.1.heap.finalizerKey = none ∧
        (∃ x ∈ (y.1.heap.thread ⟨1, 0⟩).toOption, ∃ c ∈ x.catchers, c.activation < 1) ∧
        ∃ z ∈ ((Engine.top .idle 9).perform (.unwindCalls ⟨1, 0⟩ 1)).run y.1, z.1.isOk = true ∧
          ∃ x' ∈ (z.2.heap.thread ⟨1, 0⟩).toOption, x'.calls.size = 1 ∧ x'.catchers = #[]) = true := by
    decide +kernel
  obtain ⟨⟨w, X⟩, e, hp⟩ := (Option.any_eq_true _ _).mp hend
  obtain ⟨hkey, ⟨x, hx, hbefore⟩, ⟨answer, w'⟩, hrun, hok, x', hx', hcalls, hcatchers⟩ :=
    of_decide_eq_true hp
  cases answer with
  | error _ => cases hok
  | ok _ =>
    exact ⟨w, w', x, x', ((Run.start {} ()).rehearse_careful e).reachable, hkey, ok_of_mem_toOption hx, hrun,
      ok_of_mem_toOption hx', hcalls, hcalls ▸ hbefore, hcatchers⟩

end CountedHeap
