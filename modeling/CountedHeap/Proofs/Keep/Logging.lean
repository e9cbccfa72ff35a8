import CountedHeap.Proofs.Erasure
import CountedHeap.Proofs.Keep.Enduring

/-!
# Conditions on what has been logged

A condition on the heap and on what has been logged of it outlasts the programs that log their
operations, if what is logged of one operation is as it should be.

* `Logs`: what is logged of an operation is as it should be.
* `Engine.Keeps.run_logging`: what a program keeps that logs its operations.
* `Host.Endures.of_callers`: native functions keep a condition if they do so wherever operations do.
-/

namespace CountedHeap

variable {σ α ε : Type} {E : Engine (σ × List ε)} {P R : σ × List ε → Heap → Prop}
  {look : ∀ {β : Type}, Operation β → Heap → Except HeapError β → Heap → List ε}

theorem Terms.rekeys_adding {τ : Type} {P R : τ → Heap → Prop} (hP : ∀ s, Heap.Steady (P s))
    (hR : ∀ s, Heap.Enduring (R s))
    (hrekey : ∀ s h r, P s h → P s { h with finalizerKey := some r }) :
    (Terms.adding P R hP hR).Rekeys :=
  fun s h r hl => ⟨hrekey s h r hl.1, (hR s).of_core h _ rfl rfl hl.2⟩

/-- What is logged of an operation is as it should be, wherever a condition holds. -/
def Logs (E : Engine (σ × List ε)) (P : σ × List ε → Heap → Prop)
    (look : ∀ {β : Type}, Operation β → Heap → Except HeapError β → Heap → List ε) : Prop :=
  ∀ ⦃β : Type⦄ (op : Operation β) (w w' : World (σ × List ε)) (answer : Except HeapError β),
    w.heap.Sound → P w.host w.heap → (E.perform op).run w = some (answer, w') →
    w'.heap.Sound → P w'.host w'.heap →
    P (w'.host.1, w'.host.2 ++ look op w.heap answer w'.heap) w'.heap

theorem Engine.Keeps.run_logging {hP : ∀ s, Heap.Steady (P s)}
    (K : E.Keeps ((Terms.lax _).among P hP)) (hkey : ((Terms.lax _).among P hP).Rekeys)
    (hstate : ∀ s s' l h, P (s, l) h → P (s', l) h) (hlog : Logs E P look) (p : Program σ α)
    {w : World (σ × List ε)} (hw : w.heap.Sound ∧ P w.host w.heap) :
    After ((p.logging look).run E.perform) w fun _ w' => w'.heap.Sound ∧ P w'.host w'.heap := by
  induction p generalizing w with
  | done a => exact after_pure.mpr hw
  | perform op next ih =>
    intro a w'' e
    simp only [Program.logging, Program.run] at e
    cases hrun : (E.perform op).run w with
    | none => simp [hrun] at e
    | some p =>
      obtain ⟨answer, w'⟩ := p
      rw [hrun] at e
      obtain ⟨hs', hP'⟩ := K.perform_lax hkey op hw answer w' hrun
      have hlogged := hlog op w w' answer hw.1 hw.2 hrun hs' hP'
      exact ih answer (w := ⟨w'.heap, w'.host.1, w'.host.2 ++ _⟩) ⟨hs', hlogged⟩ a w'' e
  | readHeap next ih => exact ih w.heap hw
  | readHost next ih => exact ih w.host.1 hw
  | modifyHost f next ih =>
    exact ih () (w := ⟨w.heap, f w.host.1, w.host.2⟩) ⟨hw.1, hstate _ _ _ _ hw.2⟩

/-- Native functions keep a condition in a pass and in a drain if they do so wherever operations do. -/
theorem Host.Endures.of_callers {host : Host σ} {R : σ → Heap → Prop}
    {hR : ∀ s, Heap.Enduring (R s)}
    (hcall : ∀ (E : Engine σ) (P : Heap → Prop) (hP : Heap.Steady P),
      (Terms.adding (fun _ => P) R (fun _ => hP) hR).Rekeys →
      E.Keeps (.adding (fun _ => P) R (fun _ => hP) hR) →
      Caller.Keeps (E.caller host) (.adding (fun _ => P) R (fun _ => hP) hR)) :
    host.Endures R hR := by
  have hpass : ∀ q K, Caller.Keeps (Engine.inPass.caller host) (Terms.inPass R hR q K) :=
    fun q K => hcall _ _ (Heap.yielding_withinPass q K).steady
      (Terms.rekeys_adding _ hR fun _ _ _ => id) (inPass_enduring hR)
  exact ⟨hpass, fun q => hcall _ _ (Heap.yielding_draining q).steady
    (Terms.rekeys_adding _ hR fun _ _ _ => id) (inDrain_enduring hpass)⟩

end CountedHeap
