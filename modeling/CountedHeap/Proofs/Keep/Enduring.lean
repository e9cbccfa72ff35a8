import CountedHeap.Proofs.Runs

/-!
# Conditions that outlast passes and drains

A condition that releases keep, and with them all small steps of operations, need not hold when cells
are freed that a pass has found to be garbage, or that have left the queue for good. If it does, it holds
wherever operations are performed, provided that native functions keep it. These keep it if it is a
condition on the heap alone.

* `Heap.Enduring`: such a condition.
* `Enduring.of_texts`: one on the texts of strings and what is kept about them.
* `Keeps.and`: a level to which a condition is added.
* `inPass_enduring`, `inDrain_enduring`, `top_enduring`: the three engines.
* `Reachable.enduring`: what holds of an empty heap holds in every world.
-/

namespace CountedHeap

open Heap (Draining OutsidePass Kept WithinPass yielding_draining yielding_withinPass)

/-- A condition that releases keep, as well as the beginning of a pass and the end of a queued cell. -/
structure Heap.Enduring (R : Heap → Prop) : Prop extends Heap.Lasting R where
  beginPass : ∀ h o, h.Sound → R h → R (h.beginPass o).1
  leaveQueue : ∀ h i keep, h.Sound → i ∈ h.arena.members .queue → R h → R (h.leaveQueue i keep).1

namespace Heap

section

variable {R : Heap → Prop} {h h' : Heap} {r : Handle} {n i : ℕ} {b : Body} {o : PassOptions}
  {l : List ℕ}

theorem tables_toSweep : (h.toSweep o).tables = h.tables := by
  have hfold : ∀ (l : List ℕ) (h : Heap), (l.foldl clearFinalized h).tables = h.tables := by
    intro l
    induction l with
    | nil => exact fun _ => rfl
    | cons i l ih => exact fun h => ih (h.clearFinalized i)
  exact hfold _ _

/-- Composite cells have no text. -/
theorem texts_vacate {g : UInt32} (hr : h.arena.Holds r n b) (hb : b.isComposite = true)
    (hc : h'.arena.core = Function.update h.arena.core r.index (some (g, none))) :
    h'.arena.texts = h.arena.texts := by
  rw [Arena.texts_free hr hc, Function.update_eq_self_iff, hr.texts, Body.text?_eq_none hb]

/-- Garbage is freed, none of which is a string. -/
theorem texts_freeAll (hs : h.Sound) (hnd : l.Nodup)
    (hl : ∀ i ∈ l, i ∈ h.arena.members .allocated) :
    (l.foldl freeSwept h).arena.texts = h.arena.texts ∧ (l.foldl freeSwept h).tables = h.tables := by
  induction l generalizing h with
  | nil => exact ⟨rfl, rfl⟩
  | cons j l ih =>
    obtain ⟨hj, hnd⟩ := List.nodup_cons.mp hnd
    have hmem := hl j (by simp)
    obtain ⟨n, b, hr, hcomp⟩ := hs.arena.cell_of_mem hmem
    obtain ⟨hs', hmem'⟩ := hs.freeSwept hmem
    obtain ⟨htexts, htables⟩ := ih hs' hnd fun i hi => by
      rw [hmem', List.mem_erase_of_ne (by rintro rfl; exact hj hi)]
      exact hl i (by simp [hi])
    exact ⟨htexts.trans (texts_vacate hr hcomp (core_freeSwept hr)), htables⟩

/-- A condition that releases keep holds in the end, if it only depends on the texts of strings and on
the tables, and if known offsets may be dropped: passes and drains free no strings but by releases. -/
theorem Enduring.of_texts (hyield : Yielding R)
    (hcongr : ∀ h h', h'.arena.texts = h.arena.texts → h'.tables = h.tables → R h → R h')
    (hcompact : ∀ h, R h → R h.compact) : Enduring R where
  yielding := hyield
  of_core h h' hc := hcongr h h' (Arena.texts_of_core hc)
  beginPass h o hs hr := by
    have hk : Kept False (fun _ => True) h 0 := ⟨hs, trivial, False.elim⟩
    have hmarked : (h.toSweep o).Sound := hk.toSweep.sound
    have hstart : R (h.toSweep o) :=
      hcongr h _ (Arena.texts_of_core remarked_toSweep.arena.core) tables_toSweep hr
    obtain ⟨hreleased, hloose⟩ := hmarked.releaseGarbage (G := h.garbage o)
    obtain ⟨htexts, htables⟩ := texts_freeAll hreleased (nodup_garbage hs) fun i hi =>
      mem_allocated_releaseGarbage hmarked sweeping_toSweep (allocated_of_garbage hs hi)
    have hswept : R ((h.toSweep o).sweep (h.garbage o)) :=
      hcongr _ _ htexts htables (hyield _ _ hloose hstart)
    rw [beginPass_eq]
    dsimp only
    split
    · exact hcompact _ hswept
    · exact hswept
  leaveQueue h i keep hs hmem hr := by
    obtain ⟨n, b, hn, hcomp⟩ := hs.arena.cell_of_mem hmem
    cases keep with
    | true =>
      exact hcongr h _ (Arena.texts_of_core
        (((Arena.core_linkHead _).trans (Arena.core_modifyMarks _)).trans Arena.core_unlink)) rfl hr
    | false =>
      set r := h.arena.handleAt i
      rw [show i = r.index from rfl, leaveQueue_false hn]
      exact hyield _ _ (hs.evict hn hcomp).1.releaseQuietly.2
        (hcongr h _ (texts_vacate hn hcomp (core_evict hn)) rfl hr)

end

end Heap

variable {σ : Type} {R P : σ → Heap → Prop} {E : Engine σ} {host : Host σ} {call : Caller σ}
  {w : World σ} {X : Multiset Handle} {queue pending : List ℕ} {fuel i : ℕ}

/-- A level to which a condition is added. -/
abbrev Terms.adding (P R : σ → Heap → Prop) (hP : ∀ s, Heap.Steady (P s))
    (hR : ∀ s, Heap.Enduring (R s)) : Terms σ :=
  (Terms.lax σ).among (fun s h => P s h ∧ R s h)
    fun s h h' hc hl => ⟨hP s h h' hc hl.1, (hR s).yielding.steady h h' hc hl.2⟩

theorem Engine.Keeps.and {hP : ∀ s, Heap.Steady (P s)} (K : E.Keeps ((Terms.lax σ).among P hP))
    (hR : ∀ s, Heap.Enduring (R s))
    (hrelease : ∀ w r, w.heap.Sound → P w.host w.heap → R w.host w.heap →
      After (E.release r) w fun _ w' => R w'.host w'.heap)
    (hcollect : ∀ w o, w.heap.Sound → P w.host w.heap → R w.host w.heap →
      After (E.collect o) w fun _ w' => R w'.host w'.heap) : E.Keeps (Terms.adding P R hP hR) where
  release w X r hk := by
    obtain ⟨hs, hl, hr⟩ := lax_holds_iff.mp hk
    have hkept := K.release w X r (lax_holds_iff.mpr ⟨hs, hl⟩)
    refine (hkept.and (hrelease w r hs hl hr)).mono fun _ w' h => ⟨?_, h.1.2⟩
    obtain ⟨hs', hl'⟩ := lax_holds_iff.mp h.1.1
    exact lax_holds_iff.mpr ⟨hs', hl', h.2⟩
  collect w X o hk := by
    obtain ⟨hs, hl, hr⟩ := lax_holds_iff.mp hk
    have hkept := K.collect w X o (lax_holds_iff.mpr ⟨hs, hl⟩)
    refine (hkept.and (hcollect w o hs hl hr)).mono fun _ w' h => ⟨?_, h.1.2⟩
    obtain ⟨hs', hl'⟩ := lax_holds_iff.mp h.1.1
    exact lax_holds_iff.mpr ⟨hs', hl', h.2⟩

/-- Within a pass, with a condition. -/
abbrev Terms.inPass (R : σ → Heap → Prop) (hR : ∀ s, Heap.Enduring (R s)) (queue pending : List ℕ) :
    Terms σ :=
  .adding (fun _ => WithinPass queue pending) R (fun _ => (yielding_withinPass queue pending).steady) hR

/-- While the queue is worked off, with a condition. -/
abbrev Terms.inDrain (R : σ → Heap → Prop) (hR : ∀ s, Heap.Enduring (R s)) (queue : List ℕ) :
    Terms σ :=
  .adding (fun _ => Draining queue) R (fun _ => (yielding_draining queue).steady) hR

/-- Outside of both, with a condition. -/
abbrev Terms.outside (R : σ → Heap → Prop) (hR : ∀ s, Heap.Enduring (R s)) : Terms σ :=
  .adding (fun _ => OutsidePass []) R (fun _ => Heap.steady_outsidePass []) hR

theorem inPass_enduring (hR : ∀ s, Heap.Enduring (R s)) :
    (Engine.inPass : Engine σ).Keeps (Terms.inPass R hR queue pending) :=
  inPass_keeps fun s => (yielding_withinPass queue pending).and (hR s).yielding

section

variable {hR : ∀ s, Heap.Enduring (R s)}

theorem passBody_enduring (hcall : ∀ q K, Caller.Keeps call (Terms.inPass R hR q K))
    (hs : w.heap.Sound) (hr : R w.host w.heap) {o : PassOptions} :
    After (passBody call o) w fun _ w' =>
      w'.heap.Sound ∧ w'.heap.sweeping = false ∧ R w'.host w'.heap := by
  have hk : ((Terms.lax σ).during (fun _ => True) fun _ _ _ _ => trivial).Holds w 0 :=
    lax_holds_iff.mpr ⟨hs, trivial⟩
  exact (passBody_keeps (R := R) (fun s => (hR s).toLasting) ((hR _).beginPass _ o hs hr)
    (fun _ K => hcall _ K) hk).mono
    fun _ _ ⟨_, _, hre, hr'⟩ => ⟨hre.kept.sound, hre.kept.level.1, hr'⟩

theorem inDrain_enduring
    (hcall : ∀ q K, Caller.Keeps (Engine.inPass.caller host) (Terms.inPass R hR q K)) :
    (Engine.inDrain host).Keeps (Terms.inDrain R hR queue) := by
  refine Engine.Keeps.and (inDrain_keeps (Host.keeps_lax fun _ => not_false) queue) hR ?_ ?_
  · intro w r hs _ hr
    have hr' := (hR _).yielding _ _ (hs.release (r := r)).2 hr
    unfold Engine.release
    rw [after_bind, after_change]
    split <;> exact after_pure.mpr hr'
  · exact fun w o hs _ hr => pass_after (passBody_enduring hcall hs hr) (fun _ h => h.2.2)
      fun _ _ h => after_pure.mpr h.2.2

/-- A turn of a drain. -/
theorem settleHead_enduring (hcall : ∀ q, Caller.Keeps call (Terms.inDrain R hR q))
    (hs : w.heap.Sound) (hsweep : w.heap.sweeping = false) (hr : R w.host w.heap)
    (hi : w.heap.arena.queue.head = some i) : After (settleHead call i) w fun _ w' =>
      w'.heap.Sound ∧ w'.heap.sweeping = false ∧ R w'.host w'.heap := by
  refine after_settleHead.mpr fun keep w₁ hd => ?_
  have hdraining := ((hs.mem_of_head hi).resolve_right (by simp [hsweep])).2
  have hk : (Terms.inDrain R hR [i]).Holds w 0 := lax_holds_iff.mpr ⟨hs, hdraining, hr⟩
  obtain ⟨hk₁, -⟩ := hd.keeps_at (fun s => (yielding_draining [i]).and (hR s).yielding)
    (fun _ => hcall [i]) (fun _ h hl => hl.1.2.subset (by simp)) hk
  obtain ⟨hs₁, ⟨hsweep₁, hqueue₁⟩, hr₁⟩ := lax_holds_iff.mp hk₁
  have hmem : i ∈ w₁.heap.arena.members .queue := hqueue₁.subset (by simp)
  have hleft : Kept False (Draining []) (w₁.heap.leaveQueue i keep).1 0 :=
    (⟨hs₁, trivial, False.elim⟩ : Kept False (fun _ => True) w₁.heap 0).leaveQueue hsweep₁ hmem
      False.elim
  exact ⟨hleft.sound, hleft.level.1, (hR _).leaveQueue _ i keep hs₁ hmem hr₁⟩

/-- What native functions keep wherever they are called. -/
structure Host.Endures (host : Host σ) (R : σ → Heap → Prop) (hR : ∀ s, Heap.Enduring (R s)) :
    Prop where
  inPass : ∀ q K, Caller.Keeps (Engine.inPass.caller host) (Terms.inPass R hR q K)
  inDrain : ∀ q, Caller.Keeps ((Engine.inDrain host).caller host) (Terms.inDrain R hR q)

theorem drain_enduring (hH : host.Endures R hR) (hs : w.heap.Sound)
    (hsweep : w.heap.sweeping = false) (hr : R w.host w.heap) :
    After (Engine.top host fuel).drain w fun _ w' => R w'.host w'.heap := by
  have haside : ∀ (s : σ) (h : Heap) (b : Bool), R s h → R s { h with draining := b } :=
    fun s h _ hr => (hR s).of_core h _ rfl rfl hr
  change After (drainQueue _ _ fuel) w _
  unfold drainQueue
  rw [after_bind, after_modifyHeap, after_bind]
  refine (drainLoop_invariant (w := ⟨{ w.heap with draining := true }, w.host⟩)
    (I := fun w => w.heap.Sound ∧ w.heap.sweeping = false ∧ R w.host w.heap) ?_ ?_ ?_
    ⟨⟨hs.arena, hs.freeRoots, hs.rootsFree⟩, hsweep, haside _ _ _ hr⟩).mono ?_
  · exact fun w i ⟨hs, hsweep, hr⟩ hi => settleHead_enduring hH.inDrain hs hsweep hr hi
  · exact fun w n ⟨hs, hsweep, hr⟩ _ =>
      ⟨⟨hs.arena, hs.freeRoots, hs.rootsFree⟩, hsweep, (hR _).of_core w.heap _ rfl rfl hr⟩
  · rintro w ⟨hs, hsweep, hr⟩ -
    have hdrain : (Engine.inDrain host).Keeps (Terms.inDrain R hR []) := inDrain_enduring hH.inPass
    refine (hdrain.collect w 0 _
      (lax_holds_iff.mpr ⟨hs, Heap.draining_nil hsweep, hr⟩)).mono fun _ w' h => ?_
    obtain ⟨hs', hlevel, hr'⟩ := lax_holds_iff.mp h.1
    exact ⟨hs', hlevel.1, hr'⟩
  · exact fun _ w' h => after_modifyHeap.mpr (haside _ _ _ h.1.2.2)

theorem top_enduring (hH : host.Endures R hR) :
    (Engine.top host fuel).Keeps (Terms.outside R hR) := by
  refine Engine.Keeps.and (top_keeps_lax fun _ => not_false) hR ?_ ?_
  · intro w r hs hl hr
    have hr' := (hR _).yielding _ _ (hs.release (r := r)).2 hr
    unfold Engine.release
    rw [after_bind, after_change]
    split
    · exact drain_enduring (w := ⟨(w.heap.release r).1, w.host⟩) hH hs.release.1
        (queue_release hs hl).1 hr'
    · exact after_pure.mpr hr'
  · intro w o hs hl hr
    exact pass_after (passBody_enduring hH.inPass hs hr) (fun _ h => h.2.2)
      fun _ _ ⟨hs', hsweep', hr'⟩ => drain_enduring hH hs' hsweep' hr'

end

/-! ## Conditions on the heap alone -/

variable {R : Heap → Prop} (hR : Heap.Enduring R)

include hR

theorem Heap.Enduring.steady_and {P : Heap → Prop} (hP : Heap.Steady P) :
    Heap.Steady fun h => P h ∧ R h :=
  fun h h' hc hl => ⟨hP h h' hc hl.1, hR.yielding.steady h h' hc hl.2⟩

theorem Heap.Enduring.rekeys {P : Heap → Prop} (hP : Heap.Steady P)
    (hrekey : ∀ h r, P h → P { h with finalizerKey := some r }) :
    ((Terms.lax σ).during (fun h => P h ∧ R h) (hR.steady_and hP)).Rekeys :=
  fun _ h r hl => ⟨hrekey h r hl.1, hR.of_core h _ rfl rfl hl.2⟩

/-- Native functions keep a condition on the heap alone. -/
theorem Host.endures : host.Endures (fun _ => R) fun _ => hR := by
  have hpass : ∀ q K,
      Caller.Keeps (Engine.inPass.caller host) (Terms.inPass (fun _ => R) (fun _ => hR) q K) :=
    fun q K => Host.keeps_lax (fun _ => not_false) _ (.inl rfl) _ _ (inPass_enduring fun _ => hR)
      (hR.rekeys (yielding_withinPass q K).steady fun _ _ => id)
  exact ⟨hpass, fun q => Host.keeps_lax (fun _ => not_false) _ (.inr rfl) _ _ (inDrain_enduring hpass)
    (hR.rekeys (yielding_draining q).steady fun _ _ => id)⟩

/-- What holds of an empty heap holds in every world. -/
theorem Reachable.enduring (hstart : ∀ config, R (.empty config)) (hw : Reachable host w) :
    R w.heap := by
  have hall : w.heap.Sound ∧ OutsidePass [] w.heap ∧ R w.heap := by
    induction hw with
    | start config s =>
      exact ⟨(kept_empty (s := False)).sound, (kept_empty (s := False)).level.1, hstart config⟩
    | perform _ e ih =>
      exact Engine.Keeps.perform_lax (top_enduring (Host.endures hR))
        (hR.rekeys (Heap.steady_outsidePass []) fun _ _ => id) _ ih _ _ e
    | host s _ ih => exact ih
  exact hall.2.2

end CountedHeap
