import CountedHeap.Proofs.Arena.Accounts
import CountedHeap.Proofs.Collection
import CountedHeap.Proofs.Heap.Wanes
import CountedHeap.Proofs.Naming

/-!
# What is needed

A client needs the cells that it reaches, and what the key of finalizers is. Where no finalizer is found and
counts are exact, a tracing pass leaves these cells and no others, so that the bytes in use afterwards are
those of the cells that were needed before.

* `Heap.Needed`, `Heap.neededBytes`: the cells that are needed, and the bytes accounted for them.
* `needed_of_traces`, `Needed.of_live`: what a pass leaves is needed.
* `usedBytes_eq_neededBytes`: the bytes in use when only what is needed is left.
* `Heap.Thins`: cells may have been freed, but none that is needed.
* `Reachable.trims`: a pass at the top leaves what is needed.
-/

namespace CountedHeap

namespace Heap

open Arena (Composite Traces)

variable {h h' : Heap} {X : Multiset Handle} {r q : Handle} {n : ℕ} {b : Body}

/-- A cell is reached over owned references from what the client holds, from a root or from the key of
finalizers. -/
def Needed (h : Heap) (X : Multiset Handle) : Handle → Prop :=
  h.Reaches fun q => h.Grounded X q ∨ h.finalizerKey = some q

open Classical in
/-- The bytes accounted for the cells that are needed. -/
noncomputable def neededBytes (h : Heap) (X : Multiset Handle) : ℕ :=
  ∑ i ∈ Finset.range h.arena.slots.size with
    h.isLive (h.arena.handleAt i) = true ∧ h.Needed X (h.arena.handleAt i), h.arena.bytesAt i

theorem mem_stored_of_needed (hq : h.Grounded X q ∨ h.finalizerKey = some q) : q ∈ h.stored ∅ + X := by
  rcases hq with hq | hq
  · exact hq.mem_stored
  · simp [stored, hq]

theorem Reached.needed (hr : h.Reached X r) : h.Needed X r :=
  Reaches.mono hr (fun _ => .inl) fun _ n _ hp => ⟨n, hp⟩

theorem Needed.live (hb : h.Balanced ∅ X) (hr : h.Needed X r) : h.isLive r = true :=
  Reaches.live hb (fun _ => mem_stored_of_needed) hr

theorem Shrinks.needed (hs : Shrinks h h') (hb : h'.Balanced ∅ X) (hr : h.Needed X r) :
    h'.Needed X r :=
  hs.reaches hb (fun _ hq => hq.imp hs.grounded (hs.key.trans ·)) (fun _ => mem_stored_of_needed) hr

/-! ## What a pass leaves -/

/-- What a pass traces is needed, if its anchors are, and if no caught variable has the name of a composite
cell. -/
theorem needed_of_traces (hcaught : ∀ p n b, h.arena.Holds p n b → ∀ q ∈ b.caughtNames,
      ¬ h.arena.Composite q)
    (hanchored : ∀ q, h.arena.Composite q → h.Anchored X q → h.Needed X q)
    (ht : h.arena.Traces (fun q => h.Anchored X q ∨ h.finalizerKey = some q) r) : h.Needed X r := by
  induction ht with
  | @start q hq hc =>
    rcases hq with hanchor | hkey
    · exact hanchored q hc hanchor
    · exact .start (.inr hkey)
  | @step p q n b _ hp hq hc ih =>
    rw [b.tracedRefs_eq] at hq
    rcases List.mem_append.mp hq with howned | hname
    · exact .step ih hp howned
    · exact absurd hc (hcaught p n b hp q hname)

/-- A leaf that is left is counted by the client, a root, the key or a composite cell. -/
theorem Needed.of_live (hs : Shrinks h h') (hs' : h'.Sound) (hb' : h'.Balanced ∅ X)
    (hcomposite : ∀ r, h.arena.Composite r → h'.isLive r = true → h.Needed X r)
    (hlive : h'.isLive r = true) : h.Needed X r := by
  obtain ⟨n, b, hr⟩ := Arena.isLive_iff.mp hlive
  obtain ⟨m, hold⟩ := hs.cells r n b hr
  by_cases hb : b.isComposite = true
  · exact hcomposite r ⟨m, b, hold, hb⟩ hlive
  · have hpos : 0 < n := hs'.arena.leaves r n b hr (by simpa using hb)
    have hcounted : r ∈ h'.stored ∅ + X := by
      rw [← Multiset.count_pos, ← hb' r, hr.counted]
      exact hpos
    unfold stored at hcounted
    simp only [Multiset.mem_add, Multiset.mem_coe] at hcounted
    rcases hcounted with ((howned | hroot) | hkey) | hheld
    · obtain ⟨i, -, hi⟩ := Arena.mem_owned.mp howned
      obtain ⟨k, c, hc, hrefs⟩ := Arena.exists_holds_of_mem_refsAt hi
      obtain ⟨k', hc'⟩ := hs.cells _ k c hc
      have hcomp : c.isComposite = true := by
        cases c <;> first | rfl | cases hrefs
      exact .step (hcomposite _ ⟨k', c, hc', hcomp⟩ hc.isLive) hc' hrefs
    · exact .start (.inl (.inr (hs.rootRefs ▸ hroot)))
    · exact .start (.inr (hs.key ▸ by simpa using hkey))
    · exact .start (.inl (.inl hheld))

/-! ## Bytes -/

theorem neededBytes_le (ha : h.arena.books.Accounted) : h.neededBytes X ≤ h.arena.usedBytes := by
  have hnone : ∀ i, h.arena.slots.size ≤ i → h.arena.books.slot i = none := fun i hi => by
    simp [Arena.books, Array.getElem?_eq_none hi]
  have hused : h.arena.usedBytes = ∑ i ∈ Finset.range h.arena.slots.size, h.arena.books.bytesAt i :=
    ha.sums.eq hnone
  simp only [Arena.books_bytesAt] at hused
  rw [hused]
  classical
  exact Finset.sum_le_sum_of_subset (Finset.filter_subset _ _)

/-- Where what is needed is left, and nothing else, the bytes in use are those of what is needed. -/
theorem usedBytes_eq_neededBytes (hw : h.arena.books.Wanes h'.arena.books)
    (ha' : h'.arena.books.Accounted) (hlive : ∀ r, h'.isLive r = true ↔ h.Needed X r) :
    h'.arena.usedBytes = h.neededBytes X := by
  have hnone : ∀ i, h.arena.slots.size ≤ i → h'.arena.books.slot i = none := by
    intro i hi
    have hold : h.arena.books.slot i = none := by simp [Arena.books, Array.getElem?_eq_none hi]
    rcases hw.slot i with hsame | ⟨t, b, ht, -⟩
    · exact hsame.trans hold
    · rw [hold] at ht
      cases ht
  have hused : h'.arena.usedBytes =
      ∑ i ∈ Finset.range h.arena.slots.size, h'.arena.books.bytesAt i := ha'.sums.eq hnone
  rw [hused, neededBytes, Finset.sum_filter]
  refine Finset.sum_congr rfl fun i _ => ?_
  by_cases hleft : h'.isLive (h.arena.handleAt i) = true
  · obtain ⟨b, hb⟩ := Arena.isLive_iff_names.mp hleft
    obtain ⟨t', ht', -, hbody⟩ := id hb
    have hsame : h'.arena.books.slot i = h.arena.books.slot i := by
      refine (hw.slot i).resolve_right ?_
      rintro ⟨t, _, -, -, hempty⟩
      obtain rfl := Option.some.inj (ht'.symm.trans hempty)
      cases hbody
    have hthere : h.isLive (h.arena.handleAt i) = true :=
      Arena.isLive_iff_names.mpr ⟨b, hw.names hb⟩
    rw [if_pos ⟨hthere, (hlive _).mp hleft⟩, ← Arena.books_bytesAt]
    unfold Books.bytesAt
    rw [hsame]
  · rw [if_neg fun hneeded => hleft ((hlive _).mpr hneeded.2)]
    cases hslot : h'.arena.books.slot i with
    | none => simp [Books.bytesAt, hslot]
    | some t =>
      rw [Books.bytesAt_of_slot hslot]
      refine ha'.vacant i t hslot ?_
      by_contra hbody
      obtain ⟨b, hb⟩ := Option.ne_none_iff_exists'.mp hbody
      have hsame : h'.arena.books.slot i = h.arena.books.slot i := by
        refine (hw.slot i).resolve_right ?_
        rintro ⟨_, _, -, -, hempty⟩
        obtain rfl := Option.some.inj (hslot.symm.trans hempty)
        cases hb
      refine hleft (Arena.isLive_iff_names.mpr ⟨b, t, hslot, ?_, hb⟩)
      rw [Arena.books_handleAt (hsame.symm.trans hslot)]

end Heap

/-! ## A pass at the top -/

variable {σ : Type} {host : Host σ} {w w' : World σ} {X : Multiset Handle} {fuel : ℕ} {o : PassOptions}

/-- Cells may have been freed, and what is left is counted. -/
structure Heap.Thins (h : Heap) (X : Multiset Handle) (h' : Heap) : Prop where
  shrinks : Heap.Shrinks h h'
  wanes : h.arena.books.Wanes h'.arena.books
  balanced : h'.Balanced ∅ X

/-- A slot whose cell is needed is as it was. -/
theorem Heap.Thins.slot {h h' : Heap} {r : Handle} (ht : h.Thins X h') (hr : h.Needed X r) :
    h'.arena.books.slot r.index = h.arena.books.slot r.index := by
  obtain ⟨m, c, hlive⟩ := Arena.isLive_iff.mp ((ht.shrinks.needed ht.balanced hr).live ht.balanced)
  obtain ⟨t, hslot, -, hbody⟩ := hlive.names
  refine (ht.wanes.slot r.index).resolve_right ?_
  rintro ⟨_, _, -, -, hempty⟩
  obtain rfl := Option.some.inj (hslot.symm.trans hempty)
  cases hbody

/-- Where no finalizer is found and counts are exact, and a thread that runs or waits is reached, a pass
leaves what is needed, and nothing else. -/
theorem Reachable.trims (hw : Reachable host w) (hx : w.heap.Exact X) (hu : w.heap.Unfinalized)
    (hunwrapped : w.heap.arena.books.Unwrapped)
    (hactive : ∀ t n b, w.heap.arena.Holds t n b → b.isActiveThread = true → w.heap.Reached X t)
    (hfuel : 2 * w.heap.arena.compositeCount < fuel) :
    ∃ w', (Engine.top host fuel).collect o w = some (true, w') ∧ w.heap.Thins X w'.heap ∧
      ∀ r, w'.heap.isLive r = true ↔ w.heap.Needed X r := by
  obtain ⟨w', e, hs', hx', hshrinks⟩ := hw.collect_quiet (o := o) hx (.inl hu) hfuel
  have hall : Heap.Shrinks w.heap w'.heap := Heap.Shrinks.beginPass.trans hshrinks
  have hb' : w'.heap.Balanced ∅ X := Heap.exact_iff.mp hx'
  have hwanes : Heap.Wanes w.heap w'.heap := pass_wanes hu (fun _ => drain_wanes) true w' e
  have hcollected : w.heap.Collected o X w'.heap :=
    .of_shrinks hw.sound.1 hw.sound.2 hx (.inl hu) hs' hx' hshrinks
  have hanchored : ∀ q, w.heap.arena.Composite q → w.heap.Anchored X q → w.heap.Needed X q := by
    intro q hq hanchor
    rcases hanchor with hgrounded | ⟨n, b, hcell, hruns⟩ | hcurrent
    · exact .start (.inl hgrounded)
    · exact (hactive q n b hcell hruns).needed
    · obtain ⟨o, hpost⟩ := hw.current_runs hunwrapped hcurrent hq.isLive
      obtain ⟨n, b, hcell, hruns⟩ := Heap.post_eq_some.mp hpost
      exact (hactive q n b hcell (Body.isActiveThread_of_post hruns rfl)).needed
  have hcomposite : ∀ r, w.heap.arena.Composite r → w'.heap.isLive r = true → w.heap.Needed X r := by
    intro r hr hlive
    by_contra hnot
    have hdead := hcollected.traced r hr fun ht => hnot (Heap.needed_of_traces
      (fun p n b hp q hq => hw.caught_not_composite hunwrapped hp hq) hanchored ht)
    rw [hdead] at hlive
    cases hlive
  exact ⟨w', e, ⟨hall, hwanes.withers.books, hb'⟩, fun r =>
    ⟨Heap.Needed.of_live hall hs' hb' hcomposite, fun hr => (hall.needed hb' hr).live hb'⟩⟩

end CountedHeap
