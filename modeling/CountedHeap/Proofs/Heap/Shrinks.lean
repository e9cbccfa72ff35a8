import CountedHeap.Heap.Lookup
import CountedHeap.Proofs.Heap.Edits
import CountedHeap.Proofs.Heap.Queued
import CountedHeap.Reclaim.Drain
import CountedHeap.Reclaim.Pass

/-!
# Heaps that shrink

Giving counts back, sweeping and working the queue off free cells and change counts and marks. They
make no cell, overwrite none and leave the roots alone.

* `Heap.Shrinks`: what is left was there before.
* `Shrinks.release`, `Shrinks.sweep`, `Shrinks.beginPass`, `Shrinks.leaveQueue`, …: the steps.
* `Heap.Reaches`, `Shrinks.reaches`: what is reached from outside is still there, if counts are exact.
* `Shrinks.unfinalized`: no finalizer turns up.
-/

namespace CountedHeap

namespace Arena

variable {a : Arena} {i : ℕ} {r : Handle} {n : ℕ} {b : Body}

/-- A slot that is emptied holds no cell, and other slots hold what they did. -/
theorem holds_release : (a.release i).Holds r n b ↔ a.Holds r n b ∧ r.index ≠ i := by
  by_cases hi : r.index = i
  · subst hi
    refine iff_of_false (fun hr => ?_) fun h => h.2 rfl
    have hempty : ∀ g x, (a.release r.index).core r.index ≠ some (g, some x) := by
      intro g x he
      unfold release core at he
      split at he
      · rename_i hs
        simp [(Array.getElem?_eq_some_iff.mp hs).1] at he
      · rename_i hnone
        obtain ⟨⟨g', l, m, c⟩, hs, hc⟩ := Option.map_eq_some_iff.mp he
        cases c with
        | none => cases hc
        | some c => exact hnone g' l m c hs
    exact hempty _ _ hr
  · refine (?_ : _ ↔ _).trans (and_iff_left hi).symm
    unfold Holds core release
    split
    · simp [Ne.symm hi]
    · exact Iff.rfl

end Arena

namespace Heap

variable {h h' h'' : Heap} {X : Multiset Handle} {r p q key : Handle} {n m i : ℕ} {b : Body}
  {o : Object}

/-- The cells of the second heap are cells of the first, with the bodies they had. If the current thread
is not among them, it has been forgotten. -/
structure Shrinks (h h' : Heap) : Prop where
  cells : ∀ r n b, h'.arena.Holds r n b → ∃ m, h.arena.Holds r m b
  roots : h'.roots = h.roots
  key : h'.finalizerKey = h.finalizerKey
  current : h'.current = h.current ∨
    h'.current = none ∧ ∀ c, h.current = some c → h'.isLive c = false

namespace Shrinks

theorem refl : Shrinks h h :=
  ⟨fun _ n _ hr => ⟨n, hr⟩, rfl, rfl, .inl rfl⟩

theorem live (hs : Shrinks h h') (hr : h'.isLive r = true) : h.isLive r = true := by
  obtain ⟨n, b, hb⟩ := Arena.isLive_iff.mp hr
  obtain ⟨m, hm⟩ := hs.cells r n b hb
  exact hm.isLive

theorem dead (hs : Shrinks h h') (hr : h.isLive r = false) : h'.isLive r = false := by
  by_contra hlive
  rw [hs.live (by simpa using hlive)] at hr
  cases hr

theorem trans (h₁ : Shrinks h h') (h₂ : Shrinks h' h'') : Shrinks h h'' := by
  refine ⟨fun r n b hr => ?_, h₂.roots.trans h₁.roots, h₂.key.trans h₁.key, ?_⟩
  · obtain ⟨m, hm⟩ := h₂.cells r n b hr
    exact h₁.cells r m b hm
  · rcases h₁.current with hsame | ⟨hnone, hdead⟩
    · rw [← hsame]
      exact h₂.current
    · refine .inr ⟨?_, fun c hc => h₂.dead (hdead c hc)⟩
      rcases h₂.current with hsame | ⟨hnone', -⟩
      · exact hsame.trans hnone
      · exact hnone'

/-- Changes of marks and lists. -/
theorem of_core (hc : h'.arena.core = h.arena.core) (hr : h'.roots = h.roots)
    (hk : h'.finalizerKey = h.finalizerKey) (hcur : h'.current = h.current) : Shrinks h h' := by
  refine ⟨fun r n b hb => ⟨n, ?_⟩, hr, hk, .inl hcur⟩
  unfold Arena.Holds at hb ⊢
  rwa [← hc]

/-- Changes of counts. -/
theorem modifyHeader {f : Cell → Cell} (hf : ∀ c, (f c).body = c.body) :
    Shrinks h (h.modifyAt i f) := by
  refine ⟨fun r n b hr => ?_, rfl, rfl, .inl rfl⟩
  obtain ⟨c, hc, -, rfl⟩ := hr.get?
  rw [show (h.modifyAt i f).arena = h.arena.modifyAt i f from rfl, Arena.get?_modifyAt] at hc
  split at hc
  · obtain ⟨c', hc', rfl⟩ := Option.map_eq_some_iff.mp hc
    rw [hf]
    exact ⟨_, Arena.holds_of_get? hc'⟩
  · exact ⟨_, Arena.holds_of_get? hc⟩

/-- A slot is emptied, which is not that of the current thread. -/
theorem vacate (hc : h'.arena.core = (h.arena.release i).core) (hr : h'.roots = h.roots)
    (hk : h'.finalizerKey = h.finalizerKey) (hcur : h'.current = h.current) : Shrinks h h' := by
  refine ⟨fun r n b hb => ⟨n, ?_⟩, hr, hk, .inl hcur⟩
  unfold Arena.Holds at hb
  rw [hc] at hb
  exact (Arena.holds_release.mp hb).1

/-- A slot is emptied, and the thread in it is forgotten. -/
theorem forget : Shrinks h ((h.forgetCurrent i).modifyArena (·.release i)) := by
  refine ⟨fun r n b hb => ⟨n, (Arena.holds_release.mp hb).1⟩, rfl, rfl, ?_⟩
  change (if h.current = some (h.arena.handleAt i) then none else h.current) = _ ∨ _
  by_cases hcur : h.current = some (h.arena.handleAt i)
  · refine .inr ⟨if_pos hcur, fun c hc => ?_⟩
    by_contra hlive
    obtain ⟨n, b, hb⟩ := Arena.isLive_iff.mp (by simpa using hlive :
      ((h.forgetCurrent i).modifyArena (·.release i)).isLive c = true)
    refine (Arena.holds_release.mp hb).2 ?_
    rw [hc] at hcur
    rw [Option.some.inj hcur]
    rfl
  · exact .inl (if_neg hcur)

theorem release : Shrinks h (h.release r).1 := by
  have huncount : Shrinks h (h.uncount r.index) := modifyHeader fun _ => rfl
  rcases h.release_cases r with ⟨-, he⟩ | ⟨n, b, -, ⟨-, he⟩ | ⟨-, -, _, _, _, he⟩ | ⟨-, -, -, -, he⟩⟩
  · rw [he]
    exact refl
  · rw [he]
    exact huncount
  · rw [he]
    exact huncount.trans (vacate rfl rfl rfl rfl)
  · rw [he]
    exact huncount.trans (of_core core_enqueue rfl rfl rfl)

theorem releaseQuietly {rs : List Handle} : Shrinks h (h.releaseQuietly rs) := by
  induction rs generalizing h with
  | nil => exact refl
  | cons r rs ih => exact release.trans ih

theorem foldl {f : Heap → ℕ → Heap} (hf : ∀ h i, Shrinks h (f h i)) (l : List ℕ) :
    Shrinks h (l.foldl f h) := by
  induction l generalizing h with
  | nil => exact refl
  | cons i l ih => exact (hf h i).trans ih

/-! ## What is left -/

theorem current_eq {c : Handle} (hs : Shrinks h h') (hc : h'.current = some c) : h.current = some c := by
  rcases hs.current with hsame | ⟨hnone, -⟩
  · exact hsame ▸ hc
  · rw [hnone] at hc
    cases hc

/-- The current thread is left, if its cell is. -/
theorem current_of_live {c : Handle} (hs : Shrinks h h') (hc : h.current = some c)
    (hlive : h'.isLive c = true) : h'.current = some c := by
  rcases hs.current with hsame | ⟨-, hdead⟩
  · exact hsame.trans hc
  · rw [hdead c hc] at hlive
    cases hlive

theorem object (hs : Shrinks h h') (ho : h'.object r = .ok o) : h.object r = .ok o := by
  obtain ⟨c, hc, hbody⟩ := object_eq_ok.mp ho
  obtain ⟨m, hm⟩ := hs.cells r _ _ (Arena.holds_of_get? hc)
  obtain ⟨c', hc', -, hb⟩ := hm.get?
  exact object_eq_ok.mpr ⟨c', hc', hb ▸ hbody⟩

end Shrinks

/-! ## Finalizers that are found -/

/-- Where the objects are, or are among, those of another heap, a look-up that succeeds does so there. -/
theorem findWithin_of_objects (hobj : ∀ r o, h'.object r = .ok o → h.object r = .ok o)
    {found : Option (Handle × Slot)} (hf : h'.findWithin key n r = .ok found) :
    h.findWithin key n r = .ok found := by
  induction n generalizing r with
  | zero => cases hf
  | succ n ih =>
    unfold findWithin at hf ⊢
    cases ho : h'.object r with
    | error e => simp [ho] at hf
    | ok o =>
      rw [ho] at hf
      rw [hobj r o ho]
      dsimp only at hf ⊢
      split at hf
      · exact hf
      · split at hf
        · exact ih hf
        · exact hf

theorem resolveFinalizer_of_objects (hobj : ∀ r o, h'.object r = .ok o → h.object r = .ok o)
    (hk : h'.finalizerKey = h.finalizerKey) {f : Finalizer} (hf : h'.resolveFinalizer r = some f) :
    h.resolveFinalizer r = some f := by
  unfold resolveFinalizer findInChain at hf ⊢
  rw [hk] at hf
  cases hkey : h.finalizerKey with
  | none => simp [hkey] at hf
  | some key =>
    rw [hkey] at hf
    dsimp only at hf ⊢
    cases hfound : h'.findWithin key maxPrototypeChain r with
    | error e => simp [hfound] at hf
    | ok found => rwa [findWithin_of_objects hobj hfound, ← hfound]

/-- No finalizer is found for any handle. -/
def Unfinalized (h : Heap) : Prop :=
  ∀ r, h.resolveFinalizer r = none

theorem unfinalized_of_key (hk : h.finalizerKey = none) : h.Unfinalized := by
  intro r
  unfold resolveFinalizer
  rw [hk]

theorem Unfinalized.of_objects (hu : h.Unfinalized)
    (hobj : ∀ r o, h'.object r = .ok o → h.object r = .ok o)
    (hk : h'.finalizerKey = h.finalizerKey) : h'.Unfinalized := by
  intro r
  by_contra hsome
  obtain ⟨f, hf⟩ := Option.ne_none_iff_exists'.mp hsome
  have hfound := resolveFinalizer_of_objects hobj hk hf
  rw [hu r] at hfound
  cases hfound

/-- Freeing cells makes no finalizer turn up. -/
theorem Shrinks.unfinalized (hs : Shrinks h h') (hu : h.Unfinalized) : h'.Unfinalized :=
  hu.of_objects (fun _ _ => hs.object) hs.key

/-- The cells that are reached over owned references, from some handles on. -/
inductive Reaches (h : Heap) (S : Handle → Prop) : Handle → Prop where
  | start {r : Handle} : S r → Reaches h S r
  | step {p q : Handle} {n : ℕ} {b : Body} : Reaches h S p → h.arena.Holds p n b → q ∈ b.refs →
      Reaches h S q

/-- What is reached stays reached where cells stay. -/
theorem Reaches.mono {S S' : Handle → Prop} (hr : h.Reaches S r) (hS : ∀ q, S q → S' q)
    (hcells : ∀ p n b, h.arena.Holds p n b → ∃ m, h'.arena.Holds p m b) : h'.Reaches S' r := by
  induction hr with
  | start hr => exact .start (hS _ hr)
  | step _ hp hq ih =>
    obtain ⟨m, hm⟩ := hcells _ _ _ hp
    exact .step ih hm hq

/-- What a client holds, and what is in a root. -/
def Grounded (h : Heap) (held : Multiset Handle) (r : Handle) : Prop :=
  r ∈ held ∨ r ∈ h.rootRefs

/-- The cells that a client reaches, from those that it holds and from the roots. -/
abbrev Reached (h : Heap) (held : Multiset Handle) : Handle → Prop :=
  h.Reaches (h.Grounded held)

theorem Grounded.mem_stored (hr : h.Grounded X r) : r ∈ h.stored ∅ + X := by
  unfold stored
  simp only [Multiset.mem_add, Multiset.mem_coe]
  exact hr.elim .inr fun hr => .inl (.inl (.inr hr))

/-- Where counts are exact, what is reached from counted cells is live. -/
theorem Reaches.live {S : Handle → Prop} (hb : h.Balanced ∅ X) (hS : ∀ q, S q → q ∈ h.stored ∅ + X)
    (hr : h.Reaches S r) : h.isLive r = true := by
  apply hb.live
  cases hr with
  | start hr => exact hS r hr
  | step _ hp hq => exact Multiset.mem_add.mpr (.inl (mem_stored_of_refs hp hq))

theorem Reached.live (hb : h.Balanced ∅ X) (hr : h.Reached X r) : h.isLive r = true :=
  Reaches.live hb (fun _ => Grounded.mem_stored) hr

theorem Shrinks.rootRefs (hs : Shrinks h h') : h'.rootRefs = h.rootRefs := by
  unfold Heap.rootRefs rootValues
  rw [hs.roots]

/-- A cell that is left keeps its contents. -/
theorem Shrinks.holds (hs : Shrinks h h') (hlive : h'.isLive r = true) (hr : h.arena.Holds r n b) :
    ∃ m, h'.arena.Holds r m b := by
  obtain ⟨m, b', hb'⟩ := Arena.isLive_iff.mp hlive
  obtain ⟨k, hk⟩ := hs.cells r m b' hb'
  obtain ⟨-, rfl⟩ := hk.unique hr
  exact ⟨m, hb'⟩

/-- What is reached from counted cells stays reached, if counts are exact afterwards. -/
theorem Shrinks.reaches {S S' : Handle → Prop} (hs : Shrinks h h') (hb : h'.Balanced ∅ X)
    (hS : ∀ q, S q → S' q) (hS' : ∀ q, S' q → q ∈ h'.stored ∅ + X) (hr : h.Reaches S r) :
    h'.Reaches S' r := by
  induction hr with
  | start hr => exact .start (hS _ hr)
  | step _ hp hq ih =>
    obtain ⟨m, hm⟩ := hs.holds (Reaches.live hb hS' ih) hp
    exact .step ih hm hq

theorem Shrinks.grounded (hs : Shrinks h h') (hr : h.Grounded X r) : h'.Grounded X r :=
  hr.imp_right fun hr => hs.rootRefs.symm ▸ hr

/-- What is reached stays reached, if counts are exact afterwards. -/
theorem Shrinks.reached (hs : Shrinks h h') (hb : h'.Balanced ∅ X) (hr : h.Reached X r) :
    h'.Reached X r :=
  hs.reaches hb (fun _ => hs.grounded) (fun _ => Grounded.mem_stored) hr

/-- What is reached keeps its contents. -/
theorem Shrinks.kept (hs : Shrinks h h') (hb : h'.Balanced ∅ X) (hr : h.Reached X r)
    (hcell : h.arena.Holds r n b) : ∃ m, h'.arena.Holds r m b :=
  hs.holds (Reached.live hb (hs.reached hb hr)) hcell

/-! ## The steps of passes and drains -/

/-- Whether the thread in a slot is forgotten before or after it leaves its list does not matter. -/
theorem freeSwept_eq : h.freeSwept i =
    ((h.modifyArena (·.unlink i)).forgetCurrent i).modifyArena (·.release i) := by
  have hat : (h.arena.unlink i).handleAt i = h.arena.handleAt i :=
    congrFun (Arena.handleAt_congr Arena.core_unlink) i
  unfold freeSwept forgetCurrent modifyArena
  rw [hat]

namespace Shrinks

theorem modifyCounters {g : Counters → Counters} : Shrinks h (h.modifyCounters g) :=
  of_core rfl rfl rfl rfl

theorem beginFinalizer : Shrinks h (h.beginFinalizer i) :=
  modifyHeader fun _ => rfl

theorem endFinalizer : Shrinks h (h.endFinalizer i) :=
  modifyHeader fun _ => rfl

theorem freeComposite : Shrinks h (h.freeComposite i) := by
  unfold Heap.freeComposite
  split
  · exact refl
  · rename_i c _
    exact (forget.trans modifyCounters).trans releaseQuietly

theorem leaveQueue {keep : Bool} : Shrinks h (h.leaveQueue i keep).1 := by
  unfold Heap.leaveQueue
  have hunlink : Shrinks h (h.modifyArena (·.unlink i)) := of_core Arena.core_unlink rfl rfl rfl
  cases keep with
  | true => exact hunlink.trans (of_core
      (by simp [Heap.modifyCounters, Heap.modifyArena, Heap.modifyAt]) rfl rfl rfl)
  | false => exact hunlink.trans freeComposite

theorem freeSwept : Shrinks h (h.freeSwept i) := by
  have hunlink : Shrinks h (h.modifyArena (·.unlink i)) := of_core Arena.core_unlink rfl rfl rfl
  rw [freeSwept_eq]
  exact hunlink.trans forget

theorem releaseChildren : Shrinks h (h.releaseChildren i) := by
  unfold Heap.releaseChildren
  split
  · exact releaseQuietly
  · exact refl

theorem sweep {l : List ℕ} : Shrinks h (h.sweep l) :=
  (foldl (fun _ _ => releaseChildren) l).trans (foldl (fun _ _ => freeSwept) l)

end Shrinks

end Heap

end CountedHeap
