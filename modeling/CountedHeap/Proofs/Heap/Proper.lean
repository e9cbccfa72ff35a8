import CountedHeap.Proofs.Heap.Posts
import CountedHeap.Proofs.Invariance

/-!
# Heaps whose threads are in order

Whatever operations do to threads, and whatever passes and drains free, all threads stay in order: the
calls that prevent yielding are counted, and only a thread that runs or waits has a resumer.

* `Heap.Proper`: every thread is in order.
* `Turn.proper`, `Withers.proper`: the steps.
* `Heap.Unlooped`: no thread is its own resumer.
* `Reachable.proper`, `Reachable.unlooped`: every heap that is reached is like this.
-/

namespace CountedHeap

namespace Heap

variable {h h' : Heap} {t : Handle} {x : Thread} {i : ℕ}

/-- Every thread is in order. -/
def Proper (h : Heap) : Prop :=
  ∀ t x, h.thread t = .ok x → x.Proper

theorem proper_iff : h.Proper ↔ ∀ r n b, h.arena.Holds r n b → b.Proper := by
  constructor
  · intro hp r n b hr
    obtain ⟨⟨header, body⟩, hc, -, rfl⟩ := hr.get?
    cases body with
    | thread x => exact hp r x (thread_eq_ok.mpr ⟨header, hc⟩)
    | object _ => trivial
    | string _ => trivial
    | buffer _ => trivial
  · intro hp t x hx
    obtain ⟨header, hc⟩ := thread_eq_ok.mp hx
    exact hp t _ _ (Arena.holds_of_get? hc)

theorem Proper.of_cells (hp : h.Proper)
    (hcells : ∀ r n b, h'.arena.Holds r n b → ∃ m, h.arena.Holds r m b) : h'.Proper := by
  rw [proper_iff] at hp ⊢
  intro r n b hr
  obtain ⟨m, hm⟩ := hcells r n b hr
  exact hp r m b hm

theorem Proper.of_core (hp : h.Proper) (hc : h'.arena.core = h.arena.core) : h'.Proper := by
  refine hp.of_cells fun r n b hr => ⟨n, ?_⟩
  unfold Arena.Holds at hr ⊢
  rwa [← hc]

theorem Proper.modifyBody (hp : h.Proper) {f : Body → Body} (hf : ∀ b : Body, b.Proper → (f b).Proper) :
    (h.modifyAt i (·.modifyBody f)).Proper := by
  rw [proper_iff] at hp ⊢
  intro r n b hr
  obtain ⟨c, hc, -, rfl⟩ := hr.get?
  rw [show (h.modifyAt i (·.modifyBody f)).arena = h.arena.modifyAt i (·.modifyBody f) from rfl,
    Arena.get?_modifyAt] at hc
  split at hc
  · obtain ⟨c', hc', rfl⟩ := Option.map_eq_some_iff.mp hc
    exact hf _ (hp r _ _ (Arena.holds_of_get? hc'))
  · exact hp r _ _ (Arena.holds_of_get? hc)

theorem Touch.proper (ht : Touch h h') (hp : h.Proper) : h'.Proper := by
  cases ht with
  | retain r =>
    unfold Heap.retain
    split
    · have hs : Shrinks h (h.modifyAt r.index (·.modifyHeader .acquire)) := .modifyHeader fun _ => rfl
      exact hp.of_cells hs.cells
    · exact hp
  | body i hakin => exact hp.modifyBody fun b => (hakin b).proper
  | aside harena _ _ _ _ _ _ => exact hp.of_core (by rw [harena])

/-- No stroke puts a thread out of order. -/
theorem Stroke.proper (hs : Stroke h h') (hf : h.arena.FreeOk) (hp : h.Proper) : h'.Proper := by
  cases hs with
  | touch ht => exact ht.proper hp
  | roots values free => exact hp.of_core rfl
  | link r proto => exact hp.modifyBody fun _ => .modifyObject
  | builtin t id r =>
    exact hp.modifyBody fun _ => .modifyThread fun _ hx => hx.rewire
  | resize r length =>
    have haccount : (h.modifyArena (·.account r.index (Body.cellBytes + length))).Proper :=
      hp.of_core (Arena.core_account _)
    exact haccount.modifyBody fun _ => .modifyBuffer
  | @place b hb hproper =>
    rw [proper_iff] at hp ⊢
    intro r n b' hr
    rcases Arena.holds_of_place hf hr with ⟨-, rfl⟩ | hold
    · exact hproper
    · exact hp r n b' hold

theorem Shift.proper (hs : Shift h h') (hf : h.arena.FreeOk) (hp : h.Proper) :
    h'.arena.FreeOk ∧ h'.Proper := by
  cases hs with
  | touch ht => exact ⟨(ht.stands hf).free, ht.proper hp⟩
  | thread t _ hproper _ => exact ⟨hf.modifyAt _, hp.modifyBody fun _ => .modifyThread hproper⟩
  | current c => exact ⟨hf, hp.of_core rfl⟩

theorem Turn.proper (ht : Turn h h') (hf : h.arena.FreeOk) (hp : h.Proper) :
    h'.arena.FreeOk ∧ h'.Proper := by
  cases ht with
  | stroke hs => exact ⟨(hs.stands hf).free, hs.proper hf hp⟩
  | shift hs => exact hs.proper hf hp
  | key k => exact ⟨hf, hp.of_core rfl⟩

/-! ## Resumers -/

/-- No thread is its own resumer. -/
def Unlooped (h : Heap) : Prop :=
  ∀ t s, h.post t ≠ some (s, some t)

theorem Unlooped.of_post (hl : h.Unlooped) (hpost : ∀ t, h'.post t = h.post t) : h'.Unlooped :=
  fun t s ht => hl t s ((hpost t).symm.trans ht)

theorem Stands.unlooped (hs : Stands h h') (hl : h.Unlooped) : h'.Unlooped := by
  intro t s ht
  rcases hs.new t _ ht with hold | hnew
  · exact hl t s hold
  · cases hnew

/-- A change of the threads in one slot. -/
theorem Unlooped.modifyThread {f : Thread → Thread} (hl : h.Unlooped)
    (hf : ∀ x r, r.index = t.index → (f x).resumer = some r → x.resumer = some r) :
    (h.modifyThread t f).Unlooped := by
  intro r s hr
  obtain ⟨x', hx', -, hself⟩ := thread_of_post hr
  obtain ⟨header, hc'⟩ := thread_eq_ok.mp hx'
  rw [show (h.modifyThread t f).arena =
    h.arena.modifyAt t.index (·.modifyBody (·.modifyThread f)) from rfl, Arena.get?_modifyAt] at hc'
  split at hc'
  · rename_i hi
    obtain ⟨⟨header₀, body⟩, hc, he⟩ := Option.map_eq_some_iff.mp hc'
    cases body with
    | thread x =>
      cases he
      have hx : h.thread r = .ok x := thread_eq_ok.mpr ⟨_, hc⟩
      have hloop := hf x r hi hself
      exact hl r x.state (hloop ▸ post_of_thread hx)
    | object _ => cases he
    | string _ => cases he
    | buffer _ => cases he
  · have hx : h.thread r = .ok x' := thread_eq_ok.mpr ⟨header, hc'⟩
    exact hl r x'.state (hself ▸ post_of_thread hx)

theorem Shift.unlooped (hs : Shift h h') (hf : h.arena.FreeOk) (hl : h.Unlooped) :
    h'.arena.FreeOk ∧ h'.Unlooped := by
  cases hs with
  | touch ht => exact ⟨(ht.stands hf).free, (ht.stands hf).unlooped hl⟩
  | thread t _ _ hresumer => exact ⟨hf.modifyAt _, hl.modifyThread hresumer⟩
  | current c => exact ⟨hf, hl.of_post fun _ => rfl⟩

theorem Turn.unlooped (ht : Turn h h') (hf : h.arena.FreeOk) (hl : h.Unlooped) :
    h'.arena.FreeOk ∧ h'.Unlooped := by
  cases ht with
  | stroke hs => exact ⟨(hs.stands hf).free, (hs.stands hf).unlooped hl⟩
  | shift hs => exact hs.unlooped hf hl
  | key k => exact ⟨hf, hl.of_post fun _ => rfl⟩

end Heap

/-- In every world that is reached, threads are in order. -/
theorem Reachable.proper {σ : Type} {host : Host σ} {w : World σ} (hw : Reachable host w) :
    w.heap.Proper := by
  have hkept : w.heap.arena.FreeOk ∧ w.heap.Proper := by
    refine hw.keeps (I := fun h => h.arena.FreeOk ∧ h.Proper) ?_ ?_ ?_ ?_
    · exact fun config => ⟨(kept_empty (s := False)).sound.arena.free, fun t x hx => by cases hx⟩
    · exact fun _ _ ht hp => ht.proper hp.1 hp.2
    · exact fun _ _ hwithers hp => ⟨hwithers.free hp.1, hp.2.of_cells hwithers.cells⟩
    · exact fun _ _ hp => ⟨hp.1, hp.2.of_core rfl⟩
  exact hkept.2

/-- In every world that is reached, no thread is its own resumer. -/
theorem Reachable.unlooped {σ : Type} {host : Host σ} {w : World σ} (hw : Reachable host w) :
    w.heap.Unlooped := by
  have hkept : w.heap.arena.FreeOk ∧ w.heap.Unlooped := by
    refine hw.keeps (I := fun h => h.arena.FreeOk ∧ h.Unlooped) ?_ ?_ ?_ ?_
    · exact fun config => ⟨(kept_empty (s := False)).sound.arena.free, fun t s ht => by cases ht⟩
    · exact fun _ _ ht hl => ht.unlooped hl.1 hl.2
    · exact fun _ _ hwithers hl => ⟨hwithers.free hl.1, fun t s ht => hl.2 t s (hwithers.post ht)⟩
    · exact fun _ _ hl => ⟨hl.1, hl.2.of_post fun _ => rfl⟩
  exact hkept.2

end CountedHeap
