import CountedHeap.Proofs.Accounts
import CountedHeap.Proofs.Heap.Needed
import CountedHeap.Proofs.Rollback

/-!
# When memory is short

To make a cell is refused for want of memory when what is needed leaves no room for it, and never
otherwise: where there is no room, an emergency pass leaves what is needed and nothing else, and room is
looked for once more. Neither the pass nor the new cell touches a cell that is needed.

* `Operation.makes?`: the body of the cell that an operation makes.
* `Heap.Gains`: a new cell has been placed.
* `Engine.Makes`, `Engine.perform_of_cleared`: what is made once a pass has made room.
* `Reachable.room`: there is room after the pass if what is needed leaves it.
* `out_of_memory_iff`: when memory is short, in every world that is reached.
-/

namespace CountedHeap

variable {σ : Type} {E : Engine σ} {w w₁ : World σ} {X : Multiset Handle} {r q : Handle} {n : ℕ}
  {b c : Body} {h h' : Heap}

/-! ## What is made -/

/-- The body of an object whose prototype is looked at first. -/
def Heap.created? (h : Heap) (o : Object) : Option Body :=
  (h.checkProto o.proto).toOption.map fun _ => .object o

/-- The body of the cell that an operation makes, if its arguments are valid. A string is made where
there is none of its content. -/
def Operation.makes? : {β : Type} → Operation β → Heap → Option Body
  | _, allocObject proto, h => h.created? { kind := .plain, proto := proto }
  | _, allocArray proto, h => h.created? { kind := .array, proto := proto }
  | _, allocEnvironment parent, h => h.created? { kind := .environment, proto := parent }
  | _, allocNativeFunction id proto, h =>
    if id.index < h.natives then
      h.created? { kind := .nativeFunction, proto := proto, callable := .native id }
    else none
  | _, allocBuffer length dynamic, _ => some (.buffer (.zeroed length dynamic))
  | _, allocBufferFrom bytes, _ => some (.buffer ⟨bytes, false⟩)
  | _, allocThread source, h => (h.builtinsOf source).toOption.map fun builtins =>
    .thread (.create h.config builtins.threadPrototype builtins)
  | _, intern content isStatic, h =>
    if h.interned? content = none then some (.string ⟨content, isStatic⟩) else none
  | _, _, _ => none

theorem Heap.created?_eq_some {o : Object} :
    h.created? o = some b ↔ h.checkProto o.proto = .ok () ∧ b = .object o := by
  unfold created?
  cases h.checkProto o.proto <;> simp [Except.toOption, eq_comm]

/-- A new cell refers to cells that the client reaches. -/
theorem Operation.Careful.refs {β : Type} {op : Operation β} (hc : op.Careful h X)
    (hop : op.makes? h = some b) (hq : q ∈ b.refs) : h.Reached X q := by
  have hobject : ∀ {kind : ObjectKind} {proto : Option Handle} {callable : Callable},
      callable.refs = [] → (∀ p ∈ proto.toList, h.Reached X p) →
      h.created? { kind := kind, proto := proto, callable := callable } = some b → h.Reached X q := by
    intro kind proto callable hcallable hproto hmade
    obtain ⟨-, rfl⟩ := Heap.created?_eq_some.mp hmade
    rw [show (Body.object _).refs = Object.refs _ from rfl, Object.refs_create, hcallable,
      List.append_nil] at hq
    exact hproto q hq
  cases op
  case allocObject => exact hobject rfl hc hop
  case allocArray => exact hobject rfl hc hop
  case allocEnvironment => exact hobject rfl hc hop
  case allocNativeFunction id proto =>
    obtain ⟨-, hmade⟩ := Option.ite_none_right_eq_some.mp hop
    exact hobject rfl hc hmade
  case allocThread source =>
    obtain ⟨builtins, hbuiltins, rfl⟩ := Option.map_eq_some_iff.mp hop
    have hshared : q ∈ (allocThread source).shared h := by
      change q ∈ ((h.builtinsOf source).map Builtins.refs).toOption.getD []
      rw [ok_of_mem_toOption hbuiltins]
      exact Thread.mem_refs_create hq
    exact Heap.Reached.shared (fun t ht => hc t (Option.mem_toList.mpr ht)) hshared
  case allocBuffer => cases hop; cases hq
  case allocBufferFrom => cases hop; cases hq
  case intern content isStatic =>
    obtain ⟨-, hmade⟩ := Option.ite_none_right_eq_some.mp hop
    cases hmade
    cases hq
  all_goals cases hop

/-! ## New cells -/

namespace Heap

/-- A cell has been placed in a slot that held none, and is counted once. -/
structure Gains (h : Heap) (b : Body) (r : Handle) (h' : Heap) : Prop where
  vacant : h.arena.Vacant r.index
  books : h'.arena.books = h.arena.books.enter r.index b
  holds : h'.arena.Holds r 1 b

theorem gains_place (hs : h.Sound) (hb : ∀ q ∈ b.refs, h.isLive q = true) :
    h.Gains b (h.place b).2 ((h.place b).1.retainAll b.refs) := by
  have hvacant : h.arena.Vacant (h.place b).2.index := Kept.vacant_place hs
  have hmade : (h.place b).1.arena.Holds (h.place b).2 1 b := Arena.holds_place hs.arena.free b
  refine ⟨hvacant, ?_, ?_⟩
  · rw [books_retainAll, show (h.place b).2.index = h.arena.nextSlot from Arena.place_snd_index]
    exact Arena.books_place hs.arena.free
  · -- The new cell refers to cells that were there, and so not to itself.
    have hself : b.refs.count (h.place b).2 = 0 := by
      refine List.count_eq_zero.mpr fun hq => ?_
      obtain ⟨m, c, hc⟩ := Arena.isLive_iff.mp (hb _ hq)
      exact hvacant.not_holds hc
    have hlive : ∀ q ∈ b.refs, (h.place b).1.isLive q = true := by
      intro q hq
      obtain ⟨m, c, hc⟩ := Arena.isLive_iff.mp (hb q hq)
      exact (hc.place hs.arena.free b).isLive
    obtain ⟨m, hm⟩ := holds_retainAll (h := (h.place b).1) hmade b.refs
    have hcount := Kept.counted_retainAll hlive (h.place b).2
    rw [hm.counted, hmade.counted, hself] at hcount
    rwa [hcount] at hm

namespace Gains

/-- Other slots are as they were. -/
theorem slot (hg : h.Gains b r h') (hq : h.isLive q = true) :
    h'.arena.books.slot q.index = h.arena.books.slot q.index := by
  obtain ⟨m, c, hc⟩ := Arena.isLive_iff.mp hq
  rw [hg.books]
  refine Function.update_of_ne (fun hi => ?_) ..
  exact (show h.arena.Vacant q.index from hi ▸ hg.vacant).not_holds hc

theorem bytesAt (hg : h.Gains b r h') : h'.arena.bytesAt r.index = b.size := by
  rw [← Arena.books_bytesAt, hg.books]
  exact Books.bytesAt_of_slot (t := ⟨_, b.size, some b⟩) (Function.update_self ..)

/-- A slot that has been emptied since has been given another generation. -/
theorem fresh {h₀ : Heap} (hg : h.Gains b r h') (hw : h₀.arena.books.Wanes h.arena.books) :
    h₀.isLive r = false := by
  by_contra hlive
  obtain ⟨b₀, t₀, hslot₀, hold, hbody₀⟩ :=
    Arena.isLive_iff_names.mp ((Bool.not_eq_false _).mp hlive)
  have hempty : h.arena.books.slot r.index = some ⟨t₀.freed + 1, 0, none⟩ := by
    rcases hw.slot r.index with hsame | ⟨t, _, ht, -, hempty⟩
    · have hvacant := Arena.vacant_iff_books.mp hg.vacant t₀ (hsame.trans hslot₀)
      rw [hbody₀] at hvacant
      cases hvacant
    · rwa [Option.some.inj (hslot₀.symm.trans ht)]
  obtain ⟨t, ht, hnew, -⟩ := hg.holds.names
  rw [hg.books, show (h.arena.books.enter r.index b).slot r.index = _ from Function.update_self ..,
    hempty] at ht
  cases ht
  have hsame : UInt32.ofNat (t₀.freed + 1) = UInt32.ofNat t₀.freed := hnew.trans hold.symm
  rw [← UInt32.toNat_inj, UInt32.toNat_ofNat', UInt32.toNat_ofNat'] at hsame
  omega

end Gains

end Heap

/-! ## Room -/

/-- Room is looked for in the world that an emergency pass leaves. -/
theorem Engine.reserve_of_cleared (hc : E.Cleared n w w₁) : Settles (E.reserve n) w
    (fun e w' => (e = .outOfMemory ∧ w₁.heap.arena.hasRoom n = false) ∧ w' = w₁)
    fun _ w' => w₁.heap.arena.hasRoom n = true ∧ w' = w₁ := by
  unfold Engine.Cleared at hc
  unfold Engine.reserve
  simp only [settles_bind, settles_surely, returns_query, after_query, true_and]
  split at hc
  · rename_i hroom
    subst hc
    simp [hroom]
  · rename_i hroom
    obtain ⟨ran, hran⟩ := hc
    rw [Bool.not_eq_true] at hroom
    simp only [hroom, Bool.not_false, if_true, settles_bind, settles_surely]
    refine ⟨⟨ran, w₁, hran⟩, fun ran' w' e => ?_⟩
    obtain ⟨-, rfl⟩ := Prod.mk.inj (Option.some.inj (hran.symm.trans e))
    simp only [returns_query, after_query, true_and]
    cases w₁.heap.arena.hasRoom n <;> simp

/-- A cell is placed where there is room for it. -/
theorem Engine.alloc_of_cleared (hc : E.Cleared b.size w w₁) : Settles (E.alloc b) w
    (fun e w' => (e = .outOfMemory ∧ w₁.heap.arena.hasRoom b.size = false) ∧ w' = w₁)
    fun r w' => w₁.heap.arena.hasRoom b.size = true ∧ w'.heap = (w₁.heap.place b).1 ∧
      r = (w₁.heap.place b).2 := by
  unfold Engine.alloc
  simp only [settles_bind, settles_surely]
  refine (Engine.reserve_of_cleared hc).mono (fun _ _ he => he) ?_
  rintro _ _ ⟨hroom, rfl⟩
  exact ⟨returns_change, after_change.mpr ⟨hroom, rfl, rfl⟩⟩

/-- A cell is made where there is room for it, and otherwise memory is short. -/
def Engine.Makes (x : Attempt σ Handle) (b : Body) (w w₁ : World σ) : Prop :=
  Settles x w
    (fun e w' => (e = .outOfMemory ∧ w₁.heap.arena.hasRoom b.size = false) ∧ w' = w₁)
    fun r w' => w₁.heap.arena.hasRoom b.size = true ∧ w₁.heap.Gains b r w'.heap

/-- What is placed counts what it refers to. -/
theorem Engine.makes_alloc (hc : E.Cleared b.size w w₁) (hs : w₁.heap.Sound)
    (hlive : ∀ q ∈ b.refs, w₁.heap.isLive q = true) :
    Engine.Makes (E.alloc b >>= fun r => surely (modifyHeap (·.retainAll b.refs)) >>= fun _ => pure r)
      b w w₁ := by
  unfold Engine.Makes
  rw [settles_bind]
  refine (Engine.alloc_of_cleared hc).mono (fun _ _ he => he) ?_
  rintro _ w₂ ⟨hroom, hplaced, rfl⟩
  simp only [settles_bind, settles_surely, returns_modifyHeap, after_modifyHeap, true_and, settles_pure]
  rw [hplaced]
  exact ⟨hroom, Heap.gains_place hs hlive⟩

theorem Engine.makes_allocObjectWith {o : Object} (hproto : w.heap.checkProto o.proto = .ok ())
    (hc : E.Cleared (Body.object o).size w w₁) (hs : w₁.heap.Sound)
    (hlive : ∀ q ∈ o.refs, w₁.heap.isLive q = true) :
    Engine.Makes (E.allocObjectWith o) (.object o) w w₁ := by
  refine settles_bind.mpr (settles_check.mpr ⟨fun e he => ?_, fun _ _ => Engine.makes_alloc hc hs hlive⟩)
  rw [hproto] at he
  cases he

/-- A buffer refers to nothing. -/
theorem Engine.makes_buffer {bytes : Buffer} (hc : E.Cleared (Body.buffer bytes).size w w₁)
    (hs : w₁.heap.Sound) : Engine.Makes (E.alloc (.buffer bytes)) (.buffer bytes) w w₁ := by
  refine (Engine.alloc_of_cleared hc).mono (fun _ _ he => he) ?_
  rintro _ w₂ ⟨hroom, hplaced, rfl⟩
  rw [hplaced]
  exact ⟨hroom, Heap.gains_place hs nofun⟩

theorem Engine.makes_allocThread {source : Option Handle} {builtins : Builtins} {t : Thread}
    (hbuiltins : w.heap.builtinsOf source = .ok builtins)
    (ht : t = .create w.heap.config builtins.threadPrototype builtins)
    (hc : E.Cleared (Body.thread t).size w w₁) (hs : w₁.heap.Sound)
    (hlive : ∀ q ∈ t.refs, w₁.heap.isLive q = true) :
    Engine.Makes (E.allocThread source) (.thread t) w w₁ := by
  subst ht
  refine settles_bind.mpr (settles_check.mpr ⟨fun e he => ?_, fun bs hbs => ?_⟩)
  · rw [hbuiltins] at he
    cases he
  · obtain rfl := Except.ok.inj (hbuiltins.symm.trans hbs)
    refine settles_bind.mpr (settles_surely.mpr ⟨returns_query, after_query.mpr ?_⟩)
    exact Engine.makes_alloc hc hs hlive

/-- A string is made where there is still none when room has been made for it. -/
theorem Engine.makes_intern {t : Text} (hnone : w.heap.interned? t.content = none)
    (hc : E.Cleared (Body.string t).size w w₁) (hs : w₁.heap.Sound) (hi : w₁.heap.Interned)
    (hstill : w₁.heap.interned? t.content = none) :
    Engine.Makes (E.intern t.content t.isStatic) (.string t) w w₁ := by
  have hplaced := Heap.interned?_place_eq_none hs hi hstill
  have hgains : w₁.heap.Gains (.string t) _ _ := Heap.gains_place hs nofun
  unfold Engine.intern Engine.Makes
  simp only [settles_bind, settles_surely, returns_query, after_query, true_and, hnone]
  refine (Engine.alloc_of_cleared hc).mono (fun _ _ he => he) ?_
  rintro _ w₂ ⟨hroom, hheap, rfl⟩
  rw [hheap]
  simp only [hplaced, settles_bind, settles_surely, returns_modifyHeap, after_modifyHeap, true_and,
    settles_pure]
  rw [hheap]
  exact ⟨hroom, hgains.vacant, hgains.books, hgains.holds⟩

/-- An operation makes its cell where there is room for it, and otherwise memory is short. -/
theorem Engine.perform_of_cleared {β : Type} {op : Operation β} (hop : op.makes? w.heap = some b)
    (hc : E.Cleared b.size w w₁) (hs : w₁.heap.Sound) (hi : w₁.heap.Interned)
    (hlive : ∀ q ∈ b.refs, w₁.heap.isLive q = true)
    (hnew : ∀ content, w.heap.interned? content = none → w₁.heap.interned? content = none) :
    Settles (E.perform op) w
      (fun e w' => (e = .outOfMemory ∧ w₁.heap.arena.hasRoom b.size = false) ∧ w' = w₁)
      fun a w' => w₁.heap.arena.hasRoom b.size = true ∧
        ∃ r, op.returned (.ok a) = some r ∧ w₁.heap.Gains b r w'.heap := by
  have hmakes : ∀ {x : Attempt σ Handle} {op : Operation Handle}, (∀ r, op.returned (.ok r) = some r) →
      Engine.Makes x b w w₁ → Settles x w
        (fun e w' => (e = .outOfMemory ∧ w₁.heap.arena.hasRoom b.size = false) ∧ w' = w₁)
        fun a w' => w₁.heap.arena.hasRoom b.size = true ∧
          ∃ r, op.returned (.ok a) = some r ∧ w₁.heap.Gains b r w'.heap :=
    fun hreturned hx => hx.mono (fun _ _ he => he) fun r _ hg => ⟨hg.1, r, hreturned r, hg.2⟩
  have hobject : ∀ {o : Object}, w.heap.created? o = some b →
      Engine.Makes (E.allocObjectWith o) b w w₁ := by
    intro o hmade
    obtain ⟨hproto, rfl⟩ := Heap.created?_eq_some.mp hmade
    exact Engine.makes_allocObjectWith hproto hc hs hlive
  have hbuffer : ∀ {bytes : Buffer}, b = .buffer bytes →
      Engine.Makes (E.alloc (.buffer bytes)) b w w₁ := by
    rintro bytes rfl
    exact Engine.makes_buffer hc hs
  cases op
  case allocObject => exact hmakes (fun _ => rfl) (hobject hop)
  case allocArray => exact hmakes (fun _ => rfl) (hobject hop)
  case allocEnvironment => exact hmakes (fun _ => rfl) (hobject hop)
  case allocNativeFunction id proto =>
    obtain ⟨hid, hmade⟩ := Option.ite_none_right_eq_some.mp hop
    refine hmakes (fun _ => rfl) (settles_bind.mpr (settles_check.mpr ?_))
    rw [if_pos hid]
    exact ⟨nofun, fun _ _ => hobject hmade⟩
  case allocBuffer length dynamic =>
    refine hmakes (x := E.allocBuffer length dynamic) (fun _ => rfl) ?_
    rw [Engine.allocBuffer_eq]
    exact hbuffer (Option.some.inj hop).symm
  case allocBufferFrom bytes => exact hmakes (fun _ => rfl) (hbuffer (Option.some.inj hop).symm)
  case allocThread source =>
    obtain ⟨builtins, hbuiltins, rfl⟩ := Option.map_eq_some_iff.mp hop
    exact hmakes (fun _ => rfl)
      (Engine.makes_allocThread (ok_of_mem_toOption hbuiltins) rfl hc hs hlive)
  case intern content isStatic =>
    obtain ⟨hnone, hmade⟩ := Option.ite_none_right_eq_some.mp hop
    cases hmade
    exact hmakes (fun _ => rfl)
      (Engine.makes_intern (t := ⟨content, isStatic⟩) hnone hc hs hi (hnew content hnone))
  all_goals cases hop

/-! ## Every world that is reached -/

variable {host : Host σ} {fuel : ℕ}

theorem Reachable.accounted (hw : Reachable host w) : w.heap.arena.books.Accounted := by
  obtain ⟨log, hlog⟩ := hw.chronicled
  exact (accounts_kept.noted hlog).good.2

/-- There is room for a cell, after a pass if need be, if what is needed leaves it. -/
theorem Reachable.room (hw : Reachable host w) (hx : w.heap.Exact X) (hu : w.heap.Unfinalized)
    (hunwrapped : w.heap.arena.books.Unwrapped)
    (hactive : ∀ t n b, w.heap.arena.Holds t n b → b.isActiveThread = true → w.heap.Reached X t)
    (hfuel : 2 * w.heap.arena.compositeCount < fuel) :
    ∃ w₁, (Engine.top host fuel).Cleared n w w₁ ∧ w.heap.Thins X w₁.heap ∧
      (w₁.heap.arena.hasRoom n = true ↔ w.heap.neededBytes X + n ≤ w.heap.arena.maxBytes) := by
  unfold Engine.Cleared
  have hbytes : ∀ {a : Arena}, a.hasRoom n = true ↔ a.usedBytes + n ≤ a.maxBytes := decide_eq_true_iff
  by_cases hroom : w.heap.arena.hasRoom n = true
  · simp only [hroom, if_true, true_iff, exists_eq_left]
    refine ⟨⟨.refl, .refl, Heap.exact_iff.mp hx⟩, ?_⟩
    exact (Nat.add_le_add_right (Heap.neededBytes_le hw.accounted) n).trans (hbytes.mp hroom)
  · simp only [hroom, if_false, Bool.false_eq_true]
    obtain ⟨w₁, e, hthins, hlive⟩ := hw.trims (o := { emergency := true }) hx hu hunwrapped hactive hfuel
    have hused := Heap.usedBytes_eq_neededBytes hthins.wanes (hw.accounted.wanes hthins.wanes) hlive
    have hlimit : w₁.heap.arena.maxBytes = w.heap.arena.maxBytes := hthins.wanes.later.limit
    refine ⟨w₁, ⟨true, e⟩, hthins, ?_⟩
    rw [hbytes, hused, hlimit]

end CountedHeap
