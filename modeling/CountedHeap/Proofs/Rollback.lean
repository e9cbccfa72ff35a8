import CountedHeap.Proofs.Arena.Cells
import CountedHeap.Proofs.Arena.Books
import CountedHeap.Proofs.Canonical
import CountedHeap.Proofs.Invariance
import CountedHeap.Proofs.Refusals

/-!
# What refused operations leave behind

Three operations may be refused when they have already changed something. A function needs a buffer of its
own before its prototype is looked at; the buffer is given up again, and only counted as freed. A finalizer
needs a key, which is made before the object is looked at, and which stays. And leaving a call gives back
references that may be the last ones to the thread itself. Where the buffer or the key has no room, an
emergency pass has run.

* `Engine.Cleared`: the world in which there is room.
* `Heap.Agrees`, `Heap.GaveUp`, `Heap.Keyed`: what a buffer that was given up and a new key leave.
* `allocFunction_refused`, `setFinalizer_refused`, `popActivation_refused`: the three operations.
* `refused_undone`: all of them, in every world that is reached.
-/

namespace CountedHeap

variable {σ α β : Type} {E : Engine σ} {w w' : World σ} {n : ℕ}

/-- A world once there is room for a cell of a size: the same one if there is, and otherwise what an
emergency pass leaves. -/
def Engine.Cleared (E : Engine σ) (bytes : ℕ) (w w₁ : World σ) : Prop :=
  if w.heap.arena.hasRoom bytes = true then w₁ = w
  else ∃ ran, E.collect { emergency := true } w = some (ran, w₁)

/-- Where no room can be made, memory is short, and nothing else is wrong. -/
theorem Engine.reserve_cleared :
    Meets (E.reserve n) w (fun e _ => e = .outOfMemory) fun _ w₁ => E.Cleared n w w₁ := by
  unfold Engine.reserve Engine.Cleared
  simp only [meets_bind, meets_surely, after_query]
  cases hroom : w.heap.arena.hasRoom n with
  | true => simp
  | false =>
    simp only [Bool.not_false, if_true, meets_bind, meets_surely, Bool.false_eq_true, if_false]
    intro ran w₁ hran
    simp only [after_query]
    split
    · exact meets_refuse.mpr rfl
    · exact meets_pure.mpr ⟨ran, hran⟩

/-! ## Leaves that are given up -/

namespace Arena

variable {a : Arena} {b : Body}

/-- A new cell, with its only count given back, is freed again. -/
def giveUp (a : Arena) (b : Body) : Arena :=
  let (a, made) := a.place b
  (a.modifyAt made.index (·.modifyHeader .release)).release made.index

theorem get?_giveUp (h : a.FreeOk) : (a.giveUp b).get? = a.get? := by
  have hvacant : a.Vacant (a.place b).2.index := place_snd_index (a := a) (b := b) ▸ vacant_place h
  have hplaced : (a.place b).1.get? (a.place b).2 = some (.new b) := by
    rw [get?_place h]
    exact Function.update_self ..
  have hholds : ((a.place b).1.modifyAt (a.place b).2.index (·.modifyHeader .release)).Holds
      (a.place b).2 0 b := by
    refine holds_iff.mpr ⟨(Cell.new b).modifyHeader .release, ?_, rfl, rfl⟩
    rw [get?_modifyAt, if_pos rfl, hplaced]
    rfl
  funext q
  unfold giveUp
  dsimp only
  rw [get?_release hholds]
  by_cases hq : q = (a.place b).2
  · rw [hq, Function.update_self, hvacant.get?]
  · rw [Function.update_of_ne hq, get?_modifyAt, get?_place h, Function.update_of_ne hq]
    split
    · rename_i hi
      have hdead : a.get? q = none := Vacant.get? (hi ▸ hvacant)
      rw [hdead]
      rfl
    · rfl

theorem cellAt?_giveUp (h : a.FreeOk) : (a.giveUp b).cellAt? = a.cellAt? := by
  funext i
  unfold giveUp
  dsimp only
  rw [cellAt?_release, place_snd_index]
  by_cases hi : i = a.nextSlot
  · rw [hi, Function.update_self, (vacant_place h).cellAt?]
  · rw [Function.update_of_ne hi, cellAt?_modifyAt, if_neg hi, cellAt?_place h, Function.update_of_ne hi]

/-- The bytes that have been accounted are accounted no longer. -/
theorem bytes_giveUp (h : a.FreeOk) :
    (a.giveUp b).usedBytes = a.usedBytes ∧ (a.giveUp b).maxBytes = a.maxBytes := by
  have hentered : ((a.place b).1.modifyAt (a.place b).2.index (·.modifyHeader .release)).books =
      a.books.enter a.nextSlot b := by
    rw [← books_place h]
    exact books_modifyAt_of_eq fun _ => rfl
  have hleft : (a.giveUp b).books.used = a.usedBytes + b.size - b.size ∧
      (a.giveUp b).books.limit = a.maxBytes := by
    unfold giveUp
    dsimp only
    rw [books_release, hentered, place_snd_index, Books.vacate_of_body (Function.update_self ..) rfl]
    exact ⟨rfl, rfl⟩
  exact ⟨hleft.1.trans (Nat.add_sub_cancel ..), hleft.2⟩

theorem members_giveUp (h : a.Sound) (hb : b.Valid) (hleaf : b.isComposite = false) :
    (a.giveUp b).members = a.members := by
  obtain ⟨hplaced, hmembers⟩ := h.place hb
  rw [hleaf, if_neg Bool.false_ne_true] at hmembers
  have hcounted : ((a.place b).1.modifyAt (a.place b).2.index (·.modifyHeader .release)).Threaded
      (a.place b).1.members :=
    hplaced.threaded.congr rfl (linksAt_modifyAt _)
  have hfreed : (a.giveUp b).Threaded (a.place b).1.members :=
    hcounted.congr ends_release linksAt_release
  exact hfreed.members_eq.trans hmembers

end Arena

namespace Heap

variable {h h' : Heap} {r key : Handle} {t : Text} {c : Buffer}

/-- Heaps that show the same to whoever looks, but for some of the cells, for the strings, for what is
counted, and for the key of finalizers. -/
structure Agrees (S : Handle → Prop) (h h' : Heap) : Prop where
  cells : ∀ r, ¬ S r → h'.arena.get? r = h.arena.get? r
  lists : h'.arena.members = h.arena.members
  limit : h'.arena.maxBytes = h.arena.maxBytes
  aside : h' = { h with
    arena := h'.arena, strings := h'.strings, counters := h'.counters
    finalizerKey := h'.finalizerKey }

/-! ## Buffers that are given up -/

/-- A buffer has been made and freed again: it is counted as freed, and nothing else is left of it. -/
structure GaveUp (h h' : Heap) : Prop where
  agrees : Agrees (fun _ => False) h h'
  strings : h'.strings = h.strings
  key : h'.finalizerKey = h.finalizerKey
  stats : h'.stats = { h.stats with
    counters := { h.counters with buffersFreed := h.counters.buffersFreed + 1 } }

theorem release_placeBuffer (hs : h.Sound) :
    (h.place (.buffer c)).1.release (h.place (.buffer c)).2 = ({ h with
      arena := h.arena.giveUp (.buffer c)
      counters := { h.counters with buffersFreed := h.counters.buffersFreed + 1 } }, false) := by
  have hplaced : (h.arena.place (.buffer c)).1.get? (h.arena.place (.buffer c)).2 =
      some (.new (.buffer c)) := by
    rw [Arena.get?_place hs.arena.free]
    exact Function.update_self ..
  unfold release place
  dsimp only
  rw [hplaced]
  rfl

theorem Sound.gaveUp (hs : h.Sound) :
    h.GaveUp ((h.place (.buffer c)).1.release (h.place (.buffer c)).2).1 := by
  have hvalid : (Body.buffer c).Valid := by
    rintro p ⟨⟩
  obtain ⟨hused, hlimit⟩ := Arena.bytes_giveUp (b := .buffer c) hs.arena.free
  have hget : (h.arena.giveUp (.buffer c)).get? = h.arena.get? := Arena.get?_giveUp hs.arena.free
  have hmembers : (h.arena.giveUp (.buffer c)).members = h.arena.members :=
    Arena.members_giveUp hs.arena hvalid rfl
  rw [release_placeBuffer hs]
  exact {
    agrees := ⟨fun r _ => congrFun hget r, hmembers, hlimit, rfl⟩
    strings := rfl
    key := rfl
    stats := by
      have hcells := Arena.cellAt?_giveUp (b := .buffer c) hs.arena.free
      unfold stats
      dsimp only
      rw [Arena.countOf_congr fun i => congrArg (Option.map Cell.kind) (congrFun hcells i), hused, hlimit] }

/-! ## The key of finalizers -/

/-- The text of the key of finalizers. -/
def keyText : Text :=
  ⟨finalizerKeyText, true⟩

/-- A key of finalizers has been taken: a string of the right content, which is counted once more, or for
the first time. Nothing else has changed. -/
structure Keyed (h h' : Heap) (key : Handle) : Prop where
  agrees : Agrees (· = key) h h'
  recorded : h'.finalizerKey = some key
  count : h'.count? key = some ((h.count? key).getD 0 + 1)
  interned : h'.interned? finalizerKeyText = some key
  strings : ∀ content ≠ finalizerKeyText, h'.interned? content = h.interned? content
  stats : h'.stats = if h.isLive key = true then h.stats else { h.stats with
    liveStrings := h.stats.liveStrings + 1
    internedStrings := h.stats.internedStrings + 1
    usedBytes := h.stats.usedBytes + (Body.string keyText).size }

/-- A look-up finds the same string of a content where there is the same one. -/
theorem Interned.interned?_congr {content : String} (hi : h.Interned) (hi' : h'.Interned)
    (ht : ∀ r t, t.content = content → (h'.arena.texts r = some t ↔ h.arena.texts r = some t)) :
    h'.interned? content = h.interned? content := by
  refine Option.ext fun r => ?_
  rw [hi.interned?_eq_some, hi'.interned?_eq_some]
  exact exists_congr fun t => ⟨fun h => ⟨(ht r t h.2).mp h.1, h.2⟩, fun h => ⟨(ht r t h.2).mpr h.1, h.2⟩⟩

/-- A count that is taken changes no other cell. -/
theorem get?_acquire {n : ℕ} {b : Body} (hkey : h.arena.Holds key n b) (hr : r ≠ key) :
    (h.arena.modifyAt key.index (·.modifyHeader .acquire)).get? r = h.arena.get? r := by
  rw [Arena.get?_modifyAt]
  split
  · rename_i hindex
    have hdead : h.arena.get? r = none := by
      by_contra hc
      obtain ⟨c, hc⟩ := Option.ne_none_iff_exists'.mp hc
      exact hr ((Arena.holds_of_get? hc).eq_of_index hkey hindex)
    rw [hdead]
    rfl
  · rfl

/-- It changes no kind of a cell. -/
theorem countOf_acquire :
    (h.arena.modifyAt key.index (·.modifyHeader .acquire)).countOf = h.arena.countOf := by
  refine Arena.countOf_congr fun i => ?_
  rw [Arena.cellAt?_modifyAt]
  split
  · rw [Option.map_map]
    rfl
  · rfl

/-- The key was there already, as a string like any other. -/
theorem Interned.keyed_found (hs : h.Sound) (hi : h.Interned)
    (hfound : h.interned? finalizerKeyText = some key) :
    h.Keyed { h.retain key with finalizerKey := some key } key := by
  have hlive := live_of_interned hfound
  obtain ⟨n, b, hkey⟩ := Arena.isLive_iff.mp hlive
  set a := h.arena.modifyAt key.index (·.modifyHeader .acquire)
  have hretain : h.retain key = { h with arena := a } := if_pos hlive
  have htexts : a.texts = h.arena.texts := by
    have hcore := Kept.core_retain hkey
    rw [hretain] at hcore
    exact Arena.texts_update hkey hcore rfl
  rw [hretain]
  set h' : Heap := { h with arena := a, finalizerKey := some key }
  have hi' : h'.Interned := hi.congr rfl htexts
  have hsame : ∀ content, h'.interned? content = h.interned? content :=
    fun content => hi.interned?_congr hi' fun r t _ => by
      rw [show h'.arena.texts = h.arena.texts from htexts]
  have hthreaded : a.Threaded h.arena.members :=
    hs.arena.threaded.congr rfl (Arena.linksAt_modifyAt _)
  exact {
    agrees := ⟨fun r hr => get?_acquire hkey hr, hthreaded.members_eq, rfl, rfl⟩
    recorded := rfl
    count := by
      obtain ⟨c, hc, -⟩ := hkey.get?
      have hcell : a.get? key = some (c.modifyHeader .acquire) := by
        rw [Arena.get?_modifyAt, if_pos rfl, hc]
        rfl
      unfold count?
      rw [show h'.arena.get? key = _ from hcell, hc]
      rfl
    interned := (hsame _).trans hfound
    strings := fun content _ => hsame content
    stats := by
      rw [if_pos hlive]
      unfold stats
      rw [show h'.arena.countOf = h.arena.countOf from countOf_acquire]
      rfl }

/-- A string that is there for the first time is not found before it has been entered. -/
theorem interned?_place_eq_none (hs : h.Sound) (hi : h.Interned) (hnone : h.interned? t.content = none) :
    (h.place (.string t)).1.interned? t.content = none := by
  by_contra hfound
  obtain ⟨q, hq⟩ := Option.ne_none_iff_exists'.mp hfound
  have hk : Kept False (fun _ => True) h 0 := ⟨hs, trivial, False.elim⟩
  obtain ⟨-, -, t', ht', hc⟩ := hk.giveUp_texts hi hq
  rw [hi.interned?_eq_some.mpr ⟨t', ht', hc⟩] at hnone
  cases hnone

/-- A string that has been made and entered shows in the statistics. -/
theorem stats_enterString (hs : h.Sound) :
    { (h.place (.string t)).1.enterString t.content key with finalizerKey := some key }.stats =
      { h.stats with
        liveStrings := h.stats.liveStrings + 1
        internedStrings := h.stats.internedStrings + 1
        usedBytes := h.stats.usedBytes + (Body.string t).size } := by
  set h' : Heap := { (h.place (.string t)).1.enterString t.content key with finalizerKey := some key }
  have hcount : ∀ k, (h.arena.place (.string t)).1.countOf k =
      h.arena.countOf k + if CellKind.string = k then 1 else 0 :=
    fun k => Arena.countOf_place hs.arena.free
  have hbooks := Arena.books_place (b := .string t) hs.arena.free
  have hused : (h.arena.place (.string t)).1.usedBytes = h.arena.usedBytes + (Body.string t).size :=
    congrArg Books.used hbooks
  have hlimit : (h.arena.place (.string t)).1.maxBytes = h.arena.maxBytes := congrArg Books.limit hbooks
  have hstrings : h'.strings.count = h.strings.count + 1 := by
    change (h.strings.insert _ key).count = _
    unfold InternTable.insert
    split <;> rfl
  unfold stats
  rw [hstrings]
  simp only [show h'.arena = (h.arena.place (.string t)).1 from rfl, hcount, hused, hlimit,
    reduceCtorEq, if_true, if_false, add_zero]
  rfl

/-- There was none, and it has been made. -/
theorem Interned.keyed_made (hs : h.Sound) (hi : h.Interned)
    (hnone : h.interned? finalizerKeyText = none) :
    h.Keyed { (h.place (.string keyText)).1.enterString finalizerKeyText (h.place (.string keyText)).2 with
      finalizerKey := some (h.place (.string keyText)).2 } (h.place (.string keyText)).2 := by
  set made := (h.place (.string keyText)).2
  have hvalid : (Body.string keyText).Valid := by
    rintro p ⟨⟩
  have hget := Arena.get?_place (b := .string keyText) hs.arena.free
  have hvacant : h.arena.Vacant made.index := Kept.vacant_place hs
  have htexts : (h.place (.string keyText)).1.arena.texts =
      Function.update h.arena.texts made (some keyText) :=
    Arena.texts_place hvacant (Kept.core_place hs)
  have hdead : h.isLive made = false := Arena.get?_eq_none_iff.mp hvacant.get?
  set h' : Heap := { (h.place (.string keyText)).1.enterString finalizerKeyText made with
    finalizerKey := some made }
  have hi' : h'.Interned :=
    hi.enter (t := keyText) hnone (Arena.texts_of_vacant hvacant) rfl htexts
  exact {
    agrees := by
      refine ⟨fun r hr => ?_, ?_, ?_, rfl⟩
      · change (h.arena.place (.string keyText)).1.get? r = h.arena.get? r
        rw [hget]
        exact Function.update_of_ne hr ..
      · exact (hs.arena.place hvalid).2
      · have hbooks := Arena.books_place (b := .string keyText) hs.arena.free
        exact congrArg Books.limit hbooks
    recorded := rfl
    count := by
      have hcell : h'.arena.get? made = some (.new (.string keyText)) := by
        change (h.arena.place (.string keyText)).1.get? made = _
        rw [hget]
        exact Function.update_self ..
      unfold count?
      rw [hcell, hvacant.get?]
      rfl
    interned := hi'.interned?_eq_some.mpr ⟨keyText, by
      change (h.place (.string keyText)).1.arena.texts made = _
      rw [htexts, Function.update_self], rfl⟩
    strings := by
      intro content hne
      refine hi.interned?_congr hi' fun r t ht => ?_
      change (h.place (.string keyText)).1.arena.texts r = some t ↔ _
      rw [htexts]
      by_cases hr : r = made
      · rw [hr, Function.update_self, Arena.texts_of_vacant hvacant]
        refine ⟨fun he => ?_, fun he => by cases he⟩
        cases he
        exact absurd ht.symm hne
      · rw [Function.update_of_ne hr]
    stats := by
      rw [if_neg (by simp [hdead])]
      exact stats_enterString hs }

end Heap

/-! ## Functions -/

/-- What a refusal to make a function leaves: nothing has changed, or a buffer has been given up. -/
def Engine.FunctionUndone (E : Engine σ) (code : ByteArray) (w w' : World σ) : Prop :=
  w' = w ∨ ∃ w₁, E.Cleared (Body.cellBytes + code.size) w w₁ ∧ w'.host = w₁.host ∧
    w₁.heap.GaveUp w'.heap

/-- An object whose prototype is no object is not made, and otherwise memory is short. -/
theorem Engine.allocObjectWith_refused {o : Object} : Meets (E.allocObjectWith o) w
    (fun e w' => e = .outOfMemory ∨ w' = w) fun _ _ => True := by
  unfold Engine.allocObjectWith Engine.alloc
  simp only [meets_bind, meets_check]
  refine ⟨fun _ _ => .inr trivial, fun _ _ => ?_⟩
  refine Engine.reserve_cleared.mono (fun _ _ he => .inl he) fun _ _ _ => ?_
  simp only [meets_surely, after_change, after_modifyHeap, meets_pure]

theorem Engine.allocFunction_refused {proto : Option Handle} {constants : List Value}
    {functions : List Handle} {code : ByteArray}
    (hsound : ∀ w₁, E.Cleared (Body.cellBytes + code.size) w w₁ → w₁.heap.Sound) :
    Meets (E.allocFunction proto constants functions code) w
      (fun e w' => e ≠ .outOfMemory → E.FunctionUndone code w w') fun _ _ => True := by
  unfold Engine.allocFunction Engine.allocBufferFrom Engine.alloc
  simp only [meets_bind, meets_check]
  refine ⟨fun _ _ _ => .inl rfl, fun _ _ => ?_⟩
  refine Engine.reserve_cleared.mono (fun _ _ he hne => absurd he hne) fun _ w₁ hw₁ => ?_
  simp only [meets_surely, after_change, meets_outcome]
  refine Engine.allocObjectWith_refused.mono ?_ fun r w₂ _ => ?_
  · intro e w₂ hrefused
    simp only [meets_refuse]
    rcases hrefused with rfl | rfl
    · exact fun _ _ _ hne => absurd rfl hne
    · obtain ⟨hidle, hgave⟩ : _ ∧ w₁.heap.GaveUp _ :=
        ⟨congrArg Prod.snd (Heap.release_placeBuffer (hsound w₁ hw₁)), (hsound w₁ hw₁).gaveUp⟩
      unfold Engine.release
      rw [after_bind, after_change]
      dsimp only
      rw [hidle]
      exact after_pure.mpr fun _ => .inr ⟨w₁, hw₁, rfl, hgave⟩
  · simp only [meets_pure]
    exact fun _ _ _ => trivial

/-! ## Finalizers -/

/-- What a refusal to install a finalizer leaves: nothing has changed, or a key has been made. -/
def Engine.KeyLeft (E : Engine σ) (w w' : World σ) : Prop :=
  w' = w ∨ w.heap.finalizerKey = none ∧ ∃ key w₁, w'.host = w₁.host ∧ w₁.heap.Keyed w'.heap key ∧
    if (w.heap.interned? finalizerKeyText).isSome = true then w₁ = w
    else E.Cleared (Body.string Heap.keyText).size w w₁

theorem Engine.finalizerKey_left (hs : w.heap.Sound) (hi : w.heap.Interned)
    (hcleared : ∀ w₁, w.heap.finalizerKey = none → E.Cleared (Body.string Heap.keyText).size w w₁ →
      w₁.heap.Sound ∧ w₁.heap.Interned ∧
        (w.heap.interned? finalizerKeyText = none → w₁.heap.interned? finalizerKeyText = none)) :
    Meets E.finalizerKey w (fun e _ => e = .outOfMemory) fun _ w' => E.KeyLeft w w' := by
  unfold Engine.finalizerKey
  simp only [meets_bind, meets_surely, after_query]
  cases hkey : w.heap.finalizerKey with
  | some key => exact meets_pure.mpr (.inl rfl)
  | none =>
    unfold Engine.intern Engine.alloc
    simp only [meets_bind, meets_surely, after_query]
    cases hfound : w.heap.interned? finalizerKeyText with
    | some key =>
      simp only [meets_bind, meets_surely, after_modifyHeap, meets_pure]
      refine .inr ⟨hkey, key, w, rfl, hi.keyed_found hs hfound, ?_⟩
      rw [hfound]
      rfl
    | none =>
      simp only [meets_bind, meets_surely]
      refine Engine.reserve_cleared.mono (fun _ _ he => he) fun _ w₁ hw₁ => ?_
      obtain ⟨hs₁, hi₁, hnone⟩ := hcleared w₁ hkey hw₁
      have hmade : (w₁.heap.place (.string Heap.keyText)).1.interned? finalizerKeyText = none :=
        Heap.interned?_place_eq_none hs₁ hi₁ (hnone hfound)
      simp only [after_change, after_query]
      rw [show (⟨finalizerKeyText, true⟩ : Text) = Heap.keyText from rfl, hmade]
      simp only [meets_bind, meets_surely, after_modifyHeap, meets_pure]
      refine .inr ⟨hkey, _, w₁, rfl, hi₁.keyed_made hs₁ (hnone hfound), ?_⟩
      rw [hfound]
      exact hw₁

theorem Engine.setFinalizer_refused {r : Handle} {v : Value} (hs : w.heap.Sound) (hi : w.heap.Interned)
    (hcleared : ∀ w₁, w.heap.finalizerKey = none → E.Cleared (Body.string Heap.keyText).size w w₁ →
      w₁.heap.Sound ∧ w₁.heap.Interned ∧
        (w.heap.interned? finalizerKeyText = none → w₁.heap.interned? finalizerKeyText = none)) :
    Meets (E.setFinalizer r v) w (fun e w' => e ≠ .outOfMemory → E.KeyLeft w w') fun _ _ => True := by
  unfold Engine.setFinalizer
  simp only [meets_bind, meets_check]
  refine ⟨fun _ _ _ => .inl rfl, fun _ _ => ?_⟩
  refine (Engine.finalizerKey_left hs hi hcleared).mono (fun _ _ he hne => absurd he hne)
    fun key w₁ hw₁ => ?_
  refine Engine.putSlot_prudent.mono ?_ fun _ _ h => h
  rintro _ w' rfl _
  exact hw₁

/-! ## Calls -/

/-- Calls are left until the thread is gone. -/
theorem Engine.unwindWithin_refused {t : Handle} {length : ℕ} : Meets (E.unwindWithin t length n) w
    (fun _ w' => ∀ x, w'.heap.thread t ≠ .ok x) fun _ _ => True := by
  induction n generalizing w with
  | zero => exact meets_none.mpr trivial
  | succ n ih =>
    unfold Engine.unwindWithin
    simp only [meets_bind, meets_check]
    refine ⟨fun e he x hx => ?_, fun a _ => ?_⟩
    · unfold Heap.checkUnwind at he
      rw [hx] at he
      cases he
    · cases a with
      | none => exact meets_pure.mpr trivial
      | some a =>
        simp only [meets_bind, meets_surely, after_modifyHeap]
        exact fun _ _ _ => ih

/-- What a refusal to leave the innermost call leaves: nothing has changed, or the thread is gone, which
was there. -/
def Heap.CallKept (t : Handle) (w w' : World σ) : Prop :=
  w' = w ∨ (∃ x, w.heap.thread t = .ok x) ∧ ∀ x, w'.heap.thread t ≠ .ok x

theorem Engine.popActivation_refused {t : Handle} :
    Meets (E.popActivation t) w (fun _ w' => Heap.CallKept t w w') fun _ _ => True := by
  unfold Engine.popActivation Engine.unwindCalls
  simp only [meets_bind, meets_check]
  refine ⟨fun _ _ => .inl rfl, fun calls hcalls => ?_⟩
  split
  · exact meets_refuse.mpr (.inl rfl)
  · simp only [meets_bind, meets_check]
    refine ⟨fun _ _ => .inl rfl, fun _ _ => ?_⟩
    refine Engine.unwindWithin_refused.mono (fun _ w' hgone => .inr ⟨?_, hgone⟩) fun _ _ h => h
    cases ht : w.heap.thread t with
    | ok x => exact ⟨x, rfl⟩
    | error _ =>
      rw [ht] at hcalls
      cases hcalls

/-! ## Every world that is reached -/

variable {host : Host σ} {fuel : ℕ} {w₁ : World σ}

/-- A pass that makes room is an operation like any other. -/
theorem Reachable.cleared (hw : Reachable host w) (hc : (Engine.top host fuel).Cleared n w w₁) :
    Reachable host w₁ := by
  unfold Engine.Cleared at hc
  split at hc
  · exact hc ▸ hw
  · obtain ⟨ran, hran⟩ := hc
    have hrun : ((Engine.top host fuel).perform (.collect { emergency := true })).run w =
        some (.ok ran, w₁) := by
      change (surely ((Engine.top host fuel).collect _)).run w = _
      unfold surely
      rw [ExceptT.run_lift, map_eq_pure_bind]
      change ((Engine.top host fuel).collect _ w).bind _ = _
      rw [hran]
      rfl
    exact hw.perform hrun

/-- Where cells are freed, no string turns up. -/
theorem Heap.Shrinks.interned?_eq_none {h h' : Heap} {content : String} (hs : Heap.Shrinks h h')
    (hi : h.Interned) (hnone : h.interned? content = none) : h'.interned? content = none := by
  by_contra hfound
  obtain ⟨r, hr⟩ := Option.ne_none_iff_exists'.mp hfound
  obtain ⟨t, ht, hcontent⟩ := Heap.interned?_text hr
  obtain ⟨m, hm⟩ := Arena.texts_eq_some.mp ht
  obtain ⟨m', hm'⟩ := hs.cells _ _ _ hm
  rw [hi.interned?_eq_some.mpr ⟨t, hm'.texts, hcontent⟩] at hnone
  cases hnone

/-- Where no finalizer can run, a pass that makes room makes no string. -/
theorem Reachable.interned?_cleared {content : String} (hw : Reachable host w)
    (hkey : w.heap.finalizerKey = none) (hc : (Engine.top host fuel).Cleared n w w₁)
    (hnone : w.heap.interned? content = none) : w₁.heap.interned? content = none := by
  unfold Engine.Cleared at hc
  split at hc
  · exact hc ▸ hnone
  · obtain ⟨ran, hran⟩ := hc
    have hk : Heap.Kept False (Heap.OutsidePass []) w.heap 0 := ⟨hw.sound.1, hw.sound.2, False.elim⟩
    have hs : Heap.Shrinks w.heap w₁.heap :=
      Heap.Shrinks.beginPass.trans
        (top_collect_quiet (.inr (Heap.unfinalized_of_key hkey)) hk ran w₁ hran).2
    exact hs.interned?_eq_none hw.interned hnone

/-- In every world that is reached, whatever finalizers do: if a function is not made, a finalizer is not
installed, or a call is not left, and this is not for want of memory, then nothing has changed, but for
what follows. The buffer of a function whose prototype is no object is counted as freed. A key of
finalizers that has been made stays, as a string that is counted for the first time or once more. Both of
these come after an emergency pass where there was no room. And leaving a call may free the thread
itself. -/
theorem refused_undone {e : HeapError} (hw : Reachable host w) (he : e ≠ .outOfMemory) :
    (∀ proto constants functions code, ((Engine.top host fuel).perform
        (.allocFunction proto constants functions code)).run w = some (.error e, w') →
      (Engine.top host fuel).FunctionUndone code w w') ∧
    (∀ r v, ((Engine.top host fuel).perform (.setFinalizer r v)).run w = some (.error e, w') →
      (Engine.top host fuel).KeyLeft w w') ∧
    ∀ t, ((Engine.top host fuel).perform (.popActivation t)).run w = some (.error e, w') →
      Heap.CallKept t w w' := by
  refine ⟨fun proto constants functions code hrun => ?_, fun r v hrun => ?_, fun t hrun => ?_⟩
  · exact Engine.allocFunction_refused (fun w₁ hc => (hw.cleared hc).sound.1) _ _ hrun he
  · exact Engine.setFinalizer_refused hw.sound.1 hw.interned (fun w₁ hkey hc =>
      ⟨(hw.cleared hc).sound.1, (hw.cleared hc).interned, hw.interned?_cleared hkey hc⟩) _ _ hrun he
  · exact Engine.popActivation_refused _ _ hrun

/-- Two objects that refer to each other have been dropped, in a heap that has no room for a buffer or for
the key of finalizers. -/
def crowded : World Unit :=
  Attains.follow (fun fuel _ => (Engine.top .idle fuel).perform) 5
    [⟨_, .registerNative⟩, ⟨_, .allocObject none⟩, ⟨_, .allocObject none⟩, ⟨_, .intern "k" false⟩,
      ⟨_, .putProp ⟨0, 0⟩ ⟨2, 0⟩ (.ref ⟨1, 0⟩)⟩, ⟨_, .putProp ⟨1, 0⟩ ⟨2, 0⟩ (.ref ⟨0, 0⟩)⟩,
      ⟨_, .release (.ref ⟨0, 0⟩)⟩, ⟨_, .release (.ref ⟨1, 0⟩)⟩]
    ⟨.empty { maxBytes := 700 }, ()⟩

theorem reachable_crowded : Reachable .idle crowded := by
  have hattains : Attains (fun fuel _ => (Engine.top .idle fuel).perform) crowded :=
    (Attains.start _ ()).steps 5 _
  exact hattains.reachable fun _ _ _ => restricting_refl

/-- A pass frees the object that was to be the prototype of a function, or to get a finalizer. -/
theorem refused_undone_crowded : Reachable .idle crowded ∧
    HeapError.invalidHandle ≠ .outOfMemory ∧ crowded.heap.isLive ⟨0, 0⟩ = true ∧
    (∃ w', ((Engine.top .idle 5).perform (.allocFunction (some ⟨0, 0⟩) [] [] ⟨#[]⟩)).run crowded =
      some (.error .invalidHandle, w') ∧ w'.heap.counters.buffersFreed = 1 ∧
        (Engine.top .idle 5).FunctionUndone ⟨#[]⟩ crowded w') ∧
    (∃ w', ((Engine.top .idle 5).perform (.setFinalizer ⟨0, 0⟩ (.native ⟨0⟩))).run crowded =
      some (.error .invalidHandle, w') ∧ (Engine.top .idle 5).KeyLeft crowded w') ∧
    ∃ w', ((Engine.top .idle 5).perform (.popActivation ⟨3, 0⟩)).run crowded =
      some (.error .invalidHandle, w') ∧ Heap.CallKept ⟨3, 0⟩ crowded w' := by
  have hfunction : (((Engine.top .idle 5).perform
      (.allocFunction (some ⟨0, 0⟩) [] [] ⟨#[]⟩)).run crowded).map
        (fun y => (y.1, y.2.heap.counters.buffersFreed)) = some (.error .invalidHandle, 1) := by
    decide +kernel
  have hfinalizer : (((Engine.top .idle 5).perform
      (.setFinalizer ⟨0, 0⟩ (.native ⟨0⟩))).run crowded).map Prod.fst =
        some (.error .invalidHandle) := by
    decide +kernel
  have hcall : (((Engine.top .idle 5).perform (.popActivation ⟨3, 0⟩)).run crowded).map Prod.fst =
      some (.error .invalidHandle) := by
    decide +kernel
  simp only [Option.map_eq_some_iff, Prod.mk.injEq] at hfunction hfinalizer hcall
  obtain ⟨⟨_, w₁⟩, e₁, rfl, hfreed⟩ := hfunction
  obtain ⟨⟨_, w₂⟩, e₂, rfl⟩ := hfinalizer
  obtain ⟨⟨_, w₃⟩, e₃, rfl⟩ := hcall
  have hne : HeapError.invalidHandle ≠ .outOfMemory := by decide
  exact ⟨reachable_crowded, hne, by decide +kernel,
    ⟨w₁, e₁, hfreed, (refused_undone reachable_crowded hne).1 _ _ _ _ e₁⟩,
    ⟨w₂, e₂, (refused_undone reachable_crowded hne).2.1 _ _ e₂⟩,
    w₃, e₃, (refused_undone reachable_crowded hne).2.2 _ e₃⟩

/-- An object has been freed, and an environment is left that only a call on a thread refers to, and that
alone refers to the thread. -/
def encircled : World Unit :=
  Attains.follow (fun fuel _ => (Engine.top .idle fuel).perform) 5
    [⟨_, .registerNative⟩, ⟨_, .allocObject none⟩, ⟨_, .release (.ref ⟨0, 0⟩)⟩,
      ⟨_, .allocNativeFunction ⟨0⟩ none⟩, ⟨_, .allocThread none⟩, ⟨_, .allocEnvironment none⟩,
      ⟨_, .intern "k" false⟩, ⟨_, .putProp ⟨2, 0⟩ ⟨3, 0⟩ (.ref ⟨1, 0⟩)⟩,
      ⟨_, .pushActivation ⟨1, 0⟩ { func := ⟨0, 1⟩, variableScope := some ⟨2, 0⟩ }⟩,
      ⟨_, .release (.ref ⟨1, 0⟩)⟩, ⟨_, .release (.ref ⟨2, 0⟩)⟩]
    ⟨.empty {}, ()⟩

theorem reachable_orphaned : Reachable .idle encircled := by
  have hattains : Attains (fun fuel _ => (Engine.top .idle fuel).perform) encircled :=
    (Attains.start _ ()).steps 5 _
  exact hattains.reachable fun _ _ _ => restricting_refl

/-- None of the three operations undoes everything, without any finalizer and where memory is not short: a
buffer is counted as freed, a string has been made, and the thread and its environment are gone. -/
theorem not_undone : Reachable .idle encircled ∧ encircled.heap.finalizerKey = none ∧
    (∃ w', ((Engine.top .idle 5).perform (.allocFunction (some ⟨0, 0⟩) [] [] ⟨#[]⟩)).run encircled =
      some (.error .invalidHandle, w') ∧ w'.heap.counters ≠ encircled.heap.counters) ∧
    (∃ w', ((Engine.top .idle 5).perform (.setFinalizer ⟨0, 0⟩ (.native ⟨0⟩))).run encircled =
      some (.error .invalidHandle, w') ∧ w'.heap.stats ≠ encircled.heap.stats ∧
        w'.heap.interned? finalizerKeyText ≠ encircled.heap.interned? finalizerKeyText) ∧
    ∃ w', ((Engine.top .idle 5).perform (.popActivation ⟨1, 0⟩)).run encircled =
      some (.error .invalidHandle, w') ∧ encircled.heap.isLive ⟨2, 0⟩ = true ∧
        w'.heap.isLive ⟨2, 0⟩ = false := by
  have hfunction : (((Engine.top .idle 5).perform
      (.allocFunction (some ⟨0, 0⟩) [] [] ⟨#[]⟩)).run encircled).map
        (fun y => (y.1, decide (y.2.heap.counters ≠ encircled.heap.counters))) =
      some (.error .invalidHandle, true) := by
    decide +kernel
  have hfinalizer : (((Engine.top .idle 5).perform
      (.setFinalizer ⟨0, 0⟩ (.native ⟨0⟩))).run encircled).map
        (fun y => (y.1, decide (y.2.heap.stats ≠ encircled.heap.stats),
          decide (y.2.heap.interned? finalizerKeyText ≠ encircled.heap.interned? finalizerKeyText))) =
      some (.error .invalidHandle, true, true) := by
    decide +kernel
  have hcall : (((Engine.top .idle 5).perform (.popActivation ⟨1, 0⟩)).run encircled).map
      (fun y => (y.1, y.2.heap.isLive ⟨2, 0⟩)) = some (.error .invalidHandle, false) := by
    decide +kernel
  simp only [Option.map_eq_some_iff, Prod.mk.injEq, decide_eq_true_eq] at hfunction hfinalizer hcall
  obtain ⟨⟨_, w₁⟩, e₁, rfl, hcounters⟩ := hfunction
  obtain ⟨⟨_, w₂⟩, e₂, rfl, hstats, hinterned⟩ := hfinalizer
  obtain ⟨⟨_, w₃⟩, e₃, rfl, hdead⟩ := hcall
  exact ⟨reachable_orphaned, by decide +kernel, ⟨w₁, e₁, hcounters⟩, ⟨w₂, e₂, hstats, hinterned⟩,
    w₃, e₃, by decide +kernel, hdead⟩

end CountedHeap
