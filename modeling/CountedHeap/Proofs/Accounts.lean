import CountedHeap.Proofs.Arena.Accounts
import CountedHeap.Proofs.Chronicle
import CountedHeap.Proofs.Heap.Tenures

/-!
# The accounts of a heap

Wherever anyone looks at the heap, the bytes in use are what is accounted for the cells that are there,
and no more than the limit. Room is made before a cell is placed or a buffer resized, and finalizers may
do whatever they like meanwhile, so that it is looked for once more afterwards.

* `Course.booked`: courses on which the books go on.
* `accounts`: the course of a heap whose accounts are in order.
* `Passes.place`, `Passes.resizeBuffer`: the two steps that take up bytes.
* `accounts.returned`: the handle that is returned for a cell names it.
* `accounts_kept`: the course is kept.
* `Arena.ByteExact`, `Arena.KeepsSizes`: what this says about slots and cells.
* `bytes_accounted`: this holds in every run.
-/

namespace CountedHeap

open Heap (Goes Stirs)

variable {σ : Type}

/-- A handle names a cell, for which the size of its body is accounted. -/
def Books.Sized (B : Books) (r : Handle) (b : Body) : Prop :=
  ∃ t, B.slot r.index = some t ∧ UInt32.ofNat t.freed = r.generation ∧ t.body = some b ∧
    t.bytes = b.size

/-- Heaps follow on heaps of which the books have gone on. -/
def Course.booked (good : Heap → Prop) (returns : Heap → Handle → Prop) : Course where
  good := good
  leads h h' := h.arena.books.Later h'.arena.books
  returns := returns
  refl _ := .refl
  trans _ _ _ := .trans

/-- The accounts are in order. A handle that is returned for a cell names it. -/
def accounts : Course :=
  .booked (fun h => h.arena.FreeOk ∧ h.arena.books.Accounted) fun h r =>
    h.arena.books.Unwrapped → ∃ b, h.arena.books.Sized r b

namespace accounts

open Course (Passes)

variable {h h₀ h' : Heap} {r : Handle} {b : Body} {length : ℕ}

/-! ## Steps -/

theorem passes_of_goes (hg : Goes h h')
    (ha : h.arena.FreeOk → h.arena.books.Accounted → h'.arena.books.Accounted) :
    accounts.Passes h h' :=
  fun hgood => ⟨⟨hg.free hgood.1, ha hgood.1 hgood.2⟩, hg.later hgood.1⟩

theorem passes_modifyBody {f : Body → Body} (hf : Body.Alter f) {i : ℕ} :
    accounts.Passes h (h.modifyAt i (·.modifyBody f)) := by
  refine passes_of_goes (.modifyBody hf) fun _ ha => ?_
  change (h.arena.modifyAt i (·.modifyBody f)).books.Accounted
  rw [Arena.books_modifyBody]
  exact ha.edit hf.kind hf.size

theorem passes_stirs (hs : Stirs h h') : accounts.Passes h h' := by
  cases hs with
  | body i hf => exact passes_modifyBody hf
  | aside hfree hbooks =>
    exact passes_of_goes ⟨hfree, fun _ => hbooks ▸ .refl⟩ fun _ ha => hbooks ▸ ha

theorem passes_retainAll {rs : List Handle} : accounts.Passes h (h.retainAll rs) :=
  passes_of_goes .retainAll fun _ ha => by rwa [Heap.books_retainAll]

theorem passes_linkPrototype {proto : Option Handle} :
    accounts.Passes h (h.linkPrototype r proto) :=
  passes_retainAll.trans (passes_modifyBody Body.alter_modifyObject)

theorem passes_storeBuiltin {id : BuiltinId} {o : Option Handle} :
    accounts.Passes h (h.storeBuiltin r id o) := by
  unfold Heap.storeBuiltin
  refine Passes.trans ?_ passes_retainAll
  exact passes_modifyBody Body.alter_modifyThread

/-- A cell is placed where there is room for it. -/
theorem passes_place (hroom : h.arena.hasRoom b.size = true) : accounts.Passes h (h.place b).1 := by
  refine passes_of_goes .place fun hfree ha => ?_
  change (h.arena.place b).1.books.Accounted
  rw [Arena.books_place hfree]
  exact ha.enter (Arena.vacant_iff_books.mp (Arena.vacant_place hfree)) (of_decide_eq_true hroom)

/-- A buffer is resized where there is room for it. -/
theorem passes_resizeBuffer (hl : h₀.arena.books.Later h.arena.books) {c : Buffer}
    (hr : h₀.buffer r = .ok c) (hlive : h.isLive r = true)
    (hroom : h.arena.canResize r.index (Body.cellBytes + length) = true) :
    accounts.Passes h (h.resizeBuffer r length) := by
  obtain ⟨t, b, ht, hb, hkind⟩ := Heap.buffer_of_later hl hr hlive
  refine passes_of_goes (.resizeBuffer hl hr hlive) fun _ ha => ?_
  rw [Heap.books_resizeBuffer]
  refine ha.resize ht hb hkind ?_
  have hbytes : h.arena.bytesAt r.index = t.bytes := by
    obtain ⟨s, hs, rfl⟩ := Option.map_eq_some_iff.mp ht
    unfold Arena.bytesAt
    rw [hs]
    rfl
  unfold Arena.canResize at hroom
  simp only [Bool.and_eq_true, Bool.or_eq_true, decide_eq_true_eq, hbytes] at hroom
  exact hroom.2

theorem shifting : (accounts.simulation σ).Shifting :=
  fun _ _ hs => Passes.of_steps (fun _ _ hstep => passes_stirs hstep.stirs) hs

/-! ## Handles of cells -/

theorem sized_place (hf : h.arena.FreeOk) : (h.place b).1.arena.books.Sized (h.place b).2 b := by
  have hbooks : (h.place b).1.arena.books = h.arena.books.enter h.arena.nextSlot b :=
    Arena.books_place hf
  have hr : (h.place b).2 = _ := Arena.place_snd hf
  rw [hbooks, hr]
  exact ⟨⟨_, b.size, some b⟩, Function.update_self .., rfl, rfl, rfl⟩

/-- A leaf takes up its size, wherever it has come from. -/
theorem sized_of_leaf (ha : h.arena.books.Accounted) (hu : h.arena.books.Unwrapped)
    (hr : h.arena.books.Names r b) (hb : b.isComposite = false) : h.arena.books.Sized r b := by
  obtain ⟨t, ht, hg, hbody⟩ := hr
  exact ⟨t, ht, hg, hbody, ha.leaf _ t b ht (hu _ t ht) hbody hb⟩

/-- A count on a leaf is given back. This works no queue off, and frees no other cell. -/
theorem sized_release {q : Handle} (hr : h.arena.books.Sized r b)
    (hq : ∀ n c, h.arena.Holds q n c → c.isComposite = false ∧ (n = 1 → r.index ≠ q.index)) :
    (h.release q).2 = false ∧ (h.release q).1.arena.books.Sized r b := by
  rcases h.release_cases q with ⟨-, he⟩ | ⟨n, c, hc, hcases⟩
  · rw [he]
    exact ⟨rfl, hr⟩
  · obtain ⟨hleaf, hne⟩ := hq n c hc
    obtain ⟨t, ht, -, hbody⟩ := hc.names
    have huncount : (h.uncount q.index).arena.books = h.arena.books :=
      Arena.books_modifyAt_of_eq fun _ => rfl
    rcases hcases with ⟨-, he⟩ | ⟨hone, -, _, _, _, he⟩ | ⟨-, hcomp, -⟩
    · rw [he, huncount]
      exact ⟨rfl, hr⟩
    · rw [he]
      refine ⟨rfl, ?_⟩
      obtain ⟨t', ht', hrest⟩ := hr
      refine ⟨t', ?_, hrest⟩
      change ((h.uncount q.index).arena.release q.index).books.slot r.index = _
      rw [Arena.books_release, huncount, Books.vacate_of_body ht hbody]
      exact (Function.update_of_ne (hne hone) ..).trans ht'
    · rw [hleaf] at hcomp
      cases hcomp

/-- The buffer of a function is given back as a buffer. -/
theorem sized_release_buffer {q : Handle} {c : Buffer} {o : Object}
    (hl : h₀.arena.books.Later h.arena.books) (hu : h.arena.books.Unwrapped)
    (hq : h₀.arena.books.Names q (.buffer c)) (hr : h.arena.books.Sized r (.object o)) :
    (h.release q).2 = false ∧ (h.release q).1.arena.books.Sized r (.object o) := by
  refine sized_release hr fun n b hb => ?_
  -- What the handle names is still the buffer, so it is another cell than the function.
  obtain ⟨t, ht, hg, hbody⟩ := hb.names
  obtain ⟨_, b', -, -, hb', hkind, -⟩ := hl.same hq ht hg (hu _ t ht)
  obtain rfl : b = b' := Option.some.inj (hbody.symm.trans hb')
  refine ⟨?_, fun _ hi => ?_⟩
  · unfold Body.isComposite
    rw [hkind]
    rfl
  · obtain ⟨t', ht', -, hbody', -⟩ := hr
    rw [hi, ht] at ht'
    cases ht'
    rw [hbody] at hbody'
    cases hbody'
    cases hkind

/-- A new string is given up for another one that has been counted. -/
theorem sized_release_string {q : Handle} {t t' : Text} (hq : h.arena.Holds q 1 (.string t))
    (hr : h.arena.books.Sized r (.string t')) :
    ((h.retain r).release q).2 = false ∧
      ((h.retain r).release q).1.arena.books.Sized r (.string t') := by
  have hr' : (h.retain r).arena.books.Sized r (.string t') := by rwa [Heap.books_retain]
  refine sized_release hr' fun n c hc => ?_
  obtain ⟨m, hm⟩ := Heap.holds_retain hq r
  obtain ⟨rfl, rfl⟩ := hc.unique hm
  refine ⟨rfl, ?_⟩
  rintro rfl hi
  -- Were it the same string, it would have two counts.
  obtain ⟨k, hk⟩ := Arena.books_names.mp ⟨_, hr.choose_spec.1, hr.choose_spec.2.1,
    hr.choose_spec.2.2.1⟩
  obtain rfl : q = r := hq.eq_of_index hk hi.symm
  obtain ⟨rfl, -⟩ := hk.unique hq
  have hcore := Heap.Kept.core_retain hq
  have htwo : (h.retain q).arena.Holds q (1 + 1) (.string t) := by
    unfold Arena.Holds
    rw [hcore, Function.update_self]
  cases (htwo.unique hc).1

/-! ## What is made -/

section

variable {E : Engine (σ × List Moment)} {w : World (σ × List Moment)}
  (hE : (accounts.simulation σ).Agree E E)
include hE

theorem makes : (accounts.simulation σ).Makes E E := by
  refine hE.makes_of shifting.touching (fun _ _ => Course.lift_iff.mpr fun w hw => ?_)
    (fun _ _ _ => passes_linkPrototype) (fun _ _ _ _ => passes_storeBuiltin)
    fun _ _ => Course.lift_bufferResize hE fun _ _ _ hl => passes_resizeBuffer hl
  exact (Course.alloc_noted hE hw fun _ _ => passes_place).mono (fun _ _ hw' => hw')
    fun _ _ hw' => hw'.1

/-! ## Handles that are returned -/

/-- An allocation returns a handle for the cell that it has made. -/
theorem alloc_sized (hw : accounts.Noted w) : Meets (E.alloc b) w
    (fun _ w' => accounts.Noted w' ∧ accounts.leads w.heap w'.heap) fun r w' =>
      (accounts.Noted w' ∧ accounts.leads w.heap w'.heap) ∧ w'.heap.arena.books.Sized r b ∧
        w'.heap.arena.Holds r 1 b := by
  refine (Course.alloc_noted hE hw fun _ _ => passes_place).mono (fun _ _ hw' => hw')
    fun r w' hw' => ?_
  obtain ⟨hw', h, hgood, hplace⟩ := hw'
  have hsized : (h.place b).1.arena.books.Sized (h.place b).2 b := sized_place hgood.1
  have hholds : (h.place b).1.arena.Holds (h.place b).2 1 b := Arena.holds_place hgood.1 b
  rw [hplace] at hsized hholds
  exact ⟨hw', hsized, hholds⟩

theorem allocObjectWith_sized {o : Object} (hw : accounts.Noted w) : Meets (E.allocObjectWith o) w
    (fun _ w' => accounts.Noted w' ∧ accounts.leads w.heap w'.heap) fun r w' =>
      (accounts.Noted w' ∧ accounts.leads w.heap w'.heap) ∧
        w'.heap.arena.books.Sized r (.object o) := by
  unfold Engine.allocObjectWith
  simp only [meets_bind, meets_check]
  refine ⟨fun _ _ => ⟨hw, accounts.refl _⟩, fun _ _ => ?_⟩
  refine (alloc_sized hE hw).mono (fun _ _ hw₁ => hw₁) fun r w₁ hw₁ => ?_
  obtain ⟨⟨hw₁, hleads⟩, hr, -⟩ := hw₁
  obtain ⟨hw₂, hleads'⟩ := hw₁.go (passes_retainAll : accounts.Passes _ (w₁.heap.retainAll o.refs))
  simp only [meets_surely, after_modifyHeap, meets_pure, Heap.books_retainAll]
  exact ⟨⟨hw₂, accounts.trans _ _ _ hleads hleads'⟩, hr⟩

theorem allocThread_sized {source : Option Handle} (hw : accounts.Noted w) :
    Meets (E.allocThread source) w (fun _ _ => True) fun r w' =>
      ∃ t, w'.heap.arena.books.Sized r (.thread t) := by
  unfold Engine.allocThread
  simp only [meets_bind, meets_check, meets_surely, after_query]
  refine ⟨fun _ _ => trivial, fun builtins _ => ?_⟩
  refine (alloc_sized hE hw).mono (fun _ _ _ => trivial) fun r w₁ hw₁ => ?_
  simp only [after_modifyHeap, meets_pure, Heap.books_retainAll]
  exact ⟨_, hw₁.2.1⟩

/-- A function is there when its buffer has been given back. -/
theorem allocFunction_sized {proto : Option Handle} {constants : List Value} {functions : List Handle}
    {code : ByteArray} (hw : accounts.Noted w) :
    Meets (E.allocFunction proto constants functions code) w (fun _ _ => True) fun r w' =>
      accounts.returns w'.heap r := by
  unfold Engine.allocFunction Engine.allocBufferFrom
  simp only [meets_bind, meets_check, meets_surely, meets_outcome]
  refine ⟨fun _ _ => trivial, fun _ _ => ?_⟩
  refine (alloc_sized hE hw).mono (fun _ _ _ => trivial) fun q w₁ hw₁ => ?_
  obtain ⟨⟨hw₁, -⟩, -, hq⟩ := hw₁
  refine (allocObjectWith_sized hE hw₁).mono (fun _ w₂ hw₂ => ?_) fun r w₂ hw₂ => ?_
  · exact fun _ _ _ => meets_refuse.mpr trivial
  · intro _ w₃ hrun
    obtain ⟨⟨hw₂, hleads⟩, hr⟩ := hw₂
    refine meets_pure.mpr fun hu₃ => ?_
    have hlater : w₂.heap.arena.books.Later w₃.heap.arena.books := (hE.release q w₂ hw₂ _ _ hrun).2
    obtain ⟨hidle, hr'⟩ := sized_release_buffer hleads (hu₃.earlier hlater) hq.names hr
    have hdone : After (E.release q) w₂ fun _ w' => accounts.returns w'.heap r := by
      unfold Engine.release
      rw [after_bind, after_change, hidle]
      exact after_pure.mpr fun _ => ⟨_, hr'⟩
    exact hdone _ w₃ hrun hu₃

/-- A string is there, whether it has been made or found. -/
theorem intern_sized {content : String} {isStatic : Bool} (hw : accounts.Noted w) :
    Meets (E.intern content isStatic) w (fun _ _ => True) fun r w' =>
      accounts.returns w'.heap r := by
  have hfound : ∀ {h : Heap} {r : Handle}, h.arena.books.Accounted → h.arena.books.Unwrapped →
      h.interned? content = some r → ∃ t, h.arena.books.Sized r (.string t) := by
    intro h r ha hu hr
    obtain ⟨t, ht, -⟩ := Heap.interned?_text hr
    obtain ⟨n, hn⟩ := Arena.texts_eq_some.mp ht
    exact ⟨t, sized_of_leaf ha hu hn.names rfl⟩
  unfold Engine.intern
  simp only [meets_bind, meets_surely, after_query]
  cases hr : w.heap.interned? content with
  | some r =>
    simp only [meets_bind, meets_surely, after_modifyHeap, meets_pure]
    intro hu
    rw [Heap.books_retain] at hu ⊢
    obtain ⟨t, ht⟩ := hfound hw.good.2 hu hr
    exact ⟨_, ht⟩
  | none =>
    simp only [meets_bind, meets_surely, after_query]
    refine (alloc_sized hE hw).mono (fun _ _ _ => trivial) fun q w₁ hw₁ => ?_
    obtain ⟨⟨hw₁, -⟩, hsized, hq⟩ := hw₁
    cases hr : w₁.heap.interned? content with
    | none =>
      simp only [meets_bind, meets_surely, after_modifyHeap, meets_pure]
      exact fun _ => ⟨_, hsized⟩
    | some r =>
      simp only [meets_bind, meets_surely, after_modifyHeap, meets_pure]
      intro _ w₂ hrun hu
      have hretained := hw₁.go (passes_retainAll : accounts.Passes _ (w₁.heap.retainAll [r]))
      have hlater : (w₁.heap.retain r).arena.books.Later w₂.heap.arena.books :=
        (hE.release q _ hretained.1 _ _ hrun).2
      have hu₁ := hu.earlier hlater
      rw [Heap.books_retain] at hu₁
      obtain ⟨t, ht⟩ := hfound hw₁.good.2 hu₁ hr
      obtain ⟨hidle, hr'⟩ := sized_release_string hq ht
      have hdone : After (E.release q) ⟨w₁.heap.retain r, w₁.host⟩ fun _ w' =>
          accounts.returns w'.heap r := by
        unfold Engine.release
        rw [after_bind, after_change, hidle]
        exact after_pure.mpr fun _ => ⟨_, hr'⟩
      exact hdone _ w₂ hrun hu

/-- Whatever handle an operation returns for a cell names a cell. -/
theorem returned {β : Type} (op : Operation β) (hw : accounts.Noted w) :
    After (E.perform op).run w fun answer w' =>
      ∀ r ∈ op.returned answer, accounts.returns w'.heap r := by
  have hcell : ∀ {op : Operation Handle}, (∀ r, op.returned (.ok r) = some r) →
      (∀ e, op.returned (.error e) = none) →
      Meets (E.perform op) w (fun _ _ => True) (fun r w' => accounts.returns w'.heap r) →
      After (E.perform op).run w fun answer w' =>
        ∀ r ∈ op.returned answer, accounts.returns w'.heap r := by
    intro op hok herror hmeets answer w' hrun r hr
    have hdone := hmeets answer w' hrun
    cases answer with
    | ok q =>
      rw [hok] at hr
      cases hr
      exact hdone
    | error e =>
      rw [herror] at hr
      cases hr
  have hobject : ∀ {o : Object}, Meets (E.allocObjectWith o) w (fun _ _ => True)
      fun r w' => accounts.returns w'.heap r := fun {o} =>
    (allocObjectWith_sized hE hw).mono (fun _ _ _ => trivial) fun _ _ hr _ => ⟨_, hr.2⟩
  have halloc : ∀ {body : Body}, Meets (E.alloc body) w (fun _ _ => True)
      fun r w' => accounts.returns w'.heap r := fun {body} =>
    (alloc_sized hE hw).mono (fun _ _ _ => trivial) fun _ _ hr _ => ⟨_, hr.2.1⟩
  cases op
  case allocObject proto => exact hcell (fun _ => rfl) (fun _ => rfl) hobject
  case allocArray proto => exact hcell (fun _ => rfl) (fun _ => rfl) hobject
  case allocEnvironment parent => exact hcell (fun _ => rfl) (fun _ => rfl) hobject
  case allocFunction proto constants functions code =>
    exact hcell (fun _ => rfl) (fun _ => rfl) (allocFunction_sized hE hw)
  case allocNativeFunction id proto =>
    refine hcell (fun _ => rfl) (fun _ => rfl) ?_
    change Meets (E.allocNativeFunction id proto) w _ _
    unfold Engine.allocNativeFunction
    rw [meets_bind, meets_check]
    exact ⟨fun _ _ => trivial, fun _ _ => hobject⟩
  case allocBuffer length dynamic =>
    refine hcell (fun _ => rfl) (fun _ => rfl) ?_
    change Meets (E.allocBuffer length dynamic) w _ _
    rw [Engine.allocBuffer_eq]
    exact halloc
  case allocBufferFrom bytes => exact hcell (fun _ => rfl) (fun _ => rfl) halloc
  case allocThread source =>
    refine hcell (fun _ => rfl) (fun _ => rfl) ?_
    exact (allocThread_sized hE hw).mono (fun _ _ _ => trivial) fun _ _ ⟨_, hr⟩ _ => ⟨_, hr⟩
  case intern content isStatic => exact hcell (fun _ => rfl) (fun _ => rfl) (intern_sized hE hw)
  all_goals exact fun _ _ _ _ hr => by cases hr

end

end accounts

/-- Wherever anyone looks, the accounts are in order. -/
theorem accounts_kept : accounts.Kept where
  empty config := by
    refine ⟨(Arena.Sound.empty config.maxBytes).free, ⟨0, fun i _ => ?_, rfl⟩, Nat.zero_le _,
      fun i t ht => ?_, fun i t b ht => ?_⟩
    · rfl
    · cases ht
    · cases ht
  withers _ _ hw := accounts.passes_of_goes (.withers hw) fun _ ha => ha.wanes hw.books
  shifts := accounts.shifting (σ := Unit)
  flag _ _ := accounts.passes_stirs (.aside id rfl)
  reroots _ _ _ := accounts.passes_stirs (.aside id rfl)
  rekey _ _ := accounts.passes_stirs (.aside id rfl)
  makes hE := accounts.makes hE
  returned hE _ op _ hw := accounts.returned hE op hw

/-! ## Bytes and cells -/

namespace Arena

variable {a : Arena} {r : Handle} {b : Body}

/-- The bytes in use are those of the occupied slots, and not more than the limit. What is accounted for a
string is its header and its content in UTF-8, and for a buffer its header and its bytes. -/
structure ByteExact (a : Arena) : Prop where
  used : a.usedBytes = ((a.slots.toList.filter fun s => s.cell.isSome).map fun s => s.bytes).sum
  limit : a.usedBytes ≤ a.maxBytes
  string : ∀ s ∈ a.slots, s.freed < 2 ^ 32 → ∀ c ∈ s.cell, ∀ t, c.body = .string t →
    s.bytes = Body.cellBytes + t.content.utf8ByteSize
  buffer : ∀ s ∈ a.slots, s.freed < 2 ^ 32 → ∀ c ∈ s.cell, ∀ b, c.body = .buffer b →
    s.bytes = Body.cellBytes + b.size

/-- The slots of a composite cell that has not been freed have the same bytes in both arenas. -/
def KeepsSizes (a a' : Arena) : Prop :=
  ∀ (i : ℕ) (s s' : ArenaSlot), a.slots[i]? = some s → a'.slots[i]? = some s' →
    s'.freed = s.freed → s.freed < 2 ^ 32 →
    ∀ c ∈ s.cell, c.isComposite = true → s'.bytes = s.bytes

theorem books_slot {i : ℕ} {s : ArenaSlot} (h : a.slots[i]? = some s) :
    a.books.slot i = some ⟨s.freed, s.bytes, s.cell.map (·.body)⟩ := by
  simp [books, h]

theorem unwrapped_of_slots (h : ∀ s ∈ a.slots, s.freed < 2 ^ 32) : a.books.Unwrapped := by
  intro i t ht
  obtain ⟨s, hs, rfl⟩ := Option.map_eq_some_iff.mp ht
  exact h s (Array.mem_of_getElem? hs)

theorem sum_bytes (l : List ArenaSlot) :
    ∑ i ∈ Finset.range l.length, ((l[i]?).map fun s => s.bytes).getD 0 =
      (l.map fun s => s.bytes).sum := by
  induction l with
  | nil => rfl
  | cons s l ih => simp [Finset.sum_range_succ', ih, add_comm]

/-- Vacant slots add nothing. -/
theorem sum_occupied {l : List ArenaSlot} (h : ∀ s ∈ l, s.cell = none → s.bytes = 0) :
    (l.map fun s => s.bytes).sum = ((l.filter fun s => s.cell.isSome).map fun s => s.bytes).sum := by
  induction l with
  | nil => rfl
  | cons s l ih =>
    have hrest := ih fun s' hs' => h s' (List.mem_cons_of_mem _ hs')
    cases hc : s.cell with
    | none => simp [hc, hrest, h s List.mem_cons_self hc]
    | some c => simp [hc, hrest]

/-- What is accounted for the slots is accounted for those that are occupied. -/
theorem sum_bytesAt (h : a.books.Accounted) {n : ℕ} (hn : ∀ i, n ≤ i → a.books.slot i = none) :
    ∑ i ∈ Finset.range n, a.books.bytesAt i =
      ((a.slots.toList.filter fun s => s.cell.isSome).map fun s => s.bytes).sum := by
  have hsize : ∀ i, a.slots.size ≤ i → a.books.slot i = none := by
    intro i hi
    simp [books, Array.getElem?_eq_none hi]
  rw [← Books.sum_extend hn (Nat.le_max_left n a.slots.size),
    Books.sum_extend hsize (Nat.le_max_right n a.slots.size), ← sum_occupied, ← sum_bytes,
    Array.length_toList]
  · refine Finset.sum_congr rfl fun i _ => ?_
    simp [Books.bytesAt, books, Function.comp_def]
  · intro s hs hc
    obtain ⟨i, hi⟩ := List.getElem?_of_mem hs
    rw [Array.getElem?_toList] at hi
    exact h.vacant i _ (books_slot hi) (by simp [hc])

theorem byteExact_of_accounted (h : a.books.Accounted) : a.ByteExact where
  used := by
    obtain ⟨n, hn, hsum⟩ := h.sums
    exact hsum.trans (sum_bytesAt h hn)
  limit := h.limit
  string s hs hf c hc t ht := by
    obtain ⟨i, hi⟩ := Array.getElem?_of_mem hs
    have hbody : s.cell.map (·.body) = some (.string t) := by
      rw [Option.mem_def.mp hc, ← ht]
      rfl
    exact h.leaf i _ _ (books_slot hi) hf hbody rfl
  buffer s hs hf c hc b hb := by
    obtain ⟨i, hi⟩ := Array.getElem?_of_mem hs
    have hbody : s.cell.map (·.body) = some (.buffer b) := by
      rw [Option.mem_def.mp hc, ← hb]
      rfl
    exact h.leaf i _ _ (books_slot hi) hf hbody rfl

theorem keepsSizes_of_later {a' : Arena} (h : a.books.Later a'.books) : a.KeepsSizes a' := by
  intro i s s' hs hs' he hf c hc hcomposite
  obtain ⟨t', ht', hlater⟩ := h.slot i _ (books_slot hs)
  obtain rfl := Option.some.inj ((books_slot hs').symm.trans ht')
  have hbody : s.cell.map (·.body) = some c.body := by
    rw [Option.mem_def.mp hc]
    rfl
  obtain ⟨_, -, -, -, hbytes⟩ := hlater.same he _ hbody
  exact hbytes hcomposite hf

theorem bytesAt_of_sized (h : a.books.Sized r b) :
    (∃ n, a.Holds r n b) ∧ a.bytesAt r.index = b.size := by
  obtain ⟨t, ht, hg, hbody, hbytes⟩ := h
  refine ⟨books_names.mp ⟨t, ht, hg, hbody⟩, ?_⟩
  obtain ⟨s, hs, rfl⟩ := Option.map_eq_some_iff.mp ht
  unfold bytesAt
  rw [hs]
  exact hbytes

end Arena

/-- Bytes are accounted exactly in every run, whatever finalizers do, in emergency passes as well: wherever
anyone looks at the heap, the bytes in use are those of the occupied slots and within the limit, which does
not change, and strings and buffers take up what their contents take up. Composite cells keep the bytes
that they have. Only of a slot that has been freed 2^32 times nothing is said, since it may come round
while it waits to be resized; as long as there is none, an operation that makes a cell returns it with its
size accounted. -/
theorem bytes_accounted (host : Host σ) (w : World (σ × List Moment)) (hw : Chronicled host w) :
    w.heap.arena.ByteExact ∧ (∀ m ∈ w.host.2, m.heap.arena.ByteExact) ∧
    (w.host.2.Pairwise fun m m' => m.heap.arena.KeepsSizes m'.heap.arena ∧
      m'.heap.arena.maxBytes = m.heap.arena.maxBytes) ∧
    ∀ m ∈ w.host.2, (∀ s ∈ m.heap.arena.slots, s.freed < 2 ^ 32) → ∀ r ∈ m.returned, ∃ b,
      (∃ n, m.heap.arena.Holds r n b) ∧ m.heap.arena.bytesAt r.index = b.size := by
  have hnoted := accounts_kept.noted hw
  refine ⟨Arena.byteExact_of_accounted hnoted.good.2,
    fun m hm => Arena.byteExact_of_accounted (hnoted.each m hm).1.2,
    hnoted.order.imp fun hl => ⟨Arena.keepsSizes_of_later hl, hl.limit⟩, fun m hm hslots r hr => ?_⟩
  obtain ⟨b, hb⟩ := (hnoted.each m hm).2 r hr (Arena.unwrapped_of_slots hslots)
  exact ⟨b, Arena.bytesAt_of_sized hb⟩

/-- The host whose native functions resize a buffer. -/
def Host.resizing (r : Handle) (length : ℕ) : Host Unit :=
  fun _ _ => .perform (.bufferResize r length) fun _ => .done .returned

/-- A buffer, and two objects that refer to themselves, the first of which has a finalizer that resizes the
buffer. The client has dropped both of them, and resizes the buffer when there is no room for it. -/
def swollen : World (Unit × List Moment) :=
  let host := Host.resizing ⟨0, 0⟩ 5
  let start := Heap.empty { maxBytes := 1000 }
  let w := chronicle host 5 (.allocBuffer 1 true) ⟨start, (), [⟨start, none⟩]⟩
  let w := chronicle host 5 .registerNative w
  let w := chronicle host 5 (.allocObject none) w
  let w := chronicle host 5 (.setFinalizer ⟨1, 0⟩ (.native ⟨0⟩)) w
  let w := chronicle host 5 (.intern "k" false) w
  let w := chronicle host 5 (.putProp ⟨1, 0⟩ ⟨3, 0⟩ (.ref ⟨1, 0⟩)) w
  let w := chronicle host 5 (.release (.ref ⟨1, 0⟩)) w
  let w := chronicle host 5 (.allocObject none) w
  let w := chronicle host 5 (.putProp ⟨4, 0⟩ ⟨3, 0⟩ (.ref ⟨4, 0⟩)) w
  let w := chronicle host 5 (.release (.ref ⟨4, 0⟩)) w
  chronicle host 5 (.bufferResize ⟨0, 0⟩ 250) w

theorem chronicled_swollen : Chronicled (.resizing ⟨0, 0⟩ 5) swollen := by
  unfold swollen
  repeat' refine Chronicled.next ?_ _ _
  exact .start _ ()

/-- The emergency pass frees the second object, and the finalizer of the first one resizes the buffer before
the client's operation goes on. -/
theorem bytes_accounted_swollen : Chronicled (.resizing ⟨0, 0⟩ 5) swollen ∧
    swollen.heap.arena.ByteExact ∧
    (swollen.host.2.drop 10).map (fun m => (m.heap.arena.bytesAt 0, m.heap.arena.usedBytes)) =
      [(177, 925), (177, 733), (181, 737), (426, 982)] :=
  ⟨chronicled_swollen, (bytes_accounted _ _ chronicled_swollen).1, by decide +kernel⟩

end CountedHeap
