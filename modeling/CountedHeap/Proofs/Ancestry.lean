import CountedHeap.Proofs.Arena.Ancestry
import CountedHeap.Proofs.Keep.Threads
import CountedHeap.Proofs.Representation

/-!
# Ancestry

Only `checkPrototype` looks at the chain of a prototype, and only when an object that is there gets
another one. Objects and threads that are made get theirs from what has been checked before the emergency
pass of the allocation, so that it may have been freed meanwhile. A chain still never leads back, for
nothing refers to a cell before it is made, and what a stale handle has named never comes again.

* `ancestry`: the course of a heap whose prototypes are in order.
* `passes_place`, `passes_linkPrototype`, `passes_storeBuiltin`: the steps that set links.
* `ancestry_kept`: the course is kept.
* `Heap.follow`, `Heap.Ancestral`: what this says about chains that are followed.
* `prototypes_acyclic`: this holds in every run.
-/

namespace CountedHeap

open Heap (Goes)

variable {σ : Type}

namespace Body

variable {b : Body}

theorem forebears_of_leaf (hb : b.isComposite = false) : b.forebears = [] := by
  cases b <;> first | rfl | cases hb

theorem isComposite_of_object? {o : Object} (hb : b.object? = some o) : b.isComposite = true := by
  cases b <;> first | rfl | cases hb

theorem object?_of_isComposite (hb : b.isComposite = true) : ∃ o, b.object? = some o := by
  cases b <;> first | exact ⟨_, rfl⟩ | cases hb

theorem proto?_modifyThread {f : Thread → Thread} (hf : ∀ t, (f t).object = t.object) :
    (b.modifyThread f).proto? = b.proto? := by
  cases b <;> simp [modifyThread, proto?, object?, hf]

end Body

theorem Builtins.refs_set {b : Builtins} {id : BuiltinId} {o : Option Handle} {p : Handle}
    (hp : p ∈ (b.set id o).refs) : p ∈ b.refs ∨ o = some p := by
  cases id <;> simp only [set, refs, List.mem_append, Option.mem_toList] at hp ⊢ <;> grind

theorem Heap.object_iff_names {h : Heap} {r : Handle} {o : Object} :
    h.object r = .ok o ↔ ∃ b, h.arena.books.Names r b ∧ b.object? = some o := by
  rw [object_eq_ok]
  constructor
  · rintro ⟨c, hc, ho⟩
    exact ⟨c.body, (Arena.holds_of_get? hc).names, ho⟩
  · rintro ⟨b, hb, ho⟩
    obtain ⟨n, hn⟩ := Arena.books_names.mp hb
    obtain ⟨c, hc, -, rfl⟩ := hn.get?
    exact ⟨c, hc, ho⟩

/-- Prototypes are in order, as long as no generation has come round. -/
def ancestry : Course :=
  .booked (fun h => h.arena.FreeOk ∧ (h.arena.books.Unwrapped → h.arena.books.Lineal)) fun _ _ => True

namespace ancestry

open Course (Passes)

variable {h h₀ h' : Heap} {r : Handle} {b : Body} {length : ℕ}

/-! ## Steps -/

/-- What is looked up has been given out. -/
theorem issued_of_object {o : Object} (hu : h.arena.books.Unwrapped) (ho : h.object r = .ok o) :
    h.arena.books.Issued r := by
  obtain ⟨b, hb, hobject⟩ := Heap.object_iff_names.mp ho
  exact hb.issued hu (Body.isComposite_of_object? hobject)

theorem object_of_checkProto {proto : Option Handle} (hc : h.checkProto proto = .ok ()) :
    ∀ p ∈ proto, ∃ o, h.object p = .ok o := by
  rintro p rfl
  unfold Heap.checkProto at hc
  cases ho : h.object p with
  | error e => simp [ho, Except.map] at hc
  | ok o => exact ⟨o, rfl⟩

theorem passes_of_goes (hg : Goes h h') (hl : h.arena.FreeOk → h'.arena.books.Unwrapped →
    h.arena.books.Lineal → h'.arena.books.Lineal) : ancestry.Passes h h' := by
  rintro ⟨hfree, hlineal⟩
  have hlater := hg.later hfree
  exact ⟨⟨hg.free hfree, fun hu => hl hfree hu (hlineal (hu.earlier hlater))⟩, hlater⟩

/-- The contents of a cell change, but not its prototype, and its built-ins only get others that have been
given out. -/
theorem passes_modifyBody {f : Body → Body} {i : ℕ} (hf : Body.Alter f)
    (hproto : ∀ b, (f b).proto? = b.proto?)
    (hbuiltins : h.arena.books.Unwrapped → ∀ b, ∀ p ∈ (f b).builtins.refs,
      p ∈ b.builtins.refs ∨ h.arena.books.Issued p) :
    ancestry.Passes h (h.modifyAt i (·.modifyBody f)) := by
  have hbooks : (h.modifyAt i (·.modifyBody f)).arena.books = h.arena.books.edit i f :=
    Arena.books_modifyBody f
  refine passes_of_goes (.modifyBody hf) fun _ hu hl => ?_
  have hlater : h.arena.books.Later (h.arena.books.edit i f) := .edit hf.kind hf.text
  rw [hbooks] at hu ⊢
  refine hl.later hlater fun q b' hq => ?_
  obtain ⟨b, hb, rfl | ⟨-, rfl⟩⟩ := Books.names_edit hq
  · exact ⟨b', hb, rfl, fun p hp => .inl hp⟩
  · exact ⟨b, hb, hproto b, hbuiltins (hu.earlier hlater) b⟩

theorem passes_of_books (hfree : h.arena.FreeOk → h'.arena.FreeOk)
    (hbooks : h'.arena.books = h.arena.books) : ancestry.Passes h h' :=
  passes_of_goes ⟨hfree, fun _ => hbooks ▸ .refl⟩ fun _ _ hl => hbooks ▸ hl

theorem passes_retainAll {rs : List Handle} : ancestry.Passes h (h.retainAll rs) :=
  passes_of_books (Goes.retainAll : Goes h (h.retainAll rs)).free Heap.books_retainAll

theorem passes_shift (hs : Heap.Shift h h') : ancestry.Passes h h' := by
  cases hs with
  | touch ht =>
    cases ht with
    | retain r => exact (passes_retainAll : ancestry.Passes h (h.retainAll [r]))
    | body i hf =>
      exact passes_modifyBody (Body.Akin.alter hf) (fun b => (hf b).proto) fun _ b p hp =>
        .inl ((hf b).builtins ▸ hp)
    | aside harena _ _ _ _ _ _ => exact passes_of_books (fun hf => harena ▸ hf) (by rw [harena])
  | thread t hframe _ _ =>
    refine passes_modifyBody Body.alter_modifyThread
      (fun b => Body.proto?_modifyThread fun x => (hframe x).1) fun _ b p hp => .inl ?_
    cases b with
    | thread x =>
      change p ∈ x.builtins.refs
      rw [← (hframe x).2.1]
      exact hp
    | object _ => exact hp
    | string _ => exact hp
    | buffer _ => exact hp
  | current c => exact passes_of_books id rfl

theorem shifting : (ancestry.simulation σ).Shifting :=
  fun _ _ hs => Passes.of_steps (fun _ _ => passes_shift) hs

/-- A cell is made whose prototype and built-ins have been given out. -/
theorem passes_place (hb : h.arena.books.Unwrapped → ∀ p ∈ b.forebears, h.arena.books.Issued p) :
    ancestry.Passes h (h.place b).1 := by
  refine passes_of_goes .place fun hfree hu hl => ?_
  have hbooks : (h.place b).1.arena.books = h.arena.books.enter h.arena.nextSlot b :=
    Arena.books_place hfree
  have hvacant := Arena.vacant_iff_books.mp (Arena.vacant_place hfree)
  have hlater : h.arena.books.Later (h.arena.books.enter h.arena.nextSlot b) := .enter hvacant
  rw [hbooks] at hu ⊢
  have hu₀ := hu.earlier hlater
  refine hl.enter hlater (Books.not_given (n := _) (fun t ht => ⟨hvacant t ht, ?_⟩) ?_)
    (fun q b' hq => Books.names_enter hq) (hb hu₀)
  · rw [ht]
    rfl
  · exact hu _ _ (Function.update_self ..)

/-- A chain that has been followed to its end has not led to the cell. -/
theorem not_reaches_of_checkChain {n : ℕ} {proto : Option Handle}
    (hc : h.checkChain r n proto = .ok ()) :
    ∀ p ∈ proto, ¬ Relation.ReflTransGen h.arena.books.Inherits p r := by
  induction n generalizing proto with
  | zero =>
    rintro p rfl
    unfold Heap.checkChain at hc
    split at hc <;> cases hc
  | succ n ih =>
    rintro p rfl hchain
    unfold Heap.checkChain at hc
    split at hc
    · cases hc
    · cases ho : h.object p with
      | error e => simp [ho] at hc
      | ok o =>
        rw [ho] at hc
        rcases Relation.ReflTransGen.cases_head hchain with rfl | ⟨q, ⟨b, hb, hq⟩, hrest⟩
        · exact absurd rfl ‹¬ _ = _›
        · obtain ⟨b', hb', ho⟩ := Heap.object_iff_names.mp ho
          obtain rfl := hb.unique hb'
          have hproto : o.proto = some q := by
            unfold Body.proto? at hq
            rwa [ho] at hq
          exact ih hc q hproto hrest

/-- A cell gets another prototype, whose chain has been followed to its end. -/
theorem passes_linkPrototype {proto old : Option Handle} (hc : h.checkPrototype r proto = .ok old) :
    ancestry.Passes h (h.linkPrototype r proto) := by
  unfold Heap.checkPrototype at hc
  simp only [Heap.bind_eq_ok] at hc
  obtain ⟨o, ho, _, hproto, _, hchain, -⟩ := hc
  obtain ⟨b₀, hb₀, -⟩ := Heap.object_iff_names.mp ho
  have hbooks : (h.linkPrototype r proto).arena.books =
      h.arena.books.edit r.index (·.modifyObject ({ · with proto := proto })) := by
    have hretained : (h.retainAll proto.toList).arena.books = h.arena.books := Heap.books_retainAll
    rw [← hretained]
    exact Arena.books_modifyBody _
  refine passes_of_goes .linkPrototype fun hfree hu hl => ?_
  have hgoes : Goes h (h.linkPrototype r proto) := .linkPrototype
  have hlater := hgoes.later hfree
  have hu₀ := hu.earlier hlater
  have hlinked : ∀ p ∈ proto, h.arena.books.Issued p ∧
      ¬ Relation.ReflTransGen h.arena.books.Inherits p r := by
    intro p hp
    obtain ⟨o, ho⟩ := object_of_checkProto hproto p hp
    exact ⟨issued_of_object hu₀ ho, not_reaches_of_checkChain hchain p hp⟩
  refine hl.relink hlater (fun q b' hq => ?_) hlinked
  rw [hbooks] at hq
  obtain ⟨b, hb, rfl | ⟨hi, rfl⟩⟩ := Books.names_edit hq
  · exact ⟨b', hb, rfl, .inl rfl⟩
  · have hqr : q = r := hb₀.eq_of_index hb hi
    refine ⟨b, hb, ?_, ?_⟩
    · cases b <;> rfl
    · cases b with
      | object _ => exact .inr ⟨hqr, rfl⟩
      | thread _ => exact .inr ⟨hqr, rfl⟩
      | string _ => exact .inl rfl
      | buffer _ => exact .inl rfl

/-- A thread gets another built-in, which has been looked up. -/
theorem passes_storeBuiltin {id : BuiltinId} {o old : Option Handle}
    (hc : h.checkBuiltin r id o = .ok old) : ancestry.Passes h (h.storeBuiltin r id o) := by
  unfold Heap.checkBuiltin at hc
  simp only [Heap.bind_eq_ok] at hc
  obtain ⟨_, hobjects, -⟩ := hc
  have hstored : ancestry.Passes h
      (h.modifyThread r fun x => { x with builtins := x.builtins.set id o }) := by
    refine passes_modifyBody Body.alter_modifyThread
      (fun b => Body.proto?_modifyThread fun _ => rfl) fun hu b p hp => ?_
    cases b with
    | thread x =>
      rcases Builtins.refs_set hp with hp | hp
      · exact .inl hp
      · obtain ⟨o', ho⟩ := Heap.objects_of_checkObjects hobjects p (Option.mem_toList.mpr hp)
        exact .inr (issued_of_object hu ho)
    | object _ => exact .inl hp
    | string _ => exact .inl hp
    | buffer _ => exact .inl hp
  exact hstored.trans passes_retainAll

theorem passes_resizeBuffer (hl : h₀.arena.books.Later h.arena.books) {c : Buffer}
    (hr : h₀.buffer r = .ok c) (hlive : h.isLive r = true) :
    ancestry.Passes h (h.resizeBuffer r length) := by
  have hgoes : Goes h (h.resizeBuffer r length) := .resizeBuffer hl hr hlive
  refine passes_of_goes hgoes fun hfree hu hlineal => ?_
  refine hlineal.later (hgoes.later hfree) fun q b' hq => ?_
  rw [Heap.books_resizeBuffer] at hq
  obtain ⟨b, hb, rfl | ⟨-, rfl⟩⟩ := Books.names_edit hq
  · exact ⟨b', Books.names_account hb, rfl, fun p hp => .inl hp⟩
  · refine ⟨b, Books.names_account hb, ?_, fun p hp => .inl ?_⟩
    · cases b <;> rfl
    · cases b <;> exact hp

/-! ## What is made -/

section

variable {E : Engine (σ × List Moment)} (hE : (ancestry.simulation σ).Agree E E)
include hE

theorem lift_alloc (hb : b.forebears = []) : (ancestry.simulation σ).Lift (E.alloc b) (E.alloc b) := by
  refine Course.lift_iff.mpr fun w hw => ?_
  refine (Course.alloc_noted hE hw fun h _ _ => passes_place fun _ p hp => ?_).mono
    (fun _ _ hw' => hw') fun _ _ hw' => hw'.1
  rw [hb] at hp
  cases hp

/-- The prototype is looked up before room is made for the object. -/
theorem lift_allocObjectWith {o : Object} :
    (ancestry.simulation σ).Lift (E.allocObjectWith o) (E.allocObjectWith o) := by
  refine Course.lift_iff.mpr fun w hw => ?_
  unfold Engine.allocObjectWith
  simp only [meets_bind, meets_check]
  refine ⟨fun _ _ => ⟨hw, ancestry.refl _⟩, fun _ hproto => ?_⟩
  refine (Course.alloc_noted hE hw fun h hleads _ => passes_place fun hu p hp => ?_).mono
    (fun _ _ hw' => hw') fun r w' hw' => ?_
  · have hp' : p ∈ o.proto := by
      simpa [Body.forebears, Body.proto?, Body.object?, Body.builtins, Builtins.refs] using hp
    obtain ⟨o', ho⟩ := object_of_checkProto hproto p hp'
    exact (issued_of_object (hu.earlier hleads) ho).later hleads
  · obtain ⟨⟨hw', hleads⟩, -⟩ := hw'
    obtain ⟨hw'', hleads'⟩ := hw'.go (passes_retainAll : ancestry.Passes _ (w'.heap.retainAll o.refs))
    simp only [meets_surely, after_modifyHeap, meets_pure]
    exact ⟨hw'', ancestry.trans _ _ _ hleads hleads'⟩

/-- The built-ins are copied before room is made for the thread. -/
theorem lift_allocThread {source : Option Handle} :
    (ancestry.simulation σ).Lift (E.allocThread source) (E.allocThread source) := by
  refine Course.lift_iff.mpr fun w hw => ?_
  unfold Engine.allocThread
  simp only [meets_bind, meets_check, meets_surely, after_query]
  refine ⟨fun _ _ => ⟨hw, ancestry.refl _⟩, fun builtins hbuiltins => ?_⟩
  refine (Course.alloc_noted hE hw fun h hleads _ => passes_place fun hu p hp => ?_).mono
    (fun _ _ hw' => hw') fun r w' hw' => ?_
  · have hp' : p ∈ builtins.refs := by
      rcases List.mem_append.mp hp with hp | hp
      · exact List.mem_append_right _ hp
      · exact hp
    refine Books.Issued.later ?_ hleads
    have hlineal := hw.good.2 (hu.earlier hleads)
    cases source with
    | none =>
      cases hbuiltins
      cases hp'
    | some t =>
      change (w.heap.thread t).map (·.builtins) = .ok builtins at hbuiltins
      cases ht : w.heap.thread t with
      | error e => simp [ht, Except.map] at hbuiltins
      | ok x =>
        rw [ht] at hbuiltins
        cases hbuiltins
        obtain ⟨header, hx⟩ := Heap.thread_eq_ok.mp ht
        exact hlineal.issued t _ (Arena.holds_of_get? hx).names p (List.mem_append_right _ hp')
  · obtain ⟨⟨hw', hleads⟩, -⟩ := hw'
    simp only [after_modifyHeap, meets_pure]
    obtain ⟨hw'', hleads'⟩ := hw'.go passes_retainAll
    exact ⟨hw'', ancestry.trans _ _ _ hleads hleads'⟩

theorem lift_setPrototype {proto : Option Handle} :
    (ancestry.simulation σ).Lift (E.setPrototype r proto) (E.setPrototype r proto) := by
  refine Course.lift_iff.mpr fun w hw => ?_
  unfold Engine.setPrototype
  simp only [meets_bind, meets_check, meets_surely, after_modifyHeap]
  refine ⟨fun _ _ => ⟨hw, ancestry.refl _⟩, fun old hc => ?_⟩
  obtain ⟨hw', hleads⟩ := hw.go (passes_linkPrototype hc)
  exact (hE.releaseAll _ hw').mono fun _ _ hw'' => ⟨hw''.1, ancestry.trans _ _ _ hleads hw''.2⟩

theorem lift_setBuiltin {id : BuiltinId} {o : Option Handle} :
    (ancestry.simulation σ).Lift (E.setBuiltin r id o) (E.setBuiltin r id o) := by
  refine Course.lift_iff.mpr fun w hw => ?_
  unfold Engine.setBuiltin
  simp only [meets_bind, meets_check, meets_surely, after_modifyHeap]
  refine ⟨fun _ _ => ⟨hw, ancestry.refl _⟩, fun old hc => ?_⟩
  obtain ⟨hw', hleads⟩ := hw.go (passes_storeBuiltin hc)
  exact (hE.releaseAll _ hw').mono fun _ _ hw'' => ⟨hw''.1, ancestry.trans _ _ _ hleads hw''.2⟩

theorem makes : (ancestry.simulation σ).Makes E E where
  leaf hb := lift_alloc hE (Body.forebears_of_leaf hb)
  object := lift_allocObjectWith hE
  thread := lift_allocThread hE
  link := lift_setPrototype hE
  builtin := lift_setBuiltin hE
  resize := Course.lift_bufferResize hE fun _ _ _ hl hr hlive _ => passes_resizeBuffer hl hr hlive

end

end ancestry

/-- Wherever anyone looks, prototypes are in order. -/
theorem ancestry_kept : ancestry.Kept where
  empty config := by
    have hnone : ∀ r b, ¬ (Heap.empty config).arena.books.Names r b := by
      rintro r b ⟨t, ht, -⟩
      cases ht
    refine ⟨(Arena.Sound.empty config.maxBytes).free, fun _ => ⟨fun r b hr => (hnone r b hr).elim,
      fun r hr => ?_⟩⟩
    obtain ⟨q, ⟨b, hb, -⟩, -⟩ := Relation.TransGen.head'_iff.mp hr
    exact hnone r b hb
  withers _ _ hw := ancestry.passes_of_goes (.withers hw) fun _ _ hl =>
    hl.later hw.books.later fun _ b' hq => ⟨b', hw.books.names hq, rfl, fun _ hp => .inl hp⟩
  shifts := ancestry.shifting (σ := Unit)
  flag _ _ := ancestry.passes_of_books id rfl
  reroots _ _ _ := ancestry.passes_of_books id rfl
  rekey _ _ := ancestry.passes_of_books id rfl
  makes hE := ancestry.makes hE
  returned _ _ _ _ _ := fun _ _ _ _ _ => trivial

/-! ## Chains that are followed -/

namespace Heap

variable {h : Heap} {r p q : Handle} {o : Object} {n : ℕ}

/-- Prototypes are followed through at most as many cells as the first argument says: the cells that are
visited, and the handle that comes next. -/
def follow (h : Heap) : ℕ → Option Handle → List Handle × Option Handle
  | n + 1, some r =>
    match h.object r with
    | .ok o => (r :: (h.follow n o.proto).1, (h.follow n o.proto).2)
    | .error _ => ([], some r)
  | _, next => ([], next)

/-- From every object and every thread, prototypes lead through cells none of which comes twice. After as
many steps as there are composite cells no prototype is left, or one that has been freed. -/
def Ancestral (h : Heap) : Prop :=
  ∀ r o, h.object r = .ok o → ∀ n, (h.follow n (some r)).1.Nodup ∧
    (h.arena.compositeCount ≤ n → ∀ q ∈ (h.follow n (some r)).2, h.isLive q = false)

theorem follow_some (ho : h.object r = .ok o) : h.follow (n + 1) (some r) =
    (r :: (h.follow n o.proto).1, (h.follow n o.proto).2) := by
  simp [follow, ho]

theorem follow_none : h.follow n none = ([], none) := by
  cases n <;> rfl

theorem follow_error {e : HeapError} (ho : h.object r = .error e) :
    h.follow n (some r) = ([], some r) := by
  cases n <;> simp [follow, ho]

theorem inherits_of_proto (ho : h.object r = .ok o) (hp : o.proto = some p) :
    h.arena.books.Inherits r p := by
  obtain ⟨b, hb, hobject⟩ := object_iff_names.mp ho
  refine ⟨b, hb, ?_⟩
  unfold Body.proto?
  rw [hobject]
  exact hp

/-- The cells that are visited are objects and threads, which the chain leads to. -/
theorem reaches_of_follow (hq : q ∈ (h.follow n (some r)).1) :
    Relation.ReflTransGen h.arena.books.Inherits r q ∧ ∃ o, h.object q = .ok o := by
  induction n generalizing r with
  | zero => cases hq
  | succ n ih =>
    cases ho : h.object r with
    | error e => simp [follow_error ho] at hq
    | ok o =>
      rw [follow_some ho] at hq
      rcases List.mem_cons.mp hq with rfl | hq
      · exact ⟨.refl, o, ho⟩
      · cases hp : o.proto with
        | none => simp [hp, follow_none] at hq
        | some p =>
          rw [hp] at hq
          obtain ⟨hchain, hobject⟩ := ih hq
          exact ⟨hchain.head (inherits_of_proto ho hp), hobject⟩

theorem nodup_follow (hl : h.arena.books.Lineal) : (h.follow n (some r)).1.Nodup := by
  induction n generalizing r with
  | zero => exact List.nodup_nil
  | succ n ih =>
    cases ho : h.object r with
    | error e => simp [follow_error ho]
    | ok o =>
      rw [follow_some ho]
      cases hp : o.proto with
      | none => simp [follow_none]
      | some p =>
        refine List.nodup_cons.mpr ⟨fun hr => ?_, ih⟩
        exact hl.acyclic r (.head' (inherits_of_proto ho hp) (reaches_of_follow hr).1)

/-- Where the walk stops short of its end, it has visited as many cells as it may, and would go on. -/
theorem length_follow {next : Option Handle} (hq : (h.follow n next).2 = some q)
    (ho : h.object q = .ok o) : (h.follow (n + 1) next).1.length = n + 1 := by
  induction n generalizing next with
  | zero =>
    obtain rfl : next = some q := hq
    rw [follow_some ho]
    rfl
  | succ n ih =>
    cases next with
    | none => simp [follow_none] at hq
    | some r =>
      cases hr : h.object r with
      | error e =>
        rw [follow_error hr] at hq
        cases hq
        rw [hr] at ho
        cases ho
      | ok o' =>
        rw [follow_some hr] at hq ⊢
        exact congrArg Nat.succ (ih hq)

/-- What comes after the cells that are visited is where the walk starts, or a prototype. -/
theorem next_of_follow {next : Option Handle} (hq : (h.follow n next).2 = some q) :
    next = some q ∨ ∃ r, h.arena.books.Inherits r q := by
  induction n generalizing next with
  | zero => exact .inl hq
  | succ n ih =>
    cases next with
    | none => simp [follow_none] at hq
    | some r =>
      cases hr : h.object r with
      | error e =>
        rw [follow_error hr] at hq
        exact .inl hq
      | ok o =>
        rw [follow_some hr] at hq
        rcases ih hq with hp | hlater
        · exact .inr ⟨r, inherits_of_proto hr hp⟩
        · exact .inr hlater

/-- There are no more objects and threads than composite cells. -/
theorem length_le_compositeCount (hs : h.Sound) {l : List Handle} (hnd : l.Nodup)
    (hl : ∀ r ∈ l, ∃ o, h.object r = .ok o) : l.length ≤ h.arena.compositeCount := by
  have hrepresents := hs.arena.represents
  have hinj : ∀ r ∈ l, ∀ q ∈ l, r.index = q.index → r = q := by
    intro r hr q hq hi
    obtain ⟨o, ho⟩ := hl r hr
    obtain ⟨o', ho'⟩ := hl q hq
    obtain ⟨b, hb, -⟩ := object_iff_names.mp ho
    obtain ⟨b', hb', -⟩ := object_iff_names.mp ho'
    exact hb'.eq_of_index hb hi
  have hsub : l.map Handle.index ⊆ h.arena.members .allocated ++ h.arena.members .queue := by
    intro i hi
    obtain ⟨r, hr, rfl⟩ := List.mem_map.mp hi
    obtain ⟨o, ho⟩ := hl r hr
    obtain ⟨c, hc, hobject⟩ := object_eq_ok.mp ho
    exact List.mem_append.mpr ((hrepresents.composite r.index).mpr
      ⟨c, Arena.cellAt?_of_get? hc, Body.isComposite_of_object? hobject⟩)
  have hlength := (List.subperm_of_subset (hnd.map_on hinj) hsub).length_le
  rw [List.length_map, List.length_append, ← (hrepresents.doubly .allocated).length,
    ← (hrepresents.doubly .queue).length] at hlength
  exact hlength

theorem ancestral_of_lineal (hs : h.Sound) (hu : h.arena.books.Unwrapped)
    (hl : h.arena.books.Lineal) : h.Ancestral := by
  intro r o ho n
  refine ⟨nodup_follow hl, fun hn q hq => ?_⟩
  rw [Bool.eq_false_iff]
  intro hlive
  obtain ⟨b, hb⟩ := Arena.isLive_iff_names.mp hlive
  have hissued : h.arena.books.Issued q := by
    rcases next_of_follow hq with hstart | ⟨r', b', hb', hp⟩
    · obtain rfl := Option.some.inj hstart
      exact ancestry.issued_of_object hu ho
    · exact hl.issued r' b' hb' q (List.mem_append_left _ (by rw [hp]; exact .head _))
  obtain ⟨o', ho'⟩ := Body.object?_of_isComposite (hissued.composite hu hb)
  have hobject : h.object q = .ok o' := object_iff_names.mpr ⟨b, hb, ho'⟩
  have hlong := length_follow hq hobject
  have hshort := length_le_compositeCount hs (nodup_follow hl (n := n + 1) (r := r))
    fun r' hr' => (reaches_of_follow hr').2
  omega

end Heap

/-- In every run, as long as no slot has been freed 2^32 times, whatever stale handles the client passes and
whatever finalizers do: wherever anyone looks at the heap, prototypes that are followed from an object or a
thread never lead to the same cell twice. -/
theorem prototypes_acyclic (host : Host σ) (w : World (σ × List Moment)) (hw : Chronicled host w)
    (hslots : ∀ s ∈ w.heap.arena.slots, s.freed < 2 ^ 32) :
    w.heap.Ancestral ∧ ∀ m ∈ w.host.2, m.heap.Ancestral := by
  obtain ⟨hs, -, hall⟩ := hw.sound
  have hnoted := ancestry_kept.noted hw
  have hu := Arena.unwrapped_of_slots hslots
  refine ⟨Heap.ancestral_of_lineal hs hu (hnoted.good.2 hu), fun m hm => ?_⟩
  have hearlier := hu.earlier (hnoted.since m hm)
  exact Heap.ancestral_of_lineal (hall m hm) hearlier ((hnoted.each m hm).1.2 hearlier)

/-- Two objects that refer to each other have been dropped, and there is no room for a third one. It is made
with the first one as its prototype. -/
def orphaned : World (Unit × List Moment) :=
  let host : Host Unit := .idle
  let start := Heap.empty { maxBytes := 700 }
  let w := chronicle host 5 (.allocObject none) ⟨start, (), [⟨start, none⟩]⟩
  let w := chronicle host 5 (.allocObject none) w
  let w := chronicle host 5 (.intern "k" false) w
  let w := chronicle host 5 (.putProp ⟨0, 0⟩ ⟨2, 0⟩ (.ref ⟨1, 0⟩)) w
  let w := chronicle host 5 (.putProp ⟨1, 0⟩ ⟨2, 0⟩ (.ref ⟨0, 0⟩)) w
  let w := chronicle host 5 (.release (.ref ⟨0, 0⟩)) w
  let w := chronicle host 5 (.release (.ref ⟨1, 0⟩)) w
  chronicle host 5 (.allocObject (some ⟨0, 0⟩)) w

theorem chronicled_orphaned : Chronicled .idle orphaned := by
  unfold orphaned
  repeat' refine Chronicled.next ?_ _ _
  exact .start _ ()

/-- The emergency pass has freed the prototype, and the new object stands where it stood. -/
theorem prototypes_acyclic_orphaned : Chronicled .idle orphaned ∧
    (∀ s ∈ orphaned.heap.arena.slots, s.freed < 2 ^ 32) ∧ orphaned.heap.Ancestral ∧
    orphaned.heap.follow 2 (some ⟨0, 1⟩) = ([⟨0, 1⟩], some ⟨0, 0⟩) := by
  have hslots : ∀ s ∈ orphaned.heap.arena.slots.toList, s.freed < 2 ^ 32 := by
    decide +kernel
  have hall : ∀ s ∈ orphaned.heap.arena.slots, s.freed < 2 ^ 32 :=
    fun s hs => hslots s (Array.mem_toList_iff.mpr hs)
  exact ⟨chronicled_orphaned, hall,
    (prototypes_acyclic .idle orphaned chronicled_orphaned hall).1, by decide +kernel⟩

end CountedHeap
