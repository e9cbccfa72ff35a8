import CountedHeap.Proofs.Arena.Given
import CountedHeap.Proofs.Heap.Tenures
import CountedHeap.Proofs.Invariance

/-!
# What names name

A catcher names the caught variable, a thread its resumer, and the heap its current thread. The catcher and
the heap count nothing, and a client may have given back what the thread counts, so that any of these cells
may have been freed. What is named is still a string or a thread, or nothing, as long as generations do not
come round; and the current thread runs, if it is there.

* `Heap.Bears`: what a step does to names.
* `Heap.Named`: names name what they should.
* `Named.stroke`, `Named.withers`, `Named.start`, `Named.resume`, …: what the steps preserve.
* `Reachable.named`: names name what they should between operations.
-/

namespace CountedHeap

open Heap (Withers)

variable {σ : Type}

namespace Heap

variable {h h' h'' : Heap} {t c r q : Handle} {i : ℕ} {b : Body} {o : Option Handle} {s : ThreadState}

/-! ## Steps -/

/-- What becomes of the books, where new cells only get slots that are free. -/
structure Bears (h h' : Heap) : Prop where
  free : h.arena.FreeOk → h'.arena.FreeOk
  books : h.arena.FreeOk → h.arena.books.Bears h'.arena.books

namespace Bears

theorem trans (h₁ : Bears h h') (h₂ : Bears h' h'') : Bears h h'' :=
  ⟨fun hf => h₂.free (h₁.free hf), fun hf => (h₁.books hf).trans (h₂.books (h₁.free hf))⟩

theorem of_books (hf : h.arena.FreeOk → h'.arena.FreeOk) (hb : h'.arena.books = h.arena.books) :
    Bears h h' :=
  ⟨hf, fun _ => hb ▸ .refl⟩

theorem retainAll {rs : List Handle} : Bears h (h.retainAll rs) :=
  of_books (Goes.retainAll : Goes h (h.retainAll rs)).free books_retainAll

theorem modifyBody {f : Body → Body} (hkind : ∀ b, (f b).kind = b.kind)
    (hcaught : ∀ b, ∀ q ∈ (f b).caughtNames, q ∈ b.caughtNames ∨ ∃ t, h.text q = .ok t) :
    Bears h (h.modifyAt i (·.modifyBody f)) := by
  refine ⟨(·.modifyAt _), fun _ => ?_⟩
  change h.arena.books.Bears (h.arena.modifyAt i (·.modifyBody f)).books
  rw [Arena.books_modifyBody]
  refine .edit hkind fun b q hq => (hcaught b q hq).imp_right ?_
  rintro ⟨t, ht⟩ hu
  obtain ⟨n, hn⟩ := Arena.texts_eq_some.mp (text_eq_ok.mp ht)
  exact hn.names.given hu rfl

theorem modifyThread {f : Thread → Thread} (hf : ∀ x, (f x).catchers = x.catchers) :
    Bears h (h.modifyThread t f) := by
  have hkind : ∀ b : Body, (b.modifyThread f).kind = b.kind := fun b => by cases b <;> rfl
  refine modifyBody hkind fun b q => Body.mem_caughtNames_modifyThread
    (P := fun q => ∃ t, h.text q = .ok t) fun x q hq => .inl ?_
  exact Thread.mem_caughtNames_of_subset (fun _ hc => hf x ▸ hc) hq

theorem setState : Bears h (h.setState t s) :=
  modifyThread fun _ => rfl

theorem setCurrent : Bears h (h.setCurrent o) :=
  of_books id rfl

theorem retain : Bears h (h.retain r) :=
  (retainAll : Bears h (h.retainAll [r]))

theorem touch (ht : Touch h h') : Bears h h' := by
  cases ht with
  | retain r => exact retain
  | body i hf hnames => exact modifyBody (fun b => (hf b).kind) hnames
  | aside harena _ _ _ _ _ _ => exact of_books (fun hf => harena ▸ hf) (by rw [harena])

theorem place (hb : b.caughtNames = []) : Bears h (h.place b).1 := by
  refine ⟨(·.place b), fun hf => ?_⟩
  change h.arena.books.Bears (h.arena.place b).1.books
  rw [Arena.books_place hf]
  exact .enter (Arena.vacant_iff_books.mp (Arena.vacant_place hf)) hb

theorem modifyObject {f : Object → Object} : Bears h (h.modifyObject r f) :=
  modifyBody (fun b => by cases b <;> rfl) fun _ _ hq => .inl (Body.caughtNames_modifyObject ▸ hq)

theorem resizeBuffer {length : ℕ} : Bears h (h.resizeBuffer r length) := by
  have haccount : Bears h (h.modifyArena (·.account r.index (Body.cellBytes + length))) := by
    refine ⟨(·.of_core rfl (Arena.core_account _)), fun _ => ?_⟩
    change h.arena.books.Bears (h.arena.account r.index _).books
    rw [Arena.books_account]
    exact .account
  exact haccount.trans (modifyBody (fun b => by cases b <;> rfl) fun _ _ hq =>
    .inl (Body.caughtNames_modifyBuffer ▸ hq))

theorem endThread : Bears h (h.endThread t o) := by
  have hend : Bears h (h.modifyThread t ({ · with state := .terminated, resumer := none })) :=
    .modifyThread fun _ => rfl
  exact endThread_induction (P := Bears h) hend (fun _ _ _ _ _ hb => hb.trans .setState)
    fun _ _ _ hb => hb.trans .setCurrent

theorem withers (hw : Withers h h') : Bears h h' :=
  ⟨hw.free, fun _ => .wanes hw.books⟩

end Bears

/-! ## Names -/

/-- Resumers, the current thread and the names of caught variables have been given out for threads and for
strings, as long as no generation has come round. A thread with a resumer runs or waits, and the current
thread runs if it has not been freed. -/
structure Named (h : Heap) : Prop where
  free : h.arena.FreeOk
  active : ∀ t s q, h.post t = some (s, some q) → s.isActive = true
  resumer : h.arena.books.Unwrapped → ∀ t s q, h.post t = some (s, some q) →
    h.arena.books.Given (· = .thread) q
  current : h.arena.books.Unwrapped → ∀ c, h.current = some c →
    h.arena.books.Given (· = .thread) c ∧ (h.isLive c = true → ∃ o, h.post c = some (.running, o))
  caught : h.arena.books.Unwrapped → ∀ r b, h.arena.books.Names r b → ∀ q ∈ b.caughtNames,
    h.arena.books.Given (· = .string) q

/-- What has been given out for a thread, and is live, is a thread. -/
theorem exists_post_of_given (hr : h.arena.books.Given (· = .thread) r) (hu : h.arena.books.Unwrapped)
    (hlive : h.isLive r = true) : ∃ p, h.post r = some p := by
  obtain ⟨n, b, hb⟩ := Arena.isLive_iff.mp hlive
  have hkind : b.kind = .thread := hr.kind hu hb.names
  cases b with
  | thread x => exact ⟨_, post_of_holds hb⟩
  | object _ => cases hkind
  | string _ => cases hkind
  | buffer _ => cases hkind

theorem given_of_post {p : ThreadState × Option Handle} (ht : h.post t = some p)
    (hu : h.arena.books.Unwrapped) : h.arena.books.Given (· = .thread) t := by
  obtain ⟨n, b, hb, hp⟩ := post_eq_some.mp ht
  refine hb.names.given hu ?_
  cases b with
  | thread x => rfl
  | object _ => cases hp
  | string _ => cases hp
  | buffer _ => cases hp

namespace Named

/-- Names go on to name what they should, if what is new does. -/
theorem step (hn : h.Named) (hb : Bears h h')
    (hposts : ∀ t s q, h'.post t = some (s, some q) → s.isActive = true ∧
      (h.arena.books.Unwrapped → h.arena.books.Given (· = .thread) q))
    (hcurrent : h.arena.books.Unwrapped → h'.arena.books.Unwrapped → ∀ c, h'.current = some c →
      h.arena.books.Given (· = .thread) c ∧
        (h'.isLive c = true → ∃ o, h'.post c = some (.running, o))) : h'.Named := by
  have hbears := hb.books hn.free
  refine ⟨hb.free hn.free, fun t s q hq => (hposts t s q hq).1, fun hu t s q hq => ?_,
    fun hu c hc => ?_, fun hu r b' hr q hq => ?_⟩
  · exact ((hposts t s q hq).2 (hbears.ages.unwrapped hu)).ages hbears.ages
  · exact (hcurrent (hbears.ages.unwrapped hu) hu c hc).imp_left (·.ages hbears.ages)
  · rcases hbears.caught hu r b' hr q hq with ⟨b, hold, hq⟩ | hgiven
    · exact (hn.caught (hbears.ages.unwrapped hu) r b hold q hq).ages hbears.ages
    · exact hgiven

theorem empty {config : Config} : Named (.empty config) := by
  have hnone : ∀ t, (Heap.empty config).post t = none := fun _ => rfl
  refine ⟨(kept_empty (s := False)).sound.arena.free, fun t s q ht => ?_, fun _ t s q ht => ?_,
    fun _ c hc => ?_, fun _ r b hr => ?_⟩
  · rw [hnone] at ht
    cases ht
  · rw [hnone] at ht
    cases ht
  · cases hc
  · obtain ⟨t, ht, -⟩ := hr
    cases ht

/-- Where threads stand where they stood, the current thread is not replaced. -/
theorem stands (hn : h.Named) (hb : Bears h h') (hs : Stands h h') : h'.Named := by
  refine hn.step hb (fun t s q ht => ?_) fun hu hu' c hc => ?_
  · rcases hs.new t _ ht with hold | hnew
    · exact ⟨hn.active t s q hold, fun hu => hn.resumer hu t s q hold⟩
    · cases hnew
  · rw [hs.current] at hc
    obtain ⟨hgiven, hruns⟩ := hn.current hu c hc
    refine ⟨hgiven, fun hlive => ?_⟩
    obtain ⟨b', hb'⟩ := Arena.isLive_iff_names.mp hlive
    rcases (hb.books hn.free).fresh hu' c b' hb' with hold | hnew
    · obtain ⟨o, ho⟩ := hruns (Arena.isLive_iff_names.mpr hold)
      exact ⟨o, hs.old c _ ho⟩
    · exact absurd hgiven (hnew _)

theorem touch (hn : h.Named) (ht : Touch h h') : h'.Named :=
  hn.stands (.touch ht) (ht.stands hn.free)

theorem place (hn : h.Named) (hb : b.post = none ∨ b.post = some (.inactive, none)) (hproper : b.Proper)
    (hcaught : b.caughtNames = []) : (h.place b).1.Named :=
  hn.stands (.place hcaught) ((Stroke.place h hb hproper).stands hn.free)

theorem retainAll (hn : h.Named) {rs : List Handle} : (h.retainAll rs).Named := by
  induction rs generalizing h with
  | nil => exact hn
  | cons r rs ih => exact ih (h := h.retain r) (hn.touch (.retain h r))

theorem linkPrototype (hn : h.Named) {proto : Option Handle} : (h.linkPrototype r proto).Named :=
  hn.retainAll.stands .modifyObject ((Stroke.link _ r proto).stands hn.retainAll.free)

theorem storeBuiltin (hn : h.Named) {id : BuiltinId} : (h.storeBuiltin t id o).Named := by
  unfold Heap.storeBuiltin
  refine Named.retainAll ?_
  exact hn.stands (.modifyThread fun _ => rfl) ((Stroke.builtin h t id o).stands hn.free)

theorem resizeBuffer (hn : h.Named) {length : ℕ} : (h.resizeBuffer r length).Named :=
  hn.stands .resizeBuffer ((Stroke.resize h r length).stands hn.free)

theorem withers (hn : h.Named) (hw : Withers h h') : h'.Named := by
  refine hn.step (.withers hw) (fun t s q ht => ?_) fun hu _ c hc => ?_
  · exact ⟨hn.active t s q (hw.post ht), fun hu => hn.resumer hu t s q (hw.post ht)⟩
  · obtain ⟨hgiven, hruns⟩ := hn.current hu c (hw.current_eq hc)
    refine ⟨hgiven, fun hlive => ?_⟩
    obtain ⟨o, ho⟩ := hruns (hw.live hlive)
    exact ⟨o, hw.post_current hc ho⟩

/-- Tables, flags and the key of finalizers name no threads. -/
theorem aside (hn : h.Named) (harena : h'.arena = h.arena) (hcurrent : h'.current = h.current) :
    h'.Named :=
  hn.stands (.of_books (fun hf => harena ▸ hf) (by rw [harena]))
    (.of_post (harena ▸ hn.free) hcurrent fun _ => post_congr (by rw [harena]))

/-! ### Switches -/

/-- A thread that is idle has no resumer. -/
theorem no_resumer (hn : h.Named) (ht : h.post t = some (s, o)) (hs : s.isActive = false) : o = none := by
  cases o with
  | none => rfl
  | some q =>
    have hactive := hn.active t s q ht
    rw [hs] at hactive
    cases hactive

/-- Only some threads stand elsewhere, and whichever is the current one runs. -/
theorem switch (hn : h.Named) (hb : Bears h h') (hcur : h'.current = some c)
    (hc : h.arena.books.Unwrapped → h.arena.books.Given (· = .thread) c)
    (hruns : ∃ o, h'.post c = some (.running, o))
    (hposts : ∀ t s q, h'.post t = some (s, some q) → h.post t = some (s, some q) ∨
      s.isActive = true ∧ (h.arena.books.Unwrapped → h.arena.books.Given (· = .thread) q)) :
    h'.Named := by
  refine hn.step hb (fun t s q ht => ?_) fun hu _ d hd => ?_
  · rcases hposts t s q ht with hold | hnew
    · exact ⟨hn.active t s q hold, fun hu => hn.resumer hu t s q hold⟩
    · exact hnew
  · obtain rfl : c = d := Option.some.inj (hcur.symm.trans hd)
    exact ⟨hc hu, fun _ => hruns⟩

theorem start (hn : h.Named) (hc : h.checkStart t = .ok ()) :
    ((h.setState t .running).setCurrent (some t)).Named := by
  obtain ⟨⟨o, ho⟩, -⟩ := posts_of_checkStart hc
  obtain rfl := hn.no_resumer ho rfl
  have hpost : ((h.setState t .running).setCurrent (some t)).post =
      Function.update h.post t (some (.running, none)) := post_setState ho _
  have hb : Bears h ((h.setState t .running).setCurrent (some t)) := .trans .setState .setCurrent
  refine hn.switch hb rfl (given_of_post ho) ⟨none, by rw [hpost, Function.update_self]⟩ ?_
  intro r s q hr
  by_cases hrt : r = t
  · rw [hpost, hrt, Function.update_self] at hr
    cases hr
  · rw [hpost, Function.update_of_ne hrt] at hr
    exact .inl hr

theorem resume {old : Option Handle} (hn : h.Named) (hr : h.checkResume t = .ok (c, old)) :
    old = none ∧ ((h.switchTo c t).setCurrent (some t)).Named := by
  obtain ⟨-, ⟨o, ho⟩, hne, s, hs, hidle⟩ := posts_of_checkResume hr
  have hpost : ((h.switchTo c t).setCurrent (some t)).post =
      Function.update (Function.update h.post c (some (.resumed, o))) t (some (.running, some c)) :=
    post_setCurrent.trans (post_switchTo ho hs hne)
  have hb : Bears h (h.switchTo c t) := by
    have hrun : Bears (h.setState c .resumed) ((h.setState c .resumed).modifyThread t
        ({ · with state := .running, resumer := some c })) := .modifyThread fun _ => rfl
    exact .trans .setState (hrun.trans .retain)
  refine ⟨hn.no_resumer hs (by rcases hidle with rfl | rfl <;> rfl),
    hn.switch (hb.trans .setCurrent) rfl (given_of_post hs) ⟨some c, by rw [hpost, Function.update_self]⟩ ?_⟩
  intro r s' q hr
  by_cases hrt : r = t
  · rw [hpost, hrt, Function.update_self] at hr
    cases hr
    exact .inr ⟨rfl, given_of_post ho⟩
  · rw [hpost, Function.update_of_ne hrt] at hr
    by_cases hrc : r = c
    · rw [hrc, Function.update_self] at hr
      cases hr
      exact .inr ⟨rfl, fun hu => hn.resumer hu c _ q ho⟩
    · rw [Function.update_of_ne hrc] at hr
      exact .inl hr

theorem yield (hn : h.Named) (hy : h.checkYield = .ok (c, r)) : (h.switchBack c r).Named := by
  obtain ⟨-, ho, o, hr⟩ := posts_of_checkYield hy
  have hne : c ≠ r := by
    rintro rfl
    rw [ho] at hr
    cases hr
  have hpost := post_switchBack ho hr hne
  have hb : Bears h (h.switchBack c r) := by
    have hwait : Bears h (h.modifyThread c ({ · with state := .yielded, resumer := none })) :=
      .modifyThread fun _ => rfl
    exact hwait.trans (.trans .setState .setCurrent)
  refine hn.switch hb rfl (given_of_post hr) ⟨o, by rw [hpost, Function.update_self]⟩ ?_
  intro t s q ht
  by_cases htr : t = r
  · rw [hpost, htr, Function.update_self] at ht
    cases ht
    exact .inr ⟨rfl, fun hu => hn.resumer hu r _ q hr⟩
  · rw [hpost, Function.update_of_ne htr] at ht
    by_cases htc : t = c
    · rw [htc, Function.update_self] at ht
      cases ht
    · rw [Function.update_of_ne htc] at ht
      exact .inl ht

/-! ### Threads that end -/

/-- The thread that has ended has no resumer any longer. -/
theorem ended (ht : h.post t = some (s, o)) : (h.modifyThread t
    ({ · with state := .terminated, resumer := none })).post =
      Function.update h.post t (some (.terminated, none)) :=
  post_modifyThread ht fun _ _ _ => ⟨rfl, rfl⟩

/-- The resumers of the others are what they were. -/
theorem post_of_ended {d : Handle}
    (hd : Function.update h.post t (some (.terminated, none)) d = some (s, some q)) :
    h.post d = some (s, some q) := by
  by_cases hdt : d = t
  · rw [hdt, Function.update_self] at hd
    cases hd
  · rwa [Function.update_of_ne hdt] at hd

section

variable (hn : h.Named)
include hn

/-- A thread ends that has no resumer. -/
theorem endThread_none (ht : h.post t = some (s, none)) : (h.endThread t none).Named := by
  have hpost := post_endThread_none ht
  have hcurrent : ∀ c, (h.endThread t none).current = some c → h.current = some c ∧ c ≠ t := by
    intro c hc
    rw [current_endThread, Option.none_or] at hc
    split at hc
    · cases hc
    · rename_i hne
      refine ⟨hc, ?_⟩
      rintro rfl
      exact hne hc
  refine hn.step .endThread (fun d s q hd => ?_) fun hu _ c hc => ?_
  · rw [hpost] at hd
    exact ⟨hn.active d s q (post_of_ended hd), fun hu => hn.resumer hu d s q (post_of_ended hd)⟩
  · obtain ⟨hc, hne⟩ := hcurrent c hc
    obtain ⟨hgiven, hruns⟩ := hn.current hu c hc
    refine ⟨hgiven, fun hlive => ?_⟩
    rw [hpost, Function.update_of_ne hne]
    exact hruns (isLive_endThread.symm.trans hlive)

/-- A thread ends, and its resumer runs again. -/
theorem endThread_wakes {p : ThreadState × Option Handle} (ht : h.post t = some (s, some r))
    (hr : Function.update h.post t (some (.terminated, none)) r = some p) :
    (h.endThread t (some r)).Named := by
  obtain ⟨s', o'⟩ := p
  have hpost := post_endThread_some ht hr
  refine hn.switch .endThread rfl (fun hu => hn.resumer hu t s r ht)
    ⟨o', by rw [hpost, Function.update_self]⟩ fun d s₁ q hd => ?_
  rw [hpost] at hd
  by_cases hdr : d = r
  · rw [hdr, Function.update_self] at hd
    cases hd
    exact .inr ⟨rfl, fun hu => hn.resumer hu r _ q (post_of_ended hr)⟩
  · rw [Function.update_of_ne hdr] at hd
    exact .inl (post_of_ended hd)

/-- A thread ends whose resumer is gone, and nothing else will have its name. -/
theorem endThread_alone (ht : h.post t = some (s, some r))
    (hr : Function.update h.post t (some (.terminated, none)) r = none) :
    (h.endThread t (some r)).Named := by
  have hpost := ended ht
  have hend : Bears h (h.modifyThread t ({ · with state := .terminated, resumer := none })) :=
    .modifyThread fun _ => rfl
  set h₁ := h.modifyThread t ({ · with state := .terminated, resumer := none })
  have hgone : h₁.post r = none := by rw [hpost, hr]
  have hasleep : h₁.wake r = h₁ := by
    unfold wake
    split
    · rename_i x hx
      rw [post_of_thread hx] at hgone
      cases hgone
    · rfl
  have he : h.endThread t (some r) = h₁.setCurrent (some r) :=
    congrArg (·.setCurrent (some r)) hasleep
  rw [he]
  refine hn.step (hend.trans .setCurrent) (fun d s q hd => ?_) fun hu hu' c hc => ?_
  · have hd : h₁.post d = some (s, some q) := hd
    rw [hpost] at hd
    exact ⟨hn.active d s q (post_of_ended hd), fun hu => hn.resumer hu d s q (post_of_ended hd)⟩
  · obtain rfl : r = c := Option.some.inj hc
    have hgiven := hn.resumer hu t s r ht
    refine ⟨hgiven, fun hlive => ?_⟩
    obtain ⟨p, hp⟩ := exists_post_of_given (hgiven.ages (hend.books hn.free).ages) hu' hlive
    rw [hgone] at hp
    cases hp

theorem endThread (ht : h.post t = some (s, o)) : (h.endThread t o).Named := by
  cases o with
  | none => exact hn.endThread_none ht
  | some r =>
    cases hr : Function.update h.post t (some (.terminated, none)) r with
    | some p => exact hn.endThread_wakes ht hr
    | none => exact hn.endThread_alone ht hr

end

end Named

end Heap

/-! ## Operations -/

open Heap (Named)

theorem touching_named : (keeping σ Named).Touching := by
  intro h h' ht hn
  induction ht with
  | refl => exact hn
  | tail _ hlast ih => exact ih.touch hlast

theorem rooting_named : (keeping σ Named).Rooting := by
  intro h h' hr hn
  induction hr with
  | refl => exact hn
  | tail _ hlast ih =>
    cases hlast with
    | touch ht => exact ih.touch ht
    | roots values free => exact ih.aside rfl rfl

section

variable {E' E : Engine σ} (h : (keeping σ Named).Agree E' E)
include h

theorem makes_named : (keeping σ Named).Makes E' E where
  leaf {body} hb := by
    cases body with
    | string t => exact h.alloc fun _ hn => hn.place (.inl rfl) trivial rfl
    | buffer b => exact h.alloc fun _ hn => hn.place (.inl rfl) trivial rfl
    | object o => cases hb
    | thread t => cases hb
  object := .allocObjectWith touching_named (h.alloc fun _ hn => hn.place (.inl rfl) trivial rfl)
  thread := .allocThread touching_named fun _ _ =>
    h.alloc fun _ hn => hn.place (.inr rfl) Thread.proper_create rfl
  link := h.setPrototype fun _ hn => hn.linkPrototype
  builtin := h.setBuiltin fun _ hn => hn.storeBuiltin
  resize := h.bufferResize fun _ hn => hn.resizeBuffer

/-- Threads are switched. -/
theorem switch_named {β : Type} {op : Operation β} (hop : op.switches) :
    (keeping σ Named).Lift (E'.perform op) (E.perform op) := by
  cases op
  case startThread t =>
    refine lift_keeping_iff.mpr fun w hn => ?_
    change Meets (startThread t) w _ _
    unfold startThread
    simp only [meets_bind, meets_check, meets_surely, after_modifyHeap]
    exact ⟨fun _ _ => hn, fun _ ht => hn.start ht⟩
  case resumeThread t =>
    refine lift_keeping_iff.mpr fun w hn => ?_
    change Meets (E.resumeThread t) w _ _
    unfold Engine.resumeThread
    simp only [meets_bind, meets_check]
    refine ⟨fun _ _ => hn, ?_⟩
    rintro ⟨c, old⟩ ht
    obtain ⟨rfl, hn'⟩ := hn.resume ht
    simp only [meets_surely, after_modifyHeap]
    exact after_pure.mpr hn'
  case yieldThread =>
    refine lift_keeping_iff.mpr fun w hn => ?_
    change Meets E.yieldThread w _ _
    unfold Engine.yieldThread
    simp only [meets_bind, meets_check]
    refine ⟨fun _ _ => hn, ?_⟩
    rintro ⟨c, r⟩ hy
    simp only [meets_surely, after_modifyHeap]
    exact h.release r _ (hn.yield hy)
  case terminateThread t =>
    change (keeping σ Named).Lift (E'.terminateThread t) (E.terminateThread t)
    rw [Engine.terminateThread_eq, Engine.terminateThread_eq]
    refine .bind (h.unwindAll touching_named) fun _ => lift_keeping_iff.mpr fun w hn => ?_
    simp only [meets_bind, meets_check, meets_surely, after_modifyHeap]
    refine ⟨fun _ _ => hn, fun o ho => ?_⟩
    obtain ⟨s, hs⟩ := Heap.post_of_resumer ho
    exact h.releaseAll _ (hn.endThread hs)
  all_goals exact hop.elim

end

theorem relates_named : (keeping σ Named).Relates .plain .plain :=
  fun _ _ h _ op => h.perform (makes_named h) touching_named op (fun _ => rooting_named)
    (fun _ _ _ hn => hn.aside rfl rfl) fun hop => switch_named h hop

/-! ## Between operations -/

variable {host : Host σ} {w : World σ}

theorem Reachable.named (hw : Reachable host w) : w.heap.Named :=
  hw.keeps_of_relates (fun _ => .empty) relates_named (fun _ _ hs hn => hn.withers hs) fun _ _ hn =>
    hn.aside rfl rfl

/-- As long as generations have not come round, the name of a caught variable is not that of an object or a
thread. -/
theorem Reachable.caught_not_composite (hw : Reachable host w) (hu : w.heap.arena.books.Unwrapped)
    {p q : Handle} {n : ℕ} {b : Body} (hp : w.heap.arena.Holds p n b) (hq : q ∈ b.caughtNames) :
    ¬ w.heap.arena.Composite q := by
  rintro ⟨m, c, hc, hcomp⟩
  have hkind : c.kind = .string := (hw.named.caught hu p b hp.names q hq).kind hu hc.names
  unfold Body.isComposite at hcomp
  rw [hkind] at hcomp
  cases hcomp

/-- The current thread runs, if it is there. -/
theorem Reachable.current_runs (hw : Reachable host w) (hu : w.heap.arena.books.Unwrapped)
    {c : Handle} (hc : w.heap.current = some c) (hlive : w.heap.isLive c = true) :
    ∃ o, w.heap.post c = some (.running, o) :=
  (hw.named.current hu c hc).2 hlive

end CountedHeap
