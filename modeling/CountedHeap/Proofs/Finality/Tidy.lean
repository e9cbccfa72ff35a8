import CountedHeap.Proofs.Finality.Confined
import CountedHeap.Proofs.Finality.Rounds
import CountedHeap.Proofs.Keep.Careful

/-!
# What is recorded while a careful client performs operations

An operation changes only what its client passes and what it makes, and then gives counts back. So it puts no
finalized cell to use, and what it frees is recorded in time.

* `Tidy`: no pass or drain is under way, counts are exact, and the record is in order.
* `Tidy.edit`: a change that is confined to what may be passed.
* `Tidy.releaseAll`, `Tidy.collect`: counts given back, and passes.
* `Tidy.putSlot`, `Tidy.allocObjectWith`, `Tidy.unwindWithin`, …: the operations.
* `Tidy.perform`: all of them.
-/

namespace CountedHeap

open Heap (Confined Shrinks Still Usable)

variable {σ α : Type} {host : Host σ} {fuel n i : ℕ} {h₀ h : Heap} {before : List Event}
  {w w' : World (σ × List Event)} {X Y : Multiset Handle} {r q t key : Handle} {rs : List Handle}
  {v : Value} {slot : Slot} {b : Body} {o : Object}

/-- No pass or drain is under way, counts are exact, and the record is complete and in order. The key of
finalizers is that of a string. -/
structure Tidy (h₀ : Heap) (before : List Event) (w : World (σ × List Event)) (X : Multiset Handle) :
    Prop where
  still : w.heap.Still X
  recounted : Recounted h₀ before w X
  leafKey : w.heap.LeafKey

/-- An attempt ends as tidily as it began. -/
def Tidily (h₀ : Heap) (before : List Event) (x : Attempt (σ × List Event) α)
    (w : World (σ × List Event)) (X : Multiset Handle) : Prop :=
  Meets x w (fun _ w' => Tidy h₀ before w' X) (fun _ w' => Tidy h₀ before w' X)

/-- A cell has been made, and what was in reach still is. -/
def Grown (h₀ : Heap) (before : List Event) (w : World (σ × List Event)) (X : Multiset Handle)
    (r : Handle) (w' : World (σ × List Event)) : Prop :=
  Tidy h₀ before w' (X + {r}) ∧ ∀ q, w.heap.Reached X q → w'.heap.Reached X q

namespace Heap

/-- What the client reaches stays in its reach when a cell is made. -/
theorem Reached.place (hr : h.Reached X q) (hf : h.arena.FreeOk) : (h.place b).1.Reached X q :=
  hr.mono (fun _ => id) fun _ n _ hp => ⟨n, hp.place hf b⟩

theorem Reached.retainAll (hr : h.Reached X q) : (h.retainAll rs).Reached X q := by
  have hroots : (h.retainAll rs).rootRefs = h.rootRefs := by
    rw [retainAll_eq]
    rfl
  refine hr.mono (fun q hq => hq.imp_right fun hq => hroots ▸ hq) fun _ _ _ hp => holds_retainAll hp rs

theorem Reached.retain (hr : h.Reached X q) : (h.retain r).Reached X q :=
  (hr.retainAll : (h.retainAll [r]).Reached X q)

theorem Reached.more (hr : h.Reached X q) (hX : X ≤ Y) : h.Reached Y q :=
  hr.mono (fun _ hq => hq.imp_left (Multiset.mem_of_le hX)) fun _ n _ hp => ⟨n, hp⟩

theorem leaf_of_interned {content : String} (hr : h.interned? content = some r) : h.arena.Leaf r := by
  obtain ⟨t, ht, -⟩ := interned?_text hr
  obtain ⟨n, hn⟩ := Arena.texts_eq_some.mp ht
  exact ⟨n, _, hn, rfl⟩

theorem leaf_retain (hr : h.arena.Leaf r) : (h.retain q).arena.Leaf r := by
  obtain ⟨n, b, hb, hleaf⟩ := hr
  obtain ⟨m, hm⟩ := holds_retainAll hb [q]
  exact ⟨m, b, hm, hleaf⟩

/-- What holds a cell in reach are other cells, so that it stays in reach if these refer to what they
referred to. -/
theorem Reached.of_others {h' : Heap} (hr : h.Reached X t) (hroots : h'.rootRefs = h.rootRefs)
    (hcells : ∀ p n b, h.arena.Holds p n b → p ≠ t → ∃ m c, h'.arena.Holds p m c ∧ b.refs ⊆ c.refs) :
    h'.Reached X t := by
  have hall : ∀ q, h.Reached X q → h'.Reached X q ∨ h'.Reached X t := by
    intro q hq
    induction hq with
    | start hq => exact .inl (.start (hq.imp_right fun hq => hroots ▸ hq))
    | @step p q n b _ hp hq ih =>
      rcases ih with ih | ih
      · by_cases hpt : p = t
        · exact .inr (hpt ▸ ih)
        · obtain ⟨m, c, hc, hsub⟩ := hcells p n b hp hpt
          exact .inl (.step ih hc (hsub hq))
      · exact .inr ih
  exact (hall t hr).elim id id

/-- A thread that changes stays in reach. -/
theorem Reached.modifyThread {f : Thread → Thread} (hr : h.Reached X t) (hlive : h.isLive t = true) :
    (h.modifyThread t f).Reached X t := by
  obtain ⟨k, c, hc⟩ := Arena.isLive_iff.mp hlive
  refine hr.of_others rfl fun p n b hp hne => ⟨n, b, ?_, List.Subset.refl _⟩
  obtain ⟨d, hd, rfl, rfl⟩ := hp.get?
  refine Arena.holds_of_get? (((Arena.get?_modifyAt).trans (if_neg fun hi => hne ?_)).trans hd)
  exact hp.eq_of_index hc hi

end Heap

/-- A change that is confined to what may be passed puts no finalized cell to use. -/
theorem Recounted.edit (hr : Recounted h₀ before w X) (hb : w.heap.Balanced ∅ X) (hb' : h.Balanced ∅ Y)
    (hc : Confined (w.heap.Usable X) w.heap h) : Recounted h₀ before ⟨h, w.host⟩ Y :=
  ⟨hc.aloof hb hb' hr.aloof, hr.told.congr hc.finalized, hr.complete.keep hc.spares⟩

namespace Tidy

/-! ## Changes, counts given back, and passes -/

/-- A change that is confined to what may be passed. -/
theorem edit (hw : Tidy h₀ before w X) (hk : h.Still Y) (hc : Confined (w.heap.Usable X) w.heap h) :
    Tidy h₀ before ⟨h, w.host⟩ Y :=
  ⟨hk, hw.recounted.edit (hw.still.balanced trivial) (hk.balanced trivial) hc, hc.leafKey hw.leafKey⟩

/-- Cells have been freed. -/
theorem shrink (hw : Tidy h₀ before w X) (hk : w'.heap.Still Y) (hr : Recounted h₀ before w' Y)
    (hs : Shrinks w.heap w'.heap) : Tidy h₀ before w' Y ∧ Shrinks w.heap w'.heap :=
  ⟨⟨hk, hr, hs.leafKey (hk.balanced trivial) hw.leafKey⟩, hs⟩

theorem live (hw : Tidy h₀ before w X) (hr : w.heap.Reached X r) : w.heap.isLive r = true :=
  hr.live (hw.still.balanced trivial)

section

variable (hh : host.Silent)
include hh

theorem release (hw : Tidy h₀ before w (X + {r})) : After ((Engine.recorded host fuel).release r) w
    fun _ w' => Tidy h₀ before w' X ∧ Shrinks w.heap w'.heap :=
  (recorded_release_quiet hh hw.still hw.recounted).mono fun _ _ h =>
    hw.shrink h.1.1 h.1.2 h.2.toShrinks

theorem releaseAll (hw : Tidy h₀ before w (X + rs)) :
    After ((Engine.recorded host fuel).releaseAll rs) w fun _ w' =>
      Tidy h₀ before w' X ∧ Shrinks w.heap w'.heap := by
  induction rs generalizing w with
  | nil => exact after_pure.mpr ⟨by simpa using hw, .refl⟩
  | cons r rs ih =>
    rw [add_coe_cons] at hw
    simp only [Engine.releaseAll, after_bind]
    refine (release hh hw).mono fun _ w₁ h₁ => ?_
    exact (ih h₁.1).mono fun _ _ h₂ => ⟨h₂.1, h₁.2.trans h₂.2⟩

/-- References of what may be missing. -/
theorem giveBack (hw : Tidy h₀ before w (X + rs)) :
    After ((Engine.recorded host fuel).releaseAll rs) w fun _ w' => Tidy h₀ before w' X :=
  (releaseAll hh hw).mono fun _ _ h => h.1

theorem collect {o : PassOptions} (hw : Tidy h₀ before w X) :
    After ((Engine.recorded host fuel).collect o) w fun _ w' =>
      Tidy h₀ before w' X ∧ Shrinks w.heap w'.heap :=
  (recorded_collect_quiet hh hw.still hw.recounted).mono fun _ _ h =>
    hw.shrink h.1.1 h.1.2 h.2.1.toShrinks

end

/-- What is in reach stays in reach while cells are freed. -/
theorem reached (hw : Tidy h₀ before w X) (hs : Shrinks h w.heap) (hr : h.Reached X r) :
    w.heap.Reached X r :=
  hs.reached (hw.still.balanced trivial) hr

/-! ## Properties, prototypes and elements -/

section

variable (hh : host.Silent) (hw : Tidy h₀ before w X)
include hh hw

theorem putSlot (hr : w.heap.Usable X r) (hkey : w.heap.Usable X key)
    (hslot : ∀ q ∈ slot.refs, w.heap.Usable X q) :
    Tidily h₀ before ((Engine.recorded host fuel).putSlot r key slot) w X := by
  unfold Engine.putSlot Tidily
  simp only [meets_bind, meets_check, meets_surely, after_change]
  refine ⟨fun _ _ => hw, fun _ hc => ?_⟩
  obtain ⟨-, -, o, ho⟩ := Heap.checkStore_eq_ok hc
  exact giveBack hh (hw.edit (hw.still.storeSlot (Heap.steady_outsidePass []) hc)
    (.storeSlot (Heap.live_of_object ho) hr hkey hslot))

theorem deleteProp (hr : w.heap.Usable X r) :
    Tidily h₀ before ((Engine.recorded host fuel).deleteProp r key) w X := by
  unfold Engine.deleteProp Tidily
  simp only [meets_bind, meets_check, meets_surely, after_change]
  refine ⟨fun _ _ => hw, fun o ho => ?_⟩
  have hc : Confined (w.heap.Usable X) w.heap (w.heap.dropSlot r key).1 :=
    .dropSlot (Heap.live_of_object ho) hr
  cases hd : (w.heap.dropSlot r key).2 with
  | none =>
    simp only [meets_pure]
    exact hw.edit (hw.still.dropSlot_none hd) hc
  | some displaced =>
    simp only [meets_bind, meets_surely, meets_pure]
    exact giveBack hh (hw.edit (hw.still.dropSlot (Heap.steady_outsidePass []) hd) hc)

theorem setPrototype {proto : Option Handle} (hr : w.heap.Usable X r)
    (hproto : ∀ q ∈ proto.toList, w.heap.Usable X q) :
    Tidily h₀ before ((Engine.recorded host fuel).setPrototype r proto) w X := by
  unfold Engine.setPrototype Tidily
  simp only [meets_bind, meets_check, meets_surely, after_modifyHeap]
  refine ⟨fun _ _ => hw, fun old hc => ?_⟩
  obtain ⟨o, ho, hl, rfl⟩ := Heap.checkPrototype_eq_ok hc
  exact giveBack hh (hw.edit (hw.still.linkPrototype (Heap.steady_outsidePass []) ho hl)
    (.linkPrototype (Heap.live_of_object ho) hr hproto))

omit hh in
theorem arrayPush (hr : w.heap.Usable X r) (hv : ∀ q ∈ v.refs, w.heap.Usable X q) :
    Tidily h₀ before (Engine.arrayPush r v) w X := by
  unfold Engine.arrayPush Tidily
  simp only [meets_bind, meets_check, meets_surely, after_modifyHeap, meets_pure]
  refine ⟨fun _ _ => hw, fun _ hc => ⟨fun _ _ => hw, fun _ ha => ?_⟩⟩
  obtain ⟨o, ho⟩ := Heap.checkArray_eq_ok ha
  exact hw.edit (hw.still.appendElement (Heap.steady_outsidePass []) ho hc)
    (.appendElement (Heap.live_of_object ho) hr hv)

theorem arraySet (hr : w.heap.Usable X r) (hv : ∀ q ∈ v.refs, w.heap.Usable X q) :
    Tidily h₀ before ((Engine.recorded host fuel).arraySet r i v) w X := by
  unfold Engine.arraySet Tidily
  simp only [meets_bind, meets_check, meets_surely, after_change]
  refine ⟨fun _ _ => hw, fun _ hc => ⟨fun _ _ => hw, fun _ ha => ?_⟩⟩
  obtain ⟨o, ho⟩ := Heap.checkArray_eq_ok ha
  exact giveBack hh (hw.edit (hw.still.storeElement (Heap.steady_outsidePass []) ho hc)
    (.storeElement (Heap.live_of_object ho) hr hv))

/-! ## Roots -/

omit hh in
theorem addRoot (hv : ∀ q ∈ v.refs, w.heap.Usable X q) : Tidily h₀ before (addRoot v) w X := by
  unfold CountedHeap.addRoot Tidily
  simp only [meets_bind, meets_check, meets_surely, after_change]
  refine ⟨fun _ _ => hw, fun _ hc => ?_⟩
  exact hw.edit (hw.still.holdRoot (Heap.steady_outsidePass []) fun _ => Heap.live_of_checkValue hc)
    (.holdRoot hv)

theorem setRoot (hv : ∀ q ∈ v.refs, w.heap.Usable X q) :
    Tidily h₀ before ((Engine.recorded host fuel).setRoot n v) w X := by
  unfold Engine.setRoot Tidily
  simp only [meets_bind, meets_check, meets_surely, after_modifyHeap]
  refine ⟨fun _ _ => hw, fun _ hc => ⟨fun _ _ => hw, fun old ho => ?_⟩⟩
  exact giveBack hh (hw.edit (hw.still.storeRoot (Heap.steady_outsidePass []) (Heap.checkRoot_eq_ok.mp ho)
    fun _ => Heap.live_of_checkValue hc) (.storeRoot hv))

theorem removeRoot : Tidily h₀ before ((Engine.recorded host fuel).removeRoot n) w X := by
  unfold Engine.removeRoot Tidily
  simp only [meets_bind, meets_surely, after_change, meets_pure]
  exact giveBack hh (hw.edit (hw.still.dropRoot (Heap.steady_outsidePass [])) .dropRoot)

/-! ## Cells that are made -/

theorem reserve : Meets ((Engine.recorded host fuel).reserve n) w (fun _ w' => Tidy h₀ before w' X)
    (fun _ w' => Tidy h₀ before w' X ∧ Shrinks w.heap w'.heap) := by
  unfold Engine.reserve
  simp only [meets_bind, meets_surely, after_query]
  split
  · simp only [meets_bind, meets_surely]
    refine (collect hh hw).mono fun _ w₁ h₁ => ?_
    simp only [after_query]
    split
    · simpa only [meets_refuse] using h₁.1
    · simpa only [meets_pure] using h₁
  · simpa only [meets_pure] using ⟨hw, .refl⟩

omit hh in
/-- A cell is placed that refers to what is in reach. -/
theorem place (hvalid : b.Valid) (htext : b.text? = none) (hnames : b.caughtNames = [])
    (hrefs : ∀ q ∈ b.refs, w.heap.Reached X q) :
    Tidy h₀ before ⟨(w.heap.place b).1.retainAll b.refs, w.host⟩ (X + {(w.heap.place b).2}) := by
  have hfree := hw.still.sound.arena.free
  refine hw.edit (hw.still.place (Heap.steady_outsidePass []) hvalid htext fun _ q hq => ?_)
    ((Confined.place hfree hnames).trans (.retainAll fun q hq => (hrefs q hq).usable))
  obtain ⟨m, c, hc⟩ := Arena.isLive_iff.mp (hw.live (hrefs q hq))
  exact (hc.place hfree b).isLive

theorem alloc {rs : List Handle} (hvalid : b.Valid) (htext : b.text? = none) (hnames : b.caughtNames = [])
    (hrs : b.refs = rs) (hrefs : ∀ q ∈ rs, w.heap.Reached X q) :
    Meets ((Engine.recorded host fuel).alloc b) w (fun _ w' => Tidy h₀ before w' X)
      (fun r w' => Grown h₀ before w X r ⟨w'.heap.retainAll rs, w'.host⟩) := by
  unfold Engine.alloc
  simp only [meets_bind, meets_surely]
  refine Meets.mono (reserve hh hw) (fun _ _ h => h) ?_
  rintro _ w₁ ⟨hw₁, hs⟩
  simp only [after_change]
  subst hrs
  refine ⟨hw₁.place hvalid htext hnames fun q hq => hw₁.reached hs (hrefs q hq), fun q hq => ?_⟩
  exact ((hw₁.reached hs hq).place hw₁.still.sound.arena.free).retainAll

theorem allocObjectWith (hv : o.props.Valid) (hrefs : ∀ q ∈ o.refs, w.heap.Reached X q) :
    Meets ((Engine.recorded host fuel).allocObjectWith o) w (fun _ w' => Tidy h₀ before w' X)
      (fun r w' => Grown h₀ before w X r w') := by
  have hvalid : (Body.object o).Valid := by
    rintro p hp
    cases hp
    exact hv
  unfold Engine.allocObjectWith
  simp only [meets_bind, meets_check, meets_surely]
  refine ⟨fun _ _ => hw, fun _ _ => ?_⟩
  refine Meets.mono (alloc hh hw hvalid rfl rfl rfl hrefs) (fun _ _ h => h) fun r w₁ hgrown => ?_
  simp only [after_modifyHeap, meets_pure]
  exact hgrown

/-- An object without properties is made. -/
theorem create {kind : ObjectKind} {proto : Option Handle} {callable : Callable}
    (hproto : ∀ q ∈ proto.toList, w.heap.Reached X q) (hcall : ∀ q ∈ callable.refs, w.heap.Reached X q) :
    Meets ((Engine.recorded host fuel).allocObjectWith
      { kind := kind, proto := proto, callable := callable }) w (fun _ w' => Tidy h₀ before w' X)
      (fun r w' => Grown h₀ before w X r w') := by
  refine allocObjectWith hh hw PropertyTable.Valid.empty fun q hq => ?_
  rw [Object.refs_create, List.mem_append] at hq
  exact hq.elim (hproto q) (hcall q)

/-- Buffers refer to nothing. -/
theorem allocBytes {bytes : Buffer} :
    Meets ((Engine.recorded host fuel).alloc (.buffer bytes)) w (fun _ w' => Tidy h₀ before w' X)
      (fun r w' => Grown h₀ before w X r w') :=
  alloc hh hw (b := .buffer bytes) (by rintro p ⟨⟩) rfl rfl rfl fun q (hq : q ∈ []) => by cases hq

theorem allocThread {source : Option Handle} (hsource : ∀ t ∈ source, w.heap.Reached X t) :
    Meets ((Engine.recorded host fuel).allocThread source) w (fun _ w' => Tidy h₀ before w' X)
      (fun r w' => Grown h₀ before w X r w') := by
  unfold Engine.allocThread
  simp only [meets_bind, meets_check, meets_surely, after_query]
  refine ⟨fun _ _ => hw, fun builtins hbuiltins => ?_⟩
  refine Meets.mono (alloc hh hw ?_ rfl rfl rfl fun q hq => ?_) (fun _ _ h => h) fun r w₁ hgrown => ?_
  · rintro p hp
    cases hp
    exact PropertyTable.Valid.empty
  · refine Heap.Reached.shared hsource ?_
    change q ∈ ((w.heap.builtinsOf source).map Builtins.refs).toOption.getD []
    rw [hbuiltins]
    exact Thread.mem_refs_create hq
  · simp only [after_modifyHeap, meets_pure]
    exact hgrown

/-- The buffer of a function's code is given back when the function counts it, or could not be made. -/
theorem allocFunction {proto : Option Handle} {constants : List Value} {functions : List Handle}
    {code : ByteArray}
    (hparts : ∀ q ∈ proto.toList ++ constants.flatMap Value.refs ++ functions, w.heap.Reached X q) :
    Meets ((Engine.recorded host fuel).allocFunction proto constants functions code) w
      (fun _ w' => Tidy h₀ before w' X) (fun r w' => Tidy h₀ before w' (X + {r})) := by
  unfold Engine.allocFunction
  simp only [meets_bind, meets_check]
  refine ⟨fun _ _ => hw, fun _ _ => ?_⟩
  refine Meets.mono (allocBytes hh hw) (fun _ _ h => h) ?_
  rintro buffer w₁ ⟨hw₁, hgrown⟩
  have hreach : ∀ q ∈ proto.toList ++ constants.flatMap Value.refs ++ functions,
      w₁.heap.Reached (X + {buffer}) q :=
    fun q hq => (hgrown q (hparts q hq)).more (Multiset.le_add_right _ _)
  refine meets_outcome.mpr (Meets.mono (create hh hw₁ (fun q hq => hreach q (by simp [hq]))
    fun q hq => ?_) (fun e w₂ hw₂ => ?_) fun r w₂ hw₂ => ?_)
  · simp only [Callable.refs, CompiledFunction.refs, Option.toList_some, List.mem_append,
      List.mem_singleton] at hq
    rcases hq with (hq | hq) | rfl
    · exact hreach q (by simp only [List.mem_append, hq, or_true, true_or])
    · exact hreach q (by simp [hq])
    · exact .start (.inl (by simp))
  · simp only [meets_surely]
    exact (release hh hw₂).mono fun _ _ h => meets_refuse.mpr h.1
  · simp only [meets_surely]
    have hw₂ := hw₂.1
    rw [add_right_comm] at hw₂
    exact (release hh hw₂).mono fun _ _ h => meets_pure.mpr h.1

/-! ## Strings -/

omit hh in
/-- A string is counted that has been found. -/
theorem retainString {content : String} (hfound : w.heap.interned? content = some r) :
    Tidy h₀ before ⟨w.heap.retain r, w.host⟩ (X + {r}) :=
  hw.edit (hw.still.retain (Heap.steady_outsidePass []) fun _ => Heap.live_of_interned hfound)
    (.retain fun hcomp => absurd hcomp (Heap.leaf_of_interned hfound).not_composite)

omit hh in
/-- A string is entered that has been made. -/
theorem enterString {s : Text} (hnone : (w.heap.place (.string s)).1.interned? s.content = none) :
    let h := (w.heap.place (.string s)).1.enterString s.content (w.heap.place (.string s)).2
    Grown h₀ before w X (w.heap.place (.string s)).2 ⟨h, w.host⟩ ∧
      h.arena.Leaf (w.heap.place (.string s)).2 := by
  have hfree := hw.still.sound.arena.free
  have hplaced : Confined (w.heap.Usable X) w.heap (w.heap.place (.string s)).1 := .place hfree rfl
  have hmade : (w.heap.place (.string s)).1.arena.Leaf (w.heap.place (.string s)).2 :=
    ⟨1, .string s, Arena.holds_place hfree (.string s), rfl⟩
  refine ⟨⟨hw.edit (hw.still.enter (Heap.steady_outsidePass []) hnone)
    (hplaced.trans (.beside rfl rfl rfl)), fun p hp => ?_⟩, hmade⟩
  exact (hp.place (b := .string s) hfree).mono (fun _ => id) fun _ n _ hp => ⟨n, hp⟩

omit hh in
/-- A string is given up again, and one is counted that has been found. -/
theorem giveUp {s : Text} (hfound : (w.heap.place (.string s)).1.interned? s.content = some q) :
    let h := (((w.heap.place (.string s)).1.retain q).release (w.heap.place (.string s)).2).1
    Grown h₀ before w X q ⟨h, w.host⟩ ∧ h.arena.Leaf q := by
  set made := (w.heap.place (.string s)).2
  have hk := hw.still
  have hfree := hk.sound.arena.free
  have hcounted : ((w.heap.place (.string s)).1.retain q).Balanced ∅ (X + {made} + {q}) :=
    ((hk.placeString (t := s)).retain (fun _ _ hc hs => hs.calm hc)
      fun _ => Heap.live_of_interned hfound).balanced trivial
  have hplaced : Confined (w.heap.Usable X) w.heap (w.heap.place (.string s)).1 := .place hfree rfl
  have hleaf := Heap.leaf_of_interned hfound
  -- The string that has been found is the new one or was there before.
  have hretained : Confined (w.heap.Usable X) w.heap ((w.heap.place (.string s)).1.retain q) :=
    hplaced.trans (.retain fun hcomp => absurd (hplaced.spares q hcomp) hleaf.not_composite)
  have hrecounted := hw.recounted.edit (hk.balanced trivial) hcounted hretained
  obtain ⟨-, hdone⟩ := hk.giveUp (Heap.steady_outsidePass []) hfound
  have hbalanced := hdone.balanced trivial
  refine ⟨⟨⟨hdone, (hrecounted.dwindle .release Heap.Spares.release).mono ?_,
    Shrinks.release.leafKey hbalanced (hretained.leafKey hw.leafKey)⟩, fun p hp => ?_⟩,
    Shrinks.release.leaf hbalanced (Heap.leaf_retain hleaf) (by simp)⟩
  · rw [add_right_comm]
    exact Multiset.le_add_right _ _
  · have hp : ((w.heap.place (.string s)).1.retain q).Reached X p := (hp.place hfree).retain
    refine Shrinks.release.reaches hbalanced (fun _ => Shrinks.release.grounded) (fun p hp => ?_) hp
    exact Heap.Grounded.mem_stored (hp.imp_left fun hp => Multiset.mem_add.mpr (.inl hp))

theorem intern {content : String} {isStatic : Bool} :
    Meets ((Engine.recorded host fuel).intern content isStatic) w (fun _ w' => Tidy h₀ before w' X)
      (fun r w' => Grown h₀ before w X r w' ∧ w'.heap.arena.Leaf r ∧
        (w.heap.finalizerKey = none → w'.heap.finalizerKey = none)) := by
  have hkey : ∀ (h : Heap) q, (h.retain q).finalizerKey = h.finalizerKey := fun h q => by
    rw [show h.retain q = h.retainAll [q] from rfl, Heap.retainAll_eq]
  unfold Engine.intern Engine.alloc
  simp only [meets_bind, meets_surely, after_query]
  cases hi : w.heap.interned? content with
  | some q =>
    simp only [meets_bind, meets_surely, after_modifyHeap, meets_pure]
    exact ⟨⟨hw.retainString hi, fun p hp => hp.retain⟩, Heap.leaf_retain (Heap.leaf_of_interned hi),
      (hkey _ q).trans⟩
  | none =>
    simp only [meets_bind, meets_surely]
    refine Meets.mono (reserve hh hw) (fun _ _ h => h) ?_
    rintro _ w₁ ⟨hw₁, hs⟩
    simp only [after_change, after_query]
    cases hi₁ : (w₁.heap.place (.string ⟨content, isStatic⟩)).1.interned? content with
    | some q =>
      -- Giving the new cell up queues nothing.
      obtain ⟨hidle, -⟩ := hw₁.still.giveUp (Heap.steady_outsidePass []) hi₁
      simp only [meets_bind, meets_surely, after_modifyHeap, Engine.release, after_bind, after_change,
        hidle, Bool.false_eq_true, if_false, after_pure, meets_pure]
      obtain ⟨⟨hdone, hgrown⟩, hleaf⟩ := hw₁.giveUp hi₁
      exact ⟨⟨hdone, fun p hp => hgrown p (hw₁.reached hs hp)⟩, hleaf, fun h0 =>
        Shrinks.release.key.trans ((hkey _ q).trans (hs.key.trans h0))⟩
    | none =>
      simp only [meets_bind, meets_surely, after_modifyHeap, meets_pure]
      obtain ⟨⟨hdone, hgrown⟩, hleaf⟩ := hw₁.enterString hi₁
      exact ⟨⟨hdone, fun p hp => hgrown p (hw₁.reached hs hp)⟩, hleaf, hs.key.trans⟩

/-! ## Finalizers, buffers and offsets -/

/-- The key of finalizers is there, and what was in reach still is. -/
theorem finalizerKey : Meets (Engine.recorded host fuel).finalizerKey w
    (fun _ w' => Tidy h₀ before w' X) (fun key w' => Tidy h₀ before w' X ∧
      w'.heap.finalizerKey = some key ∧ ∀ q, w.heap.Reached X q → w'.heap.Reached X q) := by
  unfold Engine.finalizerKey
  simp only [meets_bind, meets_surely, after_query]
  cases hkey : w.heap.finalizerKey with
  | some key => simpa only [meets_pure] using ⟨hw, hkey, fun _ => id⟩
  | none =>
    simp only [meets_bind]
    refine Meets.mono (intern hh hw) (fun _ _ h => h) ?_
    rintro key w₁ ⟨⟨hw₁, hgrown⟩, hleaf, hnone⟩
    simp only [meets_surely, after_modifyHeap, meets_pure]
    refine ⟨?_, trivial, fun q hq => (hgrown q hq).mono (fun _ => id) fun _ n _ hp => ⟨n, hp⟩⟩
    refine hw₁.edit (hw₁.still.setKey (hnone hkey) hw₁.still.level)
      (.aside rfl (fun _ => .inl) fun q hq => .inr ?_)
    cases hq
    exact hleaf

theorem setFinalizer (hr : w.heap.Reached X r) (hv : ∀ q ∈ v.refs, w.heap.Reached X q) :
    Tidily h₀ before ((Engine.recorded host fuel).setFinalizer r v) w X := by
  unfold Engine.setFinalizer Tidily
  simp only [meets_bind, meets_check]
  refine ⟨fun _ _ => hw, fun _ _ => ?_⟩
  refine Meets.mono (finalizerKey hh hw) (fun _ _ h => h) ?_
  rintro key w₁ ⟨hw₁, hkey, hgrown⟩
  exact putSlot hh hw₁ (hgrown r hr).usable (fun hc => .start (.inr hkey) hc) fun q hq =>
    (hgrown q (hv q hq)).usable

omit hh in
theorem bufferWrite {byte : UInt8} (hr : w.heap.Usable X r) :
    Tidily h₀ before (bufferWrite r i byte) w X := by
  unfold CountedHeap.bufferWrite Tidily
  simp only [meets_bind, meets_check]
  refine ⟨fun _ _ => hw, fun size hb => ?_⟩
  split
  · simp only [meets_bind, meets_surely, after_modifyHeap, meets_pure]
    cases hbuffer : w.heap.buffer r with
    | error e => simp [hbuffer, Except.map] at hb
    | ok b =>
      have hlive := Heap.live_of_buffer hbuffer
      exact hw.edit (hw.still.modifyBuffer (Heap.steady_outsidePass []) hlive _) (.modifyBuffer hlive hr)
  · simpa only [meets_pure] using hw

omit hh in
theorem resizeBuffer {length : ℕ} (hlive : w.heap.isLive r = true) (hr : w.heap.Usable X r) :
    Tidy h₀ before ⟨w.heap.resizeBuffer r length, w.host⟩ X :=
  hw.edit (hw.still.resizeBuffer (Heap.steady_outsidePass []) hlive) (.resizeBuffer hlive hr)

theorem bufferResize {length : ℕ} (hr : w.heap.Reached X r) :
    Tidily h₀ before ((Engine.recorded host fuel).bufferResize r length) w X := by
  unfold Engine.bufferResize Tidily
  simp only [meets_bind, meets_check, meets_surely, after_query]
  refine ⟨fun _ _ => hw, fun _ _ => ?_⟩
  split
  · simp only [meets_bind, meets_surely]
    refine (collect hh hw).mono fun _ w₁ h₁ => ?_
    have hr₁ := h₁.1.reached h₁.2 hr
    simp only [meets_check, after_query]
    refine ⟨fun _ _ => h₁.1, fun c _ => ?_⟩
    split
    · simpa only [meets_bind, meets_refuse] using h₁.1
    · simpa only [meets_bind, meets_pure, meets_surely, after_modifyHeap] using
        h₁.1.resizeBuffer (h₁.1.live hr₁) hr₁.usable
  · simpa only [meets_bind, meets_pure, meets_surely, after_modifyHeap] using
      hw.resizeBuffer (hw.live hr) hr.usable

omit hh in
theorem charOffset : Tidily h₀ before (charOffset r i) w X := by
  unfold CountedHeap.charOffset Tidily
  simp only [meets_bind, meets_check]
  refine ⟨fun _ _ => hw, fun found hfound => ?_⟩
  obtain ⟨byte, scanned⟩ := found
  dsimp only
  split
  · simp only [meets_bind, meets_surely, after_modifyHeap, meets_pure]
    exact hw.edit (hw.still.besides (Heap.steady_outsidePass []) rfl rfl rfl rfl rfl rfl
      (fun hc => hc.remember_found hfound) rfl) (.beside rfl rfl rfl)
  · simpa only [meets_bind, meets_pure] using hw

end

end Tidy

end CountedHeap
