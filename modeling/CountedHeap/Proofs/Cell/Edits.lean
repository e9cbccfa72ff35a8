import CountedHeap.Cell.Basic
import CountedHeap.Proofs.Bags
import CountedHeap.Proofs.Property.Changes

/-!
# Changes of bodies

Every operation changes the body of a cell in one place. Each of these changes takes some references
into the body and gives some up, and a bag equation says which: what the body owns afterwards, with
what it has given up, is what it owned before, with what it has taken.

* `Object.refs_set_inserted`, `Object.refs_setElement`, `Object.refs_setProto`, …: changes of objects.
* `Thread.refs_push`, `Thread.refs_popActivation`, `Thread.refs_setResumer`, …: changes of threads.
* `Body.Valid`: property tables are valid.
* `Body.refs_modifyObject`: a change of an object, for a whole body.
-/

namespace CountedHeap

variable {given taken : Multiset Handle} {key : Handle} {v old : Value} {slot : Slot} {i n : ℕ}

/-! ## Objects -/

namespace Object

variable {o : Object}

theorem coe_refs : (o.refs : Multiset Handle) =
    o.props.refs + (o.elements.toList.flatMap Value.refs : List Handle) + o.proto.toList +
      o.callable.refs := by
  simp [refs]

theorem refs_withProps {props : PropertyTable}
    (h : (props.refs : Multiset Handle) + given = o.props.refs + taken) :
    (({ o with props := props } : Object).refs : Multiset Handle) + given = o.refs + taken := by
  rw [coe_refs, coe_refs]
  exact exchange_right _ (exchange_right _ (exchange_right _ h))

theorem refs_withElements {elements : Array Value}
    (h : ((elements.toList.flatMap Value.refs : List Handle) : Multiset Handle) + given =
      (o.elements.toList.flatMap Value.refs : List Handle) + taken) :
    (({ o with elements := elements } : Object).refs : Multiset Handle) + given =
      o.refs + taken := by
  rw [coe_refs, coe_refs]
  exact exchange_right _ (exchange_right _ (exchange_left _ h))

/-- A property is overwritten. -/
theorem refs_set_replaced {s : Slot} (hv : o.props.Valid) (hg : o.props.get? key = some s) :
    (({ o with props := (o.props.set key slot).1 } : Object).refs : Multiset Handle) + s.refs =
      o.refs + slot.refs :=
  refs_withProps (PropertyTable.refs_set_replaced hv hg)

/-- A property is made, and its key with it. -/
theorem refs_set_inserted (hv : o.props.Valid) (hg : o.props.get? key = none) :
    (({ o with props := (o.props.set key slot).1 } : Object).refs : Multiset Handle) + 0 =
      o.refs + (slot.refs ++ [key] : List Handle) := by
  refine refs_withProps ?_
  rw [add_zero, PropertyTable.refs_set_inserted hv hg, coe_cons_eq]

/-- A property is deleted, and its key with it. -/
theorem refs_delete {s : Slot} (hv : o.props.Valid) (hg : o.props.get? key = some s) :
    (({ o with props := (o.props.delete key).1 } : Object).refs : Multiset Handle) +
      (s.refs ++ [key] : List Handle) = o.refs + 0 := by
  refine refs_withProps ?_
  rw [add_zero, ← PropertyTable.refs_delete hv hg, coe_cons_eq]

theorem refs_setProto (proto : Option Handle) :
    (({ o with proto := proto } : Object).refs : Multiset Handle) + o.proto.toList =
      o.refs + proto.toList := by
  rw [coe_refs, coe_refs]
  exact exchange_right _ (exchange_left _ (add_comm _ _))

theorem refs_pushElement (v : Value) :
    (({ o with elements := o.elements.push v } : Object).refs : Multiset Handle) + 0 =
      o.refs + v.refs := by
  refine refs_withElements ?_
  rw [add_zero, Array.toList_push, coe_flatMap_concat]

/-- An element is overwritten; one past the end was `undefined`. -/
theorem refs_storeElement (v : Value) (i : ℕ) :
    (({ o with
      elements :=
        if i < o.elements.size then o.elements.setIfInBounds i v
        else (o.elements ++ Array.replicate (i - o.elements.size) Value.undefined).push v } :
      Object).refs : Multiset Handle) + ((o.elements[i]?).getD .undefined).refs =
      o.refs + v.refs := by
  refine refs_withElements ?_
  by_cases hi : i < o.elements.size
  · have hat : o.elements.toList[i]? = some o.elements[i] := by simp [hi]
    rw [if_pos hi, Array.toList_setIfInBounds, Array.getElem?_eq_getElem hi, Option.getD_some]
    exact coe_flatMap_set _ _ hat
  · have hfill : (Array.replicate (i - o.elements.size) Value.undefined).toList.flatMap Value.refs =
        [] := by
      simp [Value.refs, Value.handle?]
    rw [if_neg hi, Array.toList_push, Array.toList_append, coe_flatMap_concat, coe_flatMap_append,
      hfill, Array.getElem?_eq_none (by omega)]
    simp [Value.refs, Value.handle?]

end Object

/-! ## Threads -/

namespace Thread

variable {t : Thread}

theorem coe_refs : (t.refs : Multiset Handle) = t.object.refs + t.values.refs +
    (t.calls.toList.flatMap Activation.refs : List Handle) + t.builtins.refs +
      t.resumer.toList := by
  simp [refs]

theorem refs_withObject {o : Object} (h : (o.refs : Multiset Handle) + given = t.object.refs + taken) :
    (({ t with object := o } : Thread).refs : Multiset Handle) + given = t.refs + taken := by
  rw [coe_refs, coe_refs]
  exact exchange_right _ (exchange_right _ (exchange_right _ (exchange_right _ h)))

theorem refs_withValues {values : ValueStack}
    (h : (values.refs : Multiset Handle) + given = t.values.refs + taken) :
    (({ t with values := values } : Thread).refs : Multiset Handle) + given = t.refs + taken := by
  rw [coe_refs, coe_refs]
  exact exchange_right _ (exchange_right _ (exchange_right _ (exchange_left _ h)))

theorem refs_push (v : Value) :
    (({ t with values := t.values.push v } : Thread).refs : Multiset Handle) + 0 =
      t.refs + v.refs := by
  refine refs_withValues ?_
  rw [add_zero, ValueStack.refs, ValueStack.push, Array.toList_push, coe_flatMap_concat]
  rfl

theorem refs_pop (h : t.values.poppable? = some v) :
    (({ t with values := t.values.pop } : Thread).refs : Multiset Handle) + v.refs =
      t.refs + 0 := by
  refine refs_withValues ?_
  have hback : t.values.values.back? = some v := by
    unfold ValueStack.poppable? at h
    split at h
    · cases h
    · exact h
  have hlist := toList_eq_pop_concat hback
  rw [add_zero, ValueStack.refs, ValueStack.pop, ValueStack.refs, hlist, coe_flatMap_concat]

theorem refs_truncate (n : ℕ) :
    (({ t with values := t.values.truncate n } : Thread).refs : Multiset Handle) +
      ((t.values.above n).flatMap Value.refs : List Handle) = t.refs + 0 := by
  refine refs_withValues ?_
  rw [add_zero, ValueStack.refs, ValueStack.refs, ← t.values.above_append_truncate n,
    coe_flatMap_append, coe_flatMap_reverse]

theorem refs_clear :
    (({ t with values := (t.values.setBottom 0).truncate 0 } : Thread).refs : Multiset Handle) +
      ((t.values.above 0).flatMap Value.refs : List Handle) = t.refs + 0 := by
  refine refs_withValues ?_
  have := (t.values.setBottom 0).above_append_truncate 0
  rw [add_zero, ValueStack.refs, ValueStack.refs,
    show t.values.values.toList = (t.values.setBottom 0).values.toList from rfl, ← this,
    coe_flatMap_append, coe_flatMap_reverse]
  rfl

theorem refs_replace (v : Value) (h : t.values.get? i = some old) :
    (({ t with values := t.values.set i v } : Thread).refs : Multiset Handle) + old.refs =
      t.refs + v.refs := by
  refine refs_withValues ?_
  rw [ValueStack.refs, ValueStack.set, Array.toList_setIfInBounds]
  exact coe_flatMap_set _ _ (by simpa [ValueStack.get?] using h)

theorem refs_setBuiltin (id : BuiltinId) (r : Option Handle) :
    (({ t with builtins := t.builtins.set id r } : Thread).refs : Multiset Handle) +
      (t.builtins.get id).toList = t.refs + r.toList := by
  rw [coe_refs, coe_refs]
  refine exchange_right _ (exchange_left _ ?_)
  cases id <;> simp only [Builtins.refs, Builtins.set, Builtins.get, ← Multiset.coe_add] <;> abel

theorem refs_pushActivation (a : Activation) :
    ((t.pushActivation a).refs : Multiset Handle) + 0 = t.refs + a.refs := by
  rw [coe_refs, coe_refs]
  refine exchange_right _ (exchange_right _ (exchange_left _ ?_))
  rw [add_zero, pushActivation, Array.toList_push, coe_flatMap_concat]

theorem refs_popActivation {a : Activation} (h : t.calls.back? = some a) :
    ((t.popActivation a).refs : Multiset Handle) + a.refs = t.refs + 0 := by
  have hlist := toList_eq_pop_concat h
  rw [coe_refs, coe_refs]
  refine exchange_right _ (exchange_right _ (exchange_left _ ?_))
  rw [add_zero, hlist, coe_flatMap_concat]
  rfl

/-- The thread that resumed this one changes, and nothing else that is counted. -/
theorem refs_setResumer {t' : Thread} (r : Option Handle) (ho : t'.object = t.object)
    (hv : t'.values = t.values) (hc : t'.calls = t.calls) (hb : t'.builtins = t.builtins)
    (hr : t'.resumer = r) :
    (t'.refs : Multiset Handle) + t.resumer.toList = t.refs + r.toList := by
  rw [coe_refs, coe_refs, ho, hv, hc, hb, hr]
  exact exchange_left _ (add_comm _ _)

end Thread

/-! ## Bodies -/

/-- The property table of a body, if it has one, is valid. -/
def Body.Valid (b : Body) : Prop :=
  ∀ o, b.object? = some o → o.props.Valid

namespace Body

variable {b : Body}

/-- A leaf owns nothing. -/
theorem refs_eq_nil (hb : b.isComposite = false) : b.refs = [] := by
  cases b with
  | string t => rfl
  | buffer b => rfl
  | object o => cases hb
  | thread t => cases hb

theorem isComposite_of_mem_refs {r : Handle} (hr : r ∈ b.refs) : b.isComposite = true := by
  by_contra hleaf
  rw [refs_eq_nil (Bool.not_eq_true _ ▸ hleaf)] at hr
  cases hr

@[simp] theorem isComposite_modifyObject (f : Object → Object) :
    (b.modifyObject f).isComposite = b.isComposite := by
  cases b <;> rfl

@[simp] theorem isComposite_modifyThread (f : Thread → Thread) :
    (b.modifyThread f).isComposite = b.isComposite := by
  cases b <;> rfl

@[simp] theorem isComposite_modifyBuffer (f : Buffer → Buffer) :
    (b.modifyBuffer f).isComposite = b.isComposite := by
  cases b <;> rfl

/-- The text of a string. -/
def text? : Body → Option Text
  | .string t => some t
  | .object _ | .buffer _ | .thread _ => none

theorem text?_eq_none (hb : b.isComposite = true) : b.text? = none := by
  cases b with
  | object o => rfl
  | thread t => rfl
  | string t => cases hb
  | buffer b => cases hb

@[simp] theorem text?_modifyObject (f : Object → Object) : (b.modifyObject f).text? = b.text? := by
  cases b <;> rfl

@[simp] theorem text?_modifyThread (f : Thread → Thread) : (b.modifyThread f).text? = b.text? := by
  cases b <;> rfl

@[simp] theorem text?_modifyBuffer (f : Buffer → Buffer) : (b.modifyBuffer f).text? = b.text? := by
  cases b <;> rfl

theorem valid_modifyObject {o : Object} {f : Object → Object} (hb : b.object? = some o)
    (hv : (f o).props.Valid) : (b.modifyObject f).Valid := by
  intro p hp
  cases b with
  | string t => cases hb
  | buffer b => cases hb
  | object q =>
    cases hb
    cases hp
    exact hv
  | thread t =>
    cases hb
    cases hp
    exact hv

theorem refs_modifyObject {o : Object} {f : Object → Object} (hb : b.object? = some o)
    (h : ((f o).refs : Multiset Handle) + given = o.refs + taken) :
    ((b.modifyObject f).refs : Multiset Handle) + given = b.refs + taken := by
  cases b with
  | string t => cases hb
  | buffer b => cases hb
  | object p =>
    cases hb
    exact h
  | thread t =>
    cases hb
    exact Thread.refs_withObject h

end Body

end CountedHeap
