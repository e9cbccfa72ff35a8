import Mathlib.Tactic
import CountedHeap.Thread.Catcher

/-!
# The word of a catcher

The kind, the flags and the label of a catcher share one word. A label is cut to its 24 bits before it
is written, but flags are not cut to their four: the upper half of the byte is written over the lowest
bits of the label, which keep what they had besides, until a label is written again.

* `Catcher.flags_setFlags`, `Catcher.label_setFlags`, …: what one write does to each field.
* `Catcher.spill`: the bits that writes of flags have left in the label.
* `Catcher.fields_written`: the fields after any writes, and when the label is the one written last.
-/

namespace CountedHeap

namespace Catcher

variable {c : Catcher} {bits : UInt8} {n : UInt32}

/-! ## One write -/

theorem kind_setFlags : (c.setFlags bits).kind = c.kind := by
  obtain ⟨_, _, _, _, ⟨w⟩⟩ := c
  obtain ⟨b⟩ := bits
  refine congrArg CatchKind.ofBits (UInt32.toBitVec_inj.mp ?_)
  simp only [setFlags]
  ext i hi
  simp
  interval_cases i <;> simp

theorem kind_setLabel : (c.setLabel n).kind = c.kind := by
  obtain ⟨_, _, _, _, ⟨w⟩⟩ := c
  obtain ⟨b⟩ := n
  refine congrArg CatchKind.ofBits (UInt32.toBitVec_inj.mp ?_)
  simp only [setLabel, maxLabel]
  ext i hi
  simp
  interval_cases i <;> simp

theorem flags_setFlags : (c.setFlags bits).flags = bits &&& 0xf := by
  obtain ⟨_, _, _, _, ⟨w⟩⟩ := c
  obtain ⟨b⟩ := bits
  apply UInt8.toBitVec_inj.mp
  simp only [setFlags, flags]
  ext i hi
  simp
  interval_cases i <;> simp

theorem flags_setLabel : (c.setLabel n).flags = c.flags := by
  obtain ⟨_, _, _, _, ⟨w⟩⟩ := c
  obtain ⟨b⟩ := n
  apply UInt8.toBitVec_inj.mp
  simp only [setLabel, flags, maxLabel]
  ext i hi
  simp
  interval_cases i <;> simp

/-- The upper half of the byte is written over the label. -/
theorem label_setFlags : (c.setFlags bits).label = c.label ||| (bits >>> 4).toUInt32 := by
  obtain ⟨_, _, _, _, ⟨w⟩⟩ := c
  obtain ⟨b⟩ := bits
  apply UInt32.toBitVec_inj.mp
  simp only [setFlags, label]
  ext i hi
  simp
  interval_cases i <;> simp

theorem label_setLabel : (c.setLabel n).label = n &&& maxLabel := by
  obtain ⟨_, _, _, _, ⟨w⟩⟩ := c
  obtain ⟨b⟩ := n
  apply UInt32.toBitVec_inj.mp
  simp only [setLabel, label, maxLabel]
  ext i hi
  simp
  interval_cases i <;> simp

/-! ## A new catcher -/

variable {k : CatchKind} {a b p : ℕ}

theorem kind_ofKind : (ofKind k a b p).kind = k := by
  change CatchKind.ofBits (k.toBits &&& 0xf) = k
  cases k <;> decide

theorem flags_ofKind : (ofKind k a b p).flags = 0 := by
  change (k.toBits >>> 4).toUInt8 &&& 0xf = 0
  cases k <;> decide

theorem label_ofKind : (ofKind k a b p).label = 0 := by
  change k.toBits >>> 8 = 0
  cases k <;> decide

/-! ## Any writes -/

/-- A write of one field. -/
inductive Write where
  | flags (bits : UInt8)
  | label (n : UInt32)
deriving DecidableEq

def write (c : Catcher) : Write → Catcher
  | .flags bits => c.setFlags bits
  | .label n => c.setLabel n

/-- The flags that were written last; none if none were. -/
def lastFlags (ws : List Write) : UInt8 :=
  ws.foldl (fun last w => match w with | .flags bits => bits | .label _ => last) 0

/-- The label that was written last; 0 if none was. -/
def lastLabel (ws : List Write) : UInt32 :=
  ws.foldl (fun last w => match w with | .flags _ => last | .label n => n) 0

/-- What the flags that have been written since the last label leave in it. -/
def spill (ws : List Write) : UInt32 :=
  ws.foldl (fun s w => match w with | .flags bits => s ||| (bits >>> 4).toUInt32 | .label _ => 0) 0

variable {ws : List Write}

/-- Flags that have a meaning leave nothing in the label. -/
theorem spill_eq_zero (h : ∀ bits, .flags bits ∈ ws → bits &&& 0xf = bits) : spill ws = 0 := by
  induction ws using List.reverseRecOn with
  | nil => rfl
  | append_singleton ws w ih =>
    have hws := ih fun bits hb => h bits (List.mem_append_left _ hb)
    unfold spill at hws ⊢
    rw [List.foldl_append, hws]
    cases w with
    | label n => rfl
    | flags bits =>
      have hupper : (bits &&& 0xf) >>> 4 = 0 := by
        obtain ⟨b⟩ := bits
        apply UInt8.toBitVec_inj.mp
        ext i hi
        simp
        interval_cases i <;> simp
      rw [h bits (by simp)] at hupper
      change (0 : UInt32) ||| (bits >>> 4).toUInt32 = 0
      rw [hupper]
      rfl

/-- A label has the bits that spill into it just if they change nothing. -/
theorem or_eq_left_iff {x y : UInt32} : x ||| y = x ↔ y &&& x = y := by
  simp only [← UInt32.toBitVec_inj, UInt32.toBitVec_or, UInt32.toBitVec_and,
    BitVec.eq_of_getLsbD_eq_iff, BitVec.getLsbD_or, BitVec.getLsbD_and]
  refine forall₂_congr fun i _ => ?_
  cases x.toBitVec.getLsbD i <;> cases y.toBitVec.getLsbD i <;> simp

theorem kind_writes : (ws.foldl write (ofKind k a b p)).kind = k := by
  induction ws using List.reverseRecOn with
  | nil => exact kind_ofKind
  | append_singleton ws w ih =>
    rw [List.foldl_append]
    cases w with
    | flags bits => exact kind_setFlags.trans ih
    | label n => exact kind_setLabel.trans ih

theorem flags_writes : (ws.foldl write (ofKind k a b p)).flags = lastFlags ws &&& 0xf := by
  induction ws using List.reverseRecOn with
  | nil => exact flags_ofKind
  | append_singleton ws w ih =>
    unfold lastFlags at ih ⊢
    rw [List.foldl_append, List.foldl_append]
    cases w with
    | flags bits => exact flags_setFlags
    | label n => exact flags_setLabel.trans ih

theorem label_writes :
    (ws.foldl write (ofKind k a b p)).label = (lastLabel ws &&& maxLabel) ||| spill ws := by
  induction ws using List.reverseRecOn with
  | nil => exact label_ofKind
  | append_singleton ws w ih =>
    unfold lastLabel spill at ih ⊢
    rw [List.foldl_append, List.foldl_append, List.foldl_append]
    cases w with
    | flags bits => exact label_setFlags.trans (by rw [ih]; exact UInt32.or_assoc _ _ _)
    | label n => exact label_setLabel.trans UInt32.or_zero.symm

/-- After any writes of flags and labels, the kind is the one that the catcher was made with, the flags
are the meaningful ones of those written last, and the label is the one written last, cut to 24 bits, with
what flags have spilled into it since. It is the label that was written just if it has the spilled bits
anyway, as it has if all flags had a meaning. -/
theorem fields_written (k : CatchKind) (a b p : ℕ) (ws : List Write) :
    (ws.foldl write (ofKind k a b p)).kind = k ∧
    (ws.foldl write (ofKind k a b p)).flags = lastFlags ws &&& 0xf ∧
    (ws.foldl write (ofKind k a b p)).label = (lastLabel ws &&& maxLabel) ||| spill ws ∧
    ((ws.foldl write (ofKind k a b p)).label = lastLabel ws &&& maxLabel ↔
      spill ws &&& (lastLabel ws &&& maxLabel) = spill ws) ∧
    ((∀ bits, .flags bits ∈ ws → bits &&& 0xf = bits) →
      (ws.foldl write (ofKind k a b p)).label = lastLabel ws &&& maxLabel) := by
  refine ⟨kind_writes, flags_writes, label_writes, label_writes ▸ or_eq_left_iff, fun h => ?_⟩
  rw [label_writes, spill_eq_zero h]
  exact UInt32.or_zero

/-- A label is written between flags that have a meaning. -/
theorem fields_written_handler :
    let ws : List Write := [.flags 3, .label 0x1000004, .flags 8]
    (∀ bits, .flags bits ∈ ws → bits &&& 0xf = bits) ∧
      (ws.foldl write (ofKind .handler 0 4 12)).label = 4 := by
  intro ws
  have hws : ∀ bits, .flags bits ∈ ws → bits &&& 0xf = bits := by
    intro bits hb
    simp only [ws, List.mem_cons, Write.flags.injEq, List.not_mem_nil, reduceCtorEq, or_false,
      false_or] at hb
    rcases hb with rfl | rfl <;> rfl
  exact ⟨hws, ((fields_written .handler 0 4 12 ws).2.2.2.2 hws).trans (by decide)⟩

/-- The byte 16 has no flag that has a meaning, and to write it changes the label. -/
theorem label_changed_by_flags :
    let ws : List Write := [.label 4, .flags 16]
    (ws.foldl write (ofKind .label 0 0 0)).label ≠ lastLabel ws &&& maxLabel := by
  decide

end Catcher

end CountedHeap
