import CountedHeap.Text.Cluster.Basic

/-!
# Lines as they are typed

A backspace takes back the cluster before it. The size of a cluster is kept in one byte, so that of
a cluster of 256 bytes and more only a part is taken back; a line that would be cut within a
character cannot be read.

* `Typed`: a line as far as it has been typed.
* `typedLine?`: the line that is left after its backspaces.
-/

namespace CountedHeap.Shell

/-- The character that takes back what is before it. -/
def backspace : Char :=
  Char.ofNat 0x8

/-- The number of bytes that the characters take. -/
def byteSize (cs : List Char) : Nat :=
  cs.foldr (fun c n => c.utf8Size + n) 0

@[simp] theorem byteSize_nil : byteSize [] = 0 := rfl

@[simp] theorem byteSize_cons (c : Char) (cs : List Char) :
    byteSize (c :: cs) = c.utf8Size + byteSize cs := rfl

/-- A reversed text without the last `n` bytes, if they are whole characters. -/
def dropBytes? : List Char → Nat → Option (List Char)
  | cs, 0 => some cs
  | [], _ + 1 => none
  | c :: cs, n + 1 => if c.utf8Size ≤ n + 1 then dropBytes? cs (n + 1 - c.utf8Size) else none

/-- What is left and what was dropped, which is `n` bytes, make up the text. -/
theorem exists_append_of_dropBytes? {cs left : List Char} {n : Nat}
    (h : dropBytes? cs n = some left) :
    ∃ dropped, cs = dropped ++ left ∧ byteSize dropped = n := by
  induction cs generalizing n with
  | nil => cases n <;> simp_all [dropBytes?]
  | cons c cs ih =>
    cases n with
    | zero => exact ⟨[], by simpa [dropBytes?] using h, rfl⟩
    | succ n =>
      simp only [dropBytes?] at h
      split at h
      · obtain ⟨dropped, rfl, hsum⟩ := ih h
        exact ⟨c :: dropped, rfl, by simp only [byteSize_cons]; omega⟩
      · simp at h

/-- A line as far as it has been typed: its characters and the sizes of its clusters, both with the
last one first. -/
structure Typed where
  chars : List Char
  sizes : List UInt8
deriving DecidableEq

namespace Typed

/-- The line without as many bytes as the size of its last cluster says. An empty line stays so. -/
def takeBack? (t : Typed) : Option Typed :=
  match t.sizes with
  | [] => some t
  | size :: sizes => (dropBytes? t.chars size.toNat).map (⟨·, sizes⟩)

/-- One more cluster, or one less if it is a backspace. -/
def type? (t : Typed) (cluster : List Char) : Option Typed :=
  if cluster = [backspace] then t.takeBack?
  else some ⟨cluster.reverse ++ t.chars, (byteSize cluster).toUInt8 :: t.sizes⟩

end Typed

/-- What is left of the characters of a line after its backspaces. -/
def typedLine? (cs : List Char) : Option (List Char) :=
  if cs.contains backspace then
    ((clusters cs).foldlM Typed.type? ⟨[], []⟩).map (·.chars.reverse)
  else some cs

end CountedHeap.Shell
