/-!
# Blank characters

The characters that separate words: the white space of Unicode.

* `isBlank`: whether a character is one of them.
* `trimBlank`, `cutWord`, `words`: lines as words.
-/

namespace CountedHeap

/-- Whether a character is white space. -/
def isBlank (c : Char) : Bool :=
  let n := c.toNat
  (0x9 ≤ n && n ≤ 0xd) || n = 0x20 || n = 0x85 || n = 0xa0 || n = 0x1680 ||
    (0x2000 ≤ n && n ≤ 0x200a) || n = 0x2028 || n = 0x2029 || n = 0x202f || n = 0x205f || n = 0x3000

/-- The characters without the blank ones at either end. -/
def trimBlank (cs : List Char) : List Char :=
  ((cs.dropWhile isBlank).reverse.dropWhile isBlank).reverse

/-- The first word, and what follows the blank characters after it. -/
def cutWord (cs : List Char) : List Char × List Char :=
  (cs.takeWhile (!isBlank ·), (cs.dropWhile (!isBlank ·)).dropWhile isBlank)

theorem length_cutWord_lt {c : Char} {cs : List Char} (h : isBlank c = false) :
    (cutWord (c :: cs)).2.length < (c :: cs).length := by
  have h₁ := (List.dropWhile_suffix (l := cs) (!isBlank ·)).length_le
  have h₂ := (List.dropWhile_suffix (l := cs.dropWhile (!isBlank ·)) isBlank).length_le
  simp only [cutWord, List.dropWhile_cons, h, Bool.not_false, if_true, List.length_cons]
  omega

/-- The words of a line without blank characters in front. -/
def words (cs : List Char) : List (List Char) :=
  match cs with
  | [] => []
  | c :: rest =>
    if _h : isBlank c = true then words rest
    else (cutWord (c :: rest)).1 :: words (cutWord (c :: rest)).2
termination_by cs.length
decreasing_by
  · simp
  · exact length_cutWord_lt (by simpa using _h)

end CountedHeap
