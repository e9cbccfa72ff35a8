import CountedHeap.Text.Cluster.Classes

/-!
# Clusters

A cluster is what a reader takes for one character. Whether a cluster ends before a character depends
on the class of the character and on what has been read before it.

* `ClusterContext`: what has to be known of the characters before.
* `ClusterContext.breaksBefore`: whether a cluster ends before a character.
* `clusters`: the clusters of a text.
* `flatten_clusters`: nothing of the text is lost.
-/

namespace CountedHeap

/-- What the characters before a place decide about it. -/
structure ClusterContext where
  /-- The class of the last character. -/
  last : ClusterClass
  /-- Whether there is a consonant with nothing but marks after it. -/
  consonant : Bool
  /-- Whether, besides, a linker is among the marks. -/
  linked : Bool
  /-- Whether there is a pictograph with nothing but marks after it, joiners excepted. -/
  pictograph : Bool
  /-- Whether, before the last character, there is such a pictograph, and the last one is a joiner. -/
  joined : Bool
  /-- Whether the number of halves of flags at the end is odd. -/
  oddRegional : Bool
deriving DecidableEq

namespace ClusterContext

/-- The beginning of a text. -/
def start : ClusterContext :=
  ⟨.control, false, false, false, false, false⟩

/-- The context after one more character. -/
def push (x : ClusterContext) (k : ClusterClass) : ClusterContext where
  last := k
  consonant := k = .consonant || x.consonant && (k = .extending || k = .joiner || k = .linker)
  linked :=
    x.consonant && (k = .linker) || x.linked && (k = .extending || k = .joiner)
  pictograph :=
    k = .pictograph || x.pictograph && (k = .extending || k = .linker || k = .nonJoiner)
  joined := x.pictograph && k = .joiner
  oddRegional := k = .regional && !x.oddRegional

/-- Whether a cluster ends before a character of a class. Lines end on their own; the parts of a
syllable block, a character and its marks, linked consonants, joined pictographs and the two halves
of a flag stay together. -/
def breaksBefore (x : ClusterContext) (k : ClusterClass) : Bool :=
  match x.last, k with
  | .carriageReturn, .lineFeed => false
  | .control, _ | .carriageReturn, _ | .lineFeed, _ => true
  | _, .control | _, .carriageReturn | _, .lineFeed => true
  | .leading, .leading | .leading, .vowel => false
  | .leading, .openSyllable | .leading, .closedSyllable => false
  | .openSyllable, .vowel | .openSyllable, .trailing | .vowel, .vowel | .vowel, .trailing => false
  | .closedSyllable, .trailing | .trailing, .trailing => false
  | _, .extending | _, .linker | _, .nonJoiner | _, .joiner | _, .spacing => false
  | .prepended, _ => false
  | _, .consonant => !x.linked
  | .joiner, .pictograph => !x.joined
  | .regional, .regional => !x.oddRegional
  | _, _ => true

end ClusterContext

/-- A text that is being split: the context at its end and its clusters, both the clusters and their
characters with the last one first. -/
structure Splitting where
  context : ClusterContext
  clusters : List (List Char)

namespace Splitting

/-- One more character. -/
def push (s : Splitting) (c : Char) : Splitting where
  context := s.context.push (.ofChar c)
  clusters :=
    match s.clusters with
    | [] => [[c]]
    | cluster :: earlier =>
      if s.context.breaksBefore (.ofChar c) then [c] :: cluster :: earlier
      else (c :: cluster) :: earlier

/-- The clusters in the order of the text. -/
def toClusters (s : Splitting) : List (List Char) :=
  (s.clusters.map List.reverse).reverse

@[simp] theorem flatten_toClusters_push (s : Splitting) (c : Char) :
    (s.push c).toClusters.flatten = s.toClusters.flatten ++ [c] := by
  obtain ⟨context, _ | ⟨cluster, earlier⟩⟩ := s
  · simp [push, toClusters]
  · by_cases h : context.breaksBefore (.ofChar c) = true <;> simp [push, toClusters, h]

theorem flatten_toClusters_foldl (cs : List Char) (s : Splitting) :
    (cs.foldl push s).toClusters.flatten = s.toClusters.flatten ++ cs := by
  induction cs generalizing s with
  | nil => simp
  | cons c cs ih => simp [ih]

end Splitting

/-- The clusters of a text. -/
def clusters (cs : List Char) : List (List Char) :=
  (cs.foldl Splitting.push ⟨.start, []⟩).toClusters

/-- The clusters make up the text. -/
theorem flatten_clusters (cs : List Char) : (clusters cs).flatten = cs := by
  rw [clusters, Splitting.flatten_toClusters_foldl]
  rfl

end CountedHeap
