import ScalarLang.Text.GraphemeBreak

/-!
# Clusters

A cluster is what a reader takes for one character: a letter with its marks, a syllable, a flag, a
picture put together from others, a conjunct.  Clusters are cut from left to right.  Whether the
next character still belongs to the cluster under way depends on the characters at the end of it,
and `ClusterEnd` keeps as much of them as the rules ask for.

* `ClusterEnd.joins` — does the next character belong to the cluster?
* `clusters` — the clusters of a text.
* `flatten_clusters` — nothing is lost.
-/

namespace ScalarLang

namespace GraphemeBreak

/-- Does a character of this class stand alone? -/
def isControl : GraphemeBreak → Bool
  | carriageReturn | lineFeed | control => true
  | _ => false

/-- Is this a mark without a width of its own, joiners apart? -/
def isMark : GraphemeBreak → Bool
  | extend | linker | nonJoiner => true
  | _ => false

/-- Does a character of this class belong to whatever is before it? -/
def attaches (b : GraphemeBreak) : Bool := b.isMark || b == joiner || b == spacingMark

end GraphemeBreak

/-- How far a picture at the end of a cluster has come. -/
inductive Picture where
  | absent
  /-- A pictograph and marks. -/
  | shown
  /-- A pictograph, marks and a joiner. -/
  | joined
deriving DecidableEq, Repr, Inhabited

/-- How far a conjunct at the end of a cluster has come. -/
inductive Conjunct where
  | absent
  /-- A consonant and marks. -/
  | begun
  /-- A consonant and marks, a linker among them. -/
  | linked
deriving DecidableEq, Repr, Inhabited

/-- The picture after one more character. -/
def Picture.next (p : Picture) (b : GraphemeBreak) : Picture :=
  if b = .pictograph then .shown
  else if p = .shown ∧ b.isMark then .shown
  else if p = .shown ∧ b = .joiner then .joined
  else .absent

/-- The conjunct after one more character. -/
def Conjunct.next (c : Conjunct) (b : GraphemeBreak) : Conjunct :=
  match b with
  | .consonant => .begun
  | .linker => if c = .absent then .absent else .linked
  | .extend | .joiner => c
  | _ => .absent

/-- What the end of a cluster asks of the next character. -/
structure ClusterEnd where
  last : GraphemeBreak
  picture : Picture
  conjunct : Conjunct
  /-- Does the cluster end in half a flag? -/
  halfFlag : Bool
deriving DecidableEq, Repr, Inhabited

namespace ClusterEnd

/-- A cluster of one character. -/
def start (b : GraphemeBreak) : ClusterEnd where
  last := b
  picture := Picture.absent.next b
  conjunct := Conjunct.absent.next b
  halfFlag := b = .regional

/-- A cluster with one more character. -/
def next (x : ClusterEnd) (b : GraphemeBreak) : ClusterEnd where
  last := b
  picture := x.picture.next b
  conjunct := x.conjunct.next b
  halfFlag := b = .regional && !x.halfFlag

/-- Does the next character belong to the cluster? -/
def joins (x : ClusterEnd) (b : GraphemeBreak) : Bool :=
  if x.last = .carriageReturn ∧ b = .lineFeed then true
  else if x.last.isControl || b.isControl then false
  else if b.attaches || x.last = .prepend then true
  else
    match b with
    | .leadingJamo | .openSyllable | .closedSyllable => x.last = .leadingJamo
    | .vowelJamo => [.leadingJamo, .openSyllable, .vowelJamo].contains x.last
    | .trailingJamo =>
      [.openSyllable, .vowelJamo, .closedSyllable, .trailingJamo].contains x.last
    | .consonant => x.conjunct = .linked
    | .pictograph => x.picture = .joined
    | .regional => x.halfFlag
    | _ => false

end ClusterEnd

/-! ### Cutting a text -/

/-- The clusters of a text whose first cluster has begun.  The characters of that cluster, and the
clusters before it, are given the last one first. -/
def clustersFrom (x : ClusterEnd) (current : List Char) (done : List (List Char)) :
    List Char → List (List Char)
  | [] => (current.reverse :: done).reverse
  | c :: rest =>
    let b := GraphemeBreak.of c
    if x.joins b then clustersFrom (x.next b) (c :: current) done rest
    else clustersFrom (.start b) [c] (current.reverse :: done) rest

/-- The clusters of a text. -/
def clusters : List Char → List (List Char)
  | [] => []
  | c :: rest => clustersFrom (.start (.of c)) [c] [] rest

theorem flatten_clustersFrom (x : ClusterEnd) (current : List Char) (done : List (List Char))
    (cs : List Char) :
    (clustersFrom x current done cs).flatten = done.reverse.flatten ++ current.reverse ++ cs := by
  induction cs generalizing x current done with
  | nil => simp [clustersFrom]
  | cons c rest ih =>
    rw [clustersFrom]
    split
    · simp [ih]
    · simp [ih]

/-- Nothing is lost: a text is the row of its clusters. -/
theorem flatten_clusters (cs : List Char) : (clusters cs).flatten = cs := by
  cases cs with
  | nil => rfl
  | cons c rest => simp [clusters, flatten_clustersFrom]

end ScalarLang
