/-!
# Paths

A path is a row of steps between slashes.  A single dot stays in place, two dots lead up, and any
other part is the name of something in the folder that has been reached.

* `FileFault` — why a file cannot be read or written.
* `Path.parse` — the path that a text stands for.
* `Place` — where a file or a folder is, and where a step leads from there.
-/

namespace ScalarLang

/-- Why a file cannot be read or written. -/
inductive FileFault where
  | notFound
  | notADirectory
  | isADirectory
  | nameTooLong
  | nulInName
  | notText
  | other (text : String)
deriving DecidableEq, Repr, Inhabited

def FileFault.message : FileFault → String
  | notFound => "No such file or directory (os error 2)"
  | notADirectory => "Not a directory (os error 20)"
  | isADirectory => "Is a directory (os error 21)"
  | nameTooLong => "File name too long (os error 36)"
  | nulInName => "file name contained an unexpected NUL byte"
  | notText => "stream did not contain valid UTF-8"
  | other text => text

/-! ### Steps -/

/-- A step of a path. -/
inductive Step where
  | stay
  | up
  | down (name : String)
deriving DecidableEq, Repr, Inhabited

/-- The step that a part of a path stands for; nothing between two slashes is no step. -/
def Step.ofPart? : String → Option Step
  | "" => none
  | "." => some .stay
  | ".." => some .up
  | name => some (.down name)

/-- The longest name in a folder, in bytes. -/
def maxName : Nat := 255

/-- The longest path, in bytes. -/
def maxPath : Nat := 4095

structure Path where
  /-- Does the path start at the root? -/
  absolute : Bool := false
  steps : List Step := []
  /-- Does a slash say that the path leads to a folder? -/
  closed : Bool := false
deriving DecidableEq, Repr, Inhabited

namespace Path

/-- The path that a text of any length stands for. -/
def ofText (text : String) : Path where
  absolute := text.toList.head? = some '/'
  steps := (text.splitOn "/").filterMap Step.ofPart?
  closed := text.toList.getLast? = some '/'

/-- Refuses a text that no file can have as its path. -/
def parse (text : String) : Except FileFault Path :=
  if text.toList.contains '\x00' then .error .nulInName
  else if text = "" then .error .notFound
  else if maxPath < text.utf8ByteSize then .error .nameTooLong
  else .ok (ofText text)

end Path

/-! ### Places -/

/-- A folder that is there in any case: the root, or the folder some levels above the working
folder. -/
inductive Anchor where
  | root
  | above (levels : Nat)
deriving DecidableEq, Repr, Inhabited

/-- Where a file or a folder is: the names that lead to it from an anchor, the last one first. -/
structure Place where
  anchor : Anchor := .above 0
  names : List String := []
deriving DecidableEq, Repr, Inhabited

namespace Place

/-- The folder that a place is in; the root is in itself. -/
def parent (p : Place) : Place :=
  match p.names, p.anchor with
  | _ :: names, _ => { p with names }
  | [], .root => p
  | [], .above levels => { p with anchor := .above (levels + 1) }

/-- Where a step leads. -/
def after (p : Place) : Step → Place
  | .stay => p
  | .up => p.parent
  | .down name => { p with names := name :: p.names }

/-- Is `q` somewhere inside `p`? -/
def contains (p q : Place) : Bool :=
  p.anchor = q.anchor && p.names.isSuffixOf q.names && p.names.length < q.names.length

end Place

/-- Where a path starts. -/
def Path.start (path : Path) : Place := { anchor := if path.absolute then .root else .above 0 }

/-- Where a path leads if all that it names is there. -/
def Path.goal (path : Path) : Place := path.steps.foldl Place.after path.start

end ScalarLang
