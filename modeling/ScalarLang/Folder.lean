import ScalarLang.Path

/-!
# Files in a folder

A folder holds files under names, and folders of its own where a name has a slash in it.  A path is
followed step by step: every step needs a folder to start from, and has to find what it names.

* `Folder.step`, `Folder.walk` — where a path leads.
* `Folder.readText`, `Folder.writeText` — the text of a file.
-/

namespace ScalarLang

/-- The bytes of the files of a folder, under their places. -/
structure Folder where
  files : List (Place × ByteArray) := []
deriving Inhabited

namespace Folder

def ofList (files : List (String × ByteArray)) : Folder :=
  ⟨files.map fun f => ((Path.ofText f.1).goal, f.2)⟩

/-- The bytes of the file at a place. -/
def file? (d : Folder) (p : Place) : Option ByteArray := d.files.lookup p

/-- Is there a folder at a place?  Anchors are folders, and so is what holds a file. -/
def isFolder (d : Folder) (p : Place) : Bool :=
  p.names.isEmpty || d.files.any fun f => p.contains f.1

/-- Takes a step, from a folder to something that is there. -/
def step (d : Folder) (p : Place) (s : Step) : Except FileFault Place := do
  if !d.isFolder p then throw .notADirectory
  if let .down name := s then
    if maxName < name.utf8ByteSize then throw .nameTooLong
  let q := p.after s
  if d.isFolder q || (d.file? q).isSome then return q
  throw .notFound

/-- Takes one step after the other. -/
def walk (d : Folder) (p : Place) (steps : List Step) : Except FileFault Place :=
  steps.foldlM d.step p

/-- Reads the file at a path as text. -/
def readText (d : Folder) (text : String) : Except FileFault String := do
  let path ← Path.parse text
  let p ← d.walk path.start path.steps
  match d.file? p with
  | none => throw .isADirectory
  | some bytes =>
    if path.closed then throw .notADirectory
    match String.fromUTF8? bytes with
    | some content => return content
    | none => throw .notText

/-- The folder with a file in the place of what was there. -/
def put (d : Folder) (p : Place) (bytes : ByteArray) : Folder :=
  ⟨d.files.filter (fun f => f.1 ≠ p) ++ [(p, bytes)]⟩

/-- Writes the file at a path.  The folder that it is in has to be there, and the path has to end in
the name of the file. -/
def writeText (d : Folder) (text content : String) : Except FileFault Folder := do
  let path ← Path.parse text
  match path.steps.getLast? with
  | some (.down name) =>
    let above ← d.walk path.start path.steps.dropLast
    if !d.isFolder above then throw .notADirectory
    if path.closed then throw .isADirectory
    if maxName < name.utf8ByteSize then throw .nameTooLong
    let p := above.after (.down name)
    if d.isFolder p then throw .isADirectory
    return d.put p content.toUTF8
  | _ =>
    let _ ← d.walk path.start path.steps
    throw .isADirectory

end Folder

end ScalarLang
