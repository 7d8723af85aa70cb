import ScalarLang.Folder

/-!
# Where a program runs

* `Host` — the files, the input and the two outputs that a program has.
* `Desk` — a host that is a value: a folder, the input that is left, and what has been written.
-/

namespace ScalarLang

/-- What a program can ask of the place where it runs. -/
class Host (m : Type → Type) where
  readText : String → m (Except FileFault String)
  writeText : String → String → m (Except FileFault Unit)
  /-- The next line of the input with its line end; `none` at the end of the input. -/
  readLine : m (Option String)
  /-- Does somebody type the input? -/
  isTyped : m Bool
  print : String → m Unit
  report : String → m Unit

/-- Work that can fail runs where the work runs. -/
instance {m : Type → Type} {ε : Type} [Monad m] [Host m] : Host (ExceptT ε m) where
  readText path := ExceptT.lift (Host.readText path)
  writeText path text := ExceptT.lift (Host.writeText path text)
  readLine := ExceptT.lift Host.readLine
  isTyped := ExceptT.lift Host.isTyped
  print text := ExceptT.lift (Host.print text)
  report text := ExceptT.lift (Host.report text)

/-- A host that is a value. -/
structure Desk where
  folder : Folder := {}
  input : List Char := []
  output : String := ""
  errors : String := ""
deriving Inhabited

namespace Desk

/-- Splits off the first line with its line end. -/
def firstLine : List Char → List Char × List Char
  | [] => ([], [])
  | '\n' :: rest => (['\n'], rest)
  | c :: rest =>
    let (line, rest) := firstLine rest
    (c :: line, rest)

def readLine (d : Desk) : Option String × Desk :=
  if d.input.isEmpty then (none, d)
  else
    let (line, rest) := firstLine d.input
    (some (String.ofList line), { d with input := rest })

def writeText (d : Desk) (path text : String) : Except FileFault Unit × Desk :=
  match d.folder.writeText path text with
  | .ok folder => (.ok (), { d with folder })
  | .error fault => (.error fault, d)

instance : Host (StateM Desk) where
  readText path := fun d => (d.folder.readText path, d)
  writeText path text := fun d => d.writeText path text
  readLine := fun d => d.readLine
  isTyped := pure false
  print text := modify fun d => { d with output := d.output ++ text }
  report text := modify fun d => { d with errors := d.errors ++ text }

end Desk

end ScalarLang
