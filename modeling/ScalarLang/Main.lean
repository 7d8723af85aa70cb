import ScalarLang.CommandLine

/-!
# The program

The command line on the real files, the real input and the real outputs.
-/

namespace ScalarLang

/-- The number of an error, which some operations give with the opposite sign. -/
def errorNumber (code : UInt32) : UInt32 := if code < 0x80000000 then code else 0 - code

/-- What an operation on a file has come to. -/
def FileFault.ofError : IO.Error → FileFault
  | .noFileOrDirectory .. => .notFound
  | .inappropriateType _ code _ =>
    if errorNumber code = 21 then .isADirectory else .notADirectory
  | error@(.invalidArgument _ code _) =>
    if errorNumber code = 36 then .nameTooLong
    else if errorNumber code = 22 then .nulInName
    else .other (toString error)
  | error => .other (toString error)

instance : Host IO where
  readText path := do
    match ← (IO.FS.readBinFile path).toBaseIO with
    | .error error => return .error (.ofError error)
    | .ok bytes =>
      match String.fromUTF8? bytes with
      | some text => return .ok text
      | none => return .error .notText
  writeText path text := do
    match ← (IO.FS.writeFile path text).toBaseIO with
    | .error error => return .error (.ofError error)
    | .ok () => return .ok ()
  readLine := do
    let line ← (← IO.getStdin).getLine
    return if line.isEmpty then none else some line
  isTyped := do (← IO.getStdin).isTty
  print text := do
    let out ← IO.getStdout
    out.putStr text
    out.flush
  report text := do
    let err ← IO.getStderr
    err.putStr text
    err.flush

end ScalarLang

def main (words : List String) : IO UInt32 := ScalarLang.CommandLine.run words
