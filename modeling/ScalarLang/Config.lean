import ScalarLang.Operator

/-!
# Configuration

* `Config` — what a user can choose: operator precedences, the name of the module, the bound on the
  call depth, colors, and whether listings are shown.
* `Config.same` — equality of configurations; the order of the precedence table does not matter.
-/

namespace ScalarLang

structure Config where
  precedence : PrecedenceTable := .standard
  moduleName : String := "mc"
  maxCallDepth : Nat := 1024
  color : Bool := true
  dumpIr : Bool := false
deriving DecidableEq, Repr, Inhabited

/-- Do two configurations say the same? -/
def Config.same (a b : Config) : Bool :=
  a.precedence.sameEntries b.precedence && a.moduleName == b.moduleName
    && a.maxCallDepth == b.maxCallDepth && a.color == b.color && a.dumpIr == b.dumpIr

end ScalarLang
