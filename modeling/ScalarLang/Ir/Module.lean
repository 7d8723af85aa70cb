import ScalarLang.Ir.Text
import ScalarLang.Typing

/-!
# Modules

A module holds functions in the order in which their names were first put in, at most one for each
name.

* `Ir.Module.insert` — puts a function in; one that has its name already is replaced in its place.
* `Ir.Module.erase` — takes a function out; the others keep their order.
* `Ir.Module.signature?` — what a function looks like to a caller in source text.
* `Ir.Module.text` — the listing of a module.
-/

namespace ScalarLang

namespace Ir

structure Module where
  name : String
  functions : List Function := []
  distinct : (functions.map Function.name).Nodup := by simp

namespace Module

instance : Inhabited Module := ⟨{ name := "" }⟩

/-- A module without functions. -/
def empty (name : String) : Module := { name }

def get? (m : Module) (name : String) : Option Function := m.functions.find? fun f => f.name == name

def contains (m : Module) (name : String) : Bool := m.functions.any fun f => f.name == name

def names (m : Module) : List String := m.functions.map Function.name

def size (m : Module) : Nat := m.functions.length

def isEmpty (m : Module) : Bool := m.functions.isEmpty

/-- The functions with `f` in the place of the one of its name, or at the end. -/
def insertInto (f : Function) (fs : List Function) : List Function :=
  if fs.any fun g => g.name == f.name then fs.map fun g => if g.name = f.name then f else g
  else fs ++ [f]

theorem nodup_insertInto (f : Function) (fs : List Function)
    (h : (fs.map Function.name).Nodup) : ((insertInto f fs).map Function.name).Nodup := by
  unfold insertInto
  split
  case isTrue =>
    have same : (fs.map fun g => if g.name = f.name then f else g).map Function.name
        = fs.map Function.name := by
      simp only [List.map_map]
      refine List.map_congr_left fun g _ => ?_
      simp only [Function.comp_apply]
      split
      · next e => exact e.symm
      · rfl
    rw [same]
    exact h
  case isFalse absent =>
    rw [List.map_append, List.nodup_append]
    refine ⟨h, by simp, ?_⟩
    intro a ha b hb
    obtain ⟨g, hg, rfl⟩ := List.mem_map.1 ha
    simp only [List.map_cons, List.map_nil, List.mem_singleton] at hb
    subst hb
    intro e
    exact absent (List.any_eq_true.2 ⟨g, hg, by simpa using e⟩)

/-- Puts a function in; one that has its name already is replaced in its place. -/
def insert (m : Module) (f : Function) : Module :=
  ⟨m.name, insertInto f m.functions, nodup_insertInto f m.functions m.distinct⟩

/-- Takes the function of that name out. -/
def erase (m : Module) (name : String) : Module :=
  ⟨m.name, m.functions.filter fun f => f.name != name,
    m.distinct.sublist (List.filter_sublist.map Function.name)⟩

/-- What a function looks like to a caller in source text.  A function that takes or gives a truth
value cannot be called from there. -/
def signature? (m : Module) : Signatures := fun name => do
  let f ← m.get? name
  let params ← f.params.mapM fun p => p.ty.toNum?
  let ret ← f.ret.toNum?
  return ⟨params, ret⟩

/-- The listing of a module: a header and the functions, each behind a blank line. -/
def text (m : Module) : String :=
  "; ModuleID = '" ++ m.name ++ "'\n" ++ String.join (m.functions.map fun f => "\n" ++ f.text)

end Module

end Ir

end ScalarLang
