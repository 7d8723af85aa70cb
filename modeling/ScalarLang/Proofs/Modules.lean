import Mathlib
import ScalarLang.Ir.Module

/-!
# Modules as lists of functions

A module is a list of functions with distinct names.  A function is found under its name exactly if it
is in the list; one with a new name goes to the end, and taking it out again restores the module.

* `Ir.Module.get?_eq_some_iff`, `Ir.Module.contains_eq_false_iff` — looking a name up.
* `Ir.Module.functions_insert`, `Ir.Module.functions_insert_insert` — putting a new function in, and
  replacing it there.
* `Ir.Module.erase_eq_of_functions` — taking the last function out.
* `Ir.Module.signature?_eq_some_iff` — what a function looks like to a caller.
* `Ir.Module.get?_of_functions_append` — looking a name up when one more function is there.
-/

namespace ScalarLang

namespace Ir

theorem Ty.toNum?_eq_some_iff {ty : Ty} {num : NumType} :
    ty.toNum? = some num ↔ Ty.ofNum? num = some ty := by
  cases ty <;> cases num <;> decide

theorem Ty.exists_ofNum? {num : NumType} (h : num.isResolved) : ∃ ty, Ty.ofNum? num = some ty := by
  cases num with
  | unresolved => cases h
  | int => exact ⟨.i64, rfl⟩
  | double => exact ⟨.double, rfl⟩

theorem Ty.isResolved_of_ofNum? {num : NumType} {ty : Ty} (h : Ty.ofNum? num = some ty) :
    num.isResolved := by
  cases num with
  | unresolved => cases h
  | int => rfl
  | double => rfl

/-- The parameters and the result of a function have the types of a signature. -/
structure Function.HasSignature (f : Function) (sig : Signature) : Prop where
  params : sig.params.map Ty.ofNum? = f.params.map fun p => some p.ty
  ret : Ty.ofNum? sig.ret = some f.ret

theorem Ty.ofNum?_inj {a b : NumType} {ty : Ty} (ha : Ty.ofNum? a = some ty)
    (hb : Ty.ofNum? b = some ty) : a = b := by
  rw [← Ty.toNum?_eq_some_iff] at ha hb
  exact Option.some.inj (ha.symm.trans hb)

/-- A function has one signature at most. -/
theorem Function.HasSignature.unique {f : Function} {sig sig' : Signature} (h : f.HasSignature sig)
    (h' : f.HasSignature sig') : sig = sig' := by
  obtain ⟨params, ret⟩ := sig
  obtain ⟨params', ret'⟩ := sig'
  have hret : ret = ret' := Ty.ofNum?_inj h.ret h'.ret
  have hparams : params = params' := by
    have hmap : ∀ nums : List NumType, nums.map Ty.ofNum? = f.params.map (fun p => some p.ty) →
        nums.map some = f.params.map fun p => p.ty.toNum? := by
      intro nums hnums
      have := congrArg (List.map fun ty? : Option Ty => ty?.bind Ty.toNum?) hnums
      rw [List.map_map, List.map_map] at this
      refine Eq.trans (List.map_congr_left fun num hnum => ?_) this
      have hin : Ty.ofNum? num ∈ f.params.map fun p => some p.ty :=
        hnums ▸ List.mem_map_of_mem hnum
      obtain ⟨p, -, hp⟩ := List.mem_map.1 hin
      show some num = (Ty.ofNum? num).bind Ty.toNum?
      rw [← hp]
      exact (Ty.toNum?_eq_some_iff.2 hp.symm).symm
    have hsome := (hmap params h.params).trans (hmap params' h'.params).symm
    exact List.map_injective_iff.2 (Option.some_injective NumType) hsome
  rw [hparams, hret]

namespace Module

variable {m m' : Module} {f g : Function} {name : String}

/-- Modules are equal if their names and functions are. -/
theorem eq_of_functions (hn : m.name = m'.name) (hf : m.functions = m'.functions) : m = m' := by
  cases m
  cases m'
  simp only at hn hf
  subst hn hf
  rfl

/-! ### Looking a name up -/

theorem get?_eq_some_iff : m.get? name = some f ↔ f ∈ m.functions ∧ f.name = name := by
  constructor
  · intro h
    exact ⟨List.mem_of_find?_eq_some h, by simpa using List.find?_some h⟩
  · rintro ⟨hf, rfl⟩
    -- the names are distinct, so the first function of that name is this one
    obtain ⟨g, hg⟩ : ∃ g, m.get? f.name = some g := by
      rw [← Option.isSome_iff_exists, get?, List.find?_isSome]
      exact ⟨f, hf, by simp⟩
    have hmem := List.mem_of_find?_eq_some hg
    have hname : g.name = f.name := by simpa using List.find?_some hg
    rw [hg, List.inj_on_of_nodup_map m.distinct hmem hf hname]

theorem get?_eq_none_iff : m.get? name = none ↔ ∀ f ∈ m.functions, f.name ≠ name := by
  simp [get?]

theorem contains_eq_false_iff : m.contains name = false ↔ ∀ f ∈ m.functions, f.name ≠ name := by
  simp [contains]

theorem get?_eq_none_of_contains (h : m.contains name = false) : m.get? name = none :=
  get?_eq_none_iff.2 (contains_eq_false_iff.1 h)

/-! ### Putting functions in and taking them out -/

/-- A function with a new name goes to the end. -/
theorem functions_insert (h : m.contains f.name = false) :
    (m.insert f).functions = m.functions ++ [f] := by
  show insertInto f m.functions = _
  rw [insertInto, if_neg]
  exact Bool.eq_false_iff.1 h

/-- A function that has just been put in is replaced in its place. -/
theorem functions_insert_insert (h : m.contains f.name = false) (hg : g.name = f.name) :
    ((m.insert f).insert g).functions = m.functions ++ [g] := by
  show insertInto g (m.insert f).functions = _
  have hold : ∀ k ∈ m.functions, k.name ≠ g.name := by
    rw [hg]
    exact contains_eq_false_iff.1 h
  rw [functions_insert h, insertInto, if_pos (by simp [hg]), List.map_append]
  congr 1
  · conv_rhs => rw [← List.map_id m.functions]
    exact List.map_congr_left fun k hk => if_neg (hold k hk)
  · simp [hg]

/-- Taking the last function out restores the module. -/
theorem erase_eq_of_functions (hn : m'.name = m.name) (h : m'.functions = m.functions ++ [f])
    (hm : m.contains f.name = false) : m'.erase f.name = m := by
  refine eq_of_functions hn ?_
  show m'.functions.filter (fun g => g.name != f.name) = m.functions
  rw [h, List.filter_append]
  have hold : m.functions.filter (fun g => g.name != f.name) = m.functions := by
    rw [List.filter_eq_self]
    intro g hg
    simpa using contains_eq_false_iff.1 hm g hg
  simp [hold]

/-! ### Signatures -/

theorem mapM_toNum?_eq_some_iff {params : List Param} {nums : List NumType} :
    params.mapM (fun p => p.ty.toNum?) = some nums ↔
      nums.map Ty.ofNum? = params.map fun p => some p.ty := by
  induction params generalizing nums with
  | nil =>
    rw [List.mapM_nil, List.map_nil, List.map_eq_nil_iff]
    exact ⟨fun h => (Option.some.inj h).symm, fun h => congrArg some h.symm⟩
  | cons p params ih =>
    rw [List.mapM_cons]
    cases nums with
    | nil => simp [Option.bind_eq_some_iff]
    | cons num nums =>
      simp [Option.bind_eq_some_iff, Ty.toNum?_eq_some_iff, ih]

theorem signature?_eq_some_iff {sig : Signature} :
    m.signature? name = some sig ↔ ∃ f, m.get? name = some f ∧ f.HasSignature sig := by
  simp only [signature?, Option.bind_eq_bind, Option.bind_eq_some_iff, mapM_toNum?_eq_some_iff,
    Ty.toNum?_eq_some_iff, Option.pure_def, Option.some.injEq]
  constructor
  · intro h
    obtain ⟨f, hf, params, hparams, ret, hret, rfl⟩ := h
    exact ⟨f, hf, hparams, hret⟩
  · intro h
    obtain ⟨f, hf, hparams, hret⟩ := h
    exact ⟨f, hf, sig.params, hparams, sig.ret, hret, rfl⟩

/-! ### One more function -/

/-- With one more function at the end, names mean what they meant, and its name means that function. -/
theorem get?_of_functions_append (h : m'.functions = m.functions ++ [f]) :
    m'.get? name = (m.get? name).or (if f.name = name then some f else none) := by
  rw [get?, h, List.find?_append]
  congr 1
  by_cases hn : f.name = name
  · simp [hn]
  · simp [hn]

end Module

end Ir

end ScalarLang
