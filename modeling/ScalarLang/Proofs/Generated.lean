import ScalarLang.Proofs.Lowered

/-!
# Typed definitions become functions

Adding the function of a definition to a module puts a declaration in first, lowers the body, verifies
the function and puts it in the place of the declaration.  For a typed definition with a new name all
of this goes through, and the module has one more function at its end.

* `Ir.declare_typed` — the declaration of a prototype has its signature.
* `Ir.Function.Implements` — how a function came of a definition.
* `Ir.Module.generate_typed` — a typed definition with a new name becomes a function of the module.
-/

namespace ScalarLang

namespace Ir

/-! ### Declarations -/

section Declare

variable {f : Function}

@[simp] theorem Function.addParam_name (p : Param) : (f.addParam p).name = f.name := by
  simp [addParam]

@[simp] theorem Function.addParam_ret (p : Param) : (f.addParam p).ret = f.ret := by
  simp [addParam]

@[simp] theorem Function.addParam_insts (p : Param) : (f.addParam p).insts = f.insts := by
  simp [addParam]

@[simp] theorem Function.addParam_blocks (p : Param) : (f.addParam p).blocks = f.blocks := by
  simp [addParam]

@[simp] theorem Function.addParam_layout (p : Param) : (f.addParam p).layout = f.layout := by
  simp [addParam]

theorem Function.map_ty_addParam (p : Param) :
    (f.addParam p).params.map Param.ty = f.params.map Param.ty ++ [p.ty] := by
  simp [addParam]

/-- A function that has nothing but a head. -/
structure Function.Bare (f : Function) : Prop where
  insts : f.insts = #[]
  blocks : f.blocks = #[]
  layout : f.layout = []

theorem Function.foldl_addParam (params : List Param) :
    (params.foldl addParam f).name = f.name ∧ (params.foldl addParam f).ret = f.ret ∧
      (params.foldl addParam f).params.map Param.ty = f.params.map Param.ty ++ params.map Param.ty ∧
      (f.Bare → (params.foldl addParam f).Bare) := by
  induction params generalizing f with
  | nil =>
    refine ⟨rfl, rfl, ?_, fun h => h⟩
    rw [List.map_nil, List.append_nil]
    rfl
  | cons p params ih =>
    obtain ⟨hname, hret, hparams, hbare⟩ := ih (f := f.addParam p)
    rw [List.foldl_cons]
    refine ⟨by rw [hname, addParam_name], by rw [hret, addParam_ret], ?_, fun h => hbare ?_⟩
    · rw [hparams, map_ty_addParam, List.map_cons, List.append_assoc, List.singleton_append]
    · exact ⟨by rw [addParam_insts, h.insts], by rw [addParam_blocks, h.blocks],
        by rw [addParam_layout, h.layout]⟩

theorem mapM_lowerParam {params : List ScalarLang.Param} (h : ∀ p ∈ params, p.ty.isResolved) :
    ∃ ps, params.mapM lowerParam = .ok ps ∧
      (params.map ScalarLang.Param.ty).map Ty.ofNum? = ps.map fun p => some p.ty := by
  induction params with
  | nil => exact ⟨[], rfl, rfl⟩
  | cons p params ih =>
    obtain ⟨ps, hps, hmap⟩ := ih fun q hq => h q (List.mem_cons_of_mem p hq)
    obtain ⟨ty, hty⟩ := Ty.exists_ofNum? (h p List.mem_cons_self)
    refine ⟨⟨p.name, ty⟩ :: ps, ?_, ?_⟩
    · rw [List.mapM_cons, lowerParam, lowerTy_eq_ok_iff.2 hty, hps]
      rfl
    · rw [List.map_cons, List.map_cons, List.map_cons, hty, hmap]

/-- The declaration of a prototype with resolved types has its name and signature. -/
theorem declare_typed {p : Prototype} (hparams : ∀ q ∈ p.params, q.ty.isResolved)
    (hret : p.ret.isResolved) :
    ∃ f, declare p = .ok f ∧ f.name = p.name ∧ f.HasSignature p.signature ∧ f.Bare := by
  obtain ⟨ps, hps, hmap⟩ := mapM_lowerParam hparams
  obtain ⟨ty, hty⟩ := Ty.exists_ofNum? hret
  obtain ⟨hname, hret', htys, hbare⟩ := Function.foldl_addParam (f := { name := p.name, ret := ty }) ps
  refine ⟨Function.declare p.name ps ty, ?_, hname, ⟨?_, ?_⟩, hbare ⟨rfl, rfl, rfl⟩⟩
  · rw [declare, hps, lowerTy_eq_ok_iff.2 hty]
    rfl
  · have hsome := congrArg (List.map some) htys
    rw [List.map_map, List.map_append, List.map_map, List.map_map] at hsome
    exact hmap.trans hsome.symm
  · exact hty.trans (congrArg some hret'.symm)

end Declare

/-! ### Bodies -/

/-- The builder in which the body of a declared function is lowered. -/
def entryBuilder (declaration : Function) : Builder :=
  let (entry, b) := ({ function := declaration } : Builder).appendNewBlock "entry"
  b.position entry

section Entry

variable {m : Module} {f : Function}

theorem Function.Bare.tidy (h : f.Bare) : f.Tidy m [] [] := by
  have hblock : ∀ id, f.block? id = none := by
    intro id
    rw [Function.block?, h.blocks]
    rfl
  refine ⟨h.layout, List.nodup_nil, by simp, by simp, ?_, ?_, ?_, by simp, by simp⟩
  · intro id b hb
    rw [hblock] at hb
    cases hb
  · intro id b hb
    rw [hblock] at hb
    cases hb
  · rw [h.insts]
    rfl

theorem entryBuilder_eq (h : f.Bare) :
    entryBuilder f =
      ((({ function := f } : Builder).createBlock "entry").2.appendBlock 0).position 0 := by
  simp [entryBuilder, Builder.appendNewBlock, h.blocks]

/-- The entry is the one block there is, and nothing is in it yet. -/
theorem entry_tidy (h : f.Bare) : (entryBuilder f).function.Tidy m [] [0] := by
  rw [entryBuilder_eq h]
  have htidy : (({ function := f } : Builder).createBlock "entry").2.function.Tidy m [] [] :=
    Function.Tidy.createBlock (b := { function := f }) h.tidy "entry"
  exact htidy.append (by simp) (by simp)

theorem entry_ready (h : f.Bare) : (entryBuilder f).Ready m :=
  ⟨[], 0, by rw [entryBuilder_eq h]; rfl, entry_tidy h⟩

theorem size_blocks_entry (h : f.Bare) : (entryBuilder f).function.blocks.size = 1 := by
  rw [entryBuilder_eq h]
  show (Builder.appendBlock _ 0).function.blocks.size = 1
  rw [Builder.blocks_appendBlock, Builder.size_blocks_createBlock, h.blocks]
  rfl

theorem instsAt_entry (h : f.Bare) : (entryBuilder f).function.instsAt 0 = [] := by
  rw [entryBuilder_eq h]
  show (Builder.appendBlock _ 0).function.instsAt 0 = []
  have hblock : (({ function := f } : Builder).createBlock "entry").2.function.block? 0 =
      some { label := (f.unique "entry").1 } := by
    rw [Builder.block?_createBlock, if_pos (by rw [h.blocks]; rfl)]
  rw [Function.instsAt, Function.block?, Builder.blocks_appendBlock]
  show ((({ function := f } : Builder).createBlock "entry").2.function.block? 0).elim [] _ = []
  rw [hblock]
  rfl

theorem entry_extends (h : f.Bare) : f.Extends (entryBuilder f).function := by
  rw [entryBuilder_eq h]
  exact (Builder.extends_createBlock (b := { function := f }) "entry").trans
    (Builder.extends_appendBlock 0)

end Entry

/-- How a function came of a definition: the body was lowered in a module where the declaration stood,
and the entry returns its value. -/
structure Function.Implements (f : Function) (d : Definition) (m : Module) : Prop where
  typed : d.Typed m.signature?
  name : f.name = d.proto.name
  signature : f.HasSignature d.proto.signature
  code : ∃ declaration v b, declaration.Bare ∧ TakesParams d.proto.params declaration ∧
    lower m d.proto.params d.body (entryBuilder declaration) = .ok v b ∧
    Lowered m (entryBuilder declaration) b ∧ f = (b.terminate (.ret v)).function

theorem Function.Implements.isDeclaration {f : Function} {d : Definition} {m : Module}
    (h : f.Implements d m) : f.isDeclaration = false := by
  obtain ⟨declaration, v, b, hbare, -, -, hlow, rfl⟩ := h.code
  have hsize := hlow.after.grown.size_blocks
  rw [size_blocks_entry hbare, ← Builder.size_blocks_terminate (.ret v)] at hsize
  rw [Function.isDeclaration, Array.isEmpty_eq_false_iff]
  intro hnil
  rw [hnil] at hsize
  exact absurd hsize (by decide)

section Body

variable {m : Module} {declaration : Function} {d : Definition}

theorem lowerBody_eq (m : Module) (declaration : Function) (d : Definition) :
    lowerBody m declaration d =
      if d.body.ty = d.proto.ret then
        match lower m d.proto.params d.body (entryBuilder declaration) with
        | .error e _ => .error e
        | .ok value b =>
          match (b.terminate (.ret value)).function.verify m with
          | .ok () => .ok (b.terminate (.ret value)).function
          | .error e => .error (.verify e)
      else .error (.typing (.returnType d.proto.name d.proto.ret d.body.ty d.body.span)) :=
  rfl

theorem lowerBody_eq_ok_iff {f : Function} :
    lowerBody m declaration d = .ok f ↔ d.body.ty = d.proto.ret ∧ ∃ v b,
      lower m d.proto.params d.body (entryBuilder declaration) = .ok v b ∧
        (b.terminate (.ret v)).function = f ∧ f.verify m = .ok () := by
  rw [lowerBody_eq]
  by_cases hret : d.body.ty = d.proto.ret
  · rw [if_pos hret]
    cases hl : lower m d.proto.params d.body (entryBuilder declaration) with
    | error e b => simp
    | ok v b =>
      simp only [hret, true_and]
      constructor
      · intro h
        split at h
        · next hverify =>
          obtain rfl := Except.ok.inj h
          exact ⟨v, b, rfl, rfl, hverify⟩
        · cases h
      · intro h
        obtain ⟨_, _, heq, rfl, hverify⟩ := h
        cases heq
        rw [hverify]
  · rw [if_neg hret]
    simp [hret]

/-- **A typed body is lowered to a function that passes verification**, whatever its parameters are
called. -/
theorem lowerBody_of_typed (hbody : d.body.Typed d.proto.params m.signature?)
    (hret : d.body.ty = d.proto.ret) (hbare : declaration.Bare)
    (hsig : declaration.HasSignature d.proto.signature) :
    ∃ v b, lower m d.proto.params d.body (entryBuilder declaration) = .ok v b ∧
      Lowered m (entryBuilder declaration) b ∧
      declaration.Extends (b.terminate (.ret v)).function ∧
      lowerBody m declaration d = .ok (b.terminate (.ret v)).function := by
  have hext := entry_extends hbare
  have hparams : TakesParams d.proto.params declaration := hsig.params
  have hty : Ty.ofNum? d.body.ty = some declaration.ret := by
    rw [hret]
    exact hsig.ret
  obtain ⟨v, b, hv, hlow, huse⟩ := lower_typed hbody (entryBuilder declaration) declaration.ret hty
    (entry_ready hbare) (hparams.mono hext)
  obtain ⟨done, here, hc, htidy⟩ := hlow.ready
  have hgrown := hext.trans hlow.after.grown
  have hend : (Terminator.ret v).TypedBy b.function.ret
      (b.function.UsesBelow b.function.insts.size) := by
    rw [hgrown.ret]
    exact huse
  have hdone : (b.terminate (.ret v)).function.Tidy m (done ++ [here]) [] :=
    htidy.terminate hc hend (by simp [Terminator.successors])
  have hverified : (b.terminate (.ret v)).function.Verified m := by
    refine hdone.verified (by simp) fun id hid => ?_
    rw [Builder.size_blocks_terminate] at hid
    rw [← htidy.layout]
    by_cases hzero : id = 0
    · refine hlow.after.mem_layout ?_
      rw [(entry_tidy (m := m) hbare).layout, hzero]
      exact List.mem_singleton_self 0
    · refine hlow.laid id ?_ hid
      rw [size_blocks_entry hbare]
      omega
  refine ⟨v, b, hv, hlow, ?_, ?_⟩
  · exact hgrown.trans (Builder.extends_terminate _ hc (htidy.unfinished_rest here (by simp)))
  · exact lowerBody_eq_ok_iff.2 ⟨hret, v, b, hv, rfl, Function.verify_eq_ok_iff.2 hverified⟩

/-- **The body of a typed definition is lowered to a function of that definition.** -/
theorem lowerBody_typed (hd : d.Typed m.signature?) (hbare : declaration.Bare)
    (hname : declaration.name = d.proto.name)
    (hsig : declaration.HasSignature d.proto.signature) :
    ∃ f, lowerBody m declaration d = .ok f ∧ f.Implements d m := by
  obtain ⟨v, b, hv, hlow, hfinal, hbody⟩ := lowerBody_of_typed hd.body hd.ret hbare hsig
  refine ⟨_, hbody, hd, ?_, ⟨?_, ?_⟩, declaration, v, b, hbare, hsig.params, hv, hlow, rfl⟩
  · rw [hfinal.name, hname]
  · rw [hfinal.params]
    exact hsig.params
  · rw [hfinal.ret]
    exact hsig.ret

end Body

/-! ### Modules -/

namespace Module

variable {m m' : Module} {f g : Function} {d : Definition}

/-- A function that has a new name is found under it, and all others as before. -/
theorem signature?_of_functions_append (h : m'.functions = m.functions ++ [f])
    (hnew : m.contains f.name = false) {sig : Signature} (hsig : f.HasSignature sig)
    {name : String} {s : Signature}
    (hs : (if f.name = name then some sig else m.signature? name) = some s) :
    m'.signature? name = some s := by
  rw [signature?_eq_some_iff]
  by_cases hname : f.name = name
  · rw [if_pos hname] at hs
    obtain rfl := Option.some.inj hs
    refine ⟨f, ?_, hsig⟩
    rw [get?_of_functions_append h, ← hname, get?_eq_none_of_contains hnew, if_pos rfl]
    rfl
  · rw [if_neg hname] at hs
    obtain ⟨g, hg, hgsig⟩ := signature?_eq_some_iff.1 hs
    refine ⟨g, ?_, hgsig⟩
    rw [get?_of_functions_append h, hg]
    rfl

/-- A module with one more function knows that function, and all others as before. -/
theorem signature?_eq_ite (h : m'.functions = m.functions ++ [f])
    (hnew : m.contains f.name = false) {sig : Signature} (hsig : f.HasSignature sig) (name : String) :
    m'.signature? name = if f.name = name then some sig else m.signature? name := by
  cases hs : (if f.name = name then some sig else m.signature? name) with
  | some s => exact signature?_of_functions_append h hnew hsig hs
  | none =>
    by_cases hname : f.name = name
    · rw [if_pos hname] at hs
      cases hs
    · rw [if_neg hname] at hs
      rw [Option.eq_none_iff_forall_ne_some]
      intro s hs'
      obtain ⟨g, hg, hgsig⟩ := signature?_eq_some_iff.1 hs'
      rw [get?_of_functions_append h, if_neg hname, Option.or_none] at hg
      rw [signature?_eq_some_iff.2 ⟨g, hg, hgsig⟩] at hs
      cases hs

/-- The functions of a module look as they did when there is one more. -/
theorem signature?_append (h : m'.functions = m.functions ++ [f]) {name : String} {s : Signature}
    (hs : m.signature? name = some s) : m'.signature? name = some s := by
  obtain ⟨g, hg, hgsig⟩ := signature?_eq_some_iff.1 hs
  refine signature?_eq_some_iff.2 ⟨g, ?_, hgsig⟩
  rw [get?_of_functions_append h, hg]
  rfl

/-- **A typed definition with a new name becomes a function at the end of the module.** -/
theorem generate_typed (hd : d.Typed (Program.ownSignatures m.signature? d.proto))
    (hnew : m.contains d.proto.name = false) :
    ∃ f m' m₁, m.generate d = (.ok f, m') ∧ m'.name = m.name ∧ m'.functions = m.functions ++ [f] ∧
      f.Implements d m₁ ∧
      ∀ name s, m₁.signature? name = some s → m'.signature? name = some s := by
  have hres : d.proto.ret.isResolved := hd.ret ▸ hd.body.resolved
  obtain ⟨declaration, hdecl, hname, hsig, hbare⟩ := declare_typed hd.params hres
  have hnew' : m.contains declaration.name = false := hname ▸ hnew
  have hins := functions_insert hnew'
  have hown : ∀ name s, Program.ownSignatures m.signature? d.proto name = some s →
      (m.insert declaration).signature? name = some s := by
    intro name s hs
    refine signature?_of_functions_append hins hnew' hsig ?_
    rw [hname]
    exact hs
  have htyped : d.Typed (m.insert declaration).signature? :=
    ⟨hd.names, hd.params, hd.body.mono hown, hd.ret⟩
  obtain ⟨f, hf, himp⟩ := lowerBody_typed htyped hbare hname hsig
  have hfname : f.name = declaration.name := by rw [himp.name, hname]
  have hfunctions := functions_insert_insert hnew' hfname
  refine ⟨f, (m.insert declaration).insert f, m.insert declaration, ?_, rfl, hfunctions, himp, ?_⟩
  · rw [generate, if_neg (by rw [hnew]; decide), hdecl]
    simp only [hf]
  · intro name s hs
    -- the function looks to callers as its declaration did
    obtain ⟨g, hg, hgsig⟩ := signature?_eq_some_iff.1 hs
    rw [get?_of_functions_append hins] at hg
    refine signature?_of_functions_append hfunctions (hfname ▸ hnew') himp.signature ?_
    by_cases hn : declaration.name = name
    · rw [hfname, if_pos hn]
      rw [← hn, get?_eq_none_of_contains hnew', if_pos rfl] at hg
      obtain rfl := Option.some.inj hg
      rw [hgsig.unique hsig]
    · rw [hfname, if_neg hn]
      rw [if_neg hn, Option.or_none] at hg
      exact signature?_eq_some_iff.2 ⟨g, hg, hgsig⟩

end Module

end Ir

end ScalarLang
