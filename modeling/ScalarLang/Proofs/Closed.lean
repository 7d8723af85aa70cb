import ScalarLang.Proofs.Sessions

/-!
# Functions stay verified

A function is verified before it is put into a module: against the functions that are there by then and
its own declaration.  All that verification asks of the module is what the callees look like, so the
functions that come later do not matter, and neither does the function of an expression, which nothing
calls and which is taken out again.

* `Ir.Module.Serves` — a module in which every call of another one finds a callee of the same types.
* `Ir.Function.Verified.of_serves` — what is verified against the one is verified against the other.
* `Ir.Function.Verified.exists_callee` — a verified function calls only functions that are there.
* `Ir.Module.generate_eq_ok` — what happens when the function of a definition is added.
* `Session.Reached.verified` — all functions of a reached module pass verification against it as it is.
* `Compiler.Reached.module_closed` — and they have bodies, and call only each other.
-/

namespace ScalarLang

namespace Ir

/-! ### Verification and the module -/

namespace Module

variable {m m' : Module} {f declaration : Function}

/-- Every name that means a function in `m` means one in `m'`, with the same types. -/
def Serves (m m' : Module) : Prop :=
  ∀ name f, m.get? name = some f →
    ∃ f', m'.get? name = some f' ∧ f'.params.map Param.ty = f.params.map Param.ty ∧ f'.ret = f.ret

/-- One more function takes nothing away. -/
theorem serves_append (h : m'.functions = m.functions ++ [f]) : m.Serves m' := by
  intro name g hg
  refine ⟨g, ?_, rfl, rfl⟩
  rw [get?_of_functions_append h, hg]
  rfl

/-- A function can take the place of its declaration. -/
theorem serves_of_declaration {m₁ : Module} (h₁ : m₁.functions = m.functions ++ [declaration])
    (h : m'.functions = m.functions ++ [f]) (hname : f.name = declaration.name)
    (hparams : f.params.map Param.ty = declaration.params.map Param.ty)
    (hret : f.ret = declaration.ret) : m₁.Serves m' := by
  intro name g hg
  rw [get?_of_functions_append h₁] at hg
  rw [get?_of_functions_append h]
  cases hm : m.get? name with
  | some g' =>
    rw [hm, Option.some_or] at hg
    obtain rfl := Option.some.inj hg
    exact ⟨g', rfl, rfl, rfl⟩
  | none =>
    rw [hm, Option.none_or] at hg
    split at hg
    · next hd =>
      obtain rfl := Option.some.inj hg
      exact ⟨f, by rw [Option.none_or, if_pos (hname.trans hd)], hparams, hret⟩
    · cases hg

end Module

/-- A call is typed by the types of its callee alone. -/
theorem Inst.TypedBy.of_serves {m m' : Module} {use any : Operand → Ty → Prop}
    {preds : List BlockId} {i : Inst} (h : i.TypedBy m use any preds) (hm : m.Serves m') :
    i.TypedBy m' use any preds := by
  unfold TypedBy at h ⊢
  cases hop : i.op with
  | call callee args =>
    rw [hop] at h
    obtain ⟨target, htarget, hty, hargs⟩ := h
    obtain ⟨target', htarget', hparams, hret⟩ := hm callee target htarget
    have htys : List.Forall₂ use args (target.params.map Param.ty) :=
      List.forall₂_map_right_iff.2 hargs
    rw [← hparams] at htys
    exact ⟨target', htarget', hty.trans hret.symm, List.forall₂_map_right_iff.1 htys⟩
  | _ =>
    rw [hop] at h
    exact h

namespace Function

variable {m m' : Module} {f : Function}

/-- **Verification against a module carries over to every module that serves the same calls.** -/
theorem Verified.of_serves (h : f.Verified m) (hm : m.Serves m') : f.Verified m' := by
  refine ⟨h.complete, fun k id hk => ?_⟩
  obtain ⟨b, hb, htyped⟩ := h.blocks k id hk
  exact ⟨b, hb, fun j i inst hj hi => (htyped.insts j i inst hj hi).of_serves hm, htyped.phis,
    htyped.terminator⟩

/-- Every instruction of a verified function follows the typing rules at some place. -/
theorem Verified.inst_typed (h : f.Verified m) {inst : Inst} (hinst : inst ∈ f.insts) :
    ∃ id site, f.InstTyped m id site inst := by
  obtain ⟨i, hi, rfl⟩ := Array.mem_iff_getElem.1 hinst
  obtain ⟨id, hid, hi'⟩ := List.mem_flatMap.1 (h.complete.mem_insts_iff.2 hi)
  obtain ⟨k, hk, rfl⟩ := List.mem_iff_getElem.1 hid
  obtain ⟨b, hb, htyped⟩ := h.blocks k _ (List.getElem?_eq_getElem hk)
  rw [instsAt_of_block? hb] at hi'
  obtain ⟨j, hj, hji⟩ := List.mem_iff_getElem.1 hi'
  exact ⟨_, _, htyped.insts j i _ (List.getElem?_eq_some_iff.2 ⟨hj, hji⟩)
    (Array.getElem?_eq_getElem hi)⟩

/-- **A verified function calls only functions that are there.** -/
theorem Verified.exists_callee (h : f.Verified m) {inst : Inst} (hinst : inst ∈ f.insts)
    {callee : String} {args : List Operand} (hop : inst.op = .call callee args) :
    ∃ target, m.get? callee = some target := by
  obtain ⟨id, site, htyped⟩ := h.inst_typed hinst
  rw [InstTyped, Inst.TypedBy, hop] at htyped
  obtain ⟨target, htarget, -⟩ := htyped
  exact ⟨target, htarget⟩

theorem Verified.isDeclaration (h : f.Verified m) : f.isDeclaration = false := by
  rw [Function.isDeclaration, Array.isEmpty_eq_false_iff]
  intro hblocks
  have hlen := h.complete.length_layout
  rw [hblocks] at hlen
  exact h.complete.layout_ne_nil (List.length_eq_zero_iff.1 hlen)

end Function

/-! ### Adding functions -/

section Generate

variable {m m' : Module} {f declaration : Function} {d : Definition}

/-- A body is only ever lowered to a function that passes verification. -/
theorem verified_of_lowerBody (h : lowerBody m declaration d = .ok f) : f.Verified m := by
  obtain ⟨-, v, b, -, -, hverify⟩ := lowerBody_eq_ok_iff.1 h
  exact Function.verify_eq_ok_iff.1 hverify

/-- The function of a definition is added in three steps: its declaration goes in, its body is lowered
there, and the function takes the place of the declaration. -/
theorem Module.generate_eq_ok (h : m.generate d = (.ok f, m')) :
    m.contains d.proto.name = false ∧ ∃ declaration, declare d.proto = .ok declaration ∧
      lowerBody (m.insert declaration) declaration d = .ok f ∧
      m' = (m.insert declaration).insert f := by
  unfold generate at h
  split at h
  · cases h
  · next hnew =>
    split at h
    · cases h
    · next declaration hdecl =>
      simp only at h
      split at h
      · next f' hf =>
        cases h
        exact ⟨Bool.eq_false_iff.2 hnew, declaration, hdecl, hf, rfl⟩
      · cases h

theorem Function.HasSignature.map_ty {g : Function} {sig : Signature} (hf : f.HasSignature sig)
    (hg : g.HasSignature sig) : f.params.map Param.ty = g.params.map Param.ty ∧ f.ret = g.ret := by
  refine ⟨?_, Option.some.inj (hf.ret.symm.trans hg.ret)⟩
  have hsome : (f.params.map Param.ty).map some = (g.params.map Param.ty).map some := by
    rw [List.map_map, List.map_map]
    exact hf.params.symm.trans hg.params
  exact List.map_injective_iff.2 (Option.some_injective Ty) hsome

/-- **The function of an accepted definition is verified against the module that it has been added to**,
and so are all functions that were verified before. -/
theorem Module.Accepts.verified (hd : m.Accepts d) (hgen : m.generate d = (.ok f, m'))
    (hm : ∀ g ∈ m.functions, g.Verified m) : ∀ g ∈ m'.functions, g.Verified m' := by
  obtain ⟨f', m'', m₁, hgen', -, hfunctions, himp, -⟩ := generate_typed hd.typed hd.new
  obtain ⟨hf, rfl⟩ := Prod.mk.inj (hgen.symm.trans hgen')
  obtain rfl := Except.ok.inj hf
  obtain ⟨hnew, declaration, hdecl, hbody, -⟩ := generate_eq_ok hgen
  obtain ⟨declaration', hdecl', hname, hsig, -⟩ :=
    declare_typed hd.typed.params (hd.typed.ret ▸ hd.typed.body.resolved)
  obtain rfl := Except.ok.inj (hdecl.symm.trans hdecl')
  intro g hg
  rw [hfunctions] at hg
  rcases List.mem_append.1 hg with hg | hg
  · exact (hm g hg).of_serves (serves_append hfunctions)
  · rw [List.mem_singleton.1 hg]
    obtain ⟨hparams, hret⟩ := himp.signature.map_ty hsig
    refine (verified_of_lowerBody hbody).of_serves ?_
    exact serves_of_declaration (functions_insert (hname ▸ hnew)) hfunctions
      (himp.name.trans hname.symm) hparams hret

end Generate

end Ir

/-! ### Reached modules -/

/-- All functions of a reached module are verified against it as it is. -/
theorem Session.Reached.verified {s : Session} {ds : List Definition} (h : s.Reached ds) :
    ∀ f ∈ s.compiler.module.functions, f.Verified s.compiler.module := by
  induction h with
  | ofConfig config text => exact fun f hf => absurd hf List.not_mem_nil
  | withMachine config fuel text => exact fun f hf => absurd hf List.not_mem_nil
  | again _ text ih => exact ih
  | @unit s s' ds report hs hn ih =>
    obtain ⟨-, hkeeps | ⟨d, -, hdefines⟩⟩ := next_cases hs.sound.proper hs.sound.absent hn
    · rw [hkeeps.module]
      exact ih
    · obtain ⟨f, hgen, -⟩ := hdefines.generate
      exact hdefines.accepts.verified hgen ih

/-- **A reached module stands on its own.**  Every function has a body, is what its name and no other
name means, calls only functions of the module, and passes verification against the module as it is. -/
theorem Compiler.Reached.module_closed {c : Compiler} (h : c.Reached) :
    ∀ f ∈ c.module.functions, f.isDeclaration = false ∧
      (∀ name, c.module.get? name = some f ↔ f.name = name) ∧
      (∀ inst ∈ f.insts, ∀ callee args, inst.op = .call callee args →
        c.module.contains callee = true) ∧
      f.verify c.module = .ok () := by
  obtain ⟨s, ds, hs, rfl⟩ := h
  intro f hf
  have hverified := hs.verified f hf
  refine ⟨hverified.isDeclaration, fun name => ?_, ?_, Ir.Function.verify_eq_ok_iff.2 hverified⟩
  · rw [Ir.Module.get?_eq_some_iff]
    exact and_iff_right hf
  · intro inst hinst callee args hop
    obtain ⟨target, htarget⟩ := hverified.exists_callee hinst hop
    by_contra habsent
    rw [Ir.Module.get?_eq_none_of_contains (Bool.eq_false_iff.2 habsent)] at htarget
    cases htarget

/-- Two functions, one of which calls itself and is called by the other, behind an expression that
calls both and a definition that is refused. -/
theorem Compiler.Reached.module_closed_two :
    let c := (((Compiler.ofConfig {}).withMachine.compile
      "def int f(int n) if n then n * f(n - 1) else 1 f(3) def int f() 2").2.compile
      "def int g() f(2) f(1) + g()").2
    c.Reached ∧ c.module.names = ["f", "g"] ∧ ∀ f ∈ c.module.functions, f.isDeclaration = false ∧
      (∀ name, c.module.get? name = some f ↔ f.name = name) ∧
      (∀ inst ∈ f.insts, ∀ callee args, inst.op = .call callee args →
        c.module.contains callee = true) ∧
      f.verify c.module = .ok () := by
  intro c
  have hc : c.Reached := ((withMachine {}).compile _).compile _
  exact ⟨hc, by decide +kernel, module_closed hc⟩

end ScalarLang
