import ScalarLang.Proofs.Activations
import ScalarLang.Proofs.ControlFlow

/-!
# Generated functions are in static single assignment form

Verification compares places in the layout, so it would not notice a use to which a way leads around the
definition.  In the functions that come of definitions there is none.  The function is in order when its
body has been lowered, the `ret` keeps it so, and what was available where it was read is defined on
every way there.

* `Ir.Function.DefinedBefore` — a value is defined earlier in the block, or on every way to it.
* `Ir.Function.Structured` — the form of a function whose control flow comes of `k` choices.
* `Ir.Function.MadeOf.structured` — functions that come of definitions have it.
* `Ir.Module.generate_structured` — whatever the module and the definition are.
-/

namespace ScalarLang

namespace Ir

open Builder

/-! ### Where a value is defined -/

/-- An instruction that follows the typing rules uses all its operands. -/
theorem Inst.TypedBy.uses {m : Module} {use any : Operand → Ty → Prop} {preds : List BlockId} {i : Inst}
    (h : i.TypedBy m use any preds) {v : Operand} (hv : v ∈ i.op.operands) : ∃ ty, use v ty := by
  have hpair : ∀ {l r : Operand} {ty : Ty}, use l ty → use r ty → v ∈ [l, r] → ∃ ty, use v ty := by
    intro l r ty hl hr hmem
    rcases List.mem_cons.1 hmem with rfl | hmem
    · exact ⟨ty, hl⟩
    · exact ⟨ty, List.mem_singleton.1 hmem ▸ hr⟩
  unfold TypedBy at h
  cases hop : i.op with
  | binary code lhs rhs =>
    rw [hop] at h hv
    exact hpair h.1 h.2.1 hv
  | icmp pred lhs rhs =>
    rw [hop] at h hv
    exact hpair h.1 h.2.1 hv
  | fcmp pred lhs rhs =>
    rw [hop] at h hv
    exact hpair h.1 h.2.1 hv
  | zext w =>
    rw [hop] at h hv
    exact ⟨_, List.mem_singleton.1 hv ▸ h.1⟩
  | uitofp w =>
    rw [hop] at h hv
    exact ⟨_, List.mem_singleton.1 hv ▸ h.1⟩
  | call callee args =>
    rw [hop] at h hv
    obtain ⟨target, -, -, hargs⟩ := h
    clear hop
    generalize target.params = params at hargs
    induction hargs with
    | nil => cases hv
    | @cons w param args params huse _ ih =>
      rcases List.mem_cons.1 hv with rfl | hv
      · exact ⟨param.ty, huse⟩
      · exact ih hv
  | phi arms =>
    rw [hop] at hv
    cases hv

theorem Terminator.TypedBy.uses {ret : Ty} {use : Operand → Ty → Prop} {t : Terminator}
    (h : t.TypedBy ret use) {v : Operand} (hv : v ∈ t.operands) : ∃ ty, use v ty := by
  cases t with
  | ret w => exact ⟨ret, List.mem_singleton.1 hv ▸ h⟩
  | br target => cases hv
  | condBr cond onTrue onFalse => exact ⟨.i1, List.mem_singleton.1 hv ▸ h⟩

namespace Function

variable {f : Function} {m : Module}

/-- Instruction `i` is defined in front of position `pos` of block `id`: earlier in the block, or in
another block on every way there. -/
def DefinedBefore (f : Function) (i : InstId) (id : BlockId) (pos : Nat) : Prop :=
  (∃ j < pos, (f.instsAt id)[j]? = some i) ∨
    ∃ home, home ≠ id ∧ i ∈ f.instsAt home ∧ f.Dominates home id

/-- What is available in a block, and used at a place that verification accepts, is defined in front of
that place. -/
theorem Available.definedBefore {id : BlockId} {i : InstId} {k pos : Nat} {ty : Ty}
    (hv : f.Available id (.inst i)) (hc : f.Complete) (hk : f.layout[k]? = some id)
    (hu : f.Uses (some ⟨k, pos⟩) (.inst i) ty) : f.DefinedBefore i id pos := by
  obtain ⟨home, hmem, hdom⟩ := hv i rfl
  by_cases hhome : home = id
  · subst hhome
    obtain ⟨j, hj⟩ := List.mem_iff_getElem?.1 hmem
    obtain ⟨d, inst, hsite, -, -, hbefore⟩ := useTy_inst_eq_ok_iff.1 hu
    have hsite' : f.placement.site? i = some ⟨k, j⟩ := hc.site?_eq_some_iff.2 ⟨home, hk, hj⟩
    obtain rfl := Option.some.inj (hsite.symm.trans hsite')
    have hlt : j < pos := by
      simpa [Site.before] using hbefore ⟨k, pos⟩ rfl
    exact .inl ⟨j, hlt, hj⟩
  · exact .inr ⟨home, hhome, hmem, hdom⟩

/-- What is available in a block is defined in front of its end. -/
theorem Available.definedBefore_end {id : BlockId} {i : InstId} (hv : f.Available id (.inst i)) :
    f.DefinedBefore i id (f.instsAt id).length := by
  obtain ⟨home, hmem, hdom⟩ := hv i rfl
  by_cases hhome : home = id
  · subst hhome
    obtain ⟨j, hj⟩ := List.mem_iff_getElem?.1 hmem
    exact .inl ⟨j, (List.getElem?_eq_some_iff.1 hj).1, hj⟩
  · exact .inr ⟨home, hhome, hmem, hdom⟩

/-! ### Labels -/

theorem Labelled.take_label {id : BlockId} {base : String} {blk : Block} (h : f.Labelled id base)
    (hblk : f.block? id = some blk) (hlen : 2 ≤ base.toList.length) :
    blk.label.toList.take 2 = base.toList.take 2 := by
  obtain ⟨blk', hblk', hlabel⟩ := h
  obtain rfl := Option.some.inj (hblk.symm.trans hblk')
  cases hlabel with
  | inl heq => rw [heq]
  | inr heq =>
    obtain ⟨n, heq⟩ := heq
    rw [heq, String.toList_append, List.take_append_of_le_length hlen]

/-- The numbers behind labels do not make one label of two. -/
theorem Labelled.not_both {id : BlockId} {base base' : String} (h : f.Labelled id base)
    (h' : f.Labelled id base') : ¬ (2 ≤ base.toList.length ∧ 2 ≤ base'.toList.length ∧
      base.toList.take 2 ≠ base'.toList.take 2) := by
  intro hapart
  obtain ⟨hlen, hlen', hne⟩ := hapart
  have hblock := h
  obtain ⟨blk, hblk, -⟩ := hblock
  exact hne ((h.take_label hblk hlen).symm.trans (h'.take_label hblk hlen'))

/-- A block with the label of a branch is one. -/
theorem Role.branch_of_labelled {id : BlockId} (h : f.Role id)
    (hl : f.Labelled id "then" ∨ f.Labelled id "else") :
    ∃ source, f.placement.preds id = [source] ∧ f.phisAt id = [] := by
  cases h with
  | entry _ hlabel _ =>
    cases hl with
    | inl hl => exact absurd (by decide) (hlabel.not_both hl)
    | inr hl => exact absurd (by decide) (hlabel.not_both hl)
  | @branch source _ hpreds hphis => exact ⟨source, hpreds, hphis⟩
  | join hlabel =>
    cases hl with
    | inl hl => exact absurd (by decide) (hlabel.not_both hl)
    | inr hl => exact absurd (by decide) (hlabel.not_both hl)

/-- A block with the label of a join is one. -/
theorem Role.join_of_labelled {id : BlockId} (h : f.Role id) (hl : f.Labelled id "ifcont") :
    ∃ s₁ s₂ v₁ v₂ i inst, f.placement.preds id = [s₁, s₂] ∧ s₁ ≠ s₂ ∧ f.phisAt id = [i] ∧
      f.inst? i = some inst ∧ inst.op = .phi [(v₁, s₁), (v₂, s₂)] := by
  cases h with
  | entry _ hlabel _ => exact absurd (by decide) (hlabel.not_both hl)
  | branch hlabel _ _ =>
    cases hlabel with
    | inl hlabel => exact absurd (by decide) (hlabel.not_both hl)
    | inr hlabel => exact absurd (by decide) (hlabel.not_both hl)
  | @join s₁ s₂ v₁ v₂ i inst _ hpreds hne hphis hinst hop =>
    exact ⟨s₁, s₂, v₁, v₂, i, inst, hpreds, hne, hphis, hinst, hop⟩

theorem Role.labelled {id : BlockId} (h : f.Role id) :
    f.entry? = some id ∨ f.Labelled id "then" ∨ f.Labelled id "else" ∨ f.Labelled id "ifcont" := by
  cases h with
  | entry hentry _ _ => exact .inl hentry
  | branch hlabel _ _ => exact .inr (hlabel.imp_right .inl)
  | join hlabel => exact .inr (.inr (.inr hlabel))

/-! ### Functions -/

/-- Static single assignment form of a function whose control flow comes of `k` choices. -/
structure Structured (f : Function) (k : Nat) : Prop where
  -- every block has one place in the layout, and every instruction one place in a block
  complete : f.Complete
  blocks : f.blocks.size = 1 + 3 * k
  phis : f.insts.countP (fun inst => inst.op.isPhi) = k
  forward : ∀ i id s, f.layout[i]? = some id → s ∈ f.succsAt id →
    ∃ j : Nat, i < j ∧ f.layout[j]? = some s
  -- no activation comes to a block twice
  once : ∀ fr seen, fr.function = f → Machine.Frame.Visits fr seen → seen.Nodup
  returns : ∀ id blk, f.block? id = some blk →
    ((∃ v, blk.terminator? = some (.ret v)) ↔ f.layout.getLast? = some id)
  reached : ∀ id < f.blocks.size, ∃ before, f.Way before id
  labels : ∀ id < f.blocks.size,
    f.entry? = some id ∨ f.Labelled id "then" ∨ f.Labelled id "else" ∨ f.Labelled id "ifcont"
  branch : ∀ id, f.Labelled id "then" ∨ f.Labelled id "else" →
    ∃ source, f.placement.preds id = [source] ∧ f.phisAt id = []
  join : ∀ id, f.Labelled id "ifcont" → ∃ s₁ s₂ v₁ v₂ i inst, f.placement.preds id = [s₁, s₂] ∧
    s₁ ≠ s₂ ∧ f.phisAt id = [i] ∧ f.inst? i = some inst ∧ inst.op = .phi [(v₁, s₁), (v₂, s₂)]
  -- values are defined in front of their uses, those of a `phi` in front of the end of the block that
  -- they come from
  operands : ∀ id j i inst v, (f.instsAt id)[j]? = some i → f.inst? i = some inst →
    .inst v ∈ inst.op.operands → f.DefinedBefore v id j
  ends : ∀ id blk t v, f.block? id = some blk → blk.terminator? = some t → .inst v ∈ t.operands →
    f.DefinedBefore v id blk.insts.length
  arms : ∀ i inst v source, f.inst? i = some inst → (.inst v, source) ∈ inst.op.arms →
    f.DefinedBefore v source (f.instsAt source).length

theorem Labelled.lt {id : BlockId} {base : String} (h : f.Labelled id base) : id < f.blocks.size := by
  obtain ⟨blk, hblk, -⟩ := h
  exact lt_of_block? hblk

section Orderly

variable (hv : f.Verified m) (ho : ∀ id ∈ f.layout, f.Orderly id)

include hv ho

theorem idxOf_lt_of_orderly {id s : BlockId} (hs : s ∈ f.succsAt id) :
    f.layout.idxOf id < f.layout.idxOf s :=
  (ho id (hv.complete.mem_layout_of_succsAt hs)).forward s hs

/-- Edges lead forward in the layout. -/
theorem forward_of_orderly {i : Nat} {id s : BlockId} (hi : f.layout[i]? = some id)
    (hs : s ∈ f.succsAt id) : ∃ j, i < j ∧ f.layout[j]? = some s := by
  have hlt := idxOf_lt_of_orderly hv ho hs
  have hmem : s ∈ f.layout := by
    obtain ⟨b, t, hb, ht, -, hexist⟩ := hv.complete.blocks id (List.mem_of_getElem? hi)
    rw [succsAt_of_block? hb ht] at hs
    obtain ⟨target, htarget⟩ := Option.isSome_iff_exists.1 (hexist s hs)
    exact hv.complete.mem_layout_iff.2 (lt_of_block? htarget)
  obtain ⟨hlen, rfl⟩ := List.getElem?_eq_some_iff.1 hi
  rw [hv.complete.layout_nodup.idxOf_getElem i hlen] at hlt
  exact ⟨f.layout.idxOf s, hlt, List.getElem?_idxOf hmem⟩

/-- Whatever an instruction reads is defined in front of it. -/
theorem operands_of_orderly {id : BlockId} {j : Nat} {i v : InstId} {inst : Inst}
    (hj : (f.instsAt id)[j]? = some i) (hinst : f.inst? i = some inst)
    (hmem : .inst v ∈ inst.op.operands) : f.DefinedBefore v id j := by
  have hi : i ∈ f.instsAt id := List.mem_of_getElem? hj
  obtain ⟨k, b, hk, hb, htyped⟩ := hv.exists_block (lt_of_mem_instsAt hi)
  obtain ⟨inst', hinst', havail, -⟩ := (ho id (List.mem_of_getElem? hk)).insts i hi
  obtain rfl := Option.some.inj (hinst.symm.trans hinst')
  rw [instsAt_of_block? hb] at hj
  obtain ⟨ty, hu⟩ := (htyped.insts j i inst hj hinst).uses hmem
  exact (havail _ hmem).definedBefore hv.complete hk hu

/-- Whatever the end of a block reads is defined in front of it. -/
theorem ends_of_orderly {id : BlockId} {blk : Block} {t : Terminator} {v : InstId}
    (hblk : f.block? id = some blk) (ht : blk.terminator? = some t) (hmem : .inst v ∈ t.operands) :
    f.DefinedBefore v id blk.insts.length := by
  obtain ⟨k, b, hk, hb, htyped⟩ := hv.exists_block (lt_of_block? hblk)
  obtain rfl := Option.some.inj (hblk.symm.trans hb)
  obtain ⟨ty, hu⟩ := (htyped.terminator t ht).uses hmem
  have havail := (ho id (List.mem_of_getElem? hk)).ends blk t hblk ht _ hmem
  exact havail.definedBefore hv.complete hk hu

/-- Whatever an entry of a `phi` reads is defined in front of the end of the block it names. -/
theorem arms_of_orderly {i v : InstId} {inst : Inst} {source : BlockId} (hinst : f.inst? i = some inst)
    (hmem : (.inst v, source) ∈ inst.op.arms) :
    f.DefinedBefore v source (f.instsAt source).length := by
  have hlt : i < f.insts.size := lt_of_inst? hinst
  obtain ⟨id, hid, hi⟩ := List.mem_flatMap.1 (hv.complete.mem_insts_iff.2 hlt)
  obtain ⟨inst', hinst', -, harms⟩ := (ho id hid).insts i hi
  obtain rfl := Option.some.inj (hinst.symm.trans hinst')
  exact (harms _ hmem).2.definedBefore_end

/-- A verified function whose blocks are in order has the form, if it has the blocks and phis of `k`
choices and returns at its end only. -/
theorem structured_of_orderly {k : Nat} (hr : ∀ id ∈ f.layout, f.Role id)
    (hblocks : f.blocks.size = 1 + 3 * k) (hphis : f.insts.countP (fun inst => inst.op.isPhi) = k)
    (hreturns : ∀ id blk, f.block? id = some blk →
      ((∃ v, blk.terminator? = some (.ret v)) ↔ f.layout.getLast? = some id)) :
    f.Structured k where
  complete := hv.complete
  blocks := hblocks
  phis := hphis
  forward _ _ _ hi hs := forward_of_orderly hv ho hi hs
  once fr seen hfun hvisits := by
    obtain ⟨before, rfl, hw⟩ := hvisits.way
    rw [hfun] at hw
    exact hw.nodup fun id s hs => idxOf_lt_of_orderly hv ho hs
  returns := hreturns
  reached id hid := (ho id (hv.complete.mem_layout_iff.2 hid)).reached
  labels id hid := (hr id (hv.complete.mem_layout_iff.2 hid)).labelled
  branch id hl :=
    (hr id (hv.complete.mem_layout_iff.2 (hl.elim Labelled.lt Labelled.lt))).branch_of_labelled hl
  join id hl := (hr id (hv.complete.mem_layout_iff.2 hl.lt)).join_of_labelled hl
  operands _ _ _ _ _ hj hinst hmem := operands_of_orderly hv ho hj hinst hmem
  ends _ _ _ _ hblk ht hmem := ends_of_orderly hv ho hblk ht hmem
  arms _ _ _ _ hinst hmem := arms_of_orderly hv ho hinst hmem

end Orderly

end Function

/-! ### Generated functions -/

section Entry

variable {m : Module} {f : Function}

theorem entry_labelled (h : f.Bare) : (entryBuilder f).function.Labelled 0 "entry" := by
  have hlabel : (({ function := f } : Builder).createBlock "entry").2.function.Labelled f.blocks.size
      "entry" := labelled_createBlock "entry"
  obtain ⟨blk, hblk, hname⟩ := hlabel
  refine ⟨blk, ?_, hname⟩
  have hsize : f.blocks.size = 0 := by
    rw [h.blocks]
    rfl
  rw [entryBuilder_eq h]
  show (Builder.appendBlock _ 0).function.block? 0 = some blk
  rw [Function.block?, blocks_appendBlock, ← hsize]
  exact hblk

/-- The entry is in order: there is nothing in it yet. -/
theorem entry_flowing (h : f.Bare) : (entryBuilder f).Flowing 0 := by
  have htidy : (entryBuilder f).function.Tidy default [] [0] := entry_tidy h
  have hlt : 0 < (entryBuilder f).function.blocks.size := htidy.exist 0 (List.mem_singleton_self 0)
  have hopen := htidy.unfinished_rest 0 (List.mem_singleton_self 0)
  refine ⟨by rw [entryBuilder_eq h]; rfl, ?_, ?_, fun source target => htidy.placed, ?_, ?_⟩
  · rw [htidy.layout]
    exact List.mem_singleton_self 0
  · exact ⟨_, Array.getElem?_eq_getElem hlt, hopen _ (Array.getElem?_eq_getElem hlt)⟩
  · intro id hid
    rw [htidy.layout] at hid
    obtain rfl := List.mem_singleton.1 hid
    refine ⟨⟨[], .entry ?_⟩, ?_, ?_, ?_⟩
    · rw [ Function.entry?, htidy.layout]
      rfl
    · intro s hs
      rw [Function.succsAt_of_unfinished hopen] at hs
      cases hs
    · intro i hi
      rw [instsAt_entry h] at hi
      cases hi
    · intro blk t hblk ht
      cases (hopen blk hblk).symm.trans ht
  · intro id blk t hblk ht
    cases (htidy.unfinished id blk hblk (List.not_mem_nil)).symm.trans ht

theorem entry_roles (h : f.Bare) :
    ∀ id ∈ (entryBuilder f).function.layout, (entryBuilder f).function.Role id := by
  have htidy : (entryBuilder f).function.Tidy default [] [0] := entry_tidy h
  intro id hid
  rw [htidy.layout] at hid
  obtain rfl := List.mem_singleton.1 hid
  refine .entry ?_ (entry_labelled h) ?_
  · rw [ Function.entry?, htidy.layout]
    rfl
  · rw [Function.phisAt, instsAt_entry h]
    rfl

theorem phiCount_entry (h : f.Bare) : (entryBuilder f).phiCount = 0 := by
  rw [entryBuilder_eq h]
  show (Builder.appendBlock _ 0).phiCount = 0
  rw [phiCount, insts_appendBlock, insts_createBlock, h.insts]
  rfl

end Entry

/-- **A function that came of a definition has the form.**  Lowering has kept it in order, and the block
at the cursor, which is the last of the layout, returns the value of the body. -/
theorem Function.MadeOf.structured {f declaration : Function} {d : Definition} {m : Module}
    (h : f.MadeOf d declaration m) : f.Structured d.body.conditionals := by
  obtain ⟨v, b, hlower, hlow, rfl⟩ := h.code
  have hparams : TakesParams d.proto.params declaration := h.signature.params
  obtain ⟨there, hflows, havail⟩ := lower_inOrder h.typed _ 0 v b (entry_ready h.bare)
    (hparams.mono (entry_extends h.bare)) hlower (entry_flowing h.bare) (entry_roles h.bare)
  obtain ⟨done, here, hc, htidy⟩ := hlow.ready
  obtain rfl : there = here := Option.some.inj (hflows.flowing.cursor.symm.trans hc)
  have hlayout := layout_terminate (b := b) (.ret v)
  refine Function.structured_of_orderly h.verified ?_ ?_ ?_ ?_ ?_
  · rw [hlayout]
    exact hflows.flowing.orderly_ret havail
  · rw [hlayout]
    exact hflows.flowing.roles_ret hflows.roles
  · rw [size_blocks_terminate, hflows.size, size_blocks_entry h.bare]
  · rw [insts_terminate]
    show b.phiCount = _
    rw [hflows.phis, phiCount_entry h.bare, Nat.zero_add]
  · intro id blk hblk
    rw [hflows.flowing.ret_iff hblk, hlayout, htidy.layout, List.getLast?_concat, Option.some.injEq,
      eq_comm]

/-- **Generated functions are in static single assignment form.**  Whatever the module is, and whatever
types the nodes of the body carry: if a function comes of a definition with `k` conditionals, it has a
block and three more for each, and `k` phis.  Its edges lead forward in the layout, so no activation
comes to a block twice, in any run of any module.  Only the last block returns, and all can be reached.  A
branch has one predecessor, and a join has two, for which its one `phi` has the entries.  Operands are
defined earlier in the block or on every way to it, and the entries of a `phi` on every way to the end of
the block they belong to. -/
theorem Module.generate_structured {m m' : Module} {d : Definition} {f : Function}
    (h : m.generate d = (.ok f, m')) :
    f.Structured d.body.conditionals ∧
      ∀ (m₁ : Module) (bound : Nat) (t : Machine.Meter) (name : String) (args : List Machine.Value)
        (a : Machine.Thread), a.Visited m₁ bound t name args → ∀ fr ∈ a.top :: a.callers,
          fr.function = f → ∃ seen, fr.Visits seen ∧ seen.Nodup := by
  obtain ⟨-, -, -, declaration, -, hmade⟩ := generate_of_ok h
  have hs := hmade.structured
  refine ⟨hs, ?_⟩
  intro m₁ bound t name args a ha fr hfr hfun
  obtain ⟨⟨seen, htop⟩, hcallers⟩ := ha.active
  rcases List.mem_cons.1 hfr with rfl | hfr
  · exact ⟨seen, htop, hs.once _ seen hfun htop⟩
  · obtain ⟨⟨seen', hcaller⟩, -⟩ := hcallers fr hfr
    exact ⟨seen', hcaller, hs.once fr seen' hfun hcaller⟩

/-- Conditionals in the condition, in an operand and in an argument of branches. -/
theorem Module.generate_structured_nested :
    let m := ((Compiler.ofConfig {}).compile "def int h(int n) n * 2").2.module
    let int : Expr.Tag := ⟨.int, .nowhere⟩
    let n : Expr := .var "n" int
    let choice : Expr := .conditional n n (.literal (.int 1) int) int
    let d : Definition := ⟨⟨"f", [⟨"n", .int, .nowhere⟩], .int, .nowhere⟩,
      .conditional choice (.binary .add choice n int) (.call "h" [choice] int) int⟩
    ∃ f m', m.generate d = (.ok f, m') ∧ d.body.conditionals = 4 ∧ f.blocks.size = 13 ∧
      f.layout = [0, 1, 2, 3, 4, 7, 8, 9, 5, 10, 11, 12, 6] ∧ f.Structured 4 := by
  intro m int n choice d
  have hlayout : (m.generate d).1.toOption.map Function.layout =
      some [0, 1, 2, 3, 4, 7, 8, 9, 5, 10, 11, 12, 6] := by decide +kernel
  obtain ⟨f, m', hgen, hl⟩ : ∃ f m', m.generate d = (.ok f, m') ∧
      f.layout = [0, 1, 2, 3, 4, 7, 8, 9, 5, 10, 11, 12, 6] := by
    generalize m.generate d = r at hlayout ⊢
    obtain ⟨result, m'⟩ := r
    cases result with
    | error e => cases hlayout
    | ok f => exact ⟨f, m', rfl, Option.some.inj hlayout⟩
  have hs : f.Structured 4 := (generate_structured hgen).1
  exact ⟨f, m', hgen, rfl, hs.blocks, hl, hs⟩

end Ir

end ScalarLang
