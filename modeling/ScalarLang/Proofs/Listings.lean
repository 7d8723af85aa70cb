import ScalarLang.Proofs.Edges
import ScalarLang.Proofs.ListingWords
import ScalarLang.Proofs.SingleAssignment

/-!
# Listings say everything about a function

A listing has no numbers of instructions and blocks in it, and leaves out many types.  It tells what it
leaves out all the same.  The kind of an instruction tells the types that are not written, since functions
are verified.  Names lead back to parameters, instructions and blocks, since they are distinct, and nothing
but a name starts with a percent sign.

* `Ir.Operand.renumber`, `Ir.Op.renumber`, `Ir.Terminator.renumber` — other numbers for the same things.
* `Ir.Function.Renumbers` — two functions that differ in their numbers only.
* `Ir.Listing.operand_cut`, `Ir.Listing.inst_cut`, `Ir.Listing.block_cut` — what is told from its text.
* `Ir.Function.renumbers_of_text_eq` — functions with the same listing differ in their numbers only.
-/

namespace ScalarLang

namespace Ir

/-! ### Other numbers -/

section Renumber

variable (σ : InstId → InstId) (τ : BlockId → BlockId)

def Operand.renumber : Operand → Operand
  | .int value => .int value
  | .double value => .double value
  | .arg index => .arg index
  | .inst id => .inst (σ id)

def Op.renumber : Op → Op
  | .binary code lhs rhs => .binary code (lhs.renumber σ) (rhs.renumber σ)
  | .icmp pred lhs rhs => .icmp pred (lhs.renumber σ) (rhs.renumber σ)
  | .fcmp pred lhs rhs => .fcmp pred (lhs.renumber σ) (rhs.renumber σ)
  | .zext value => .zext (value.renumber σ)
  | .uitofp value => .uitofp (value.renumber σ)
  | .call callee args => .call callee (args.map (Operand.renumber σ))
  | .phi incoming => .phi (incoming.map fun arm => (arm.1.renumber σ, τ arm.2))

def Terminator.renumber : Terminator → Terminator
  | .ret value => .ret (value.renumber σ)
  | .br target => .br (τ target)
  | .condBr cond onTrue onFalse => .condBr (cond.renumber σ) (τ onTrue) (τ onFalse)

/-- The instruction with its name and type, and other numbers in its operands. -/
def Inst.renumber (i : Inst) : Inst := { i with op := i.op.renumber σ τ }

/-- The block with its label, and other numbers for its instructions and in its end. -/
def Block.renumber (b : Block) : Block :=
  { b with insts := b.insts.map σ, terminator? := b.terminator?.map (Terminator.renumber σ τ) }

/-- The second function is the first with other numbers for its instructions and blocks.  Names and labels
stay with what they name, and the blocks are in the same order. -/
structure Function.Renumbers (f g : Function) : Prop where
  name : g.name = f.name
  params : g.params = f.params
  ret : g.ret = f.ret
  layout : g.layout = f.layout.map τ
  blocks : ∀ id b, f.block? id = some b → g.block? (τ id) = some (b.renumber σ τ)
  insts : ∀ i inst, f.inst? i = some inst → g.inst? (σ i) = some (inst.renumber σ τ)
  block_bij : Set.BijOn τ (Set.Iio f.blocks.size) (Set.Iio g.blocks.size)
  inst_bij : Set.BijOn σ (Set.Iio f.insts.size) (Set.Iio g.insts.size)

end Renumber

/-! ### Names lead back to what they name -/

namespace Listing

/-- The number in `g` of the instruction that is called like instruction `i` of `f`. -/
def instTo (f g : Function) (i : InstId) : InstId :=
  (f.inst? i).elim i fun inst => (g.insts.toList.map Inst.name).idxOf inst.name

/-- The number in `g` of the block that is labelled like block `id` of `f`. -/
def blockTo (f g : Function) (id : BlockId) : BlockId :=
  (f.block? id).elim id fun b => (g.blocks.toList.map Block.label).idxOf b.label

theorem idxOf_map_toList {α : Type} {l : Array α} {name : α → String} (hn : (l.toList.map name).Nodup)
    {j : Nat} {a : α} (hj : l[j]? = some a) : (l.toList.map name).idxOf (name a) = j := by
  obtain ⟨hlt, hget⟩ := Array.getElem?_eq_some_iff.1 hj
  have hlt' : j < (l.toList.map name).length := by simpa using hlt
  have hname : (l.toList.map name)[j] = name a := by simp [hget]
  rw [← hname]
  exact hn.idxOf_getElem j hlt'

/-- Numbers that keep names, and reach all of the second array, are a bijection. -/
theorem bijOn_of_name {α : Type} {l l' : Array α} {name : α → String} {φ : Nat → Nat}
    (hn : (l.toList.map name).Nodup)
    (hkeeps : ∀ i a, l[i]? = some a → ∃ a', l'[φ i]? = some a' ∧ name a' = name a)
    (hreaches : ∀ j < l'.size, ∃ i < l.size, φ i = j) :
    Set.BijOn φ (Set.Iio l.size) (Set.Iio l'.size) := by
  refine ⟨fun i hi => ?_, fun i hi j hj heq => ?_, fun j hj => ?_⟩
  · obtain ⟨a', ha', -⟩ := hkeeps i _ (Array.getElem?_eq_getElem hi)
    exact (Array.getElem?_eq_some_iff.1 ha').1
  · obtain ⟨a', ha', hname⟩ := hkeeps i _ (Array.getElem?_eq_getElem hi)
    obtain ⟨b', hb', hname'⟩ := hkeeps j _ (Array.getElem?_eq_getElem hj)
    rw [heq] at ha'
    obtain rfl := Option.some.inj (ha'.symm.trans hb')
    rw [← idxOf_map_toList hn (Array.getElem?_eq_getElem hi), ← hname, hname',
      idxOf_map_toList hn (Array.getElem?_eq_getElem hj)]
  · obtain ⟨i, hi, hij⟩ := hreaches j hj
    exact ⟨i, hi, hij⟩

end Listing

namespace Function.Legible

variable {f : Function} {m : Module}

theorem params_nodup (h : f.Legible m) : (f.params.map Param.name).Nodup :=
  (List.nodup_append.1 (List.nodup_append.1 h.nodup).1).1

theorem insts_nodup (h : f.Legible m) : (f.insts.toList.map Inst.name).Nodup :=
  (List.nodup_append.1 (List.nodup_append.1 h.nodup).1).2.1

theorem blocks_nodup (h : f.Legible m) : (f.blocks.toList.map Block.label).Nodup :=
  (List.nodup_append.1 h.nodup).2.1

theorem isPlain_param (h : f.Legible m) {p : Param} (hp : p ∈ f.params) : IsPlain p.name := by
  refine h.own _ ?_
  simp only [ownNames, List.mem_append]
  exact .inl (.inl (List.mem_map_of_mem hp))

theorem isPlain_inst (h : f.Legible m) {i : InstId} {inst : Inst} (hi : f.inst? i = some inst) :
    IsPlain inst.name := by
  refine h.own _ ?_
  simp only [ownNames, List.mem_append]
  exact .inl (.inr (List.mem_map_of_mem (Array.mem_toList_iff.2 (Array.mem_of_getElem? hi))))

theorem isPlain_block (h : f.Legible m) {id : BlockId} {b : Block} (hb : f.block? id = some b) :
    IsPlain b.label := by
  refine h.own _ ?_
  simp only [ownNames, List.mem_append]
  exact .inr (List.mem_map_of_mem (Array.mem_toList_iff.2 (Array.mem_of_getElem? hb)))

/-- No instruction is called like a parameter. -/
theorem param_ne_inst (h : f.Legible m) {p : Param} (hp : p ∈ f.params) {i : InstId} {inst : Inst}
    (hi : f.inst? i = some inst) : p.name ≠ inst.name := by
  have hdisjoint := (List.nodup_append.1 (List.nodup_append.1 h.nodup).1).2.2
  exact hdisjoint _ (List.mem_map_of_mem hp) _
    (List.mem_map_of_mem (Array.mem_toList_iff.2 (Array.mem_of_getElem? hi)))

/-- The instructions follow the typing rules, and the blocks that they name are there. -/
theorem typedBy (h : f.Legible m) {i : InstId} {inst : Inst} (hi : f.inst? i = some inst) :
    ∃ preds, inst.TypedBy m (fun v ty => f.operandTy? v = some ty)
      (fun v ty => f.operandTy? v = some ty) preds ∧ ∀ id ∈ preds, ∃ b, f.block? id = some b := by
  obtain ⟨id, site, htyped⟩ := h.verified.inst_typed (Array.mem_of_getElem? hi)
  refine ⟨_, htyped.mono (fun v ty hv => operandTy?_of_useTy hv) fun v ty hv => operandTy?_of_useTy hv,
    fun source hsource => ?_⟩
  obtain ⟨b, -, hb, -⟩ := h.verified.complete.blocks source (mem_preds_iff.1 hsource).1
  exact ⟨b, hb⟩

/-- The operands of the end of a block are there, and so are the blocks that can come next. -/
theorem terminator_typed (h : f.Legible m) {id : BlockId} {b : Block} {t : Terminator}
    (hb : f.block? id = some b) (ht : b.terminator? = some t) :
    t.TypedBy f.ret (fun v ty => f.operandTy? v = some ty) ∧
      ∀ next ∈ t.successors, ∃ b, f.block? next = some b := by
  have hid : id ∈ f.layout :=
    h.verified.complete.mem_layout_iff.2 (lt_of_block? hb)
  obtain ⟨k, hk⟩ := List.mem_iff_getElem?.1 hid
  obtain ⟨b₁, hb₁, htyped⟩ := h.verified.blocks k id hk
  obtain ⟨b₂, t₂, hb₂, ht₂, -, hnext⟩ := h.verified.complete.blocks id hid
  obtain rfl := Option.some.inj (hb.symm.trans hb₁)
  obtain rfl := Option.some.inj (hb.symm.trans hb₂)
  obtain rfl := Option.some.inj (ht.symm.trans ht₂)
  exact ⟨(htyped.terminator t ht).mono fun v ty hv => operandTy?_of_useTy hv,
    fun next hmem => Option.isSome_iff_exists.1 (hnext next hmem)⟩

theorem isPlain_callee (h : f.Legible m) {callee : String} {target : Function}
    (hm : m.get? callee = some target) : IsPlain callee := by
  obtain ⟨hmem, rfl⟩ := Module.get?_eq_some_iff.1 hm
  exact h.callees target hmem

end Function.Legible

namespace Listing

/-- Two legible functions with the same parameters. -/
structure Paired (f g : Function) (m n : Module) : Prop where
  left : f.Legible m
  right : g.Legible n
  params : f.params = g.params

section Paired

variable {f g : Function} {m n : Module}

theorem Paired.instTo_eq (h : Paired f g m n) {i j : InstId} {a b : Inst} (hi : f.inst? i = some a)
    (hj : g.inst? j = some b) (hname : a.name = b.name) : instTo f g i = j := by
  rw [instTo, hi]
  show (g.insts.toList.map Inst.name).idxOf a.name = j
  rw [hname]
  exact idxOf_map_toList h.right.insts_nodup hj

theorem Paired.blockTo_eq (h : Paired f g m n) {i j : BlockId} {a b : Block}
    (hi : f.block? i = some a) (hj : g.block? j = some b) (hlabel : a.label = b.label) :
    blockTo f g i = j := by
  rw [blockTo, hi]
  show (g.blocks.toList.map Block.label).idxOf a.label = j
  rw [hlabel]
  exact idxOf_map_toList h.right.blocks_nodup hj

/-! ### Operands -/

theorem isNumberChar_repr (value : Int64) :
    ∀ c ∈ value.toInt.repr.toList, Double.isNumberChar c = true := by
  have hall := Double.isNumberChar_of_exponent (Double.exponent_repr value.toInt)
  exact fun c hc => hall c (List.mem_cons_of_mem _ hc)

theorem repr_ne_constantText (value : Int64) (d : Double) : value.toInt.repr ≠ d.constantText := by
  intro h
  have hpoint := d.constantText_chars.2
  rw [← h] at hpoint
  have hchars : ∀ c ∈ value.toInt.repr.toList, c.isDigit = true ∨ c ∈ ['e', 'E', '+', '-'] := fun c hc =>
    Double.exponent_chars (Double.exponent_repr value.toInt) c (List.mem_cons_of_mem _ hc)
  rcases hpoint with hmem | hmem
  · exact absurd (hchars _ hmem) (by decide)
  · exact absurd (hchars _ hmem) (by decide)

/-- The name of what an operand refers to.  Constants refer to nothing. -/
def nameOf? (f : Function) : Operand → Option String
  | .int _ | .double _ => none
  | .arg index => f.params[index]?.map Param.name
  | .inst id => (f.inst? id).map Inst.name

theorem operandText_of_name {v : Operand} {name : String} (h : nameOf? f v = some name) :
    f.operandText v = "%" ++ name := by
  cases v with
  | int value => cases h
  | double value => cases h
  | arg index =>
    obtain ⟨p, hp, rfl⟩ := Option.map_eq_some_iff.1 h
    rw [Function.operandText, hp]
  | inst id =>
    obtain ⟨inst, hinst, rfl⟩ := Option.map_eq_some_iff.1 h
    rw [Function.operandText, hinst]

theorem isPlain_of_name (hf : f.Legible m) {v : Operand} {name : String}
    (h : nameOf? f v = some name) : IsPlain name := by
  cases v with
  | int value => cases h
  | double value => cases h
  | arg index =>
    obtain ⟨p, hp, rfl⟩ := Option.map_eq_some_iff.1 h
    exact hf.isPlain_param (List.mem_of_getElem? hp)
  | inst id =>
    obtain ⟨inst, hinst, rfl⟩ := Option.map_eq_some_iff.1 h
    exact hf.isPlain_inst hinst

/-- An operand that is there and has no name is a constant. -/
theorem constant_of_no_name {v : Operand} {ty : Ty} (hv : f.operandTy? v = some ty)
    (h : nameOf? f v = none) : (∃ value, v = .int value) ∨ ∃ value, v = .double value := by
  cases v with
  | int value => exact .inl ⟨value, rfl⟩
  | double value => exact .inr ⟨value, rfl⟩
  | arg index =>
    obtain ⟨p, hp, -⟩ := Option.map_eq_some_iff.1 hv
    rw [nameOf?, hp] at h
    cases h
  | inst id =>
    obtain ⟨inst, hinst, -⟩ := Option.map_eq_some_iff.1 hv
    rw [nameOf?, hinst] at h
    cases h

theorem isNumberChar_of_no_name {v : Operand} {ty : Ty} (hv : f.operandTy? v = some ty)
    (h : nameOf? f v = none) : ∀ c ∈ (f.operandText v).toList, Double.isNumberChar c = true := by
  rcases constant_of_no_name hv h with ⟨value, rfl⟩ | ⟨value, rfl⟩
  · exact isNumberChar_repr value
  · exact value.constantText_chars.1

/-- A constant is not written like a name. -/
theorem operandText_ne_name {v : Operand} {ty : Ty} (hv : f.operandTy? v = some ty)
    (h : nameOf? f v = none) (name : String) : f.operandText v ≠ "%" ++ name := by
  intro htext
  have hpercent : '%' ∈ (f.operandText v).toList := by
    rw [htext]
    simp
  exact absurd (isNumberChar_of_no_name hv h '%' hpercent) (by decide)

theorem solid_name {name : String} (h : IsPlain name) : Solid ("%" ++ name).toList := by
  rw [String.toList_append, Solid, List.all_append, Bool.and_eq_true]
  exact ⟨rfl, solid_of_isPlain h⟩

theorem solid_operandText (hf : f.Legible m) {v : Operand} {ty : Ty} (hv : f.operandTy? v = some ty) :
    Solid (f.operandText v).toList := by
  cases hname : nameOf? f v with
  | none => exact solid_of_isNumberChar (isNumberChar_of_no_name hv hname)
  | some name =>
    rw [operandText_of_name hname]
    exact solid_name (isPlain_of_name hf hname)

/-- Constants with the same text are the same. -/
theorem constant_inj {v w : Operand} {ty ty' : Ty} (hv : f.operandTy? v = some ty)
    (hv' : nameOf? f v = none) (hw : g.operandTy? w = some ty') (hw' : nameOf? g w = none)
    (htext : f.operandText v = g.operandText w) : w = v := by
  rcases constant_of_no_name hv hv' with ⟨value, rfl⟩ | ⟨value, rfl⟩
  · rcases constant_of_no_name hw hw' with ⟨value', rfl⟩ | ⟨value', rfl⟩
    · exact congrArg Operand.int (Int64.toInt_inj.1 (Int.repr_inj.1 htext)).symm
    · exact absurd htext (repr_ne_constantText value value')
  · rcases constant_of_no_name hw hw' with ⟨value', rfl⟩ | ⟨value', rfl⟩
    · exact absurd htext.symm (repr_ne_constantText value' value)
    · exact congrArg Operand.double (Double.constantText_injective htext).symm

/-- Operands with the same name are the same parameter, or instructions that go together. -/
theorem name_inj (h : Paired f g m n) {v w : Operand} {name : String}
    (hv : nameOf? f v = some name) (hw : nameOf? g w = some name) : w = v.renumber (instTo f g) := by
  cases v with
  | int value => cases hv
  | double value => cases hv
  | arg index =>
    obtain ⟨p, hp, rfl⟩ := Option.map_eq_some_iff.1 hv
    cases w with
    | int value => cases hw
    | double value => cases hw
    | arg index' =>
      have hlt : index < (f.params.map Param.name).length := by
        simpa using (List.getElem?_eq_some_iff.1 hp).1
      have hsame : (f.params.map Param.name)[index]? = (f.params.map Param.name)[index']? := by
        rw [List.getElem?_map, List.getElem?_map, hp, h.params]
        exact hw.symm
      rw [(List.getElem?_inj hlt h.left.params_nodup).1 hsame]
      rfl
    | inst id' =>
      obtain ⟨b, hb, hname⟩ := Option.map_eq_some_iff.1 hw
      have hmem : p ∈ g.params := h.params ▸ List.mem_of_getElem? hp
      exact absurd hname.symm (h.right.param_ne_inst hmem hb)
  | inst id =>
    obtain ⟨a, ha, rfl⟩ := Option.map_eq_some_iff.1 hv
    cases w with
    | int value => cases hw
    | double value => cases hw
    | arg index' =>
      obtain ⟨q, hq, hname⟩ := Option.map_eq_some_iff.1 hw
      have hmem : q ∈ f.params := h.params ▸ List.mem_of_getElem? hq
      exact absurd hname (h.left.param_ne_inst hmem ha)
    | inst id' =>
      obtain ⟨b, hb, hname⟩ := Option.map_eq_some_iff.1 hw
      exact congrArg Operand.inst (h.instTo_eq ha hb hname.symm).symm

/-- Operands with the same text are the same constant, the same parameter, or instructions that go
together. -/
theorem operandText_inj (h : Paired f g m n) {v w : Operand} {ty ty' : Ty}
    (hv : f.operandTy? v = some ty) (hw : g.operandTy? w = some ty')
    (htext : f.operandText v = g.operandText w) : w = v.renumber (instTo f g) := by
  cases hname : nameOf? f v with
  | none =>
    cases hname' : nameOf? g w with
    | none =>
      rw [constant_inj hv hname hw hname' htext]
      rcases constant_of_no_name hv hname with ⟨value, rfl⟩ | ⟨value, rfl⟩ <;> rfl
    | some name' =>
      exact absurd (htext.trans (operandText_of_name hname')) (operandText_ne_name hv hname name')
  | some name =>
    rw [operandText_of_name hname] at htext
    cases hname' : nameOf? g w with
    | none => exact absurd htext.symm (operandText_ne_name hw hname' name)
    | some name' =>
      rw [operandText_of_name hname'] at htext
      obtain rfl := (String.append_right_inj _).1 htext
      exact name_inj h hname hname'

theorem operand_cut (h : Paired f g m n) {v w : Operand} {ty ty' : Ty} {r s : List Char}
    (hv : f.operandTy? v = some ty) (hw : g.operandTy? w = some ty') (hr : Stops r) (hs : Stops s)
    (htext : (f.operandText v).toList ++ r = (g.operandText w).toList ++ s) :
    w = v.renumber (instTo f g) ∧ r = s := by
  obtain ⟨hword, hrest⟩ :=
    (solid_operandText h.left hv).cut (solid_operandText h.right hw) hr hs htext
  exact ⟨operandText_inj h hv hw (String.toList_inj.1 hword), hrest⟩

theorem typed_cut (h : Paired f g m n) {v w : Operand} {ty ty' : Ty} {r s : List Char}
    (hv : f.operandTy? v = some ty) (hw : g.operandTy? w = some ty') (hr : Stops r) (hs : Stops s)
    (htext : (f.typedText v).toList ++ r = (g.typedText w).toList ++ s) :
    w = v.renumber (instTo f g) ∧ r = s := by
  simp only [Function.typedText, hv, hw, String.toList_append, List.append_assoc] at htext
  obtain ⟨-, hrest⟩ := words_ty.cut ⟨' ', rfl, rfl⟩ ⟨' ', rfl, rfl⟩ htext
  exact operand_cut h hv hw hr hs (List.append_cancel_left hrest)

theorem label_cut (h : Paired f g m n) {i j : BlockId} {a b : Block} {r s : List Char}
    (hi : f.block? i = some a) (hj : g.block? j = some b) (hr : Stops r) (hs : Stops s)
    (htext : (f.labelText i).toList ++ r = (g.labelText j).toList ++ s) :
    j = blockTo f g i ∧ r = s := by
  simp only [Function.labelText, hi, hj] at htext
  obtain ⟨hword, hrest⟩ := (solid_name (h.left.isPlain_block hi)).cut
    (solid_name (h.right.isPlain_block hj)) hr hs htext
  have hlabel : a.label = b.label := (String.append_right_inj _).1 (String.toList_inj.1 hword)
  exact ⟨(h.blockTo_eq hi hj hlabel).symm, hrest⟩

/-! ### Instructions -/

theorem pair_cut (h : Paired f g m n) {v v' w w' : Operand} {ty ty' : Ty} {r s : List Char}
    (hv : f.operandTy? v = some ty ∧ f.operandTy? v' = some ty)
    (hw : g.operandTy? w = some ty' ∧ g.operandTy? w' = some ty') (hr : Stops r) (hs : Stops s)
    (htext : (f.operandText v).toList ++ (", ".toList ++ ((f.operandText v').toList ++ r)) =
      (g.operandText w).toList ++ (", ".toList ++ ((g.operandText w').toList ++ s))) :
    w = v.renumber (instTo f g) ∧ w' = v'.renumber (instTo f g) ∧ r = s := by
  obtain ⟨hfirst, hrest⟩ := operand_cut h hv.1 hw.1 ⟨',', rfl, rfl⟩ ⟨',', rfl, rfl⟩ htext
  obtain ⟨hsecond, hend⟩ := operand_cut h hv.2 hw.2 hr hs (List.append_cancel_left hrest)
  exact ⟨hfirst, hsecond, hend⟩

/-- A comparison and its operands, with the type of the operands between them. -/
theorem comparison_cut (h : Paired f g m n) {Pred : Type} {spell : Pred → String} (hwords : Words spell)
    {pred pred' : Pred} {typeText : String} (htype : ∀ rest, Stops (typeText.toList ++ rest))
    {v v' w w' : Operand} {ty ty' : Ty} {r s : List Char}
    (hv : f.operandTy? v = some ty ∧ f.operandTy? v' = some ty)
    (hw : g.operandTy? w = some ty' ∧ g.operandTy? w' = some ty') (hr : Stops r) (hs : Stops s)
    (htext : (" " ++ spell pred ++ typeText ++ f.operandText v ++ ", " ++ f.operandText v').toList ++ r =
      (" " ++ spell pred' ++ typeText ++ g.operandText w ++ ", " ++ g.operandText w').toList ++ s) :
    pred = pred' ∧ w = v.renumber (instTo f g) ∧ w' = v'.renumber (instTo f g) ∧ r = s := by
  simp only [String.toList_append, List.append_assoc] at htext
  obtain ⟨hpred, hrest⟩ := hwords.cut (htype _) (htype _) (List.append_cancel_left htext)
  exact ⟨hpred, pair_cut h hv hw hr hs (List.append_cancel_left hrest)⟩

/-- The operand of a conversion, with the type that it is converted to behind it. -/
theorem conversion_cut (h : Paired f g m n) {typeText : String}
    (htype : ∀ rest, Stops (typeText.toList ++ rest)) {v w : Operand} {ty ty' : Ty} {r s : List Char}
    (hv : f.operandTy? v = some ty) (hw : g.operandTy? w = some ty')
    (htext : (" i1 " ++ f.operandText v ++ typeText).toList ++ r =
      (" i1 " ++ g.operandText w ++ typeText).toList ++ s) :
    w = v.renumber (instTo f g) ∧ r = s := by
  simp only [String.toList_append, List.append_assoc] at htext
  obtain ⟨hvalue, hend⟩ := operand_cut h hv hw (htype r) (htype s) (List.append_cancel_left htext)
  exact ⟨hvalue, List.append_cancel_left hend⟩

theorem arm_cut (h : Paired f g m n) {arm arm' : Operand × BlockId} {ty ty' : Ty} {a b : Block}
    {r s : List Char} (hv : f.operandTy? arm.1 = some ty) (ha : f.block? arm.2 = some a)
    (hw : g.operandTy? arm'.1 = some ty') (hb : g.block? arm'.2 = some b)
    (htext : ("[ " ++ f.operandText arm.1 ++ ", " ++ f.labelText arm.2 ++ " ]").toList ++ r =
      ("[ " ++ g.operandText arm'.1 ++ ", " ++ g.labelText arm'.2 ++ " ]").toList ++ s) :
    arm' = (arm.1.renumber (instTo f g), blockTo f g arm.2) ∧ r = s := by
  simp only [String.toList_append, List.append_assoc] at htext
  obtain ⟨hvalue, hrest⟩ := operand_cut h hv hw ⟨',', rfl, rfl⟩ ⟨',', rfl, rfl⟩
    (List.append_cancel_left htext)
  obtain ⟨hlabel, hend⟩ := label_cut h ha hb ⟨' ', rfl, rfl⟩ ⟨' ', rfl, rfl⟩
    (List.append_cancel_left hrest)
  exact ⟨Prod.ext hvalue hlabel, List.append_cancel_left hend⟩

theorem eq_map_of_forall₂ {α β : Type} {φ : α → β} {as : List α} {bs : List β}
    (h : List.Forall₂ (fun a b => b = φ a) as bs) : bs = as.map φ := by
  induction h with
  | nil => rfl
  | cons hfirst _ ih => rw [hfirst, ih, List.map_cons]

/-- The arguments of a call and its callee. -/
theorem call_cut (h : Paired f g m n) {ty ty' : Ty} {callee callee' : String} (args args' : List Operand)
    {r s : List Char} (hc : IsPlain callee) (hc' : IsPlain callee')
    (hargs : ∀ v ∈ args, ∃ ty, f.operandTy? v = some ty)
    (hargs' : ∀ v ∈ args', ∃ ty, g.operandTy? v = some ty)
    (htext : (details f ty (.call callee args)).toList ++ r =
      (details g ty' (.call callee' args')).toList ++ s) :
    ty' = ty ∧ callee' = callee ∧ args' = args.map (Operand.renumber (instTo f g)) ∧ r = s := by
  have hstarts : ∀ {f : Function} {v : Operand}, (∃ ty, f.operandTy? v = some ty) →
      Starts (f.typedText v).toList := by
    intro f v hv
    obtain ⟨ty, hty⟩ := hv
    rw [Function.typedText, hty]
    exact ((starts_ty ty).append _).append _
  simp only [details, String.toList_append, List.append_assoc] at htext
  obtain ⟨hty, hrest⟩ := words_ty.cut ⟨' ', rfl, rfl⟩ ⟨' ', rfl, rfl⟩ (List.append_cancel_left htext)
  obtain ⟨hcallee, hrest⟩ := (solid_of_isPlain hc).cut (solid_of_isPlain hc') ⟨'(', rfl, rfl⟩
    ⟨'(', rfl, rfl⟩ (List.append_cancel_left hrest)
  obtain ⟨hall, hend⟩ := list_cut (R := fun v w => w = v.renumber (instTo f g))
    (fun v hv w hw r s hr hs heq => by
      obtain ⟨ty, hty⟩ := hargs v hv
      obtain ⟨ty', hty'⟩ := hargs' w hw
      exact typed_cut h hty hty' hr hs heq)
    (fun v hv => hstarts (hargs v hv)) (fun w hw => hstarts (hargs' w hw)) ⟨')', rfl, rfl, by decide⟩
    ⟨')', rfl, rfl, by decide⟩ (List.append_cancel_left hrest)
  exact ⟨hty.symm, (String.toList_inj.1 hcallee).symm, eq_map_of_forall₂ hall,
    List.append_cancel_left hend⟩

/-- The arms of a phi. -/
theorem phi_cut (h : Paired f g m n) {ty ty' : Ty} (arms arms' : List (Operand × BlockId))
    {r s : List Char}
    (harms : ∀ arm ∈ arms, (∃ ty, f.operandTy? arm.1 = some ty) ∧ ∃ b, f.block? arm.2 = some b)
    (harms' : ∀ arm ∈ arms', (∃ ty, g.operandTy? arm.1 = some ty) ∧ ∃ b, g.block? arm.2 = some b)
    (hr : Closes r) (hs : Closes s)
    (htext : (details f ty (.phi arms)).toList ++ r = (details g ty' (.phi arms')).toList ++ s) :
    ty' = ty ∧ arms' = arms.map (fun arm => (arm.1.renumber (instTo f g), blockTo f g arm.2)) ∧
      r = s := by
  simp only [details, String.toList_append, List.append_assoc] at htext
  obtain ⟨hty, hrest⟩ := words_ty.cut ⟨' ', rfl, rfl⟩ ⟨' ', rfl, rfl⟩ (List.append_cancel_left htext)
  obtain ⟨hall, hend⟩ := list_cut
    (R := fun arm arm' => arm' = (arm.1.renumber (instTo f g), blockTo f g arm.2))
    (fun arm harm arm' harm' r s _ _ heq => by
      obtain ⟨⟨ty, hty⟩, b, hb⟩ := harms arm harm
      obtain ⟨⟨ty', hty'⟩, b', hb'⟩ := harms' arm' harm'
      exact arm_cut h hty hb hty' hb' heq)
    (fun arm _ => ⟨'[', by simp, rfl⟩) (fun arm' _ => ⟨'[', by simp, rfl⟩) hr hs
    (List.append_cancel_left hrest)
  exact ⟨hty.symm, eq_map_of_forall₂ hall, hend⟩

theorem stops_details (f : Function) (ty : Ty) (op : Op) (r : List Char) :
    Stops ((details f ty op).toList ++ r) := by
  refine ⟨' ', ?_, rfl⟩
  cases op <;> simp [details]

/-- **An instruction is told from its text**, types that are not written included. -/
theorem op_cut (h : Paired f g m n) {i j : InstId} {a b : Inst} {r s : List Char}
    (hi : f.inst? i = some a) (hj : g.inst? j = some b) (hr : Closes r) (hs : Closes s)
    (htext : (f.opText a.ty a.op).toList ++ r = (g.opText b.ty b.op).toList ++ s) :
    b.ty = a.ty ∧ b.op = a.op.renumber (instTo f g) (blockTo f g) ∧ r = s := by
  obtain ⟨preds, ha, hpreds⟩ := h.left.typedBy hi
  obtain ⟨preds', hb, hpreds'⟩ := h.right.typedBy hj
  rw [opText_eq, opText_eq, String.toList_append, String.toList_append, List.append_assoc,
    List.append_assoc] at htext
  obtain ⟨hform, hrest⟩ := Form.words_word.cut (stops_details ..) (stops_details ..) htext
  clear hi hj htext
  -- both are of one form now; the types that the form leaves unwritten come from verification
  obtain ⟨name, ty, op⟩ := a
  obtain ⟨name', ty', op'⟩ := b
  cases op with
  | binary code l r =>
    cases op' with
    | binary code' l' r' =>
      cases hform
      simp only [details, String.toList_append, List.append_assoc, List.append_cancel_left_eq] at hrest
      obtain ⟨rfl, rfl, hend⟩ := pair_cut h ⟨ha.1, ha.2.1⟩ ⟨hb.1, hb.2.1⟩ hr.stops hs.stops hrest
      exact ⟨hb.2.2.trans ha.2.2.symm, rfl, hend⟩
    | _ => cases hform
  | icmp pred l r =>
    cases op' with
    | icmp pred' l' r' =>
      obtain ⟨rfl, rfl, rfl, hend⟩ := comparison_cut h words_intPred (fun _ => ⟨' ', rfl, rfl⟩)
        ⟨ha.1, ha.2.1⟩ ⟨hb.1, hb.2.1⟩ hr.stops hs.stops hrest
      exact ⟨hb.2.2.trans ha.2.2.symm, rfl, hend⟩
    | _ => cases hform
  | fcmp pred l r =>
    cases op' with
    | fcmp pred' l' r' =>
      obtain ⟨rfl, rfl, rfl, hend⟩ := comparison_cut h words_floatPred (fun _ => ⟨' ', rfl, rfl⟩)
        ⟨ha.1, ha.2.1⟩ ⟨hb.1, hb.2.1⟩ hr.stops hs.stops hrest
      exact ⟨hb.2.2.trans ha.2.2.symm, rfl, hend⟩
    | _ => cases hform
  | zext v =>
    cases op' with
    | zext w =>
      obtain ⟨rfl, hend⟩ := conversion_cut h (fun _ => ⟨' ', rfl, rfl⟩) ha.1 hb.1 hrest
      exact ⟨hb.2.trans ha.2.symm, rfl, hend⟩
    | _ => cases hform
  | uitofp v =>
    cases op' with
    | uitofp w =>
      obtain ⟨rfl, hend⟩ := conversion_cut h (fun _ => ⟨' ', rfl, rfl⟩) ha.1 hb.1 hrest
      exact ⟨hb.2.trans ha.2.symm, rfl, hend⟩
    | _ => cases hform
  | call callee args =>
    cases op' with
    | call callee' args' =>
      have hplain : IsPlain callee := by
        obtain ⟨target, htarget, -⟩ := ha
        exact h.left.isPlain_callee htarget
      have hplain' : IsPlain callee' := by
        obtain ⟨target, htarget, -⟩ := hb
        exact h.right.isPlain_callee htarget
      obtain ⟨hty, hcallee, hargs, hend⟩ := call_cut h args args' hplain hplain'
        (fun v hv => ha.uses hv) (fun v hv => hb.uses hv) hrest
      refine ⟨hty, ?_, hend⟩
      show Op.call callee' args' = _
      rw [hcallee, hargs]
      rfl
    | _ => cases hform
  | phi arms =>
    cases op' with
    | phi arms' =>
      obtain ⟨hty, harms, hend⟩ := phi_cut h arms arms'
        (fun arm harm => ⟨⟨_, (ha.2 arm harm).2⟩, hpreds _ (ha.2 arm harm).1⟩)
        (fun arm harm => ⟨⟨_, (hb.2 arm harm).2⟩, hpreds' _ (hb.2 arm harm).1⟩) hr hs hrest
      exact ⟨hty, congrArg Op.phi harms, hend⟩
    | _ => cases hform

theorem inst_cut (h : Paired f g m n) {i j : InstId} {a b : Inst} {r s : List Char}
    (hi : f.inst? i = some a) (hj : g.inst? j = some b)
    (htext : (f.instText a).toList ++ r = (g.instText b).toList ++ s) :
    j = instTo f g i ∧ b = a.renumber (instTo f g) (blockTo f g) ∧ r = s := by
  simp only [Function.instText, String.toList_append, List.append_assoc] at htext
  obtain ⟨hname, hrest⟩ := (solid_of_isPlain (h.left.isPlain_inst hi)).cut
    (solid_of_isPlain (h.right.isPlain_inst hj)) ⟨' ', rfl, rfl⟩ ⟨' ', rfl, rfl⟩
    (List.append_cancel_left htext)
  obtain ⟨hty, hop, hend⟩ := op_cut h hi hj ⟨'\n', rfl, rfl, by decide⟩ ⟨'\n', rfl, rfl, by decide⟩
    (List.append_cancel_left hrest)
  have hsame : a.name = b.name := String.toList_inj.1 hname
  refine ⟨(h.instTo_eq hi hj hsame).symm, ?_, List.append_cancel_left hend⟩
  obtain ⟨name', ty', op'⟩ := b
  simp only at hsame hty hop
  rw [← hsame, hty, hop]
  rfl

/-! ### Blocks -/

/-- The end of a block is told from its text. -/
theorem terminator_cut (h : Paired f g m n) {i j : BlockId} {a b : Block} {t u : Terminator}
    {r s : List Char} (hi : f.block? i = some a) (ht : a.terminator? = some t)
    (hj : g.block? j = some b) (hu : b.terminator? = some u)
    (htext : (f.terminatorText t).toList ++ r = (g.terminatorText u).toList ++ s) :
    u = t.renumber (instTo f g) (blockTo f g) ∧ r = s := by
  obtain ⟨htyped, hnext⟩ := h.left.terminator_typed hi ht
  obtain ⟨htyped', hnext'⟩ := h.right.terminator_typed hj hu
  cases t with
  | ret v =>
    cases u with
    | ret w =>
      simp only [Function.terminatorText, String.toList_append, List.append_assoc] at htext
      obtain ⟨hvalue, hend⟩ := typed_cut h htyped htyped' ⟨'\n', rfl, rfl⟩ ⟨'\n', rfl, rfl⟩
        (List.append_cancel_left htext)
      exact ⟨congrArg Terminator.ret hvalue, List.append_cancel_left hend⟩
    | br target => simp [Function.terminatorText] at htext
    | condBr cond onTrue onFalse => simp [Function.terminatorText] at htext
  | br target =>
    cases u with
    | ret w => simp [Function.terminatorText] at htext
    | br target' =>
      obtain ⟨c, hc⟩ := hnext target List.mem_cons_self
      obtain ⟨c', hc'⟩ := hnext' target' List.mem_cons_self
      simp only [Function.terminatorText, String.toList_append, List.append_assoc] at htext
      obtain ⟨hlabel, hend⟩ := label_cut h hc hc' ⟨'\n', rfl, rfl⟩ ⟨'\n', rfl, rfl⟩
        (List.append_cancel_left htext)
      exact ⟨congrArg Terminator.br hlabel, List.append_cancel_left hend⟩
    | condBr cond onTrue onFalse => simp [Function.terminatorText] at htext
  | condBr cond onTrue onFalse =>
    cases u with
    | ret w => simp [Function.terminatorText] at htext
    | br target => simp [Function.terminatorText] at htext
    | condBr cond' onTrue' onFalse' =>
      obtain ⟨c, hc⟩ := hnext onTrue List.mem_cons_self
      obtain ⟨c', hc'⟩ := hnext' onTrue' List.mem_cons_self
      obtain ⟨d, hd⟩ := hnext onFalse (List.mem_cons_of_mem _ List.mem_cons_self)
      obtain ⟨d', hd'⟩ := hnext' onFalse' (List.mem_cons_of_mem _ List.mem_cons_self)
      simp only [Function.terminatorText, String.toList_append, List.append_assoc] at htext
      obtain ⟨hcond, hrest⟩ := operand_cut h htyped htyped' ⟨',', rfl, rfl⟩ ⟨',', rfl, rfl⟩
        (List.append_cancel_left htext)
      obtain ⟨htrue, hrest'⟩ := label_cut h hc hc' ⟨',', rfl, rfl⟩ ⟨',', rfl, rfl⟩
        (List.append_cancel_left hrest)
      obtain ⟨hfalse, hend⟩ := label_cut h hd hd' ⟨'\n', rfl, rfl⟩ ⟨'\n', rfl, rfl⟩
        (List.append_cancel_left hrest')
      rw [hcond, htrue, hfalse]
      exact ⟨rfl, List.append_cancel_left hend⟩

/-- The lines of instructions. -/
def lines (f : Function) (ids : List InstId) : String :=
  String.join (ids.map fun id => ((f.inst? id).map f.instText).getD "")

theorem lines_cons {i : InstId} {a : Inst} (hi : f.inst? i = some a) (ids : List InstId) :
    (lines f (i :: ids)).toList = (f.instText a).toList ++ (lines f ids).toList := by
  simp [lines, String.toList_join, hi]

/-- The end of a block is not written like an instruction. -/
theorem terminatorText_ne (f g : Function) (t : Terminator) (a : Inst) (r s : List Char) :
    (f.terminatorText t).toList ++ r ≠ (g.instText a).toList ++ s := by
  cases t <;> simp [Function.terminatorText, Function.instText]

/-- The instruction of `g` that is called like instruction `i` of `f` is the same. -/
def InstTold (f g : Function) (i : InstId) : Prop :=
  ∀ a, f.inst? i = some a →
    g.inst? (instTo f g i) = some (a.renumber (instTo f g) (blockTo f g))

/-- Instructions are told line by line, up to the end of the block. -/
theorem lines_cut (h : Paired f g m n) {i j : BlockId} {a b : Block} {t u : Terminator}
    {ids ids' : List InstId} {r s : List Char} (hi : f.block? i = some a)
    (ht : a.terminator? = some t) (hj : g.block? j = some b) (hu : b.terminator? = some u)
    (hids : ∀ i ∈ ids, (f.inst? i).isSome) (hids' : ∀ i ∈ ids', (g.inst? i).isSome)
    (htext : (lines f ids).toList ++ ((f.terminatorText t).toList ++ r) =
      (lines g ids').toList ++ ((g.terminatorText u).toList ++ s)) :
    ids' = ids.map (instTo f g) ∧ (∀ i ∈ ids, InstTold f g i) ∧
      u = t.renumber (instTo f g) (blockTo f g) ∧ r = s := by
  induction ids generalizing ids' with
  | nil =>
    cases ids' with
    | nil =>
      obtain ⟨hend, hrest⟩ := terminator_cut h hi ht hj hu htext
      exact ⟨rfl, fun i hmem => absurd hmem List.not_mem_nil, hend, hrest⟩
    | cons k' ids' =>
      obtain ⟨inst', hinst'⟩ := Option.isSome_iff_exists.1 (hids' k' List.mem_cons_self)
      rw [lines_cons hinst', List.append_assoc] at htext
      exact absurd htext (terminatorText_ne f g t inst' r _)
  | cons k ids ih =>
    obtain ⟨inst, hinst⟩ := Option.isSome_iff_exists.1 (hids k List.mem_cons_self)
    rw [lines_cons hinst, List.append_assoc] at htext
    cases ids' with
    | nil => exact absurd htext.symm (terminatorText_ne g f u inst s _)
    | cons k' ids' =>
      obtain ⟨inst', hinst'⟩ := Option.isSome_iff_exists.1 (hids' k' List.mem_cons_self)
      rw [lines_cons hinst', List.append_assoc] at htext
      obtain ⟨hk, hsame, hrest⟩ := inst_cut h hinst hinst' htext
      obtain ⟨htail, htold, hend⟩ := ih (fun i hmem => hids i (List.mem_cons_of_mem _ hmem))
        (fun i hmem => hids' i (List.mem_cons_of_mem _ hmem)) hrest
      have hfirst : InstTold f g k := by
        intro a ha
        obtain rfl := Option.some.inj (hinst.symm.trans ha)
        rw [← hk, hinst', hsame]
      exact ⟨by rw [hk, htail, List.map_cons], List.forall_mem_cons.2 ⟨hfirst, htold⟩, hend⟩

/-- The block of `g` that is labelled like block `id` of `f` is the same, and so are its instructions. -/
def BlockTold (f g : Function) (id : BlockId) : Prop :=
  ∀ b, f.block? id = some b →
    g.block? (blockTo f g id) = some (b.renumber (instTo f g) (blockTo f g)) ∧
      ∀ i ∈ b.insts, InstTold f g i

theorem block_cut (h : Paired f g m n) {i j : BlockId} {a b : Block} {r s : List Char}
    (hi : f.block? i = some a) (hj : g.block? j = some b) (hid : i ∈ f.layout) (hid' : j ∈ g.layout)
    (htext : (f.blockText a).toList ++ r = (g.blockText b).toList ++ s) :
    j = blockTo f g i ∧ BlockTold f g i ∧ r = s := by
  obtain ⟨a', t, ha', ht, hinsts, -⟩ := h.left.verified.complete.blocks i hid
  obtain ⟨b', u, hb', hu, hinsts', -⟩ := h.right.verified.complete.blocks j hid'
  obtain rfl := Option.some.inj (hi.symm.trans ha')
  obtain rfl := Option.some.inj (hj.symm.trans hb')
  simp only [Function.blockText, ht, hu, Option.map_some, Option.getD_some, String.toList_append,
    List.append_assoc] at htext
  obtain ⟨hlabel, hrest⟩ := (solid_of_isPlain (h.left.isPlain_block hi)).cut
    (solid_of_isPlain (h.right.isPlain_block hj)) ⟨':', rfl, rfl⟩ ⟨':', rfl, rfl⟩ htext
  obtain ⟨hids, htold, hend, hrest'⟩ := lines_cut h hi ht hj hu hinsts hinsts'
    (List.append_cancel_left hrest)
  have hsame : a.label = b.label := String.toList_inj.1 hlabel
  have hto : blockTo f g i = j := h.blockTo_eq hi hj hsame
  refine ⟨hto.symm, fun c hc => ?_, hrest'⟩
  obtain rfl := Option.some.inj (hi.symm.trans hc)
  refine ⟨?_, htold⟩
  rw [hto, hj, Block.renumber, ht, hsame, ← hids, Option.map_some, ← hend, ← hu]

/-! ### Functions -/

/-- The blocks from place `k` of the layout on. -/
def paragraphs (f : Function) (k : Nat) (ids : List BlockId) : String :=
  String.join ((ids.zipIdx k).map fun e => f.paragraph e.1 e.2)

theorem paragraphs_cons {id : BlockId} {b : Block} (hb : f.block? id = some b) (k : Nat)
    (ids : List BlockId) :
    (paragraphs f k (id :: ids)).toList = (if k = 0 then "" else "\n").toList ++
      ((f.blockText b).toList ++ (paragraphs f (k + 1) ids).toList) := by
  simp [paragraphs, String.toList_join, Function.paragraph, hb]

/-- The blocks behind the first one are told one by one, up to the closing brace. -/
theorem paragraphs_cut (h : Paired f g m n) {k : Nat} {ids ids' : List BlockId} {r s : List Char}
    (hids : ∀ id ∈ ids, id ∈ f.layout) (hids' : ∀ id ∈ ids', id ∈ g.layout)
    (htext : (paragraphs f (k + 1) ids).toList ++ ("\x7d\n".toList ++ r) =
      (paragraphs g (k + 1) ids').toList ++ ("\x7d\n".toList ++ s)) :
    ids' = ids.map (blockTo f g) ∧ ∀ id ∈ ids, BlockTold f g id := by
  induction ids generalizing k ids' with
  | nil =>
    cases ids' with
    | nil => exact ⟨rfl, fun id hmem => absurd hmem List.not_mem_nil⟩
    | cons id' ids' =>
      obtain ⟨b', -, hb', -⟩ := h.right.verified.complete.blocks id' (hids' id' List.mem_cons_self)
      rw [paragraphs_cons hb'] at htext
      simp [paragraphs] at htext
  | cons id ids ih =>
    obtain ⟨b, -, hb, -⟩ := h.left.verified.complete.blocks id (hids id List.mem_cons_self)
    rw [paragraphs_cons hb, if_neg (Nat.succ_ne_zero k)] at htext
    cases ids' with
    | nil => simp [paragraphs] at htext
    | cons id' ids' =>
      obtain ⟨b', -, hb', -⟩ := h.right.verified.complete.blocks id' (hids' id' List.mem_cons_self)
      rw [paragraphs_cons hb', if_neg (Nat.succ_ne_zero k)] at htext
      simp only [List.append_assoc] at htext
      obtain ⟨hid, htold, hrest⟩ := block_cut h hb hb' (hids id List.mem_cons_self)
        (hids' id' List.mem_cons_self) (List.append_cancel_left htext)
      obtain ⟨htail, hall⟩ := ih (fun i hmem => hids i (List.mem_cons_of_mem _ hmem))
        (fun i hmem => hids' i (List.mem_cons_of_mem _ hmem)) hrest
      exact ⟨by rw [hid, htail, List.map_cons], List.forall_mem_cons.2 ⟨htold, hall⟩⟩

/-- The blocks of two functions with the same body text. -/
theorem body_cut (h : Paired f g m n)
    (htext : (paragraphs f 0 f.layout).toList ++ "\x7d\n".toList =
      (paragraphs g 0 g.layout).toList ++ "\x7d\n".toList) :
    g.layout = f.layout.map (blockTo f g) ∧ ∀ id ∈ f.layout, BlockTold f g id := by
  obtain ⟨id, ids, hids⟩ := List.exists_cons_of_ne_nil h.left.verified.complete.layout_ne_nil
  obtain ⟨id', ids', hids'⟩ := List.exists_cons_of_ne_nil h.right.verified.complete.layout_ne_nil
  have hall : ∀ i ∈ id :: ids, i ∈ f.layout := fun i hi => hids ▸ hi
  have hall' : ∀ i ∈ id' :: ids', i ∈ g.layout := fun i hi => hids' ▸ hi
  obtain ⟨b, -, hb, -⟩ := h.left.verified.complete.blocks id (hall id List.mem_cons_self)
  obtain ⟨b', -, hb', -⟩ := h.right.verified.complete.blocks id' (hall' id' List.mem_cons_self)
  rw [hids, hids', paragraphs_cons hb, paragraphs_cons hb', if_pos rfl] at htext
  simp only [List.append_assoc] at htext
  obtain ⟨hid, htold, hrest⟩ := block_cut h hb hb' (hall id List.mem_cons_self)
    (hall' id' List.mem_cons_self) (List.append_cancel_left htext)
  rw [← List.append_nil "\x7d\n".toList] at hrest
  obtain ⟨htail, hrest'⟩ := paragraphs_cut h (fun i hi => hall i (List.mem_cons_of_mem _ hi))
    (fun i hi => hall' i (List.mem_cons_of_mem _ hi)) hrest
  rw [hids, hids', hid, htail]
  exact ⟨rfl, List.forall_mem_cons.2 ⟨htold, hrest'⟩⟩

end Paired

section Header

variable {f g : Function} {m n : Module}

theorem toList_text (hf : f.Legible m) :
    f.text.toList = "define ".toList ++ (f.ret.text.toList ++ (" @".toList ++ (f.name.toList ++
      ("(".toList ++ ((Function.commaSeparated (f.params.map fun p => p.ty.text ++ " %" ++ p.name)).toList ++
        (") \x7b\n".toList ++ ((paragraphs f 0 f.layout).toList ++ "\x7d\n".toList))))))) := by
  simp only [Function.text, hf.verified.isDeclaration, Bool.false_eq_true, if_false,
    String.toList_append, List.append_assoc, paragraphs]

theorem param_cut {p q : Param} {r s : List Char} (hp : IsPlain p.name) (hq : IsPlain q.name)
    (hr : Stops r) (hs : Stops s)
    (htext : (p.ty.text ++ " %" ++ p.name).toList ++ r = (q.ty.text ++ " %" ++ q.name).toList ++ s) :
    p = q ∧ r = s := by
  simp only [String.toList_append, List.append_assoc] at htext
  obtain ⟨hty, hrest⟩ := words_ty.cut ⟨' ', rfl, rfl⟩ ⟨' ', rfl, rfl⟩ htext
  obtain ⟨hname, hend⟩ := (solid_of_isPlain hp).cut (solid_of_isPlain hq) hr hs
    (List.append_cancel_left hrest)
  obtain ⟨name, ty⟩ := p
  obtain ⟨name', ty'⟩ := q
  obtain rfl : name = name' := String.toList_inj.1 hname
  obtain rfl : ty = ty' := hty
  exact ⟨rfl, hend⟩

/-- What stands in front of the blocks. -/
theorem header_cut (hf : f.Legible m) (hg : g.Legible n) (h : f.text = g.text) :
    f.ret = g.ret ∧ f.name = g.name ∧ f.params = g.params ∧
      (paragraphs f 0 f.layout).toList ++ "\x7d\n".toList =
        (paragraphs g 0 g.layout).toList ++ "\x7d\n".toList := by
  have htext : f.text.toList = g.text.toList := by rw [h]
  have hstarts : ∀ p : Param, Starts (p.ty.text ++ " %" ++ p.name).toList := fun p =>
    ((starts_ty p.ty).append _).append _
  rw [toList_text hf, toList_text hg] at htext
  obtain ⟨hret, hrest⟩ := words_ty.cut ⟨' ', rfl, rfl⟩ ⟨' ', rfl, rfl⟩ (List.append_cancel_left htext)
  obtain ⟨hname, hrest'⟩ := (solid_of_isPlain hf.name).cut (solid_of_isPlain hg.name) ⟨'(', rfl, rfl⟩
    ⟨'(', rfl, rfl⟩ (List.append_cancel_left hrest)
  obtain ⟨hparams, hbody⟩ := list_cut (R := Eq)
    (fun p hp q hq r s hr hs heq => param_cut (hf.isPlain_param hp) (hg.isPlain_param hq) hr hs heq)
    (fun p _ => hstarts p) (fun q _ => hstarts q) ⟨')', rfl, rfl, by decide⟩ ⟨')', rfl, rfl, by decide⟩
    (List.append_cancel_left hrest')
  rw [List.forall₂_eq_eq_eq] at hparams
  exact ⟨hret, String.toList_inj.1 hname, hparams, List.append_cancel_left hbody⟩

end Header

end Listing

namespace Function

open Listing

variable {f g : Function} {m n : Module}

/-- Legible functions with the same listing differ in their numbers only: things of the same name go
together. -/
theorem Legible.renumbers (hf : f.Legible m) (hg : g.Legible n) (h : f.text = g.text) :
    f.Renumbers (instTo f g) (blockTo f g) g := by
  obtain ⟨hret, hname, hparams, hbody⟩ := header_cut hf hg h
  have hpair : Paired f g m n := ⟨hf, hg, hparams⟩
  have hcomplete := hf.verified.complete
  have hcomplete' := hg.verified.complete
  obtain ⟨hlayout, htold⟩ := body_cut hpair hbody
  have hblocks : ∀ id b, f.block? id = some b →
      g.block? (blockTo f g id) = some (b.renumber (instTo f g) (blockTo f g)) ∧
        ∀ i ∈ b.insts, InstTold f g i := fun id b hb =>
    htold id (hcomplete.mem_layout_iff.2 (lt_of_block? hb)) b hb
  have hinsts : ∀ i a, f.inst? i = some a →
      g.inst? (instTo f g i) = some (a.renumber (instTo f g) (blockTo f g)) := by
    intro i a hi
    -- the layout is complete, so the instruction has a line in some block
    obtain ⟨id, hid, hmem⟩ := List.mem_flatMap.1
      (hcomplete.mem_insts_iff.2 (lt_of_inst? hi))
    obtain ⟨b, -, hb, -⟩ := hcomplete.blocks id hid
    rw [instsAt_of_block? hb] at hmem
    exact (hblocks id b hb).2 i hmem a hi
  refine ⟨hname.symm, hparams.symm, hret.symm, hlayout, fun id b hb => (hblocks id b hb).1, hinsts,
    bijOn_of_name hf.blocks_nodup (fun id b hb => ⟨_, (hblocks id b hb).1, rfl⟩) fun j hj => ?_,
    bijOn_of_name hf.insts_nodup (fun i a hi => ⟨_, hinsts i a hi, rfl⟩) fun j hj => ?_⟩
  · have hmem : j ∈ g.layout := hcomplete'.mem_layout_iff.2 hj
    rw [hlayout] at hmem
    obtain ⟨id, hid, hto⟩ := List.mem_map.1 hmem
    exact ⟨id, hcomplete.mem_layout_iff.1 hid, hto⟩
  · obtain ⟨id', hid', hmem⟩ := List.mem_flatMap.1 (hcomplete'.mem_insts_iff.2 hj)
    rw [hlayout] at hid'
    obtain ⟨id, hid, rfl⟩ := List.mem_map.1 hid'
    obtain ⟨b, -, hb, -⟩ := hcomplete.blocks id hid
    rw [instsAt_of_block? (hblocks id b hb).1] at hmem
    obtain ⟨i, hi, hto⟩ := List.mem_map.1 hmem
    refine ⟨i, hcomplete.mem_insts_iff.1 (List.mem_flatMap.2 ⟨id, hid, ?_⟩), hto⟩
    rw [instsAt_of_block? hb]
    exact hi

/-- **A listing says everything about a function but the numbers.**  Take two functions that were made of
source text, by any compilers in any states.  If they have the same listing, they are the same up to the
numbers of instructions and blocks: same name, parameters and result type, the same labels in the same
order, and the same instructions and ends of blocks, with their names, types and operands. -/
theorem renumbers_of_text_eq (hf : f.Generated) (hg : g.Generated) (h : f.text = g.text) :
    ∃ σ τ, f.Renumbers σ τ g := by
  obtain ⟨m, hf⟩ := hf.legible
  obtain ⟨n, hg⟩ := hg.legible
  exact ⟨instTo f g, blockTo f g, hf.renumbers hg h⟩

/-- A function with a choice, a comparison and a call, made by two compilers in different states of texts
that are spaced differently. -/
theorem renumbers_of_text_eq_spaced :
    let c := ((Compiler.ofConfig {}).withMachine.compile "def double g() 0.1; g(); 1 / 0").2
    let s := Session.start (.ofConfig {}) "def int f(int n) if n < 1 then 1 else n * f(n - 1)"
    let s' := Session.start c "# as before\ndef int f(int n)\n  if (n < 1) then 1 else (n * f(n - 1));"
    ∃ f g, s.made? = some f ∧ s'.made? = some g ∧ f.text = g.text ∧ ∃ σ τ, f.Renumbers σ τ g := by
  intro c s s'
  have hc : c.Reached := (Compiler.Reached.withMachine {}).compile _
  obtain ⟨t, ds, ht, hcompiler⟩ := hc
  have hs' : s'.Reached ds := by
    have hagain := ht.again "# as before\ndef int f(int n)\n  if (n < 1) then 1 else (n * f(n - 1));"
    rw [hcompiler] at hagain
    exact hagain
  have hboth : ∀ a b : Option Function,
      (a.bind fun f => b.map fun g => decide (f.text = g.text)) = some true →
      ∃ f g, a = some f ∧ b = some g ∧ f.text = g.text := by
    intro a b hab
    obtain ⟨f, rfl, hb⟩ := Option.bind_eq_some_iff.1 hab
    obtain ⟨g, rfl, htext⟩ := Option.map_eq_some_iff.1 hb
    exact ⟨f, g, rfl, rfl, of_decide_eq_true htext⟩
  obtain ⟨f, g, hf, hg, htext⟩ := hboth s.made? s'.made? (by decide +kernel)
  exact ⟨f, g, hf, hg, htext, renumbers_of_text_eq ⟨s, [], .ofConfig {} _, hf⟩ ⟨s', ds, hs', hg⟩ htext⟩

end Function

end Ir

end ScalarLang
