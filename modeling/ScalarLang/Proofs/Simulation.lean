import ScalarLang.Proofs.Evaluator
import ScalarLang.Proofs.Generated

/-!
# Lowered expressions compute their meaning

A run of the code of an expression goes in step with its evaluation.  It starts where the builder's
cursor was before the expression was lowered, and gets to where the cursor was afterwards, with the
value at hand; or it ends with the fault of the evaluation.  Values that were computed before stay.

* `Machine.Follows` — a run goes in step with an evaluation.
* `Machine.Frame.Stands` — a frame stands where the cursor of a builder stood.
* `Machine.Thread.Arrives`, `Machine.Thread.Gives` — what the code of an expression does to a run.
* `Machine.Fits`, `Machine.Answers` — arguments have the right types, and calls go in step with their
  meaning.
* `Machine.lower_follows` — so do expressions, if calls do.
-/

namespace ScalarLang

namespace Machine

open Ir Lower

/-! ### Following an evaluation -/

section Follows

variable {α β : Type} {m : Ir.Module} {bound : Nat} {th th' : Thread}

/-- A run ends with the fault of an evaluation, or gets to a point where `Q` holds of its value. -/
def Follows (m : Ir.Module) (bound : Nat) (th : Thread) (x : Except Fault α)
    (Q : α → Thread → Prop) : Prop :=
  match x with
  | .ok a => ∃ th', Thread.Reaches m bound th th' ∧ Q a th'
  | .error e => Thread.Ends m bound th (.error e)

namespace Follows

variable {P Q : α → Thread → Prop} {R : β → Thread → Prop} {x : Except Fault α}

theorem ok {a : α} (h : Q a th) : Follows m bound th (.ok a) Q := ⟨th, .refl th, h⟩

theorem of_reaches (h : Thread.Reaches m bound th th') (hx : Follows m bound th' x Q) :
    Follows m bound th x Q := by
  cases x with
  | ok a =>
    obtain ⟨th'', hreach, hq⟩ := hx
    exact ⟨th'', h.trans hreach, hq⟩
  | error e => exact h.ends hx

theorem bind {f : α → Except Fault β} (hx : Follows m bound th x P)
    (hf : ∀ a th', P a th' → Follows m bound th' (f a) R) : Follows m bound th (x >>= f) R := by
  cases x with
  | ok a =>
    obtain ⟨th', hreach, hp⟩ := hx
    exact of_reaches hreach (hf a th' hp)
  | error e => exact hx

/-- A run can go on when the evaluation is done. -/
theorem goesOn (hx : Follows m bound th x P) (h : ∀ a th', P a th' → Follows m bound th' (.ok a) Q) :
    Follows m bound th x Q := by
  cases x with
  | ok a =>
    obtain ⟨th', hreach, hp⟩ := hx
    exact of_reaches hreach (h a th' hp)
  | error e => exact hx

theorem mono (hx : Follows m bound th x P) (h : ∀ a th', P a th' → Q a th') :
    Follows m bound th x Q :=
  hx.goesOn fun a th' hp => ok (h a th' hp)

end Follows

end Follows

/-! ### Frames and builders -/

/-- The frame of a call of `f`, standing where the cursor of `b` stands: behind the instructions that the
block at the cursor has in `b`. -/
structure Frame.Stands (f : Function) (args : List Value) (b : Builder) (fr : Frame) : Prop where
  function : fr.function = f
  args : fr.args = args
  size : fr.values.size = f.insts.size
  cursor : b.cursor? = some fr.block
  pos : fr.pos = (b.function.instsAt fr.block).length

/-- The topmost frame has got from one builder to another, and the values of the first are still
there. -/
structure Thread.Arrives (f : Function) (args : List Value) (b b' : Builder) (th th' : Thread) :
    Prop where
  callers : th'.callers = th.callers
  depth : th'.meter.depth = th.meter.depth
  stands : th'.top.Stands f args b'
  kept : ∀ i : Nat, i < b.function.insts.size → th'.top.values[i]? = th.top.values[i]?

/-- The topmost frame has got from one builder to another, where `v` has the value `w`. -/
structure Thread.Gives (f : Function) (args : List Value) (b b' : Builder) (v : Operand) (ty : Ty)
    (th : Thread) (w : Value) (th' : Thread) : Prop where
  arrives : Thread.Arrives f args b b' th th'
  get : th'.top.get v = .ok w
  ty : w.ty = ty

section Standing

variable {m₁ : Ir.Module} {f : Function} {args : List Value} {b b₁ b' : Builder} {fr : Frame}
  {th th₁ th' : Thread} {v : Operand} {w : Value} {ty : Ty}

theorem Thread.Arrives.refl (hs : th.top.Stands f args b) : Thread.Arrives f args b b th th :=
  ⟨rfl, rfl, hs, fun _ _ => rfl⟩

theorem Thread.Arrives.trans (h : Thread.Arrives f args b b₁ th th₁)
    (h' : Thread.Arrives f args b₁ b' th₁ th')
    (hsize : b.function.insts.size ≤ b₁.function.insts.size) :
    Thread.Arrives f args b b' th th' := by
  refine ⟨h'.callers.trans h.callers, h'.depth.trans h.depth, h'.stands, fun i hi => ?_⟩
  rw [h'.kept i (Nat.lt_of_lt_of_le hi hsize), h.kept i hi]

theorem Thread.Arrives.gives (h : Thread.Arrives f args b b₁ th th₁)
    (h' : Thread.Gives f args b₁ b' v ty th₁ w th')
    (hsize : b.function.insts.size ≤ b₁.function.insts.size) :
    Thread.Gives f args b b' v ty th w th' :=
  ⟨h.trans h'.arrives hsize, h'.get, h'.ty⟩

/-- A value that was at hand is still at hand. -/
theorem Thread.Arrives.get (h : Thread.Arrives f args b b' th th') (hs : th.top.Stands f args b)
    (hv : ∀ i : Nat, v = .inst i → i < b.function.insts.size) (hw : th.top.get v = .ok w) :
    th'.top.get v = .ok w := by
  cases v with
  | int x => exact hw
  | double x => exact hw
  | arg index =>
    rw [Frame.get, hs.args] at hw
    rw [Frame.get, h.stands.args]
    split at hw
    · exact hw
    · cases hw
  | inst i =>
    rw [Frame.get] at hw ⊢
    rw [h.kept i (hv i rfl)]
    split at hw
    · next heq =>
      rw [heq]
      exact hw
    · cases hw

/-- The block at the cursor is not finished, and the frame stands behind its instructions. -/
theorem Frame.Stands.block_at (hs : fr.Stands f args b) (hb : b.Ready m₁) :
    ∃ done blk, b.function.Tidy m₁ done [fr.block] ∧ b.function.block? fr.block = some blk ∧
      blk.insts.length = fr.pos := by
  obtain ⟨done, here, hc, htidy⟩ := hb
  obtain rfl : here = fr.block := Option.some.inj (hc.symm.trans hs.cursor)
  obtain ⟨blk, hblk⟩ : ∃ blk, b.function.block? fr.block = some blk :=
    ⟨_, Array.getElem?_eq_getElem (htidy.exist fr.block (by simp))⟩
  exact ⟨done, blk, htidy, hblk, by rw [hs.pos, Function.instsAt_of_block? hblk]⟩

variable {name : String} {op : Op}

/-- What a builder put at its cursor is the instruction at hand. -/
theorem Frame.Stands.inst_at (hs : fr.Stands f args b) (hb : b.Ready m₁)
    (hf : (b.push name ty op).2.function.Extends f) :
    ∃ name', fr.At b.function.insts.size ⟨name', ty, op⟩ := by
  obtain ⟨done, blk, htidy, hblk, hpos⟩ := hs.block_at hb
  have hpush := Builder.block?_push name ty op hs.cursor fr.block
  rw [if_pos rfl, hblk, Option.map_some] at hpush
  obtain ⟨blk', hblk', hinsts, -⟩ := hf.blocks _ _ hpush
  obtain ⟨rest, hrest⟩ := hinsts
  have hinst := Builder.inst?_push name ty op (b := b) b.function.insts.size
  rw [if_pos rfl] at hinst
  refine ⟨_, blk', hs.function ▸ hblk', ?_, hs.function ▸ hf.insts _ _ hinst⟩
  rw [← hrest, ← hpos]
  simp

theorem Frame.Stands.put (hs : fr.Stands f args b) (hb : b.Ready m₁) (w : Value) :
    (fr.put b.function.insts.size w).Stands f args (b.push name ty op).2 := by
  obtain ⟨done, blk, htidy, hblk, hpos⟩ := hs.block_at hb
  refine ⟨hs.function, hs.args, ?_, ?_, ?_⟩
  · rw [← hs.size]
    exact Array.size_setIfInBounds
  · rw [Builder.cursor?_push]
    exact hs.cursor
  · show fr.pos + 1 = ((b.push name ty op).2.function.instsAt fr.block).length
    rw [Builder.instsAt_push name ty op hs.cursor (htidy.exist _ (by simp)), hs.pos]
    simp

/-- Behind an instruction its value is at hand. -/
theorem Thread.gives_put (hs : th.top.Stands f args b) (hb : b.Ready m₁)
    (hf : (b.push name ty op).2.function.Extends f) (hw : w.ty = ty)
    (hcallers : th'.callers = th.callers) (hdepth : th'.meter.depth = th.meter.depth)
    (htop : th'.top = th.top.put b.function.insts.size w) :
    Thread.Gives f args b (b.push name ty op).2 (b.push name ty op).1 ty th w th' := by
  refine ⟨⟨hcallers, hdepth, htop ▸ hs.put hb w, fun i hi => ?_⟩, ?_, hw⟩
  · rw [htop]
    exact Array.getElem?_setIfInBounds_ne (Nat.ne_of_gt hi)
  · have hlt : b.function.insts.size < th.top.values.size := by
      have := hf.size_insts
      rw [Builder.size_insts_push] at this
      rw [hs.size]
      omega
    rw [htop, Builder.push_fst]
    exact Frame.get_of_values (Array.getElem?_setIfInBounds_self_of_lt hlt)

end Standing

/-! ### Instructions -/

theorem exists_int_of_ty {v : Value} (h : v.ty = .i64) : ∃ x, v = .int x := by
  cases v with
  | int x => exact ⟨x, rfl⟩
  | bool x => cases h
  | double x => cases h

theorem exists_double_of_ty {v : Value} (h : v.ty = .double) : ∃ x, v = .double x := by
  cases v with
  | double x => exact ⟨x, rfl⟩
  | bool x => cases h
  | int x => cases h

section Instructions

variable {m m₁ : Ir.Module} {bound : Nat} {f : Function} {args : List Value} {b b' : Builder}
  {th : Thread} {v l r : Operand} {name : String} {ty : Ty} {op : Op}

/-- An instruction that computes what an evaluation gives follows it. -/
theorem push_follows (hs : th.top.Stands f args b) (hb : b.Ready m₁)
    (hv : (build (·.push name ty op) : Lower Operand) b = .ok v b') (hf : b'.function.Extends f)
    {x : Except Fault Value}
    (hx : ∀ name', th.top.perform ⟨name', ty, op⟩ = x.map Frame.Action.value)
    (hty : ∀ w, x = .ok w → w.ty = ty) :
    Follows m bound th x (th.Gives f args b b' v ty) := by
  obtain ⟨rfl, rfl⟩ := Prod.mk.inj (build_eq_ok_iff.1 hv)
  obtain ⟨name', hat⟩ := hs.inst_at hb hf
  cases x with
  | error e => exact .of_step (Thread.step_of_error (hat.step_error (hx name')))
  | ok w =>
    exact ⟨_, .of_step (Thread.step_of_computed (hat.step_value (hx name'))),
      Thread.gives_put hs hb hf (hty w rfl) rfl rfl rfl⟩

/-- A value that comes of an operation on the builder can be used behind it. -/
theorem yields_spec {x : Lower Operand} (hx : x b = .ok v b') (h : Yields m₁ b ty x) :
    Lowered m₁ b b' ∧ b'.function.UsesBelow b'.function.insts.size v ty := by
  obtain ⟨v', b'', hx', hlow, huse⟩ := h
  rw [hx] at hx'
  cases hx'
  exact ⟨hlow, huse⟩

/-- A comparison and the instruction behind it compute what the operator means. -/
theorem perform_test (t : Test) {fr : Frame} {a c : Value} (hl : fr.get l = .ok a)
    (hr : fr.get r = .ok c) (ha : a.ty = t.ty) (hc : c.ty = t.ty) :
    ∃ truth w, t.operator.apply a c = .ok w ∧ w.ty = t.ty ∧
      (∀ name, fr.perform ⟨name, .i1, t.compare l r⟩ = .ok (.value (.bool truth))) ∧
      ∀ (fr' : Frame) bit name, fr'.get bit = .ok (.bool truth) →
        fr'.perform ⟨name, t.ty, t.widen bit⟩ = .ok (.value w) := by
  cases t with
  | int pred =>
    obtain ⟨x, rfl⟩ := exists_int_of_ty ha
    obtain ⟨y, rfl⟩ := exists_int_of_ty hc
    refine ⟨testInt pred x y, _, apply_operator_int pred x y, rfl, fun name => ?_, ?_⟩
    · simp only [Frame.perform, Test.compare, hl, hr]
      rfl
    · intro fr' bit name h
      simp only [Frame.perform, Test.widen, h]
      rfl
  | double pred =>
    obtain ⟨x, rfl⟩ := exists_double_of_ty ha
    obtain ⟨y, rfl⟩ := exists_double_of_ty hc
    refine ⟨testDouble pred x y, _, apply_operator_double pred x y, rfl, fun name => ?_, ?_⟩
    · simp only [Frame.perform, Test.compare, hl, hr]
      rfl
    · intro fr' bit name h
      simp only [Frame.perform, Test.widen, h]
      rfl

theorem test_follows (t : Test) {number : String} {a c : Value}
    (hs : th.top.Stands f args b) (hb : b.Ready m₁)
    (hv : (do let bit ← build (·.push name .i1 (t.compare l r))
              build (·.push number t.ty (t.widen bit)) : Lower Operand) b = .ok v b')
    (hf : b'.function.Extends f)
    (hul : b.function.UsesBelow b.function.insts.size l t.ty)
    (hur : b.function.UsesBelow b.function.insts.size r t.ty)
    (hl : th.top.get l = .ok a) (hr : th.top.get r = .ok c) (ha : a.ty = t.ty) (hc : c.ty = t.ty) :
    Follows m bound th (t.operator.apply a c) (th.Gives f args b b' v t.ty) := by
  obtain ⟨bit, b₁, hbit, hv⟩ := run_bind_eq_ok_iff.1 hv
  obtain ⟨hlow, hubit⟩ := yields_spec hbit (t.compare_yields hb hul hur)
  obtain ⟨hlow', -⟩ := yields_spec hv (t.widen_yields hlow.ready hubit)
  obtain ⟨truth, w, happly, hw, htest, hnumber⟩ := perform_test t hl hr ha hc
  rw [happly]
  obtain ⟨th₁, hreach, hgives⟩ :
      Follows m bound th (.ok (.bool truth)) (th.Gives f args b b₁ bit .i1) :=
    push_follows (x := .ok (.bool truth)) hs hb hbit (hlow'.after.grown.trans hf) htest
      fun w hw => by cases hw; rfl
  have hfollows : Follows m bound th₁ (.ok w) (th₁.Gives f args b₁ b' v t.ty) :=
    push_follows hgives.arrives.stands hlow.ready hv hf
      (fun name' => hnumber _ bit name' hgives.get) fun w' hw' => by cases hw'; exact hw
  exact .of_reaches hreach (hfollows.mono fun w th' h =>
    hgives.arrives.gives h hlow.after.grown.size_insts)

theorem binary_follows (code : Arith) {a c : Value}
    (hs : th.top.Stands f args b) (hb : b.Ready m₁)
    (hv : (build (·.binary code l r name) : Lower Operand) b = .ok v b')
    (hf : b'.function.Extends f) (hl : th.top.get l = .ok a) (hr : th.top.get r = .ok c)
    (ha : a.ty = code.ty) (hc : c.ty = code.ty) :
    Follows m bound th (code.operator.apply a c) (th.Gives f args b b' v code.ty) := by
  refine push_follows hs hb hv hf (fun name' => ?_) fun w hw => (Operator.ty_of_apply hw).trans ha
  rw [← arith_eq_apply code ha hc]
  simp only [Frame.perform, hl, hr]
  show (do let w ← arith code a c; return Frame.Action.value w) = _
  cases arith code a c <;> rfl

/-- The instructions of an operator compute what it means. -/
theorem realizes_follows {o : Operator} {x : Lower Operand} {a c : Value} (hx : Realizes ty l r o x)
    (hs : th.top.Stands f args b) (hb : b.Ready m₁) (hv : x b = .ok v b') (hf : b'.function.Extends f)
    (hul : b.function.UsesBelow b.function.insts.size l ty)
    (hur : b.function.UsesBelow b.function.insts.size r ty)
    (hl : th.top.get l = .ok a) (hr : th.top.get r = .ok c) (ha : a.ty = ty) (hc : c.ty = ty) :
    Follows m bound th (o.apply a c) (th.Gives f args b b' v ty) := by
  cases hx with
  | @arith code _ hty hop _ =>
    subst hty hop
    exact binary_follows code hs hb hv hf hl hr ha hc
  | @test t _ _ hty hop _ _ =>
    subst hty hop
    exact test_follows t hs hb hv hf hul hur hl hr ha hc

/-- The instruction for a condition decides whether it is true. -/
theorem lowerCondition_follows {condition : Expr} {a : Value}
    (hs : th.top.Stands f args b) (hb : b.Ready m₁)
    (hv : lowerCondition condition l b = .ok v b') (hf : b'.function.Extends f)
    (hty : Ty.ofNum? condition.ty = some ty) (hl : th.top.get l = .ok a) (ha : a.ty = ty) :
    Follows m bound th (.ok (.bool a.isTrue)) (th.Gives f args b b' v .i1) := by
  have hbool : ∀ w, Except.ok (.bool a.isTrue) = (.ok w : Except Fault Value) → w.ty = .i1 := by
    intro w hw
    cases hw
    rfl
  unfold lowerCondition at hv
  cases hcond : condition.ty with
  | int =>
    rw [hcond] at hv hty
    cases hty
    obtain ⟨x, rfl⟩ := exists_int_of_ty ha
    refine push_follows hs hb hv hf (fun _ => ?_) hbool
    rw [← testInt_zero]
    simp only [Frame.perform, hl]
    rfl
  | double =>
    rw [hcond] at hv hty
    cases hty
    obtain ⟨x, rfl⟩ := exists_double_of_ty ha
    refine push_follows hs hb hv hf (fun _ => ?_) hbool
    rw [← testDouble_zero]
    simp only [Frame.perform, hl]
    rfl
  | unresolved =>
    rw [hcond] at hty
    cases hty

end Instructions

/-! ### From block to block -/

section Jumps

variable {m m₁ : Ir.Module} {bound : Nat} {f : Function} {args : List Value} {b b' : Builder}
  {fr : Frame} {th : Thread}

/-- Behind the last instruction of a block comes its end. -/
theorem Frame.Stands.step_end (hs : fr.Stands f args b) (hb : b.Ready m₁) {t : Terminator}
    (hf : (b.terminate t).function.Extends f) : fr.step = fr.follow t := by
  obtain ⟨done, blk, htidy, hblk, hpos⟩ := hs.block_at hb
  have hend := Builder.block?_terminate t hs.cursor fr.block
  rw [if_pos rfl, hblk, Option.map_some] at hend
  refine Frame.step_of_end (by rw [hs.function, hf.block_of_finished hend rfl]) ?_ rfl
  simp [← hpos]

theorem Frame.Stands.createBlock (hs : fr.Stands f args b) (hb : b.Ready m₁) (label : String) :
    fr.Stands f args (b.createBlock label).2 := by
  obtain ⟨done, blk, htidy, hblk, hpos⟩ := hs.block_at hb
  have hlt : fr.block < b.function.blocks.size := htidy.exist fr.block (by simp)
  have hsame : (b.createBlock label).2.function.block? fr.block = b.function.block? fr.block := by
    rw [Builder.block?_createBlock, if_neg (Nat.ne_of_lt hlt)]
  exact ⟨hs.function, hs.args, hs.size, hs.cursor, by rw [Function.instsAt_congr hsame, hs.pos]⟩

theorem ready_createBlock (hb : b.Ready m₁) (label : String) : (b.createBlock label).2.Ready m₁ := by
  obtain ⟨done, here, hc, htidy⟩ := hb
  exact ⟨done, here, hc, htidy.createBlock label⟩

/-- At the start of an empty block a frame stands where a builder does that goes on there. -/
theorem Thread.arrives_jump (hs : th.top.Stands f args b) {target : BlockId}
    (hc : b'.cursor? = some target) (hempty : b'.function.instsAt target = []) :
    Thread.Arrives f args b b' th ⟨th.meter, th.top.jump target, th.callers⟩ := by
  refine ⟨rfl, rfl, ⟨hs.function, hs.args, hs.size, hc, ?_⟩, fun _ _ => rfl⟩
  show 0 = (b'.function.instsAt target).length
  rw [hempty]
  rfl

/-- The end of a branch leads to the join. -/
theorem br_reaches (hs : th.top.Stands f args b) (hb : b.Ready m₁) {target next : BlockId}
    (hf : (b.moveTo (.br target) next).function.Extends f) (hc : b'.cursor? = some target)
    (hempty : b'.function.instsAt target = []) :
    ∃ th', Thread.Reaches m bound th th' ∧ Thread.Arrives f args b b' th th' ∧
      th'.top.predecessor? = b.cursor? := by
  have hstep : th.top.step = .ok (.jumped (th.top.jump target)) :=
    hs.step_end hb (t := .br target) ((Builder.extends_appendBlock next).trans hf)
  exact ⟨_, .of_step (Thread.step_of_jumped hstep), Thread.arrives_jump hs hc hempty, hs.cursor.symm⟩

/-- A choice leads to the block of the chosen branch. -/
theorem branch_reaches (hs : th.top.Stands f args b) (hb : b.Ready m₁) {test : Operand} {c : Bool}
    (hf : (b.branch test).2.function.Extends f) (htest : th.top.get test = .ok (.bool c))
    (hc : b'.cursor? = some (if c then b.function.blocks.size else b.function.blocks.size + 1))
    (hempty : b'.function.instsAt
      (if c then b.function.blocks.size else b.function.blocks.size + 1) = []) :
    ∃ th', Thread.Reaches m bound th th' ∧ Thread.Arrives f args b b' th th' := by
  rw [Builder.branch_eq] at hf
  have hs₃ := ((hs.createBlock hb "then").createBlock (ready_createBlock hb _) "else").createBlock
    (ready_createBlock (ready_createBlock hb _) _) "ifcont"
  have hb₃ := ready_createBlock (ready_createBlock (ready_createBlock hb "then") "else") "ifcont"
  have hstep : th.top.step = .ok (.jumped (th.top.jump
      (if c then b.function.blocks.size else b.function.blocks.size + 1))) := by
    rw [hs₃.step_end hb₃ ((Builder.extends_appendBlock _).trans hf), Frame.follow, htest]
    rfl
  exact ⟨_, .of_step (Thread.step_of_jumped hstep), Thread.arrives_jump hs hc hempty⟩

/-- From the end of a branch the run goes on at the join, where the `phi` takes over the value of the
branch. -/
theorem join_follows {b₀ b₁ bj : Builder} {x : Except Fault Value} {u v : Operand} {ty : Ty}
    {name : String} {arms : List (Operand × BlockId)} {join next c : BlockId}
    (hx : Follows m bound th x (th.Gives f args b₀ b₁ u ty))
    (hgrown : b₀.function.Extends b₁.function) (hgrown' : b₁.function.Extends bj.function)
    (hb₁ : b₁.Ready m₁) (hbj : bj.Ready m₁) (hu : b₁.function.UsesBelow b₁.function.insts.size u ty)
    (hend : (b₁.moveTo (.br join) next).function.Extends f) (hc : bj.cursor? = some join)
    (hempty : bj.function.instsAt join = []) (hv : bj.phi ty arms name = (v, b'))
    (hf : b'.function.Extends f)
    (harm : arms.find? (fun arm => some arm.2 == b₁.cursor?) = some (u, c)) :
    Follows m bound th x (th.Gives f args b₀ b' v ty) := by
  refine hx.goesOn fun w th₁ hgives => ?_
  obtain ⟨th₂, hreach, harrives, hpred⟩ :=
    br_reaches (m := m) hgives.arrives.stands hb₁ hend hc hempty
  have hget : th₂.top.get u = .ok w := harrives.get hgives.arrives.stands hu.2 hgives.get
  have hphi : Follows m bound th₂ (.ok w) (th₂.Gives f args bj b' v ty) := by
    refine push_follows harrives.stands hbj (build_eq_ok_iff.2 hv) hf (fun name' => ?_)
      fun w' hw' => Except.ok.inj hw' ▸ hgives.ty
    simp only [Frame.perform, Frame.incoming, hpred, harm, hget]
    rfl
  have htrans := hgives.arrives.trans harrives hgrown.size_insts
  exact .of_reaches hreach (hphi.mono fun w' th' h =>
    htrans.gives h (hgrown.trans hgrown').size_insts)

end Jumps

/-! ### Calls -/

/-- The arguments have the types of the parameters. -/
def Fits (sig : Signature) (args : List Value) : Prop :=
  sig.params.map Ty.ofNum? = args.map fun w => some w.ty

theorem fits_iff {f : Function} {sig : Signature} (h : f.HasSignature sig) {args : List Value} :
    Fits sig args ↔ args.map Value.ty = f.params.map Ir.Param.ty := by
  rw [Fits, h.params]
  constructor
  · intro hargs
    have htys := congrArg (List.filterMap id) hargs.symm
    simpa [List.filterMap_map] using htys
  · intro hargs
    have hsome := congrArg (List.map some) hargs.symm
    rw [List.map_map, List.map_map] at hsome
    exact hsome

/-- At this depth, a frame that calls a function goes on behind the call with the result that `call`
gives, or the run ends with its fault. -/
def Answers (m : Ir.Module) (bound depth : Nat) (sigs : Signatures)
    (call : String → List Value → Except Fault Value) : Prop :=
  ∀ name sig ws (th : Thread), sigs name = some sig → Fits sig ws → th.meter.depth = depth →
    th.top.step = .ok (.call name ws) → (∀ w, ∃ fr, th.top.resume w = .ok fr) →
    Follows m bound th (call name ws) fun w th' => th.top.resume w = .ok th'.top ∧
      th'.callers = th.callers ∧ th'.meter.depth = th.meter.depth ∧ Ty.ofNum? sig.ret = some w.ty

theorem call_follows {m m₁ : Ir.Module} {bound depth : Nat} {sigs : Signatures}
    {call : String → List Value → Except Fault Value} (hcall : Answers m bound depth sigs call)
    {f : Function} {args : List Value} {b b' : Builder} {th : Thread} {v : Operand} {ty : Ty}
    {callee name : String} {sig : Signature} {vs : List Operand} {ws : List Value}
    (hs : th.top.Stands f args b) (hb : b.Ready m₁)
    (hv : b.call callee ty vs name = (v, b')) (hf : b'.function.Extends f)
    (hsig : sigs callee = some sig) (hret : Ty.ofNum? sig.ret = some ty)
    (hget : vs.mapM th.top.get = .ok ws) (htys : Fits sig ws)
    (hdepth : th.meter.depth = depth) :
    Follows m bound th (call callee ws) (th.Gives f args b b' v ty) := by
  obtain ⟨rfl, rfl⟩ := Prod.mk.inj hv
  obtain ⟨name', hat⟩ := hs.inst_at hb hf
  have hstep : th.top.step = .ok (.call callee ws) := by
    refine hat.step_call ?_
    simp only [Frame.perform, hget]
    rfl
  refine (hcall callee sig ws th hsig htys hdepth hstep fun w => ⟨_, hat.resume w⟩).mono ?_
  intro w th' h
  obtain ⟨htop, hcallers, hdepth', hty⟩ := h
  refine Thread.gives_put hs hb hf ?_ hcallers hdepth' ?_
  · exact Option.some.inj (hty.symm.trans hret)
  · exact Except.ok.inj (htop.symm.trans (hat.resume w))

/-! ### Expressions -/

/-- Arguments are bound to the parameters: a name stands for the argument of its parameter, which has the
type of the parameter. -/
def Binds (params : List ScalarLang.Param) (args : List Value) (env : String → Value) : Prop :=
  ∀ name num, paramTy? params name = some num → ∃ index, parameterIndex? params name = some index ∧
    args[index]? = some (env name) ∧ Ty.ofNum? num = some (env name).ty

section Expressions

variable {m m₁ : Ir.Module} {bound depth : Nat} {params : List ScalarLang.Param} {f : Function}
  {args : List Value} {call : String → List Value → Except Fault Value} {env : String → Value}

/-- A run of the code of an expression follows its evaluation, wherever the code is in the function. -/
def Simulates (m m₁ : Ir.Module) (bound depth : Nat) (params : List ScalarLang.Param) (f : Function)
    (args : List Value) (call : String → List Value → Except Fault Value) (env : String → Value)
    (e : Expr) : Prop :=
  ∀ b ty v b' (th : Thread), Ty.ofNum? e.ty = some ty → b.Ready m₁ → TakesParams params b.function →
    lower m₁ params e b = .ok v b' → b'.function.Extends f → th.top.Stands f args b →
    th.meter.depth = depth → Follows m bound th (e.eval call env) (th.Gives f args b b' v ty)

/-- Arguments that were lowered can be used. -/
theorem lowerArgs_spec {callee : String} {es : List Expr} {targets : List Ir.Param} {index : Nat}
    {b b' : Builder} {vs : List Operand} (hes : ∀ e ∈ es, e.Typed params m₁.signature?)
    (htys : (es.map Expr.ty).map Ty.ofNum? = targets.map fun p => some p.ty) (hb : b.Ready m₁)
    (hp : TakesParams params b.function)
    (h : lowerArgs m₁ params callee index es targets b = .ok vs b') : Lowered m₁ b b' := by
  obtain ⟨vs', b'', h', hlow, -⟩ := lowerArgs_typed callee htys
    (fun e he b ty => lower_typed (hes e he) b ty) index b hb hp
  rw [h] at h'
  cases h'
  exact hlow

theorem lowerArgs_follows {callee : String} {es : List Expr}
    (hes : ∀ e ∈ es, e.Typed params m₁.signature? ∧
      Simulates m m₁ bound depth params f args call env e) :
    ∀ {targets : List Ir.Param} {index : Nat} {b b' : Builder} {vs : List Operand} {th : Thread},
      (es.map Expr.ty).map Ty.ofNum? = targets.map (fun p => some p.ty) → b.Ready m₁ →
      TakesParams params b.function → lowerArgs m₁ params callee index es targets b = .ok vs b' →
      b'.function.Extends f → th.top.Stands f args b → th.meter.depth = depth →
      Follows m bound th (Expr.evalAll call env es) fun ws th' =>
        Thread.Arrives f args b b' th th' ∧ vs.mapM th'.top.get = .ok ws ∧
          ws.map Value.ty = targets.map Ir.Param.ty := by
  induction es with
  | nil =>
    intro targets index b b' vs th htys hb _ h _ hs _
    have hnil : targets = [] := by simpa using htys.symm
    subst hnil
    rw [lowerArgs.eq_def] at h
    obtain ⟨rfl, rfl⟩ := run_pure_eq_ok_iff.1 h
    exact .ok ⟨.refl hs, rfl, rfl⟩
  | cons e es ih =>
    intro targets index b b' vs th htys hb hp h hf hs hdepth
    cases targets with
    | nil => simp at htys
    | cons target targets =>
      simp only [List.map_cons, List.cons.injEq] at htys
      obtain ⟨he, hsim⟩ := hes e List.mem_cons_self
      obtain ⟨hty, v, b₁, vs, hv, hvs, rfl⟩ := lowerArgs_cons_eq_ok_iff.1 h
      have hes' : ∀ e' ∈ es, e'.Typed params m₁.signature? ∧
          Simulates m m₁ bound depth params f args call env e' :=
        fun e' he' => hes e' (List.mem_cons_of_mem e he')
      obtain ⟨hlow, huse⟩ := yields_spec hv (lower_typed he b target.ty hty hb hp)
      have hp₁ := hp.mono hlow.after.grown
      have hlow' := lowerArgs_spec (fun e' he' => (hes' e' he').1) htys.2 hlow.ready hp₁ hvs
      rw [Expr.evalAll]
      refine (hsim b target.ty v b₁ th hty hb hp hv (hlow'.after.grown.trans hf) hs hdepth).bind ?_
      intro w th₁ hgives
      have harr := hgives.arrives
      refine (ih hes' htys.2 hlow.ready hp₁ hvs hf harr.stands (harr.depth.trans hdepth)).bind ?_
      intro ws th₂ hrest
      obtain ⟨harr', hget, htys'⟩ := hrest
      refine .ok ⟨harr.trans harr' hlow.after.grown.size_insts, ?_, ?_⟩
      · rw [List.mapM_cons, harr'.get harr.stands huse.2 hgives.get, hget]
        rfl
      · rw [List.map_cons, List.map_cons, hgives.ty, htys']

/-- The code of a conditional runs the code of its condition and then of one branch. -/
theorem conditional_follows {condition onTrue onFalse : Expr} {tag : Expr.Tag}
    (hc : condition.Typed params m₁.signature?) (ht : onTrue.Typed params m₁.signature?)
    (hf : onFalse.Typed params m₁.signature?) (htty : onTrue.ty = tag.ty) (hfty : onFalse.ty = tag.ty)
    (ihc : Simulates m m₁ bound depth params f args call env condition)
    (iht : Simulates m m₁ bound depth params f args call env onTrue)
    (ihf : Simulates m m₁ bound depth params f args call env onFalse) :
    Simulates m m₁ bound depth params f args call env (.conditional condition onTrue onFalse tag) := by
  intro b ty v b' th hty hb hp hv hext hs hdepth
  have hty : Ty.ofNum? tag.ty = some ty := hty
  obtain ⟨ty', value, b₁, test, b₂, tv, b₃, fv, b₄, hty', hvalue, htest, -, htv, hfv, hphi⟩ :=
    lower_conditional_eq_ok_iff.1 hv
  obtain rfl : ty' = ty := Option.some.inj (hty'.symm.trans hty)
  -- how the parts were lowered, one behind the other
  obtain ⟨cty, hcty⟩ := Ty.exists_ofNum? hc.resolved
  obtain ⟨hlow₁, huvalue⟩ := yields_spec hvalue (lower_typed hc b cty hcty hb hp)
  obtain ⟨hlow₂, hutest⟩ := yields_spec htest (lowerCondition_yields hlow₁.ready hcty huvalue)
  have hlow := hlow₁.trans hlow₂
  have hp₂ := hp.mono hlow.after.grown
  obtain ⟨tv', fv', b₃', b₄', c₃, c₄, hparts⟩ := branches_lowered hlow.ready hp₂ hutest
    (fun b hb hp => lower_typed ht b ty' (htty ▸ hty) hb hp)
    (fun b hb hp => lower_typed hf b ty' (hfty ▸ hty) hb hp)
  obtain ⟨rfl, rfl⟩ := EStateM.Result.ok.inj (htv.symm.trans hparts.onTrue)
  obtain ⟨rfl, rfl⟩ := EStateM.Result.ok.inj (hfv.symm.trans hparts.onFalse)
  obtain ⟨hgrown, -, hlow₃, hutv, helse, -, hlow₄, hufv, hjoin⟩ := hparts
  obtain ⟨done, here, hcur, -⟩ := hlow.ready
  obtain ⟨done₄, -, htidy₄⟩ := hjoin.tidy
  have hbr := branch_ready hlow.ready hutest
  have hpe := hp₂.mono helse.after.grown
  rw [helse.cursor, hjoin.cursor] at hphi
  -- all of them are part of the function
  have hextj : (joinBuilder b₄ b₂.function.blocks.size).function.Extends f := by
    obtain ⟨-, rfl⟩ := Prod.mk.inj hphi
    exact (Builder.extends_push _ _ _ rfl (htidy₄.unfinished_rest _ (by simp))).trans hext
  have hext₄ : b₄.function.Extends f := hjoin.grown.trans hextj
  have hexte := hlow₄.after.grown.trans hext₄
  have hext₃ : b₃.function.Extends f := helse.grown.trans hexte
  have hextbr := hlow₃.after.grown.trans hext₃
  have hext₂ := hgrown.trans hextbr
  rw [Expr.eval]
  refine (ihc b cty value b₁ th hcty hb hp hvalue (hlow₂.after.grown.trans hext₂) hs hdepth).bind ?_
  intro cv th₁ hg₁
  obtain ⟨th₂, hreach₂, hg₂⟩ : Follows m bound th₁ (.ok (.bool cv.isTrue))
      (th₁.Gives f args b₁ b₂ test .i1) :=
    lowerCondition_follows hg₁.arrives.stands hlow₁.ready htest hext₂ hcty hg₁.get hg₁.ty
  have harr₂ := hg₁.arrives.trans hg₂.arrives hlow₁.after.grown.size_insts
  refine .of_reaches hreach₂ ?_
  cases hcv : cv.isTrue with
  | true =>
    rw [hcv] at hg₂
    have hcbr : (b₂.branch test).2.cursor? = some b₂.function.blocks.size := by
      rw [Builder.branch_eq]
      rfl
    obtain ⟨th₃, hreach₃, harr₃⟩ : ∃ th₃, Thread.Reaches m bound th₂ th₃ ∧
        Thread.Arrives f args b₂ (b₂.branch test).2 th₂ th₃ :=
      branch_reaches hg₂.arrives.stands hlow.ready hextbr hg₂.get hcbr (instsAt_branch hcur test)
    have harr := harr₂.trans harr₃ hlow.after.grown.size_insts
    have hbranch := iht _ ty' tv b₃ th₃ (htty ▸ hty) hbr (hp₂.mono hgrown) htv hext₃ harr₃.stands
      (harr.depth.trans hdepth)
    refine .of_reaches hreach₃ ((join_follows hbranch hlow₃.after.grown ?_ hlow₃.ready hjoin.ready hutv hexte rfl
      hjoin.empty hphi hext (c := c₃) (by simp [helse.cursor])).mono fun w th' h => ?_)
    · exact (helse.grown.trans hlow₄.after.grown).trans hjoin.grown
    · exact harr.gives h (hlow.after.grown.trans hgrown).size_insts
  | false =>
    rw [hcv] at hg₂
    obtain ⟨th₃, hreach₃, harr₃⟩ : ∃ th₃, Thread.Reaches m bound th₂ th₃ ∧
        Thread.Arrives f args b₂ (elseBuilder b₃ b₂.function.blocks.size) th₂ th₃ :=
      branch_reaches hg₂.arrives.stands hlow.ready hextbr hg₂.get rfl helse.empty
    have harr := harr₂.trans harr₃ hlow.after.grown.size_insts
    have hbranch := ihf _ ty' fv b₄ th₃ (hfty ▸ hty) helse.ready hpe hfv hext₄ harr₃.stands
      (harr.depth.trans hdepth)
    refine .of_reaches hreach₃ ((join_follows hbranch hlow₄.after.grown hjoin.grown hlow₄.ready hjoin.ready hufv
      hextj rfl hjoin.empty hphi hext (c := c₄) (by simp [hjoin.cursor, hjoin.ne])).mono
      fun w th' h => ?_)
    exact harr.gives h (hlow.after.grown.trans helse.after.grown).size_insts

/-- **The code of a typed expression computes its meaning**, if calls do.  By induction on the typing:
each part runs behind the one before it, and what it has computed stays. -/
theorem lower_follows (hcall : Answers m bound depth m₁.signature? call) (henv : Binds params args env)
    {e : Expr} (he : e.Typed params m₁.signature?) :
    Simulates m m₁ bound depth params f args call env e := by
  induction he with
  | @literal value tag h =>
    intro b ty v b' th hty hb hp hv hext hs hdepth
    obtain ⟨-, rfl, rfl⟩ := lower_literal_eq_ok_iff.1 hv
    have hty : Ty.ofNum? tag.ty = some ty := hty
    rw [h] at hty
    rw [Expr.eval]
    cases value with
    | int x => exact .ok ⟨.refl hs, rfl, Option.some.inj hty⟩
    | double x => exact .ok ⟨.refl hs, rfl, Option.some.inj hty⟩
  | @var name tag h hres =>
    intro b ty v b' th hty hb hp hv hext hs hdepth
    have hty : Ty.ofNum? tag.ty = some ty := hty
    obtain ⟨-, ⟨index, hindex, rfl⟩, rfl⟩ := lower_var_eq_ok_iff.1 hv
    obtain ⟨index', hindex', harg, hargty⟩ := henv name tag.ty h
    obtain rfl : index = index' := Option.some.inj (hindex.symm.trans hindex')
    rw [Expr.eval]
    refine .ok ⟨.refl hs, ?_, Option.some.inj (hargty.symm.trans hty)⟩
    rw [Frame.get, hs.args, harg]
  | @binary op lhs rhs tag hl hr hlty hrty ihl ihr =>
    intro b ty v b' th hty hb hp hv hext hs hdepth
    have hty : Ty.ofNum? tag.ty = some ty := hty
    obtain ⟨-, l, b₁, r, b₂, hlv, hrv, -, hopv⟩ := lower_binary_eq_ok_iff.1 hv
    obtain ⟨hlow₁, hul⟩ := yields_spec hlv (lower_typed hl b ty (hlty ▸ hty) hb hp)
    have hp₁ := hp.mono hlow₁.after.grown
    obtain ⟨hlow₂, hur⟩ := yields_spec hrv (lower_typed hr b₁ ty (hrty ▸ hty) hlow₁.ready hp₁)
    have hul' := hlow₂.uses hul
    obtain ⟨hlow₃, -⟩ := yields_spec hopv ((lowerOp_realizes op hty).yields hlow₂.ready hul' hur)
    have hext₂ := hlow₃.after.grown.trans hext
    rw [Expr.eval]
    refine (ihl b ty l b₁ th (hlty ▸ hty) hb hp hlv (hlow₂.after.grown.trans hext₂) hs hdepth).bind ?_
    intro x th₁ hg₁
    have harr₁ := hg₁.arrives
    refine (ihr b₁ ty r b₂ th₁ (hrty ▸ hty) hlow₁.ready hp₁ hrv hext₂ harr₁.stands
      (harr₁.depth.trans hdepth)).bind ?_
    intro y th₂ hg₂
    have harr₂ := hg₂.arrives
    have hlget := harr₂.get harr₁.stands hul.2 hg₁.get
    refine (realizes_follows (lowerOp_realizes op hty) harr₂.stands hlow₂.ready hopv hext hul' hur hlget hg₂.get hg₁.ty
      hg₂.ty).mono fun w th' h => ?_
    exact (harr₁.trans harr₂ hlow₁.after.grown.size_insts).gives h
      (hlow₁.trans hlow₂).after.grown.size_insts
  | @call callee es tag h hes hres ih =>
    intro b ty v b' th hty hb hp hv hext hs hdepth
    have hty : Ty.ofNum? tag.ty = some ty := hty
    obtain ⟨-, target, vs, b₁, htarget, -, hvs, hcallv⟩ := lower_call_eq_ok_iff.1 hv
    obtain ⟨target', htarget', hsig⟩ := Module.signature?_eq_some_iff.1 h
    obtain rfl : target = target' := Option.some.inj (htarget.symm.trans htarget')
    have hlow := lowerArgs_spec hes hsig.params hb hp hvs
    obtain ⟨done, here, hcur, htidy⟩ := hlow.ready
    have hext₁ : b₁.function.Extends f := by
      obtain ⟨-, rfl⟩ := Prod.mk.inj hcallv
      exact (Builder.extends_push _ _ _ hcur (htidy.unfinished_rest _ (by simp))).trans hext
    rw [Expr.eval]
    refine (lowerArgs_follows (fun e he => ⟨hes e he, ih e he⟩) hsig.params hb hp hvs hext₁ hs
      hdepth).bind ?_
    intro ws th₁ hargs
    obtain ⟨harr, hget, htys⟩ := hargs
    have hret : target.ret = ty := Option.some.inj (hsig.ret.symm.trans hty)
    rw [hret] at hcallv
    exact (call_follows hcall harr.stands hlow.ready hcallv hext h hty hget ((fits_iff hsig).2 htys)
      (harr.depth.trans hdepth)).mono fun w th' hg => harr.gives hg hlow.after.grown.size_insts
  | conditional hc ht hf htty hfty ihc iht ihf =>
    exact conditional_follows hc ht hf htty hfty ihc iht ihf

end Expressions

end Machine

end ScalarLang
