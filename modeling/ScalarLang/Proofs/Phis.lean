import ScalarLang.Proofs.SingleAssignment

/-!
# Phis, in turn and at once

The phis at the start of a block stand for values that are chosen on the edge into the block.  A machine
performs them like other instructions, in turn: each of them finds what those in front of it have stored.
It makes a difference when the entry of a `phi` names an earlier `phi` of the same block, as in a loop that
exchanges two values, and verification lets such entries pass.

* `Machine.Frame.phiValue` — the value that a `phi` takes in a frame, by the edge the frame has come by.
* `Machine.Frame.inTurn`, `Machine.Frame.atOnce` — the phis of a block read in turn, as a machine does,
  and all at once, in the frame as it was on the edge.
* `Machine.Frame.inTurn_stored` — what is stored for each `phi`.
* `Machine.Frame.inTurn_eq_atOnce`, `Machine.Frame.stored_iff_unmoved` — when the order makes no difference.
* `Machine.Thread.run_phis` — a machine performs phis in turn.
* `Machine.Frame.phis_in_turn` — all of this for the blocks of verified functions.
* `Machine.swapping_in_turn` — a verified function in which the order makes a difference.
* `Ir.Module.generate_atOnce` — it makes none in functions that come of definitions.
-/

namespace ScalarLang

namespace Machine

open Ir

/-! ### Reading phis -/

namespace Frame

/-- The operand of a `phi` for the edge by which its block was entered. -/
def operandOf? (fr : Frame) (i : InstId) : Option Operand :=
  (fr.function.inst? i).bind fun inst =>
    (inst.op.arms.find? fun arm => some arm.2 == fr.predecessor?).map Prod.fst

/-- The value that a `phi` takes in the frame. -/
def phiValue (fr : Frame) (i : InstId) : Except Fault Value :=
  match fr.function.inst? i with
  | some inst => fr.incoming inst.name inst.op.arms
  | none => .error (.missingInst i fr.function.name)

/-- Stores a value for one instruction after the other, each given by `read` in the frame so far. -/
def fill (read : Frame → InstId → Except Fault Value) : List InstId → Frame → Except Fault Frame
  | [], fr => .ok fr
  | i :: ids, fr => do
    let v ← read fr i
    fill read ids (fr.put i v)

/-- Each `phi` is read in the frame that those in front of it have left. -/
def inTurn (fr : Frame) (ids : List InstId) : Except Fault Frame := fill phiValue ids fr

/-- Every `phi` is read in the frame as it is, before any of them has been stored. -/
def atOnce (fr : Frame) (ids : List InstId) : Except Fault Frame := fill (fun _ => fr.phiValue) ids fr

/-- An entry that names an earlier one of the phis names one that the edge leaves as it was. -/
def Unmoved (fr : Frame) (ids : List InstId) : Prop :=
  ∀ front i back p, ids = front ++ i :: back → p ∈ front → fr.operandOf? i = some (.inst p) →
    fr.get (.inst p) = fr.phiValue p

variable {fr cur fr₁ : Frame} {ids : List InstId} {i : InstId} {v : Value}

theorem phiValue_of_operandOf? {w : Operand} (h : fr.operandOf? i = some w) :
    fr.phiValue i = fr.get w := by
  obtain ⟨inst, hinst, hw⟩ := Option.bind_eq_some_iff.1 h
  obtain ⟨arm, harm, rfl⟩ := Option.map_eq_some_iff.1 hw
  simp only [phiValue, hinst, incoming, harm]

/-! ### Frames that differ in some values -/

/-- The frame `cur` is `fr` with other values for the instructions `ids`, at another position. -/
structure Differs (ids : List InstId) (fr cur : Frame) : Prop where
  function : cur.function = fr.function
  args : cur.args = fr.args
  predecessor? : cur.predecessor? = fr.predecessor?
  size : cur.values.size = fr.values.size
  values : ∀ q, q ∉ ids → cur.values[q]? = fr.values[q]?

theorem Differs.refl (fr : Frame) : Differs [] fr fr := ⟨rfl, rfl, rfl, rfl, fun _ _ => rfl⟩

theorem Differs.trans {ids' : List InstId} (h : Differs ids fr cur) (h' : Differs ids' cur fr₁) :
    Differs (ids ++ ids') fr fr₁ where
  function := h'.function.trans h.function
  args := h'.args.trans h.args
  predecessor? := h'.predecessor?.trans h.predecessor?
  size := h'.size.trans h.size
  values q hq := by
    rw [List.mem_append, not_or] at hq
    exact (h'.values q hq.2).trans (h.values q hq.1)

theorem differs_put (fr : Frame) (i : InstId) (v : Value) : Differs [i] fr (fr.put i v) where
  function := rfl
  args := rfl
  predecessor? := rfl
  size := Array.size_setIfInBounds
  values _ hq := Array.getElem?_setIfInBounds_ne fun h => hq (List.mem_singleton.2 h.symm)

theorem get_put (hlt : i < fr.values.size) : (fr.put i v).get (.inst i) = .ok v :=
  get_of_values (Array.getElem?_setIfInBounds_self_of_lt hlt)

/-- Operands other than those instructions have the value they had. -/
theorem Differs.get (h : Differs ids fr cur) {w : Operand} (hw : ∀ q ∈ ids, w ≠ .inst q) :
    cur.get w = fr.get w := by
  cases w with
  | int x => rfl
  | double x => rfl
  | arg index => simp only [Frame.get, h.args, h.function]
  | inst q =>
    have hq : q ∉ ids := fun hmem => hw q hmem rfl
    simp only [Frame.get, h.values q hq, h.function]

theorem Differs.operandOf? (h : Differs ids fr cur) (i : InstId) :
    cur.operandOf? i = fr.operandOf? i := by
  rw [Frame.operandOf?, Frame.operandOf?, h.function, h.predecessor?]

/-- And so do phis that have no such operand. -/
theorem Differs.phiValue (h : Differs ids fr cur) (hi : ∀ q ∈ ids, fr.operandOf? i ≠ some (.inst q)) :
    cur.phiValue i = fr.phiValue i := by
  cases hw : fr.operandOf? i with
  | some w =>
    rw [phiValue_of_operandOf? hw, phiValue_of_operandOf? ((h.operandOf? i).trans hw)]
    exact h.get fun q hq hwq => hi q hq (hwq ▸ hw)
  | none =>
    -- without an entry for the edge the fault names the function or the `phi`, in any frame
    simp only [Frame.phiValue, h.function]
    cases hinst : fr.function.inst? i with
    | none => rfl
    | some inst =>
      rw [Frame.operandOf?, hinst, Option.bind_some, Option.map_eq_none_iff] at hw
      simp only [incoming, h.predecessor?, hw]

/-! ### Storing values -/

section Fill

variable {read : Frame → InstId → Except Fault Value} {front back : List InstId}

theorem fill_append (read : Frame → InstId → Except Fault Value) (front back : List InstId) (fr : Frame) :
    fill read (front ++ back) fr = fill read front fr >>= fill read back := by
  induction front generalizing fr with
  | nil => rfl
  | cons i front ih =>
    show (read fr i >>= fun v => fill read (front ++ back) (fr.put i v)) =
      (read fr i >>= fun v => fill read front (fr.put i v)) >>= fill read back
    rw [bind_assoc]
    congr 1
    funext v
    exact ih (fr.put i v)

/-- Nothing else is stored. -/
theorem differs_of_fill (h : fill read ids fr = .ok fr₁) : Differs ids fr fr₁ := by
  induction ids generalizing fr with
  | nil =>
    obtain rfl := Except.ok.inj h
    exact .refl _
  | cons i ids ih =>
    obtain ⟨v, -, h⟩ := bind_eq_ok_iff.1 h
    exact (differs_put fr i v).trans (ih h)

/-- What is stored for an instruction is what has been read for it. -/
theorem get_of_fill (hsize : ∀ j ∈ front ++ i :: back, j < fr.values.size)
    (hn : (front ++ i :: back).Nodup) (h : fill read (front ++ i :: back) fr = .ok fr₁) :
    ∃ cur, Differs front fr cur ∧ fr₁.get (.inst i) = read cur i ∧
      ∀ q ∈ front, fr₁.get (.inst q) = cur.get (.inst q) := by
  rw [fill_append] at h
  obtain ⟨cur, hfront, h⟩ := bind_eq_ok_iff.1 h
  obtain ⟨v, hv, hback⟩ := bind_eq_ok_iff.1 h
  have hcur := differs_of_fill hfront
  have hput := differs_of_fill hback
  rw [List.nodup_append] at hn
  obtain ⟨-, hcons, hapart⟩ := hn
  rw [List.nodup_cons] at hcons
  refine ⟨cur, hcur, ?_, fun q hq => ?_⟩
  · have hlt : i < cur.values.size := by
      rw [hcur.size]
      exact hsize i (List.mem_append_right front List.mem_cons_self)
    rw [hput.get, get_put hlt, hv]
    rintro q hq ⟨⟩
    exact hcons.1 hq
  · refine ((differs_put cur i v).trans hput).get ?_
    rintro q' hq' ⟨⟩
    exact hapart q hq q hq' rfl

end Fill

/-- **What is stored for a `phi` that is read in turn.**  If its entry names an earlier one, it is the value
that has just been stored for that one, and otherwise the value that was there on the edge. -/
theorem inTurn_stored {front back : List InstId} (hsize : ∀ j ∈ front ++ i :: back, j < fr.values.size)
    (hn : (front ++ i :: back).Nodup) (h : fr.inTurn (front ++ i :: back) = .ok fr₁) :
    (∀ q ∈ front, fr.operandOf? i = some (.inst q) → fr₁.get (.inst i) = fr₁.get (.inst q)) ∧
      ((∀ q ∈ front, fr.operandOf? i ≠ some (.inst q)) → fr₁.get (.inst i) = fr.phiValue i) := by
  obtain ⟨cur, hcur, hi, hfront⟩ := get_of_fill hsize hn h
  constructor
  · intro q hq hoperand
    rw [hi, hfront q hq, phiValue_of_operandOf? ((hcur.operandOf? i).trans hoperand)]
  · intro hother
    rw [hi, hcur.phiValue hother]

/-! ### When the order makes no difference -/

/-- The induction goes along the phis; `front` are those that have been stored. -/
theorem fill_eq_fill (front : List InstId) (hunmoved : fr.Unmoved (front ++ ids))
    (hsize : ∀ j ∈ ids, j < fr.values.size) (hn : (front ++ ids).Nodup) (hcur : Differs front fr cur)
    (hfront : ∀ q ∈ front, cur.get (.inst q) = fr.phiValue q) :
    fill Frame.phiValue ids cur = fill (fun _ => fr.phiValue) ids cur := by
  induction ids generalizing front cur with
  | nil => rfl
  | cons i ids ih =>
    have hi : cur.phiValue i = fr.phiValue i := by
      by_cases hnamed : ∃ q ∈ front, fr.operandOf? i = some (.inst q)
      · obtain ⟨q, hq, hoperand⟩ := hnamed
        calc cur.phiValue i = cur.get (.inst q) :=
              phiValue_of_operandOf? ((hcur.operandOf? i).trans hoperand)
          _ = fr.phiValue q := hfront q hq
          _ = fr.get (.inst q) := (hunmoved front i ids q rfl hq hoperand).symm
          _ = fr.phiValue i := (phiValue_of_operandOf? hoperand).symm
      · exact hcur.phiValue fun q hq hoperand => hnamed ⟨q, hq, hoperand⟩
    show (cur.phiValue i >>= fun v => fill Frame.phiValue ids (cur.put i v)) =
      (fr.phiValue i >>= fun v => fill (fun _ => fr.phiValue) ids (cur.put i v))
    rw [hi]
    cases hv : fr.phiValue i with
    | error e => rfl
    | ok v =>
      have hlt : i < cur.values.size := by
        rw [hcur.size]
        exact hsize i List.mem_cons_self
      rw [List.append_cons] at hunmoved hn
      have hnew : i ∉ front := fun hmem => by
        rw [List.nodup_append, List.nodup_append] at hn
        exact hn.1.2.2 i hmem i (List.mem_singleton_self i) rfl
      refine ih (front ++ [i]) hunmoved (fun j hj => hsize j (List.mem_cons_of_mem i hj)) hn
        (hcur.trans (differs_put cur i v)) fun q hq => ?_
      rcases List.mem_append.1 hq with hq | hq
      · rw [(differs_put cur i v).get, hfront q hq]
        rintro q' hq' ⟨⟩
        exact hnew (List.mem_singleton.1 hq' ▸ hq)
      · rw [List.mem_singleton.1 hq, get_put hlt, hv]

/-- **Reading in turn is reading at once, if what is read in turn is unmoved.** -/
theorem inTurn_eq_atOnce (h : fr.Unmoved ids) (hsize : ∀ j ∈ ids, j < fr.values.size)
    (hn : ids.Nodup) : fr.inTurn ids = fr.atOnce ids :=
  fill_eq_fill [] h hsize hn (.refl fr) fun _ hq => absurd hq List.not_mem_nil

/-- **What is stored is what was read on the edge exactly if that is so.** -/
theorem stored_iff_unmoved (hsize : ∀ j ∈ ids, j < fr.values.size) (hn : ids.Nodup)
    (h : fr.inTurn ids = .ok fr₁) :
    (∀ i ∈ ids, fr₁.get (.inst i) = fr.phiValue i) ↔ fr.Unmoved ids := by
  constructor
  · rintro hstored front i back p rfl hp hoperand
    have hi : i ∈ front ++ i :: back := List.mem_append_right front List.mem_cons_self
    calc fr.get (.inst p) = fr.phiValue i := (phiValue_of_operandOf? hoperand).symm
      _ = fr₁.get (.inst i) := (hstored i hi).symm
      _ = fr₁.get (.inst p) := (inTurn_stored hsize hn h).1 p hp hoperand
      _ = fr.phiValue p := hstored p (List.mem_append_left _ hp)
  · intro hunmoved i hi
    rw [inTurn_eq_atOnce hunmoved hsize hn] at h
    obtain ⟨front, back, rfl⟩ := List.append_of_mem hi
    obtain ⟨cur, -, hread, -⟩ := get_of_fill hsize hn h
    exact hread

/-- A single `phi` has no other in front of it. -/
theorem inTurn_eq_atOnce_of_length (h : ids.length ≤ 1) : fr.inTurn ids = fr.atOnce ids := by
  match ids, h with
  | [], _ => rfl
  | [_], _ => rfl

/-! ### Machines -/

theorem At.step_phi {inst : Inst} (h : fr.At i inst) (hphi : inst.op.isPhi = true) :
    fr.step = (fr.phiValue i).map fun v => .computed (fr.put i v) := by
  obtain ⟨arms, hop⟩ : ∃ arms, inst.op = .phi arms := by
    cases hop : inst.op with
    | phi arms => exact ⟨arms, rfl⟩
    | _ =>
      rw [hop] at hphi
      cases hphi
  have hvalue : fr.phiValue i = fr.incoming inst.name arms := by
    obtain ⟨b, -, -, hinst⟩ := h
    simp only [phiValue, hinst, hop, Op.arms]
  have hperform : fr.perform inst = (fr.phiValue i >>= fun v => .ok (.value v)) := by
    simp only [perform, hop, hvalue]
    rfl
  cases hv : fr.phiValue i with
  | error e =>
    rw [hv] at hperform
    exact h.step_error hperform
  | ok v =>
    rw [hv] at hperform
    exact h.step_value hperform

end Frame

/-- **A machine performs phis in turn.**  The induction goes along the phis that are left in the block; each
of them is a step of its own. -/
theorem Thread.run_phis {m : Ir.Module} {bound : Nat} {fr : Frame} {callers : List Frame} {b : Block}
    {ids rest : List InstId} (hb : fr.function.block? fr.block = some b)
    (hids : b.insts.drop fr.pos = ids ++ rest)
    (hphis : ∀ i ∈ ids, ∃ inst, fr.function.inst? i = some inst ∧ inst.op.isPhi = true) (t : Meter) :
    (∀ fr₁, fr.inTurn ids = .ok fr₁ → Reaches m bound ⟨t, fr, callers⟩
      ⟨{ t with steps := t.steps + ids.length }, fr₁, callers⟩) ∧
    ∀ e, fr.inTurn ids = .error e → Ends m bound ⟨t, fr, callers⟩ (.error e) := by
  induction ids generalizing fr t with
  | nil =>
    refine ⟨fun fr₁ h => ?_, fun e h => (nomatch h)⟩
    obtain rfl := Except.ok.inj h
    exact .refl _
  | cons i ids ih =>
    obtain ⟨inst, hinst, hphi⟩ := hphis i List.mem_cons_self
    have hi : b.insts[fr.pos]? = some i := by
      rw [← Nat.add_zero fr.pos, ← List.getElem?_drop, hids]
      rfl
    have hstep := Frame.At.step_phi ⟨b, hb, hi, hinst⟩ hphi
    have hinTurn : fr.inTurn (i :: ids) = (fr.phiValue i >>= fun v => (fr.put i v).inTurn ids) := rfl
    rw [hinTurn]
    cases hv : fr.phiValue i with
    | error e =>
      rw [hv] at hstep
      refine ⟨fun fr₁ h => (nomatch h), fun e' h => ?_⟩
      obtain rfl := Except.error.inj h
      exact .of_step (step_of_error hstep)
    | ok v =>
      rw [hv] at hstep
      have hrest : b.insts.drop (fr.pos + 1) = ids ++ rest := by
        rw [← List.tail_drop, hids]
        rfl
      have hsame : (fr.put i v).function.block? (fr.put i v).block = some b := hb
      obtain ⟨hreaches, hends⟩ := ih hsame hrest (fun j hj => hphis j (List.mem_cons_of_mem i hj)) t.tick
      have hfirst : Reaches m bound ⟨t, fr, callers⟩ ⟨t.tick, fr.put i v, callers⟩ :=
        .of_step (step_of_computed hstep)
      refine ⟨fun fr₁ h => ?_, fun e h => hfirst.ends (hends e h)⟩
      have hlength : t.steps + (ids.length + 1) = t.tick.steps + ids.length := by
        show _ = t.steps + 1 + ids.length
        omega
      rw [List.length_cons, hlength]
      exact hfirst.trans (hreaches fr₁ h)

end Machine

/-! ### Blocks of verified functions -/

namespace Ir.Function

variable {f : Function} {m : Module} {id : BlockId}

/-- What is kept of a list stands at its start, if nothing is kept behind something that is not. -/
theorem filter_append_of_pairwise {p : InstId → Bool} {l : List InstId}
    (h : l.Pairwise fun i j => p j = true → p i = true) : ∃ rest, l.filter p ++ rest = l := by
  induction l with
  | nil => exact ⟨[], rfl⟩
  | cons i l ih =>
    rw [List.pairwise_cons] at h
    by_cases hi : p i = true
    · obtain ⟨rest, hrest⟩ := ih h.2
      exact ⟨rest, by rw [List.filter_cons_of_pos hi, List.cons_append, hrest]⟩
    · have hnone : l.filter p = [] := List.filter_eq_nil_iff.2 fun j hj hpj => hi (h.1 j hj hpj)
      exact ⟨i :: l, by rw [List.filter_cons_of_neg hi, hnone, List.nil_append]⟩

theorem inst_of_mem_phisAt {i : InstId} (h : i ∈ f.phisAt id) :
    ∃ inst, f.inst? i = some inst ∧ inst.op.isPhi = true :=
  (Option.any_eq_true _ _).1 (List.mem_filter.1 h).2

theorem Complete.inst_isSome (h : f.Complete) {b : Block} (hb : f.block? id = some b) {i : InstId}
    (hi : i ∈ b.insts) : (f.inst? i).isSome := by
  obtain ⟨b', t, hb', -, hinsts, -⟩ :=
    h.blocks id (h.mem_layout_iff.2 (lt_of_block? hb))
  obtain rfl := Option.some.inj (hb.symm.trans hb')
  exact hinsts i hi

/-- An edge leads to a block that exists. -/
theorem Complete.exists_target (h : f.Complete) {target : BlockId} (ht : target ∈ f.succsAt id) :
    ∃ b, f.block? target = some b := by
  obtain ⟨b, t, hb, hterm, -, hsuccs⟩ := h.blocks id (h.mem_layout_of_succsAt ht)
  rw [succsAt_of_block? hb hterm] at ht
  exact Option.isSome_iff_exists.1 (hsuccs target ht)

/-- The phis of a block of a verified function stand at its start. -/
theorem Verified.phisAt_append (h : f.Verified m) {b : Block} (hb : f.block? id = some b) :
    ∃ rest, f.phisAt id ++ rest = b.insts := by
  obtain ⟨k, b', -, hb', htyped⟩ := h.exists_block (lt_of_block? hb)
  obtain rfl := Option.some.inj (hb.symm.trans hb')
  rw [phisAt, instsAt_of_block? hb]
  refine filter_append_of_pairwise (List.pairwise_iff_getElem.2 fun j j' hj hj' hlt hphi => ?_)
  obtain ⟨inst', hinst', hphi'⟩ := (Option.any_eq_true _ _).1 hphi
  obtain ⟨inst, hinst⟩ := Option.isSome_iff_exists.1 (h.complete.inst_isSome hb (List.getElem_mem hj))
  have hbefore := htyped.phis j' _ inst' (List.getElem?_eq_getElem hj') hinst' hphi'
  rw [hinst]
  exact hbefore j hlt _ inst (List.getElem?_eq_getElem hj) hinst

theorem Verified.phisAt_nodup (h : f.Verified m) (hid : id ∈ f.layout) : (f.phisAt id).Nodup :=
  ((List.nodup_flatMap.1 h.complete.insts_nodup).1 id hid).filter _

end Ir.Function

namespace Machine

open Ir

/-- A jump leads to the start of a block, with all values as they were. -/
theorem Frame.jumped_of_step {fr fr' : Frame} (h : fr.step = .ok (.jumped fr')) :
    fr'.function = fr.function ∧ fr'.values = fr.values ∧ fr'.pos = 0 := by
  obtain ⟨b, t, target, -, -, -, -, rfl⟩ := jump_of_step h
  exact ⟨rfl, rfl, rfl⟩

/-- **The phis of a verified function are performed in turn.**  A machine that has jumped into a block
performs the phis there one by one, or fails at the first that has no value.  A `phi` whose entry for the
edge names an earlier `phi` of the block gets the value that has just been stored for that one, and any
other the value that its operand had on the edge.  So each `phi` gets what was there on the edge exactly if
every earlier `phi` that is named by a later one keeps its value, and then reading in turn is reading at
once, down to the faults.  The frame has room for the values of the function, as all activations have. -/
theorem Frame.phis_in_turn {f : Function} {m : Ir.Module} (hv : f.verify m = .ok ()) {fr fr' : Frame}
    (hf : fr.function = f) (hsize : fr.values.size = f.insts.size)
    (hs : fr.step = .ok (.jumped fr')) :
    (∀ (m₁ : Ir.Module) (bound : Nat) (t : Meter) (callers : List Frame),
      (∀ fr₁, fr'.inTurn (f.phisAt fr'.block) = .ok fr₁ →
        Thread.Reaches m₁ bound ⟨t, fr', callers⟩
          ⟨{ t with steps := t.steps + (f.phisAt fr'.block).length }, fr₁, callers⟩) ∧
      ∀ e, fr'.inTurn (f.phisAt fr'.block) = .error e →
        Thread.Ends m₁ bound ⟨t, fr', callers⟩ (.error e)) ∧
    (∀ fr₁ front i back, fr'.inTurn (f.phisAt fr'.block) = .ok fr₁ →
      f.phisAt fr'.block = front ++ i :: back →
        (∀ p ∈ front, fr'.operandOf? i = some (.inst p) → fr₁.get (.inst i) = fr₁.get (.inst p)) ∧
        ((∀ p ∈ front, fr'.operandOf? i ≠ some (.inst p)) → fr₁.get (.inst i) = fr'.phiValue i)) ∧
    (∀ fr₁, fr'.inTurn (f.phisAt fr'.block) = .ok fr₁ →
      ((∀ i ∈ f.phisAt fr'.block, fr₁.get (.inst i) = fr'.phiValue i) ↔
        fr'.Unmoved (f.phisAt fr'.block))) ∧
    (fr'.Unmoved (f.phisAt fr'.block) →
      fr'.inTurn (f.phisAt fr'.block) = fr'.atOnce (f.phisAt fr'.block)) := by
  have hverified := Function.verify_eq_ok_iff.1 hv
  obtain ⟨hfun, hvalues, hpos⟩ := jumped_of_step hs
  have hedge := (edge_of_step hs).1
  rw [hf] at hfun hedge
  obtain ⟨b, hb⟩ := hverified.complete.exists_target hedge
  have hlayout : fr'.block ∈ f.layout :=
    hverified.complete.mem_layout_iff.2 (Array.getElem?_eq_some_iff.1 hb).1
  have hn := hverified.phisAt_nodup hlayout
  have hlt : ∀ i ∈ f.phisAt fr'.block, i < fr'.values.size := by
    intro i hi
    obtain ⟨inst, hinst, -⟩ := Function.inst_of_mem_phisAt hi
    rw [hvalues, hsize]
    exact (Array.getElem?_eq_some_iff.1 hinst).1
  refine ⟨fun m₁ bound t callers => ?_, ?_, fun fr₁ h => stored_iff_unmoved hlt hn h,
    fun h => inTurn_eq_atOnce h hlt hn⟩
  · obtain ⟨rest, hrest⟩ := hverified.phisAt_append hb
    have hdrop : b.insts.drop fr'.pos = f.phisAt fr'.block ++ rest := by
      rw [hpos, List.drop_zero, hrest]
    exact Thread.run_phis (hfun ▸ hb) hdrop (fun i hi => hfun ▸ Function.inst_of_mem_phisAt hi) t
  · intro fr₁ front i back h heq
    rw [heq] at h hlt hn
    exact inTurn_stored hlt hn h

/-! ### A loop that exchanges two values -/

/-- The loop gives `a` the value of `b` and `b` the value of `a`, as long as `a` is one. -/
def swapping : Function where
  name := "swapping"
  params := []
  ret := .i64
  insts := #[⟨"a", .i64, .phi [(.int 1, 0), (.inst 1, 1)]⟩, ⟨"b", .i64, .phi [(.int 2, 0), (.inst 0, 1)]⟩,
    ⟨"again", .i1, .icmp .eq (.inst 0) (.int 1)⟩]
  blocks := #[⟨"entry", [], some (.br 1)⟩, ⟨"loop", [0, 1, 2], some (.condBr (.inst 2) 1 2)⟩,
    ⟨"exit", [], some (.ret (.inst 1))⟩]
  layout := [0, 1, 2]

def swappingModule : Ir.Module where
  name := "m"
  functions := [swapping]
  distinct := by decide

/-- The activation of `swapping` in its loop, with the given values of `a` and `b`. -/
def swappingFrame (a b : Int64) (pos : Nat) (predecessor : BlockId) : Frame where
  function := swapping
  args := []
  values := #[some (.int a), some (.int b), some (.bool true)]
  block := 1
  pos := pos
  predecessor? := some predecessor

/-- At the end of the first round `a` is one and `b` is two.  Both are two after the jump, as the `phi` of
`b` names that of `a`, which has moved. -/
theorem Frame.phis_in_turn_swapping :
    swapping.verify swappingModule = .ok () ∧ swapping.phisAt 1 = [0, 1] ∧
      (swappingFrame 1 2 3 0).step = .ok (.jumped (swappingFrame 1 2 0 1)) ∧
      ¬ (swappingFrame 1 2 0 1).Unmoved [0, 1] ∧
      Thread.Reaches swappingModule 1024 ⟨{}, swappingFrame 1 2 0 1, []⟩
        ⟨{ steps := 2 }, swappingFrame 2 2 2 1, []⟩ := by
  have hv : swapping.verify swappingModule = .ok () := by decide
  have hs : (swappingFrame 1 2 3 0).step = .ok (.jumped (swappingFrame 1 2 0 1)) := by decide
  have hturn : (swappingFrame 1 2 0 1).inTurn [0, 1] = .ok (swappingFrame 2 2 2 1) := by decide
  obtain ⟨hrun, -, hiff, -⟩ := phis_in_turn hv rfl rfl hs
  refine ⟨hv, rfl, hs, fun hunmoved => ?_, (hrun swappingModule 1024 {} []).1 _ hturn⟩
  have hmoved : (swappingFrame 2 2 2 1).get (.inst 1) ≠ (swappingFrame 1 2 0 1).phiValue 1 := by decide
  exact hmoved ((hiff _ hturn).2 hunmoved 1 (by decide))

/-- **Phis can differ from what was there on the edge.**  A run of a verified function comes to a jump behind
which the second `phi` is given two, where its operand was one on the edge, and the run ends with that.  With
both read at once it would have ended with one. -/
theorem swapping_in_turn :
    swapping.verify swappingModule = .ok () ∧
      ∃ (t : Meter) (fr fr' fr₁ fr₂ : Frame),
        Thread.Visited swappingModule 1024 {} "swapping" [] ⟨t, fr, []⟩ ∧
        fr.step = .ok (.jumped fr') ∧ fr'.block = 1 ∧
        fr'.inTurn (swapping.phisAt 1) = .ok fr₁ ∧ fr₁.get (.inst 1) = .ok (.int 2) ∧
        fr'.atOnce (swapping.phisAt 1) = .ok fr₂ ∧ fr₂.get (.inst 1) = .ok (.int 1) ∧
        fr'.phiValue 1 = .ok (.int 1) ∧
        (({ fuel := 20 } : Machine).execute swappingModule "swapping" []).1 = .ok (.int 2) ∧
        (Thread.run swappingModule 1024 20 ⟨t, fr₂, []⟩).map Prod.fst = some (.ok (.int 1)) := by
  have hentry : Thread.Visited swappingModule 1024 {} "swapping" []
      ⟨{ current? := some "swapping", depth := 1, deepest := 1 },
        ⟨swapping, [], #[none, none, none], 0, 0, none⟩, []⟩ := .start (by decide)
  refine ⟨by decide, _, swappingFrame 1 2 3 0, swappingFrame 1 2 0 1, swappingFrame 2 2 2 1,
    swappingFrame 2 1 2 1, .step (.step (.step (.step hentry rfl) rfl) rfl) rfl, by decide, rfl, by decide,
    by decide, by decide, by decide, by decide, by decide, by decide⟩

end Machine

/-! ### Functions that come of definitions -/

namespace Ir

/-- Edges of a function in the form lead to blocks with one `phi` or none.  The entry is the first block of
the layout, and edges lead forward. -/
theorem Function.Structured.length_phisAt_le {f : Function} {k : Nat} (h : f.Structured k)
    {source id : BlockId} (hs : id ∈ f.succsAt source) : (f.phisAt id).length ≤ 1 := by
  obtain ⟨b, hb⟩ := h.complete.exists_target hs
  obtain ⟨i, hi⟩ := List.mem_iff_getElem?.1 (h.complete.mem_layout_of_succsAt hs)
  obtain ⟨j, hlt, hj⟩ := h.forward i source id hi hs
  rcases h.labels id (Function.lt_of_block? hb) with hentry | hthen | helse | hjoin
  · have hfirst : f.layout[0]? = some id := by
      rw [← List.head?_eq_getElem?]
      exact hentry
    have hzero : 0 = j :=
      (List.getElem?_inj (List.getElem?_eq_some_iff.1 hfirst).1 h.complete.layout_nodup).1
        (hfirst.trans hj.symm)
    omega
  · obtain ⟨-, -, hnone⟩ := h.branch id (.inl hthen)
    simp [hnone]
  · obtain ⟨-, -, hnone⟩ := h.branch id (.inr helse)
    simp [hnone]
  · obtain ⟨-, -, -, -, i, -, -, -, hone, -⟩ := h.join id hjoin
    simp [hone]

/-- **No code that comes of a definition can tell the order.** -/
theorem Module.generate_atOnce {m m' : Module} {d : Definition} {f : Function}
    (h : m.generate d = (.ok f, m')) {fr fr' : Machine.Frame} (hf : fr.function = f)
    (hs : fr.step = .ok (.jumped fr')) :
    fr'.inTurn (f.phisAt fr'.block) = fr'.atOnce (f.phisAt fr'.block) := by
  obtain ⟨-, -, -, declaration, -, hmade⟩ := generate_of_ok h
  have hedge := (Machine.Frame.edge_of_step hs).1
  rw [hf] at hedge
  exact Machine.Frame.inTurn_eq_atOnce_of_length (hmade.structured.length_phisAt_le hedge)

end Ir

end ScalarLang
