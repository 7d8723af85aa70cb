import ScalarLang.Proofs.TypeSafety

/-!
# Definitions and the ways to their uses

Verification compares places in the layout: a value can be used behind its definition.  A run follows
edges, and these can lead around a block that stands earlier in the layout.  What a run has computed is
what the blocks on its way define, so a value is there if every way to its use leads through the block
of its definition.

* `Ir.Function.Way` — a way from the entry to a block along edges.
* `Ir.Function.Dominates` — every way to a block leads through another.
* `Ir.Function.Bypassed` — a definition stands earlier than its use, and a way leads around it.
* `Machine.Frame.Trails` — a frame has computed everything that is defined on its way.
* `Machine.Thread.step_trails`, `Machine.Thread.Visited.trails` — one step keeps this, and so does a run.
* `Machine.execute_notComputed` — a run only misses a value at a `phi`, or where a way leads around its
  definition.
* `Machine.skipping_notComputed` — a verified function in which one does.
-/

namespace ScalarLang

namespace Ir

namespace Function

/-- A way from the entry to a block along edges: the blocks before it, the last one first. -/
inductive Way (f : Function) : List BlockId → BlockId → Prop
  | entry {id : BlockId} (h : f.entry? = some id) : Way f [] id
  | edge {before : List BlockId} {source target : BlockId} (h : Way f before source)
      (he : target ∈ f.succsAt source) : Way f (source :: before) target

/-- Every way from the entry to block `b` leads through block `a`. -/
def Dominates (f : Function) (a b : BlockId) : Prop := ∀ before, f.Way before b → a ∈ b :: before

/-- Instruction `i` is defined in a block that stands before block `here` in the layout, and a way from
the entry to `here` leads around that block. -/
def Bypassed (f : Function) (i : InstId) (here : BlockId) : Prop :=
  ∃ (source : BlockId) (k l : Nat), f.layout[k]? = some source ∧ i ∈ f.instsAt source ∧
    f.layout[l]? = some here ∧ k < l ∧ ¬ f.Dominates source here

end Function

end Ir

namespace Machine

open Ir

/-! ### What a frame has computed -/

namespace Frame

/-- The value of an instruction is there. -/
def Computed (fr : Frame) (i : InstId) : Prop := ∃ v, fr.values[i]? = some (some v)

/-- The frame has come by the blocks `before`.  It has computed all their instructions, and those of its
own block in front of the one at hand. -/
structure Trails (fr : Frame) (before : List BlockId) : Prop where
  way : fr.function.Way before fr.block
  size : fr.values.size = fr.function.insts.size
  passed : ∀ id ∈ before, ∀ i ∈ fr.function.instsAt id, fr.Computed i
  here : ∀ i ∈ (fr.function.instsAt fr.block).take fr.pos, fr.Computed i

variable {fr : Frame} {before : List BlockId}

theorem trails_of_start {f : Function} {args : List Value} (h : start f args = .ok fr) :
    fr.Trails [] := by
  unfold start at h
  split at h
  · next entry hentry =>
    obtain rfl := Except.ok.inj h
    refine ⟨.entry hentry, ?_, ?_, ?_⟩
    · show (Array.replicate f.insts.size none).size = f.insts.size
      exact Array.size_replicate
    · intro id hid
      cases hid
    · intro i hi
      cases hi
  · cases h

/-- What has been computed stays so when a value is recorded. -/
theorem Computed.put {i j : InstId} {v : Value} (h : fr.Computed j) : (fr.put i v).Computed j := by
  obtain ⟨w, hw⟩ := h
  show ∃ w, (fr.values.setIfInBounds i (some v))[j]? = some (some w)
  have hlt : j < fr.values.size := (Array.getElem?_eq_some_iff.1 hw).1
  rw [Array.getElem?_setIfInBounds]
  by_cases hij : i = j
  · subst hij
    exact ⟨v, by rw [if_pos rfl, if_pos hlt]⟩
  · exact ⟨w, by rw [if_neg hij, hw]⟩

theorem computed_put {i : InstId} {v : Value} (hlt : i < fr.values.size) :
    (fr.put i v).Computed i := by
  refine ⟨v, ?_⟩
  show (fr.values.setIfInBounds i (some v))[i]? = some (some v)
  rw [Array.getElem?_setIfInBounds, if_pos rfl, if_pos hlt]

/-- Performing the instruction at hand computes it. -/
theorem Trails.put (h : fr.Trails before) {i : InstId} {inst : Inst} (hat : fr.At i inst)
    (v : Value) : (fr.put i v).Trails before := by
  obtain ⟨b, hb, hi, hinst⟩ := hat
  have hlt : i < fr.values.size := by
    rw [h.size]
    exact Function.lt_of_inst? hinst
  refine ⟨h.way, ?_, fun id hid j hj => (h.passed id hid j hj).put, ?_⟩
  · show (fr.values.setIfInBounds i (some v)).size = fr.function.insts.size
    rw [Array.size_setIfInBounds, h.size]
  · intro j hj
    change j ∈ (fr.function.instsAt fr.block).take (fr.pos + 1) at hj
    have hat : (fr.function.instsAt fr.block)[fr.pos]? = some i := by
      rw [Function.instsAt_of_block? hb]
      exact hi
    rw [List.take_add_one, hat, Option.toList_some, List.mem_append, List.mem_singleton] at hj
    cases hj with
    | inl hj => exact (h.here j hj).put
    | inr hj =>
      subst hj
      exact computed_put hlt

/-- A frame that jumps has computed the whole block. -/
theorem Trails.jump (h : fr.Trails before) {fr' : Frame} (hs : fr.step = .ok (.jumped fr')) :
    fr'.Trails (fr.block :: before) := by
  obtain ⟨b, t, target, hb, hend, ht, htarget, rfl⟩ := jump_of_step hs
  have hall : (fr.function.instsAt fr.block).take fr.pos = fr.function.instsAt fr.block := by
    rw [Function.instsAt_of_block? hb]
    exact List.take_of_length_le (List.getElem?_eq_none_iff.1 hend)
  refine ⟨.edge h.way ?_, h.size, ?_, ?_⟩
  · show target ∈ fr.function.succsAt fr.block
    rw [Function.succsAt_of_block? hb ht]
    exact htarget
  · intro id hid i hi
    show fr.Computed i
    rcases List.mem_cons.1 hid with rfl | hid
    · refine h.here i ?_
      rw [hall]
      exact hi
    · exact h.passed id hid i hi
  · intro i hi
    cases hi

/-! ### Reading operands -/

/-- The instruction at hand is a `phi`. -/
def AtPhi (fr : Frame) : Prop := ∃ i inst, fr.At i inst ∧ inst.op.isPhi = true

/-- A fault for want of a value has one of two reasons: the instruction at hand is a `phi`, or a way to
the block at hand leads around the definition of the value. -/
def Explains (fr : Frame) (e : Fault) : Prop :=
  ∀ i g, e = .notComputed i g →
    g = fr.function.name ∧ (fr.AtPhi ∨ fr.function.Bypassed i fr.block)

/-- The value that is missing is the operand itself. -/
theorem eq_of_get_notComputed {v : Operand} {i : InstId} {g : String}
    (h : fr.get v = .error (.notComputed i g)) : v = .inst i ∧ g = fr.function.name := by
  cases v with
  | int x => cases h
  | double x => cases h
  | arg index =>
    rw [get] at h
    split at h <;> cases h
  | inst i' =>
    rw [get] at h
    split at h
    · cases h
    · cases h
      exact ⟨rfl, rfl⟩

/-- **A value whose definition stands earlier is there, or a way leads around its definition.**  In the
same block the frame has just come by the definition; otherwise it has come by the block of the
definition, or its own way leads around that block. -/
theorem Trails.computed_or_bypassed (h : fr.Trails before) (hc : fr.function.Complete)
    {k k' j : Nat} (hk : fr.function.layout[k]? = some fr.block) {source : BlockId}
    (hk' : fr.function.layout[k']? = some source) {i : InstId}
    (hi : (fr.function.instsAt source)[j]? = some i) (hlt : k' < k ∨ k' = k ∧ j < fr.pos) :
    fr.Computed i ∨ fr.function.Bypassed i fr.block := by
  cases hlt with
  | inl hlt =>
    by_cases hpassed : source ∈ before
    · exact .inl (h.passed source hpassed i (List.mem_of_getElem? hi))
    · refine .inr ⟨source, k', k, hk', List.mem_of_getElem? hi, hk, hlt, fun hdom => ?_⟩
      refine hpassed ((List.mem_cons.1 (hdom before h.way)).resolve_left fun hsame => ?_)
      have hlen := (List.getElem?_eq_some_iff.1 hk').1
      have : k' = k := (List.getElem?_inj hlen hc.layout_nodup).1 (by rw [hk', hk, hsame])
      omega
  | inr hlt =>
    obtain ⟨rfl, hj⟩ := hlt
    obtain rfl := Option.some.inj (hk.symm.trans hk')
    refine .inl (h.here i (List.mem_of_getElem? (i := j) ?_))
    rw [List.getElem?_take_of_lt hj, hi]

/-- Where the frame stands, an operand is missing only if a way leads around its definition. -/
theorem Trails.reads (h : fr.Trails before) {m : Ir.Module} (ht : fr.Typed m) :
    fr.Reads fr.Explains := by
  have hc := ht.verified.complete
  have htyped : fr.Reads (Fault.Permitted m 0) := ht.reads
  constructor
  · intro k j v ty hk hj hv
    refine (htyped.operands k j v ty hk hj hv).exchange fun e he => ?_
    rintro i g rfl
    obtain ⟨rfl, rfl⟩ := eq_of_get_notComputed he
    obtain ⟨⟨k', j'⟩, inst, hsite, -, -, hbefore⟩ := Function.useTy_inst_eq_ok_iff.1 hv
    obtain ⟨source, hk', hi⟩ := hc.site?_eq_some_iff.1 hsite
    have hlt : k' < k ∨ k' = k ∧ j' < j := by
      simpa [Site.before] using hbefore ⟨k, j⟩ rfl
    refine ⟨rfl, .inr ((h.computed_or_bypassed hc hk hk' hi (by omega)).resolve_left ?_)⟩
    rintro ⟨x, hx⟩
    rw [get_of_values hx] at he
    cases he
  · intro i inst arms hat hop harms
    refine (htyped.entries i inst arms hat hop harms).exchange fun e he => ?_
    rintro j g rfl
    refine ⟨?_, .inl ⟨i, inst, hat, by rw [hop]; rfl⟩⟩
    unfold incoming at he
    split at he
    · exact (eq_of_get_notComputed he).2
    · cases he

/-- **A step of a frame misses a value only at a `phi`, or where a way leads around its definition.** -/
theorem Trails.step_explains (h : fr.Trails before) {m : Ir.Module} (ht : fr.Typed m) {e : Fault}
    (hs : fr.step = .error e) : fr.Explains e := by
  have hdiv : fr.Explains .divisionByZero := by
    intro i g he
    cases he
  have hstep := ht.step_meets_of_reads hdiv (h.reads ht)
  rw [hs] at hstep
  exact hstep

end Frame

/-! ### Runs -/

variable {m : Ir.Module} {bound : Nat} {t : Meter}

theorem checkArgs_ne_notComputed {function : String} {params : List Ir.Param} {args : List Value}
    {i : Nat} {g : String} : checkArgs function params args ≠ .error (.notComputed i g) := by
  induction params generalizing args with
  | nil => intro h; cases h
  | cons p params ih =>
    cases args with
    | nil => intro h; cases h
    | cons v args =>
      rw [checkArgs]
      split
      · exact ih
      · intro h; cases h

/-- No call is refused for want of a value. -/
theorem enter_ne_notComputed {name : String} {args : List Value} {i : Nat} {g : String} :
    enter m bound t name args ≠ .error (.notComputed i g) := by
  intro h
  unfold enter at h
  split at h
  · cases h
  · split at h
    · cases h
    · split at h
      · cases h
      · rcases bind_eq_error_iff.1 h with h | ⟨-, -, h⟩
        · exact checkArgs_ne_notComputed h
        · split at h
          · cases h
          · rcases bind_eq_error_iff.1 h with h | ⟨fr, -, h⟩
            · unfold Frame.start at h
              split at h <;> cases h
            · cases h

namespace Thread

/-- Every frame of the run has computed everything that is defined on its way. -/
def Trails (a : Thread) : Prop := ∀ fr ∈ a.top :: a.callers, ∃ before, fr.Trails before

/-- **One step of a run keeps the trails of all frames.** -/
theorem step_trails {ret : Ty} {a b : Thread} (ht : a.Typed m ret) (h : a.Trails)
    (hs : a.step m bound = .running b) : b.Trails := by
  obtain ⟨⟨before, htop⟩, hcallers⟩ := List.forall_mem_cons.1 h
  obtain ⟨fr, hstep, rfl⟩ | ⟨fr, hstep, rfl⟩ | ⟨v, caller, callers, fr, -, hstack, hr, rfl⟩ |
    ⟨callee, args, fr, t, -, he, rfl⟩ := running_cases hs
  · obtain ⟨i, inst, v, hat, -, hfr⟩ | ⟨i, inst, callee, args, -, -, hfr⟩ | ⟨b, e, -, -, -, hf⟩ :=
      Frame.step_cases hstep
    · obtain rfl := Frame.Step.computed.inj hfr
      exact List.forall_mem_cons.2 ⟨⟨before, htop.put hat v⟩, hcallers⟩
    · cases hfr
    · obtain ⟨target, -, hfr⟩ | ⟨v, hfr⟩ := Frame.follow_cases hf <;> cases hfr
  · exact List.forall_mem_cons.2 ⟨⟨_, htop.jump hstep⟩, hcallers⟩
  · -- the caller waits at the call that has been performed
    have htyped := ht.2
    rw [hstack] at htyped hcallers
    obtain ⟨-, ⟨b, i, inst, hb, hi, hinst, -⟩, -⟩ := htyped
    have hat : caller.At i inst := ⟨b, hb, hi, hinst⟩
    obtain ⟨⟨before', hcaller⟩, hrest⟩ := List.forall_mem_cons.1 hcallers
    obtain rfl := Except.ok.inj ((hat.resume v).symm.trans hr)
    exact List.forall_mem_cons.2 ⟨⟨before', hcaller.put hat v⟩, hrest⟩
  · obtain ⟨f, -, hstart⟩ := start_of_enter he
    exact List.forall_mem_cons.2 ⟨⟨[], Frame.trails_of_start hstart⟩, h⟩

/-- **A whole run keeps types and trails.** -/
theorem Visited.trails (hm : AllVerified m) {f : Function} (hf : f ∈ m.functions)
    {args : List Value} (hargs : args.map Value.ty = f.params.map Ir.Param.ty) {a : Thread}
    (h : Visited m bound t f.name args a) : a.Typed m f.ret ∧ a.Trails := by
  induction h with
  | @start fr t' he =>
    have henter : Meets (fun r => r.1.Typed m ∧ r.1.function = f) (Fault.Permitted m bound)
        (enter m bound t f.name args) := enter_meets hm (Module.get?_eq_some_iff.2 ⟨hf, rfl⟩) hargs
    rw [he] at henter
    obtain ⟨g, -, hstart⟩ := start_of_enter he
    refine ⟨⟨henter.1, congrArg Function.ret henter.2⟩, ?_⟩
    exact List.forall_mem_cons.2 ⟨⟨[], Frame.trails_of_start hstart⟩, by simp⟩
  | @step a b _ hs ih =>
    have hstep : ProgressTyped m bound f.ret (a.step m bound) := step_typed hm ih.1
    rw [hs] at hstep
    exact ⟨hstep, step_trails ih.1 ih.2 hs⟩

/-- A run that ends for want of a value ends in the step of its topmost frame. -/
theorem top_of_notComputed {a : Thread} {i : Nat} {g : String}
    (h : a.step m bound = .ended (.error (.notComputed i g)) t) :
    a.top.step = .error (.notComputed i g) := by
  obtain ⟨e, hs, he, -⟩ | ⟨v, -, -, he, -⟩ | ⟨v, caller, callers, e, -, -, hr, he, -⟩ |
    ⟨callee, args, e, -, henter, he, -⟩ := ended_cases h
  · obtain rfl := Except.error.inj he
    exact hs
  · cases he
  · obtain rfl := Except.error.inj he
    rw [Frame.resume] at hr
    split at hr <;> cases hr
  · obtain rfl := Except.error.inj he
    exact absurd henter enter_ne_notComputed

end Thread

/-- **When a run of verified functions misses a value.**  A run that ends for want of the value of an
instruction ends in a step of a frame that stands at a `phi`, or in a block to which a way leads around
the block of that instruction, which stands earlier in the layout.  So a value that is defined in the
same block, or in a block that dominates it, is there wherever another instruction or the end of the
block reads it. -/
theorem execute_notComputed (hm : AllVerified m) {f : Function} (hf : f ∈ m.functions)
    {args : List Value} (hargs : args.map Value.ty = f.params.map Ir.Param.ty) (mc : Machine)
    {i : Nat} {g : String} (h : (mc.execute m f.name args).1 = .error (.notComputed i g)) :
    ∃ a, Thread.Visited m mc.maxDepth mc.meter f.name args a ∧
      a.top.step = .error (.notComputed i g) ∧ a.top.function.name = g ∧
      (a.top.AtPhi ∨ a.top.function.Bypassed i a.top.block) := by
  obtain he | ⟨a, t, ha, hs⟩ := exists_visited_of_error h (by intro h; cases h)
  · exact absurd he enter_ne_notComputed
  · obtain ⟨htyped, htrails⟩ := ha.trails hm hf hargs
    obtain ⟨before, htop⟩ := htrails a.top List.mem_cons_self
    have hstep := Thread.top_of_notComputed hs
    obtain ⟨hname, hwhy⟩ := htop.step_explains htyped.1 hstep i g rfl
    exact ⟨a, ha, hstep, hname.symm, hwhy⟩

/-! ### A way around a definition -/

/-- The exit returns a value that only one of the two ways to it computes. -/
def skipping : Function where
  name := "skipping"
  params := [⟨"x", .i64⟩]
  ret := .i64
  insts := #[⟨"c", .i1, .icmp .ne (.arg 0) (.int 0)⟩, ⟨"v", .i64, .binary .add (.int 3) (.int 4)⟩]
  blocks := #[⟨"entry", [0], some (.condBr (.inst 0) 1 2)⟩, ⟨"once", [1], some (.br 2)⟩,
    ⟨"exit", [], some (.ret (.inst 1))⟩]
  layout := [0, 1, 2]

def skippingModule : Ir.Module where
  name := "m"
  functions := [skipping]
  distinct := by decide

theorem allVerified_skippingModule : AllVerified skippingModule := by
  intro f hf _
  obtain rfl := List.mem_singleton.1 hf
  decide

/-- **A run of verified functions can miss the operand of a `ret`.**  There is no `phi` at all. -/
theorem skipping_notComputed :
    AllVerified skippingModule ∧ skipping ∈ skippingModule.functions ∧
      [Value.int 0].map Value.ty = skipping.params.map Ir.Param.ty ∧
      (∀ inst ∈ skipping.insts, inst.op.isPhi = false) ∧
      (({ fuel := 9 } : Machine).execute skippingModule "skipping" [.int 0]).1 =
        .error (.notComputed 1 "skipping") :=
  ⟨allVerified_skippingModule, List.mem_cons_self, rfl, by decide, by decide⟩

/-- The run that misses the value ends at the exit, to which an edge from the entry leads. -/
theorem execute_notComputed_skipping :
    ∃ a, Thread.Visited skippingModule 1024 {} "skipping" [.int 0] a ∧
      a.top.step = .error (.notComputed 1 "skipping") ∧ a.top.function.name = "skipping" ∧
      (a.top.AtPhi ∨ a.top.function.Bypassed 1 a.top.block) :=
  execute_notComputed allVerified_skippingModule List.mem_cons_self rfl { fuel := 9 } (by decide)

end Machine

end ScalarLang
