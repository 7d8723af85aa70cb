import ScalarLang.Proofs.Building

/-!
# Functions under construction

While an expression is lowered, the function under construction is in order: all its finished blocks are
typed and laid out, and instructions are numbered along the layout.  Once every block is finished, such
a function passes verification.

* `Ir.Function.Tidy` — a function under construction that is in order.
* `Ir.Function.Tidy.push`, `Ir.Function.Tidy.createBlock`, `Ir.Function.Tidy.terminate`,
  `Ir.Function.Tidy.append` — what each operation needs in order to keep it so.
* `Ir.Function.Tidy.verified` — once every block is finished, the function is verified.
* `Ir.Builder.After` — one builder comes after another, and blocks before a bound are left alone.
* `Ir.Builder.tidy_branch` — a choice between two new blocks.
-/

namespace ScalarLang

namespace Ir

/-! ### Functions under construction -/

namespace Function

/-- The number of instructions in the first `k` of the given blocks. -/
def instsBefore (f : Function) (ids : List BlockId) (k : Nat) : Nat :=
  ((ids.take k).flatMap f.instsAt).length

theorem instsBefore_succ {f : Function} {ids : List BlockId} {k : Nat} {id : BlockId}
    (hk : ids[k]? = some id) :
    f.instsBefore ids (k + 1) = f.instsBefore ids k + (f.instsAt id).length := by
  rw [instsBefore, List.take_add_one, hk]
  simp [instsBefore]

theorem instsBefore_mono (f : Function) (ids : List BlockId) {k k' : Nat} (hk : k ≤ k') :
    f.instsBefore ids k ≤ f.instsBefore ids k' :=
  ((List.take_prefix_take_left hk).flatMap f.instsAt).length_le

/-- A function under construction that is in order.  The blocks of `done` are finished, those of `rest`
have a place in the layout but no end, and all others are still empty.  Instructions are numbered along
the layout, so that an instruction can only use those before it. -/
structure Tidy (m : Module) (f : Function) (done rest : List BlockId) : Prop where
  layout : f.layout = done ++ rest
  nodup : (done ++ rest).Nodup
  exist : ∀ id : Nat, id ∈ done ++ rest → id < f.blocks.size
  finished : ∀ id ∈ done, ∃ b t, f.block? id = some b ∧ b.terminator? = some t ∧
    ∀ s : Nat, s ∈ t.successors → s < f.blocks.size
  unfinished : ∀ id b, f.block? id = some b → id ∉ done → b.terminator? = none
  empty : ∀ id b, f.block? id = some b → id ∉ done ++ rest → b.insts = []
  numbered : (done ++ rest).flatMap f.instsAt = List.range f.insts.size
  insts : ∀ id ∈ done ++ rest, ∀ j i inst, (f.instsAt id)[j]? = some i → f.inst? i = some inst →
    inst.TypedBy m (f.UsesBelow i) (fun v ty => f.operandTy? v = some ty) (f.placement.preds id) ∧
      (inst.op.isPhi = true → j = 0)
  ends : ∀ k id b t, done[k]? = some id → f.block? id = some b → b.terminator? = some t →
    t.TypedBy f.ret (f.UsesBelow (f.instsBefore done (k + 1)))

/-- Only finished blocks have edges. -/
theorem edges_of_layout {f : Function} {done rest : List BlockId} (h : f.layout = done ++ rest)
    (hopen : ∀ id ∈ rest, ∀ b, f.block? id = some b → b.terminator? = none) :
    f.placement.edges = f.edgesFrom done := by
  show f.edgesFrom f.layout = f.edgesFrom done
  rw [h, edgesFrom_append]
  have hrest : f.edgesFrom rest = [] := by
    refine List.flatMap_eq_nil_iff.2 fun id hid => ?_
    rw [succsAt_of_unfinished (hopen id hid), List.map_nil]
  rw [hrest, List.append_nil]

theorem preds_congr {f g : Function} (h : g.placement.edges = f.placement.edges) (id : BlockId) :
    g.placement.preds id = f.placement.preds id := by
  rw [Placement.preds, Placement.preds, h]

namespace Tidy

variable {m : Module} {f g : Function} {done rest : List BlockId}

theorem not_mem_done (h : f.Tidy m done rest) {id : BlockId} (hid : id ∈ rest) : id ∉ done := by
  intro hdone
  have := (List.nodup_append.1 h.nodup).2.2 id hdone id hid
  exact this rfl

theorem unfinished_rest (h : f.Tidy m done rest) :
    ∀ id ∈ rest, ∀ b, f.block? id = some b → b.terminator? = none :=
  fun id hid b hb => h.unfinished id b hb (h.not_mem_done hid)

theorem edges (h : f.Tidy m done rest) : f.placement.edges = f.edgesFrom done :=
  edges_of_layout h.layout h.unfinished_rest

/-- Every edge leads to a block that exists. -/
theorem edge_lt (h : f.Tidy m done rest) {source target : Nat}
    (he : (source, target) ∈ f.placement.edges) : target < f.blocks.size := by
  rw [h.edges, edgesFrom, List.mem_flatMap] at he
  obtain ⟨id, hid, he⟩ := he
  obtain ⟨s, hs, heq⟩ := List.mem_map.1 he
  obtain ⟨-, rfl⟩ := Prod.mk.inj heq
  obtain ⟨b, t, hb, ht, hsuccs⟩ := h.finished id hid
  rw [succsAt_of_block? hb ht] at hs
  exact hsuccs s hs

theorem inst_lt (h : f.Tidy m done rest) {id : BlockId} (hid : id ∈ done ++ rest) {j : Nat}
    {i : InstId} (hj : (f.instsAt id)[j]? = some i) : i < f.insts.size := by
  have hmem : i ∈ (done ++ rest).flatMap f.instsAt :=
    List.mem_flatMap.2 ⟨id, hid, List.mem_of_getElem? hj⟩
  rw [h.numbered] at hmem
  exact List.mem_range.1 hmem

/-! What an extension keeps. -/

theorem block_done (h : f.Tidy m done rest) (hfg : f.Extends g) {id : BlockId} (hid : id ∈ done) :
    g.block? id = f.block? id := by
  obtain ⟨b, t, hb, ht, -⟩ := h.finished id hid
  rw [hb, hfg.block_of_finished hb ht]

theorem finished_of_extends (h : f.Tidy m done rest) (hfg : f.Extends g) :
    ∀ id ∈ done, ∃ b t, g.block? id = some b ∧ b.terminator? = some t ∧
      ∀ s : Nat, s ∈ t.successors → s < g.blocks.size := by
  intro id hid
  obtain ⟨b, t, hb, ht, hs⟩ := h.finished id hid
  rw [h.block_done hfg hid]
  exact ⟨b, t, hb, ht, fun s hs' => Nat.lt_of_lt_of_le (hs s hs') hfg.size_blocks⟩

theorem edgesFrom_done (h : f.Tidy m done rest) (hfg : f.Extends g) :
    g.edgesFrom done = f.edgesFrom done :=
  edgesFrom_congr fun _ hid => succsAt_congr (h.block_done hfg hid)

/-- No edges are added while no block is finished. -/
theorem preds_of_extends (h : f.Tidy m done rest) (hfg : f.Extends g) {rest' : List BlockId}
    (hlayout : g.layout = done ++ rest')
    (hopen : ∀ id ∈ rest', ∀ b, g.block? id = some b → b.terminator? = none) (id : BlockId) :
    g.placement.preds id = f.placement.preds id := by
  refine preds_congr ?_ id
  rw [edges_of_layout hlayout hopen, h.edges, h.edgesFrom_done hfg]

/-- An instruction that was typed stays typed while its block gets no further edges. -/
theorem insts_of_extends (h : f.Tidy m done rest) (hfg : f.Extends g) {id : BlockId}
    (hid : id ∈ done ++ rest) (hpreds : g.placement.preds id = f.placement.preds id) {j : Nat}
    {i : InstId} {inst : Inst} (hj : (f.instsAt id)[j]? = some i) (hi : g.inst? i = some inst) :
    inst.TypedBy m (g.UsesBelow i) (fun v ty => g.operandTy? v = some ty) (g.placement.preds id) ∧
      (inst.op.isPhi = true → j = 0) := by
  have hlt : i < f.insts.size := h.inst_lt hid hj
  have hold : f.inst? i = some f.insts[i] := Array.getElem?_eq_getElem hlt
  have heq : f.insts[i] = inst := Option.some.inj ((hfg.insts i _ hold).symm.trans hi)
  rw [heq] at hold
  obtain ⟨htyped, hphi⟩ := h.insts id hid j i inst hj hold
  rw [hpreds]
  exact ⟨htyped.mono (fun v ty hv => hv.mono hfg (Nat.le_refl i)) fun v ty hv => hfg.operandTy? hv,
    hphi⟩

theorem ends_of_extends (h : f.Tidy m done rest) (hfg : f.Extends g) {k : Nat} {id : BlockId}
    {b : Block} {t : Terminator} (hk : done[k]? = some id) (hb : g.block? id = some b)
    (ht : b.terminator? = some t) :
    t.TypedBy g.ret (g.UsesBelow (g.instsBefore done (k + 1))) := by
  rw [h.block_done hfg (List.mem_of_getElem? hk)] at hb
  have hinsts : g.instsBefore done (k + 1) = f.instsBefore done (k + 1) :=
    congrArg List.length (List.flatMap_congr fun id' hid' =>
      instsAt_congr (h.block_done hfg (List.mem_of_mem_take hid')))
  rw [hinsts, hfg.ret]
  exact (h.ends k id b t hk hb ht).mono fun v ty hv => hv.mono hfg (Nat.le_refl _)

/-! ### Operations that keep it in order -/

section Operations

variable {b : Builder} {here : BlockId}

/-- An instruction whose operands are there can be added; a `phi` only at the start of a block. -/
theorem push (h : b.function.Tidy m done [here]) (hc : b.cursor? = some here) {name : String}
    {ty : Ty} {op : Op}
    (htyped : ∀ name', (⟨name', ty, op⟩ : Inst).TypedBy m
      (b.function.UsesBelow b.function.insts.size)
      (fun v ty => b.function.operandTy? v = some ty) (b.function.placement.preds here))
    (hphi : op.isPhi = true → b.function.instsAt here = []) :
    (b.push name ty op).2.function.Tidy m done [here] := by
  have hext : b.function.Extends (b.push name ty op).2.function :=
    Builder.extends_push name ty op hc (h.unfinished_rest here (by simp))
  have hblock := Builder.block?_push name ty op hc
  have hinsts := Builder.instsAt_push name ty op hc (h.exist here (by simp))
  have hother : ∀ id ∈ done, (b.push name ty op).2.function.instsAt id = b.function.instsAt id :=
    fun id hid => instsAt_congr (h.block_done hext hid)
  have hlayout : (b.push name ty op).2.function.layout = done ++ [here] := by
    rw [Builder.layout_push, h.layout]
  have hopen : ∀ id blk, (b.push name ty op).2.function.block? id = some blk → id ∉ done →
      blk.terminator? = none := by
    intro id blk hblk hid
    rw [hblock] at hblk
    split at hblk
    · obtain ⟨old, hold, rfl⟩ := Option.map_eq_some_iff.1 hblk
      exact h.unfinished id old hold hid
    · exact h.unfinished id blk hblk hid
  have hpreds := h.preds_of_extends hext hlayout fun id hid blk hblk =>
    hopen id blk hblk (h.not_mem_done hid)
  refine ⟨hlayout, h.nodup, ?_, h.finished_of_extends hext, hopen, ?_, ?_, ?_,
    fun k id blk t hk hb ht => h.ends_of_extends hext hk hb ht⟩
  · intro id hid
    rw [Builder.size_blocks_push]
    exact h.exist id hid
  · intro id blk hblk hid
    have hne : here ≠ id := by
      intro e
      exact hid (by simp [e])
    rw [hblock, if_neg hne] at hblk
    exact h.empty id blk hblk hid
  · have hnum := h.numbered
    rw [List.flatMap_append, List.flatMap_singleton] at hnum ⊢
    rw [List.flatMap_congr hother, hinsts, ← List.append_assoc, hnum, Builder.size_insts_push,
      List.range_succ]
  · intro id hid j i inst hj hi
    by_cases hid' : id = here
    · subst hid'
      rw [hinsts] at hj
      by_cases hj' : j < (b.function.instsAt id).length
      · rw [List.getElem?_append_left hj'] at hj
        exact h.insts_of_extends hext hid (hpreds id) hj hi
      · -- the instruction that was added
        rw [List.getElem?_append_right (Nat.not_lt.1 hj'), List.getElem?_singleton] at hj
        split at hj
        · next hj₀ =>
          obtain rfl := Option.some.inj hj
          rw [Builder.inst?_push, if_pos rfl] at hi
          obtain rfl := Option.some.inj hi
          rw [hpreds]
          refine ⟨(htyped _).mono (fun v ty hv => hv.mono hext (Nat.le_refl _))
            fun v ty hv => hext.operandTy? hv, fun hp => ?_⟩
          rw [hphi hp, List.length_nil] at hj₀
          omega
        · cases hj
    · have hdone : id ∈ done := by simpa [hid'] using hid
      rw [hother id hdone] at hj
      exact h.insts_of_extends hext hid (hpreds id) hj hi

/-- A block can be made at any time. -/
theorem createBlock (h : b.function.Tidy m done rest) (label : String) :
    (b.createBlock label).2.function.Tidy m done rest := by
  have hext : b.function.Extends (b.createBlock label).2.function :=
    Builder.extends_createBlock label
  have hblock := Builder.block?_createBlock label (b := b)
  have hold : ∀ id ∈ done ++ rest,
      (b.createBlock label).2.function.block? id = b.function.block? id := by
    intro id hid
    rw [hblock, if_neg (Nat.ne_of_lt (h.exist id hid))]
  have hlayout : (b.createBlock label).2.function.layout = done ++ rest := by
    rw [Builder.layout_createBlock, h.layout]
  have hopen : ∀ id blk, (b.createBlock label).2.function.block? id = some blk → id ∉ done →
      blk.terminator? = none := by
    intro id blk hblk hid
    rw [hblock] at hblk
    split at hblk
    · obtain rfl := Option.some.inj hblk
      rfl
    · exact h.unfinished id blk hblk hid
  have hpreds := h.preds_of_extends hext hlayout fun id hid blk hblk =>
    hopen id blk hblk (h.not_mem_done hid)
  refine ⟨hlayout, h.nodup, ?_, h.finished_of_extends hext, hopen, ?_, ?_, ?_,
    fun k id blk t hk hb ht => h.ends_of_extends hext hk hb ht⟩
  · intro id hid
    rw [Builder.size_blocks_createBlock]
    exact Nat.lt_succ_of_lt (h.exist id hid)
  · intro id blk hblk hid
    rw [hblock] at hblk
    split at hblk
    · obtain rfl := Option.some.inj hblk
      rfl
    · exact h.empty id blk hblk hid
  · rw [List.flatMap_congr fun id hid => instsAt_congr (hold id hid), Builder.insts_createBlock,
      h.numbered]
  · intro id hid j i inst hj hi
    rw [instsAt_congr (hold id hid)] at hj
    exact h.insts_of_extends hext hid (hpreds id) hj hi

/-- Finishing a block adds the edges of its end. -/
theorem edges_terminate (h : b.function.Tidy m done [here]) (hc : b.cursor? = some here)
    (t : Terminator) :
    (b.terminate t).function.placement.edges =
      b.function.placement.edges ++ t.successors.map fun s => (here, s) := by
  have hext : b.function.Extends (b.terminate t).function :=
    Builder.extends_terminate t hc (h.unfinished_rest here (by simp))
  have hlt : here < b.function.blocks.size := h.exist here (by simp)
  have hhere : b.function.block? here = some b.function.blocks[here] :=
    Array.getElem?_eq_getElem hlt
  have hsuccs : (b.terminate t).function.succsAt here = t.successors := by
    refine succsAt_of_block? (b := { b.function.blocks[here] with terminator? := some t }) ?_ rfl
    rw [Builder.block?_terminate t hc, if_pos rfl, hhere]
    rfl
  show (b.terminate t).function.edgesFrom (b.terminate t).function.layout = _
  rw [Builder.layout_terminate, h.layout, edgesFrom_append, h.edgesFrom_done hext, h.edges]
  show _ ++ edgesFrom _ [here] = _
  rw [edgesFrom_cons, hsuccs]
  show _ ++ (_ ++ []) = _
  rw [List.append_nil]

/-- The block at the cursor can be finished with edges to blocks that have no place yet. -/
theorem terminate (h : b.function.Tidy m done [here]) (hc : b.cursor? = some here)
    {t : Terminator} (ht : t.TypedBy b.function.ret (b.function.UsesBelow b.function.insts.size))
    (hs : ∀ s : Nat, s ∈ t.successors → s < b.function.blocks.size ∧ s ∉ done ++ [here]) :
    (b.terminate t).function.Tidy m (done ++ [here]) [] := by
  have hext : b.function.Extends (b.terminate t).function :=
    Builder.extends_terminate t hc (h.unfinished_rest here (by simp))
  have hblock := Builder.block?_terminate t hc
  have hlt : here < b.function.blocks.size := h.exist here (by simp)
  have hhere : (b.terminate t).function.block? here =
      some { b.function.blocks[here] with terminator? := some t } := by
    have hold : b.function.block? here = some b.function.blocks[here] :=
      Array.getElem?_eq_getElem hlt
    rw [hblock, if_pos rfl, hold]
    rfl
  have hother : ∀ id, id ∉ done ++ [here] →
      (b.terminate t).function.block? id = b.function.block? id := by
    intro id hid
    rw [hblock, if_neg]
    intro e
    exact hid (by simp [e])
  have hinsts : ∀ id, (b.terminate t).function.instsAt id = b.function.instsAt id := by
    intro id
    rw [instsAt, instsAt, hblock]
    split
    · cases b.function.block? id <;> rfl
    · rfl
  have hpreds : ∀ id ∈ done ++ [here], (b.terminate t).function.placement.preds id =
      b.function.placement.preds id := by
    intro id hid
    have hnone : (t.successors.map fun s => (here, s)).filter (fun e => e.2 == id) = [] := by
      rw [List.filter_eq_nil_iff]
      intro e he
      obtain ⟨s, hsucc, rfl⟩ := List.mem_map.1 he
      intro heq
      have : s = id := by simpa using heq
      exact (hs s hsucc).2 (this ▸ hid)
    rw [Placement.preds, h.edges_terminate hc, List.filter_append, hnone, List.append_nil]
    rfl
  refine ⟨by simp [h.layout], by simpa using h.nodup, ?_, ?_, ?_, ?_, ?_, ?_, ?_⟩
  · intro id hid
    rw [List.append_nil] at hid
    rw [Builder.size_blocks_terminate]
    exact h.exist id hid
  · intro id hid
    rcases List.mem_append.1 hid with hid | hid
    · exact h.finished_of_extends hext id hid
    · obtain rfl := List.mem_singleton.1 hid
      refine ⟨_, t, hhere, rfl, fun s hsucc => ?_⟩
      rw [Builder.size_blocks_terminate]
      exact (hs s hsucc).1
  · intro id blk hblk hid
    rw [hother id hid] at hblk
    exact h.unfinished id blk hblk fun hdone => hid (List.mem_append_left _ hdone)
  · intro id blk hblk hid
    rw [List.append_nil] at hid
    rw [hother id hid] at hblk
    exact h.empty id blk hblk hid
  · rw [List.append_nil, List.flatMap_congr fun id _ => hinsts id, Builder.insts_terminate, h.numbered]
  · intro id hid j i inst hj hi
    rw [List.append_nil] at hid
    rw [hinsts] at hj
    exact h.insts_of_extends hext hid (hpreds id hid) hj hi
  · intro k id blk t' hk hb ht'
    by_cases hk' : k < done.length
    · rw [List.getElem?_append_left hk'] at hk
      rw [instsBefore, List.take_append_of_le_length hk']
      exact h.ends_of_extends hext hk hb ht'
    · -- the block that was finished just now is the last one
      have hlen := (List.getElem?_eq_some_iff.1 hk).1
      rw [List.length_append, List.length_singleton] at hlen
      have hk₀ : k = done.length := by omega
      rw [List.getElem?_append_right (Nat.not_lt.1 hk'), hk₀, Nat.sub_self] at hk
      obtain rfl : here = id := Option.some.inj hk
      obtain rfl := Option.some.inj (hhere.symm.trans hb)
      obtain rfl := Option.some.inj ht'
      have hall : (done ++ [here]).take (k + 1) = done ++ [here] := by
        rw [hk₀]
        exact List.take_of_length_le (by simp)
      rw [instsBefore, hall, List.flatMap_congr fun id _ => hinsts id, h.numbered,
        List.length_range, hext.ret]
      exact ht.mono fun v ty hv => hv.mono hext (Nat.le_refl _)

/-- A block without a place can be given one at the end. -/
theorem append (h : b.function.Tidy m done []) {next : Nat}
    (hlt : next < b.function.blocks.size) (hnew : next ∉ done) :
    (b.appendBlock next).function.Tidy m done [next] := by
  have hext : b.function.Extends (b.appendBlock next).function := Builder.extends_appendBlock next
  have hblock : ∀ id, (b.appendBlock next).function.block? id = b.function.block? id := by
    intro id
    rw [block?, block?, Builder.blocks_appendBlock]
  have hold : b.function.layout = done := by rw [h.layout, List.append_nil]
  have hlayout : (b.appendBlock next).function.layout = done ++ [next] := by
    rw [Builder.layout_appendBlock (by rw [hold]; exact hnew), hold]
  have hopen : ∀ id blk, (b.appendBlock next).function.block? id = some blk → id ∉ done →
      blk.terminator? = none := by
    intro id blk hblk hid
    rw [hblock] at hblk
    exact h.unfinished id blk hblk hid
  have hpreds := h.preds_of_extends hext hlayout fun id hid blk hblk =>
    hopen id blk hblk (List.mem_singleton.1 hid ▸ hnew)
  have hnext : (b.appendBlock next).function.instsAt next = [] := by
    have hb : b.function.block? next = some b.function.blocks[next] := Array.getElem?_eq_getElem hlt
    rw [instsAt_congr (hblock next), instsAt_of_block? hb]
    exact h.empty next _ hb (by simpa using hnew)
  refine ⟨hlayout, ?_, ?_, h.finished_of_extends hext, hopen, ?_, ?_, ?_,
    fun k id blk t hk hb ht => h.ends_of_extends hext hk hb ht⟩
  · have hn := h.nodup
    rw [List.append_nil] at hn
    exact hn.append (List.nodup_singleton next) (by simpa using hnew)
  · intro id hid
    rw [Builder.blocks_appendBlock]
    rcases List.mem_append.1 hid with hid | hid
    · exact h.exist id (List.mem_append_left _ hid)
    · exact List.mem_singleton.1 hid ▸ hlt
  · intro id blk hblk hid
    rw [hblock] at hblk
    refine h.empty id blk hblk fun hin => hid ?_
    rw [List.append_nil] at hin
    exact List.mem_append_left _ hin
  · have hnum := h.numbered
    rw [List.append_nil] at hnum
    rw [List.flatMap_append, List.flatMap_singleton, hnext, List.append_nil,
      List.flatMap_congr fun id _ => instsAt_congr (hblock id), hnum, Builder.insts_appendBlock]
  · intro id hid j i inst hj hi
    rcases List.mem_append.1 hid with hid | hid
    · rw [instsAt_congr (hblock id)] at hj
      exact h.insts_of_extends hext (List.mem_append_left _ hid) (hpreds id) hj hi
    · rw [List.mem_singleton.1 hid, hnext] at hj
      cases hj

/-- The two steps together: the block at the cursor is finished, and another goes on. -/
theorem moveTo (h : b.function.Tidy m done [here]) (hc : b.cursor? = some here)
    {t : Terminator} (ht : t.TypedBy b.function.ret (b.function.UsesBelow b.function.insts.size))
    (hs : ∀ s : Nat, s ∈ t.successors → s < b.function.blocks.size ∧ s ∉ done ++ [here])
    {next : Nat}
    (hlt : next < b.function.blocks.size) (hnew : next ∉ done ++ [here]) :
    (b.moveTo t next).function.Tidy m (done ++ [here]) [next] :=
  (h.terminate hc ht hs).append (by rw [Builder.size_blocks_terminate]; exact hlt) hnew

end Operations

/-! ### Finished functions -/

/-- The instruction at a place of the layout has the number of the instructions before it. -/
theorem inst_eq (h : f.Tidy m done []) {k j i : Nat} {id : BlockId}
    (hk : done[k]? = some id) (hj : (f.instsAt id)[j]? = some i) : i = f.instsBefore done k + j := by
  have hget : (done.flatMap f.instsAt)[f.instsBefore done k + j]? = some i := by
    have hsplit : done = done.take k ++ id :: done.drop (k + 1) := by
      obtain ⟨hlt, rfl⟩ := List.getElem?_eq_some_iff.1 hk
      rw [List.getElem_cons_drop, List.take_append_drop]
    have hj' : j < (f.instsAt id).length := (List.getElem?_eq_some_iff.1 hj).1
    have hflat : done.flatMap f.instsAt = (done.take k).flatMap f.instsAt ++
        (f.instsAt id ++ (done.drop (k + 1)).flatMap f.instsAt) := by
      rw [← List.flatMap_cons, ← List.flatMap_append, ← hsplit]
    rw [hflat, instsBefore, List.getElem?_append_right (Nat.le_add_right _ j), Nat.add_sub_cancel_left,
      List.getElem?_append_left hj', hj]
  have hnum := h.numbered
  rw [List.append_nil] at hnum
  rw [hnum] at hget
  have hlt := (List.getElem?_eq_some_iff.1 hget).1
  rw [List.length_range] at hlt
  rw [List.getElem?_range hlt] at hget
  exact (Option.some.inj hget).symm

theorem complete (h : f.Tidy m done []) (hne : done ≠ [])
    (hall : ∀ id < f.blocks.size, id ∈ done) : f.Complete := by
  have hlayout : f.layout = done := by rw [h.layout, List.append_nil]
  have hnodup : done.Nodup := by simpa using h.nodup
  have hnum : done.flatMap f.instsAt = List.range f.insts.size := by simpa using h.numbered
  have hexist : ∀ id ∈ done, id < f.blocks.size := by simpa using h.exist
  have hperm : done.Perm (List.range f.blocks.size) :=
    (List.perm_ext_iff_of_nodup hnodup List.nodup_range).2 fun id =>
      ⟨fun hid => List.mem_range.2 (hexist id hid), fun hid => hall id (List.mem_range.1 hid)⟩
  refine ⟨?_, ?_, ?_, ?_, ?_, ?_⟩
  · rw [hlayout]
    exact hne
  · rw [hlayout, hperm.length_eq, List.length_range]
  · rw [hlayout]
    exact hnodup
  · intro id hid
    rw [hlayout] at hid
    obtain ⟨b, t, hb, ht, hs⟩ := h.finished id hid
    refine ⟨b, t, hb, ht, fun i hi => ?_, fun s hsucc => ?_⟩
    · rw [← instsAt_of_block? hb] at hi
      obtain ⟨j, hj⟩ := List.mem_iff_getElem?.1 hi
      exact inst?_isSome_iff.2 (h.inst_lt (List.mem_append_left _ hid) hj)
    · exact block?_isSome_iff.2 (hs s hsucc)
  · rw [hlayout, hnum]
    exact List.nodup_range
  · rw [hlayout, hnum, List.length_range]

/-- Every instruction has a place. -/
theorem site (h : f.Tidy m done []) (hc : f.Complete) {i : InstId} (hi : i < f.insts.size) :
    ∃ k j id, f.placement.site? i = some ⟨k, j⟩ ∧ done[k]? = some id ∧
      (f.instsAt id)[j]? = some i := by
  have hmem : i ∈ (done ++ []).flatMap f.instsAt := by
    rw [h.numbered]
    exact List.mem_range.2 hi
  rw [List.append_nil] at hmem
  obtain ⟨id, hid, hin⟩ := List.mem_flatMap.1 hmem
  obtain ⟨k, hk⟩ := List.mem_iff_getElem?.1 hid
  obtain ⟨j, hj⟩ := List.mem_iff_getElem?.1 hin
  refine ⟨k, j, id, hc.site?_eq_some_iff.2 ⟨id, ?_, hj⟩, hk, hj⟩
  rw [h.layout, List.append_nil]
  exact hk

/-- Instructions are numbered along the layout, so that one with a smaller number comes before. -/
theorem uses (h : f.Tidy m done []) (hc : f.Complete) {k j : Nat} {id : BlockId}
    (hk : done[k]? = some id) (hj : j ≤ (f.instsAt id).length) {v : Operand} {ty : Ty}
    (hv : f.UsesBelow (f.instsBefore done k + j) v ty) : f.Uses (some ⟨k, j⟩) v ty := by
  refine uses_of_operandTy? hv.1 fun i hi => ?_
  obtain ⟨k', j', id', hsite, hk', hj'⟩ := h.site hc (inst_lt_of_operandTy? (hi ▸ hv.1))
  refine ⟨_, hsite, ?_⟩
  intro s hs
  obtain rfl := Option.some.inj hs
  have hnum := h.inst_eq hk' hj'
  have hlt := hv.2 i hi
  have hsucc := instsBefore_succ (f := f) hk
  show (decide (k' < k) || (k' == k && decide (j' < j))) = true
  rcases Nat.lt_trichotomy k' k with hkk | hkk | hkk
  · simp [hkk]
  · subst hkk
    have hjj : j' < j := by omega
    simp [hjj]
  · -- a later block starts behind all instructions of this one
    have hmono : f.instsBefore done (k + 1) ≤ f.instsBefore done k' := instsBefore_mono f done hkk
    omega

theorem uses_none (h : f.Tidy m done []) (hc : f.Complete) {v : Operand} {ty : Ty}
    (hv : f.operandTy? v = some ty) : f.Uses none v ty := by
  refine uses_of_operandTy? hv fun i hi => ?_
  obtain ⟨k, j, id, hsite, -⟩ := h.site hc (inst_lt_of_operandTy? (hi ▸ hv))
  exact ⟨_, hsite, by simp⟩

/-- **Once every block is finished, the function is verified.** -/
theorem verified (h : f.Tidy m done []) (hne : done ≠ [])
    (hall : ∀ id < f.blocks.size, id ∈ done) : f.Verified m := by
  have hc := h.complete hne hall
  refine ⟨hc, fun k id hk => ?_⟩
  rw [h.layout, List.append_nil] at hk
  have hid : id ∈ done := List.mem_of_getElem? hk
  obtain ⟨b, t, hb, ht, -⟩ := h.finished id hid
  have hinsts := instsAt_of_block? hb
  refine ⟨b, hb, ?_, ?_, ?_⟩
  · intro j i inst hj hi
    rw [← hinsts] at hj
    obtain ⟨htyped, -⟩ := h.insts id (List.mem_append_left _ hid) j i inst hj hi
    refine htyped.mono (fun v ty hv => h.uses hc hk ?_ ?_) fun v ty hv => h.uses_none hc hv
    · exact Nat.le_of_lt (List.getElem?_eq_some_iff.1 hj).1
    · rw [← h.inst_eq hk hj]
      exact hv
  · intro j i inst hj hi hphi
    rw [← hinsts] at hj
    obtain ⟨-, hzero⟩ := h.insts id (List.mem_append_left _ hid) j i inst hj hi
    rw [hzero hphi]
    exact phisBefore_zero f b.insts
  · intro t' ht'
    refine (h.ends k id b t' hk hb ht').mono fun v ty hv => ?_
    rw [← hinsts]
    refine h.uses hc hk (Nat.le_refl _) ?_
    rw [← instsBefore_succ hk]
    exact hv

end Tidy

end Function

/-! ### One builder after another -/

namespace Builder

variable {n : Nat} {b b₁ b₂ : Builder} {m : Module} {done rest : List BlockId} {here : BlockId}

@[simp] theorem size_blocks_moveTo (t : Terminator) (next : BlockId) :
    (b.moveTo t next).function.blocks.size = b.function.blocks.size := by
  simp [moveTo, position]

theorem edges_moveTo {t : Terminator} {next : BlockId} (h : b.function.Tidy m done [here])
    (hc : b.cursor? = some here) (h' : (b.moveTo t next).function.Tidy m (done ++ [here]) [next]) :
    (b.moveTo t next).function.placement.edges =
      b.function.placement.edges ++ t.successors.map fun s => (here, s) := by
  rw [h'.edges, ← h.edges_terminate hc]
  show ((b.terminate t).appendBlock next).function.edgesFrom (done ++ [here]) =
    (b.terminate t).function.edgesFrom (b.terminate t).function.layout
  rw [layout_terminate, h.layout]
  refine Function.edgesFrom_congr fun id _ => Function.succsAt_congr ?_
  rw [Function.block?, Function.block?, blocks_appendBlock]

/-- The builder `b₂` comes after `b₁`.  What has been added concerns blocks from `n` on and the block at
the cursor. -/
structure After (n : Nat) (b₁ b₂ : Builder) : Prop where
  grown : b₁.function.Extends b₂.function
  others : ∀ id : Nat, id < n → b₁.cursor? ≠ some id →
    b₂.function.block? id = b₁.function.block? id
  layout : ∃ ids, b₂.function.layout = b₁.function.layout ++ ids ∧ ∀ id : Nat, id ∈ ids → n ≤ id
  edges : ∃ es, b₂.function.placement.edges = b₁.function.placement.edges ++ es ∧ ∀ e ∈ es, n ≤ e.2
  cursor : b₂.cursor? = b₁.cursor? ∨ ∃ id : Nat, b₂.cursor? = some id ∧ n ≤ id

namespace After

theorem refl (n : Nat) (b : Builder) : After n b b :=
  ⟨.refl _, fun _ _ _ => rfl, ⟨[], by simp⟩, ⟨[], by simp⟩, .inl rfl⟩

theorem mono {n' : Nat} (hn : n' ≤ n) (h : After n b₁ b₂) : After n' b₁ b₂ := by
  obtain ⟨ids, hids, hle⟩ := h.layout
  obtain ⟨es, hes, hle'⟩ := h.edges
  refine ⟨h.grown, fun id hid => h.others id (Nat.lt_of_lt_of_le hid hn),
    ⟨ids, hids, fun id hid => Nat.le_trans hn (hle id hid)⟩,
    ⟨es, hes, fun e he => Nat.le_trans hn (hle' e he)⟩, ?_⟩
  rcases h.cursor with hc | ⟨id, hc, hid⟩
  · exact .inl hc
  · exact .inr ⟨id, hc, Nat.le_trans hn hid⟩

theorem trans {b₃ : Builder} (h : After n b₁ b₂) (h' : After n b₂ b₃) : After n b₁ b₃ := by
  obtain ⟨ids, hids, hle⟩ := h.layout
  obtain ⟨ids', hids', hle'⟩ := h'.layout
  obtain ⟨es, hes, hlt⟩ := h.edges
  obtain ⟨es', hes', hlt'⟩ := h'.edges
  refine ⟨h.grown.trans h'.grown, ?_, ⟨ids ++ ids', ?_, ?_⟩, ⟨es ++ es', ?_, ?_⟩, ?_⟩
  · intro id hid hne
    rw [h'.others id hid, h.others id hid hne]
    -- the cursor has stayed, or it has moved to a block from `n` on
    rcases h.cursor with hc | ⟨c, hc, hle⟩
    · rw [hc]
      exact hne
    · intro e
      have hid' : c = id := Option.some.inj (hc.symm.trans e)
      exact absurd hid (Nat.not_lt.2 (hid' ▸ hle))
  · rw [hids', hids, List.append_assoc]
  · intro id hid
    rcases List.mem_append.1 hid with hid | hid
    · exact hle id hid
    · exact hle' id hid
  · rw [hes', hes, List.append_assoc]
  · intro e he
    rcases List.mem_append.1 he with he | he
    · exact hlt e he
    · exact hlt' e he
  · rcases h'.cursor with hc | hc
    · rw [hc]
      exact h.cursor
    · exact .inr hc

theorem preds (h : After n b₁ b₂) {id : Nat} (hid : id < n) :
    b₂.function.placement.preds id = b₁.function.placement.preds id := by
  obtain ⟨es, hes, hle⟩ := h.edges
  have hnone : es.filter (fun e => e.2 == id) = [] := by
    rw [List.filter_eq_nil_iff]
    intro e he heq
    have : e.2 = id := by simpa using heq
    exact absurd hid (Nat.not_lt.2 (this ▸ hle e he))
  rw [Placement.preds, Placement.preds, hes, List.filter_append, hnone, List.append_nil]

theorem not_mem_layout (h : After n b₁ b₂) {id : Nat} (hid : id < n)
    (hnew : id ∉ b₁.function.layout) : id ∉ b₂.function.layout := by
  obtain ⟨ids, hids, hle⟩ := h.layout
  rw [hids, List.mem_append]
  intro hin
  rcases hin with hin | hin
  · exact hnew hin
  · exact absurd hid (Nat.not_lt.2 (hle id hin))

theorem mem_layout (h : After n b₁ b₂) {id : BlockId} (hid : id ∈ b₁.function.layout) :
    id ∈ b₂.function.layout := by
  obtain ⟨ids, hids, -⟩ := h.layout
  rw [hids]
  exact List.mem_append_left _ hid

/-- No edges are added while no block is finished. -/
theorem of_extends (h : b₁.function.Tidy m done rest) {rest' : List BlockId}
    (h' : b₂.function.Tidy m done rest') (hext : b₁.function.Extends b₂.function)
    (hothers : ∀ id : Nat, id < n → b₁.cursor? ≠ some id →
      b₂.function.block? id = b₁.function.block? id)
    (hlayout : b₂.function.layout = b₁.function.layout) (hcursor : b₂.cursor? = b₁.cursor?) :
    After n b₁ b₂ := by
  refine ⟨hext, hothers, ⟨[], by rw [hlayout, List.append_nil], by simp⟩, ⟨[], ?_, by simp⟩,
    .inl hcursor⟩
  rw [List.append_nil, h'.edges, h.edges, h.edgesFrom_done hext]

theorem push {name : String} {ty : Ty} {op : Op} (h : b.function.Tidy m done [here])
    (hc : b.cursor? = some here) (h' : (b.push name ty op).2.function.Tidy m done [here]) :
    After n b (b.push name ty op).2 := by
  refine of_extends h h' (extends_push name ty op hc (h.unfinished_rest here (by simp))) ?_
    (layout_push name ty op) (cursor?_push name ty op)
  intro id _ hne
  rw [block?_push name ty op hc, if_neg]
  intro e
  exact hne (e ▸ hc)

theorem createBlock (h : b.function.Tidy m done rest) (label : String)
    (hn : n ≤ b.function.blocks.size) : After n b (b.createBlock label).2 := by
  refine of_extends h (h.createBlock label) (extends_createBlock label) ?_
    (layout_createBlock label) rfl
  intro id hid _
  rw [block?_createBlock, if_neg (Nat.ne_of_lt (Nat.lt_of_lt_of_le hid hn))]

/-- Going on in another block keeps to blocks from `n` on if it and its successors are such blocks. -/
theorem moveTo (h : b.function.Tidy m done [here]) (hc : b.cursor? = some here) {t : Terminator}
    {next : Nat} (h' : (b.moveTo t next).function.Tidy m (done ++ [here]) [next])
    (hs : ∀ s : Nat, s ∈ t.successors → n ≤ s) (hn : n ≤ next) : After n b (b.moveTo t next) := by
  have hext : b.function.Extends (b.moveTo t next).function :=
    (extends_terminate t hc (h.unfinished_rest here (by simp))).trans (extends_appendBlock next)
  refine ⟨hext, ?_, ⟨[next], ?_, ?_⟩, ⟨t.successors.map fun s => (here, s), ?_, ?_⟩,
    .inr ⟨next, rfl, hn⟩⟩
  · intro id _ hne
    show ((b.terminate t).appendBlock next).function.block? id = _
    rw [Function.block?, blocks_appendBlock]
    show (b.terminate t).function.block? id = _
    rw [block?_terminate t hc, if_neg]
    intro e
    exact hne (e ▸ hc)
  · rw [h'.layout, h.layout]
  · intro id hid
    exact List.mem_singleton.1 hid ▸ hn
  · exact edges_moveTo h hc h'
  · intro e he
    obtain ⟨s, hsucc, rfl⟩ := List.mem_map.1 he
    exact hs s hsucc

end After

/-! ### Branches -/

theorem branch_eq (b : Builder) (test : Operand) :
    b.branch test =
      (⟨b.function.blocks.size, b.function.blocks.size + 1, b.function.blocks.size + 2⟩,
        (((b.createBlock "then").2.createBlock "else").2.createBlock "ifcont").2.moveTo
          (.condBr test b.function.blocks.size (b.function.blocks.size + 1))
          b.function.blocks.size) := by
  simp [branch]

/-- A choice makes three blocks, and goes on in the first. -/
theorem tidy_branch (h : b.function.Tidy m done [here]) (hc : b.cursor? = some here)
    {test : Operand} (ht : b.function.UsesBelow b.function.insts.size test .i1) :
    (b.branch test).2.function.Tidy m (done ++ [here]) [b.function.blocks.size] ∧
      After b.function.blocks.size b (b.branch test).2 ∧
      (b.branch test).2.function.placement.edges = b.function.placement.edges ++
        [(here, b.function.blocks.size), (here, b.function.blocks.size + 1)] := by
  have h₁ := h.createBlock "then"
  have h₂ := h₁.createBlock "else"
  have h₃ := h₂.createBlock "ifcont"
  have a₁ : After b.function.blocks.size b (b.createBlock "then").2 :=
    .createBlock h "then" (Nat.le_refl _)
  have a₂ : After b.function.blocks.size b ((b.createBlock "then").2.createBlock "else").2 :=
    a₁.trans (.createBlock h₁ "else" (by simp))
  have a₃ := a₂.trans (.createBlock h₂ "ifcont" (by simp; omega))
  have hnew : ∀ id, b.function.blocks.size ≤ id → id ∉ done ++ [here] :=
    fun id hid hin => absurd (h.exist id hin) (Nat.not_lt.2 hid)
  rw [branch_eq]
  set b₃ := (((b.createBlock "then").2.createBlock "else").2.createBlock "ifcont").2
  have hsize : b₃.function.blocks.size = b.function.blocks.size + 3 := by simp [b₃]
  have hc₃ : b₃.cursor? = some here := hc
  have htest : b₃.function.UsesBelow b₃.function.insts.size test .i1 :=
    ht.mono a₃.grown a₃.grown.size_insts
  have hsuccs : ∀ s ∈ [b.function.blocks.size, b.function.blocks.size + 1],
      b.function.blocks.size ≤ s ∧ s < b₃.function.blocks.size := by
    intro s hs
    rw [List.mem_cons, List.mem_singleton] at hs
    omega
  have hmove : (b₃.moveTo (.condBr test b.function.blocks.size (b.function.blocks.size + 1))
      b.function.blocks.size).function.Tidy m (done ++ [here]) [b.function.blocks.size] := by
    refine h₃.moveTo hc₃ (show Terminator.TypedBy _ _ (.condBr test _ _) from htest) ?_
      (hsuccs _ (by simp)).2 (hnew _ (Nat.le_refl _))
    intro s hs
    exact ⟨(hsuccs s hs).2, hnew s (hsuccs s hs).1⟩
  refine ⟨hmove, a₃.trans (.moveTo h₃ hc₃ hmove (fun s hs => (hsuccs s hs).1) (Nat.le_refl _)), ?_⟩
  rw [edges_moveTo h₃ hc₃ hmove, h₃.edges, h.edges, h.edgesFrom_done a₃.grown]
  rfl

end Builder

end Ir

end ScalarLang
