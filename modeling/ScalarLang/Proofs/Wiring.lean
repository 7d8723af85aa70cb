import ScalarLang.Proofs.Availability
import ScalarLang.Proofs.Lowered
import ScalarLang.Proofs.Naming

/-!
# Building in order

Each operation of a builder keeps the blocks of the function in order, if what it adds reads available
values and leads to blocks that have no place yet.

* `Ir.Builder.Flowing` — the blocks that have a place are in order, and the cursor stands at one of them.
* `Ir.Builder.Flowing.push`, `Ir.Builder.Flowing.createBlock`, `Ir.Builder.Flowing.moveTo`,
  `Ir.Builder.Flowing.orderly_ret` — what each operation needs in order to keep it so.
* `Ir.Builder.Reaches`, `Ir.Builder.Flows` — the function has grown in order, and all ways to the cursor
  lead through some block.
* `Ir.Builder.Computes` — a value comes of instructions behind the cursor.
-/

namespace ScalarLang

namespace Ir

open Lower

/-! ### Labels and edges after each operation -/

section Tidy

variable {m : Module} {f : Function} {done rest : List BlockId}

theorem Function.Tidy.lt_of_mem_layout (h : f.Tidy m done rest) (id : Nat) (hid : id ∈ f.layout) :
    id < f.blocks.size := by
  rw [h.layout] at hid
  exact h.exist id hid

/-- A block that does not exist yet has no edges. -/
theorem Function.Tidy.preds_of_le (h : f.Tidy m done rest) {id : Nat} (hid : f.blocks.size ≤ id) :
    f.placement.preds id = [] := by
  rw [Placement.preds, List.map_eq_nil_iff, List.filter_eq_nil_iff]
  intro e he heq
  have hid' : e.2 = id := beq_iff_eq.1 heq
  exact absurd (h.edge_lt he) (Nat.not_lt.2 (hid' ▸ hid))

/-- Only blocks with a place have edges. -/
theorem Function.Tidy.placed (h : f.Tidy m done rest) {source target : BlockId}
    (hs : target ∈ f.succsAt source) : source ∈ f.layout := by
  rw [h.layout]
  refine List.mem_append_left _ ?_
  by_contra hnot
  rw [succsAt_of_unfinished fun blk hblk => h.unfinished source blk hblk hnot] at hs
  cases hs

end Tidy

namespace Builder

variable {b : Builder} {here : BlockId}

section Operations

variable (name : String) (ty : Ty) (op : Op) (label : String)

theorem succsAt_push (hc : b.cursor? = some here) (id : BlockId) :
    (b.push name ty op).2.function.succsAt id = b.function.succsAt id := by
  rw [Function.succsAt, Function.succsAt, block?_push name ty op hc]
  split
  · cases b.function.block? id <;> rfl
  · rfl

theorem instsAt_push_of_ne (hc : b.cursor? = some here) {id : BlockId} (hne : here ≠ id) :
    (b.push name ty op).2.function.instsAt id = b.function.instsAt id := by
  refine Function.instsAt_congr ?_
  rw [block?_push name ty op hc, if_neg hne]

theorem labels_push (hc : b.cursor? = some here) (id : BlockId) (blk : Block)
    (hblk : b.function.block? id = some blk) :
    ∃ blk', (b.push name ty op).2.function.block? id = some blk' ∧ blk'.label = blk.label := by
  rw [block?_push name ty op hc, hblk]
  split
  · exact ⟨_, rfl, rfl⟩
  · exact ⟨blk, rfl, rfl⟩

theorem block?_createBlock_of_some {id : BlockId} {blk : Block}
    (hblk : b.function.block? id = some blk) :
    (b.createBlock label).2.function.block? id = some blk := by
  have hlt : id < b.function.blocks.size := Function.lt_of_block? hblk
  rw [block?_createBlock, if_neg (Nat.ne_of_lt hlt)]
  exact hblk

theorem succsAt_createBlock (id : BlockId) :
    (b.createBlock label).2.function.succsAt id = b.function.succsAt id := by
  by_cases hid : id = b.function.blocks.size
  · have hnone : b.function.block? id = none := by
      rw [hid]
      exact Array.getElem?_eq_none (Nat.le_refl _)
    rw [Function.succsAt, Function.succsAt, block?_createBlock, if_pos hid, hnone]
    rfl
  · refine Function.succsAt_congr ?_
    rw [block?_createBlock, if_neg hid]

theorem labelled_createBlock : (b.createBlock label).2.function.Labelled b.function.blocks.size label := by
  refine ⟨{ label := (b.function.unique label).1 }, ?_, ?_⟩
  · rw [block?_createBlock, if_pos rfl]
  · by_cases htaken : label ∈ b.function.names
    · exact .inr (Function.unique_of_mem htaken)
    · exact .inl (Function.unique_of_not_mem htaken)

theorem block?_moveTo (hc : b.cursor? = some here) (t : Terminator) (next id : BlockId) :
    (b.moveTo t next).function.block? id =
      if here = id then (b.function.block? id).map fun blk => { blk with terminator? := some t }
      else b.function.block? id := by
  have hblock : (b.moveTo t next).function.block? id = (b.terminate t).function.block? id := by
    show ((b.terminate t).appendBlock next).function.block? id = _
    rw [Function.block?, Function.block?, blocks_appendBlock]
  rw [hblock, block?_terminate t hc]

theorem insts_moveTo (t : Terminator) (next : BlockId) :
    (b.moveTo t next).function.insts = b.function.insts := by
  show ((b.terminate t).appendBlock next).function.insts = _
  rw [insts_appendBlock, insts_terminate]

theorem labels_moveTo (hc : b.cursor? = some here) (t : Terminator) (next id : BlockId) (blk : Block)
    (hblk : b.function.block? id = some blk) :
    ∃ blk', (b.moveTo t next).function.block? id = some blk' ∧ blk'.label = blk.label := by
  rw [block?_moveTo hc, hblk]
  split
  · exact ⟨_, rfl, rfl⟩
  · exact ⟨blk, rfl, rfl⟩

end Operations

/-! ### Functions that are built in order -/

/-- The cursor stands at an unfinished block of the layout.  Only blocks with a place have edges, all of
these are in order, and none of them ends the function. -/
structure Flowing (b : Builder) (here : BlockId) : Prop where
  cursor : b.cursor? = some here
  mem : here ∈ b.function.layout
  unfinished : ∃ blk, b.function.block? here = some blk ∧ blk.terminator? = none
  placed : ∀ source target, target ∈ b.function.succsAt source → source ∈ b.function.layout
  orderly : ∀ id ∈ b.function.layout, b.function.Orderly id
  going : ∀ id blk t, b.function.block? id = some blk → blk.terminator? = some t → t.successors ≠ []

namespace Flowing

theorem lt (h : b.Flowing here) : here < b.function.blocks.size := by
  obtain ⟨blk, hblk, -⟩ := h.unfinished
  exact Function.lt_of_block? hblk

theorem open_here (h : b.Flowing here) (blk : Block) (hblk : b.function.block? here = some blk) :
    blk.terminator? = none := by
  obtain ⟨blk', hblk', hnone⟩ := h.unfinished
  rw [Option.some.inj (hblk.symm.trans hblk')]
  exact hnone

/-- A block is dominated by whatever dominates its predecessors. -/
theorem dominates_of_preds (h : b.Flowing here) {a id : BlockId} (hne : b.function.entry? ≠ some id)
    (hs : ∀ s ∈ b.function.placement.preds id, b.function.Dominates a s) : b.function.Dominates a id :=
  .of_sources hne fun source hsource =>
    hs source (Function.mem_preds_iff.2 ⟨h.placed source id hsource, hsource⟩)

/-! Instructions -/

section Push

variable {name : String} {ty : Ty} {op : Op}

theorem grows_push (h : b.Flowing here) : b.function.GrowsTo (b.push name ty op).2.function :=
  .of_succsAt (extends_push name ty op h.cursor h.open_here) (layout_push name ty op)
    (succsAt_push name ty op h.cursor) h.placed (labels_push name ty op h.cursor)

/-- An instruction can be added if what it reads is available. -/
theorem push (h : b.Flowing here) (hoperands : ∀ v ∈ op.operands, b.function.Available here v)
    (harms : ∀ arm ∈ op.arms, arm.2 ∈ b.function.layout ∧ b.function.Available arm.2 arm.1) :
    (b.push name ty op).2.Flowing here := by
  have hg : b.function.GrowsTo (b.push name ty op).2.function := h.grows_push
  have hblock := block?_push name ty op h.cursor
  refine ⟨by rw [cursor?_push, h.cursor], hg.mem_layout h.mem, ?_, ?_, ?_, ?_⟩
  · obtain ⟨blk, hblk, hopen⟩ := h.unfinished
    refine ⟨{ blk with insts := blk.insts ++ [b.function.insts.size] }, ?_, hopen⟩
    rw [hblock, if_pos rfl, hblk]
    rfl
  · intro source target hs
    rw [succsAt_push name ty op h.cursor] at hs
    rw [layout_push]
    exact h.placed source target hs
  · intro id hid
    rw [layout_push] at hid
    by_cases hne : here = id
    · subst hne
      obtain ⟨before, hw⟩ := (h.orderly here hid).reached
      refine ⟨⟨before, hg.way hw⟩, ?_, ?_, ?_⟩
      · intro s hs
        rw [succsAt_push name ty op h.cursor] at hs
        exact hg.idxOf_lt hid ((h.orderly here hid).forward s hs)
      · intro i hi
        rw [instsAt_push name ty op h.cursor h.lt, List.mem_append, List.mem_singleton] at hi
        cases hi with
        | inl hi => exact hg.reads hid ((h.orderly here hid).insts i hi)
        | inr hi =>
          -- the instruction that was added
          refine ⟨⟨(b.function.unique name).1, ty, op⟩, ?_, ?_, ?_⟩
          · rw [inst?_push, if_pos hi]
          · intro v hv
            exact hg.available hid (hoperands v hv)
          · intro arm harm
            obtain ⟨hmem, hv⟩ := harms arm harm
            exact ⟨hg.mem_layout hmem, hg.available hmem hv⟩
      · intro blk t hblk ht
        rw [hblock, if_pos rfl] at hblk
        obtain ⟨old, hold, rfl⟩ := Option.map_eq_some_iff.1 hblk
        have hopen : old.terminator? = none := h.open_here old hold
        cases hopen.symm.trans ht
    · refine hg.orderly hid ?_ (h.orderly id hid)
      rw [hblock, if_neg hne]
  · intro id blk t hblk ht
    rw [hblock] at hblk
    split at hblk
    · obtain ⟨old, hold, rfl⟩ := Option.map_eq_some_iff.1 hblk
      exact h.going id old t hold ht
    · exact h.going id blk t hblk ht

/-- The value of an instruction is available where it was added. -/
theorem available_push (h : b.Flowing here) :
    (b.push name ty op).2.function.Available here (b.push name ty op).1 := by
  intro i hi
  rw [push_fst] at hi
  refine ⟨here, ?_, .refl _ here⟩
  rw [instsAt_push name ty op h.cursor h.lt, ← Operand.inst.inj hi]
  exact List.mem_append_right _ (List.mem_singleton_self _)

/-- The `phi` instructions of a block other than the one at the cursor. -/
theorem phisAt_push_of_ne (h : b.Flowing here) {id : BlockId} (hid : id ∈ b.function.layout)
    (hne : here ≠ id) : (b.push name ty op).2.function.phisAt id = b.function.phisAt id :=
  (h.grows_push).phisAt_eq (h.orderly id hid) (instsAt_push_of_ne name ty op h.cursor hne)

theorem phisAt_push (h : b.Flowing here) :
    (b.push name ty op).2.function.phisAt here =
      b.function.phisAt here ++ if op.isPhi then [b.function.insts.size] else [] := by
  have hg : b.function.GrowsTo (b.push name ty op).2.function := h.grows_push
  rw [Function.phisAt, instsAt_push name ty op h.cursor h.lt, List.filter_append]
  refine congrArg₂ _ ?_ ?_
  · refine List.filter_congr fun i hi => ?_
    obtain ⟨inst, hinst, -⟩ := (h.orderly here h.mem).insts i hi
    rw [hinst, hg.grown.insts i inst hinst]
  · rw [List.filter_singleton, inst?_push, if_pos rfl]
    show (bif op.isPhi then _ else []) = _
    cases op.isPhi <;> rfl

/-- An instruction that is no `phi` changes the role of no block. -/
theorem roles_push (h : b.Flowing here) (hop : op.isPhi = false)
    (hroles : ∀ id ∈ b.function.layout, b.function.Role id) :
    ∀ id ∈ (b.push name ty op).2.function.layout, (b.push name ty op).2.function.Role id := by
  intro id hid
  rw [layout_push] at hid
  refine (h.grows_push).role hid ?_ (hroles id hid)
  by_cases hne : here = id
  · rw [← hne, h.phisAt_push, hop]
    exact List.append_nil _
  · exact h.phisAt_push_of_ne hid hne

end Push

/-! Blocks -/

section CreateBlock

variable {label : String}

theorem grows_createBlock (h : b.Flowing here) :
    b.function.GrowsTo (b.createBlock label).2.function :=
  .of_succsAt (extends_createBlock label) (layout_createBlock label) (succsAt_createBlock label)
    h.placed fun _ blk hblk => ⟨blk, block?_createBlock_of_some label hblk, rfl⟩

/-- A block can be made at any time. -/
theorem createBlock (h : b.Flowing here)
    (hexist : ∀ id : Nat, id ∈ b.function.layout → id < b.function.blocks.size) :
    (b.createBlock label).2.Flowing here := by
  have hg : b.function.GrowsTo (b.createBlock label).2.function := h.grows_createBlock
  refine ⟨h.cursor, hg.mem_layout h.mem, ?_, ?_, ?_, ?_⟩
  · obtain ⟨blk, hblk, hopen⟩ := h.unfinished
    exact ⟨blk, block?_createBlock_of_some label hblk, hopen⟩
  · intro source target hs
    rw [succsAt_createBlock] at hs
    rw [layout_createBlock]
    exact h.placed source target hs
  · intro id hid
    rw [layout_createBlock] at hid
    refine hg.orderly hid ?_ (h.orderly id hid)
    rw [block?_createBlock, if_neg (Nat.ne_of_lt (hexist id hid))]
  · intro id blk t hblk ht
    rw [block?_createBlock] at hblk
    split at hblk
    · obtain rfl := Option.some.inj hblk
      cases ht
    · exact h.going id blk t hblk ht

theorem roles_createBlock (h : b.Flowing here)
    (hexist : ∀ id : Nat, id ∈ b.function.layout → id < b.function.blocks.size)
    (hroles : ∀ id ∈ b.function.layout, b.function.Role id) :
    ∀ id ∈ (b.createBlock label).2.function.layout, (b.createBlock label).2.function.Role id := by
  intro id hid
  rw [layout_createBlock] at hid
  have hg : b.function.GrowsTo (b.createBlock label).2.function := h.grows_createBlock
  refine hg.role hid (hg.phisAt_eq (h.orderly id hid) (Function.instsAt_congr ?_)) (hroles id hid)
  rw [block?_createBlock, if_neg (Nat.ne_of_lt (hexist id hid))]

end CreateBlock

/-! Edges -/

section MoveTo

variable {m : Module} {done : List BlockId} {t : Terminator} {next : BlockId}

theorem unplaced_moveTo (htidy : b.function.Tidy m done [here])
    (htidy' : (b.moveTo t next).function.Tidy m (done ++ [here]) [next]) : next ∉ b.function.layout := by
  have hnodup := htidy'.nodup
  rw [← htidy.layout, List.nodup_append] at hnodup
  intro hin
  exact hnodup.2.2 next hin next (List.mem_singleton_self next) rfl

theorem preds_moveTo (htidy : b.function.Tidy m done [here]) (hc : b.cursor? = some here)
    (htidy' : (b.moveTo t next).function.Tidy m (done ++ [here]) [next]) (id : BlockId) :
    (b.moveTo t next).function.placement.preds id =
      b.function.placement.preds id ++ (t.successors.filter (· == id)).map fun _ => here := by
  rw [Placement.preds, edges_moveTo htidy hc htidy', List.filter_append, List.map_append,
    List.filter_map, List.map_map]
  rfl

/-- The block at the cursor can be finished with edges to blocks that have no place yet. -/
theorem grows_moveTo (h : b.Flowing here) (htidy : b.function.Tidy m done [here])
    (htidy' : (b.moveTo t next).function.Tidy m (done ++ [here]) [next])
    (hs : ∀ s ∈ t.successors, s ∉ b.function.layout) :
    b.function.GrowsTo (b.moveTo t next).function := by
  have hlayout : (b.moveTo t next).function.layout = b.function.layout ++ [next] := by
    rw [htidy'.layout, htidy.layout]
  have hpreds : ∀ id ∈ b.function.layout,
      (b.moveTo t next).function.placement.preds id = b.function.placement.preds id := by
    intro id hid
    have hnone : t.successors.filter (· == id) = [] := by
      rw [List.filter_eq_nil_iff]
      intro s hsucc heq
      exact hs s hsucc ((beq_iff_eq.1 heq) ▸ hid)
    rw [preds_moveTo htidy h.cursor htidy', hnone, List.map_nil, List.append_nil]
  refine ⟨(extends_terminate t h.cursor h.open_here).trans (extends_appendBlock next), ?_, ?_, hpreds, ?_,
    labels_moveTo h.cursor t next⟩
  · rw [ Function.entry?, Function.entry?, hlayout, List.head?_append_of_ne_nil]
    exact List.ne_nil_of_mem h.mem
  · rw [hlayout]
    exact List.prefix_append _ _
  · intro id hid source hsource
    have hmem : source ∈ (b.moveTo t next).function.placement.preds id :=
      Function.mem_preds_iff.2 ⟨htidy'.placed hsource, hsource⟩
    rw [hpreds id hid] at hmem
    exact Function.mem_preds_iff.1 hmem

theorem succsAt_moveTo (h : b.Flowing here) : (b.moveTo t next).function.succsAt here = t.successors := by
  obtain ⟨blk, hblk, -⟩ := h.unfinished
  have hblk' : (b.moveTo t next).function.block? here = some { blk with terminator? := some t } := by
    rw [block?_moveTo h.cursor, if_pos rfl, hblk]
    rfl
  exact Function.succsAt_of_block? hblk' rfl

/-- The block at the cursor ends with available operands, and the next block has an edge from a block
with a place. -/
theorem moveTo (h : b.Flowing here) (htidy : b.function.Tidy m done [here])
    (htidy' : (b.moveTo t next).function.Tidy m (done ++ [here]) [next])
    (hs : ∀ s ∈ t.successors, s ∉ b.function.layout) (hne : t.successors ≠ [])
    (hoperands : ∀ v ∈ t.operands, b.function.Available here v)
    (hempty : (b.moveTo t next).function.instsAt next = [])
    (hreached : ∃ source ∈ b.function.layout, next ∈ (b.moveTo t next).function.succsAt source) :
    (b.moveTo t next).Flowing next := by
  have hg := h.grows_moveTo htidy htidy' hs
  have hblock := block?_moveTo h.cursor t next
  have hlayout : (b.moveTo t next).function.layout = b.function.layout ++ [next] := by
    rw [htidy'.layout, htidy.layout]
  have hclosed : ∀ blk, (b.moveTo t next).function.block? next = some blk → blk.terminator? = none :=
    htidy'.unfinished_rest next (List.mem_singleton_self next)
  have hmem : next ∈ (b.moveTo t next).function.layout := by
    rw [hlayout]
    exact List.mem_append_right _ (List.mem_singleton_self next)
  refine ⟨rfl, hmem, ?_, fun source target => htidy'.placed, ?_, ?_⟩
  · have hlt := htidy'.exist next (List.mem_append_right _ (List.mem_singleton_self next))
    exact ⟨_, Array.getElem?_eq_getElem hlt, hclosed _ (Array.getElem?_eq_getElem hlt)⟩
  · intro id hid
    rw [hlayout, List.mem_append, List.mem_singleton] at hid
    cases hid with
    | inl hid =>
      by_cases hhere : here = id
      · -- the block that was finished keeps its instructions and gets its edges
        subst hhere
        refine hg.orderly_of_instsAt hid (h.orderly here hid) (instsAt_moveTo h.cursor t next here) ?_ ?_
        · intro s hsucc
          rw [h.succsAt_moveTo] at hsucc
          rw [List.idxOf_eq_length (hs s hsucc)]
          exact List.idxOf_lt_length_of_mem hid
        · intro blk t' hblk ht'
          rw [hblock, if_pos rfl] at hblk
          obtain ⟨old, -, rfl⟩ := Option.map_eq_some_iff.1 hblk
          obtain rfl := Option.some.inj ht'
          exact hoperands
      · refine hg.orderly hid ?_ (h.orderly id hid)
        rw [hblock, if_neg hhere]
    | inr hid =>
      subst hid
      obtain ⟨source, hsource, hedge⟩ := hreached
      obtain ⟨before, hw⟩ := (h.orderly source hsource).reached
      refine ⟨⟨source :: before, .edge (hg.way hw) hedge⟩, ?_, ?_, ?_⟩
      · intro s hsucc
        rw [Function.succsAt_of_unfinished hclosed] at hsucc
        cases hsucc
      · intro i hi
        rw [hempty] at hi
        cases hi
      · intro blk t' hblk ht'
        cases (hclosed blk hblk).symm.trans ht'
  · intro id blk t' hblk ht'
    rw [hblock] at hblk
    split at hblk
    · obtain ⟨old, -, rfl⟩ := Option.map_eq_some_iff.1 hblk
      obtain rfl := Option.some.inj ht'
      exact hne
    · exact h.going id blk t' hblk ht'

/-- Finishing a block changes the role of no block. -/
theorem roles_moveTo (h : b.Flowing here) (htidy : b.function.Tidy m done [here])
    (htidy' : (b.moveTo t next).function.Tidy m (done ++ [here]) [next])
    (hs : ∀ s ∈ t.successors, s ∉ b.function.layout)
    (hroles : ∀ id ∈ b.function.layout, b.function.Role id) :
    ∀ id ∈ b.function.layout, (b.moveTo t next).function.Role id := by
  intro id hid
  have hg := h.grows_moveTo htidy htidy' hs
  exact hg.role hid (hg.phisAt_eq (h.orderly id hid) (instsAt_moveTo h.cursor t next id)) (hroles id hid)

end MoveTo

/-! The end of the function -/

section Return

variable {v : Operand}

theorem block?_ret (h : b.Flowing here) :
    ∃ blk, b.function.block? here = some blk ∧
      (b.terminate (.ret v)).function.block? here = some { blk with terminator? := some (.ret v) } := by
  obtain ⟨blk, hblk, -⟩ := h.unfinished
  refine ⟨blk, hblk, ?_⟩
  rw [block?_terminate _ h.cursor, if_pos rfl, hblk]
  rfl

theorem block?_ret_of_ne (h : b.Flowing here) {id : BlockId} (hne : here ≠ id) :
    (b.terminate (.ret v)).function.block? id = b.function.block? id := by
  rw [block?_terminate _ h.cursor, if_neg hne]

theorem grows_ret (h : b.Flowing here) : b.function.GrowsTo (b.terminate (.ret v)).function := by
  obtain ⟨blk, hblk, hblk'⟩ := h.block?_ret (v := v)
  refine .of_succsAt (extends_terminate _ h.cursor h.open_here) (layout_terminate _) ?_ h.placed ?_
  · intro id
    by_cases hne : here = id
    · subst hne
      rw [Function.succsAt_of_unfinished h.open_here]
      exact Function.succsAt_of_block? hblk' rfl
    · exact Function.succsAt_congr (h.block?_ret_of_ne hne)
  · intro id old hold
    by_cases hne : here = id
    · subst hne
      obtain rfl := Option.some.inj (hblk.symm.trans hold)
      exact ⟨_, hblk', rfl⟩
    · exact ⟨old, (h.block?_ret_of_ne hne).trans hold, rfl⟩

theorem instsAt_ret (h : b.Flowing here) (id : BlockId) :
    (b.terminate (.ret v)).function.instsAt id = b.function.instsAt id := by
  by_cases hne : here = id
  · subst hne
    obtain ⟨blk, hblk, hblk'⟩ := h.block?_ret (v := v)
    rw [Function.instsAt_of_block? hblk, Function.instsAt_of_block? hblk']
  · exact Function.instsAt_congr (h.block?_ret_of_ne hne)

/-- A function can return what is available. -/
theorem orderly_ret (h : b.Flowing here) (hv : b.function.Available here v) :
    ∀ id ∈ b.function.layout, (b.terminate (.ret v)).function.Orderly id := by
  intro id hid
  have hg : b.function.GrowsTo (b.terminate (.ret v)).function := h.grows_ret
  by_cases hne : here = id
  · subst hne
    obtain ⟨blk, -, hblk'⟩ := h.block?_ret (v := v)
    refine hg.orderly_of_instsAt hid (h.orderly here hid) (h.instsAt_ret here) ?_ ?_
    · intro s hs
      rw [Function.succsAt_of_block? hblk' rfl] at hs
      cases hs
    · intro blk₁ t hblk₁ ht w hw
      obtain rfl := Option.some.inj (hblk'.symm.trans hblk₁)
      obtain rfl := Option.some.inj ht
      rw [List.mem_singleton.1 hw]
      exact hv
  · exact hg.orderly hid (h.block?_ret_of_ne hne) (h.orderly id hid)

theorem roles_ret (h : b.Flowing here) (hroles : ∀ id ∈ b.function.layout, b.function.Role id) :
    ∀ id ∈ b.function.layout, (b.terminate (.ret v)).function.Role id := by
  intro id hid
  have hg : b.function.GrowsTo (b.terminate (.ret v)).function := h.grows_ret
  exact hg.role hid (hg.phisAt_eq (h.orderly id hid) (h.instsAt_ret id)) (hroles id hid)

/-- Only the block at the cursor returns. -/
theorem ret_iff (h : b.Flowing here) {id : BlockId} {blk : Block}
    (hblk : (b.terminate (.ret v)).function.block? id = some blk) :
    (∃ w, blk.terminator? = some (.ret w)) ↔ id = here := by
  by_cases hne : here = id
  · subst hne
    obtain ⟨old, -, hblk'⟩ := h.block?_ret (v := v)
    obtain rfl := Option.some.inj (hblk'.symm.trans hblk)
    exact ⟨fun _ => rfl, fun _ => ⟨v, rfl⟩⟩
  · rw [h.block?_ret_of_ne hne] at hblk
    constructor
    · intro hret
      obtain ⟨w, hw⟩ := hret
      exact absurd rfl (h.going id blk _ hblk hw)
    · intro heq
      exact absurd heq.symm hne

end Return

end Flowing

/-! ### From one cursor to another -/

/-- The function has grown in order, and the cursor has come to `there`, to which every way leads through
`a`. -/
structure Reaches (b : Builder) (a : BlockId) (b' : Builder) (there : BlockId) : Prop where
  flowing : b'.Flowing there
  roles : ∀ id ∈ b'.function.layout, b'.function.Role id
  grows : b.function.GrowsTo b'.function
  dominates : b'.function.Dominates a there

theorem Reaches.trans {b₁ b₂ : Builder} {a c₁ c₂ : BlockId} (h : Reaches b a b₁ c₁)
    (h' : Reaches b₁ c₁ b₂ c₂) : Reaches b a b₂ c₂ :=
  ⟨h'.flowing, h'.roles, h.grows.trans h'.grows,
    (h'.grows.dominates h.flowing.mem h.dominates).trans h'.dominates⟩

/-- A branch starts at a block to which one edge leads. -/
theorem Flowing.start {m : Module} {done : List BlockId} {t : Terminator} {next source : BlockId}
    (h : b.Flowing here) (hroles : ∀ id ∈ b.function.layout, b.function.Role id)
    (htidy : b.function.Tidy m done [here])
    (htidy' : (b.moveTo t next).function.Tidy m (done ++ [here]) [next])
    (hs : ∀ s ∈ t.successors, s ∉ b.function.layout) (hne : t.successors ≠ [])
    (hoperands : ∀ v ∈ t.operands, b.function.Available here v)
    (hempty : (b.moveTo t next).function.instsAt next = [])
    (hsource : source ∈ b.function.layout)
    (hpreds : (b.moveTo t next).function.placement.preds next = [source])
    (hlabel : b.function.Labelled next "then" ∨ b.function.Labelled next "else") :
    Reaches b source (b.moveTo t next) next := by
  have hg := h.grows_moveTo htidy htidy' hs
  have hedge : source ∈ (b.moveTo t next).function.placement.preds next := by
    rw [hpreds]
    exact List.mem_singleton_self source
  have hflow : (b.moveTo t next).Flowing next :=
    h.moveTo htidy htidy' hs hne hoperands hempty ⟨source, hsource, (Function.mem_preds_iff.1 hedge).2⟩
  refine ⟨hflow, ?_, hg, ?_⟩
  · intro id hid
    rw [htidy'.layout, ← htidy.layout, List.mem_append, List.mem_singleton] at hid
    cases hid with
    | inl hid => exact h.roles_moveTo htidy htidy' hs hroles id hid
    | inr hid =>
      subst hid
      refine .branch (hlabel.imp hg.labelled hg.labelled) hpreds ?_
      rw [Function.phisAt, hempty]
      rfl
  · refine hflow.dominates_of_preds (hg.entry_ne (unplaced_moveTo htidy htidy')) ?_
    intro s hs
    rw [hpreds] at hs
    rw [List.mem_singleton.1 hs]
    exact .refl _ source

/-- The number of `phi` instructions. -/
def phiCount (b : Builder) : Nat := b.function.insts.countP fun inst => inst.op.isPhi

theorem phiCount_push (b : Builder) (name : String) (ty : Ty) (op : Op) :
    (b.push name ty op).2.phiCount = b.phiCount + if op.isPhi then 1 else 0 := by
  simp [phiCount, Builder.push, Array.countP_push]

theorem phiCount_moveTo (b : Builder) (t : Terminator) (next : BlockId) :
    (b.moveTo t next).phiCount = b.phiCount := by
  rw [phiCount, insts_moveTo, phiCount]

/-- The function has grown in order from the cursor at `here`, by `k` choices and a `phi` for each. -/
structure Flows (k : Nat) (b : Builder) (here : BlockId) (b' : Builder) (there : BlockId) : Prop
    extends Reaches b here b' there where
  size : b'.function.blocks.size = b.function.blocks.size + 3 * k
  phis : b'.phiCount = b.phiCount + k

namespace Flows

variable {k k' : Nat} {b₁ b₂ : Builder} {c₁ c₂ : BlockId}

theorem refl (h : b.Flowing here) (hroles : ∀ id ∈ b.function.layout, b.function.Role id) :
    Flows 0 b here b here :=
  ⟨⟨h, hroles, .refl h.placed, .refl _ here⟩, rfl, rfl⟩

theorem trans (h : Flows k b here b₁ c₁) (h' : Flows k' b₁ c₁ b₂ c₂) :
    Flows (k + k') b here b₂ c₂ := by
  refine ⟨h.toReaches.trans h'.toReaches, ?_, ?_⟩
  · rw [h'.size, h.size]
    omega
  · rw [h'.phis, h.phis]
    omega

/-- What was available is available still. -/
theorem available (h : Flows k b here b₁ c₁) (hb : b.Flowing here) {v : Operand}
    (hv : b.function.Available here v) : b₁.function.Available c₁ v :=
  (h.grows.available hb.mem hv).of_dominates h.dominates

theorem push (h : b.Flowing here) (hroles : ∀ id ∈ b.function.layout, b.function.Role id)
    {name : String} {ty : Ty} {op : Op} (hop : op.isPhi = false)
    (hoperands : ∀ v ∈ op.operands, b.function.Available here v) :
    Flows 0 b here (b.push name ty op).2 here := by
  refine ⟨⟨h.push hoperands ?_, h.roles_push hop hroles, h.grows_push, .refl _ here⟩, ?_, ?_⟩
  · rw [Op.arms_of_isPhi hop]
    intro arm harm
    cases harm
  · rw [size_blocks_push]
    rfl
  · rw [phiCount_push, hop]
    rfl

end Flows

/-- The value `v` comes of instructions behind the cursor that read constants, the operands `vs`, and each
other. -/
inductive Computes : Builder → List Operand → Operand → Builder → Prop
  | push {b : Builder} {vs : List Operand} {name : String} {ty : Ty} {op : Op}
      (hop : op.isPhi = false) (h : ∀ v ∈ op.operands, v ∈ vs ∨ ∀ i, v ≠ .inst i) :
      Computes b vs (b.push name ty op).1 (b.push name ty op).2
  | seq {b b₁ b₂ : Builder} {vs : List Operand} {v v' : Operand} (h : Computes b vs v b₁)
      (h' : Computes b₁ [v] v' b₂) : Computes b vs v' b₂

/-- Straight-line code keeps the function in order, and leaves the cursor where it is. -/
theorem Computes.flows {b' : Builder} {vs : List Operand} {v : Operand} (hx : Computes b vs v b')
    (h : b.Flowing here) (hroles : ∀ id ∈ b.function.layout, b.function.Role id)
    (hvs : ∀ w ∈ vs, b.function.Available here w) :
    Flows 0 b here b' here ∧ b'.function.Available here v := by
  induction hx with
  | @push b vs name ty op hop hv =>
    refine ⟨.push h hroles hop fun v hmem => ?_, h.available_push⟩
    cases hv v hmem with
    | inl hin => exact hvs v hin
    | inr hconst => exact .of_ne hconst
  | seq _ _ ih ih' =>
    obtain ⟨hf, hv⟩ := ih h hroles hvs
    obtain ⟨hf', hv'⟩ := ih' hf.flowing hf.roles (by simpa using hv)
    exact ⟨hf.trans hf', hv'⟩

end Builder

end Ir

end ScalarLang
