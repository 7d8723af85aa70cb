import ScalarLang.Proofs.Edges

/-!
# Layouts as permutations

The layout check never looks for a block or an instruction that is left out.  It compares numbers and
refuses what comes twice, and by counting that is enough: it passes exactly if the layout is a permutation
of the blocks and the blocks list every instruction once.  To see what comes twice it needs no more than
a table with one mark for each block.

* `Ir.Function.listed` — the instructions that the blocks list.
* `Ir.Function.Arranged` — the function has blocks, its layout is a permutation of them, they list every
  instruction once and no other, and every block ends and leads to blocks.
* `Ir.Function.complete_iff_arranged` — complete layouts are exactly these.
* `Ir.Function.StandsAt` — the places at which an instruction stands.
* `Ir.Function.markBlocks` — the walk over the blocks with a table of marks.
* `Ir.Function.place_accepts_iff` — when the check passes, and what it gives.
-/

namespace ScalarLang

namespace Ir

namespace Function

/-- The instructions that the blocks list, one block after the other. -/
def listed (f : Function) : List InstId := f.blocks.toList.flatMap Block.insts

/-- Nothing is left out, comes twice or leads nowhere. -/
@[mk_iff]
structure Arranged (f : Function) : Prop where
  blocks_pos : 0 < f.blocks.size
  layout_perm : f.layout.Perm (List.range f.blocks.size)
  listed_once : ∀ i < f.insts.size, f.listed.count i = 1
  listed_lt : ∀ i ∈ f.listed, i < f.insts.size
  ends : ∀ b ∈ f.blocks.toList, b.terminator?.isSome
  leads : ∀ b ∈ f.blocks.toList, ∀ t ∈ b.terminator?, ∀ s ∈ t.successors, s < f.blocks.size

instance (f : Function) : Decidable f.Arranged := decidable_of_iff _ (arranged_iff f).symm

/-- The instruction `i` stands at a place: in the block at that index of the layout, and at that index in
the block. -/
def StandsAt (f : Function) (i : InstId) (s : Site) : Prop :=
  ∃ id, f.layout[s.block]? = some id ∧ (f.instsAt id)[s.index]? = some i

variable {f : Function}

/-! ### Blocks in the order of the layout and in their own -/

theorem mem_blocks_iff {b : Block} : b ∈ f.blocks.toList ↔ ∃ id, f.block? id = some b := by
  simp [block?, List.mem_iff_getElem?]

theorem listed_eq_flatMap_range (f : Function) :
    f.listed = (List.range f.blocks.size).flatMap f.instsAt := by
  have hmap : f.blocks.toList.map Block.insts = (List.range f.blocks.size).map f.instsAt := by
    refine List.ext_getElem (by simp) fun id h₁ h₂ => ?_
    have hlt : id < f.blocks.size := by simpa using h₁
    have hb : f.block? id = some f.blocks[id] := Array.getElem?_eq_getElem hlt
    simp [instsAt_of_block? hb]
  rw [listed, List.flatMap_def, hmap, ← List.flatMap_def]

/-- A layout that is a permutation of the blocks gives the instructions they list in another order. -/
theorem flatMap_instsAt_perm (h : f.layout.Perm (List.range f.blocks.size)) :
    (f.layout.flatMap f.instsAt).Perm f.listed := by
  rw [listed_eq_flatMap_range]
  exact h.flatMap_right f.instsAt

/-- Every number below `n` comes once, and no other, exactly in a permutation of the numbers below `n`. -/
theorem perm_range_iff_count {l : List Nat} {n : Nat} :
    l.Perm (List.range n) ↔ (∀ i < n, l.count i = 1) ∧ ∀ i ∈ l, i < n := by
  constructor
  · intro h
    refine ⟨fun i hi => ?_, fun i hi => List.mem_range.1 (h.mem_iff.1 hi)⟩
    rw [h.count_eq, List.count_eq_one_of_mem List.nodup_range (List.mem_range.2 hi)]
  · rintro ⟨honce, hlt⟩
    rw [List.perm_iff_count]
    intro i
    by_cases hi : i < n
    · rw [honce i hi, List.count_eq_one_of_mem List.nodup_range (List.mem_range.2 hi)]
    · rw [List.count_eq_zero_of_not_mem (mt (hlt i) hi),
        List.count_eq_zero_of_not_mem (mt List.mem_range.1 hi)]

/-! ### What comes nowhere twice is left out nowhere -/

theorem Complete.arranged (h : f.Complete) : f.Arranged := by
  -- completeness speaks of the instructions in the order of the layout
  have hlisted := perm_range_iff_count.1 ((flatMap_instsAt_perm h.layout_perm).symm.trans h.insts_perm)
  have hblock : ∀ b ∈ f.blocks.toList, ∃ t, b.terminator? = some t ∧
      ∀ s ∈ t.successors, s < f.blocks.size := by
    intro b hb
    obtain ⟨id, hid⟩ := mem_blocks_iff.1 hb
    obtain ⟨b', t, hb', ht, -, hsuccs⟩ := h.blocks id (h.mem_layout_iff.2 (lt_of_block? hid))
    obtain rfl := Option.some.inj (hid.symm.trans hb')
    exact ⟨t, ht, fun s hs => block?_isSome_iff.1 (hsuccs s hs)⟩
  refine ⟨?_, h.layout_perm, hlisted.1, hlisted.2, fun b hb => ?_, fun b hb t ht => ?_⟩
  · rw [← h.length_layout]
    exact List.length_pos_iff.2 h.layout_ne_nil
  · obtain ⟨t, ht, -⟩ := hblock b hb
    rw [ht]
    rfl
  · obtain ⟨t', ht', hsuccs⟩ := hblock b hb
    obtain rfl := Option.some.inj (ht.symm.trans ht')
    exact hsuccs

theorem Arranged.complete (h : f.Arranged) : f.Complete := by
  have hlen : f.layout.length = f.blocks.size := by rw [h.layout_perm.length_eq, List.length_range]
  have hinsts : (f.layout.flatMap f.instsAt).Perm (List.range f.insts.size) :=
    (flatMap_instsAt_perm h.layout_perm).trans (perm_range_iff_count.2 ⟨h.listed_once, h.listed_lt⟩)
  refine ⟨?_, hlen, h.layout_perm.nodup_iff.2 List.nodup_range, fun id hid => ?_,
    hinsts.nodup_iff.2 List.nodup_range, by rw [hinsts.length_eq, List.length_range]⟩
  · rw [← List.length_pos_iff, hlen]
    exact h.blocks_pos
  · obtain ⟨b, hb⟩ := Option.isSome_iff_exists.1
      (block?_isSome_iff.2 (List.mem_range.1 (h.layout_perm.mem_iff.1 hid)))
    have hmem : b ∈ f.blocks.toList := mem_blocks_iff.2 ⟨id, hb⟩
    obtain ⟨t, ht⟩ := Option.isSome_iff_exists.1 (h.ends b hmem)
    refine ⟨b, t, hb, ht, fun i hi => ?_, fun s hs => ?_⟩
    · exact inst?_isSome_iff.2 (h.listed_lt i (List.mem_flatMap.2 ⟨b, hmem, hi⟩))
    · exact block?_isSome_iff.2 (h.leads b hmem t ht s hs)

/-- Lengths that agree and nothing that comes twice make a permutation, and the other way round. -/
theorem complete_iff_arranged : f.Complete ↔ f.Arranged := ⟨Complete.arranged, Arranged.complete⟩

/-! ### Places and edges -/

theorem Complete.site?_iff_standsAt (h : f.Complete) {i : InstId} {s : Site} :
    f.placement.site? i = some s ↔ f.StandsAt i s := h.site?_eq_some_iff

/-- Every instruction of a complete layout stands at one place only. -/
theorem Complete.existsUnique_standsAt (h : f.Complete) {i : InstId} (hi : i < f.insts.size) :
    ∃! s, f.StandsAt i s := by
  obtain ⟨id, hid, hmem⟩ := List.mem_flatMap.1 (h.mem_insts_iff.2 hi)
  obtain ⟨k, hk⟩ := List.mem_iff_getElem?.1 hid
  obtain ⟨j, hj⟩ := List.mem_iff_getElem?.1 hmem
  have hs : f.StandsAt i ⟨k, j⟩ := ⟨id, hk, hj⟩
  refine ⟨⟨k, j⟩, hs, fun s hs' => ?_⟩
  rw [← h.site?_iff_standsAt] at hs hs'
  exact Option.some.inj (hs'.symm.trans hs)

/-- An entry of a list of predecessors is an edge. -/
theorem count_preds (p : Placement) (source id : BlockId) :
    (p.preds id).count source = p.edges.count (source, id) := by
  rw [Placement.preds]
  induction p.edges with
  | nil => rfl
  | cons e edges ih =>
    obtain ⟨a, b⟩ := e
    by_cases hb : b = id
    · by_cases ha : a = source
      · simp [hb, ha, ih]
      · simp [hb, ha, ih]
    · simp [hb, ih]

/-- Blocks that are laid out once have each of their edges once. -/
theorem count_edgesFrom {ids : List BlockId} (hn : ids.Nodup) (source id : BlockId) :
    (f.edgesFrom ids).count (source, id) =
      if source ∈ ids then (f.succsAt source).count id else 0 := by
  have hcount : ∀ a, ((f.succsAt a).map fun target => (a, target)).count (source, id) =
      if a = source then (f.succsAt source).count id else 0 := by
    intro a
    by_cases ha : a = source
    · subst ha
      rw [if_pos rfl]
      exact List.count_map_of_injective _ _ (Prod.mk_right_injective a) id
    · rw [if_neg ha]
      refine List.count_eq_zero_of_not_mem fun hmem => ?_
      obtain ⟨target, -, he⟩ := List.mem_map.1 hmem
      exact ha (Prod.mk.inj he).1
  -- the blocks are distinct, so at most one of them is `source`
  induction ids with
  | nil => rfl
  | cons a ids ih =>
    rw [List.nodup_cons] at hn
    rw [edgesFrom_cons, List.count_append, hcount, ih hn.2]
    by_cases ha : a = source
    · subst ha
      simp [hn.1]
    · simp [ha, Ne.symm ha]

/-- The predecessors of a block have one entry for each edge into it. -/
theorem Complete.count_preds_eq (h : f.Complete) (source id : BlockId) :
    (f.placement.preds id).count source = (f.succsAt source).count id := by
  rw [count_preds, placement, count_edgesFrom h.layout_nodup]
  split
  · rfl
  · next hsource =>
    exact (List.count_eq_zero_of_not_mem (mt h.mem_layout_of_succsAt hsource)).symm

/-! ### A table of marks -/

/-- The walk over the blocks of a layout with a table of marks, one for each block; `index` is the number
of blocks laid out before these.  A mark is read and set inside the table, because the block exists. -/
def markBlocks (f : Function) :
    Vector Bool f.blocks.size → Nat → List BlockId → Placement → Except Defect Placement
  | _, _, [], p => .ok p
  | marks, index, id :: ids, p =>
    if h : id < f.blocks.size then
      if marks[id] then .error (.blockTwice f.blocks[id].label)
      else do
        let p ← f.placeInsts f.blocks[id].label index 0 f.blocks[id].insts p
        match f.blocks[id].terminator? with
        | none => .error (.noTerminator f.blocks[id].label)
        | some t =>
          let p ← f.placeEdges id t.successors p
          markBlocks f (marks.set id true) (index + 1) ids p
    else .error (.missingBlock id)

/-- The marks stand for the blocks laid out so far, so the walk fails and ends as it does without them. -/
theorem markBlocks_eq_placeBlocks {done : List BlockId} {marks : Vector Bool f.blocks.size}
    (hmarks : ∀ id (h : id < f.blocks.size), marks[id] = done.contains id) (ids : List BlockId)
    (p : Placement) : f.markBlocks marks done.length ids p = f.placeBlocks done ids p := by
  induction ids generalizing done marks p with
  | nil => rfl
  | cons id ids ih =>
    rw [markBlocks, placeBlocks]
    by_cases hlt : id < f.blocks.size
    · have hb : f.getBlock id = .ok f.blocks[id] :=
        getBlock_eq_ok_iff.2 (Array.getElem?_eq_getElem hlt)
      have hnext : ∀ id' (h : id' < f.blocks.size),
          (marks.set id true)[id'] = (done ++ [id]).contains id' := by
        intro id' h
        rw [Vector.getElem_set]
        split
        · next e => simp [e]
        · next hne => simp [hmarks id' h, Ne.symm hne]
      have hstep : ∀ p, f.markBlocks (marks.set id true) (done.length + 1) ids p =
          f.placeBlocks (done ++ [id]) ids p := by
        intro p
        rw [← ih hnext, List.length_append, List.length_singleton]
      rw [dif_pos hlt, hb, hmarks id hlt]
      simp only [hstep]
      -- what is left differs only in that one side binds the block to a name
      rfl
    · have hnone : f.block? id = none := Array.getElem?_eq_none (Nat.not_lt.1 hlt)
      rw [dif_neg hlt, getBlock, hnone]
      rfl

/-- **The layout check is exact.**  However a function was put together, the check passes exactly if there
are blocks, the layout is a permutation of them, they list every instruction once and no other, every block
ends, and every successor exists.  A table with one mark for each block is enough to see what comes twice.
Where the check passes, every instruction stands at one place, which is the place it is given, and the
predecessors of a block have one entry for each edge into it. -/
theorem place_accepts_iff (f : Function) :
    ((∃ p, f.place = .ok p) ↔ f.Arranged) ∧
    f.markBlocks (Vector.replicate f.blocks.size false) 0 f.layout {} = f.placeBlocks [] f.layout {} ∧
    ∀ p, f.place = .ok p →
      (∀ i < f.insts.size, ∃! s, f.StandsAt i s) ∧ (∀ i s, p.site? i = some s ↔ f.StandsAt i s) ∧
        ∀ source id, (p.preds id).count source = (f.succsAt source).count id := by
  simp only [place_eq_ok_iff, ← complete_iff_arranged]
  refine ⟨⟨fun ⟨_, h, _⟩ => h, fun h => ⟨_, h, rfl⟩⟩, ?_, ?_⟩
  · have hmarks : ∀ id (h : id < f.blocks.size),
        (Vector.replicate f.blocks.size false)[id] = ([] : List BlockId).contains id := by simp
    exact markBlocks_eq_placeBlocks hmarks f.layout {}
  · rintro p ⟨h, rfl⟩
    exact ⟨fun i hi => h.existsUnique_standsAt hi, fun i s => h.site?_iff_standsAt, h.count_preds_eq⟩

/-- Blocks and instructions in an order of their own.  Both branches of the block `again` lead to `exit`. -/
def reordered : Function where
  name := "reordered"
  params := [⟨"x", .i64⟩]
  ret := .i64
  insts := #[⟨"v", .i64, .phi [(.int 7, 2), (.int 8, 0), (.int 8, 0)]⟩,
    ⟨"c", .i1, .icmp .ne (.arg 0) (.int 0)⟩, ⟨"d", .i1, .icmp .slt (.arg 0) (.int 9)⟩]
  blocks := #[⟨"again", [], some (.condBr (.inst 2) 1 1)⟩, ⟨"exit", [0], some (.ret (.inst 0))⟩,
    ⟨"entry", [1, 2], some (.condBr (.inst 1) 0 1)⟩]
  layout := [2, 0, 1]

/-- The check passes, although neither blocks nor instructions come in the order of their numbers. -/
theorem place_accepts_iff_reordered :
    reordered.Arranged ∧ ∃ p, reordered.place = .ok p ∧ p.site? 2 = some ⟨0, 1⟩ ∧
      (p.preds 1).count 0 = 2 ∧ (p.preds 1).count 2 = 1 := by
  have harranged : reordered.Arranged := by decide
  obtain ⟨haccepts, -, hgives⟩ := place_accepts_iff reordered
  obtain ⟨p, hp⟩ := haccepts.2 harranged
  obtain ⟨-, hsites, hpreds⟩ := hgives p hp
  refine ⟨harranged, p, hp, (hsites 2 ⟨0, 1⟩).2 ⟨2, rfl, rfl⟩, ?_, ?_⟩
  · rw [hpreds]
    rfl
  · rw [hpreds]
    rfl

end Function

end Ir

end ScalarLang
