import ScalarLang.Ir.Verify
import ScalarLang.Proofs.Results

/-!
# What the layout check says

The layout check walks over the blocks in their order and collects the places of instructions and the
edges.  It passes exactly for a complete layout, and what it has collected can be read off the
function.

* `Ir.Function.instsAt`, `Ir.Function.succsAt` — the instructions and the successors of a block.
* `Ir.Function.placement` — the place of every instruction, and every edge.
* `Ir.Function.Complete` — every block is laid out once and every instruction placed once, every block
  ends, and every reference leads somewhere.
* `Ir.Function.place_eq_ok_iff` — the check passes exactly for complete layouts, with that placement.
* `Ir.Function.Complete.site?_eq_some_iff` — where an instruction is placed.
* `Ir.Function.Complete.layout_perm`, `Ir.Function.Complete.insts_perm` — all blocks are laid out, and all
  instructions placed.
-/

namespace ScalarLang

namespace Ir

namespace Function

/-- The instructions of a block. -/
def instsAt (f : Function) (id : BlockId) : List InstId := (f.block? id).elim [] Block.insts

/-- The successors of a block, one for each edge. -/
def succsAt (f : Function) (id : BlockId) : List BlockId :=
  ((f.block? id).bind Block.terminator?).elim [] Terminator.successors

/-- The places of instructions of one block from `index` on. -/
def sitesIn (block : Nat) : Nat → List InstId → List (InstId × Site)
  | _, [] => []
  | index, id :: ids => (id, ⟨block, index⟩) :: sitesIn block (index + 1) ids

/-- The places of the instructions of blocks; `block` is the number of blocks before these. -/
def sitesFrom (f : Function) : Nat → List BlockId → List (InstId × Site)
  | _, [] => []
  | block, id :: ids => sitesIn block 0 (f.instsAt id) ++ f.sitesFrom (block + 1) ids

/-- The edges that leave the given blocks. -/
def edgesFrom (f : Function) (ids : List BlockId) : List (BlockId × BlockId) :=
  ids.flatMap fun id => (f.succsAt id).map fun target => (id, target)

/-- The place of every instruction, and every edge. -/
def placement (f : Function) : Placement := ⟨f.sitesFrom 0 f.layout, f.edgesFrom f.layout⟩

/-- A block that ends, of which every instruction and every successor exists. -/
def BlockComplete (f : Function) (id : BlockId) : Prop :=
  ∃ b t, f.block? id = some b ∧ b.terminator? = some t ∧ (∀ i ∈ b.insts, (f.inst? i).isSome) ∧
    ∀ s ∈ t.successors, (f.block? s).isSome

/-- A layout in which every block stands once and every instruction is placed once. -/
structure Complete (f : Function) : Prop where
  layout_ne_nil : f.layout ≠ []
  length_layout : f.layout.length = f.blocks.size
  layout_nodup : f.layout.Nodup
  blocks : ∀ id ∈ f.layout, f.BlockComplete id
  insts_nodup : (f.layout.flatMap f.instsAt).Nodup
  length_insts : (f.layout.flatMap f.instsAt).length = f.insts.size

theorem edgesFrom_cons (f : Function) (id : BlockId) (ids : List BlockId) :
    f.edgesFrom (id :: ids) =
      (f.succsAt id).map (fun target => (id, target)) ++ f.edgesFrom ids := rfl

/-! ### What exists -/

theorem lt_of_block? {f : Function} {id : BlockId} {b : Block} (h : f.block? id = some b) :
    id < f.blocks.size :=
  (Array.getElem?_eq_some_iff.1 h).1

theorem lt_of_inst? {f : Function} {i : InstId} {inst : Inst} (h : f.inst? i = some inst) :
    i < f.insts.size :=
  (Array.getElem?_eq_some_iff.1 h).1

theorem block?_isSome_iff {f : Function} {id : BlockId} :
    (f.block? id).isSome ↔ id < f.blocks.size := by
  simp [block?]

theorem inst?_isSome_iff {f : Function} {i : InstId} : (f.inst? i).isSome ↔ i < f.insts.size := by
  simp [inst?]

/-- Only a block that exists has instructions. -/
theorem lt_of_mem_instsAt {f : Function} {id : BlockId} {i : InstId} (h : i ∈ f.instsAt id) :
    id < f.blocks.size := by
  rw [instsAt] at h
  cases hb : f.block? id with
  | none =>
    rw [hb] at h
    cases h
  | some b => exact lt_of_block? hb

/-- Only a block that exists has successors. -/
theorem lt_of_mem_succsAt {f : Function} {id target : BlockId} (h : target ∈ f.succsAt id) :
    id < f.blocks.size := by
  rw [succsAt] at h
  cases hb : f.block? id with
  | none =>
    rw [hb] at h
    cases h
  | some b => exact lt_of_block? hb

/-! ### Places -/

theorem map_fst_sitesIn (block index : Nat) (ids : List InstId) :
    (sitesIn block index ids).map Prod.fst = ids := by
  induction ids generalizing index with
  | nil => rfl
  | cons id ids ih => simp [sitesIn, ih]

theorem map_fst_sitesFrom (f : Function) (block : Nat) (ids : List BlockId) :
    (f.sitesFrom block ids).map Prod.fst = ids.flatMap f.instsAt := by
  induction ids generalizing block with
  | nil => rfl
  | cons id ids ih => simp [sitesFrom, ih, map_fst_sitesIn]

theorem mem_sitesIn {block index : Nat} {ids : List InstId} {i : InstId} {s : Site} :
    (i, s) ∈ sitesIn block index ids ↔ ∃ j, ids[j]? = some i ∧ s = ⟨block, index + j⟩ := by
  induction ids generalizing index with
  | nil => simp [sitesIn]
  | cons id ids ih =>
    rw [sitesIn, List.mem_cons, ih]
    constructor
    · rintro (h | ⟨j, hj, rfl⟩)
      · obtain ⟨rfl, rfl⟩ := Prod.mk.inj h
        exact ⟨0, rfl, rfl⟩
      · exact ⟨j + 1, hj, by rw [Nat.add_right_comm, Nat.add_assoc]⟩
    · rintro ⟨j, hj, rfl⟩
      cases j with
      | zero =>
        left
        rw [List.getElem?_cons_zero, Option.some.injEq] at hj
        rw [hj]
        rfl
      | succ j => exact .inr ⟨j, hj, by rw [Nat.add_right_comm, Nat.add_assoc]⟩

theorem mem_sitesFrom {f : Function} {block : Nat} {ids : List BlockId} {i : InstId} {s : Site} :
    (i, s) ∈ f.sitesFrom block ids ↔
      ∃ k j id, ids[k]? = some id ∧ (f.instsAt id)[j]? = some i ∧ s = ⟨block + k, j⟩ := by
  induction ids generalizing block with
  | nil => simp [sitesFrom]
  | cons id ids ih =>
    rw [sitesFrom, List.mem_append, mem_sitesIn, ih]
    constructor
    · rintro (⟨j, hj, rfl⟩ | ⟨k, j, id', hk, hj, rfl⟩)
      · exact ⟨0, j, id, rfl, hj, by rw [Nat.zero_add]; rfl⟩
      · exact ⟨k + 1, j, id', hk, hj, by rw [Nat.add_right_comm, Nat.add_assoc]⟩
    · rintro ⟨k, j, id', hk, hj, rfl⟩
      cases k with
      | zero =>
        left
        rw [List.getElem?_cons_zero, Option.some.injEq] at hk
        subst hk
        exact ⟨j, hj, by rw [Nat.zero_add]; rfl⟩
      | succ k => exact .inr ⟨k, j, id', hk, hj, by rw [Nat.add_right_comm, Nat.add_assoc]⟩

/-- In a list of pairs with distinct first components, a pair is found under its first one. -/
theorem lookup_eq_some_iff_mem {l : List (InstId × Site)} (h : (l.map Prod.fst).Nodup) {i : InstId}
    {s : Site} : l.lookup i = some s ↔ (i, s) ∈ l := by
  induction l with
  | nil => simp
  | cons e l ih =>
    obtain ⟨k, t⟩ := e
    rw [List.map_cons, List.nodup_cons] at h
    rw [List.lookup_cons, List.mem_cons, Prod.mk.injEq]
    by_cases hk : i = k
    · subst hk
      have : ∀ s', (i, s') ∉ l := fun s' hs' => h.1 (List.mem_map.2 ⟨_, hs', rfl⟩)
      simp [this, eq_comm]
    · have hb : (i == k) = false := beq_false_of_ne hk
      simp only [hb, hk, false_and, false_or]
      exact ih h.2

/-! ### The check, part by part -/

theorem site?_isSome_iff {p : Placement} {i : InstId} :
    (p.site? i).isSome ↔ i ∈ p.sites.map Prod.fst := by
  rw [Placement.site?, List.lookup_isSome_iff]
  simp

theorem placeInsts_eq_ok_iff (f : Function) (label : String) (block index : Nat)
    (ids : List InstId) (p p' : Placement) :
    f.placeInsts label block index ids p = .ok p' ↔
      (∀ i ∈ ids, (f.inst? i).isSome) ∧ ids.Nodup ∧ (∀ i ∈ ids, i ∉ p.sites.map Prod.fst) ∧
        p' = ⟨p.sites ++ sitesIn block index ids, p.edges⟩ := by
  induction ids generalizing index p with
  | nil =>
    rw [placeInsts, Except.ok.injEq]
    simp [sitesIn, eq_comm (a := p)]
  | cons i ids ih =>
    rw [placeInsts]
    by_cases hi : (f.inst? i).isNone
    · have : ¬ (f.inst? i).isSome := by simpa using hi
      simp [hi, this]
    · by_cases hs : (p.site? i).isSome
      · have := site?_isSome_iff.1 hs
        rw [if_neg hi, if_pos hs]
        simp only [reduceCtorEq, List.forall_mem_cons, this, not_true_eq_false, false_and, and_false]
      · have hi' : (f.inst? i).isSome := by simpa [Option.isSome_iff_ne_none] using hi
        have hs' := mt site?_isSome_iff.2 hs
        rw [if_neg hi, if_neg hs, ih]
        simp only [List.forall_mem_cons, List.nodup_cons, List.map_append, List.map_cons,
          List.map_nil, List.mem_append, List.mem_singleton, not_or, sitesIn, List.append_assoc,
          List.cons_append, List.nil_append]
        constructor
        · rintro ⟨h₁, h₂, h₃, rfl⟩
          exact ⟨⟨hi', h₁⟩, ⟨fun h => (h₃ i h).2 rfl, h₂⟩, ⟨hs', fun j hj => (h₃ j hj).1⟩, rfl⟩
        · rintro ⟨⟨-, h₁⟩, ⟨h₂, h₃⟩, ⟨-, h₄⟩, rfl⟩
          exact ⟨h₁, h₃, fun j hj => ⟨h₄ j hj, fun e => h₂ (e ▸ hj)⟩, rfl⟩

theorem placeEdges_eq_ok_iff (f : Function) (id : BlockId) (targets : List BlockId)
    (p p' : Placement) :
    f.placeEdges id targets p = .ok p' ↔
      (∀ t ∈ targets, (f.block? t).isSome) ∧
        p' = ⟨p.sites, p.edges ++ targets.map fun target => (id, target)⟩ := by
  induction targets generalizing p with
  | nil =>
    rw [placeEdges, Except.ok.injEq]
    simp [eq_comm (a := p)]
  | cons t targets ih =>
    rw [placeEdges]
    by_cases ht : (f.block? t).isNone
    · have : ¬ (f.block? t).isSome := by simpa using ht
      simp [ht, this]
    · have ht' : (f.block? t).isSome := by simpa [Option.isSome_iff_ne_none] using ht
      rw [if_neg ht, ih]
      simp [ht']

theorem getBlock_eq_ok_iff {f : Function} {id : BlockId} {b : Block} :
    f.getBlock id = .ok b ↔ f.block? id = some b := by
  unfold getBlock
  split
  · next b' h => rw [h, Except.ok.injEq, Option.some.injEq]
  · next h => simp [h]

theorem instsAt_of_block? {f : Function} {id : BlockId} {b : Block} (h : f.block? id = some b) :
    f.instsAt id = b.insts := by
  rw [instsAt, h]
  rfl

theorem succsAt_of_block? {f : Function} {id : BlockId} {b : Block} {t : Terminator}
    (h : f.block? id = some b) (ht : b.terminator? = some t) : f.succsAt id = t.successors := by
  rw [succsAt, h]
  show (b.terminator?).elim [] Terminator.successors = _
  rw [ht]
  rfl

/-- What the walk over the blocks `ids` asks for when the blocks `done` and the instructions `placed`
lie behind it. -/
structure Placeable (f : Function) (done ids : List BlockId) (placed : List InstId) : Prop where
  blocks : ∀ id ∈ ids, f.BlockComplete id
  nodup : ids.Nodup
  fresh : ∀ id ∈ ids, id ∉ done
  insts_nodup : (ids.flatMap f.instsAt).Nodup
  insts_fresh : ∀ i ∈ ids.flatMap f.instsAt, i ∉ placed

theorem placeable_cons_iff {f : Function} {done ids : List BlockId} {placed : List InstId}
    {id : BlockId} :
    f.Placeable done (id :: ids) placed ↔
      f.BlockComplete id ∧ id ∉ done ∧ (f.instsAt id).Nodup ∧ (∀ i ∈ f.instsAt id, i ∉ placed) ∧
        f.Placeable (done ++ [id]) ids (placed ++ f.instsAt id) := by
  constructor
  · rintro ⟨h₁, h₂, h₃, h₄, h₅⟩
    rw [List.flatMap_cons] at h₄ h₅
    rw [List.nodup_append] at h₄
    rw [List.nodup_cons] at h₂
    rw [List.forall_mem_cons] at h₁ h₃
    rw [List.forall_mem_append] at h₅
    refine ⟨h₁.1, h₃.1, h₄.1, h₅.1, h₁.2, h₂.2, ?_, h₄.2.1, ?_⟩
    · intro j hj hd
      rcases List.mem_append.1 hd with hd | hd
      · exact h₃.2 j hj hd
      · exact h₂.1 (List.mem_singleton.1 hd ▸ hj)
    · intro i hi hp
      rcases List.mem_append.1 hp with hp | hp
      · exact h₅.2 i hi hp
      · exact h₄.2.2 i hp i hi rfl
  · rintro ⟨hb, hd, hn, hp, h₁, h₂, h₃, h₄, h₅⟩
    refine ⟨List.forall_mem_cons.2 ⟨hb, h₁⟩, List.nodup_cons.2 ⟨?_, h₂⟩,
      List.forall_mem_cons.2 ⟨hd, ?_⟩, ?_, ?_⟩
    · intro hj
      exact h₃ id hj (List.mem_append_right _ (List.mem_singleton.2 rfl))
    · intro j hj hd'
      exact h₃ j hj (List.mem_append_left _ hd')
    · rw [List.flatMap_cons, List.nodup_append]
      refine ⟨hn, h₄, ?_⟩
      rintro i hi _ hj rfl
      exact h₅ i hj (List.mem_append_right _ hi)
    · rw [List.flatMap_cons, List.forall_mem_append]
      exact ⟨hp, fun i hi hp' => h₅ i hi (List.mem_append_left _ hp')⟩

theorem placeBlocks_eq_ok_iff (f : Function) (done ids : List BlockId) (p p' : Placement) :
    f.placeBlocks done ids p = .ok p' ↔
      f.Placeable done ids (p.sites.map Prod.fst) ∧
        p' = ⟨p.sites ++ f.sitesFrom done.length ids, p.edges ++ f.edgesFrom ids⟩ := by
  induction ids generalizing done p with
  | nil =>
    have : f.Placeable done [] (p.sites.map Prod.fst) := by constructor <;> simp
    rw [placeBlocks, Except.ok.injEq]
    simp [sitesFrom, edgesFrom, this, eq_comm (a := p)]
  | cons id ids ih =>
    rw [placeBlocks, bind_eq_ok_iff, placeable_cons_iff]
    constructor
    · rintro ⟨b, hb, h⟩
      have hblock : f.block? id = some b := getBlock_eq_ok_iff.1 hb
      split at h
      · cases h
      · next hd =>
        rw [bind_eq_ok_iff] at h
        obtain ⟨p₁, hp₁, h⟩ := h
        rw [placeInsts_eq_ok_iff] at hp₁
        obtain ⟨hi₁, hi₂, hi₃, rfl⟩ := hp₁
        split at h
        · cases h
        · next t ht =>
          rw [bind_eq_ok_iff] at h
          obtain ⟨p₂, hp₂, h⟩ := h
          rw [placeEdges_eq_ok_iff] at hp₂
          obtain ⟨ht₁, rfl⟩ := hp₂
          rw [ih] at h
          obtain ⟨h, rfl⟩ := h
          rw [List.map_append, map_fst_sitesIn] at h
          rw [sitesFrom, edgesFrom_cons, instsAt_of_block? hblock, succsAt_of_block? hblock ht]
          refine ⟨⟨⟨b, t, hblock, ht, hi₁, ht₁⟩, by simpa using hd, hi₂, hi₃, h⟩, ?_⟩
          simp
    · rintro ⟨⟨⟨b, t, hblock, ht, hi₁, ht₁⟩, hd, hi₂, hi₃, h⟩, rfl⟩
      rw [instsAt_of_block? hblock] at hi₂ hi₃ h
      refine ⟨b, getBlock_eq_ok_iff.2 hblock, ?_⟩
      rw [if_neg (by simpa using hd), bind_eq_ok_iff]
      refine ⟨_, (placeInsts_eq_ok_iff ..).2 ⟨hi₁, hi₂, hi₃, rfl⟩, ?_⟩
      rw [ht]
      show f.placeEdges id t.successors _ >>= _ = _
      rw [bind_eq_ok_iff]
      refine ⟨_, (placeEdges_eq_ok_iff ..).2 ⟨ht₁, rfl⟩, ?_⟩
      rw [ih, List.map_append, map_fst_sitesIn]
      refine ⟨h, ?_⟩
      rw [sitesFrom, edgesFrom_cons, instsAt_of_block? hblock, succsAt_of_block? hblock ht]
      simp

/-- **The layout check passes exactly for complete layouts**, and gives the places and the edges that
the function has. -/
theorem place_eq_ok_iff (f : Function) (p : Placement) :
    f.place = .ok p ↔ f.Complete ∧ p = f.placement := by
  unfold place
  constructor
  · intro h
    split at h
    · cases h
    · next hne =>
      split at h
      · cases h
      · next hlen =>
        split at h
        · cases h
        · next p₁ hp₁ =>
          rw [placeBlocks_eq_ok_iff] at hp₁
          obtain ⟨⟨h₁, h₂, -, h₄, -⟩, rfl⟩ := hp₁
          split at h
          · cases h
          · next hsize =>
            cases h
            refine ⟨⟨by simpa using hne, not_not.1 hlen, h₂, h₁, h₄, ?_⟩, rfl⟩
            rw [← map_fst_sitesFrom f 0, List.length_map]
            exact not_not.1 hsize
  · rintro ⟨h, rfl⟩
    have hp : f.placeBlocks [] f.layout {} = .ok f.placement := by
      rw [placeBlocks_eq_ok_iff]
      exact ⟨⟨h.blocks, h.layout_nodup, by simp, h.insts_nodup, by simp⟩, by simp [placement]⟩
    have hsize : f.placement.sites.length = f.insts.size := by
      rw [← h.length_insts, ← map_fst_sitesFrom f 0, List.length_map]
      rfl
    rw [if_neg (by simpa using h.layout_ne_nil), if_neg (not_not.2 h.length_layout), hp]
    exact if_neg (not_not.2 hsize)

/-! ### Reading a placement -/

/-- Where an instruction is placed. -/
theorem Complete.site?_eq_some_iff {f : Function} (h : f.Complete) {i : InstId} {k j : Nat} :
    f.placement.site? i = some ⟨k, j⟩ ↔
      ∃ id, f.layout[k]? = some id ∧ (f.instsAt id)[j]? = some i := by
  have hn : (f.placement.sites.map Prod.fst).Nodup := by
    rw [placement, map_fst_sitesFrom]
    exact h.insts_nodup
  rw [Placement.site?, lookup_eq_some_iff_mem hn, placement, mem_sitesFrom]
  constructor
  · rintro ⟨k', j', id, hk, hj, e⟩
    rw [Nat.zero_add] at e
    cases e
    exact ⟨id, hk, hj⟩
  · rintro ⟨id, hk, hj⟩
    exact ⟨k, j, id, hk, hj, by rw [Nat.zero_add]⟩

/-- Distinct numbers below their number are a permutation of the numbers below it. -/
theorem perm_range_of_nodup {l : List Nat} {n : Nat} (hn : l.Nodup) (hlen : l.length = n)
    (hlt : ∀ i ∈ l, i < n) : l.Perm (List.range n) := by
  have hsub : l ⊆ List.range n := fun i hi => List.mem_range.2 (hlt i hi)
  exact (List.subperm_of_subset hn hsub).perm_of_length_le (by rw [List.length_range, hlen])

/-- A complete layout is a permutation of the blocks. -/
theorem Complete.layout_perm {f : Function} (h : f.Complete) :
    f.layout.Perm (List.range f.blocks.size) := by
  refine perm_range_of_nodup h.layout_nodup h.length_layout fun id hid => ?_
  obtain ⟨b, -, hb, -⟩ := h.blocks id hid
  exact lt_of_block? hb

/-- The blocks of a complete layout hold a permutation of the instructions. -/
theorem Complete.insts_perm {f : Function} (h : f.Complete) :
    (f.layout.flatMap f.instsAt).Perm (List.range f.insts.size) := by
  refine perm_range_of_nodup h.insts_nodup h.length_insts fun i hi => ?_
  obtain ⟨id, hid, hi⟩ := List.mem_flatMap.1 hi
  obtain ⟨b, t, hb, -, hinsts, -⟩ := h.blocks id hid
  rw [instsAt_of_block? hb] at hi
  exact inst?_isSome_iff.1 (hinsts i hi)

theorem Complete.mem_layout_iff {f : Function} (h : f.Complete) {id : BlockId} :
    id ∈ f.layout ↔ id < f.blocks.size := by
  rw [h.layout_perm.mem_iff, List.mem_range]

/-- In a complete layout every instruction stands in some block. -/
theorem Complete.mem_insts_iff {f : Function} (h : f.Complete) {i : InstId} :
    i ∈ f.layout.flatMap f.instsAt ↔ i < f.insts.size := by
  rw [h.insts_perm.mem_iff, List.mem_range]

end Function

end Ir

end ScalarLang
