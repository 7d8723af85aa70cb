import ScalarLang.Proofs.TypeSafety

/-!
# Phis and the edges into their blocks

A `phi` takes the entry that names the block from which its own block was entered.  Verification asks
that it has as many entries as there are edges into the block, and that every entry names a block from
which one comes.  It does not ask that the entries name different blocks, so one block can be named
twice and another not at all.  A jump from the latter finds no entry.

* `Ir.Function.sources` — the blocks from which edges lead into a block.
* `Ir.Function.PhiIn` — a `phi` with given entries stands in a block.
* `Ir.Function.Covers` — the entries name every block from which an edge comes.
* `Ir.Function.covers_iff_of_verify` — they do exactly if they name as many different blocks as there
  are such blocks; then a jump into the block finds the entry of the edge.
* `Machine.lopsided_uncovered` — a verified function in which they do not.
-/

namespace ScalarLang

namespace Ir

namespace Function

/-- The blocks from which edges lead into block `id`. -/
def sources (f : Function) (id : BlockId) : List BlockId :=
  f.layout.filter fun source => (f.succsAt source).contains id

/-- A `phi` with the entries `arms` stands in block `id`. -/
def PhiIn (f : Function) (id : BlockId) (arms : List (Operand × BlockId)) : Prop :=
  ∃ i ∈ f.instsAt id, ∃ inst, f.inst? i = some inst ∧ inst.op = .phi arms

/-- Every block from which an edge leads into block `id` is named by an entry. -/
def Covers (f : Function) (id : BlockId) (arms : List (Operand × BlockId)) : Prop :=
  ∀ source, id ∈ f.succsAt source → ∃ v, (v, source) ∈ arms

variable {f : Function} {m : Module} {id : BlockId} {arms : List (Operand × BlockId)}

/-! ### Edges -/

theorem mem_preds_iff {source : BlockId} :
    source ∈ f.placement.preds id ↔ source ∈ f.layout ∧ id ∈ f.succsAt source := by
  simp only [Placement.preds, placement, edgesFrom, List.mem_map, List.mem_filter, List.mem_flatMap]
  constructor
  · rintro ⟨e, ⟨⟨a, ha, s, hs, rfl⟩, hid⟩, rfl⟩
    have hsid : s = id := by simpa using hid
    exact ⟨ha, hsid ▸ hs⟩
  · intro h
    exact ⟨(source, id), ⟨⟨source, h.1, id, h.2, rfl⟩, by simp⟩, rfl⟩

theorem mem_sources_iff {source : BlockId} :
    source ∈ f.sources id ↔ source ∈ f.layout ∧ id ∈ f.succsAt source := by
  simp [sources]

/-- Only blocks that exist have edges, and all of these are laid out. -/
theorem Complete.mem_layout_of_succsAt (h : f.Complete) {source : BlockId}
    (hs : id ∈ f.succsAt source) : source ∈ f.layout := by
  rw [h.mem_layout_iff]
  exact lt_of_mem_succsAt hs

/-- There are at most as many blocks with edges into a block as there are edges. -/
theorem length_sources_le (h : f.Complete) :
    (f.sources id).length ≤ (f.placement.preds id).length := by
  have hnodup : (f.sources id).Nodup := h.layout_nodup.filter _
  refine (List.subperm_of_subset hnodup fun source hsource => ?_).length_le
  exact mem_preds_iff.2 (mem_sources_iff.1 hsource)

/-! ### What verification says about a phi -/

/-- The entries of a verified `phi` are as many as the edges, and each names a block with an edge. -/
theorem Verified.phi (h : f.Verified m) (hphi : f.PhiIn id arms) :
    arms.length = (f.placement.preds id).length ∧ ∀ arm ∈ arms, arm.2 ∈ f.sources id := by
  obtain ⟨i, hi, inst, hinst, hop⟩ := hphi
  obtain ⟨k, b, -, hb, htyped⟩ := h.exists_block (lt_of_mem_instsAt hi)
  rw [instsAt_of_block? hb] at hi
  obtain ⟨j, hj⟩ := List.mem_iff_getElem?.1 hi
  have hrule := htyped.insts j i inst hj hinst
  rw [InstTyped, Inst.TypedBy, hop] at hrule
  refine ⟨hrule.1, fun arm harm => ?_⟩
  exact mem_sources_iff.2 (mem_preds_iff.1 (hrule.2 arm harm).1)

/-- The entries cover the edges exactly if they name as many blocks as edges come from.  They name no
other blocks, so with equal numbers they name all of them. -/
theorem Verified.covers_iff (h : f.Verified m) (hphi : f.PhiIn id arms) :
    f.Covers id arms ↔ (arms.map Prod.snd).dedup.length = (f.sources id).length := by
  have hnodup : (f.sources id).Nodup := h.complete.layout_nodup.filter _
  have hsub : (arms.map Prod.snd).dedup ⊆ f.sources id := by
    intro source hsource
    obtain ⟨arm, harm, rfl⟩ := List.mem_map.1 (List.mem_dedup.1 hsource)
    exact (h.phi hphi).2 arm harm
  constructor
  · intro hcovers
    have hsub' : f.sources id ⊆ (arms.map Prod.snd).dedup := by
      intro source hsource
      obtain ⟨v, hv⟩ := hcovers source (mem_sources_iff.1 hsource).2
      exact List.mem_dedup.2 (List.mem_map.2 ⟨(v, source), hv, rfl⟩)
    exact Nat.le_antisymm (List.subperm_of_subset (List.nodup_dedup _) hsub).length_le
      (List.subperm_of_subset hnodup hsub').length_le
  · intro hlen source hs
    have hperm := (List.subperm_of_subset (List.nodup_dedup _) hsub).perm_of_length_le
      (Nat.le_of_eq hlen.symm)
    have hsource : source ∈ f.sources id :=
      mem_sources_iff.2 ⟨h.complete.mem_layout_of_succsAt hs, hs⟩
    obtain ⟨arm, harm, rfl⟩ := List.mem_map.1 (List.mem_dedup.1 (hperm.mem_iff.2 hsource))
    exact ⟨arm.1, harm⟩

/-- A `phi` whose entries name different blocks covers the edges. -/
theorem Verified.covers_of_nodup (h : f.Verified m) (hphi : f.PhiIn id arms)
    (hn : (arms.map Prod.snd).Nodup) : f.Covers id arms := by
  rw [h.covers_iff hphi, hn.dedup, List.length_map]
  refine Nat.le_antisymm ?_ ?_
  · rw [← List.length_map Prod.snd]
    refine (List.subperm_of_subset hn fun source hsource => ?_).length_le
    obtain ⟨arm, harm, rfl⟩ := List.mem_map.1 hsource
    exact (h.phi hphi).2 arm harm
  · rw [(h.phi hphi).1]
    exact length_sources_le h.complete

end Function

end Ir

namespace Machine

open Ir

/-! ### Jumps -/

/-- A jump follows an edge, and the frame remembers the block it has left. -/
theorem Frame.edge_of_step {fr fr' : Frame} (h : fr.step = .ok (.jumped fr')) :
    fr'.block ∈ fr.function.succsAt fr.block ∧ fr'.predecessor? = some fr.block := by
  obtain ⟨b, t, target, hb, -, ht, htarget, rfl⟩ := jump_of_step h
  refine ⟨?_, rfl⟩
  show target ∈ fr.function.succsAt fr.block
  rw [Function.succsAt_of_block? hb ht]
  exact htarget

/-- The entry for the block that was left is found if there is one. -/
theorem Frame.incoming_of_mem {fr : Frame} {name : String} {arms : List (Operand × BlockId)}
    {source : BlockId} (hp : fr.predecessor? = some source) (h : ∃ v, (v, source) ∈ arms) :
    ∃ v, (v, source) ∈ arms ∧ fr.incoming name arms = fr.get v := by
  obtain ⟨w, hw⟩ := h
  obtain ⟨arm, harm⟩ : ∃ arm, (arms.find? fun arm => some arm.2 == fr.predecessor?) = some arm := by
    rw [← Option.isSome_iff_exists, List.find?_isSome]
    exact ⟨(w, source), hw, by simp [hp]⟩
  have hsource : arm.2 = source := by
    have hfound := List.find?_some harm
    rw [hp] at hfound
    simpa using hfound
  refine ⟨arm.1, ?_, ?_⟩
  · rw [← hsource]
    exact List.mem_of_find?_eq_some harm
  · rw [Frame.incoming, harm]

end Machine

/-- **When the entries of a verified `phi` cover the edges into its block.**  They do exactly if they
name as many different blocks as edges come from, and so whenever no two of them name the same block.
Once they do, a frame that has jumped into the block finds an entry for the block it came from, whatever
it has computed since. -/
theorem Ir.Function.covers_iff_of_verify {f : Ir.Function} {m : Ir.Module} (hv : f.verify m = .ok ())
    {id : Ir.BlockId} {arms : List (Ir.Operand × Ir.BlockId)} (hphi : f.PhiIn id arms) :
    (f.Covers id arms ↔ (arms.map Prod.snd).dedup.length = (f.sources id).length) ∧
    ((arms.map Prod.snd).Nodup → f.Covers id arms) ∧
    (f.Covers id arms → ∀ (fr fr' : Machine.Frame) (name : String), fr.function = f →
      fr.step = .ok (.jumped fr') → fr'.block = id → ∀ values pos,
        ∃ v, (v, fr.block) ∈ arms ∧
          ({ fr' with values := values, pos := pos } : Machine.Frame).incoming name arms =
            ({ fr' with values := values, pos := pos } : Machine.Frame).get v) := by
  have hverified := verify_eq_ok_iff.1 hv
  refine ⟨hverified.covers_iff hphi, hverified.covers_of_nodup hphi, ?_⟩
  intro hcovers fr fr' name hfun hstep hblock values pos
  obtain ⟨hedge, hpred⟩ := Machine.Frame.edge_of_step hstep
  rw [hfun, hblock] at hedge
  exact Machine.Frame.incoming_of_mem hpred (hcovers fr.block hedge)

/-- The `phi` of a loop, which is entered from the block before it and from its own end. -/
theorem Ir.Function.covers_iff_of_verify_counting :
    Machine.counting.verify Machine.countingModule = .ok () ∧
      Machine.counting.PhiIn 1 [(.int 0, 0), (.inst 1, 1)] ∧
      Machine.counting.sources 1 = [0, 1] ∧
      Machine.counting.Covers 1 [(.int 0, 0), (.inst 1, 1)] := by
  have hv : Machine.counting.verify Machine.countingModule = .ok () := by decide
  have hphi : Machine.counting.PhiIn 1 [(.int 0, 0), (.inst 1, 1)] :=
    ⟨0, by decide, _, rfl, rfl⟩
  exact ⟨hv, hphi, by decide, (covers_iff_of_verify hv hphi).1.2 (by decide)⟩

namespace Machine

/-! ### A block that is named twice -/

/-- Both branches lead to the join, but both entries of its `phi` name the first one. -/
def lopsided : Ir.Function where
  name := "lopsided"
  params := [⟨"x", .i64⟩]
  ret := .i64
  insts := #[⟨"c", .i1, .icmp .ne (.arg 0) (.int 0)⟩, ⟨"v", .i64, .phi [(.int 7, 1), (.int 7, 1)]⟩]
  blocks := #[⟨"entry", [0], some (.condBr (.inst 0) 1 2)⟩, ⟨"left", [], some (.br 3)⟩,
    ⟨"right", [], some (.br 3)⟩, ⟨"join", [1], some (.ret (.inst 1))⟩]
  layout := [0, 1, 2, 3]

def lopsidedModule : Ir.Module where
  name := "m"
  functions := [lopsided]
  distinct := by decide

/-- **A verified `phi` can leave an edge out.**  Two entries for two edges pass verification although
they name the same block, and a run that comes by the other edge ends in a fault. -/
theorem lopsided_uncovered :
    lopsided.verify lopsidedModule = .ok () ∧ lopsided.PhiIn 3 [(.int 7, 1), (.int 7, 1)] ∧
      ¬ lopsided.Covers 3 [(.int 7, 1), (.int 7, 1)] ∧
      (({ fuel := 9 } : Machine).execute lopsidedModule "lopsided" [.int 0]).1 =
        .error (.uncoveredEdge "v") := by
  refine ⟨by decide, ⟨1, by decide, _, rfl, rfl⟩, ?_, by decide⟩
  intro hcovers
  obtain ⟨v, hv⟩ := hcovers 2 (by decide)
  simp at hv

end Machine

end ScalarLang
