import ScalarLang.Proofs.Construction
import ScalarLang.Proofs.Dominance
import ScalarLang.Proofs.Edges

/-!
# What is available where

Verification compares places in the layout, and a place that comes earlier need not lie on the way.  A
value is available in a block if its definition lies on every way there.  While a function is being
built, blocks that have a place get no further edges, so what is available in them stays so.

* `Ir.Op.operands`, `Ir.Op.arms`, `Ir.Terminator.operands` — what instructions and ends of blocks read.
* `Ir.Function.Dominates.trans`, `Ir.Function.Dominates.of_sources` — dominance along ways.
* `Ir.Function.Available` — a value is defined on every way to a block.
* `Ir.Function.GrowsTo` — a function under construction becomes another, and the blocks that have a place
  get no further edges.
* `Ir.Function.Orderly` — a block that can be reached, has edges to later blocks only, and reads what is
  available.
* `Ir.Function.Role` — a block is the entry, the start of a branch, or a join with its `phi`.
-/

namespace ScalarLang

namespace Ir

/-- The operands that an instruction reads, from wherever its block was entered. -/
def Op.operands : Op → List Operand
  | binary _ lhs rhs => [lhs, rhs]
  | icmp _ lhs rhs => [lhs, rhs]
  | fcmp _ lhs rhs => [lhs, rhs]
  | zext v => [v]
  | uitofp v => [v]
  | call _ args => args
  | phi _ => []

/-- The entries of a `phi`. -/
def Op.arms : Op → List (Operand × BlockId)
  | phi arms => arms
  | _ => []

def Terminator.operands : Terminator → List Operand
  | ret v => [v]
  | br _ => []
  | condBr cond _ _ => [cond]

theorem Op.arms_of_isPhi {op : Op} (h : op.isPhi = false) : op.arms = [] := by
  cases op with
  | phi arms => cases h
  | _ => rfl

namespace Function

variable {f g h : Function}

/-! ### Ways and dominance -/

/-- A way leads through each of its blocks on a way of its own. -/
theorem Way.exists_of_mem {before : List BlockId} {id a : BlockId} (hw : f.Way before id)
    (ha : a ∈ id :: before) : ∃ before', f.Way before' a ∧ a :: before' <:+ id :: before := by
  induction hw with
  | @entry id hentry =>
    obtain rfl := List.mem_singleton.1 ha
    exact ⟨[], .entry hentry, List.suffix_rfl⟩
  | @edge before source target hw he ih =>
    rcases List.mem_cons.1 ha with rfl | ha
    · exact ⟨_, .edge hw he, List.suffix_rfl⟩
    · obtain ⟨before', hw', hsuffix⟩ := ih ha
      exact ⟨before', hw', hsuffix.trans (List.suffix_cons _ _)⟩

theorem Dominates.refl (f : Function) (a : BlockId) : f.Dominates a a :=
  fun _ _ => List.mem_cons_self

theorem Dominates.trans {a b c : BlockId} (hab : f.Dominates a b) (hbc : f.Dominates b c) :
    f.Dominates a c := by
  intro before hw
  obtain ⟨before', hw', hsuffix⟩ := hw.exists_of_mem (hbc before hw)
  exact hsuffix.subset (hab before' hw')

/-- A block is dominated by whatever dominates all blocks from which edges lead to it. -/
theorem Dominates.of_sources {a id : BlockId} (hne : f.entry? ≠ some id)
    (hs : ∀ source, id ∈ f.succsAt source → f.Dominates a source) : f.Dominates a id := by
  intro before hw
  cases hw with
  | entry hentry => exact absurd hentry hne
  | edge hw he => exact List.mem_cons_of_mem _ (hs _ he _ hw)

/-- The value `v` is defined on every way to block `id`. -/
def Available (f : Function) (id : BlockId) (v : Operand) : Prop :=
  ∀ i, v = .inst i → ∃ home, i ∈ f.instsAt home ∧ f.Dominates home id

/-- Constants and parameters are available everywhere. -/
theorem Available.of_ne {id : BlockId} {v : Operand} (h : ∀ i, v ≠ .inst i) : f.Available id v :=
  fun i hi => absurd hi (h i)

theorem Available.of_dominates {a b : BlockId} {v : Operand} (hv : f.Available a v)
    (hd : f.Dominates a b) : f.Available b v := by
  intro i hi
  obtain ⟨home, hmem, hdom⟩ := hv i hi
  exact ⟨home, hmem, hdom.trans hd⟩

/-! ### Growth -/

/-- What `f` has becomes what `g` has.  The blocks of `f` that have a place keep it, and get no further
edges. -/
structure GrowsTo (f g : Function) : Prop where
  grown : f.Extends g
  entry : g.entry? = f.entry?
  layout : f.layout <+: g.layout
  preds : ∀ id ∈ f.layout, g.placement.preds id = f.placement.preds id
  sources : ∀ id ∈ f.layout, ∀ source, id ∈ g.succsAt source →
    source ∈ f.layout ∧ id ∈ f.succsAt source
  labels : ∀ id blk, f.block? id = some blk → ∃ blk', g.block? id = some blk' ∧ blk'.label = blk.label

theorem Extends.instsAt_prefix (hfg : f.Extends g) (id : BlockId) : f.instsAt id <+: g.instsAt id := by
  unfold instsAt
  cases hb : f.block? id with
  | none => exact List.nil_prefix
  | some b =>
    obtain ⟨b', hb', hprefix, -⟩ := hfg.blocks id b hb
    rw [hb']
    exact hprefix

theorem Extends.mem_succsAt (hfg : f.Extends g) {source target : BlockId}
    (hs : target ∈ f.succsAt source) : target ∈ g.succsAt source := by
  unfold succsAt at hs ⊢
  cases hb : f.block? source with
  | none =>
    rw [hb] at hs
    cases hs
  | some b =>
    rw [hb] at hs
    cases ht : b.terminator? with
    | none =>
      rw [Option.bind_some, ht] at hs
      cases hs
    | some t =>
      rw [hfg.block_of_finished hb ht]
      exact hs

namespace GrowsTo

theorem refl (hplaced : ∀ source target, target ∈ f.succsAt source → source ∈ f.layout) :
    f.GrowsTo f :=
  ⟨.refl f, rfl, List.prefix_rfl, fun _ _ => rfl, fun _ _ source hs => ⟨hplaced source _ hs, hs⟩,
    fun _ blk hblk => ⟨blk, hblk, rfl⟩⟩

theorem trans (hfg : f.GrowsTo g) (hgh : g.GrowsTo h) : f.GrowsTo h := by
  have hmem : ∀ id ∈ f.layout, id ∈ g.layout := fun id hid => hfg.layout.subset hid
  refine ⟨hfg.grown.trans hgh.grown, hgh.entry.trans hfg.entry, hfg.layout.trans hgh.layout, ?_, ?_, ?_⟩
  · intro id hid
    rw [hgh.preds id (hmem id hid), hfg.preds id hid]
  · intro id hid source hs
    exact hfg.sources id hid source (hgh.sources id (hmem id hid) source hs).2
  · intro id blk hblk
    obtain ⟨blk₁, hblk₁, hlabel₁⟩ := hfg.labels id blk hblk
    obtain ⟨blk₂, hblk₂, hlabel₂⟩ := hgh.labels id blk₁ hblk₁
    exact ⟨blk₂, hblk₂, hlabel₂.trans hlabel₁⟩

/-- If no edges are added at all, it is enough to keep the layout. -/
theorem of_succsAt (hext : f.Extends g) (hlayout : g.layout = f.layout)
    (hsuccs : ∀ id, g.succsAt id = f.succsAt id)
    (hplaced : ∀ source target, target ∈ f.succsAt source → source ∈ f.layout)
    (hlabels : ∀ id blk, f.block? id = some blk → ∃ blk', g.block? id = some blk' ∧
      blk'.label = blk.label) : f.GrowsTo g := by
  refine ⟨hext, ?_, ?_, ?_, ?_, hlabels⟩
  · rw [ entry?, entry?, hlayout]
  · rw [hlayout]
  · intro id _
    refine preds_congr ?_ id
    show g.edgesFrom g.layout = f.edgesFrom f.layout
    rw [hlayout]
    exact edgesFrom_congr fun id _ => hsuccs id
  · intro id _ source hs
    rw [hsuccs] at hs
    exact ⟨hplaced source id hs, hs⟩

variable (hfg : f.GrowsTo g)

include hfg

theorem mem_layout {id : BlockId} (hid : id ∈ f.layout) : id ∈ g.layout := hfg.layout.subset hid

/-- A block that had no place is not the entry. -/
theorem entry_ne {id : BlockId} (hid : id ∉ f.layout) : g.entry? ≠ some id := by
  intro hentry
  rw [hfg.entry] at hentry
  exact hid (List.mem_of_mem_head? hentry)

theorem way {before : List BlockId} {id : BlockId} (hw : f.Way before id) : g.Way before id := by
  induction hw with
  | entry hentry => exact .entry (hfg.entry.trans hentry)
  | edge _ he ih => exact .edge ih (hfg.grown.mem_succsAt he)

/-- A way to a block that had a place led there before. -/
theorem way_back {before : List BlockId} {id : BlockId} (hid : id ∈ f.layout)
    (hw : g.Way before id) : f.Way before id := by
  induction hw with
  | entry hentry => exact .entry (hfg.entry.symm.trans hentry)
  | @edge before source target _ he ih =>
    obtain ⟨hsource, hs⟩ := hfg.sources target hid source he
    exact .edge (ih hsource) hs

theorem dominates {a id : BlockId} (hid : id ∈ f.layout) (hd : f.Dominates a id) :
    g.Dominates a id :=
  fun before hw => hd before (hfg.way_back hid hw)

theorem available {id : BlockId} {v : Operand} (hid : id ∈ f.layout) (hv : f.Available id v) :
    g.Available id v := by
  intro i hi
  obtain ⟨home, hmem, hdom⟩ := hv i hi
  exact ⟨home, (hfg.grown.instsAt_prefix home).subset hmem, hfg.dominates hid hdom⟩

/-- A block that stands before another, or before a block without a place, does so still. -/
theorem idxOf_lt {id s : BlockId} (hid : id ∈ f.layout)
    (hlt : f.layout.idxOf id < f.layout.idxOf s) : g.layout.idxOf id < g.layout.idxOf s := by
  obtain ⟨more, hmore⟩ := hfg.layout
  rw [← hmore, List.idxOf_append_of_mem hid]
  by_cases hs : s ∈ f.layout
  · rw [List.idxOf_append_of_mem hs]
    exact hlt
  · rw [List.idxOf_append_of_notMem hs]
    have := List.idxOf_lt_length_of_mem hid
    omega

end GrowsTo

/-! ### Blocks -/

/-- Instruction `i` of block `id` reads values that are available there, and the entries of a `phi` are
available where they come from. -/
def Reads (f : Function) (id : BlockId) (i : InstId) : Prop :=
  ∃ inst, f.inst? i = some inst ∧ (∀ v ∈ inst.op.operands, f.Available id v) ∧
    ∀ arm ∈ inst.op.arms, arm.2 ∈ f.layout ∧ f.Available arm.2 arm.1

/-- A block that can be reached.  Its edges lead to blocks behind it in the layout or without a place,
and whatever is read in it is available. -/
structure Orderly (f : Function) (id : BlockId) : Prop where
  reached : ∃ before, f.Way before id
  forward : ∀ s ∈ f.succsAt id, f.layout.idxOf id < f.layout.idxOf s
  insts : ∀ i ∈ f.instsAt id, f.Reads id i
  ends : ∀ blk t, f.block? id = some blk → blk.terminator? = some t →
    ∀ v ∈ t.operands, f.Available id v

theorem GrowsTo.reads (hfg : f.GrowsTo g) {id : BlockId} {i : InstId} (hid : id ∈ f.layout)
    (hr : f.Reads id i) : g.Reads id i := by
  obtain ⟨inst, hinst, hoperands, harms⟩ := hr
  refine ⟨inst, hfg.grown.insts i inst hinst, fun v hv => hfg.available hid (hoperands v hv), ?_⟩
  intro arm harm
  obtain ⟨hmem, hv⟩ := harms arm harm
  exact ⟨hfg.mem_layout hmem, hfg.available hmem hv⟩

/-- A block that keeps its instructions stays in order if its end is. -/
theorem GrowsTo.orderly_of_instsAt (hfg : f.GrowsTo g) {id : BlockId} (hid : id ∈ f.layout)
    (ho : f.Orderly id) (hinsts : g.instsAt id = f.instsAt id)
    (hforward : ∀ s ∈ g.succsAt id, f.layout.idxOf id < f.layout.idxOf s)
    (hends : ∀ blk t, g.block? id = some blk → blk.terminator? = some t →
      ∀ v ∈ t.operands, f.Available id v) : g.Orderly id := by
  obtain ⟨before, hw⟩ := ho.reached
  refine ⟨⟨before, hfg.way hw⟩, fun s hs => hfg.idxOf_lt hid (hforward s hs), ?_, ?_⟩
  · intro i hi
    rw [hinsts] at hi
    exact hfg.reads hid (ho.insts i hi)
  · intro blk t hblk ht v hv
    exact hfg.available hid (hends blk t hblk ht v hv)

/-- A block that is left alone stays in order. -/
theorem GrowsTo.orderly (hfg : f.GrowsTo g) {id : BlockId} (hid : id ∈ f.layout)
    (hblock : g.block? id = f.block? id) (ho : f.Orderly id) : g.Orderly id := by
  refine hfg.orderly_of_instsAt hid ho (instsAt_congr hblock) ?_ ?_
  · rw [succsAt_congr hblock]
    exact ho.forward
  · rw [hblock]
    exact ho.ends

/-- The label of a block is `base`, with a number behind it if `base` was taken. -/
def Labelled (f : Function) (id : BlockId) (base : String) : Prop :=
  ∃ blk, f.block? id = some blk ∧ (blk.label = base ∨ ∃ n : Nat, blk.label = base ++ n.repr)

/-- The `phi` instructions of a block. -/
def phisAt (f : Function) (id : BlockId) : List InstId :=
  (f.instsAt id).filter fun i => (f.inst? i).any fun inst => inst.op.isPhi

/-- What a block is there for. -/
inductive Role (f : Function) (id : BlockId) : Prop
  | entry (hentry : f.entry? = some id) (hlabel : f.Labelled id "entry") (hphis : f.phisAt id = [])
  | branch {source : BlockId} (hlabel : f.Labelled id "then" ∨ f.Labelled id "else")
      (hpreds : f.placement.preds id = [source]) (hphis : f.phisAt id = [])
  | join {s₁ s₂ : BlockId} {v₁ v₂ : Operand} {i : InstId} {inst : Inst}
      (hlabel : f.Labelled id "ifcont") (hpreds : f.placement.preds id = [s₁, s₂]) (hne : s₁ ≠ s₂)
      (hphis : f.phisAt id = [i]) (hinst : f.inst? i = some inst)
      (hop : inst.op = .phi [(v₁, s₁), (v₂, s₂)])

theorem GrowsTo.labelled (hfg : f.GrowsTo g) {id : BlockId} {base : String}
    (hl : f.Labelled id base) : g.Labelled id base := by
  obtain ⟨blk, hblk, hlabel⟩ := hl
  obtain ⟨blk', hblk', hsame⟩ := hfg.labels id blk hblk
  exact ⟨blk', hblk', hsame ▸ hlabel⟩

/-- A block keeps its role while it gets no `phi`. -/
theorem GrowsTo.role (hfg : f.GrowsTo g) {id : BlockId} (hid : id ∈ f.layout)
    (hphis : g.phisAt id = f.phisAt id) (hr : f.Role id) : g.Role id := by
  cases hr with
  | entry hentry hlabel hnone =>
    exact .entry (hfg.entry.trans hentry) (hfg.labelled hlabel) (hphis.trans hnone)
  | branch hlabel hpreds hnone =>
    exact .branch (hlabel.imp hfg.labelled hfg.labelled) ((hfg.preds id hid).trans hpreds)
      (hphis.trans hnone)
  | join hlabel hpreds hne hone hinst hop =>
    exact .join (hfg.labelled hlabel) ((hfg.preds id hid).trans hpreds) hne (hphis.trans hone)
      (hfg.grown.insts _ _ hinst) hop

/-- Instructions that exist are as much a `phi` afterwards as before. -/
theorem GrowsTo.phisAt_eq (hfg : f.GrowsTo g) {id : BlockId} (ho : f.Orderly id)
    (hinsts : g.instsAt id = f.instsAt id) : g.phisAt id = f.phisAt id := by
  rw [phisAt, phisAt, hinsts]
  refine List.filter_congr fun i hi => ?_
  obtain ⟨inst, hinst, -⟩ := ho.insts i hi
  rw [hinst, hfg.grown.insts i inst hinst]

end Function

end Ir

end ScalarLang
