import ScalarLang.Proofs.Building

/-!
# Names in functions

Parameters, instructions and blocks of a function share one set of names.  A name is reserved as it is if
it is free, and otherwise with a number behind it.  The number only goes up, and it is shared by all names,
so a name with a number can meet one that was asked for as it is; then the search goes on.  It comes to an
end because different numbers give different names, and only finitely many are taken.

* `Ir.Function.Settles` — the search for a free name has come to an end.
* `Ir.Function.unique_settles` — it does so for every function and every name.
* `Ir.Reserved` — a record of reservations in which each name is new.
* `Ir.Builder.Step`, `Ir.Builder.run` — what can be done with a function under construction.
* `Ir.Function.Named` — the names of a function are those of a record, and all its own are distinct.
* `Ir.Builder.names_distinct` — so it is for every function, however it is built.
-/

namespace ScalarLang

namespace Ir

/-! ### The search for a free name -/

namespace Function

variable {names : List String} {base name : String} {last : Nat} {result : String × Nat}

/-- The search that stands at `name` ends with `result`: a free name is taken, and otherwise the number goes
up by one and is put behind `base`. -/
inductive Settles (names : List String) (base : String) : String → Nat → String × Nat → Prop
  | free {name : String} {last : Nat} (h : name ∉ names) : Settles names base name last (name, last)
  | taken {name : String} {last : Nat} {result : String × Nat} (h : name ∈ names)
      (hnext : Settles names base (base ++ (last + 1).repr) (last + 1) result) :
      Settles names base name last result

theorem Settles.not_mem (h : Settles names base name last result) : result.1 ∉ names := by
  induction h with
  | free h => exact h
  | taken _ _ ih => exact ih

theorem Settles.eq_append (h : Settles names base name last result)
    (hname : ∃ n : Nat, name = base ++ n.repr) : ∃ n : Nat, result.1 = base ++ n.repr := by
  induction h with
  | free _ => exact hname
  | taken _ _ ih => exact ih ⟨_, rfl⟩

/-- Behind a name that is taken the search goes on to one with a number. -/
theorem Settles.eq_append_of_mem (h : Settles names base name last result) (hmem : name ∈ names) :
    ∃ n : Nat, result.1 = base ++ n.repr := by
  cases h with
  | free hfree => exact absurd hmem hfree
  | taken _ hnext => exact hnext.eq_append ⟨_, rfl⟩

theorem numbered_injective (base : String) :
    (fun n : Nat => base ++ n.repr).Injective := by
  intro m n h
  exact Nat.repr_injective ((String.append_right_inj base).1 h)

/-- One more number than there are names gives a free name. -/
theorem exists_free (names : List String) (base : String) (last : Nat) :
    ∃ k < names.length + 1, base ++ (last + 1 + k).repr ∉ names := by
  by_contra hall
  push Not at hall
  let candidates := (List.range (names.length + 1)).map fun k => base ++ (last + 1 + k).repr
  have hnodup : candidates.Nodup := by
    refine List.Nodup.map (fun m n h => ?_) List.nodup_range
    exact Nat.add_left_cancel (numbered_injective base h)
  have hsubset : candidates ⊆ names := by
    intro candidate hc
    obtain ⟨k, hk, rfl⟩ := List.mem_map.1 hc
    exact hall k (List.mem_range.1 hk)
  have hlength := hnodup.length_le_of_subset hsubset
  rw [List.length_map, List.length_range] at hlength
  omega

/-- If one of the names that are tried is free, the search comes to its end. -/
theorem freeSuffix_settles {tries : Nat}
    (h : ∃ k < tries, base ++ (last + 1 + k).repr ∉ names) :
    Settles names base (base ++ (last + 1).repr) (last + 1) (freeSuffix names base tries last) := by
  induction tries generalizing last with
  | zero =>
    obtain ⟨k, hk, -⟩ := h
    exact absurd hk (Nat.not_lt_zero k)
  | succ tries ih =>
    rw [freeSuffix]
    split
    · next htaken =>
      have hmem : base ++ (last + 1).repr ∈ names := by simpa using htaken
      refine .taken hmem (ih ?_)
      obtain ⟨k, hk, hfree⟩ := h
      cases k with
      | zero => exact absurd hmem hfree
      | succ k =>
        refine ⟨k, Nat.lt_of_succ_lt_succ hk, ?_⟩
        rw [Nat.add_right_comm]
        exact hfree
    · next hfree => exact .free (by simpa using hfree)

/-- **The search for a free name comes to an end**, whatever names are taken. -/
theorem unique_settles (f : Function) (base : String) :
    Settles f.names base base f.lastSuffix ((f.unique base).1, (f.unique base).2.lastSuffix) := by
  unfold unique
  split
  · next htaken =>
    exact .taken (by simpa using htaken) (freeSuffix_settles (exists_free f.names base f.lastSuffix))
  · next hfree => exact .free (by simpa using hfree)

@[simp] theorem names_unique (f : Function) (base : String) :
    (f.unique base).2.names = (f.unique base).1 :: f.names := by
  unfold unique
  split <;> rfl

theorem unique_of_not_mem {f : Function} (h : base ∉ f.names) : (f.unique base).1 = base := by
  rw [unique, if_neg (by simpa using h)]

theorem unique_of_mem {f : Function} (h : base ∈ f.names) :
    ∃ n : Nat, (f.unique base).1 = base ++ n.repr :=
  (f.unique_settles base).eq_append_of_mem h

end Function

/-! ### Records of reservations -/

/-- A record of what was asked for and what was given, in order.  Each name is new; it is what was asked for
if that was free, and otherwise has a number behind it. -/
inductive Reserved : List (String × String) → Prop
  | nil : Reserved []
  | snoc {calls : List (String × String)} {base name : String} (h : Reserved calls)
      (hnew : name ∉ calls.map Prod.snd) (hfree : base ∉ calls.map Prod.snd → name = base)
      (htaken : base ∈ calls.map Prod.snd → ∃ n : Nat, name = base ++ n.repr) :
      Reserved (calls ++ [(base, name)])

namespace Function

variable {f g : Function} {calls : List (String × String)}

/-- The names of the parameters, the instructions and the blocks. -/
def ownNames (f : Function) : List String :=
  f.params.map Param.name ++ f.insts.toList.map Inst.name ++ f.blocks.toList.map Block.label

/-- The names that are taken are those of the record, and the function's own are distinct ones of them. -/
structure Named (f : Function) (calls : List (String × String)) : Prop where
  reserved : Reserved calls
  mem_names_iff : ∀ name, name ∈ f.names ↔ name ∈ calls.map Prod.snd
  own : ∀ name ∈ f.ownNames, name ∈ f.names
  nodup : f.ownNames.Nodup

namespace Named

/-- Reserving a name adds to the record. -/
theorem unique (h : f.Named calls) (base : String) :
    (f.unique base).2.Named (calls ++ [(base, (f.unique base).1)]) := by
  have hnew := (f.unique_settles base).not_mem
  have hown : (f.unique base).2.ownNames = f.ownNames := by simp [ownNames]
  refine ⟨.snoc h.reserved ?_ ?_ ?_, fun name => ?_, fun name hname => ?_, ?_⟩
  · rw [← h.mem_names_iff]
    exact hnew
  · rw [← h.mem_names_iff]
    exact unique_of_not_mem
  · rw [← h.mem_names_iff]
    exact unique_of_mem
  · rw [names_unique, List.mem_cons, h.mem_names_iff, List.map_append, List.mem_append, or_comm]
    simp
  · rw [hown] at hname
    rw [names_unique]
    exact List.mem_cons_of_mem _ (h.own name hname)
  · rw [hown]
    exact h.nodup

/-- A function with the same names is named by the same record. -/
theorem of_ownNames (h : f.Named calls) (hnames : g.names = f.names) (hown : g.ownNames = f.ownNames) :
    g.Named calls :=
  ⟨h.reserved, by rw [hnames]; exact h.mem_names_iff, by rw [hnames, hown]; exact h.own,
    by rw [hown]; exact h.nodup⟩

/-- Something under the name that was reserved last can be added. -/
theorem add (h : f.Named calls) (base : String) (hnames : g.names = (f.unique base).2.names)
    (hown : g.ownNames.Perm ((f.unique base).1 :: f.ownNames)) :
    g.Named (calls ++ [(base, (f.unique base).1)]) := by
  have hu := h.unique base
  refine ⟨hu.reserved, by rw [hnames]; exact hu.mem_names_iff, fun name hname => ?_, ?_⟩
  · rw [hnames, names_unique]
    rcases List.mem_cons.1 (hown.mem_iff.1 hname) with rfl | hname
    · exact List.mem_cons_self
    · exact List.mem_cons_of_mem _ (h.own name hname)
  · rw [hown.nodup_iff, List.nodup_cons]
    exact ⟨fun hmem => (f.unique_settles base).not_mem (h.own _ hmem), h.nodup⟩

theorem addParam (h : f.Named calls) (p : Param) :
    (f.addParam p).Named (calls ++ [(p.name, (f.unique p.name).1)]) := by
  refine h.add p.name rfl ?_
  simp only [ownNames, Function.addParam, unique_params, unique_insts, unique_blocks, List.map_append,
    List.map_cons, List.map_nil, List.append_assoc, List.cons_append, List.nil_append]
  exact List.perm_middle

end Named

theorem foldl_addParam_named (params : List Param) (h : f.Named calls) :
    ∃ added : List Param, (params.foldl addParam f).params = f.params ++ added ∧
      added.length = params.length ∧ (params.foldl addParam f).Named
        (calls ++ (params.map Param.name).zip (added.map Param.name)) := by
  induction params generalizing f calls with
  | nil => exact ⟨[], by simp, rfl, by simpa using h⟩
  | cons p params ih =>
    obtain ⟨added, hparams, hlength, hnamed⟩ := ih (h.addParam p)
    refine ⟨⟨(f.unique p.name).1, p.ty⟩ :: added, ?_, by simp [hlength], ?_⟩
    · rw [List.foldl_cons, hparams]
      simp [addParam]
    · rw [List.append_assoc] at hnamed
      exact hnamed

/-- The parameters of a declaration are named one after the other. -/
theorem declare_named (name : String) (params : List Param) (ret : Ty) :
    (declare name params ret).Named
      ((params.map Param.name).zip ((declare name params ret).params.map Param.name)) := by
  have hempty : ({ name, ret } : Function).Named [] :=
    ⟨.nil, by simp, by simp [ownNames], by simp [ownNames]⟩
  obtain ⟨added, hparams, -, hnamed⟩ := foldl_addParam_named params hempty
  have hadded : (declare name params ret).params = added := hparams
  rw [hadded]
  exact hnamed

end Function

/-! ### Functions under construction -/

namespace Builder

variable {b : Builder} {record : List (String × String)}

/-- What can be done with a function under construction: to reserve a name for nothing, to make blocks and
give them a place, to move the cursor, to add an instruction, to end the block at the cursor, and to start
again with the function as it is. -/
inductive Step where
  | reserve (base : String)
  | createBlock (label : String)
  | appendBlock (id : BlockId)
  | appendNewBlock (label : String)
  | position (id : BlockId)
  | binary (code : Arith) (lhs rhs : Operand) (name : String)
  | icmp (pred : IntPred) (lhs rhs : Operand) (name : String)
  | fcmp (pred : FloatPred) (lhs rhs : Operand) (name : String)
  | zext (value : Operand) (name : String)
  | uitofp (value : Operand) (name : String)
  | call (callee : String) (ret : Ty) (args : List Operand) (name : String)
  | phi (ty : Ty) (incoming : List (Operand × BlockId)) (name : String)
  | terminate (t : Terminator)
  | restart
deriving DecidableEq, Repr

namespace Step

/-- The name that the step asks for. -/
def base? : Step → Option String
  | reserve base => some base
  | createBlock label => some label
  | appendNewBlock label => some label
  | binary _ _ _ name => some name
  | icmp _ _ _ name => some name
  | fcmp _ _ _ name => some name
  | zext _ name => some name
  | uitofp _ name => some name
  | call _ _ _ name => some name
  | phi _ _ name => some name
  | appendBlock _ | position _ | terminate _ | restart => none

/-- The builder after the step. -/
def after (b : Builder) : Step → Builder
  | reserve base => { b with function := (b.function.unique base).2 }
  | createBlock label => (b.createBlock label).2
  | appendBlock id => b.appendBlock id
  | appendNewBlock label => (b.appendNewBlock label).2
  | position id => b.position id
  | binary code lhs rhs name => (b.binary code lhs rhs name).2
  | icmp pred lhs rhs name => (b.icmp pred lhs rhs name).2
  | fcmp pred lhs rhs name => (b.fcmp pred lhs rhs name).2
  | zext value name => (b.zext value name).2
  | uitofp value name => (b.uitofp value name).2
  | call callee ret args name => (b.call callee ret args name).2
  | phi ty incoming name => (b.phi ty incoming name).2
  | terminate t => b.terminate t
  | restart => { function := b.function }

/-- What the step asks for and what it is given, if it asks for a name. -/
def calls (b : Builder) (s : Step) : List (String × String) :=
  s.base?.toList.map fun base => (base, (b.function.unique base).1)

end Step

/-- The builder after a sequence of steps. -/
def run (b : Builder) (steps : List Step) : Builder := steps.foldl Step.after b

/-- What a sequence of steps asks for and what it is given, in order. -/
def calls : Builder → List Step → List (String × String)
  | _, [] => []
  | b, s :: steps => s.calls b ++ calls (s.after b) steps

/-! What each operation does to the names -/

@[simp] theorem names_modifyBlock (change : Block → Block) :
    (b.modifyBlock change).function.names = b.function.names := by
  unfold modifyBlock
  split <;> rfl

theorem map_label_modify (blocks : Array Block) (id : BlockId) {change : Block → Block}
    (h : ∀ block, (change block).label = block.label) :
    (blocks.modify id change).toList.map Block.label = blocks.toList.map Block.label := by
  refine List.ext_getElem? fun i => ?_
  rw [List.getElem?_map, List.getElem?_map, Array.getElem?_toList, Array.getElem?_toList,
    Array.getElem?_modify]
  split
  · rw [Option.map_map]
    exact congrArg (fun g => blocks[i]?.map g) (funext h)
  · rfl

theorem ownNames_modifyBlock {change : Block → Block}
    (h : ∀ block, (change block).label = block.label) :
    (b.modifyBlock change).function.ownNames = b.function.ownNames := by
  unfold modifyBlock
  split
  · simp only [Function.ownNames, map_label_modify _ _ h]
  · rfl

theorem named_createBlock (h : b.function.Named record) (label : String) :
    (b.createBlock label).2.function.Named (record ++ [(label, (b.function.unique label).1)]) := by
  refine h.add label rfl ?_
  simp only [Function.ownNames, createBlock, Function.unique_params, Function.unique_insts,
    Function.unique_blocks, Array.toList_push, List.map_append, List.map_cons, List.map_nil]
  rw [← List.append_assoc]
  exact List.perm_append_singleton _ _

theorem named_appendBlock (h : b.function.Named record) (id : BlockId) :
    (b.appendBlock id).function.Named record := by
  unfold appendBlock
  split
  · exact h
  · exact h.of_ownNames rfl rfl

theorem named_terminate (h : b.function.Named record) (t : Terminator) :
    (b.terminate t).function.Named record :=
  h.of_ownNames (names_modifyBlock _) (ownNames_modifyBlock fun _ => rfl)

theorem named_push (h : b.function.Named record) (name : String) (ty : Ty) (op : Op) :
    (b.push name ty op).2.function.Named (record ++ [(name, (b.function.unique name).1)]) := by
  refine h.add name ?_ ?_
  · simp [push]
  · simp only [push]
    rw [ownNames_modifyBlock (by simp)]
    simp only [Function.ownNames, Function.unique_params, Function.unique_insts,
      Function.unique_blocks, Array.toList_push, List.map_append, List.map_cons, List.map_nil,
      List.append_assoc, List.cons_append, List.nil_append]
    rw [← List.append_assoc, ← List.append_assoc]
    exact List.perm_middle

/-- A step keeps the record, with what the step asks for behind it. -/
theorem named_after (h : b.function.Named record) (s : Step) :
    (s.after b).function.Named (record ++ s.calls b) := by
  have hnone : ∀ {s : Step} {f : Function}, s.base? = none → f.Named record →
      f.Named (record ++ s.calls b) := by
    intro s f hs hf
    rw [Step.calls, hs]
    simpa using hf
  cases s with
  | reserve base => exact h.unique base
  | createBlock label => exact named_createBlock h label
  | appendBlock id => exact hnone rfl (named_appendBlock h id)
  | appendNewBlock label => exact named_appendBlock (named_createBlock h label) _
  | position id => exact hnone rfl h
  | binary code lhs rhs name => exact named_push h name _ _
  | icmp pred lhs rhs name => exact named_push h name _ _
  | fcmp pred lhs rhs name => exact named_push h name _ _
  | zext value name => exact named_push h name _ _
  | uitofp value name => exact named_push h name _ _
  | call callee ret args name => exact named_push h name _ _
  | phi ty incoming name => exact named_push h name _ _
  | terminate t => exact hnone rfl (named_terminate h t)
  | restart => exact hnone rfl h

/-- Any sequence of steps keeps the record. -/
theorem named_run (h : b.function.Named record) (steps : List Step) :
    (b.run steps).function.Named (record ++ b.calls steps) := by
  induction steps generalizing b record with
  | nil => simpa [Builder.calls, run] using h
  | cons s steps ih =>
    have hrest := ih (named_after h s)
    rw [List.append_assoc] at hrest
    exact hrest

/-- **Names in a function never collide.**  Start with a declaration, whatever its parameters are called, and
build in any way, with names of any kind.  Each name that is given is new: it is what was asked for if that
was free, and otherwise has a number behind it.  The search for the next one comes to an end, whatever is
asked for.  So the names of the parameters, the instructions and the blocks are distinct. -/
theorem names_distinct (name : String) (params : List Param) (ret : Ty) (steps : List Step) :
    let start : Builder := { function := .declare name params ret }
    let f := (start.run steps).function
    let calls := (params.map Param.name).zip (start.function.params.map Param.name) ++ start.calls steps
    Reserved calls ∧ (∀ name, name ∈ f.names ↔ name ∈ calls.map Prod.snd) ∧
      (∀ base, Function.Settles f.names base base f.lastSuffix
        ((f.unique base).1, (f.unique base).2.lastSuffix)) ∧
      (f.params.map Param.name ++ f.insts.toList.map Inst.name ++ f.blocks.toList.map Block.label).Nodup := by
  intro start f calls
  have hstart : start.function.Named _ := Function.declare_named name params ret
  have h : f.Named calls := named_run hstart steps
  exact ⟨h.reserved, h.mem_names_iff, fun base => f.unique_settles base, h.nodup⟩

end Builder

end Ir

end ScalarLang
