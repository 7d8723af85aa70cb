import ScalarLang.Compiler
import ScalarLang.Proofs.Generated

/-!
# What a session leaves in the module

A unit either leaves the module as it is, or reads a definition and puts its function at the end.  The
function of an expression is in the module while it runs and is gone afterwards.  It cannot be in the
way of anything: no source text can spell its name.

* `Cursor.Proper` — no token spells the name of the function of an expression.
* `Ir.Module.Implements` — the functions of a module came of these definitions, one by one.
* `Session.read?` — the definition that the next unit reads.
* `Session.Reached`, `Compiler.Reached` — the sessions and compilers that compiling texts leads to.
* `Session.Sound`, `Session.Sound.next` — what holds of all reached sessions, and that a unit keeps it.
* `Compiler.Reached.compile_functions` — a text adds the functions of its definitions and nothing else.
* `Compiler.Reached.no_internal_failure` — whatever can be read can be lowered.
-/

namespace ScalarLang

/-! ### Names in source text -/

/-- The token is not the name under which expressions are compiled. -/
def Token.Proper (t : Token) : Prop := t.kind ≠ .identifier Prototype.anonymousName

/-- No token at or behind the cursor is the name under which expressions are compiled. -/
structure Cursor.Proper (c : Cursor) : Prop where
  current : c.current.Proper
  ahead : ∀ t, .ok t ∈ c.ahead → t.Proper
  final : c.final.Proper

theorem Token.Kind.eq_of_ofWord {word name : String} (h : ofWord word = .identifier name) :
    word = name := by
  rw [ofWord, ofReserved?, reserved] at h
  simp only [List.lookup] at h
  repeat' split at h
  all_goals simp_all

/-- A word starts with a letter, so it is not the name under which expressions are compiled. -/
theorem itemOf_proper {slice : List Char} {span : Span} {t : Token}
    (h : itemOf slice span = .ok t) : t.Proper := by
  intro hk
  unfold itemOf at h
  split at h
  · cases h
    cases hk
  · next c cs =>
    split at h
    · next hstart =>
      cases h
      have hword : c :: cs = Prototype.anonymousName.toList := by
        rw [← Token.Kind.eq_of_ofWord hk, String.toList_ofList]
      have hc : c = '_' := (List.cons.inj hword).1
      rw [hc] at hstart
      revert hstart
      decide
    · split at h
      · unfold numberItem at h
        split at h <;> cases h <;> cases hk
      · split at h <;> cases h <;> cases hk

theorem Lexer.contentsFor_proper (n : Nat) (lx : Lexer) :
    (∀ t, .ok t ∈ (lx.contentsFor n).1 → t.Proper) ∧ (lx.contentsFor n).2.Proper := by
  induction n generalizing lx with
  | zero => exact ⟨by simp [contentsFor], by simp [contentsFor, Token.Proper]⟩
  | succ n ih =>
    have hnext : ∀ t, lx.next.1 = .ok t → t.Proper := fun t ht => itemOf_proper ht
    rw [contentsFor]
    split
    · next t lx' hn =>
      have ht := hnext t (by rw [hn])
      split
      · exact ⟨by simp, ht⟩
      · refine ⟨fun u hu => ?_, (ih lx').2⟩
        rcases List.mem_cons.1 hu with hu | hu
        · cases hu
          exact ht
        · exact (ih lx').1 u hu
    · next e lx' _ =>
      refine ⟨fun u hu => ?_, (ih lx').2⟩
      rcases List.mem_cons.1 hu with hu | hu
      · cases hu
      · exact (ih lx').1 u hu

namespace Cursor

theorem proper_ofText (text : String) : (ofText text).Proper := by
  obtain ⟨hahead, hfinal⟩ := Lexer.contentsFor_proper ((Lexer.ofText text).rest.length + 1)
    (Lexer.ofText text)
  exact ⟨by simp [ofText, Token.Proper], hahead, hfinal⟩

theorem proper_stable : Stable Proper := by
  intro c hc
  unfold step
  split
  · exact ⟨hc.final, hc.ahead, hc.final⟩
  · next t ahead hahead =>
    have hmem := hc.ahead
    rw [hahead] at hmem
    exact ⟨hmem t List.mem_cons_self, fun u hu => hmem u (List.mem_cons_of_mem _ hu), hc.final⟩
  · next e ahead hahead =>
    have hmem := hc.ahead
    rw [hahead] at hmem
    exact ⟨hc.current, fun u hu => hmem u (List.mem_cons_of_mem _ hu), hc.final⟩

theorem Proper.seekFrom {final current : Token} {ahead : List Item}
    (h : (⟨current, ahead, final⟩ : Cursor).Proper) :
    (Cursor.seekFrom final current ahead).2.Proper := by
  induction ahead generalizing current with
  | nil =>
    rw [Cursor.seekFrom]
    split
    · exact h
    · exact ⟨h.final, h.ahead, h.final⟩
    · exact h
  | cons item ahead ih =>
    rw [Cursor.seekFrom.eq_def]
    simp only
    split
    · exact h
    · split
      · exact ih (proper_stable _ h)
      · exact ⟨h.current, fun u hu => h.ahead u (List.mem_cons_of_mem _ hu), h.final⟩
    · exact h

/-- Looking for the next unit keeps to the tokens of the text. -/
theorem Proper.seek {c : Cursor} (h : c.Proper) (needsAdvance : Bool) :
    (c.seek needsAdvance).2.Proper := by
  have hstep := proper_stable c h
  unfold step at hstep
  unfold Cursor.seek
  split
  · split <;> simp_all [Proper.seekFrom]
  · exact h.seekFrom

end Cursor

/-! ### Definitions and their functions -/

namespace Ir.Module

variable {m m' : Module} {d : Definition} {ds : List Definition}

/-- The functions of a module came of these definitions, one by one.  What was known of the module when
a body was lowered still holds. -/
def Implements (m : Module) (ds : List Definition) : Prop :=
  List.Forall₂ (fun f d => ∃ m₁ : Module, f.Implements d m₁ ∧
    ∀ name s, m₁.signature? name = some s → m.signature? name = some s) m.functions ds

/-- A definition that is typed against a module without a function of its name. -/
structure Accepts (m : Module) (d : Definition) : Prop where
  typed : d.Typed (Program.ownSignatures m.signature? d.proto)
  new : m.contains d.proto.name = false

theorem signature?_resolved (m : Module) : Program.Resolved m.signature? := by
  intro name sig hsig
  obtain ⟨f, -, hf⟩ := signature?_eq_some_iff.1 hsig
  have hret := hf.ret
  cases hty : sig.ret with
  | unresolved =>
    rw [hty] at hret
    cases hret
  | int => rfl
  | double => rfl

theorem signature?_eq_none_of_contains {name : String} (h : m.contains name = false) :
    m.signature? name = none := by
  rw [Option.eq_none_iff_forall_ne_some]
  intro sig hsig
  obtain ⟨f, hf, -⟩ := signature?_eq_some_iff.1 hsig
  rw [get?_eq_none_of_contains h] at hf
  cases hf

/-- **Adding the function of an accepted definition succeeds**, and the module is that of one more
definition. -/
theorem Accepts.generate (hd : m.Accepts d) :
    ∃ f m', m.generate d = (.ok f, m') ∧ m'.name = m.name ∧ m'.functions = m.functions ++ [f] ∧
      f.name = d.proto.name ∧ ∀ ds, m.Implements ds → m'.Implements (ds ++ [d]) := by
  obtain ⟨f, m', m₁, hgen, hname, hfunctions, himp, hsigs⟩ := generate_typed hd.typed hd.new
  refine ⟨f, m', hgen, hname, hfunctions, himp.name, fun ds hds => ?_⟩
  rw [Implements, hfunctions]
  refine List.rel_append (hds.imp ?_) (.cons ⟨m₁, himp, hsigs⟩ .nil)
  intro g e hg
  obtain ⟨m₂, hge, hold⟩ := hg
  exact ⟨m₂, hge, fun name s hs => signature?_append hfunctions (hold name s hs)⟩

theorem generate_of_contains (h : m.contains d.proto.name = true) :
    m.generate d = (.error (.typing (.redefinition d.proto.name d.proto.span)), m) := by
  rw [generate, if_pos h]

/-- A definition that is read is accepted, unless its name is taken. -/
theorem accepts_of_definition {table : PrecedenceTable} {c c' : Cursor}
    (h : Program.definition table m.signature? c = .ok d c')
    (hnew : m.contains d.proto.name = false) : m.Accepts d := by
  have hreads := Program.definition_reads (I := fun _ => True) (fun _ _ => trivial) table
    m.signature?_resolved (N := fun _ => True) fun _ _ _ _ => trivial
  exact ⟨(hreads.ok trivial h).2.1, hnew⟩

/-- An expression that is read is accepted, if no other is in the module. -/
theorem accepts_of_topLevel {table : PrecedenceTable} {c c' : Cursor}
    (h : Program.topLevel table m.signature? c = .ok d c')
    (hnew : m.contains Prototype.anonymousName = false) :
    m.Accepts d ∧ d.proto.name = Prototype.anonymousName := by
  have hreads := Program.topLevel_reads (I := fun _ => True) (fun _ _ => trivial) table
    m.signature?_resolved
  obtain ⟨-, hd, span, hproto⟩ := hreads.ok trivial h
  have hname : d.proto.name = Prototype.anonymousName := by
    rw [hproto]
    rfl
  refine ⟨⟨⟨hd.names, hd.params, hd.body.mono fun name s hs => ?_, hd.ret⟩, hname ▸ hnew⟩, hname⟩
  -- the name of an expression means nothing in the module, so nothing is hidden by it
  rw [Program.ownSignatures, if_neg]
  · exact hs
  · intro heq
    rw [← heq, hname, signature?_eq_none_of_contains hnew] at hs
    cases hs

end Ir.Module

/-! ### Units -/

/-- Did the unit define a function? -/
def Outcome.isDefinition : Outcome → Bool
  | definition _ _ => true
  | _ => false

namespace Session

variable {s s' : Session} {report : Report} {ds : List Definition}

/-- The definition that the next unit reads, if it reads one. -/
def read? (s : Session) : Option Definition :=
  match s.cursor.seek s.needsAdvance with
  | (.unit, cursor) =>
    let reader := if cursor.current.kind = .kwDef then Program.definition else Program.topLevel
    match reader s.compiler.config.precedence s.compiler.module.signature? cursor with
    | .ok d _ => some d
    | .error _ _ => none
  | _ => none

/-- A unit that leaves the module as it is, and does not fail for an internal reason. -/
structure Keeps (m : Ir.Module) (unit : Report × Session) : Prop where
  module : unit.2.compiler.module = m
  outcome : unit.1.outcome.isDefinition = false
  category : ∀ diag, unit.1.outcome.diagnostic? = some diag → diag.category ≠ .codegen

/-- A unit that puts the function of a definition into the module. -/
structure Defines (m : Ir.Module) (d : Definition) (unit : Report × Session) : Prop where
  accepts : m.Accepts d
  proper : d.proto.name ≠ Prototype.anonymousName
  generate : ∃ f, m.generate d = (.ok f, unit.2.compiler.module) ∧
    unit.1.outcome = .definition d.proto.name f.text

theorem keeps_fail_input (s : Session) (events : List Event) (e : InputError) :
    Keeps s.compiler.module (s.fail events (.input e)) := by
  refine ⟨rfl, rfl, fun diag hdiag => ?_⟩
  cases hdiag
  cases e <;> simp [CompileError.toDiagnostic, CompileError.category]

/-- A definition is read and defined, or the module stays as it is. -/
theorem definition_cases (hc : s.cursor.Proper) :
    s.definition.2.cursor.Proper ∧
      (Keeps s.compiler.module s.definition ∨
        ∃ d cursor, Program.definition s.compiler.config.precedence s.compiler.module.signature?
          s.cursor = .ok d cursor ∧ Defines s.compiler.module d s.definition) := by
  have hreads := Program.definition_reads Cursor.proper_stable s.compiler.config.precedence
    s.compiler.module.signature?_resolved (N := (· ≠ Prototype.anonymousName)) (by
      intro c name hc hk heq
      exact hc.current (heq ▸ hk))
  cases hread : Program.definition s.compiler.config.precedence s.compiler.module.signature?
      s.cursor with
  | error e cursor =>
    have hdef : s.definition = fail { s with cursor }
        [.debug ("unit: definition at " ++ s.cursor.current.span.start.describe)] (.input e) := by
      rw [definition]
      simp only [hread]
    rw [hdef]
    exact ⟨hreads.error hc hread, .inl (keeps_fail_input { s with cursor } _ e)⟩
  | ok d cursor =>
    obtain ⟨hcursor, -, hproper, -⟩ := hreads.ok hc hread
    cases hnew : s.compiler.module.contains d.proto.name with
    | true =>
      have hgen := Ir.Module.generate_of_contains hnew
      unfold definition
      simp only [hread, hgen]
      refine ⟨hcursor, .inl ⟨rfl, rfl, fun diag hdiag => ?_⟩⟩
      cases hdiag
      simp [CompileError.toDiagnostic, CompileError.category]
    | false =>
      have haccepts := Ir.Module.accepts_of_definition hread hnew
      obtain ⟨f, m', hgen, -⟩ := haccepts.generate
      unfold definition
      simp only [hread, hgen]
      exact ⟨hcursor, .inr ⟨d, cursor, rfl, haccepts, hproper, f, hgen, rfl⟩⟩

@[simp] theorem evaluate_module (s : Session) :
    s.evaluate.2.compiler.module = s.compiler.module := by
  unfold evaluate
  split <;> rfl

@[simp] theorem evaluate_cursor (s : Session) : s.evaluate.2.cursor = s.cursor := by
  unfold evaluate
  split <;> rfl

/-- The function of an expression is taken out again, whatever became of it. -/
theorem expression_keeps (hc : s.cursor.Proper)
    (habsent : s.compiler.module.contains Prototype.anonymousName = false) :
    s.expression.2.cursor.Proper ∧ Keeps s.compiler.module s.expression := by
  have hreads := Program.topLevel_reads Cursor.proper_stable s.compiler.config.precedence
    s.compiler.module.signature?_resolved
  cases hread : Program.topLevel s.compiler.config.precedence s.compiler.module.signature?
      s.cursor with
  | error e cursor =>
    have hexp : s.expression = fail { s with cursor }
        [.debug ("unit: expression at " ++ s.cursor.current.span.start.describe)] (.input e) := by
      rw [expression]
      simp only [hread]
    rw [hexp]
    exact ⟨hreads.error hc hread, keeps_fail_input { s with cursor } _ e⟩
  | ok d cursor =>
    have hcursor := (hreads.ok hc hread).1
    obtain ⟨haccepts, hname⟩ := Ir.Module.accepts_of_topLevel hread habsent
    obtain ⟨f, m', hgen, hmname, hfunctions, hfname, -⟩ := haccepts.generate
    have hfanon : f.name = Prototype.anonymousName := hfname.trans hname
    have herase : m'.erase Prototype.anonymousName = s.compiler.module := by
      rw [← hfanon]
      exact Ir.Module.erase_eq_of_functions hmname hfunctions (hfanon ▸ habsent)
    unfold expression
    simp only [hread, hgen]
    split
    · refine ⟨?_, ?_, rfl, fun diag hdiag => by cases hdiag⟩
      · simpa [withModule] using hcursor
      · simpa [withModule] using herase
    · refine ⟨?_, ?_, rfl, fun diag hdiag => ?_⟩
      · simpa [withModule] using hcursor
      · simpa [withModule] using herase
      · cases hdiag
        simp

/-- **What a unit can do:** leave the module as it is, or define the function that it reads. -/
theorem next_cases {unit : Report × Session} (hc : s.cursor.Proper)
    (habsent : s.compiler.module.contains Prototype.anonymousName = false)
    (h : s.next = some unit) :
    unit.2.cursor.Proper ∧ (Keeps s.compiler.module unit ∨
      ∃ d, s.read? = some d ∧ Defines s.compiler.module d unit) := by
  have hseek := hc.seek s.needsAdvance
  unfold next at h
  split at h
  · cases h
  · next e cursor heq =>
    rw [heq] at hseek
    obtain rfl := Option.some.inj h
    exact ⟨hseek, .inl (keeps_fail_input { s with cursor, needsAdvance := true } _ _)⟩
  · next cursor heq =>
    rw [heq] at hseek
    have hunit := Option.some.inj h
    by_cases hk : cursor.current.kind = .kwDef
    · rw [if_pos hk] at hunit
      rw [← hunit]
      obtain ⟨hcursor, hkeeps | ⟨d, cursor', hread, hdefines⟩⟩ :=
        definition_cases (s := { s with cursor, needsAdvance := false }) hseek
      · exact ⟨hcursor, .inl hkeeps⟩
      · refine ⟨hcursor, .inr ⟨d, ?_, hdefines⟩⟩
        simp only [read?, heq, if_pos hk, hread]
    · rw [if_neg hk] at hunit
      rw [← hunit]
      have hexp := expression_keeps (s := { s with cursor, needsAdvance := false }) hseek habsent
      exact ⟨hexp.1, .inl hexp.2⟩

/-- What a unit reads is accepted, unless its name is taken. -/
theorem accepts_of_read? {d : Definition}
    (habsent : s.compiler.module.contains Prototype.anonymousName = false) (h : s.read? = some d)
    (hnew : s.compiler.module.contains d.proto.name = false) : s.compiler.module.Accepts d := by
  unfold read? at h
  split at h
  · next cursor _ =>
    by_cases hk : cursor.current.kind = .kwDef
    · simp only [if_pos hk] at h
      split at h
      · next hread =>
        cases h
        exact Ir.Module.accepts_of_definition hread hnew
      · cases h
    · simp only [if_neg hk] at h
      split at h
      · next hread =>
        cases h
        exact (Ir.Module.accepts_of_topLevel hread habsent).1
      · cases h
  · cases h

end Session

/-- The compiler with another bound on the steps of a single run, if it evaluates. -/
def Compiler.withFuel (c : Compiler) (fuel : Nat) : Compiler :=
  { c with machine? := c.machine?.map fun mc => { mc with fuel } }

/-- A machine has a bound of its own to start with. -/
example (c : Compiler) : c.withMachine.withFuel ({} : Machine).fuel = c.withMachine := rfl

namespace Session

variable {s s' : Session} {report : Report} {ds : List Definition}

/-! ### Reached sessions -/

/-- The definitions that a unit with this outcome adds to the module. -/
def defined (s : Session) (outcome : Outcome) : List Definition :=
  if outcome.isDefinition then s.read?.toList else []

/-- A session that compiling texts leads to, and the definitions that have been added on the way.  The
compiler evaluates or does not, and if it does, single runs can have any bound on their steps. -/
inductive Reached : Session → List Definition → Prop
  | ofConfig (config : Config) (text : String) : Reached (start (.ofConfig config) text) []
  | withMachine (config : Config) (fuel : Nat) (text : String) :
      Reached (start ((Compiler.ofConfig config).withMachine.withFuel fuel) text) []
  | again {s : Session} {ds : List Definition} (h : Reached s ds) (text : String) :
      Reached (start s.compiler text) ds
  | unit {s s' : Session} {ds : List Definition} {report : Report} (h : Reached s ds)
      (hn : s.next = some (report, s')) : Reached s' (ds ++ s.defined report.outcome)

/-- What holds of every reached session. -/
structure Sound (s : Session) (ds : List Definition) : Prop where
  proper : s.cursor.Proper
  absent : s.compiler.module.contains Prototype.anonymousName = false
  implements : s.compiler.module.Implements ds

theorem Sound.start (h : s.Sound ds) (text : String) : (start s.compiler text).Sound ds :=
  ⟨Cursor.proper_ofText text, h.absent, h.implements⟩

/-- A unit keeps what holds of reached sessions. -/
theorem Sound.next (h : s.Sound ds) (hn : s.next = some (report, s')) :
    s'.Sound (ds ++ s.defined report.outcome) := by
  obtain ⟨hcursor, hkeeps | ⟨d, hread, hdefines⟩⟩ := next_cases h.proper h.absent hn
  · rw [defined, hkeeps.outcome]
    refine ⟨hcursor, ?_, ?_⟩
    · rw [hkeeps.module]
      exact h.absent
    · rw [hkeeps.module]
      simpa using h.implements
  · obtain ⟨f, hgen, houtcome⟩ := hdefines.generate
    obtain ⟨f', m', hgen', -, hfunctions, hname, himp⟩ := hdefines.accepts.generate
    obtain ⟨-, rfl⟩ := Prod.mk.inj (hgen.symm.trans hgen')
    rw [defined, houtcome, hread]
    refine ⟨hcursor, ?_, himp ds h.implements⟩
    rw [Ir.Module.contains_eq_false_iff, hfunctions]
    intro g hg
    rcases List.mem_append.1 hg with hg | hg
    · exact Ir.Module.contains_eq_false_iff.1 h.absent g hg
    · rw [List.mem_singleton.1 hg, hname]
      exact hdefines.proper

theorem Reached.sound (h : s.Reached ds) : s.Sound ds := by
  induction h with
  | ofConfig config text => exact ⟨Cursor.proper_ofText text, rfl, .nil⟩
  | withMachine config fuel text => exact ⟨Cursor.proper_ofText text, rfl, .nil⟩
  | again _ text ih => exact ih.start text
  | unit _ hn ih => exact ih.next hn

/-- The units of a text lead on to a reached session. -/
theorem Reached.unitsFor (h : s.Reached ds) (n : Nat) :
    ∃ (s' : Session) (ds' : List Definition), s'.Reached ds' ∧
      s'.compiler = (s.unitsFor n).2 := by
  induction n generalizing s ds with
  | zero => exact ⟨s, ds, h, rfl⟩
  | succ n ih =>
    rw [Session.unitsFor]
    cases hn : s.next with
    | none => exact ⟨s, ds, h, rfl⟩
    | some unit => exact ih (h.unit hn)

/-- The units of a text add the functions of its definitions, in order. -/
theorem Sound.unitsFor_functions (h : s.Sound ds) (n : Nat) :
    ∃ fs, (s.unitsFor n).2.module.functions = s.compiler.module.functions ++ fs ∧
      fs.map (fun f => Outcome.definition f.name f.text) =
        ((s.unitsFor n).1.map Report.outcome).filter Outcome.isDefinition := by
  induction n generalizing s ds with
  | zero => exact ⟨[], by simp [unitsFor], rfl⟩
  | succ n ih =>
    rw [unitsFor]
    cases hn : s.next with
    | none => exact ⟨[], by simp, rfl⟩
    | some unit =>
      obtain ⟨report, s'⟩ := unit
      obtain ⟨fs, hfs, houtcomes⟩ := ih (h.next hn)
      show ∃ fs, (s'.unitsFor n).2.module.functions = s.compiler.module.functions ++ fs ∧
        fs.map (fun f => Outcome.definition f.name f.text) =
          (report.outcome :: (s'.unitsFor n).1.map Report.outcome).filter Outcome.isDefinition
      obtain ⟨-, hkeeps | ⟨d, -, hdefines⟩⟩ := next_cases h.proper h.absent hn
      · refine ⟨fs, ?_, ?_⟩
        · rw [hfs, hkeeps.module]
        · rw [List.filter_cons_of_neg (by rw [hkeeps.outcome]; decide), houtcomes]
      · obtain ⟨f, hgen, houtcome⟩ := hdefines.generate
        obtain ⟨f', m', hgen', -, hfunctions, hname, -⟩ := hdefines.accepts.generate
        obtain ⟨hf, hm⟩ := Prod.mk.inj (hgen.symm.trans hgen')
        obtain rfl := Except.ok.inj hf
        refine ⟨f :: fs, ?_, ?_⟩
        · rw [hfs, hm, hfunctions, List.append_assoc, List.singleton_append]
        · rw [houtcome, List.filter_cons_of_pos rfl, List.map_cons, houtcomes, hname]

/-- No unit of a text fails for an internal reason. -/
theorem Sound.unitsFor_category (h : s.Sound ds) (n : Nat) :
    ∀ report ∈ (s.unitsFor n).1, ∀ diag, report.outcome.diagnostic? = some diag →
      diag.category ≠ .codegen := by
  induction n generalizing s ds with
  | zero => simp [unitsFor]
  | succ n ih =>
    rw [unitsFor]
    cases hn : s.next with
    | none => simp
    | some unit =>
      obtain ⟨report, s'⟩ := unit
      intro r hr
      rcases List.mem_cons.1 hr with hr | hr
      · rw [hr]
        obtain ⟨-, hkeeps | ⟨d, -, hdefines⟩⟩ := next_cases h.proper h.absent hn
        · exact hkeeps.category
        · obtain ⟨f, -, houtcome⟩ := hdefines.generate
          intro diag hdiag
          rw [houtcome] at hdiag
          cases hdiag
      · exact ih (h.next hn) r hr

end Session

/-! ### Compilers -/

namespace Compiler

variable {c : Compiler}

/-- A compiler that compiling texts leads to. -/
def Reached (c : Compiler) : Prop := ∃ s ds, Session.Reached s ds ∧ s.compiler = c

namespace Reached

theorem ofConfig (config : Config) : (Compiler.ofConfig config).Reached :=
  ⟨_, _, .ofConfig config "", rfl⟩

theorem withFuel (config : Config) (fuel : Nat) :
    ((Compiler.ofConfig config).withMachine.withFuel fuel).Reached :=
  ⟨_, _, .withMachine config fuel "", rfl⟩

theorem withMachine (config : Config) : (Compiler.ofConfig config).withMachine.Reached :=
  withFuel config ({} : Machine).fuel

theorem compile (h : c.Reached) (text : String) : (c.compile text).2.Reached := by
  obtain ⟨s, ds, hs, rfl⟩ := h
  exact (hs.again text).unitsFor _

theorem sound (h : c.Reached) (text : String) : ∃ ds, (Session.start c text).Sound ds := by
  obtain ⟨s, ds, hs, rfl⟩ := h
  exact ⟨ds, hs.sound.start text⟩

/-- **A text adds the functions of its definitions to the module, and nothing else.**  The functions
that were there stay in their places; those added are the ones that the outcomes tell of. -/
theorem compile_functions (h : c.Reached) (text : String) :
    ∃ fs, (c.compile text).2.module.functions = c.module.functions ++ fs ∧
      fs.map (fun f => Outcome.definition f.name f.text) =
        (c.outcomes text).filter Outcome.isDefinition ∧
      (c.compile text).2.module.contains Prototype.anonymousName = false := by
  obtain ⟨ds, hs⟩ := h.sound text
  obtain ⟨fs, hfs, houtcomes⟩ := hs.unitsFor_functions ((Session.start c text).cursor.ahead.length + 1)
  obtain ⟨ds', hs'⟩ := (h.compile text).sound ""
  exact ⟨fs, hfs, houtcomes, hs'.absent⟩

/-- A new function and an expression that calls it, between a redefinition, a division by zero and a call
that is not finished. -/
theorem compile_functions_behind_failures :
    let c := ((Compiler.ofConfig {}).withMachine.compile "def int f(int n) n / 0 f(1) g()").2
    let text := "def int f() 2; def int g(int n) n + 1; g(2); f(1); g("
    c.Reached ∧ c.module.names = ["f"] ∧ (c.compile text).2.module.names = ["f", "g"] ∧
      (c.outcomes text).map Outcome.isSuccess = [false, true, true, false, false] ∧
      ∃ fs, (c.compile text).2.module.functions = c.module.functions ++ fs ∧
        fs.map (fun f => Outcome.definition f.name f.text) =
          (c.outcomes text).filter Outcome.isDefinition ∧
        (c.compile text).2.module.contains Prototype.anonymousName = false := by
  intro c text
  have hc : c.Reached := (withMachine {}).compile _
  exact ⟨hc, by decide +kernel, by decide +kernel, by decide +kernel, compile_functions hc text⟩

/-- **Whatever can be read can be lowered.**  No unit fails for an internal reason; a definition that is
read is refused only if its name is taken, and an expression never. -/
theorem no_internal_failure (h : c.Reached) :
    (∀ text, ∀ outcome ∈ c.outcomes text, ∀ diag, outcome.diagnostic? = some diag →
      diag.category ≠ .codegen) ∧
    (∀ table cursor d cursor',
      Program.definition table c.module.signature? cursor = .ok d cursor' →
      if c.module.contains d.proto.name then
        (c.module.generate d).1 = .error (.typing (.redefinition d.proto.name d.proto.span))
      else ∃ f, (c.module.generate d).1 = .ok f) ∧
    (∀ table cursor d cursor',
      Program.topLevel table c.module.signature? cursor = .ok d cursor' →
      ∃ f, (c.module.generate d).1 = .ok f) := by
  refine ⟨?_, ?_, ?_⟩
  · intro text outcome houtcome
    obtain ⟨ds, hs⟩ := h.sound text
    obtain ⟨report, hreport, rfl⟩ := List.mem_map.1 houtcome
    exact hs.unitsFor_category _ report hreport
  · intro table cursor d cursor' hread
    split
    · next htaken => rw [Ir.Module.generate_of_contains htaken]
    · next hnew =>
      obtain ⟨f, m', hgen, -⟩ :=
        (Ir.Module.accepts_of_definition hread (Bool.eq_false_iff.2 hnew)).generate
      exact ⟨f, by rw [hgen]⟩
  · intro table cursor d cursor' hread
    obtain ⟨ds, hs⟩ := h.sound ""
    obtain ⟨f, m', hgen, -⟩ := (Ir.Module.accepts_of_topLevel hread hs.absent).1.generate
    exact ⟨f, by rw [hgen]⟩

/-- A text, the definition `def int f() 1` and the expression `1`, behind a text that divides by zero and
calls nothing. -/
theorem no_internal_failure_behind_failures :
    let c := ((Compiler.ofConfig {}).withMachine.compile "def int f(int n) n / 0 f(1) g()").2
    let body : Expr := .literal (.int 1) ⟨.int, .nowhere⟩
    c.Reached ∧
      (∀ outcome ∈ c.outcomes "def int f() 2 g(1)", ∀ diag, outcome.diagnostic? = some diag →
        diag.category ≠ .codegen) ∧
      (if c.module.contains "f" then
        (c.module.generate ⟨⟨"f", [], .int, .nowhere⟩, body⟩).1 =
          .error (.typing (.redefinition "f" .nowhere))
      else ∃ f, (c.module.generate ⟨⟨"f", [], .int, .nowhere⟩, body⟩).1 = .ok f) ∧
      ∃ f, (c.module.generate ⟨.anonymous .nowhere, body⟩).1 = .ok f := by
  intro c body
  have hc : c.Reached := (withMachine {}).compile _
  clear_value c
  let token (kind : Token.Kind) : Token := ⟨kind, .nowhere⟩
  let ahead : List Item := [.kwInt, .identifier "f", .char '(', .char ')', .intLiteral 1].map
    fun kind => .ok (token kind)
  obtain ⟨houtcomes, hdefinition, hexpression⟩ := no_internal_failure hc
  refine ⟨hc, houtcomes _, ?_, ?_⟩
  · exact hdefinition .standard ⟨token .kwDef, ahead, token .eof⟩ ⟨⟨"f", [], .int, .nowhere⟩, body⟩
      ⟨token .eof, [], token .eof⟩ rfl
  · exact hexpression .standard ⟨token (.intLiteral 1), [], token .eof⟩ ⟨.anonymous .nowhere, body⟩
      ⟨token .eof, [], token .eof⟩ rfl

end Reached

end Compiler

end ScalarLang
