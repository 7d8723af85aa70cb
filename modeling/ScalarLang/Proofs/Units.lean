import ScalarLang.Proofs.Sessions

/-!
# The units of a text

A session goes through a text unit by unit.  There are six ways for a unit to go: it starts with a
malformed item, it cannot be read, what it reads is refused, it defines a function, or it evaluates an
expression, which gives a value or ends with a fault.  A run of a session is a sequence of such units up
to the end of the text.

* `Session.reads` — what a unit reads from a cursor.
* `Session.Goes` — the ways for a unit to go.
* `Session.next_eq_some_iff` — there are no others.
* `Session.Sound.generate_cases` — what is read is refused only if its name is taken.
* `Session.Run` — all units of a text.
-/

namespace ScalarLang

/-- Evaluates the expression whose function is in the module `m`, if there is a machine. -/
def Compiler.evaluateIn (c : Compiler) (m : Ir.Module) :
    Except Machine.Fault (Option Machine.Value) × Option Machine :=
  match c.machine? with
  | none => (.ok none, none)
  | some machine =>
    let (result, machine) := machine.execute m Prototype.anonymousName []
    (result.map some, some machine)

namespace Session

variable {s s' t : Session} {o : Outcome} {ds : List Definition}

/-- What a unit that starts at a cursor reads there: a definition or an expression. -/
def reads (s : Session) (c : Cursor) : EStateM.Result InputError Cursor Definition :=
  let reader := if c.current.kind = .kwDef then Program.definition else Program.topLevel
  reader s.compiler.config.precedence s.compiler.module.signature? c

/-- The ways for a unit to go, with its outcome and the session behind it. -/
inductive Goes (s : Session) : Outcome → Session → Prop
  | malformed {e : LexError} {c : Cursor}
      (h : s.cursor.seek s.needsAdvance = (.malformed e, c)) :
      Goes s (.failure (CompileError.input (.lexical e)).toDiagnostic) ⟨s.compiler, c, true⟩
  | unreadable {c c' : Cursor} {e : InputError}
      (h : s.cursor.seek s.needsAdvance = (.unit, c)) (hr : s.reads c = .error e c') :
      Goes s (.failure (CompileError.input e).toDiagnostic) ⟨s.compiler, c', true⟩
  | refused {c c' : Cursor} {d : Definition} {e : Ir.LoweringError} {m : Ir.Module}
      (h : s.cursor.seek s.needsAdvance = (.unit, c)) (hr : s.reads c = .ok d c')
      (hg : s.compiler.module.generate d = (.error e, m)) :
      Goes s (.failure (CompileError.lowering e).toDiagnostic)
        ⟨{ s.compiler with module := m }, c', false⟩
  | defined {c c' : Cursor} {d : Definition} {f : Ir.Function} {m : Ir.Module}
      (h : s.cursor.seek s.needsAdvance = (.unit, c)) (hk : c.current.kind = .kwDef)
      (hr : s.reads c = .ok d c') (hg : s.compiler.module.generate d = (.ok f, m)) :
      Goes s (.definition d.proto.name f.text) ⟨{ s.compiler with module := m }, c', false⟩
  | evaluated {c c' : Cursor} {d : Definition} {f : Ir.Function} {m : Ir.Module}
      {value? : Option Machine.Value} {machine? : Option Machine}
      (h : s.cursor.seek s.needsAdvance = (.unit, c)) (hk : c.current.kind ≠ .kwDef)
      (hr : s.reads c = .ok d c') (hg : s.compiler.module.generate d = (.ok f, m))
      (he : s.compiler.evaluateIn m = (.ok value?, machine?)) :
      Goes s (.expression f.text value?)
        ⟨{ s.compiler with module := m.erase Prototype.anonymousName, machine? }, c', false⟩
  | faulted {c c' : Cursor} {d : Definition} {f : Ir.Function} {m : Ir.Module}
      {fault : Machine.Fault} {machine? : Option Machine}
      (h : s.cursor.seek s.needsAdvance = (.unit, c)) (hk : c.current.kind ≠ .kwDef)
      (hr : s.reads c = .ok d c') (hg : s.compiler.module.generate d = (.ok f, m))
      (he : s.compiler.evaluateIn m = (.error fault, machine?)) :
      Goes s (.failure
          { category := .runtime, message := fault.message, span? := some d.proto.span })
        ⟨{ s.compiler with module := m.erase Prototype.anonymousName, machine? }, c', false⟩

theorem evaluate_withModule (s : Session) (m : Ir.Module) :
    (s.withModule m).evaluate = ((s.compiler.evaluateIn m).1,
      { s with compiler := { s.compiler with module := m, machine? := (s.compiler.evaluateIn m).2 } }) := by
  obtain ⟨⟨config, module, machine?⟩, cursor, needsAdvance⟩ := s
  cases machine? <;> rfl

theorem reads_of_kwDef {c : Cursor} (hk : c.current.kind = .kwDef) :
    s.reads c =
      Program.definition s.compiler.config.precedence s.compiler.module.signature? c := by
  rw [reads, if_pos hk]

theorem reads_of_ne_kwDef {c : Cursor} (hk : c.current.kind ≠ .kwDef) :
    s.reads c = Program.topLevel s.compiler.config.precedence s.compiler.module.signature? c := by
  rw [reads, if_neg hk]

/-- A unit goes the way that the session takes. -/
theorem Goes.next (h : s.Goes o s') : ∃ events, s.next = some (⟨o, events⟩, s') := by
  cases h with
  | malformed h =>
    rw [Session.next, h]
    exact ⟨_, rfl⟩
  | @unreadable c c' e h hr =>
    rw [Session.next, h]
    by_cases hk : c.current.kind = .kwDef
    · rw [reads_of_kwDef hk] at hr
      simp only [if_pos hk, definition, hr]
      exact ⟨_, rfl⟩
    · rw [reads_of_ne_kwDef hk] at hr
      simp only [if_neg hk, expression, hr]
      exact ⟨_, rfl⟩
  | @refused c c' d e m h hr hg =>
    rw [Session.next, h]
    by_cases hk : c.current.kind = .kwDef
    · rw [reads_of_kwDef hk] at hr
      simp only [if_pos hk, definition, hr, hg]
      exact ⟨_, rfl⟩
    · rw [reads_of_ne_kwDef hk] at hr
      simp only [if_neg hk, expression, hr, hg]
      exact ⟨_, rfl⟩
  | defined h hk hr hg =>
    rw [reads_of_kwDef hk] at hr
    rw [Session.next, h]
    simp only [if_pos hk, definition, hr, hg]
    exact ⟨_, rfl⟩
  | evaluated h hk hr hg he =>
    rw [reads_of_ne_kwDef hk] at hr
    rw [Session.next, h]
    simp only [if_neg hk, expression, hr, hg, evaluate_withModule, he]
    exact ⟨_, rfl⟩
  | faulted h hk hr hg he =>
    rw [reads_of_ne_kwDef hk] at hr
    rw [Session.next, h]
    simp only [if_neg hk, expression, hr, hg, evaluate_withModule, he]
    exact ⟨_, rfl⟩

/-- Where the session finds a unit, the unit goes one of the ways. -/
theorem exists_goes {report : Report} (h : s.next = some (report, s')) : ∃ o t, s.Goes o t := by
  cases hseek : s.cursor.seek s.needsAdvance with
  | mk sought c =>
    cases sought with
    | finished =>
      rw [Session.next, hseek] at h
      cases h
    | malformed e => exact ⟨_, _, .malformed hseek⟩
    | unit =>
      cases hr : s.reads c with
      | error e c' => exact ⟨_, _, .unreadable hseek hr⟩
      | ok d c' =>
        cases hg : s.compiler.module.generate d with
        | mk result m =>
          cases result with
          | error e => exact ⟨_, _, .refused hseek hr hg⟩
          | ok f =>
            by_cases hk : c.current.kind = .kwDef
            · exact ⟨_, _, .defined hseek hk hr hg⟩
            · cases he : s.compiler.evaluateIn m with
              | mk value machine? =>
                cases value with
                | ok value? => exact ⟨_, _, .evaluated hseek hk hr hg he⟩
                | error fault => exact ⟨_, _, .faulted hseek hk hr hg he⟩

/-- **There are no other ways for a unit to go.** -/
theorem next_eq_some_iff : (∃ events, s.next = some (⟨o, events⟩, s')) ↔ s.Goes o s' := by
  refine ⟨fun ⟨events, h⟩ => ?_, Goes.next⟩
  obtain ⟨o', t, hgoes⟩ := exists_goes h
  obtain ⟨events', h'⟩ := hgoes.next
  cases Option.some.inj (h.symm.trans h')
  exact hgoes

theorem goes_of_next {report : Report} (h : s.next = some (report, s')) :
    s.Goes report.outcome s' :=
  next_eq_some_iff.1 ⟨report.events, h⟩

/-- There is no unit where the end of the text is found. -/
theorem next_eq_none_iff :
    s.next = none ↔ (s.cursor.seek s.needsAdvance).1 = .finished := by
  unfold Session.next
  split <;> simp_all

/-- The next unit depends on the compiler and on what is found. -/
theorem next_congr {s₁ : Session} (hcompiler : s₁.compiler = s.compiler)
    (hseek : s₁.cursor.seek s₁.needsAdvance = s.cursor.seek s.needsAdvance) : s₁.next = s.next := by
  obtain ⟨compiler, cursor, needsAdvance⟩ := s
  obtain ⟨_, cursor₁, needsAdvance₁⟩ := s₁
  subst hcompiler
  rw [Session.next, Session.next, hseek]

/-! ### Units of reached sessions -/

/-- A unit keeps what holds of reached sessions. -/
theorem Sound.goes (hs : s.Sound ds) (h : s.Goes o s') : s'.Sound (ds ++ s.defined o) := by
  obtain ⟨events, hnext⟩ := h.next
  exact hs.next hnext

/-- What a unit reads is accepted, unless its name is taken. -/
theorem Sound.accepts (hs : s.Sound ds) {c c' : Cursor} {d : Definition} (hr : s.reads c = .ok d c')
    (hnew : s.compiler.module.contains d.proto.name = false) : s.compiler.module.Accepts d := by
  by_cases hk : c.current.kind = .kwDef
  · rw [reads_of_kwDef hk] at hr
    exact Ir.Module.accepts_of_definition hr hnew
  · rw [reads_of_ne_kwDef hk] at hr
    exact (Ir.Module.accepts_of_topLevel hr hs.absent).1

/-- What a unit reads is refused if its name is taken; otherwise its function is added. -/
theorem Sound.generate_cases (hs : s.Sound ds) {c c' : Cursor} {d : Definition}
    (hr : s.reads c = .ok d c') :
    s.compiler.module.generate d =
        (.error (.typing (.redefinition d.proto.name d.proto.span)), s.compiler.module) ∨
      s.compiler.module.Accepts d := by
  cases hnew : s.compiler.module.contains d.proto.name with
  | true => exact .inl (Ir.Module.generate_of_contains hnew)
  | false => exact .inr (hs.accepts hr hnew)

/-- Taking the function of an expression out restores the module. -/
theorem Sound.erase_generated (hs : s.Sound ds) {c c' : Cursor} {d : Definition} {f : Ir.Function}
    {m : Ir.Module} (hk : c.current.kind ≠ .kwDef) (hr : s.reads c = .ok d c')
    (hg : s.compiler.module.generate d = (.ok f, m)) :
    m.erase Prototype.anonymousName = s.compiler.module := by
  rw [reads_of_ne_kwDef hk] at hr
  obtain ⟨haccepts, hname⟩ := Ir.Module.accepts_of_topLevel hr hs.absent
  obtain ⟨f', m', hg', hmname, hfunctions, hfname, -⟩ := haccepts.generate
  obtain ⟨-, rfl⟩ := Prod.mk.inj (hg.symm.trans hg')
  have hfanon : f'.name = Prototype.anonymousName := hfname.trans hname
  rw [← hfanon]
  exact Ir.Module.erase_eq_of_functions hmname hfunctions (hfanon ▸ hs.absent)

/-! ### Runs -/

/-- All units up to the end of a text: for each the session in front of it and its outcome. -/
inductive Run : Session → List (Session × Outcome) → Session → Prop
  | done {s : Session} (h : s.next = none) : Run s [] s
  | unit {s s' t : Session} {o : Outcome} {units : List (Session × Outcome)} (h : s.Goes o s')
      (hr : Run s' units t) : Run s ((s, o) :: units) t

/-- A session that finds the same next unit has the same outcomes. -/
theorem Run.of_next_eq {s₁ : Session} {units : List (Session × Outcome)} (h : s.Run units t)
    (hnext : s₁.next = s.next) (hcompiler : s₁.compiler = s.compiler) :
    ∃ units' t', s₁.Run units' t' ∧ units'.map Prod.snd = units.map Prod.snd ∧
      t'.compiler = t.compiler := by
  cases h with
  | done h => exact ⟨[], s₁, .done (hnext.trans h), rfl, hcompiler⟩
  | @unit _ s' _ o units h hr =>
    have hgoes : s₁.Goes o s' := next_eq_some_iff.1 (hnext ▸ h.next)
    exact ⟨(s₁, o) :: units, t, .unit hgoes hr, rfl, rfl⟩

/-- Asking a session for as many units as its run has gives their outcomes. -/
theorem Run.unitsFor {units : List (Session × Outcome)} (h : s.Run units t) {n : Nat}
    (hn : units.length ≤ n) :
    (s.unitsFor n).1.map Report.outcome = units.map Prod.snd ∧ (s.unitsFor n).2 = t.compiler := by
  induction h generalizing n with
  | @done s h =>
    cases n with
    | zero => exact ⟨rfl, rfl⟩
    | succ n =>
      rw [Session.unitsFor, h]
      exact ⟨rfl, rfl⟩
  | @unit s s' t o units h hr ih =>
    cases n with
    | zero => exact absurd hn (Nat.not_succ_le_zero _)
    | succ n =>
      obtain ⟨events, hnext⟩ := h.next
      obtain ⟨houtcomes, hcompiler⟩ := ih (Nat.le_of_succ_le_succ hn)
      rw [Session.unitsFor, hnext]
      refine ⟨?_, hcompiler⟩
      rw [List.map_cons, List.map_cons, ← houtcomes]

end Session

end ScalarLang
