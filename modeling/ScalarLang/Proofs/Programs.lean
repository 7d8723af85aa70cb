import ScalarLang.Proofs.Progress

/-!
# Programs and their sessions

A program is read in one go, up to its end or to the first error; a session compiles unit by unit.  As
long as no name is defined twice, both have the same signatures in force, so they read the same units:
what has been read when the program stops is what the session compiles first.

* `Program.Scan`, `Program.scan` — the units of a program up to where reading it stops.
* `Program.parse_eq_result` — a program is read as its scan tells.
* `Session.Follows` — a session that has compiled the units that have been read.
* `Session.Follows.goes` — reading a unit keeps the two in step.
* `Program.scan_compiled` — the units that are read are compiled, and the error is reported next.
-/

namespace ScalarLang

namespace Program

/-! ### Where reading a program stops -/

/-- A program when reading it has stopped: the units that have been read, and the error, if there is
one. -/
structure Scan where
  units : List Definition
  error? : Option InputError := none

/-- The program, or its error. -/
def Scan.result (s : Scan) : Except InputError (List Definition) :=
  match s.error? with
  | none => .ok s.units
  | some e => .error e

/-- The units from the cursor on, at most `n` steps of them, behind those in `done`. -/
def scanFor (table : PrecedenceTable) : Nat → List Definition → Cursor → Scan
  | 0, done, _ => ⟨done, none⟩
  | n + 1, done, c =>
    match c.current.kind with
    | .eof => ⟨done, none⟩
    | .char ';' =>
      match Parse.advance c with
      | .ok _ c => scanFor table n done c
      | .error e _ => ⟨done, some e⟩
    | kind =>
      let reader := if kind = .kwDef then definition else topLevel
      match reader table (signatures done) c with
      | .ok d c => scanFor table n (done ++ [d]) c
      | .error e _ => ⟨done, some e⟩

/-- The units of a text up to its end or its first error. -/
def scan (table : PrecedenceTable) (text : String) : Scan :=
  let c := Cursor.ofText text
  match Parse.advance c with
  | .ok _ c' => scanFor table (c.ahead.length + 1) [] c'
  | .error e _ => ⟨[], some e⟩

variable {table : PrecedenceTable} {n : Nat} {done : List Definition} {c c' : Cursor}

theorem scanFor_of_eof (hk : c.current.kind = .eof) :
    scanFor table (n + 1) done c = ⟨done, none⟩ := by
  rw [scanFor, hk]

theorem scanFor_of_semicolon (hk : c.current.kind = .char ';') :
    scanFor table (n + 1) done c =
      match Parse.advance c with
      | .ok _ c => scanFor table n done c
      | .error e _ => ⟨done, some e⟩ := by
  rw [scanFor]
  simp only [hk]

theorem scanFor_of_unit (hk : c.current.kind ≠ .eof) (hsemi : c.current.kind ≠ .char ';') :
    scanFor table (n + 1) done c =
      match (if c.current.kind = .kwDef then definition else topLevel) table (signatures done) c with
      | .ok d c => scanFor table n (done ++ [d]) c
      | .error e _ => ⟨done, some e⟩ := by
  rw [scanFor]
  split
  · next h => exact absurd h hk
  · next h => exact absurd h hsemi
  · rfl

theorem unitsFor_of_unit (hk : c.current.kind ≠ .eof) (hsemi : c.current.kind ≠ .char ';') :
    unitsFor table (n + 1) done c =
      ((if c.current.kind = .kwDef then definition else topLevel) table (signatures done) >>=
        fun d => unitsFor table n (done ++ [d])) c := by
  rw [unitsFor, Parse.run_get_bind]
  by_cases hdef : c.current.kind = .kwDef
  · simp only [hdef, if_true]
  · rw [if_neg hdef]
    refine congrFun ?_ c
    split <;> first | contradiction | rfl

/-- What reading gives, wherever it stops. -/
def verdict {α : Type} : EStateM.Result InputError Cursor α → Except InputError α
  | .ok a _ => .ok a
  | .error e _ => .error e

/-- Reading units comes to what the scan tells. -/
theorem verdict_unitsFor (table : PrecedenceTable) (n : Nat) (done : List Definition) (c : Cursor) :
    verdict (unitsFor table n done c) = (scanFor table n done c).result := by
  induction n generalizing done c with
  | zero => rfl
  | succ n ih =>
    by_cases hk : c.current.kind = .eof
    · rw [scanFor_of_eof hk, unitsFor, Parse.run_get_bind, hk]
      rfl
    by_cases hsemi : c.current.kind = .char ';'
    · rw [scanFor_of_semicolon hsemi, unitsFor, Parse.run_get_bind]
      simp only [hsemi]
      cases ha : Parse.advance c with
      | ok _ c₁ =>
        rw [run_bind_of_ok ha]
        exact ih done c₁
      | error e c₁ =>
        rw [run_bind_of_error ha]
        rfl
    rw [scanFor_of_unit hk hsemi, unitsFor_of_unit hk hsemi]
    cases hr : (if c.current.kind = .kwDef then definition else topLevel) table (signatures done) c with
    | ok d c₁ =>
      rw [run_bind_of_ok hr]
      exact ih (done ++ [d]) c₁
    | error e c₁ =>
      rw [run_bind_of_error hr]
      rfl

/-- **A program is read as its scan tells.** -/
theorem parse_eq_result (table : PrecedenceTable) (text : String) :
    parse table text = (scan table text).result := by
  have hparse : parse table text = verdict
      ((do Parse.advance; unitsFor table ((Cursor.ofText text).ahead.length + 1) [])
        (Cursor.ofText text)) := by
    rw [parse]
    split <;> simp_all [verdict]
  rw [hparse, scan]
  cases ha : Parse.advance (Cursor.ofText text) with
  | ok _ c =>
    rw [run_bind_of_ok ha]
    exact verdict_unitsFor table _ [] c
  | error e c =>
    rw [run_bind_of_error ha]
    rfl

/-- What was read before stays in front. -/
theorem scanFor_prefix (table : PrecedenceTable) (n : Nat) (done : List Definition) (c : Cursor) :
    done <+: (scanFor table n done c).units := by
  induction n generalizing done c with
  | zero => exact List.prefix_refl done
  | succ n ih =>
    by_cases hk : c.current.kind = .eof
    · rw [scanFor_of_eof hk]
    by_cases hsemi : c.current.kind = .char ';'
    · rw [scanFor_of_semicolon hsemi]
      cases Parse.advance c with
      | ok _ c' => exact ih done c'
      | error e _ => exact List.prefix_refl done
    rw [scanFor_of_unit hk hsemi]
    cases (if c.current.kind = .kwDef then definition else topLevel) table (signatures done) c with
    | ok d c' => exact (List.prefix_append done [d]).trans (ih (done ++ [d]) c')
    | error e _ => exact List.prefix_refl done

/-! ### Names and signatures -/

/-- The names of the functions among units. -/
def names (units : List Definition) : List String :=
  (units.filter fun d => !d.proto.isAnonymous).map fun d => d.proto.name

theorem names_append (done units : List Definition) :
    names (done ++ units) = names done ++ names units := by
  rw [names, List.filter_append, List.map_append]
  rfl

theorem names_of_prefix {done units : List Definition} (h : done <+: units) (hn : (names units).Nodup) :
    (names done).Nodup := by
  obtain ⟨more, rfl⟩ := h
  rw [names_append] at hn
  exact hn.of_append_left

theorem signatures_snoc (done : List Definition) (d : Definition) (name : String) :
    signatures (done ++ [d]) name =
      if !d.proto.isAnonymous && d.proto.name == name then some d.proto.signature
      else signatures done name := by
  rw [signatures, signatures, List.reverse_append, List.reverse_singleton, List.singleton_append,
    List.find?_cons]
  split <;> simp_all

end Program

/-! ### Programs and sessions in step -/

/-- The outcome tells that the unit was compiled: a definition under its name, an expression without
evaluating it. -/
def Definition.CompiledAs (d : Definition) : Outcome → Prop
  | .definition name _ => d.proto.isAnonymous = false ∧ name = d.proto.name
  | .expression _ value? => d.proto.isAnonymous = true ∧ value? = none
  | .failure _ => False

namespace Session

variable {s s' t : Session} {done : List Definition} {units : List (Session × Outcome)}

/-- A session that does not evaluate and that has compiled these units: it knows the functions that a
program knows of that has read them. -/
structure Follows (s : Session) (done : List Definition) : Prop where
  sound : ∃ ds, s.Sound ds
  plain : s.compiler.machine? = none
  names : s.compiler.module.functions.map Ir.Function.name = Program.names done
  signatures : s.compiler.module.signature? = Program.signatures done

/-- A name that is not taken. -/
theorem Follows.contains_eq_false (hs : s.Follows done) {d : Definition}
    (hd : d.proto.isAnonymous = false) (hn : (Program.names (done ++ [d])).Nodup) :
    s.compiler.module.contains d.proto.name = false := by
  have hnames : Program.names [d] = [d.proto.name] := by simp [Program.names, hd]
  rw [Ir.Module.contains_eq_false_iff]
  intro f hf heq
  rw [Program.names_append, hnames, ← hs.names] at hn
  exact List.disjoint_of_nodup_append hn (List.mem_map_of_mem hf) (by rw [heq]; exact List.mem_singleton_self _)

/-- A definition that is read is compiled, if no name is defined twice. -/
theorem Follows.goes_definition (hs : s.Follows done) {c c' : Cursor} {d : Definition}
    (hseek : s.cursor.seek s.needsAdvance = (.unit, c)) (hk : c.current.kind = .kwDef)
    (hr : s.reads c = .ok d c') (hn : (Program.names (done ++ [d])).Nodup) :
    ∃ o s', s.Goes o s' ∧ s'.cursor = c' ∧ s'.needsAdvance = false ∧
      s'.compiler.config = s.compiler.config ∧ d.CompiledAs o ∧ s'.Follows (done ++ [d]) := by
  obtain ⟨ds, hsound⟩ := hs.sound
  have hproper : c.Proper := by
    have h := hsound.proper.seek s.needsAdvance
    rwa [hseek] at h
  have hdef := hr
  rw [reads_of_kwDef hk] at hdef
  have hreads := Program.definition_reads Cursor.proper_stable s.compiler.config.precedence
    s.compiler.module.signature?_resolved (N := (· ≠ Prototype.anonymousName)) (by
      intro c name hc hk heq
      exact hc.current (heq ▸ hk))
  have hname : d.proto.isAnonymous = false := beq_eq_false_iff_ne.2 (hreads.ok hproper hdef).2.2.1
  have hnew := hs.contains_eq_false hname hn
  have haccepts := Ir.Module.accepts_of_definition hdef hnew
  obtain ⟨f, m', m₁, hg, -, hfunctions, himp, -⟩ :=
    Ir.Module.generate_typed haccepts.typed haccepts.new
  have hgoes : s.Goes _ _ := .defined hseek hk hr hg
  refine ⟨_, _, hgoes, rfl, rfl, rfl, ⟨hname, rfl⟩, ⟨_, hsound.goes hgoes⟩, hs.plain, ?_, ?_⟩
  · show m'.functions.map Ir.Function.name = _
    rw [hfunctions, List.map_append, hs.names, Program.names_append]
    simp [Program.names, hname, himp.name]
  · show m'.signature? = _
    funext name
    rw [Ir.Module.signature?_eq_ite hfunctions (himp.name ▸ hnew) himp.signature,
      Program.signatures_snoc, hs.signatures, himp.name, hname]
    simp

/-- An expression that is read is compiled and leaves the module as it is. -/
theorem Follows.goes_expression (hs : s.Follows done) {c c' : Cursor} {d : Definition}
    (hseek : s.cursor.seek s.needsAdvance = (.unit, c)) (hk : c.current.kind ≠ .kwDef)
    (hr : s.reads c = .ok d c') :
    ∃ o s', s.Goes o s' ∧ s'.cursor = c' ∧ s'.needsAdvance = false ∧
      s'.compiler.config = s.compiler.config ∧ d.CompiledAs o ∧ s'.Follows (done ++ [d]) := by
  obtain ⟨ds, hsound⟩ := hs.sound
  have hexpr := hr
  rw [reads_of_ne_kwDef hk] at hexpr
  obtain ⟨haccepts, hname⟩ := Ir.Module.accepts_of_topLevel hexpr hsound.absent
  have hanonymous : d.proto.isAnonymous = true := beq_iff_eq.2 hname
  obtain ⟨f, m, hg, -⟩ := haccepts.generate
  have hevaluate : s.compiler.evaluateIn m = (.ok none, none) := by
    rw [Compiler.evaluateIn, hs.plain]
  have hgoes : s.Goes _ _ := .evaluated hseek hk hr hg hevaluate
  have herase := hsound.erase_generated hk hr hg
  refine ⟨_, _, hgoes, rfl, rfl, rfl, ⟨hanonymous, rfl⟩, ⟨_, hsound.goes hgoes⟩, rfl, ?_, ?_⟩
  · show (m.erase Prototype.anonymousName).functions.map Ir.Function.name = _
    rw [herase, hs.names, Program.names_append]
    simp [Program.names, hanonymous]
  · show (m.erase Prototype.anonymousName).signature? = _
    funext name
    rw [herase, hs.signatures, Program.signatures_snoc, hanonymous]
    rfl

/-- **A unit that is read is compiled**, if no name is defined twice. -/
theorem Follows.goes (hs : s.Follows done) {c c' : Cursor} {d : Definition}
    (hseek : s.cursor.seek s.needsAdvance = (.unit, c)) (hr : s.reads c = .ok d c')
    (hn : (Program.names (done ++ [d])).Nodup) :
    ∃ o s', s.Goes o s' ∧ s'.cursor = c' ∧ s'.needsAdvance = false ∧
      s'.compiler.config = s.compiler.config ∧ d.CompiledAs o ∧ s'.Follows (done ++ [d]) := by
  by_cases hk : c.current.kind = .kwDef
  · exact hs.goes_definition hseek hk hr hn
  · exact hs.goes_expression hseek hk hr

theorem Run.eq_of_goes (h : s.Run units t) {o : Outcome} (hgoes : s.Goes o s') :
    ∃ units', units = (s, o) :: units' ∧ s'.Run units' t := by
  obtain ⟨events, hnext⟩ := hgoes.next
  cases h with
  | done h => cases h.symm.trans hnext
  | @unit _ s₁ _ o₁ units h hr =>
    obtain ⟨events₁, hnext₁⟩ := h.next
    cases Option.some.inj (hnext.symm.trans hnext₁)
    exact ⟨units, rfl, hr⟩

/-- **The units that a program reads are compiled, and then its error is reported.**  By induction on the
steps of reading. -/
theorem Follows.run {n : Nat} (hs : s.Follows done) (hflag : s.needsAdvance = false)
    (hended : s.cursor.Ended) (hn : s.cursor.left.length < n)
    (hnames : (Program.names
      (Program.scanFor s.compiler.config.precedence n done s.cursor).units).Nodup)
    (hrun : s.Run units t) :
    ∃ new listed rest,
      (Program.scanFor s.compiler.config.precedence n done s.cursor).units = done ++ new ∧
      units.map Prod.snd = listed ++ rest ∧ List.Forall₂ Definition.CompiledAs new listed ∧
      rest.head? = (Program.scanFor s.compiler.config.precedence n done s.cursor).error?.map
        fun e => .failure (CompileError.input e).toDiagnostic := by
  induction n generalizing s done units t with
  | zero => exact absurd hn (Nat.not_lt_zero _)
  | succ n ih =>
    obtain ⟨compiler, c, needsAdvance⟩ := s
    obtain rfl : needsAdvance = false := hflag
    have hn : c.left.length < n + 1 := hn
    by_cases hk : c.current.kind = .eof
    · have hend : (⟨compiler, c, false⟩ : Session).next = none :=
        next_eq_none_iff.2 (Cursor.seek_of_eof hk)
      rw [Program.scanFor_of_eof hk]
      cases hrun with
      | done _ => exact ⟨[], [], [], by simp, rfl, .nil, rfl⟩
      | unit h _ =>
        obtain ⟨events, hnext⟩ := h.next
        cases hend.symm.trans hnext
    have hahead : c.ahead.length < n := by
      rw [Cursor.left, if_neg hk, List.length_cons] at hn
      omega
    by_cases hsemi : c.current.kind = .char ';'
    · have hseek := Cursor.seek_of_semicolon hsemi
      rw [Program.scanFor_of_semicolon hsemi] at hnames ⊢
      cases ha : Parse.advance c with
      | ok _ c' =>
        rw [ha] at hnames
        have hnext : (⟨compiler, c', false⟩ : Session).next = (⟨compiler, c, false⟩ : Session).next :=
          next_congr rfl (hseek.trans (Cursor.seek_of_advance hended ha)).symm
        obtain ⟨units', t', hrun', houtcomes, -⟩ := hrun.of_next_eq hnext rfl
        obtain ⟨ds, hsound⟩ := hs.sound
        have hstep := Cursor.step_eq_of_advance ha
        have hsound' : (⟨compiler, c', false⟩ : Session).Sound ds :=
          ⟨hstep ▸ Cursor.proper_stable c hsound.proper, hsound.absent, hsound.implements⟩
        have hleft : c'.left.length < n := by
          rw [Cursor.left_of_advance hended ha]
          exact hahead
        rw [← houtcomes]
        exact ih (s := ⟨compiler, c', false⟩) ⟨⟨ds, hsound'⟩, hs.plain, hs.names, hs.signatures⟩ rfl
          (hstep ▸ Cursor.ended_stable c hended) hleft hnames hrun'
      | error e c' =>
        obtain ⟨lexical, rfl, hfound⟩ := Cursor.seek_of_advance_error ha
        obtain ⟨units', rfl, -⟩ := hrun.eq_of_goes (.malformed (hseek.trans hfound))
        exact ⟨[], [], _, by simp, rfl, .nil, rfl⟩
    have hseek : c.seek false = (.unit, c) := Cursor.seekFrom_of_ne hk hsemi
    have hreader : (if c.current.kind = .kwDef then Program.definition else Program.topLevel)
        compiler.config.precedence (Program.signatures done) c =
        (⟨compiler, c, false⟩ : Session).reads c := by
      rw [← hs.signatures]
      rfl
    rw [Program.scanFor_of_unit hk hsemi, hreader] at hnames ⊢
    cases hr : (⟨compiler, c, false⟩ : Session).reads c with
    | error e c' =>
      obtain ⟨units', rfl, -⟩ := hrun.eq_of_goes (.unreadable hseek hr)
      exact ⟨[], [], _, by simp, rfl, .nil, rfl⟩
    | ok d c' =>
      rw [hr] at hnames
      have hprefix := Program.scanFor_prefix compiler.config.precedence n (done ++ [d]) c'
      obtain ⟨o, s', hgoes, rfl, hflag', hconfig, hcompiled, hs'⟩ :=
        hs.goes hseek hr (Program.names_of_prefix hprefix hnames)
      obtain ⟨units', rfl, hrun'⟩ := hrun.eq_of_goes hgoes
      obtain ⟨hended', hleft, -⟩ := reads_ok hended hr
      simp only at hconfig
      rw [← hconfig] at hnames ⊢
      obtain ⟨new, listed, rest, hunits, houtcomes, hlisted, hrest⟩ :=
        ih hs' hflag' hended' (Nat.lt_of_le_of_lt hleft.length_le hahead) hnames hrun'
      refine ⟨d :: new, o :: listed, rest, ?_, ?_, .cons hcompiled hlisted, hrest⟩
      · rw [hunits, List.append_assoc, List.singleton_append]
      · rw [List.map_cons, houtcomes, List.cons_append]

end Session

/-- **The units that a program reads are compiled, and then its error is reported.**  Of a program in
which no name is defined twice, a compiler that does not evaluate compiles the units one by one, as far as
the program can be read.  Behind them it comes to the end if the program does, and otherwise it reports
the error that the program stops at. -/
theorem Program.scan_compiled (config : Config) (text : String)
    (hnames : (names (scan config.precedence text).units).Nodup) :
    parse config.precedence text = (scan config.precedence text).result ∧
      ∃ listed rest, (Compiler.ofConfig config).outcomes text = listed ++ rest ∧
        List.Forall₂ Definition.CompiledAs (scan config.precedence text).units listed ∧
        rest.head? = (scan config.precedence text).error?.map
          fun e => .failure (CompileError.input e).toDiagnostic := by
  refine ⟨parse_eq_result config.precedence text, ?_⟩
  have hended := Cursor.ended_ofText text
  obtain ⟨units, t, hrun, houtcomes, -⟩ := Compiler.exists_run (Compiler.ofConfig config) text
  rw [houtcomes]
  cases ha : Parse.advance (Cursor.ofText text) with
  | error e c =>
    obtain ⟨lexical, rfl, hseek⟩ := Cursor.seek_of_advance_error ha
    obtain ⟨units', rfl, -⟩ := hrun.eq_of_goes (.malformed hseek)
    rw [scan]
    simp only [ha]
    exact ⟨[], _, rfl, .nil, rfl⟩
  | ok _ c =>
    have hscan : scan config.precedence text =
        scanFor config.precedence ((Cursor.ofText text).ahead.length + 1) [] c := by
      rw [scan]
      simp only [ha]
    rw [hscan] at hnames ⊢
    have hnext : (⟨Compiler.ofConfig config, c, false⟩ : Session).next =
        (Session.start (Compiler.ofConfig config) text).next :=
      Session.next_congr rfl (Cursor.seek_of_advance hended ha).symm
    obtain ⟨units', t', hrun', houtcomes', -⟩ := hrun.of_next_eq hnext rfl
    have hstep := Cursor.step_eq_of_advance ha
    have hsound : (⟨Compiler.ofConfig config, c, false⟩ : Session).Sound [] :=
      ⟨hstep ▸ Cursor.proper_stable _ (Cursor.proper_ofText text), rfl, .nil⟩
    have hleft : c.left.length < (Cursor.ofText text).ahead.length + 1 := by
      rw [Cursor.left_of_advance hended ha]
      exact Nat.lt_succ_self _
    obtain ⟨new, listed, rest, hunits, hlisted⟩ := Session.Follows.run
      (s := ⟨Compiler.ofConfig config, c, false⟩) ⟨⟨[], hsound⟩, rfl, rfl, rfl⟩ rfl
      (hstep ▸ Cursor.ended_stable _ hended) hleft hnames hrun'
    rw [← houtcomes']
    exact ⟨listed, rest, hlisted.1, hunits ▸ hlisted.2⟩

/-- Two functions and two expressions, of which the last stands in front of a definition that calls with an
argument of the wrong type; what stands behind that is not read. -/
theorem Program.scan_compiled_up_to_error :
    let table := ({} : Config).precedence
    let text := "def int f(int n) n * 2; f(3) ;; def int g(int k) if k then g(k - 1) else f(k) " ++
      "g(4) def int h() f(2.5) 7"
    (names (scan table text).units).Nodup ∧ names (scan table text).units = ["f", "g"] ∧
      (scan table text).units.length = 4 ∧ (scan table text).error?.isSome ∧
      parse table text = (scan table text).result ∧
      ∃ listed rest, (Compiler.ofConfig {}).outcomes text = listed ++ rest ∧
        List.Forall₂ Definition.CompiledAs (scan table text).units listed ∧
        rest.head? = (scan table text).error?.map
          fun e => .failure (CompileError.input e).toDiagnostic := by
  intro table text
  have hnames : (names (scan table text).units).Nodup := by decide +kernel
  exact ⟨hnames, by decide +kernel, by decide +kernel, by decide +kernel, scan_compiled {} text hnames⟩

end ScalarLang
