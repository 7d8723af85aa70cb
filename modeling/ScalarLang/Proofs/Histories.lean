import ScalarLang.Proofs.Seams
import ScalarLang.Proofs.Tracking

/-!
# A history of texts and a single text

Texts that are compiled one after the other can as well be compiled as one text, with a semicolon on a
line of its own between them: a session goes through the first text there as it does through the text
alone, up to the semicolon, and through the second one as if it had just started with it.  The units have
the same outcomes, but for the places of diagnostics, which are further on in the longer text.

* `Setting.Behind`, `Setting.Joins` — cursors and sessions at the same item of two texts.
* `Setting.Joins.finds` — what they find next.
* `Session.Goes.beside` — a unit goes the same way in both texts.
* `Session.Run.beside` — so does a run, which goes on with what stands behind in the other text.
* `Outcome.move_shiftOr` — diagnostics stand in the text.
* `Compiler.Reached.compile_joined` — two texts in turn and as one.
-/

namespace ScalarLang

open Token (Kind)

/-! ### Looking for the next unit -/

namespace Setting

variable {S : Setting} {c c' : Cursor} {t : Token} {ahead : List Item}

/-- Cursors that have the same items ahead, as these stand in the two texts. -/
structure Behind (S : Setting) (c c' : Cursor) : Prop where
  ne_eof : ∀ u, .ok u ∈ c.ahead → u.kind ≠ .eof
  final_eq : c.final = S.final
  ahead_eq : c'.ahead = S.inside c.ahead
  ending_eq : c'.final = S.ending.final

theorem Beside.behind (h : S.Beside c c') (hw : S.Whole) : S.Behind c c' := by
  cases h with
  | within _ hahead => exact ⟨hahead, rfl, rfl, rfl⟩
  | ended =>
    refine ⟨by simp, rfl, ?_, rfl⟩
    unfold inside behind ending
    rw [show S.seam? = none from hw]
    rfl

/-- What is found in the text and in the other text.  At the end of the items, it is what is found behind
them in the other text. -/
inductive Finds (S : Setting) : Sought × Cursor → Sought × Cursor → Prop
  | unit {c c' : Cursor} (h : S.Beside c c') (hk : c.current.kind ≠ .eof) : Finds S (.unit, c) (.unit, c')
  | malformed {e : LexError} {c c' : Cursor} (h : S.Behind c c') :
      Finds S (.malformed e, c) (.malformed (e.move S.place), c')
  | finished {c : Cursor} : Finds S (.finished, c) (S.ending.seek true)

theorem seek_ending (S : Setting) : S.ending.seek false = S.ending.seek true := by
  unfold ending
  cases hseam : S.seam? with
  | none =>
    simp only [Cursor.seek, Cursor.seekFrom, Token.kind_move, S.final_kind]
    rfl
  | some seam => exact Cursor.seek_of_semicolon seam.kind_eq

/-- Behind the items, what stands there in the other text is found. -/
theorem seek_of_behind (hahead : c'.ahead = S.behind) (hfinal : c'.final = S.ending.final) :
    c'.seek true = S.ending.seek true := by
  rw [← S.seek_ending]
  obtain ⟨current, ahead, final⟩ := c'
  simp only at hahead hfinal
  subst hahead hfinal
  unfold behind ending
  cases hseam : S.seam? with
  | none =>
    simp only [Cursor.seek, Cursor.seekFrom, Token.kind_move, S.final_kind]
    rfl
  | some seam => rfl

/-- At a token, the unit is found there, unless it is a semicolon. -/
theorem finds_within (hk : t.kind ≠ .eof) (hahead : ∀ u, .ok u ∈ ahead → u.kind ≠ .eof)
    (h : S.Finds ((⟨t, ahead, S.final⟩ : Cursor).seek true)
      ((⟨t.move S.place, S.inside ahead, S.ending.final⟩ : Cursor).seek true)) :
    S.Finds ((⟨t, ahead, S.final⟩ : Cursor).seek false)
      ((⟨t.move S.place, S.inside ahead, S.ending.final⟩ : Cursor).seek false) := by
  by_cases hsemi : t.kind = .char ';'
  · rw [Cursor.seek_of_semicolon hsemi, Cursor.seek_of_semicolon (c := ⟨t.move S.place, _, _⟩) hsemi]
    exact h
  · have hk' : (t.move S.place).kind ≠ .eof := hk
    have hsemi' : (t.move S.place).kind ≠ .char ';' := hsemi
    simp only [Cursor.seek, Bool.false_eq_true, if_false, Cursor.seekFrom_of_ne hk hsemi,
      Cursor.seekFrom_of_ne hk' hsemi']
    exact .unit (.within hk hahead) hk

/-- Behind a token that is done with.  By induction on the items ahead. -/
theorem Behind.finds (h : S.Behind c c') : S.Finds (c.seek true) (c'.seek true) := by
  obtain ⟨current, ahead, final⟩ := c
  obtain ⟨current', ahead', final'⟩ := c'
  obtain ⟨hahead, hfinal, rfl, rfl⟩ := h
  simp only at hahead hfinal
  subst hfinal
  induction ahead generalizing current current' with
  | nil =>
    have hend : (⟨current', S.inside [], S.ending.final⟩ : Cursor).seek true = S.ending.seek true :=
      seek_of_behind rfl rfl
    rw [hend]
    exact .finished
  | cons item ahead ih =>
    have hahead' : ∀ u, .ok u ∈ ahead → u.kind ≠ .eof :=
      fun u hu => hahead u (List.mem_cons_of_mem _ hu)
    cases item with
    | error e => exact .malformed ⟨hahead', rfl, rfl, rfl⟩
    | ok t => exact finds_within (hahead t List.mem_cons_self) hahead' (ih t (t.move S.place) hahead')

theorem Beside.finds (h : S.Beside c c') : S.Finds (c.seek false) (c'.seek false) := by
  cases h with
  | within hk hahead => exact finds_within hk hahead (Behind.finds ⟨hahead, rfl, rfl, rfl⟩)
  | ended =>
    have hend : (⟨S.final, [], S.final⟩ : Cursor).seek false = (.finished, ⟨S.final, [], S.final⟩) := by
      simp only [Cursor.seek, Cursor.seekFrom, S.final_kind]
      rfl
    rw [hend, S.seek_ending]
    exact .finished

/-! ### Sessions beside each other -/

/-- Sessions with the same compiler at the same item of the text and of the other text. -/
inductive Joins (S : Setting) : Session → Session → Prop
  | behind {compiler : Compiler} {c c' : Cursor} (h : S.Behind c c') :
      Joins S ⟨compiler, c, true⟩ ⟨compiler, c', true⟩
  | beside {compiler : Compiler} {c c' : Cursor} (h : S.Beside c c') :
      Joins S ⟨compiler, c, false⟩ ⟨compiler, c', false⟩

namespace Joins

variable {s s' : Session}

theorem compiler_eq (h : S.Joins s s') : s'.compiler = s.compiler := by
  cases h <;> rfl

theorem finds (h : S.Joins s s') :
    S.Finds (s.cursor.seek s.needsAdvance) (s'.cursor.seek s'.needsAdvance) := by
  cases h with
  | behind h => exact h.finds
  | beside h => exact h.finds

theorem seek_unit (h : S.Joins s s') (hseek : s.cursor.seek s.needsAdvance = (.unit, c)) :
    ∃ c', s'.cursor.seek s'.needsAdvance = (.unit, c') ∧ S.Beside c c' ∧ c.current.kind ≠ .eof := by
  have hfinds := h.finds
  rw [hseek] at hfinds
  generalize s'.cursor.seek s'.needsAdvance = found at hfinds
  cases hfinds with
  | unit h hk => exact ⟨_, rfl, h, hk⟩

theorem seek_malformed {e : LexError} (h : S.Joins s s')
    (hseek : s.cursor.seek s.needsAdvance = (.malformed e, c)) :
    ∃ c', s'.cursor.seek s'.needsAdvance = (.malformed (e.move S.place), c') ∧ S.Behind c c' := by
  have hfinds := h.finds
  rw [hseek] at hfinds
  generalize s'.cursor.seek s'.needsAdvance = found at hfinds
  cases hfinds with
  | malformed h => exact ⟨_, rfl, h⟩

/-- At the end of the text, the next unit of the other text is the first one behind the items. -/
theorem next_of_done (h : S.Joins s s') (hnext : s.next = none) :
    s'.next = (⟨s.compiler, S.ending, true⟩ : Session).next := by
  refine Session.next_congr h.compiler_eq ?_
  have hfinds := h.finds
  have hfinished := Session.next_eq_none_iff.1 hnext
  generalize s'.cursor.seek s'.needsAdvance = found at hfinds
  generalize s.cursor.seek s.needsAdvance = found₀ at hfinds hfinished
  cases hfinds with
  | finished => rfl
  | unit _ _ => cases hfinished
  | malformed _ => cases hfinished

/-- A unit reads the same definition in both texts. -/
theorem reads (h : S.Joins s s') (hb : S.Beside c c') (hk : c.current.kind ≠ .eof) :
    S.Gives (Definition.move S.place) (s.reads c) (s'.reads c') := by
  have hkind : c'.current.kind = c.current.kind := by
    rw [hb.current_eq (.inl hk)]
    rfl
  unfold Session.reads
  rw [h.compiler_eq, hkind]
  split
  · exact Program.definition_tracks S _ _ c c' hb
  · exact Program.topLevel_tracks S _ _ c c' hb

/-- What is read where a unit is found. -/
theorem reads_ok {c₁ : Cursor} {d : Definition} (h : S.Joins s s')
    (hseek : s.cursor.seek s.needsAdvance = (.unit, c)) (hr : s.reads c = .ok d c₁) :
    ∃ c' c₁', s'.cursor.seek s'.needsAdvance = (.unit, c') ∧ c'.current.kind = c.current.kind ∧
      s'.reads c' = .ok (d.move S.place) c₁' ∧ S.Beside c₁ c₁' := by
  obtain ⟨c', hseek', hb, hk⟩ := h.seek_unit hseek
  have hgives := h.reads hb hk
  rw [hr] at hgives
  obtain ⟨c₁', hr', hb₁⟩ := hgives
  exact ⟨c', c₁', hseek', by rw [hb.current_eq (.inl hk), Token.kind_move], hr', hb₁⟩

end Joins

end Setting

namespace Session

variable {S : Setting} {s s' s₁ t t₂ : Session} {o : Outcome} {ds : List Definition}
  {units units₂ : List (Session × Outcome)}

/-- **A unit goes in the other text as it goes in the text.**  A unit that fails may go on to read what
stands behind the items, so it counts only if nothing does. -/
theorem Goes.beside (h : s.Goes o s₁) (hs : s.Sound ds) (hj : S.Joins s s')
    (ho : S.Whole ∨ o.isSuccess = true) :
    ∃ s₁', s'.Goes (o.move S.place) s₁' ∧ S.Joins s₁ s₁' := by
  have hcompiler := hj.compiler_eq
  obtain ⟨_, cursor', needsAdvance'⟩ := s'
  simp only at hcompiler
  subst hcompiler
  have hwhole : o.isSuccess = false → S.Whole := fun hfails => ho.resolve_right (by simp [hfails])
  cases h with
  | malformed h =>
    obtain ⟨c', hseek', hb⟩ := hj.seek_malformed h
    refine ⟨_, ?_, .behind hb⟩
    rw [Outcome.move, ← InputError.toDiagnostic_move]
    exact .malformed hseek'
  | @unreadable c c₁ e h hr =>
    obtain ⟨c', hseek', hb, hk⟩ := hj.seek_unit h
    have hgives := hj.reads hb hk
    rw [hr] at hgives
    obtain ⟨c₁', hr', hb₁⟩ := hgives (hwhole rfl)
    refine ⟨_, ?_, .behind (hb₁.behind (hwhole rfl))⟩
    rw [Outcome.move, ← InputError.toDiagnostic_move]
    exact .unreadable hseek' hr'
  | @refused c c₁ d e m h hr hg =>
    obtain ⟨c', c₁', hseek', -, hr', hb₁⟩ := hj.reads_ok h hr
    cases hnew : s.compiler.module.contains d.proto.name with
    | true =>
      cases hg.symm.trans (Ir.Module.generate_of_contains hnew)
      have hg' : s.compiler.module.generate (d.move S.place) = _ :=
        Ir.Module.generate_of_contains hnew
      exact ⟨_, .refused hseek' hr' hg', .beside hb₁⟩
    | false =>
      obtain ⟨f, m', hg', -⟩ := (hs.accepts hr hnew).generate
      cases hg.symm.trans hg'
  | @defined c c₁ d f m h hk hr hg =>
    obtain ⟨c', c₁', hseek', hkind, hr', hb₁⟩ := hj.reads_ok h hr
    have hgoes := Goes.defined hseek' (hkind.trans hk) hr' (Ir.Module.generate_move hg)
    exact ⟨_, hgoes, .beside hb₁⟩
  | evaluated h hk hr hg he =>
    obtain ⟨c', c₁', hseek', hkind, hr', hb₁⟩ := hj.reads_ok h hr
    exact ⟨_, .evaluated hseek' (hkind ▸ hk) hr' (Ir.Module.generate_move hg) he, .beside hb₁⟩
  | faulted h hk hr hg he =>
    obtain ⟨c', c₁', hseek', hkind, hr', hb₁⟩ := hj.reads_ok h hr
    exact ⟨_, .faulted hseek' (hkind ▸ hk) hr' (Ir.Module.generate_move hg) he, .beside hb₁⟩

/-- **A run goes in the other text as it goes in the text**, and then through what stands behind. -/
theorem Run.beside (h : s.Run units t) (hs : s.Sound ds) (hj : S.Joins s s')
    (ho : S.Whole ∨ ∀ u ∈ units, u.2.isSuccess = true)
    (h₂ : (⟨t.compiler, S.ending, true⟩ : Session).Run units₂ t₂) :
    ∃ units' t', s'.Run units' t' ∧ t'.compiler = t₂.compiler ∧
      units'.map Prod.snd =
        (units.map Prod.snd).map (Outcome.move S.place) ++ units₂.map Prod.snd := by
  induction h generalizing ds s' with
  | @done s h =>
    obtain ⟨units', t', hrun, houtcomes, hcompiler⟩ :=
      h₂.of_next_eq (hj.next_of_done h) hj.compiler_eq
    exact ⟨units', t', hrun, hcompiler, houtcomes⟩
  | @unit s s₁ t o units h _ ih =>
    have hunit : S.Whole ∨ o.isSuccess = true := ho.imp_right fun ho => ho (s, o) List.mem_cons_self
    have hrest : S.Whole ∨ ∀ u ∈ units, u.2.isSuccess = true :=
      ho.imp_right fun ho u hu => ho u (List.mem_cons_of_mem _ hu)
    obtain ⟨s₁', hgoes, hj₁⟩ := h.beside hs hj hunit
    obtain ⟨units', t', hrun, hcompiler, houtcomes⟩ := ih (hs.goes h) hj₁ hrest h₂
    refine ⟨(s', o.move S.place) :: units', t', .unit hgoes hrun, hcompiler, ?_⟩
    rw [List.map_cons, houtcomes]
    rfl

end Session

/-! ### Two texts -/

theorem moveItem_id (items : List Item) : items.map (moveItem id) = items := by
  refine (List.map_congr_left fun item _ => ?_).trans (List.map_id items)
  cases item with
  | ok t => rfl
  | error e => cases e <;> rfl

/-- A diagnostic for which it makes no difference what spans that stand nowhere are taken for stands in
the text. -/
theorem Outcome.move_shiftOr {x y : Span} (hne : x ≠ y) {lines bytes : Nat} {o : Outcome}
    (h : o.move (Span.shiftOr x lines bytes) = o.move (Span.shiftOr y lines bytes)) :
    o.move (Span.shiftOr x lines bytes) = o.move (Span.shift lines bytes) := by
  cases o with
  | definition name listing => rfl
  | expression listing value? => rfl
  | failure d =>
    cases hspan : d.span? with
    | none => simp only [Outcome.move, Diagnostic.move, hspan, Option.map_none]
    | some span =>
      have hspans : Span.shiftOr x lines bytes span = Span.shiftOr y lines bytes span := by
        simpa [Outcome.move, Diagnostic.move, hspan] using h
      have hplaced : span.isNowhere = false := by
        refine Bool.eq_false_iff.2 fun hnowhere => hne ?_
        simpa only [Span.shiftOr, hnowhere, if_true] using hspans
      simp only [Outcome.move, Diagnostic.move, hspan, Option.map_some, Span.shiftOr, hplaced,
        Bool.false_eq_true, if_false]

namespace Setting

variable {c : Compiler} {text : String} {cursor : Cursor}

/-- The items of a text that end in the other text as well. -/
def whole {φ : Span → Span} (hφ : Span.Carries φ) (text : String) : Setting :=
  ⟨φ, hφ, (Cursor.ofText text).final, (Cursor.ended_ofText text).final, none⟩

/-- The items of a text at the same places in front of a semicolon. -/
def front (seam : Seam) (text : String) : Setting :=
  ⟨id, fun _ _ => rfl, (Cursor.ofText text).final, (Cursor.ended_ofText text).final, some seam⟩

theorem joins_whole {φ : Span → Span} (hφ : Span.Carries φ)
    (hahead : cursor.ahead = (Cursor.ofText text).ahead.map (moveItem φ))
    (hfinal : cursor.final = (Cursor.ofText text).final.move φ) :
    (whole hφ text).Joins (Session.start c text) ⟨c, cursor, true⟩ := by
  refine .behind ⟨(Cursor.ended_ofText text).ahead, rfl, ?_, hfinal⟩
  rw [hahead]
  exact (List.append_nil _).symm

theorem joins_front {seam : Seam}
    (hahead : cursor.ahead = (Cursor.ofText text).ahead ++ .ok seam.token :: seam.rest)
    (hfinal : cursor.final = seam.final) :
    (front seam text).Joins (Session.start c text) ⟨c, cursor, true⟩ := by
  refine .behind ⟨(Cursor.ended_ofText text).ahead, rfl, ?_, hfinal⟩
  rw [hahead]
  exact congrArg (· ++ .ok seam.token :: seam.rest) (moveItem_id _).symm

end Setting

namespace Compiler

variable {c : Compiler}

/-- Two texts in turn and as one, whatever spans that stand nowhere are taken for. -/
theorem Reached.outcomes_joined (h : c.Reached) (s₁ s₂ : String)
    (hs : ∀ o ∈ c.outcomes s₁, o.isSuccess = true) (nowhere : Span)
    (hnowhere : nowhere.isNowhere = true) :
    let text := s₁ ++ "\n;\n" ++ s₂
    let c₁ := (c.compile s₁).2
    let place := Span.shiftOr nowhere (s₁.toList.count '\n' + 2) (s₁.utf8ByteSize + 3)
    c.outcomes text = c.outcomes s₁ ++ (c₁.outcomes s₂).map (Outcome.move place) ∧
      (c.compile text).2 = (c₁.compile s₂).2 := by
  intro text c₁ place
  have hplace : Span.Carries place := Span.shiftOr_carries hnowhere _ _
  obtain ⟨semicolon, hsemi, hcontents⟩ := Lexer.contents_seam nowhere s₁ s₂
  let seam : Seam := ⟨semicolon, (Cursor.ofText s₂).ahead.map (moveItem place),
    (Cursor.ofText s₂).final.move place, hsemi⟩
  obtain ⟨ds₁, hsound₁⟩ := h.sound s₁
  obtain ⟨units₁, t₁, hrun₁, houtcomes₁, hcompiler₁⟩ := exists_run c s₁
  obtain ⟨ds₂, hsound₂⟩ := (h.compile s₁).sound s₂
  obtain ⟨units₂, t₂, hrun₂, houtcomes₂, hcompiler₂⟩ := exists_run c₁ s₂
  -- behind the semicolon, a session goes through the second text
  have hjoins₂ : (Setting.whole hplace s₂).Joins (Session.start c₁ s₂)
      ⟨c₁, (Setting.front seam s₁).ending, true⟩ :=
    Setting.joins_whole hplace rfl rfl
  obtain ⟨units₂', t₂', hrun₂', hend₂, hunits₂⟩ :=
    hrun₂.beside hsound₂ hjoins₂ (.inl rfl) (.done rfl)
  -- in front of it, it goes through the first one
  have hjoins₁ : (Setting.front seam s₁).Joins (Session.start c s₁) (Session.start c text) :=
    Setting.joins_front (congrArg Prod.fst hcontents) (congrArg Prod.snd hcontents)
  have hsuccess : ∀ u ∈ units₁, u.2.isSuccess = true := by
    intro u hu
    refine hs u.2 ?_
    rw [houtcomes₁]
    exact List.mem_map_of_mem hu
  rw [show c₁ = t₁.compiler from hcompiler₁] at hrun₂'
  obtain ⟨units, t, hrun, hend, hunits⟩ := hrun₁.beside hsound₁ hjoins₁ (.inr hsuccess) hrun₂'
  obtain ⟨houtcomes, hcompiler⟩ := compile_of_run hrun
  have hsame : (c.outcomes s₁).map (Outcome.move (Setting.front seam s₁).place) = c.outcomes s₁ :=
    (List.map_congr_left fun o ho => Outcome.move_of_isSuccess (hs o ho)).trans (List.map_id _)
  refine ⟨?_, ?_⟩
  · rw [houtcomes, hunits, hunits₂, ← houtcomes₁, hsame, ← houtcomes₂]
    exact congrArg (c.outcomes s₁ ++ ·) (List.append_nil _)
  · rw [hcompiler, hend, hend₂, hcompiler₂]

/-- **A history of texts and a single text.**  If all units of a text succeed, another text compiled
behind it has the outcomes that it has in one text with the first, a semicolon on a line of its own
between them: there its diagnostics stand as many lines and bytes further on as are in front of it.  The
compiler is left the same, with its module and its machine. -/
theorem Reached.compile_joined (h : c.Reached) (s₁ s₂ : String)
    (hs : ∀ o ∈ c.outcomes s₁, o.isSuccess = true) :
    let text := s₁ ++ "\n;\n" ++ s₂
    let c₁ := (c.compile s₁).2
    let shift := Span.shift (s₁.toList.count '\n' + 2) (s₁.utf8ByteSize + 3)
    c.outcomes text = c.outcomes s₁ ++ (c₁.outcomes s₂).map (Outcome.move shift) ∧
      (c.compile text).2 = (c₁.compile s₂).2 := by
  intro text c₁ shift
  -- two spans that stand nowhere: no diagnostic can be at both of them
  let elsewhere : Span := ⟨⟨0, 1, 0⟩, ⟨0, 1, 0⟩⟩
  have hne : Span.nowhere ≠ elsewhere := by decide
  obtain ⟨houtcomes, hcompiler⟩ := h.outcomes_joined s₁ s₂ hs .nowhere rfl
  obtain ⟨houtcomes', -⟩ := h.outcomes_joined s₁ s₂ hs elsewhere rfl
  have hmoved := List.map_inj_left.1 (List.append_cancel_left (houtcomes.symm.trans houtcomes'))
  refine ⟨?_, hcompiler⟩
  rw [houtcomes, List.map_congr_left fun o ho => Outcome.move_shiftOr hne (hmoved o ho)]

/-- The first text ends in a comment, and units of the second one fail in every way. -/
theorem Reached.compile_joined_behind_comment :
    let c := ((Compiler.ofConfig {}).withMachine.compile
      "def int g(int n) if n < 1 then 0 else n + g(n - 1)").2
    let s₁ := "def int f(int x) g(x) + 1; f(3)\n# zwölf"
    let s₂ := "f(4) $ 1..2\n  f(h); def int f(int y) y; if f(0) < 1 / 0 then 1 else 2"
    let text := s₁ ++ "\n;\n" ++ s₂
    let c₁ := (c.compile s₁).2
    c.Reached ∧ (∀ o ∈ c.outcomes s₁, o.isSuccess = true) ∧
      ((c₁.outcomes s₂).filterMap Outcome.diagnostic?).map Diagnostic.category =
        [.grammar, .lexical, .type, .type, .type, .runtime] ∧
      c.outcomes text = c.outcomes s₁ ++ (c₁.outcomes s₂).map (Outcome.move (Span.shift 3 43)) ∧
      (c.compile text).2 = (c₁.compile s₂).2 := by
  intro c s₁ s₂ text c₁
  have hc : c.Reached := (withMachine {}).compile _
  have hs : ∀ o ∈ c.outcomes s₁, o.isSuccess = true := by decide +kernel
  have hlines : s₁.toList.count '\n' + 2 = 3 := by decide +kernel
  have hbytes : s₁.utf8ByteSize + 3 = 43 := by decide +kernel
  have hjoined := Reached.compile_joined hc s₁ s₂ hs
  rw [hlines, hbytes] at hjoined
  exact ⟨hc, hs, by decide +kernel, hjoined⟩

end Compiler

end ScalarLang
