import ScalarLang.Proofs.Parsing
import ScalarLang.Proofs.Spelling
import ScalarLang.Proofs.Units

/-!
# Sessions come to the end of their text

The items of a text are done with from left to right.  The next unit is looked for among those that are
due: from the token being looked at on, or behind it if that is done with.  A unit takes the first item
that is due and is no semicolon, so fewer are due behind it, and a session has no more units than its
text has items.

* `Cursor.left`, `Session.due`, `Session.first` — the items that are left, those that are due, and those
  from the start of the next unit on.
* `Cursor.seek_finds` — the next unit starts at the first item that is due and no semicolon.
* `Parse.Moves` — reading that succeeds moves over tokens.
* `Session.Goes.takes` — a unit takes the item that it starts with.
* `Session.exists_run` — a session comes to the end of its text.
* `Compiler.compile_of_run` — compiling a text is running its session.
* `Compiler.GoesThrough`, `Compiler.Reached.goesThrough` — how a text is gone through, item by item.
-/

namespace ScalarLang

open Token (Kind)

/-! ### Items of a text -/

namespace Lexer

/-- The end is not among the items in front of it. -/
theorem contentsFor_ne_eof (lx : Lexer) (n : Nat) :
    ∀ t, .ok t ∈ (lx.contentsFor n).1 → t.kind ≠ .eof := by
  induction n generalizing lx with
  | zero => simp [contentsFor]
  | succ n ih =>
    intro t ht
    rcases lx.exists_next with ⟨_, _, _, item, -, -, hs, hnext⟩ | ⟨-, hnext⟩
    · rw [contentsFor_of_next hnext hs.isEnd_eq] at ht
      rcases List.mem_cons.1 ht with rfl | ht
      · simpa [isEnd] using hs.isEnd_eq
      · exact ih _ t ht
    · rw [contentsFor_of_end hnext rfl] at ht
      cases ht

/-- Draining a lexer gives its contents and then the end. -/
theorem drainFor_eq_contentsFor (lx : Lexer) (hfin : lx.finished = false) {n : Nat}
    (hn : lx.rest.length < n) :
    (lx.drainFor n).1 = (lx.contentsFor n).1 ++ [.ok (lx.contentsFor n).2] := by
  induction n generalizing lx with
  | zero => exact absurd hn (Nat.not_lt_zero _)
  | succ n ih =>
    rcases lx.exists_next with ⟨filler, slice, after, item, hrest, -, hs, hnext⟩ | ⟨-, hnext⟩
    · have hslice := List.length_pos_iff.2 hs.ne_nil
      rw [hrest, List.length_append, List.length_append] at hn
      rw [contentsFor_of_next hnext hs.isEnd_eq, drainFor, next?_of_next hfin hnext, hs.isEnd_eq]
      simp only [Bool.false_eq_true, if_false]
      let behind : Lexer := ⟨after, lx.position.afterAll (filler ++ slice),
        lx.position.afterAll filler, lx.finished⟩
      have hlt : behind.rest.length < n := by
        show after.length < n
        omega
      exact congrArg (item :: ·) (ih behind hfin hlt)
    · rw [contentsFor_of_end hnext rfl, drainFor, next?_of_next hfin hnext]
      simp only [isEnd, beq_self_eq_true, if_true]
      rw [drainFor_of_finished rfl]
      rfl

end Lexer

theorem items_eq_contents (text : String) :
    items text = (Cursor.ofText text).ahead ++ [.ok (Cursor.ofText text).final] :=
  Lexer.drainFor_eq_contentsFor _ rfl (Nat.lt_succ_self _)

/-- Is the item a semicolon? -/
def isSemicolon : Item → Bool
  | .ok token => token.kind == .char ';'
  | .error _ => false

/-! ### Items that are left -/

namespace Cursor

variable {c c' c₁ : Cursor} {kind : Kind} {kinds : List Kind}

/-- The end of the input stands behind the items and is none of them. -/
structure Ended (c : Cursor) : Prop where
  final : c.final.kind = .eof
  ahead : ∀ t, .ok t ∈ c.ahead → t.kind ≠ .eof

theorem ended_ofText (text : String) : (ofText text).Ended := by
  let lx := Lexer.ofText text
  exact ⟨lx.contentsFor_final (lx.rest.length + 1), lx.contentsFor_ne_eof (lx.rest.length + 1)⟩

theorem ended_stable : Stable Ended := by
  intro c hc
  unfold step
  split
  · exact ⟨hc.final, hc.ahead⟩
  · next t ahead h =>
    exact ⟨hc.final, fun u hu => hc.ahead u (by rw [h]; exact List.mem_cons_of_mem _ hu)⟩
  · next e ahead h =>
    exact ⟨hc.final, fun u hu => hc.ahead u (by rw [h]; exact List.mem_cons_of_mem _ hu)⟩

theorem stable_ahead (all : List Item) : Stable fun c => c.ahead <:+ all := by
  intro c hc
  unfold step
  split
  · exact hc
  · next h => exact (List.suffix_cons _ _).trans (h ▸ hc)
  · next h => exact (List.suffix_cons _ _).trans (h ▸ hc)

/-- The items from the token being looked at on; there are none at the end. -/
def left (c : Cursor) : List Item :=
  if c.current.kind = .eof then [] else .ok c.current :: c.ahead

/-- The items among which the next unit is looked for. -/
def due (c : Cursor) (needsAdvance : Bool) : List Item := if needsAdvance then c.ahead else c.left

/-- Moving past a token leaves the items that were ahead. -/
theorem left_of_advance (hc : c.Ended) (h : Parse.advance c = .ok () c') : c'.left = c.ahead := by
  unfold Parse.advance at h
  split at h
  · next hahead =>
    cases h
    rw [left, if_pos hc.final, hahead]
  · next t ahead hahead =>
    cases h
    have ht : t.kind ≠ .eof := hc.ahead t (by rw [hahead]; exact List.mem_cons_self)
    rw [left, if_neg ht, hahead]
  · cases h

theorem Consumes.ended (h : c.Consumes kinds c') (hc : c.Ended) : c'.Ended := by
  induction h with
  | nil => exact hc
  | cons h _ ih => exact ih (step_eq_of_advance h.advance ▸ ended_stable _ hc)

theorem ahead_suffix_of_advance (h : Parse.advance c = .ok () c') : c'.ahead <:+ c.ahead :=
  step_eq_of_advance h ▸ stable_ahead c.ahead c (List.suffix_refl _)

theorem Consumes.ahead_suffix (h : c.Consumes kinds c') : c'.ahead <:+ c.ahead := by
  induction h with
  | nil => exact List.suffix_refl _
  | cons h _ ih => exact ih.trans (ahead_suffix_of_advance h.advance)

/-- Moving over one token or more leaves no more than was ahead. -/
theorem Consumes.left_suffix (h : c.Consumes (kind :: kinds) c') (hc : c.Ended) :
    c'.left <:+ c.ahead := by
  induction kinds generalizing c kind with
  | nil => rw [left_of_advance hc h.of_singleton.advance]
  | cons kind' kinds ih =>
    obtain ⟨c₁, hk, hs⟩ := h.of_cons
    have hc₁ : c₁.Ended := (Consumes.cons hk .nil).ended hc
    exact (ih hs hc₁).trans (ahead_suffix_of_advance hk.advance)

/-! ### Looking for the next unit -/

/-- What is found in front of items of which the first is no semicolon. -/
inductive Finds (final : Token) : List Item → Sought × Cursor → Prop
  | finished {c : Cursor} : Finds final [] (.finished, c)
  | unit {t : Token} {rest : List Item} : Finds final (.ok t :: rest) (.unit, ⟨t, rest, final⟩)
  | malformed {e : LexError} {rest : List Item} {last : Token} :
      Finds final (.error e :: rest) (.malformed e, ⟨last, rest, final⟩)

section Seek

variable {final current : Token} {ahead : List Item}

theorem seekFrom_of_ne (hk : current.kind ≠ .eof) (hsemi : current.kind ≠ .char ';') :
    seekFrom final current ahead = (.unit, ⟨current, ahead, final⟩) := by
  rw [seekFrom.eq_def]
  cases ahead <;> simp

theorem seekFrom_finds (hahead : ∀ t, .ok t ∈ ahead → t.kind ≠ .eof) (hk : current.kind ≠ .eof) :
    Finds final ((.ok current :: ahead).dropWhile isSemicolon) (seekFrom final current ahead) := by
  induction ahead generalizing current with
  | nil =>
    by_cases hsemi : current.kind = .char ';'
    · rw [List.dropWhile_cons_of_pos (by simp [isSemicolon, hsemi]), seekFrom, hsemi]
      exact .finished
    · rw [List.dropWhile_cons_of_neg (by simpa [isSemicolon] using hsemi), seekFrom_of_ne hk hsemi]
      exact .unit
  | cons item ahead ih =>
    by_cases hsemi : current.kind = .char ';'
    · rw [List.dropWhile_cons_of_pos (by simp [isSemicolon, hsemi]), seekFrom.eq_def]
      simp only [hsemi]
      cases item with
      | error e => exact .malformed
      | ok t =>
        exact ih (fun u hu => hahead u (List.mem_cons_of_mem _ hu)) (hahead t List.mem_cons_self)
    · rw [List.dropWhile_cons_of_neg (by simpa [isSemicolon] using hsemi), seekFrom_of_ne hk hsemi]
      exact .unit

end Seek

theorem seek_of_eof (hk : c.current.kind = .eof) : (c.seek false).1 = .finished := by
  rw [seek, if_neg Bool.false_ne_true, seekFrom.eq_def]
  cases c.ahead <;> simp only [hk]

/-- **The next unit starts at the first item that is due and is no semicolon.** -/
theorem seek_finds (hc : c.Ended) (needsAdvance : Bool) :
    Finds c.final ((c.due needsAdvance).dropWhile isSemicolon) (c.seek needsAdvance) := by
  have hahead := hc.ahead
  cases needsAdvance with
  | true =>
    rw [due, if_pos rfl, seek, if_pos rfl]
    cases h : c.ahead with
    | nil => exact .finished
    | cons item ahead =>
      rw [h] at hahead
      cases item with
      | error e => exact .malformed
      | ok t =>
        exact seekFrom_finds (fun u hu => hahead u (List.mem_cons_of_mem _ hu))
          (hahead t List.mem_cons_self)
  | false =>
    rw [due, if_neg Bool.false_ne_true, seek, if_neg Bool.false_ne_true, left]
    by_cases hk : c.current.kind = .eof
    · rw [if_pos hk, seekFrom.eq_def]
      cases c.ahead <;> simp only [hk] <;> exact .finished
    · rw [if_neg hk]
      exact seekFrom_finds hahead hk

/-- A semicolon is done with in any case. -/
theorem seek_of_semicolon (hk : c.current.kind = .char ';') : c.seek false = c.seek true := by
  rw [seek, if_neg Bool.false_ne_true, seek, if_pos rfl, seekFrom.eq_def]
  cases h : c.ahead with
  | nil => simp only [hk]
  | cons item ahead =>
    cases item <;> simp only [hk]

/-- Behind a token that is done with, the next unit is looked for at the next one. -/
theorem seek_of_advance (hc : c.Ended) (h : Parse.advance c = .ok () c') :
    c.seek true = c'.seek false := by
  obtain ⟨current, ahead, final⟩ := c
  have hfinal : final.kind = .eof := hc.final
  cases ahead with
  | nil =>
    cases h
    simp only [seek, seekFrom, hfinal]
    rfl
  | cons item ahead =>
    cases item with
    | ok t =>
      cases h
      rfl
    | error e => cases h

/-- What is found behind a token that is done with, if the next item is malformed. -/
theorem seek_of_advance_error {e : InputError} (h : Parse.advance c = .error e c') :
    ∃ lexical, e = .lexical lexical ∧ c.seek true = (.malformed lexical, c') := by
  obtain ⟨current, ahead, final⟩ := c
  cases ahead with
  | nil => cases h
  | cons item ahead =>
    cases item with
    | ok t => cases h
    | error lexical =>
      cases h
      exact ⟨lexical, rfl, rfl⟩

end Cursor

/-! ### Reading moves over tokens -/

namespace Parse

variable {α β : Type}

/-- Reading that succeeds moves over tokens. -/
def Moves (p : Parse α) : Prop := ∀ c a c', p c = .ok a c' → ∃ kinds, c.Consumes kinds c'

namespace Moves

theorem pure {a : α} : Moves (Pure.pure a) := by
  intro c b c' h
  obtain ⟨-, rfl⟩ := run_pure_eq_ok_iff.1 h
  exact ⟨[], .nil⟩

theorem bind {p : Parse α} {f : α → Parse β} (hp : Moves p) (hf : ∀ a, Moves (f a)) :
    Moves (p >>= f) := by
  intro c b c' h
  obtain ⟨a, c₁, ha, hb⟩ := run_bind_eq_ok_iff.1 h
  obtain ⟨kinds, hkinds⟩ := hp c a c₁ ha
  obtain ⟨kinds', hkinds'⟩ := hf a c₁ b c' hb
  exact ⟨kinds ++ kinds', hkinds.append hkinds'⟩

theorem get : Moves (get : Parse Cursor) := by
  intro c b c' h
  obtain ⟨-, rfl⟩ := run_get_eq_ok_iff.1 h
  exact ⟨[], .nil⟩

theorem expected {what : String} : Moves (Parse.expected what : Parse α) := by
  intro c b c' h
  cases h

theorem check {result : Except TypeError α} : Moves (Parse.check result) := by
  intro c b c' h
  obtain ⟨-, rfl⟩ := check_eq_ok_iff.1 h
  exact ⟨[], .nil⟩

theorem ite {b : Prop} [Decidable b] {p q : Parse α} (hp : Moves p) (hq : Moves q) :
    Moves (if b then p else q) := by
  split
  · exact hp
  · exact hq

theorem advance : Moves Parse.advance := by
  intro c _ c' h
  exact ⟨[c.current.kind], .cons ⟨rfl, h⟩ .nil⟩

theorem expectChar {ch : Char} : Moves (Parse.expectChar ch) := by
  intro c span c' h
  obtain ⟨-, htakes⟩ := expectChar_eq_ok_iff.1 h
  exact ⟨[.char ch], .cons htakes .nil⟩

end Moves

end Parse

namespace Program

open Parse

theorem expression_moves (table : PrecedenceTable) (ctx : Context) :
    Moves (Expr.Reader.expression table ctx) := by
  intro c e c' h
  obtain ⟨-, t, ht⟩ := (Expr.Reader.readers_shape table ctx c.fuel).1 c e c' h
  exact ⟨t.yield, ht.consumes⟩

theorem type_moves {what : String} : Moves (type what) := by
  refine Moves.get.bind fun c => ?_
  split
  · exact Moves.advance.bind fun _ => Moves.pure
  · exact Moves.advance.bind fun _ => Moves.pure
  · exact Moves.expected

theorem name_moves {what : String} : Moves (name what) := by
  refine Moves.get.bind fun c => ?_
  split
  · exact Moves.advance.bind fun _ => Moves.pure
  · exact Moves.expected

theorem parametersFor_moves (n : Nat) : Moves (parametersFor n) := by
  induction n with
  | zero => exact Moves.pure
  | succ n ih =>
    have hparameter : Moves parameter :=
      Moves.get.bind fun _ => type_moves.bind fun _ => name_moves.bind fun _ => Moves.pure
    refine hparameter.bind fun p => Moves.get.bind fun c => Moves.ite ?_ Moves.pure
    exact Moves.advance.bind fun _ => ih.bind fun _ => Moves.pure

theorem prototype_moves : Moves prototype := by
  refine Moves.get.bind fun start => type_moves.bind fun ret => name_moves.bind fun r => ?_
  refine Moves.expectChar.bind fun _ => Moves.get.bind fun c => ?_
  have hclose : ∀ params : List Param, Moves (do
      let close ← Parse.expectChar ')'
      return (⟨r.1, params, ret, start.current.span.through close⟩ : Prototype)) :=
    fun params => Moves.expectChar.bind fun _ => Moves.pure
  refine Moves.ite ?_ ?_
  · exact Moves.pure.bind hclose
  · exact Moves.bind (fun c _ _ h => parametersFor_moves (c.ahead.length + 1) c _ _ h) hclose

variable {table : PrecedenceTable} {sigs : Signatures} {d : Definition} {c c' : Cursor}

/-- A definition moves over the word it starts with, at least. -/
theorem consumes_of_definition (h : definition table sigs c = .ok d c') :
    ∃ kinds, c.Consumes (.kwDef :: kinds) c' := by
  obtain ⟨_, c₁, hdef, h⟩ := run_bind_eq_ok_iff.1 h
  obtain ⟨-, hdef⟩ := (expect_eq_ok_iff rfl).1 hdef
  have hrest : Moves (do
      let proto ← prototype
      let scope ← Parse.check (Scope.ofPrototype proto)
      let body ← Expr.Reader.expression table ⟨sigs, scope, some proto⟩
      Parse.check (Typing.definition proto body)
      return (⟨proto, body⟩ : Definition)) := by
    refine prototype_moves.bind fun proto => Moves.check.bind fun scope => ?_
    exact (expression_moves table _).bind fun body => Moves.check.bind fun _ => Moves.pure
  obtain ⟨kinds, hkinds⟩ := hrest c₁ d c' h
  exact ⟨kinds, .cons hdef hkinds⟩

/-- An expression moves over its first token, at least. -/
theorem consumes_of_topLevel (h : topLevel table sigs c = .ok d c') :
    ∃ kind kinds, c.Consumes (kind :: kinds) c' := by
  obtain ⟨body, c₁, hbody, h⟩ := run_bind_eq_ok_iff.1 h
  obtain ⟨_, _, hcheck, h⟩ := run_bind_eq_ok_iff.1 h
  obtain ⟨-, rfl⟩ := check_eq_ok_iff.1 hcheck
  obtain ⟨-, rfl⟩ := run_pure_eq_ok_iff.1 h
  obtain ⟨-, t, ht⟩ := (Expr.Reader.readers_shape table _ c.fuel).1 c body c₁ hbody
  obtain ⟨kind, kinds, hyield, -⟩ := t.exists_yield_eq_cons
  exact ⟨kind, kinds, hyield ▸ ht.consumes⟩

end Program

/-! ### Units take items -/

namespace Session

variable {s s' t : Session} {o : Outcome} {ds : List Definition}
  {units : List (Session × Outcome)}

/-- The items among which the next unit is looked for. -/
def due (s : Session) : List Item := s.cursor.due s.needsAdvance

/-- The items from the start of the next unit on. -/
def first (s : Session) : List Item := s.due.dropWhile isSemicolon

theorem first_suffix_due (s : Session) : s.first <:+ s.due := List.dropWhile_suffix _

/-- What a unit reads lies behind the token that it starts with. -/
theorem reads_ok {c c' : Cursor} {d : Definition} (hc : c.Ended) (h : s.reads c = .ok d c') :
    c'.Ended ∧ c'.left <:+ c.ahead ∧ c'.ahead <:+ c.ahead := by
  obtain ⟨kind, kinds, hkinds⟩ : ∃ kind kinds, c.Consumes (kind :: kinds) c' := by
    by_cases hk : c.current.kind = .kwDef
    · rw [reads_of_kwDef hk] at h
      exact ⟨_, Program.consumes_of_definition h⟩
    · rw [reads_of_ne_kwDef hk] at h
      exact Program.consumes_of_topLevel h
  exact ⟨hkinds.ended hc, hkinds.left_suffix hc, hkinds.ahead_suffix⟩

/-- Whatever moving over items keeps is kept where reading fails. -/
theorem reads_error {I : Cursor → Prop} (hI : Cursor.Stable I) {c c' : Cursor} {e : InputError}
    (hc : I c) (h : s.reads c = .error e c') : I c' := by
  by_cases hk : c.current.kind = .kwDef
  · rw [reads_of_kwDef hk] at h
    exact (Program.definition_reads hI _ s.compiler.module.signature?_resolved (N := fun _ => True)
      fun _ _ _ _ => trivial).error hc h
  · rw [reads_of_ne_kwDef hk] at h
    exact (Program.topLevel_reads hI _ s.compiler.module.signature?_resolved).error hc h

/-- What a session finds, by the items from the start of the next unit on. -/
theorem seek_finds (hs : s.cursor.Ended) :
    Cursor.Finds s.cursor.final s.first (s.cursor.seek s.needsAdvance) :=
  Cursor.seek_finds hs s.needsAdvance

theorem ne_eof_of_mem_first (hs : s.cursor.Ended) {u : Token} (hu : .ok u ∈ s.first) :
    u.kind ≠ .eof := by
  have hdue := s.first_suffix_due.subset hu
  unfold due Cursor.due Cursor.left at hdue
  split at hdue
  · exact hs.ahead u hdue
  · split at hdue
    · cases hdue
    · next hk =>
      rcases List.mem_cons.1 hdue with hu | hu
      · cases hu
        exact hk
      · exact hs.ahead u hu

/-- Where a session finds a unit, the unit starts at the first item that is due and is no semicolon. -/
theorem first_of_unit {c : Cursor} (hs : s.cursor.Ended)
    (h : s.cursor.seek s.needsAdvance = (.unit, c)) :
    s.first = .ok c.current :: c.ahead ∧ c.Ended := by
  have hfinds := seek_finds hs
  have hended : ∀ u, .ok u ∈ s.first → u.kind ≠ .eof := fun u => ne_eof_of_mem_first hs
  rw [h] at hfinds
  generalize hfirst : s.first = items at hfinds hended
  cases hfinds with
  | unit => exact ⟨rfl, hs.final, fun u hu => hended u (List.mem_cons_of_mem _ hu)⟩

/-- **A unit takes the item that it starts with.** -/
theorem Goes.takes (h : s.Goes o s') (hs : s.cursor.Ended) :
    s'.cursor.Ended ∧ ∃ item rest, s.first = item :: rest ∧ s'.cursor.ahead <:+ rest ∧
      s'.due <:+ rest := by
  -- what is read lies behind the first token, and so does the token being looked at then
  have hread : ∀ {c c' : Cursor} {d : Definition} {compiler : Compiler},
      s.cursor.seek s.needsAdvance = (.unit, c) → s.reads c = .ok d c' →
      c'.Ended ∧ ∃ item rest, s.first = item :: rest ∧ c'.ahead <:+ rest ∧
        (⟨compiler, c', false⟩ : Session).due <:+ rest := by
    intro c c' d compiler hseek hr
    obtain ⟨hfirst, hc⟩ := first_of_unit hs hseek
    obtain ⟨hc', hleft, hahead⟩ := reads_ok hc hr
    exact ⟨hc', _, _, hfirst, hahead, hleft⟩
  cases h with
  | @malformed e c h =>
    have hfinds := seek_finds hs
    have hended : ∀ u, .ok u ∈ s.first → u.kind ≠ .eof := fun u => ne_eof_of_mem_first hs
    rw [h] at hfinds
    generalize hfirst : s.first = items at hfinds hended
    cases hfinds with
    | @malformed e rest last =>
      refine ⟨⟨hs.final, fun u hu => hended u (List.mem_cons_of_mem _ hu)⟩, _, _, rfl, ?_, ?_⟩
      · exact List.suffix_refl _
      · exact List.suffix_refl _
  | @unreadable c c' e h hr =>
    obtain ⟨hfirst, hc⟩ := first_of_unit hs h
    have hahead : c'.ahead <:+ c.ahead :=
      reads_error (Cursor.stable_ahead c.ahead) (List.suffix_refl _) hr
    exact ⟨reads_error Cursor.ended_stable hc hr, _, _, hfirst, hahead, hahead⟩
  | refused h hr _ => exact hread h hr
  | defined h _ hr _ => exact hread h hr
  | evaluated h _ hr _ _ => exact hread h hr
  | faulted h _ hr _ _ => exact hread h hr

/-! ### Runs come to the end -/

/-- **A session comes to the end of its text.**  By induction on the number of items that are due. -/
theorem exists_run (hs : s.cursor.Ended) : ∃ units t, s.Run units t := by
  induction hn : s.due.length using Nat.strong_induction_on generalizing s with
  | _ n ih =>
    cases h : s.next with
    | none => exact ⟨[], s, .done h⟩
    | some unit =>
      obtain ⟨report, s'⟩ := unit
      have hgoes := goes_of_next h
      obtain ⟨hs', item, rest, hfirst, -, hdue⟩ := hgoes.takes hs
      have hlt : s'.due.length < n := by
        have hle := s.first_suffix_due.length_le
        have hle' := hdue.length_le
        rw [hfirst, List.length_cons] at hle
        omega
      obtain ⟨units, t, hrun⟩ := ih _ hlt hs' rfl
      exact ⟨(s, report.outcome) :: units, t, .unit hgoes hrun⟩

theorem Run.next_eq_none (h : s.Run units t) : t.next = none := by
  induction h with
  | done h => exact h
  | unit _ _ ih => exact ih

/-- What a unit keeps holds in front of every unit of a run. -/
theorem Run.forall_mem {I : Session → Prop} (hI : ∀ s o s', I s → s.Goes o s' → I s')
    (h : s.Run units t) (hs : I s) : ∀ u ∈ units, I u.1 ∧ ∃ s', u.1.Goes u.2 s' := by
  induction h with
  | done _ => exact fun u hu => absurd hu List.not_mem_nil
  | unit h _ ih => exact List.forall_mem_cons.2 ⟨⟨hs, _, h⟩, ih (hI _ _ _ hs h)⟩

/-- What a unit keeps holds at the end of a run. -/
theorem Run.forall_end {I : Session → Prop} (hI : ∀ s o s', I s → s.Goes o s' → I s')
    (h : s.Run units t) (hs : I s) : I t := by
  induction h with
  | done _ => exact hs
  | unit h _ ih => exact ih (hI _ _ _ hs h)

/-- The units of a run start among the items that are due, each behind the ones before it. -/
theorem Run.starts (h : s.Run units t) (hs : s.cursor.Ended) :
    units.length ≤ s.due.length ∧ (∀ u ∈ units, u.1.first ≠ [] ∧ u.1.first <:+ s.due) ∧
      units.Pairwise fun u v => v.1.first.length < u.1.first.length := by
  induction h with
  | done _ => exact ⟨Nat.zero_le _, fun u hu => absurd hu List.not_mem_nil, .nil⟩
  | @unit s s' t o units h _ ih =>
    obtain ⟨hs', item, rest, hfirst, -, hdue⟩ := h.takes hs
    obtain ⟨hlen, hmem, hpairs⟩ := ih hs'
    have hrest : rest.length < s.first.length := by
      rw [hfirst]
      exact Nat.lt_succ_self _
    have hle := s.first_suffix_due.length_le
    have hle' := hdue.length_le
    refine ⟨?_, List.forall_mem_cons.2 ⟨⟨by simp [hfirst], s.first_suffix_due⟩, ?_⟩,
      List.pairwise_cons.2 ⟨?_, hpairs⟩⟩
    · rw [List.length_cons]
      omega
    · intro u hu
      have hsuffix : rest <:+ s.first := hfirst ▸ List.suffix_cons item rest
      exact ⟨(hmem u hu).1, (hmem u hu).2.trans (hdue.trans (hsuffix.trans s.first_suffix_due))⟩
    · intro u hu
      have hlt := (hmem u hu).2.length_le
      show u.1.first.length < s.first.length
      omega

end Session

/-! ### Where the next unit is looked for -/

/-- If the unit failed when it was run, then by one of the possible faults. -/
def Outcome.FailsBy (o : Outcome) (possible : Machine.Fault → Prop) : Prop :=
  ∀ d, o = .failure d → d.category = .runtime →
    ∃ fault, possible fault ∧ d.message = fault.message

theorem Outcome.FailsBy.of_isSuccess {o : Outcome} {possible : Machine.Fault → Prop}
    (h : o.isSuccess = true) : o.FailsBy possible := by
  rintro d rfl
  cases h

namespace Session

variable {s s' t : Session} {o : Outcome} {ds : List Definition}

/-- Where the next unit is looked for once a unit has come to its end.  If the text could not be read,
that is behind the last item that has been pulled from the lexer; otherwise it is at the token being
looked at, whatever became of what was read: a success, a name that is taken or a possible fault. -/
def Resumes (s : Session) (possible : Machine.Fault → Prop) (o : Outcome) (s' : Session) : Prop :=
  match s.read? with
  | none =>
    (∃ e : InputError, o = .failure (CompileError.input e).toDiagnostic) ∧ s'.due = s'.cursor.ahead
  | some d =>
    (o.isSuccess = true ∨
      o = .failure
        (CompileError.lowering (.typing (.redefinition d.proto.name d.proto.span))).toDiagnostic ∨
      ∃ fault : Machine.Fault, possible fault ∧ o = .failure
        { category := .runtime, message := fault.message, span? := some d.proto.span }) ∧
      s'.due = s'.cursor.left

theorem read?_of_reads_ok {c c' : Cursor} {d : Definition}
    (h : s.cursor.seek s.needsAdvance = (.unit, c)) (hr : s.reads c = .ok d c') :
    s.read? = some d := by
  unfold reads at hr
  simp only [read?, h, hr]

theorem Goes.resumes (h : s.Goes o s') (hs : s.Sound ds) {possible : Machine.Fault → Prop}
    (hfails : o.FailsBy possible) : s.Resumes possible o s' := by
  unfold Resumes
  cases h with
  | malformed h =>
    have hread : s.read? = none := by simp only [read?, h]
    rw [hread]
    exact ⟨⟨_, rfl⟩, rfl⟩
  | @unreadable c c' e h hr =>
    have hread : s.read? = none := by
      unfold reads at hr
      simp only [read?, h, hr]
    rw [hread]
    exact ⟨⟨e, rfl⟩, rfl⟩
  | @refused c c' d e m h hr hg =>
    rw [read?_of_reads_ok h hr]
    refine ⟨.inr (.inl ?_), rfl⟩
    rcases hs.generate_cases hr with hg' | haccepts
    · obtain ⟨he, -⟩ := Prod.mk.inj (hg.symm.trans hg')
      rw [Except.error.inj he]
    · obtain ⟨f, m', hg', -⟩ := haccepts.generate
      cases hg.symm.trans hg'
  | defined h _ hr _ =>
    rw [read?_of_reads_ok h hr]
    exact ⟨.inl rfl, rfl⟩
  | evaluated h _ hr _ _ =>
    rw [read?_of_reads_ok h hr]
    exact ⟨.inl rfl, rfl⟩
  | faulted h _ hr _ _ =>
    rw [read?_of_reads_ok h hr]
    obtain ⟨fault, hpossible, hmessage⟩ := hfails _ rfl rfl
    refine ⟨.inr (.inr ⟨fault, hpossible, ?_⟩), rfl⟩
    rw [← hmessage]

/-- The number of the item of a text at which the next unit starts, counted from zero. -/
def startIn (all : List Item) (s : Session) : Nat := all.length - s.first.length

theorem drop_startIn {all : List Item} (h : s.first <:+ all) : all.drop (s.startIn all) = s.first :=
  (List.suffix_iff_eq_drop.1 h).symm

/-- A session whose items are the rest of the items of a text. -/
structure Within (all : List Item) (s : Session) : Prop where
  ended : s.cursor.Ended
  ahead : s.cursor.ahead <:+ all
  due : s.due <:+ all

theorem Within.goes {all : List Item} (hs : s.Within all) (h : s.Goes o s') : s'.Within all := by
  obtain ⟨hended, item, rest, hfirst, hahead, hdue⟩ := h.takes hs.ended
  have hrest : rest <:+ all :=
    (hfirst ▸ List.suffix_cons item rest).trans (s.first_suffix_due.trans hs.due)
  exact ⟨hended, hahead.trans hrest, hdue.trans hrest⟩

end Session

namespace Compiler

variable {c : Compiler} {text : String}

theorem filter_items (text : String) :
    (items text).filter (fun item => !Lexer.isEnd item) = (Cursor.ofText text).ahead := by
  have hended := Cursor.ended_ofText text
  have hall : (Cursor.ofText text).ahead.filter (fun item => !Lexer.isEnd item) =
      (Cursor.ofText text).ahead := by
    rw [List.filter_eq_self]
    intro item hitem
    cases item with
    | error e => rfl
    | ok t => simpa [Lexer.isEnd] using hended.ahead t hitem
  rw [items_eq_contents, List.filter_append, hall]
  simp [Lexer.isEnd, hended.final]

/-- **Compiling a text is running its session.** -/
theorem compile_of_run {units : List (Session × Outcome)} {t : Session}
    (h : (Session.start c text).Run units t) :
    c.outcomes text = units.map Prod.snd ∧ (c.compile text).2 = t.compiler := by
  have hlen := (h.starts (Cursor.ended_ofText text)).1
  exact h.unitsFor (Nat.le_succ_of_le hlen)

/-- Compiling a text runs its session to the end. -/
theorem exists_run (c : Compiler) (text : String) :
    ∃ units t, (Session.start c text).Run units t ∧ c.outcomes text = units.map Prod.snd ∧
      (c.compile text).2 = t.compiler := by
  have hended : (Session.start c text).cursor.Ended := Cursor.ended_ofText text
  obtain ⟨units, t, hrun⟩ := Session.exists_run hended
  exact ⟨units, t, hrun, compile_of_run hrun⟩

/-- **A text is gone through from left to right.**  Its session comes to the end, with no more units than
the text has tokens and lexical errors in front of its end.  Each unit starts behind the items at which
those before it have started.  Where nothing could be read, the next unit is looked for right behind the
last item that has been pulled from the lexer; otherwise no token is skipped.  A unit that fails when it
is run does so by one of the possible faults. -/
def GoesThrough (c : Compiler) (text : String) (possible : Machine.Fault → Prop) : Prop :=
  let all := (items text).filter fun item => !Lexer.isEnd item
  ∃ units t, (Session.start c text).Run units t ∧ t.next = none ∧
    c.outcomes text = units.map Prod.snd ∧ (c.compile text).2 = t.compiler ∧
    units.length ≤ all.length ∧
    (units.map fun u => u.1.startIn all).Pairwise (· < ·) ∧
    ∀ u ∈ units, u.1.due <:+ all ∧ u.1.first ≠ [] ∧ all.drop (u.1.startIn all) = u.1.first ∧
      ∃ events s', u.1.next = some (⟨u.2, events⟩, s') ∧ s'.cursor.ahead <:+ all ∧
        u.1.Resumes possible u.2 s'

/-- Every text is gone through, and with the faults by which its outcomes fail. -/
theorem Reached.goesThrough (h : c.Reached) {possible : Machine.Fault → Prop}
    (hfails : ∀ o ∈ c.outcomes text, o.FailsBy possible) : c.GoesThrough text possible := by
  unfold GoesThrough
  intro all
  have hall : all = (Cursor.ofText text).ahead := filter_items text
  have hwithin : (Session.start c text).Within all := by
    rw [hall]
    exact ⟨Cursor.ended_ofText text, List.suffix_refl _, List.suffix_refl _⟩
  obtain ⟨ds, hsound⟩ := h.sound text
  obtain ⟨units, t, hrun, houtcomes, hcompiler⟩ := exists_run c text
  obtain ⟨hlen, hstarts, hpairs⟩ := hrun.starts hwithin.ended
  have hkept := hrun.forall_mem (I := fun s => s.Within all ∧ ∃ ds, s.Sound ds)
    (fun s o s' hs hgoes => ⟨hs.1.goes hgoes, hs.2.imp' _ fun ds hds => hds.goes hgoes⟩)
    ⟨hwithin, ds, hsound⟩
  refine ⟨units, t, hrun, hrun.next_eq_none, houtcomes, hcompiler, ?_, ?_, ?_⟩
  · rw [hall]
    exact hlen
  · rw [List.pairwise_map]
    refine hpairs.imp_of_mem fun {u v} hu hv hlt => ?_
    have hle := ((hstarts u hu).2.trans hwithin.due).length_le
    show all.length - u.1.first.length < all.length - v.1.first.length
    omega
  · intro u hu
    obtain ⟨⟨hu', ds', hds'⟩, s', hgoes⟩ := hkept u hu
    obtain ⟨events, hnext⟩ := hgoes.next
    have hfault : u.2.FailsBy possible := hfails u.2 (houtcomes ▸ List.mem_map_of_mem hu)
    exact ⟨hu'.due, (hstarts u hu).1,
      Session.drop_startIn (u.1.first_suffix_due.trans hu'.due), events, s', hnext,
      (hu'.goes hgoes).ahead, hgoes.resumes hds' hfault⟩

end Compiler

end ScalarLang
