import ScalarLang.Proofs.Fuel
import ScalarLang.Proofs.Places
import ScalarLang.Proofs.Progress

/-!
# Reading the same tokens in another text

The items of a text can stand in a larger one, at other places.  If they end there as well, reading them
there does the same, success or failure, with all places moved.  If a semicolon comes behind them, what
is read up to the end of the text is read up to the semicolon: no reader moves past the end, and none can
tell the end from a semicolon unless it fails.  Both are one statement about readers, in which failures
count only if the items end.

* `Setting` — where the places of a text are in another one, and what comes behind it there.
* `Setting.Beside` — a cursor in the text and the one beside it in the other text.
* `Setting.Gives`, `Setting.Tracks` — results beside each other, and readers that have such results.
* `Expr.Reader.expression_tracks` — reading expressions, by induction on the depth.
* `Program.definition_tracks`, `Program.topLevel_tracks` — reading units.
-/

namespace ScalarLang

open Token (Kind)

/-- A semicolon, and what stands behind it up to the end. -/
structure Seam where
  token : Token
  rest : List Item
  final : Token
  kind_eq : token.kind = .char ';'

/-- How the items of a text stand in another one: where their places are there, and what comes in the
place of their end. -/
structure Setting where
  place : Span → Span
  carries : Span.Carries place
  final : Token
  final_kind : final.kind = .eof
  seam? : Option Seam := none

namespace Setting

variable {S : Setting} {c c' : Cursor} {α β : Type}

/-- The items end in the other text as well. -/
def Whole (S : Setting) : Prop := S.seam? = none

/-- The cursor of the other text that stands behind the items. -/
def ending (S : Setting) : Cursor :=
  match S.seam? with
  | none => ⟨S.final.move S.place, [], S.final.move S.place⟩
  | some seam => ⟨seam.token, seam.rest, seam.final⟩

/-- What the other text has behind the items. -/
def behind (S : Setting) : List Item :=
  match S.seam? with
  | none => []
  | some seam => .ok seam.token :: seam.rest

/-- The items of the text, as they stand in the other one, and what comes behind them there. -/
def inside (S : Setting) (items : List Item) : List Item := items.map (moveItem S.place) ++ S.behind

/-- A cursor in the text and the one beside it in the other text. -/
inductive Beside (S : Setting) : Cursor → Cursor → Prop
  | within {t : Token} {ahead : List Item} (hk : t.kind ≠ .eof)
      (hahead : ∀ u, .ok u ∈ ahead → u.kind ≠ .eof) :
      Beside S ⟨t, ahead, S.final⟩ ⟨t.move S.place, S.inside ahead, S.ending.final⟩
  | ended : Beside S ⟨S.final, [], S.final⟩ S.ending

namespace Beside

theorem final_eq (h : S.Beside c c') : c.final = S.final := by
  cases h <;> rfl

theorem length_le (h : S.Beside c c') : c.ahead.length ≤ c'.ahead.length := by
  cases h with
  | within => simp [inside]
  | ended => exact Nat.zero_le _

/-- The tokens being looked at are of one kind, unless a semicolon stands in the place of the end. -/
theorem kind_cases (h : S.Beside c c') :
    c'.current.kind = c.current.kind ∨
      (c.current.kind = .eof ∧ c'.current.kind = .char ';' ∧ ¬ S.Whole) := by
  cases h with
  | within => exact .inl rfl
  | ended =>
    unfold ending Whole
    cases S.seam? with
    | none => exact .inl rfl
    | some seam => exact .inr ⟨S.final_kind, seam.kind_eq, fun h => nomatch h⟩

/-- What does not tell the end from a semicolon. -/
theorem congr_kind (h : S.Beside c c') {g : Kind → β} (hg : g (.char ';') = g .eof) :
    g c'.current.kind = g c.current.kind := by
  rcases h.kind_cases with heq | ⟨hc, hc', -⟩
  · rw [heq]
  · rw [hc, hc', hg]

theorem current_eq (h : S.Beside c c') (hk : c.current.kind ≠ .eof ∨ S.Whole) :
    c'.current = c.current.move S.place := by
  cases h with
  | within => rfl
  | ended =>
    rcases hk with hk | hw
    · exact absurd S.final_kind hk
    · unfold ending
      rw [show S.seam? = none from hw]

theorem atChar?_eq (h : S.Beside c c') {ch : Char} (hch : ch ≠ ';') : c'.atChar? ch = c.atChar? ch := by
  refine h.congr_kind (g := fun kind => kind == .char ch) ?_
  simpa using hch.symm

theorem at?_eq (h : S.Beside c c') {kind : Kind} (hkind : (Kind.char ';').same kind = Kind.eof.same kind) :
    c'.at? kind = c.at? kind :=
  h.congr_kind (g := fun k => k.same kind) hkind

theorem precedence_eq (h : S.Beside c c') (table : PrecedenceTable) :
    c'.precedence table = c.precedence table := by
  unfold Cursor.precedence
  rcases h.kind_cases with heq | ⟨hc, hc', -⟩
  · rw [heq]
  · rw [hc, hc']

end Beside

/-! ### Results and readers -/

/-- A result in the text and one in the other text.  A failure counts only if the items end there. -/
def Gives (S : Setting) (move : α → α) (r r' : EStateM.Result InputError Cursor α) : Prop :=
  match r with
  | .ok a c => ∃ c', r' = .ok (move a) c' ∧ S.Beside c c'
  | .error e c => S.Whole → ∃ c', r' = .error (e.move S.place) c' ∧ S.Beside c c'

/-- The one reader does in the text what the other does in the other text. -/
def Tracks (S : Setting) (move : α → α) (p p' : Parse α) : Prop :=
  ∀ c c', S.Beside c c' → S.Gives move (p c) (p' c')

/-- Reading goes on behind a result that is known. -/
theorem Gives.bind_at {move : α → α} {move' : β → β} {p p' : Parse α} {f f' : α → Parse β}
    (h : S.Gives move (p c) (p' c')) (hf : ∀ a c₁ c₁', p c = .ok a c₁ → S.Beside c₁ c₁' →
      S.Gives move' (f a c₁) (f' (move a) c₁')) :
    S.Gives move' ((p >>= f) c) ((p' >>= f') c') := by
  cases hp : p c with
  | ok a c₁ =>
    rw [hp] at h
    obtain ⟨c₁', hp', hb⟩ := h
    rw [run_bind_of_ok hp, run_bind_of_ok hp']
    exact hf a c₁ c₁' hp hb
  | error e c₁ =>
    rw [hp] at h
    rw [run_bind_of_error hp]
    intro hw
    obtain ⟨c₁', hp', hb⟩ := h hw
    exact ⟨c₁', run_bind_of_error hp', hb⟩

theorem Gives.bind {move : α → α} {move' : β → β} {p p' : Parse α} {f f' : α → Parse β}
    (h : S.Gives move (p c) (p' c')) (hf : ∀ a, S.Tracks move' (f a) (f' (move a))) :
    S.Gives move' ((p >>= f) c) ((p' >>= f') c') :=
  h.bind_at fun a c₁ c₁' _ hb => hf a c₁ c₁' hb

/-- Moving past a token. -/
theorem Beside.advance (h : S.Beside c c') (hk : c.current.kind ≠ .eof) :
    S.Gives id (Parse.advance c) (Parse.advance c') := by
  cases h with
  | ended => exact absurd S.final_kind hk
  | @within t ahead _ hahead =>
    cases ahead with
    | nil =>
      refine ⟨S.ending, ?_, .ended⟩
      unfold inside behind ending
      cases S.seam? <;> rfl
    | cons item ahead =>
      have hahead' : ∀ u, .ok u ∈ ahead → u.kind ≠ .eof :=
        fun u hu => hahead u (List.mem_cons_of_mem _ hu)
      cases item with
      | ok u => exact ⟨_, rfl, .within (hahead u List.mem_cons_self) hahead'⟩
      | error e => exact fun _ => ⟨_, rfl, .within hk hahead'⟩

namespace Tracks

theorem pure {move : α → α} {a b : α} (h : b = move a) :
    S.Tracks move (Pure.pure a) (Pure.pure b) := by
  intro c c' hb
  exact ⟨c', by rw [h]; rfl, hb⟩

theorem bind {move : α → α} {move' : β → β} {p p' : Parse α} {f f' : α → Parse β}
    (h : S.Tracks move p p') (hf : ∀ a, S.Tracks move' (f a) (f' (move a))) :
    S.Tracks move' (p >>= f) (p' >>= f') :=
  fun c c' hb => (h c c' hb).bind hf

theorem get_bind {move : α → α} {f f' : Cursor → Parse α}
    (h : ∀ c c', S.Beside c c' → S.Gives move (f c c) (f' c' c')) :
    S.Tracks move (get >>= f) (get >>= f') := h

theorem expected {move : α → α} {what : String} :
    S.Tracks move (Parse.expected what) (Parse.expected what) := by
  intro c c' hb hw
  refine ⟨c', ?_, hb⟩
  rw [Parse.expected, Cursor.expected, hb.current_eq (.inr hw)]
  rfl

theorem throw {move : α → α} {e e' : InputError} (h : e' = e.move S.place) :
    S.Tracks move (MonadExcept.throw e) (MonadExcept.throw e') := by
  intro c c' hb _
  exact ⟨c', by rw [h]; rfl, hb⟩

theorem check {result result' : Except TypeError α} (h : result' = moveError S.place result) :
    S.Tracks id (Parse.check result) (Parse.check result') := by
  subst h
  cases result with
  | ok a => exact Tracks.pure rfl
  | error e => exact Tracks.throw rfl

theorem expect {kind : Kind} {what : String} (hk : kind ≠ .eof)
    (hkind : (Kind.char ';').same kind = Kind.eof.same kind) (hlit : kind.literal? = none) :
    S.Tracks S.place (Parse.expect kind what) (Parse.expect kind what) := by
  refine Tracks.get_bind fun c c' hb => ?_
  rw [hb.at?_eq hkind]
  by_cases hat : c.at? kind = true
  · have hkind : c.current.kind ≠ .eof := by
      rw [(Kind.same_eq_true_iff hlit).1 hat]
      exact hk
    rw [if_pos hat, if_pos hat, hb.current_eq (.inl hkind)]
    exact (hb.advance hkind).bind fun _ => Tracks.pure rfl
  · rw [if_neg hat, if_neg hat]
    exact Tracks.expected c c' hb

theorem expectChar {ch : Char} (hch : ch ≠ ';') :
    S.Tracks S.place (Parse.expectChar ch) (Parse.expectChar ch) := by
  refine Tracks.expect (by simp) ?_ rfl
  simpa [Kind.same] using hch.symm

/-- Readers that start with a type or a word look at the place of their first token; it counts only if
there is one. -/
theorem start_bind {move : α → α} {f : Span → Parse α}
    (h : ∀ span, S.Tracks move (f span) (f (S.place span)))
    (hend : ∀ c span, c.current.kind = .eof → ∃ e c₁, f span c = .error e c₁) :
    S.Tracks move (get >>= fun c => f c.current.span) (get >>= fun c => f c.current.span) := by
  refine Tracks.get_bind fun c c' hb => ?_
  by_cases hk : c.current.kind ≠ .eof ∨ S.Whole
  · rw [hb.current_eq hk]
    exact h c.current.span c c' hb
  · obtain ⟨hk, hw⟩ := not_or.1 hk
    obtain ⟨e, c₁, herror⟩ := hend c c.current.span (not_not.1 hk)
    rw [herror]
    exact fun hwhole => absurd hwhole hw

end Tracks

end Setting

/-! ### Reading expressions -/

namespace Expr.Reader

open Parse Setting

variable {S : Setting} {table : PrecedenceTable} {ctx : Context} {c c' : Cursor}
  {whole whole' : Parse Expr} {arguments arguments' : Parse (List Expr)}
  {operand operand' : Parse Expr} {fold fold' : Int → Expr → Parse Expr}

/-- Where nothing can be read. -/
theorem unexpected_gives (hb : S.Beside c c') :
    S.Gives (Expr.move S.place) (unexpected c.current c) (unexpected c'.current c') := by
  intro hw
  refine ⟨c', ?_, hb⟩
  rw [hb.current_eq (.inr hw)]
  rfl

theorem callOf_gives {name : String} {start : Span}
    (ha : S.Tracks (Expr.moveAll S.place) arguments arguments') (hb : S.Beside c c')
    (hk : c.current.kind ≠ .eof) :
    S.Gives (Expr.move S.place) (callOf ctx name start arguments c)
      (callOf (ctx.move S.place) name (S.place start) arguments' c') := by
  have hclose : ∀ args, S.Tracks (Expr.move S.place)
      (do let close ← Parse.expectChar ')'
          let ty ← Parse.check (Typing.call ctx name args (start.through close))
          return .call name args ⟨ty, start.through close⟩)
      (do let close ← Parse.expectChar ')'
          let ty ← Parse.check (Typing.call (ctx.move S.place) name (Expr.moveAll S.place args)
            ((S.place start).through close))
          return .call name (Expr.moveAll S.place args) ⟨ty, (S.place start).through close⟩) := by
    intro args
    refine (Tracks.expectChar (by decide)).bind fun close => ?_
    rw [← S.carries]
    refine (Tracks.check (Typing.call_move ..)).bind fun ty => Tracks.pure ?_
    rw [Expr.move]
    rfl
  refine (hb.advance hk).bind fun _ => Tracks.get_bind fun c c' hb => ?_
  rw [hb.atChar?_eq (by decide)]
  split
  · have hnone : S.Tracks (Expr.moveAll S.place) (pure []) (pure []) := Tracks.pure rfl
    exact (hnone.bind hclose) c c' hb
  · exact (ha.bind hclose) c c' hb

theorem named_gives {name : String} {start : Span}
    (ha : S.Tracks (Expr.moveAll S.place) arguments arguments') (hb : S.Beside c c')
    (hk : c.current.kind ≠ .eof) :
    S.Gives (Expr.move S.place) (named ctx name start arguments c)
      (named (ctx.move S.place) name (S.place start) arguments' c') := by
  refine (hb.advance hk).bind fun _ => Tracks.get_bind fun c c' hb => ?_
  rw [hb.atChar?_eq (by decide)]
  split
  · next hopen =>
    exact callOf_gives ha hb (by simp [Cursor.atChar?_eq_true_iff.1 hopen])
  · have hvar : S.Tracks (Expr.move S.place)
        (do let ty ← Parse.check (Typing.var ctx name start)
            return .var name ⟨ty, start⟩)
        (do let ty ← Parse.check (Typing.var (ctx.move S.place) name (S.place start))
            return .var name ⟨ty, S.place start⟩) := by
      refine (Tracks.check (Typing.var_move ..)).bind fun ty => Tracks.pure ?_
      rw [Expr.move]
      rfl
    exact hvar c c' hb

theorem conditional_gives {start : Span} (hw : S.Tracks (Expr.move S.place) whole whole')
    (hb : S.Beside c c') (hk : c.current.kind ≠ .eof) :
    S.Gives (Expr.move S.place) (conditional start whole c) (conditional (S.place start) whole' c') := by
  refine (hb.advance hk).bind fun _ => ?_
  refine hw.bind fun condition => (Tracks.expect (by simp) rfl rfl).bind fun _ => ?_
  refine hw.bind fun onTrue => (Tracks.expect (by simp) rfl rfl).bind fun _ => ?_
  refine hw.bind fun onFalse => ?_
  refine (Tracks.check (Typing.conditional_move S.carries ..)).bind fun ty => Tracks.pure ?_
  rw [Expr.span_move, ← S.carries, Expr.move]
  rfl

theorem primaryOf_tracks (hw : S.Tracks (Expr.move S.place) whole whole')
    (ha : S.Tracks (Expr.moveAll S.place) arguments arguments') :
    S.Tracks (Expr.move S.place) (primaryOf ctx whole arguments)
      (primaryOf (ctx.move S.place) whole' arguments') := by
  refine Tracks.get_bind fun c c' hb => ?_
  by_cases hk : c.current.kind = .eof
  · -- neither the end nor a semicolon starts an expression
    have hleft : S.Gives (Expr.move S.place) (unexpected c.current c) (unexpected c'.current c') :=
      unexpected_gives hb
    rcases hb.kind_cases with heq | ⟨-, hsemi, -⟩
    · simp only [heq, hk, Kind.literal?]
      exact hleft
    · simp only [hsemi, hk, Kind.literal?]
      exact hleft
  have hunexpected := unexpected_gives hb
  have hcurrent := hb.current_eq (.inl hk)
  rw [hcurrent] at hunexpected
  simp only [hcurrent, Token.kind_move]
  cases hvalue : c.current.kind.literal? with
  | some value =>
    refine (hb.advance hk).bind fun _ => Tracks.pure ?_
    rw [Expr.move]
    rfl
  | none =>
    cases hkind : c.current.kind with
    | identifier name => exact named_gives ha hb hk
    | kwIf => exact conditional_gives hw hb hk
    | char ch =>
      by_cases hch : ch = '('
      · simp only [hch, if_true]
        refine (hb.advance hk).bind fun _ => hw.bind fun e => ?_
        exact (Tracks.expectChar (by decide)).bind fun _ => Tracks.pure rfl
      · simp only [hch, if_false]
        exact hunexpected
    | _ => exact hunexpected

theorem operator_tracks : S.Tracks id operator operator := by
  intro c c' hb
  unfold operator
  rcases hb.kind_cases with heq | ⟨hc, hc', hw⟩
  · rw [heq]
    cases hk : c.current.kind with
    | operator symbol =>
      have hcurrent := hb.current_eq (.inl (by simp [hk]))
      cases hop : Operator.ofSymbol? symbol with
      | some op =>
        simp only [hop]
        exact ⟨c', rfl, hb⟩
      | none =>
        simp only [hop, hcurrent]
        exact fun _ => ⟨c', rfl, hb⟩
    | _ => exact Tracks.expected c c' hb
  · rw [hc, hc']
    exact fun hwhole => absurd hwhole hw

theorem operatorsBy_tracks {raise : Int → Parse Int} (hr : ∀ p, S.Tracks id (raise p) (raise p))
    (ho : S.Tracks (Expr.move S.place) operand operand')
    (hf : ∀ least lhs, S.Tracks (Expr.move S.place) (fold least lhs) (fold' least (lhs.move S.place)))
    (least : Int) (lhs : Expr) :
    S.Tracks (Expr.move S.place) (operatorsBy table raise operand fold least lhs)
      (operatorsBy table raise operand' fold' least (lhs.move S.place)) := by
  refine Tracks.get_bind fun c c' hb => ?_
  rw [hb.precedence_eq]
  split
  · exact Tracks.pure rfl c c' hb
  · refine (operator_tracks c c' hb).bind_at fun op c₁ c₁' hop hb => ?_
    obtain ⟨hk, rfl⟩ := operator_eq_ok_iff.1 hop
    have hclose : ∀ rhs : Expr, S.Tracks (Expr.move S.place)
        (do let ty ← Parse.check (Typing.binary op lhs rhs)
            fold least (.binary op lhs rhs ⟨ty, lhs.span.through rhs.span⟩))
        (do let ty ← Parse.check (Typing.binary op (lhs.move S.place) (rhs.move S.place))
            fold' least (.binary op (lhs.move S.place) (rhs.move S.place)
              ⟨ty, (lhs.move S.place).span.through (rhs.move S.place).span⟩)) := by
      intro rhs
      refine (Tracks.check (Typing.binary_move S.carries ..)).bind fun ty => ?_
      have hbinary := hf least (.binary op lhs rhs ⟨ty, lhs.span.through rhs.span⟩)
      rw [Expr.move, Expr.Tag.move, S.carries] at hbinary
      rw [Expr.span_move, Expr.span_move]
      exact hbinary
    refine (hb.advance (by simp [hk])).bind fun _ => ho.bind fun first => ?_
    refine Tracks.get_bind fun c₂ c₂' hb₂ => ?_
    rw [hb₂.precedence_eq]
    split
    · exact ((hr _).bind fun least' => (hf least' first).bind hclose) c₂ c₂' hb₂
    · exact hclose first c₂ c₂' hb₂

theorem argumentsOf_tracks (hw : S.Tracks (Expr.move S.place) whole whole')
    (ha : S.Tracks (Expr.moveAll S.place) arguments arguments') :
    S.Tracks (Expr.moveAll S.place) (argumentsOf whole arguments) (argumentsOf whole' arguments') := by
  refine hw.bind fun arg => Tracks.get_bind fun c c' hb => ?_
  rw [hb.atChar?_eq (by decide), hb.atChar?_eq (by decide)]
  split
  · exact Tracks.pure rfl c c' hb
  · split
    · next hcomma =>
      refine (hb.advance (by simp [Cursor.atChar?_eq_true_iff.1 hcomma])).bind fun _ => ?_
      exact ha.bind fun args => Tracks.pure rfl
    · exact Tracks.expected c c' hb

/-- At the bound of the depth nothing is read. -/
theorem depth_tracks {α : Type} {move : α → α} :
    S.Tracks move (fun c => .error (.grammar (.unexpectedToken c.current.kind c.current.span)) c)
      (fun c => .error (.grammar (.unexpectedToken c.current.kind c.current.span)) c) := by
  intro c c' hb hw
  refine ⟨c', ?_, hb⟩
  show EStateM.Result.error (InputError.grammar (.unexpectedToken c'.current.kind c'.current.span)) c' = _
  rw [hb.current_eq (.inr hw)]
  rfl

/-- **All readers do in the other text what they do in the text.**  By induction on the depth of the
recursion, for the four readers at once. -/
theorem readers_track (S : Setting) (table : PrecedenceTable) (ctx : Context) (fuel : Nat) :
    S.Tracks (Expr.move S.place) (expressionFor table ctx fuel)
      (expressionFor table (ctx.move S.place) fuel) ∧
    S.Tracks (Expr.move S.place) (primaryFor table ctx fuel)
      (primaryFor table (ctx.move S.place) fuel) ∧
    (∀ least lhs, S.Tracks (Expr.move S.place) (operatorsFor table ctx fuel least lhs)
      (operatorsFor table (ctx.move S.place) fuel least (lhs.move S.place))) ∧
    S.Tracks (Expr.moveAll S.place) (argumentsFor table ctx fuel)
      (argumentsFor table (ctx.move S.place) fuel) := by
  induction fuel with
  | zero => exact ⟨depth_tracks, depth_tracks, fun _ _ => depth_tracks, depth_tracks⟩
  | succ fuel ih =>
    obtain ⟨ihe, ihp, iho, iha⟩ := ih
    refine ⟨?_, ?_, fun least lhs => ?_, ?_⟩
    · rw [expressionFor, expressionFor]
      exact ihp.bind fun lhs => iho 0 lhs
    · rw [primaryFor_succ, primaryFor_succ]
      exact primaryOf_tracks ihe iha
    · rw [operatorsFor_succ, operatorsFor_succ]
      exact operatorsBy_tracks (fun p => Tracks.pure (a := p + 1) rfl) ihp iho least lhs
    · rw [argumentsFor_succ, argumentsFor_succ]
      exact argumentsOf_tracks ihe iha

/-- **An expression is read in the other text as it is in the text.** -/
theorem expression_tracks (S : Setting) (table : PrecedenceTable) (ctx : Context) :
    S.Tracks (Expr.move S.place) (expression table ctx) (expression table (ctx.move S.place)) := by
  intro c c' hb
  -- there may be more ahead in the other text, so the depth there is larger; it is enough here as well
  have hdepth : expressionFor table ctx c'.fuel c = expression table ctx c := by
    have hfinal : c.final.kind = .eof := hb.final_eq ▸ S.final_kind
    have hle := hb.length_le
    refine expressionFor_agree ?_ c (Cursor.below_of_final hfinal)
    unfold Cursor.fuel
    omega
  rw [← hdepth]
  exact (readers_track S table ctx c'.fuel).1 c c' hb

end Expr.Reader

/-! ### Reading units -/

namespace Program

open Parse Setting

variable {S : Setting} {c : Cursor} {n : Nat}

theorem type_of_eof {what : String} (hk : c.current.kind = .eof) :
    type what c = .error (c.expected what) c := by
  rw [type, run_get_bind, hk]
  rfl

theorem type_tracks {what : String} : S.Tracks id (type what) (type what) := by
  refine Tracks.get_bind fun c c' hb => ?_
  rcases hb.kind_cases with heq | ⟨hc, hc', hw⟩
  · rw [heq]
    cases hk : c.current.kind with
    | kwInt => exact (hb.advance (by simp [hk])).bind fun _ => Tracks.pure rfl
    | kwDouble => exact (hb.advance (by simp [hk])).bind fun _ => Tracks.pure rfl
    | _ => exact Tracks.expected c c' hb
  · rw [hc]
    exact fun hwhole => absurd hwhole hw

theorem name_tracks {what : String} :
    S.Tracks (Prod.map id S.place) (name what) (name what) := by
  refine Tracks.get_bind fun c c' hb => ?_
  rcases hb.kind_cases with heq | ⟨hc, hc', hw⟩
  · rw [heq]
    cases hk : c.current.kind with
    | identifier word =>
      have hkind : c.current.kind ≠ .eof := by simp [hk]
      simp only [hb.current_eq (.inl hkind)]
      exact (hb.advance hkind).bind fun _ => Tracks.pure rfl
    | _ => exact Tracks.expected c c' hb
  · rw [hc]
    exact fun hwhole => absurd hwhole hw

theorem parameter_tracks : S.Tracks (Param.move S.place) parameter parameter := by
  refine Tracks.start_bind (f := fun start => do
    let ty ← type "parameter type ('int' or 'double')"
    let r ← name "parameter name"
    return (⟨r.1, ty, start.through r.2⟩ : Param)) (fun start => ?_) fun c start hk => ?_
  · refine type_tracks.bind fun ty => name_tracks.bind fun r => Tracks.pure ?_
    show (⟨r.1, ty, (S.place start).through (S.place r.2)⟩ : Param) = _
    rw [← S.carries]
    rfl
  · exact ⟨_, _, run_bind_of_error (type_of_eof hk)⟩

theorem parametersFor_tracks (n : Nat) :
    S.Tracks (List.map (Param.move S.place)) (parametersFor n) (parametersFor n) := by
  induction n with
  | zero => exact Tracks.pure rfl
  | succ n ih =>
    refine parameter_tracks.bind fun p => Tracks.get_bind fun c c' hb => ?_
    rw [hb.atChar?_eq (by decide)]
    split
    · next hcomma =>
      refine (hb.advance (by simp [Cursor.atChar?_eq_true_iff.1 hcomma])).bind fun _ => ?_
      exact ih.bind fun params => Tracks.pure rfl
    · exact Tracks.pure rfl c c' hb

/-- A parameter moves past the token that it starts with, at least. -/
theorem below_of_parameter_ok {c' : Cursor} {p : Param} (h : parameter c = .ok p c')
    (hc : c.Below (n + 1)) : c'.Below n := by
  obtain ⟨ty, c₁, hty, h⟩ := run_bind_eq_ok_iff.1 (run_get_bind.symm.trans h)
  have hc₁ : c₁.Below n := by
    rw [type, run_get_bind] at hty
    cases hk : c.current.kind with
    | kwInt | kwDouble =>
      rw [hk] at hty
      obtain ⟨_, c₂, hadv, hty⟩ := run_bind_eq_ok_iff.1 hty
      obtain ⟨-, rfl⟩ := run_pure_eq_ok_iff.1 hty
      exact hc.of_advance (by simp [hk]) hadv
    | _ =>
      rw [hk] at hty
      cases hty
  obtain ⟨kinds, hkinds⟩ := (name_moves.bind fun r => Moves.pure) c₁ p c' h
  exact hkinds.keeps_below hc₁

theorem parametersFor_keeps (fuel : Nat) : Keeps n (parametersFor fuel) := by
  intro c params c' hc h
  obtain ⟨kinds, hkinds⟩ := parametersFor_moves fuel c params c' h
  exact hkinds.keeps_below hc

/-- One more step of reading parameters changes nothing where little enough is left. -/
theorem parametersFor_agree (fuel : Nat) :
    ∀ n, n ≤ fuel + 2 → Agree n (parametersFor (fuel + 2)) (parametersFor (fuel + 1)) := by
  have hunfold : ∀ k, parametersFor (k + 1) = (do
      let param ← parameter
      if (← get).atChar? ',' then do
        Parse.advance
        let params ← parametersFor k
        return param :: params
      else return [param]) := fun k => rfl
  -- behind a parameter and a comma there are two items less
  have hstep : ∀ fuel n, (∀ k, k ≤ fuel → Agree k (parametersFor (fuel + 1)) (parametersFor fuel)) →
      n ≤ fuel + 2 → Agree n (parametersFor (fuel + 2)) (parametersFor (fuel + 1)) := by
    intro fuel n hrec hn c hc
    rw [hunfold (fuel + 1), hunfold fuel]
    refine bind_congr_at rfl fun p c₁ hp => ?_
    rw [run_get_bind, run_get_bind]
    split
    · next hcomma =>
      obtain ⟨k, rfl⟩ : ∃ k, n = k + 1 := ⟨n - 1, by have := hc.lt; omega⟩
      have hc₁ := below_of_parameter_ok hp hc
      obtain ⟨k, rfl⟩ : ∃ k', k = k' + 1 := ⟨k - 1, by have := hc₁.lt; omega⟩
      refine Agree.advance_bind ?_ hc₁ (by simp [Cursor.atChar?_eq_true_iff.1 hcomma])
      exact (hrec k (by omega)).bind (parametersFor_keeps fuel) fun _ => Agree.refl _
    · rfl
  induction fuel with
  | zero =>
    refine fun n => hstep 0 n fun k hk => ?_
    obtain rfl : k = 0 := by omega
    exact Agree.zero
  | succ fuel ih => exact fun n => hstep (fuel + 1) n fun k hk => ih k (by omega)

theorem parameters_tracks : S.Tracks (List.map (Param.move S.place)) parameters parameters := by
  intro c c' hb
  -- there may be more ahead in the other text, and it is enough here as well
  have hfinal : c.final.kind = .eof := hb.final_eq ▸ S.final_kind
  have henough : ∀ k, c.ahead.length ≤ k →
      parametersFor (k + 1) c = parametersFor (c.ahead.length + 1) c := by
    intro k hk
    induction hk with
    | refl => rfl
    | @step k hk ih =>
      have hk : c.ahead.length ≤ k := hk
      exact (parametersFor_agree k _ (by omega) c (Cursor.below_of_final hfinal)).trans ih
  have hparameters : parameters c = parametersFor (c'.ahead.length + 1) c :=
    (henough c'.ahead.length hb.length_le).symm
  rw [hparameters]
  exact parametersFor_tracks (c'.ahead.length + 1) c c' hb

theorem prototype_tracks : S.Tracks (Prototype.move S.place) prototype prototype := by
  refine Tracks.start_bind (f := fun start => do
    let ret ← type "return type ('int' or 'double')"
    let r ← name "function name in prototype"
    let _ ← Parse.expectChar '('
    let params ← if (← get).atChar? ')' then pure [] else parameters
    let close ← Parse.expectChar ')'
    return (⟨r.1, params, ret, start.through close⟩ : Prototype)) (fun start => ?_) fun c start hk => ?_
  · refine type_tracks.bind fun ret => name_tracks.bind fun r => ?_
    refine (Tracks.expectChar (by decide)).bind fun _ => Tracks.get_bind fun c c' hb => ?_
    have hclose : ∀ params : List Param, S.Tracks (Prototype.move S.place)
        (do let close ← Parse.expectChar ')'
            return (⟨r.1, params, ret, start.through close⟩ : Prototype))
        (do let close ← Parse.expectChar ')'
            return (⟨r.1, params.map (Param.move S.place), ret, (S.place start).through close⟩ :
              Prototype)) := by
      intro params
      refine (Tracks.expectChar (by decide)).bind fun close => Tracks.pure ?_
      rw [← S.carries]
      rfl
    rw [hb.atChar?_eq (by decide)]
    split
    · have hnone : S.Tracks (List.map (Param.move S.place)) (pure []) (pure []) := Tracks.pure rfl
      exact (hnone.bind hclose) c c' hb
    · exact (parameters_tracks.bind hclose) c c' hb
  · exact ⟨_, _, run_bind_of_error (type_of_eof hk)⟩

/-- **A definition is read in the other text as it is in the text.** -/
theorem definition_tracks (S : Setting) (table : PrecedenceTable) (sigs : Signatures) :
    S.Tracks (Definition.move S.place) (definition table sigs) (definition table sigs) := by
  refine (Tracks.expect (by simp) rfl rfl).bind fun _ => prototype_tracks.bind fun proto => ?_
  refine (Tracks.check (Scope.ofPrototype_move proto)).bind fun scope => ?_
  refine (Expr.Reader.expression_tracks S table ⟨sigs, scope, some proto⟩).bind fun body => ?_
  exact (Tracks.check (Typing.definition_move ..)).bind fun _ => Tracks.pure rfl

/-- **So is an expression on its own.** -/
theorem topLevel_tracks (S : Setting) (table : PrecedenceTable) (sigs : Signatures) :
    S.Tracks (Definition.move S.place) (topLevel table sigs) (topLevel table sigs) := by
  refine (Expr.Reader.expression_tracks S table ⟨sigs, {}, none⟩).bind fun body => ?_
  have hproto : Prototype.anonymous (body.move S.place).span =
      (Prototype.anonymous body.span).move S.place := by
    rw [Expr.span_move]
    rfl
  rw [hproto]
  exact (Tracks.check (Typing.definition_move ..)).bind fun _ => Tracks.pure rfl

end Program

end ScalarLang
