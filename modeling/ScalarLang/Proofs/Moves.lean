import ScalarLang.Proofs.Concrete
import ScalarLang.Proofs.Reading

/-!
# Moving over tokens

Reading that succeeds moves over tokens one by one.  Every reader of expressions is one step that looks
at a token or two and hands over to other readers; the lemmas here say for each step exactly when it
succeeds, and with what.

* `Cursor.Takes`, `Cursor.Consumes` — moving over a token of a kind, and over several.
* `Parse.expect_eq_ok_iff` and the lemmas beside it — the readers that everything is built from.
* `Expr.Reader.primaryOf`, `Expr.Reader.operatorsBy`, `Expr.Reader.argumentsOf` — the steps, apart from
  the readers they hand over to.
* `Expr.Reader.primaryOf_eq_ok_iff`, `Expr.Reader.operatorsBy_eq_ok_iff`,
  `Expr.Reader.argumentsOf_eq_ok_iff` — when they succeed.
-/

namespace ScalarLang

open Token (Kind)

/-! ### Tokens -/

theorem Operator.ofSymbol?_eq_some_iff {symbol : String} {op : Operator} :
    ofSymbol? symbol = some op ↔ op.symbol = symbol := by
  constructor
  · intro h
    unfold ofSymbol? at h
    have hop := List.find?_some h
    exact eq_of_beq hop
  · rintro rfl
    cases op <;> decide

theorem Token.Kind.literal?_eq_some_iff {kind : Kind} {value : Literal.Value} :
    kind.literal? = some value ↔ kind = value.kind := by
  cases kind <;> cases value <;> simp [literal?, Literal.Value.kind]

/-- Only literals are compared in a way of their own. -/
theorem Token.Kind.same_eq_true_iff {a b : Kind} (h : b.literal? = none) :
    a.same b = true ↔ a = b := by
  unfold same
  split
  · cases h
  · exact beq_iff_eq

theorem PrecedenceTable.pos_of_precedence? {table : PrecedenceTable} {symbol : String} {p : Int}
    (h : table.precedence? symbol = some p) : 0 < p := by
  rw [precedence?, Option.filter_eq_some_iff] at h
  exact of_decide_eq_true h.2

namespace Cursor

variable {c c' c₁ : Cursor} {kind : Kind} {kinds kinds' : List Kind} {table : PrecedenceTable}

theorem atChar?_eq_true_iff {ch : Char} : c.atChar? ch = true ↔ c.current.kind = .char ch :=
  beq_iff_eq

theorem precedence_of_operator {op : Operator} (h : c.current.kind = .operator op.symbol) :
    c.precedence table = table.strength op := by
  rw [precedence, h]
  rfl

/-- A token either binds as the table says, or does not bind. -/
theorem precedence_cases (c : Cursor) (table : PrecedenceTable) :
    (c.precedence table = -1 ∧
      ∀ symbol, c.current.kind = .operator symbol → table.precedence? symbol = none) ∨
    ∃ symbol, c.current.kind = .operator symbol ∧
      table.precedence? symbol = some (c.precedence table) := by
  unfold precedence
  split
  · next symbol hk =>
    rw [hk]
    cases hp : table.precedence? symbol with
    | none =>
      refine .inl ⟨rfl, fun s hs => ?_⟩
      cases hs
      exact hp
    | some p => exact .inr ⟨symbol, rfl, hp⟩
  · next hk => exact .inl ⟨rfl, fun s hs => absurd hs (hk s)⟩

/-- Only an operator of positive precedence binds. -/
theorem precedence_neg_iff :
    c.precedence table < 0 ↔
      ∀ symbol, c.current.kind = .operator symbol → table.precedence? symbol = none := by
  obtain ⟨hneg, hnone⟩ | ⟨symbol, hk, hp⟩ := precedence_cases c table
  · exact ⟨fun _ => hnone, fun _ => by omega⟩
  · have hpos := PrecedenceTable.pos_of_precedence? hp
    refine ⟨fun h => by omega, fun h => ?_⟩
    rw [h symbol hk] at hp
    cases hp

theorem precedence_neg_of_ne (h : ∀ symbol, c.current.kind ≠ .operator symbol) :
    c.precedence table < 0 :=
  precedence_neg_iff.2 fun symbol hs => absurd hs (h symbol)

theorem precedence_neg_of_char {ch : Char} (h : c.current.kind = .char ch) : c.precedence table < 0 :=
  precedence_neg_of_ne (by simp [h])

/-- What binds at all binds with a positive precedence. -/
theorem precedence_pos (h : 0 ≤ c.precedence table) : 0 < c.precedence table := by
  obtain ⟨hneg, -⟩ | ⟨symbol, -, hp⟩ := precedence_cases c table
  · omega
  · exact PrecedenceTable.pos_of_precedence? hp

/-- A precedence above another one is a number of the table. -/
theorem precedence_le_of_lt {c₁ : Cursor} {greatest : Int}
    (h : ∀ entry ∈ table.entries, entry.2 ≤ greatest)
    (hlt : c.precedence table < c₁.precedence table) : c₁.precedence table ≤ greatest := by
  obtain ⟨hneg, -⟩ | ⟨symbol, -, hp⟩ := precedence_cases c₁ table
  · obtain ⟨hneg', -⟩ | ⟨symbol', -, hp'⟩ := precedence_cases c table
    · omega
    · have := PrecedenceTable.pos_of_precedence? hp'
      omega
  · rw [PrecedenceTable.precedence?, Option.filter_eq_some_iff, List.lookup_eq_some_iff] at hp
    obtain ⟨⟨_, _, hentries, -⟩, -⟩ := hp
    exact h (symbol, c₁.precedence table) (by simp [hentries])

/-! ### Moving -/

/-- The token being looked at is of the given kind, and moving past it leads to `c'`. -/
structure Takes (c : Cursor) (kind : Kind) (c' : Cursor) : Prop where
  kind : c.current.kind = kind
  advance : Parse.advance c = .ok () c'

theorem final_of_advance (h : Parse.advance c = .ok () c') : c'.final = c.final := by
  unfold Parse.advance at h
  split at h <;> cases h <;> rfl

/-- Moving past tokens of the given kinds leads from one cursor to the other. -/
inductive Consumes : Cursor → List Kind → Cursor → Prop
  | nil {c : Cursor} : Consumes c [] c
  | cons {c c₁ c' : Cursor} {kind : Kind} {kinds : List Kind} (h : c.Takes kind c₁)
      (hs : Consumes c₁ kinds c') : Consumes c (kind :: kinds) c'

namespace Consumes

theorem append (h : c.Consumes kinds c₁) (h' : c₁.Consumes kinds' c') :
    c.Consumes (kinds ++ kinds') c' := by
  induction h with
  | nil => exact h'
  | cons h _ ih => exact .cons h (ih h')

theorem snoc (h : c.Consumes kinds c₁) (h' : c₁.Takes kind c') :
    c.Consumes (kinds ++ [kind]) c' :=
  h.append (.cons h' .nil)

theorem of_append (h : c.Consumes (kinds ++ kinds') c') :
    ∃ c₁, c.Consumes kinds c₁ ∧ c₁.Consumes kinds' c' := by
  induction kinds generalizing c with
  | nil => exact ⟨c, .nil, h⟩
  | cons kind kinds ih =>
    cases h with
    | cons hk hs =>
      obtain ⟨c₁, h₁, h₂⟩ := ih hs
      exact ⟨c₁, .cons hk h₁, h₂⟩

theorem of_cons (h : c.Consumes (kind :: kinds) c') :
    ∃ c₁, c.Takes kind c₁ ∧ c₁.Consumes kinds c' := by
  cases h with
  | cons hk hs => exact ⟨_, hk, hs⟩

theorem of_singleton (h : c.Consumes [kind] c') : c.Takes kind c' := by
  obtain ⟨c₁, hk, hs⟩ := h.of_cons
  cases hs
  exact hk

theorem final_eq (h : c.Consumes kinds c') : c'.final = c.final := by
  induction h with
  | nil => rfl
  | cons h _ ih => exact ih.trans (final_of_advance h.advance)

end Consumes

end Cursor

/-! ### The parts of readers -/

namespace Parse

variable {c c' : Cursor}

theorem expect_eq_ok_iff {kind : Kind} {what : String} {span : Span} (hk : kind.literal? = none) :
    expect kind what c = .ok span c' ↔ span = c.current.span ∧ c.Takes kind c' := by
  unfold expect
  rw [run_bind_eq_ok_iff]
  constructor
  · rintro ⟨_, _, hget, h⟩
    obtain ⟨rfl, rfl⟩ := run_get_eq_ok_iff.1 hget
    split at h
    · next hat =>
      obtain ⟨_, c₁, hadv, hpure⟩ := run_bind_eq_ok_iff.1 h
      obtain ⟨rfl, rfl⟩ := run_pure_eq_ok_iff.1 hpure
      exact ⟨rfl, (Kind.same_eq_true_iff hk).1 hat, hadv⟩
    · cases h
  · rintro ⟨rfl, hkind, hadv⟩
    refine ⟨c, c, rfl, ?_⟩
    rw [if_pos (show c.at? kind = true from (Kind.same_eq_true_iff hk).2 hkind)]
    exact run_bind_eq_ok_iff.2 ⟨(), c', hadv, rfl⟩

/-- Reading that goes on alike behind two readers goes on behind the choice between them. -/
theorem ite_bind {α β : Type} {b : Prop} [Decidable b] {p q : Parse α} {f : α → Parse β} :
    (if b then p else q) >>= f = if b then p >>= f else q >>= f := by
  split <;> rfl

theorem expectChar_eq_ok_iff {ch : Char} {span : Span} :
    expectChar ch c = .ok span c' ↔ span = c.current.span ∧ c.Takes (.char ch) c' :=
  expect_eq_ok_iff rfl

theorem check_eq_ok_iff {α : Type} {result : Except TypeError α} {a : α} :
    check result c = .ok a c' ↔ result = .ok a ∧ c = c' := by
  cases result with
  | ok b =>
    rw [Except.ok.injEq]
    exact run_pure_eq_ok_iff
  | error e =>
    refine ⟨fun h => absurd h run_throw_ne_ok, fun h => ?_⟩
    cases h.1

end Parse

/-! ### The steps of reading expressions -/

namespace Expr.Reader

open Parse

variable {table : PrecedenceTable} {ctx : Context} {c c' : Cursor}

theorem operator_eq_ok_iff {op : Operator} :
    operator c = .ok op c' ↔ c.current.kind = .operator op.symbol ∧ c = c' := by
  unfold operator
  split
  · next symbol hk =>
    rw [hk, Kind.operator.injEq]
    split
    · next op' hop =>
      rw [Operator.ofSymbol?_eq_some_iff] at hop
      rw [EStateM.Result.ok.injEq]
      refine and_congr_left fun _ => ⟨fun h => by rw [← hop, h], fun h => ?_⟩
      have hs : Operator.ofSymbol? op.symbol = some op' :=
        Operator.ofSymbol?_eq_some_iff.2 (hop.trans h)
      rw [Operator.ofSymbol?_eq_some_iff.2 rfl] at hs
      exact (Option.some.inj hs).symm
    · next hop =>
      refine ⟨fun h => (nomatch h), fun h => ?_⟩
      rw [Operator.ofSymbol?_eq_some_iff.2 h.1.symm] at hop
      cases hop
  · next hk => exact ⟨fun h => (nomatch h), fun h => absurd h.1 (hk _)⟩

/-- A primary, given how an expression and arguments are read. -/
def primaryOf (ctx : Context) (whole : Parse Expr) (arguments : Parse (List Expr)) : Parse Expr := do
  let start := (← get).current
  match start.kind.literal? with
  | some value => literal value start.span
  | none =>
    match start.kind with
    | .identifier name => named ctx name start.span arguments
    | .kwIf => conditional start.span whole
    | .char c => if c = '(' then parenthesised whole else unexpected start
    | _ => unexpected start

/-- The operators behind `lhs`, given how an operand is read, how folding goes on and how a precedence
is raised by one. -/
def operatorsBy (table : PrecedenceTable) (raise : Int → Parse Int) (operand : Parse Expr)
    (fold : Int → Expr → Parse Expr) (least : Int) (lhs : Expr) : Parse Expr := do
  let strength := (← get).precedence table
  if strength < least then return lhs
  else do
    let op ← operator
    Parse.advance
    let first ← operand
    let rhs ←
      if strength < (← get).precedence table then do
        let least' ← raise strength
        fold least' first
      else pure first
    let ty ← Parse.check (Typing.binary op lhs rhs)
    fold least (.binary op lhs rhs ⟨ty, lhs.span.through rhs.span⟩)

/-- Arguments, given how one is read and how reading goes on behind a comma. -/
def argumentsOf (whole : Parse Expr) (arguments : Parse (List Expr)) : Parse (List Expr) := do
  let arg ← whole
  let c ← get
  if c.atChar? ')' then return [arg]
  else if c.atChar? ',' then do
    Parse.advance
    let args ← arguments
    return arg :: args
  else Parse.expected "')' or ',' in argument list"

theorem primaryFor_succ (fuel : Nat) :
    primaryFor table ctx (fuel + 1) =
      primaryOf ctx (expressionFor table ctx fuel) (argumentsFor table ctx fuel) := by
  rw [primaryFor]
  rfl

theorem operatorsFor_succ (fuel : Nat) (least : Int) (lhs : Expr) :
    operatorsFor table ctx (fuel + 1) least lhs =
      operatorsBy table (fun p => pure (p + 1)) (primaryFor table ctx fuel)
        (operatorsFor table ctx fuel) least lhs := by
  rw [operatorsFor]
  rfl

theorem argumentsFor_succ (fuel : Nat) :
    argumentsFor table ctx (fuel + 1) =
      argumentsOf (expressionFor table ctx fuel) (argumentsFor table ctx fuel) := by
  rw [argumentsFor]
  rfl

/-- What a primary can be read as, given how an expression and arguments are read. -/
inductive ReadsPrimary (ctx : Context) (whole : Parse Expr) (arguments : Parse (List Expr))
    (c : Cursor) : Expr → Cursor → Prop
  | literal {value : Literal.Value} {c' : Cursor} (h : c.Takes value.kind c') :
      ReadsPrimary ctx whole arguments c
        (.literal value ⟨Typing.literal value, c.current.span⟩) c'
  | var {name : String} {ty : NumType} {c' : Cursor} (h : c.Takes (.identifier name) c')
      (hnext : c'.current.kind ≠ .char '(')
      (hty : Typing.var ctx name c.current.span = .ok ty) :
      ReadsPrimary ctx whole arguments c (.var name ⟨ty, c.current.span⟩) c'
  | call {name : String} {args : List Expr} {ty : NumType} {c₁ c₂ c₃ c' : Cursor}
      (h : c.Takes (.identifier name) c₁) (hopen : c₁.Takes (.char '(') c₂)
      (hargs : if c₂.current.kind = .char ')' then args = [] ∧ c₃ = c₂
        else arguments c₂ = .ok args c₃)
      (hclose : c₃.Takes (.char ')') c')
      (hty : Typing.call ctx name args (c.current.span.through c₃.current.span) = .ok ty) :
      ReadsPrimary ctx whole arguments c
        (.call name args ⟨ty, c.current.span.through c₃.current.span⟩) c'
  | paren {e : Expr} {c₁ c₂ c' : Cursor} (hopen : c.Takes (.char '(') c₁)
      (h : whole c₁ = .ok e c₂) (hclose : c₂.Takes (.char ')') c') :
      ReadsPrimary ctx whole arguments c e c'
  | conditional {condition onTrue onFalse : Expr} {ty : NumType} {c₁ c₂ c₃ c₄ c₅ c' : Cursor}
      (hif : c.Takes .kwIf c₁) (hc : whole c₁ = .ok condition c₂) (hthen : c₂.Takes .kwThen c₃)
      (ht : whole c₃ = .ok onTrue c₄) (helse : c₄.Takes .kwElse c₅)
      (hf : whole c₅ = .ok onFalse c') (hty : Typing.conditional onTrue onFalse = .ok ty) :
      ReadsPrimary ctx whole arguments c
        (.conditional condition onTrue onFalse ⟨ty, c.current.span.through onFalse.span⟩) c'

theorem literal_eq_ok_iff {value : Literal.Value} {span : Span} {e : Expr} :
    literal value span c = .ok e c' ↔
      advance c = .ok () c' ∧ e = .literal value ⟨Typing.literal value, span⟩ := by
  simp only [literal, run_bind_eq_ok_iff, run_pure_eq_ok_iff]
  constructor
  · rintro ⟨_, _, hadv, rfl, rfl⟩
    exact ⟨hadv, rfl⟩
  · rintro ⟨hadv, rfl⟩
    exact ⟨(), c', hadv, rfl, rfl⟩

theorem parenthesised_eq_ok_iff {inner : Parse Expr} {e : Expr} :
    parenthesised inner c = .ok e c' ↔ ∃ c₁ c₂, advance c = .ok () c₁ ∧ inner c₁ = .ok e c₂ ∧
      c₂.Takes (.char ')') c' := by
  simp only [parenthesised, run_bind_eq_ok_iff, run_pure_eq_ok_iff, expectChar_eq_ok_iff]
  constructor
  · rintro ⟨_, c₁, hadv, _, c₂, he, _, _, ⟨-, hclose⟩, rfl, rfl⟩
    exact ⟨c₁, c₂, hadv, he, hclose⟩
  · rintro ⟨c₁, c₂, hadv, he, hclose⟩
    exact ⟨(), c₁, hadv, e, c₂, he, _, c', ⟨rfl, hclose⟩, rfl, rfl⟩

theorem conditional_eq_ok_iff {start : Span} {part : Parse Expr} {e : Expr} :
    conditional start part c = .ok e c' ↔ ∃ condition onTrue onFalse ty c₁ c₂ c₃ c₄ c₅,
      advance c = .ok () c₁ ∧ part c₁ = .ok condition c₂ ∧ c₂.Takes .kwThen c₃ ∧
      part c₃ = .ok onTrue c₄ ∧ c₄.Takes .kwElse c₅ ∧ part c₅ = .ok onFalse c' ∧
      Typing.conditional onTrue onFalse = .ok ty ∧
      e = .conditional condition onTrue onFalse ⟨ty, start.through onFalse.span⟩ := by
  have hthen : Kind.kwThen.literal? = none := rfl
  have helse : Kind.kwElse.literal? = none := rfl
  simp only [conditional, run_bind_eq_ok_iff, run_pure_eq_ok_iff, expect_eq_ok_iff hthen,
    expect_eq_ok_iff helse, check_eq_ok_iff]
  constructor
  · rintro ⟨_, c₁, hadv, condition, c₂, hc, _, c₃, ⟨-, hthen⟩, onTrue, c₄, ht, _, c₅, ⟨-, helse⟩,
      onFalse, _, hf, ty, _, ⟨hty, rfl⟩, rfl, rfl⟩
    exact ⟨condition, onTrue, onFalse, ty, c₁, c₂, c₃, c₄, c₅, hadv, hc, hthen, ht, helse, hf, hty, rfl⟩
  · rintro ⟨condition, onTrue, onFalse, ty, c₁, c₂, c₃, c₄, c₅, hadv, hc, hthen, ht, helse, hf, hty, rfl⟩
    exact ⟨(), c₁, hadv, condition, c₂, hc, _, c₃, ⟨rfl, hthen⟩, onTrue, c₄, ht, _, c₅, ⟨rfl, helse⟩,
      onFalse, c', hf, ty, c', ⟨hty, rfl⟩, rfl, rfl⟩

theorem callOf_eq_ok_iff {name : String} {start : Span} {arguments : Parse (List Expr)} {e : Expr} :
    callOf ctx name start arguments c = .ok e c' ↔ ∃ c₁ args c₂ ty, advance c = .ok () c₁ ∧
      (if c₁.current.kind = .char ')' then args = [] ∧ c₂ = c₁ else arguments c₁ = .ok args c₂) ∧
      c₂.Takes (.char ')') c' ∧
      Typing.call ctx name args (start.through c₂.current.span) = .ok ty ∧
      e = .call name args ⟨ty, start.through c₂.current.span⟩ := by
  -- there may be no arguments
  have hargs : ∀ c₁ args c₂, (if c₁.atChar? ')' then pure [] else arguments) c₁ = .ok args c₂ ↔
      if c₁.current.kind = .char ')' then args = [] ∧ c₂ = c₁ else arguments c₁ = .ok args c₂ := by
    intro c₁ args c₂
    simp only [Cursor.atChar?_eq_true_iff]
    split
    · rw [run_pure_eq_ok_iff, eq_comm, @eq_comm _ c₁]
    · rfl
  simp only [callOf, run_bind_eq_ok_iff, run_get_eq_ok_iff, ← ite_bind, run_pure_eq_ok_iff,
    expectChar_eq_ok_iff, check_eq_ok_iff]
  constructor
  · rintro ⟨_, c₁, hadv, _, _, ⟨rfl, rfl⟩, args, c₂, hread, _, _, ⟨rfl, hclose⟩, ty, _, ⟨hty, rfl⟩, rfl,
      rfl⟩
    exact ⟨c₁, args, c₂, ty, hadv, (hargs c₁ args c₂).1 hread, hclose, hty, rfl⟩
  · rintro ⟨c₁, args, c₂, ty, hadv, hread, hclose, hty, rfl⟩
    exact ⟨(), c₁, hadv, c₁, c₁, ⟨rfl, rfl⟩, args, c₂, (hargs c₁ args c₂).2 hread, _, c', ⟨rfl, hclose⟩,
      ty, c', ⟨hty, rfl⟩, rfl, rfl⟩

theorem named_eq_ok_iff {name : String} {start : Span} {arguments : Parse (List Expr)} {e : Expr} :
    named ctx name start arguments c = .ok e c' ↔ ∃ c₁, advance c = .ok () c₁ ∧
      if c₁.current.kind = .char '(' then callOf ctx name start arguments c₁ = .ok e c'
      else ∃ ty, Typing.var ctx name start = .ok ty ∧ e = .var name ⟨ty, start⟩ ∧ c₁ = c' := by
  simp only [named, run_bind_eq_ok_iff, run_get_eq_ok_iff]
  constructor
  · rintro ⟨_, c₁, hadv, _, _, ⟨rfl, rfl⟩, h⟩
    refine ⟨c₁, hadv, ?_⟩
    split at h
    · next hat => rwa [if_pos (Cursor.atChar?_eq_true_iff.1 hat)]
    · next hat =>
      rw [if_neg (mt Cursor.atChar?_eq_true_iff.2 hat)]
      simp only [run_bind_eq_ok_iff, run_pure_eq_ok_iff, check_eq_ok_iff] at h
      obtain ⟨ty, _, ⟨hty, rfl⟩, rfl, rfl⟩ := h
      exact ⟨ty, hty, rfl, rfl⟩
  · rintro ⟨c₁, hadv, h⟩
    refine ⟨(), c₁, hadv, c₁, c₁, ⟨rfl, rfl⟩, ?_⟩
    split at h
    · next hat => rwa [if_pos (Cursor.atChar?_eq_true_iff.2 hat)]
    · next hat =>
      rw [if_neg (mt Cursor.atChar?_eq_true_iff.1 hat)]
      simp only [run_bind_eq_ok_iff, run_pure_eq_ok_iff, check_eq_ok_iff]
      obtain ⟨ty, hty, rfl, rfl⟩ := h
      exact ⟨ty, c₁, ⟨hty, rfl⟩, rfl, rfl⟩

variable {whole : Parse Expr} {arguments : Parse (List Expr)}

theorem ReadsPrimary.of_primaryOf {e : Expr} (h : primaryOf ctx whole arguments c = .ok e c') :
    ReadsPrimary ctx whole arguments c e c' := by
  obtain ⟨_, _, hget, h⟩ := run_bind_eq_ok_iff.1 h
  obtain ⟨rfl, rfl⟩ := run_get_eq_ok_iff.1 hget
  cases hvalue : c.current.kind.literal? with
  | some value =>
    simp only [hvalue] at h
    obtain ⟨hadv, rfl⟩ := literal_eq_ok_iff.1 h
    exact .literal ⟨Kind.literal?_eq_some_iff.1 hvalue, hadv⟩
  | none =>
    simp only [hvalue] at h
    cases hk : c.current.kind with
    | identifier name =>
      simp only [hk] at h
      obtain ⟨c₁, hadv, h⟩ := named_eq_ok_iff.1 h
      split at h
      · next hopen =>
        obtain ⟨c₂, args, c₃, ty, hadv', hargs, hclose, hty, rfl⟩ := callOf_eq_ok_iff.1 h
        exact .call ⟨hk, hadv⟩ ⟨hopen, hadv'⟩ hargs hclose hty
      · next hopen =>
        obtain ⟨ty, hty, rfl, rfl⟩ := h
        exact .var ⟨hk, hadv⟩ hopen hty
    | kwIf =>
      simp only [hk] at h
      obtain ⟨_, _, _, ty, c₁, _, _, _, _, hadv, hc, hthen, ht, helse, hf, hty, rfl⟩ :=
        conditional_eq_ok_iff.1 h
      exact .conditional ⟨hk, hadv⟩ hc hthen ht helse hf hty
    | char ch =>
      simp only [hk] at h
      split at h
      · next hch =>
        obtain ⟨c₁, c₂, hadv, he, hclose⟩ := parenthesised_eq_ok_iff.1 h
        exact .paren ⟨hch ▸ hk, hadv⟩ he hclose
      · exact absurd h run_throw_ne_ok
    | _ =>
      simp only [hk] at h
      exact absurd h run_throw_ne_ok

/-- **When a primary is read**, and what it is read as. -/
theorem primaryOf_eq_ok_iff {e : Expr} :
    primaryOf ctx whole arguments c = .ok e c' ↔ ReadsPrimary ctx whole arguments c e c' := by
  refine ⟨.of_primaryOf, fun h => ?_⟩
  refine run_bind_eq_ok_iff.2 ⟨c, c, rfl, ?_⟩
  cases h with
  | @literal value _ h =>
    simp only [h.kind, Kind.literal?_eq_some_iff.2 (Eq.refl value.kind)]
    exact literal_eq_ok_iff.2 ⟨h.advance, rfl⟩
  | var h hnext hty =>
    simp only [h.kind, Kind.literal?]
    refine named_eq_ok_iff.2 ⟨c', h.advance, ?_⟩
    rw [if_neg hnext]
    exact ⟨_, hty, rfl, rfl⟩
  | call h hopen hargs hclose hty =>
    simp only [h.kind, Kind.literal?]
    refine named_eq_ok_iff.2 ⟨_, h.advance, ?_⟩
    rw [if_pos hopen.kind]
    exact callOf_eq_ok_iff.2 ⟨_, _, _, _, hopen.advance, hargs, hclose, hty, rfl⟩
  | paren hopen h hclose =>
    simp only [hopen.kind, Kind.literal?]
    exact parenthesised_eq_ok_iff.2 ⟨_, _, hopen.advance, h, hclose⟩
  | conditional hif hc hthen ht helse hf hty =>
    simp only [hif.kind, Kind.literal?]
    exact conditional_eq_ok_iff.2
      ⟨_, _, _, _, _, _, _, _, _, hif.advance, hc, hthen, ht, helse, hf, hty, rfl⟩

/-- Behind an argument comes the end of the arguments or a comma and more of them. -/
theorem argumentsOf_eq_ok_iff {args : List Expr} :
    argumentsOf whole arguments c = .ok args c' ↔ ∃ arg c₁, whole c = .ok arg c₁ ∧
      if c₁.current.kind = .char ')' then args = [arg] ∧ c₁ = c'
      else ∃ c₂ rest, c₁.Takes (.char ',') c₂ ∧ arguments c₂ = .ok rest c' ∧ args = arg :: rest := by
  simp only [argumentsOf, run_bind_eq_ok_iff, run_get_eq_ok_iff]
  refine exists_congr fun arg => exists_congr fun c₁ => and_congr_right fun _ => ?_
  constructor
  · rintro ⟨_, _, ⟨rfl, rfl⟩, h⟩
    split at h
    · next hat =>
      rw [if_pos (Cursor.atChar?_eq_true_iff.1 hat)]
      obtain ⟨rfl, rfl⟩ := run_pure_eq_ok_iff.1 h
      exact ⟨rfl, rfl⟩
    · next hat =>
      rw [if_neg (mt Cursor.atChar?_eq_true_iff.2 hat)]
      split at h
      · next hcomma =>
        simp only [run_bind_eq_ok_iff, run_pure_eq_ok_iff] at h
        obtain ⟨_, c₂, hadv, rest, _, hrest, rfl, rfl⟩ := h
        exact ⟨c₂, rest, ⟨Cursor.atChar?_eq_true_iff.1 hcomma, hadv⟩, hrest, rfl⟩
      · cases h
  · intro h
    refine ⟨c₁, c₁, ⟨rfl, rfl⟩, ?_⟩
    split at h
    · next hat =>
      obtain ⟨rfl, rfl⟩ := h
      rw [if_pos (Cursor.atChar?_eq_true_iff.2 hat)]
      rfl
    · next hat =>
      obtain ⟨c₂, rest, hcomma, hrest, rfl⟩ := h
      rw [if_neg (mt Cursor.atChar?_eq_true_iff.1 hat),
        if_pos (Cursor.atChar?_eq_true_iff.2 hcomma.kind)]
      simp only [run_bind_eq_ok_iff, run_pure_eq_ok_iff]
      exact ⟨(), c₂, hcomma.advance, rest, c', hrest, rfl, rfl⟩

variable {operand : Parse Expr} {fold : Int → Expr → Parse Expr} {raise : Int → Parse Int}
  {least : Int} {lhs : Expr}

theorem operatorsBy_of_lt (h : c.precedence table < least) :
    operatorsBy table raise operand fold least lhs c = .ok lhs c := by
  refine run_bind_eq_ok_iff.2 ⟨c, c, rfl, ?_⟩
  simp only
  rw [if_pos h]
  rfl

/-- **When an operator is folded.**  The right operand is the primary behind the operator, together with
the operators behind it that bind more tightly. -/
theorem operatorsBy_eq_ok_iff {e : Expr} (h : least ≤ c.precedence table) :
    operatorsBy table (fun p => pure (p + 1)) operand fold least lhs c = .ok e c' ↔
      ∃ op c₁ first c₂ rhs c₃ ty, c.Takes (.operator op.symbol) c₁ ∧ operand c₁ = .ok first c₂ ∧
        (if c.precedence table < c₂.precedence table then
          fold (c.precedence table + 1) first c₂ = .ok rhs c₃ else first = rhs ∧ c₂ = c₃) ∧
        Typing.binary op lhs rhs = .ok ty ∧
        fold least (.binary op lhs rhs ⟨ty, lhs.span.through rhs.span⟩) c₃ = .ok e c' := by
  simp only [operatorsBy, run_bind_eq_ok_iff, run_get_eq_ok_iff]
  constructor
  · rintro ⟨_, _, ⟨rfl, rfl⟩, h'⟩
    rw [if_neg (not_lt.2 h)] at h'
    simp only [run_bind_eq_ok_iff, operator_eq_ok_iff, run_get_eq_ok_iff] at h'
    obtain ⟨op, _, ⟨hop, rfl⟩, _, c₁, hadv, first, c₂, hfirst, _, _, ⟨rfl, rfl⟩, h'⟩ := h'
    split at h'
    · next hlt =>
      simp only [run_bind_eq_ok_iff, run_pure_eq_ok_iff, check_eq_ok_iff] at h'
      obtain ⟨_, _, ⟨rfl, rfl⟩, rhs, c₃, hrhs, ty, _, ⟨hty, rfl⟩, he⟩ := h'
      exact ⟨op, c₁, first, c₂, rhs, c₃, ty, ⟨hop, hadv⟩, hfirst, by rwa [if_pos hlt], hty, he⟩
    · next hlt =>
      simp only [run_bind_eq_ok_iff, run_pure_eq_ok_iff, check_eq_ok_iff] at h'
      obtain ⟨rhs, c₃, hrhs, ty, _, ⟨hty, rfl⟩, he⟩ := h'
      exact ⟨op, c₁, first, c₂, rhs, c₃, ty, ⟨hop, hadv⟩, hfirst, by rwa [if_neg hlt], hty, he⟩
  · rintro ⟨op, c₁, first, c₂, rhs, c₃, ty, hop, hfirst, hrhs, hty, he⟩
    refine ⟨c, c, ⟨rfl, rfl⟩, ?_⟩
    rw [if_neg (not_lt.2 h)]
    simp only [run_bind_eq_ok_iff, operator_eq_ok_iff, run_get_eq_ok_iff]
    refine ⟨op, c, ⟨hop.kind, rfl⟩, (), c₁, hop.advance, first, c₂, hfirst, c₂, c₂, ⟨rfl, rfl⟩, ?_⟩
    split at hrhs
    · next hlt =>
      rw [if_pos hlt]
      simp only [run_bind_eq_ok_iff, run_pure_eq_ok_iff, check_eq_ok_iff]
      exact ⟨_, c₂, ⟨rfl, rfl⟩, rhs, c₃, hrhs, ty, c₃, ⟨hty, rfl⟩, he⟩
    · next hlt =>
      rw [if_neg hlt]
      simp only [run_bind_eq_ok_iff, run_pure_eq_ok_iff, check_eq_ok_iff]
      exact ⟨rhs, c₃, hrhs, ty, c₃, ⟨hty, rfl⟩, he⟩

end Expr.Reader

end ScalarLang
