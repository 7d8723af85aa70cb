import ScalarLang.Proofs.Grouping

/-!
# Reading does not run out of depth

The readers of expressions call each other to a depth that is bounded from what is ahead of the cursor.
The bound is never reached: between two calls of one reader the cursor has moved past a token, or the
call is one of a few that do not move it.  So the readers satisfy the equations that they would satisfy
without a bound.

* `Cursor.remaining`, `Cursor.Below` — how much is left to be read.
* `Parse.Agree` — two readers do the same, success or failure, when little enough is left.
* `Expr.Reader.readers_agree` — one more level of depth changes nothing.
* `Expr.Reader.expression_eq`, `Expr.Reader.primary_eq`, `Expr.Reader.operators_eq`,
  `Expr.Reader.arguments_eq` — the equations.
* `Expr.Reader.expression_shape` — what an expression is read as.
-/

namespace ScalarLang

open Token (Kind)

/-! ### What is left to be read -/

namespace Cursor

variable {c c' : Cursor} {n : Nat}

/-- The items that are left: those ahead, and the token being looked at unless it is the end. -/
def remaining (c : Cursor) : Nat := c.ahead.length + if c.current.kind = .eof then 0 else 1

/-- Fewer than `n` items are left, and behind them the end. -/
structure Below (n : Nat) (c : Cursor) : Prop where
  final : c.final.kind = .eof
  lt : c.remaining < n

theorem stable_below : Stable (Below n) := by
  rintro c ⟨hfinal, hlt⟩
  unfold step
  unfold remaining at hlt
  split
  · next h =>
    refine ⟨hfinal, ?_⟩
    rw [h] at hlt
    simp only [remaining, h, hfinal, if_true, List.length_nil] at hlt ⊢
    omega
  · next h =>
    refine ⟨hfinal, ?_⟩
    rw [h, List.length_cons] at hlt
    simp only [remaining]
    split <;> omega
  · next h =>
    refine ⟨hfinal, ?_⟩
    rw [h, List.length_cons] at hlt
    simp only [remaining]
    omega

theorem below_of_final (hc : c.final.kind = .eof) : c.Below (c.ahead.length + 2) := by
  refine ⟨hc, ?_⟩
  unfold remaining
  split <;> omega

theorem step_eq_of_advance (h : Parse.advance c = .ok () c') : c.step = c' := by
  unfold Parse.advance at h
  unfold step
  split at h <;> cases h <;> simp_all

/-- Moving past a token leaves less, except at the end. -/
theorem Below.of_advance (h : c.Below (n + 1)) (hk : c.current.kind ≠ .eof)
    (hadv : Parse.advance c = .ok () c') : c'.Below n := by
  obtain ⟨hfinal, hlt⟩ := h
  unfold Parse.advance at hadv
  simp only [remaining, if_neg hk] at hlt
  split at hadv
  · next hahead =>
    cases hadv
    refine ⟨hfinal, ?_⟩
    simp only [remaining, hahead, hfinal, if_true, List.length_nil] at hlt ⊢
    omega
  · next hahead =>
    cases hadv
    refine ⟨hfinal, ?_⟩
    rw [hahead, List.length_cons] at hlt
    simp only [remaining]
    split <;> omega
  · cases hadv

theorem Consumes.keeps_below {kinds : List Kind} (h : c.Consumes kinds c') (hc : c.Below n) :
    c'.Below n := by
  induction h with
  | nil => exact hc
  | cons h _ ih => exact ih (step_eq_of_advance h.advance ▸ stable_below _ hc)

end Cursor

/-! ### Agreement -/

namespace Parse

variable {α β : Type} {n : Nat} {c : Cursor}

/-- Two readers do the same where fewer than `n` items are left. -/
def Agree (n : Nat) (p q : Parse α) : Prop := ∀ c, c.Below n → p c = q c

/-- Reading that succeeds leaves no more than was left before. -/
def Keeps (n : Nat) (p : Parse α) : Prop := ∀ c a c', c.Below n → p c = .ok a c' → c'.Below n

theorem Reads.keeps {Q : α → Prop} {p : Parse α} (h : Reads (Cursor.Below n) Q p) : Keeps n p :=
  fun _ _ _ hc hp => (h.ok hc hp).1

theorem bind_congr_at {p q : Parse α} {f g : α → Parse β} (h : p c = q c)
    (hf : ∀ a c', q c = .ok a c' → f a c' = g a c') : (p >>= f) c = (q >>= g) c := by
  show EStateM.bind p f c = EStateM.bind q g c
  unfold EStateM.bind
  rw [h]
  cases hq : q c with
  | ok a c' => exact hf a c' hq
  | error e c' => rfl

theorem run_get_bind {f : Cursor → Parse β} : ((get : Parse Cursor) >>= f) c = f c c := rfl

namespace Agree

theorem refl (p : Parse α) : Agree n p p := fun _ _ => rfl

theorem zero {p q : Parse α} : Agree 0 p q := fun _ hc => absurd hc.lt (Nat.not_lt_zero _)

theorem bind {p q : Parse α} {f g : α → Parse β} (h : Agree n p q) (hq : Keeps n q)
    (hf : ∀ a, Agree n (f a) (g a)) : Agree n (p >>= f) (q >>= g) :=
  fun c hc => bind_congr_at (h c hc) fun a c' ha => hf a c' (hq c a c' hc ha)

theorem get_bind {f g : Cursor → Parse β} (hf : ∀ c, Agree n (f c) (g c)) :
    Agree n (get >>= f) (get >>= g) :=
  fun c hc => hf c c hc

theorem ite {b : Prop} [Decidable b] {p q p' q' : Parse α} (hp : Agree n p p') (hq : Agree n q q') :
    Agree n (if b then p else q) (if b then p' else q') := by
  split
  · exact hp
  · exact hq

/-- Behind a token the readers may have less left. -/
theorem advance_bind {f g : Unit → Parse β} (hf : Agree n (f ()) (g ())) (hc : c.Below (n + 1))
    (hk : c.current.kind ≠ .eof) : (advance >>= f) c = (advance >>= g) c :=
  bind_congr_at rfl fun _ c' hadv => hf c' (hc.of_advance hk hadv)

end Agree

end Parse

/-! ### The steps of reading expressions -/

namespace Expr.Reader

open Parse

variable {table : PrecedenceTable} {ctx : Context} {n : Nat}

section Steps

variable {whole whole' : Parse Expr} {arguments arguments' : Parse (List Expr)}
  {operand operand' : Parse Expr} {fold fold' : Int → Expr → Parse Expr}

theorem callOf_agree {name : String} {start : Span} (ha : Agree n arguments arguments')
    (hk : Keeps n arguments') :
    Agree n (callOf ctx name start arguments) (callOf ctx name start arguments') := by
  refine (Agree.refl _).bind (Reads.advance Cursor.stable_below).keeps fun _ => ?_
  refine Agree.get_bind fun c => Agree.ite ?_ ?_
  · exact Agree.refl _
  · exact ha.bind hk fun args => Agree.refl _

theorem primaryOf_agree (hw : Agree n whole whole') (hwk : Keeps n whole')
    (ha : Agree n arguments arguments') (hak : Keeps n arguments') :
    Agree (n + 1) (primaryOf ctx whole arguments) (primaryOf ctx whole' arguments') := by
  intro c hc
  rw [primaryOf, primaryOf, run_get_bind, run_get_bind]
  cases hvalue : c.current.kind.literal? with
  | some value => rfl
  | none =>
    cases hk : c.current.kind with
    | identifier name =>
      refine Agree.advance_bind ?_ hc (by simp [hk])
      exact Agree.get_bind fun _ => (callOf_agree ha hak).ite (Agree.refl _)
    | kwIf =>
      refine Agree.advance_bind ?_ hc (by simp [hk])
      refine hw.bind hwk fun condition => ?_
      refine (Agree.refl _).bind (Reads.expect Cursor.stable_below).keeps fun _ => ?_
      refine hw.bind hwk fun onTrue => ?_
      refine (Agree.refl _).bind (Reads.expect Cursor.stable_below).keeps fun _ => ?_
      exact hw.bind hwk fun onFalse => Agree.refl _
    | char ch =>
      by_cases hch : ch = '('
      · simp only [hch, if_true]
        refine Agree.advance_bind ?_ hc (by simp [hk])
        exact hw.bind hwk fun e => Agree.refl _
      · simp only [hch, if_false]
    | _ => rfl

theorem operatorsBy_agree {raise : Int → Parse Int} {least : Int} {lhs : Expr}
    (ho : Agree n operand operand') (hok : Keeps n operand')
    (hf : ∀ least lhs, Agree n (fold least lhs) (fold' least lhs))
    (hfk : ∀ least lhs, Keeps n (fold' least lhs)) (hr : ∀ p, Keeps n (raise p)) :
    Agree (n + 1) (operatorsBy table raise operand fold least lhs)
      (operatorsBy table raise operand' fold' least lhs) := by
  intro c hc
  rw [operatorsBy, operatorsBy, run_get_bind, run_get_bind]
  split
  · rfl
  · refine bind_congr_at rfl fun op c' hop => ?_
    obtain ⟨hk, rfl⟩ := operator_eq_ok_iff.1 hop
    refine Agree.advance_bind ?_ hc (by simp [hk])
    refine ho.bind hok fun first => Agree.get_bind fun c' => ?_
    -- the right operand is the primary, or what stronger operators make of it
    have close : ∀ rhs, Agree n
        (do let ty ← Parse.check (Typing.binary op lhs rhs)
            fold least (.binary op lhs rhs ⟨ty, lhs.span.through rhs.span⟩))
        (do let ty ← Parse.check (Typing.binary op lhs rhs)
            fold' least (.binary op lhs rhs ⟨ty, lhs.span.through rhs.span⟩)) := fun rhs =>
      (Agree.refl _).bind (Reads.check fun _ _ => trivial).keeps fun ty => hf _ _
    refine Agree.ite ?_ ?_
    · refine (Agree.refl _).bind (hr _) fun least' => ?_
      exact (hf least' first).bind (hfk least' first) close
    · exact close first

theorem argumentsOf_agree (hw : Agree (n + 1) whole whole') (hwk : Keeps (n + 1) whole')
    (ha : Agree n arguments arguments') (hak : Keeps n arguments') :
    Agree (n + 1) (argumentsOf whole arguments) (argumentsOf whole' arguments') := by
  refine hw.bind hwk fun arg c hc => ?_
  rw [run_get_bind, run_get_bind]
  split
  · rfl
  · split
    · next hcomma =>
      refine Agree.advance_bind ?_ hc (by simp [Cursor.atChar?_eq_true_iff.1 hcomma])
      exact ha.bind hak fun args => Agree.refl _
    · rfl

end Steps

/-! ### The readers -/

variable (table ctx)

theorem expressionFor_keeps (fuel : Nat) : Keeps n (expressionFor table ctx fuel) := by
  intro c e c' hc h
  obtain ⟨-, t, ht⟩ := (readers_shape table ctx fuel).1 c e c' h
  exact ht.consumes.keeps_below hc

theorem primaryFor_keeps (fuel : Nat) : Keeps n (primaryFor table ctx fuel) := by
  intro c e c' hc h
  obtain ⟨t, ht, -⟩ := (readers_shape table ctx fuel).2.1 c e c' h
  exact ht.consumes.keeps_below hc

theorem argumentsFor_keeps (fuel : Nat) : Keeps n (argumentsFor table ctx fuel) := by
  intro c args c' hc h
  obtain ⟨ts, -, -, hts, -⟩ := (readers_shape table ctx fuel).2.2.2 c args c' h
  exact hts.keeps_below hc

theorem operatorsFor_keeps (fuel : Nat) (least : Int) (lhs : Expr) :
    Keeps n (operatorsFor table ctx fuel least lhs) := by
  induction fuel generalizing least lhs with
  | zero =>
    intro c e c' _ h
    cases h
  | succ fuel ih =>
    intro c e c' hc h
    rw [operatorsFor_succ] at h
    rcases lt_or_ge (c.precedence table) least with hlt | hge
    · rw [operatorsBy_of_lt hlt] at h
      cases h
      exact hc
    · obtain ⟨op, c₁, first, c₂, rhs, c₃, ty, hop, hfirst, hrhs, -, he⟩ :=
        (operatorsBy_eq_ok_iff hge).1 h
      have hc₁ : c₁.Below n := (Cursor.Consumes.cons hop .nil).keeps_below hc
      have hc₂ : c₂.Below n := primaryFor_keeps table ctx fuel c₁ first c₂ hc₁ hfirst
      have hc₃ : c₃.Below n := by
        split at hrhs
        · exact ih _ _ _ _ _ hc₂ hrhs
        · exact hrhs.2 ▸ hc₂
      exact ih _ _ _ _ _ hc₃ he

/-- **One more level of depth changes nothing.**  Each token that is left takes four levels at most: it
can be the start of an argument, which is an expression, whose first primary is a call. -/
theorem readers_agree (fuel : Nat) :
    (∀ n, 4 * n ≤ fuel + 2 →
      Agree n (expressionFor table ctx (fuel + 1)) (expressionFor table ctx fuel)) ∧
    (∀ n, 4 * n ≤ fuel + 3 →
      Agree n (primaryFor table ctx (fuel + 1)) (primaryFor table ctx fuel)) ∧
    (∀ n least lhs, 4 * n ≤ fuel + 3 →
      Agree n (operatorsFor table ctx (fuel + 1) least lhs) (operatorsFor table ctx fuel least lhs)) ∧
    (∀ n, 4 * n ≤ fuel + 1 →
      Agree n (argumentsFor table ctx (fuel + 1)) (argumentsFor table ctx fuel)) := by
  induction fuel with
  | zero =>
    have hzero : ∀ n, 4 * n ≤ 3 → n = 0 := by omega
    refine ⟨fun n hn => ?_, fun n hn => ?_, fun n least lhs hn => ?_, fun n hn => ?_⟩ <;>
      rw [hzero n (by omega)] <;> exact Agree.zero
  | succ fuel ih =>
    obtain ⟨ihe, ihp, iho, iha⟩ := ih
    refine ⟨?_, ?_, ?_, ?_⟩
    · intro n hn
      rw [expressionFor, expressionFor]
      exact (ihp n (by omega)).bind (primaryFor_keeps table ctx fuel) fun lhs =>
        iho n 0 lhs (by omega)
    · intro n hn
      rw [primaryFor_succ, primaryFor_succ]
      cases n with
      | zero => exact Agree.zero
      | succ n =>
        exact primaryOf_agree (ihe n (by omega)) (expressionFor_keeps table ctx fuel)
          (iha n (by omega)) (argumentsFor_keeps table ctx fuel)
    · intro n least lhs hn
      rw [operatorsFor_succ, operatorsFor_succ]
      cases n with
      | zero => exact Agree.zero
      | succ n =>
        exact operatorsBy_agree (ihp n (by omega)) (primaryFor_keeps table ctx fuel)
          (fun least lhs => iho n least lhs (by omega)) (operatorsFor_keeps table ctx fuel)
          (fun p => (Reads.pure (Q := fun _ => True) trivial).keeps)
    · intro n hn
      rw [argumentsFor_succ, argumentsFor_succ]
      cases n with
      | zero => exact Agree.zero
      | succ n =>
        exact argumentsOf_agree (ihe (n + 1) (by omega)) (expressionFor_keeps table ctx fuel)
          (iha n (by omega)) (argumentsFor_keeps table ctx fuel)

variable {table ctx}

/-- One or more arguments, up to the closing parenthesis. -/
def arguments (table : PrecedenceTable) (ctx : Context) : Parse (List Expr) := fun c =>
  argumentsFor table ctx c.fuel c

/-- A reader that does the same with one more level of depth does the same with any more. -/
theorem agree_of_le {α : Type} {p : Nat → Parse α} {k fuel fuel' : Nat}
    (h : ∀ fuel n, 4 * n ≤ fuel + k → Agree n (p (fuel + 1)) (p fuel)) (hn : 4 * n ≤ fuel + k)
    (hle : fuel ≤ fuel') : Agree n (p fuel') (p fuel) := by
  induction hle with
  | refl => exact Agree.refl _
  | @step m hm ih =>
    have hm : fuel ≤ m := hm
    exact fun c hc => (h m n (by omega) c hc).trans (ih c hc)

/-- The depth that a cursor gives is enough for what is left. -/
theorem agree_fuel {α : Type} {p : Nat → Parse α} {k fuel : Nat}
    (h : ∀ fuel n, 4 * n ≤ fuel + k → Agree n (p (fuel + 1)) (p fuel)) (hn : 4 * n ≤ fuel + k) :
    Agree n (p fuel) (fun c => p c.fuel c) := by
  intro c hc
  rcases le_total fuel c.fuel with hle | hle
  · exact (agree_of_le h hn hle c hc).symm
  · have henough : 4 * (c.remaining + 1) ≤ c.fuel + k := by
      unfold Cursor.remaining Cursor.fuel
      split <;> omega
    exact agree_of_le h henough hle c ⟨hc.final, Nat.lt_succ_self _⟩

theorem expressionFor_agree {fuel : Nat} (hn : 4 * n ≤ fuel + 2) :
    Agree n (expressionFor table ctx fuel) (expression table ctx) :=
  agree_fuel (fun fuel => (readers_agree table ctx fuel).1) hn

theorem primaryFor_agree {fuel : Nat} (hn : 4 * n ≤ fuel + 3) :
    Agree n (primaryFor table ctx fuel) (primary table ctx) :=
  agree_fuel (fun fuel => (readers_agree table ctx fuel).2.1) hn

theorem operatorsFor_agree {fuel : Nat} (least : Int) (lhs : Expr) (hn : 4 * n ≤ fuel + 3) :
    Agree n (operatorsFor table ctx fuel least lhs) (operators table ctx least lhs) :=
  agree_fuel (p := fun fuel => operatorsFor table ctx fuel least lhs)
    (fun fuel n => (readers_agree table ctx fuel).2.2.1 n least lhs) hn

theorem argumentsFor_agree {fuel : Nat} (hn : 4 * n ≤ fuel + 1) :
    Agree n (argumentsFor table ctx fuel) (arguments table ctx) :=
  agree_fuel (fun fuel => (readers_agree table ctx fuel).2.2.2) hn

variable {c : Cursor}

/-- **An expression is a primary and the operators behind it.** -/
theorem expression_eq (hc : c.final.kind = .eof) :
    expression table ctx c = (do
      let lhs ← primary table ctx
      operators table ctx 0 lhs) c := by
  rw [expression, Cursor.fuel, expressionFor]
  have hagree : Agree (c.ahead.length + 2)
      (primaryFor table ctx (4 * c.ahead.length + 7) >>=
        operatorsFor table ctx (4 * c.ahead.length + 7) 0)
      (primary table ctx >>= operators table ctx 0) := by
    refine (primaryFor_agree (by omega)).bind (fun c e c' hc h => ?_) fun lhs =>
      operatorsFor_agree 0 lhs (by omega)
    exact primaryFor_keeps table ctx c.fuel c e c' hc h
  exact hagree c (Cursor.below_of_final hc)

theorem primary_eq (hc : c.final.kind = .eof) :
    primary table ctx c =
      primaryOf ctx (expression table ctx) (arguments table ctx) c := by
  have hagree : Agree (c.ahead.length + 2)
      (primaryOf ctx (expressionFor table ctx (4 * c.ahead.length + 7))
        (argumentsFor table ctx (4 * c.ahead.length + 7)))
      (primaryOf ctx (expression table ctx) (arguments table ctx)) := by
    refine primaryOf_agree (expressionFor_agree (by omega)) ?_ (argumentsFor_agree (by omega)) ?_
    · exact fun c e c' hc h => expressionFor_keeps table ctx c.fuel c e c' hc h
    · exact fun c e c' hc h => argumentsFor_keeps table ctx c.fuel c e c' hc h
  rw [primary, Cursor.fuel, primaryFor_succ]
  exact hagree c (Cursor.below_of_final hc)

theorem operators_eq {least : Int} {lhs : Expr} (hc : c.final.kind = .eof) :
    operators table ctx least lhs c =
      operatorsBy table (fun p => pure (p + 1)) (primary table ctx) (operators table ctx) least lhs
        c := by
  have hagree : Agree (c.ahead.length + 2)
      (operatorsBy table (fun p => pure (p + 1)) (primaryFor table ctx (4 * c.ahead.length + 7))
        (operatorsFor table ctx (4 * c.ahead.length + 7)) least lhs)
      (operatorsBy table (fun p => pure (p + 1)) (primary table ctx) (operators table ctx) least
        lhs) := by
    refine operatorsBy_agree (primaryFor_agree (by omega)) ?_
      (fun least lhs => operatorsFor_agree least lhs (by omega)) ?_
      fun p => (Reads.pure (Q := fun _ => True) trivial).keeps
    · exact fun c e c' hc h => primaryFor_keeps table ctx c.fuel c e c' hc h
    · exact fun least lhs c e c' hc h => operatorsFor_keeps table ctx c.fuel least lhs c e c' hc h
  rw [operators, Cursor.fuel, operatorsFor_succ]
  exact hagree c (Cursor.below_of_final hc)

theorem operators_of_lt {least : Int} {lhs : Expr} (h : c.precedence table < least) :
    operators table ctx least lhs c = .ok lhs c := by
  rw [operators, Cursor.fuel, operatorsFor_succ, operatorsBy_of_lt h]

theorem arguments_eq (hc : c.final.kind = .eof) :
    arguments table ctx c = argumentsOf (expression table ctx) (arguments table ctx) c := by
  have hagree : Agree (c.ahead.length + 2)
      (argumentsOf (expressionFor table ctx (4 * c.ahead.length + 7))
        (argumentsFor table ctx (4 * c.ahead.length + 7)))
      (argumentsOf (expression table ctx) (arguments table ctx)) := by
    refine argumentsOf_agree (expressionFor_agree (by omega)) ?_ (argumentsFor_agree (by omega)) ?_
    · exact fun c e c' hc h => expressionFor_keeps table ctx c.fuel c e c' hc h
    · exact fun c e c' hc h => argumentsFor_keeps table ctx c.fuel c e c' hc h
  rw [arguments, Cursor.fuel, argumentsFor_succ]
  exact hagree c (Cursor.below_of_final hc)

/-! ### What is read -/

/-- A precedence is only raised below another one, so nothing is asked of raising the greatest. -/
theorem operatorsBy_raise {raise : Int → Parse Int} {greatest : Int}
    (htable : ∀ entry ∈ table.entries, entry.2 ≤ greatest)
    (hraise : ∀ p, p + 1 ≤ greatest → raise p = pure (p + 1)) (operand : Parse Expr)
    (fold : Int → Expr → Parse Expr) (least : Int) (lhs : Expr) :
    operatorsBy table raise operand fold least lhs =
      operatorsBy table (fun p => pure (p + 1)) operand fold least lhs := by
  funext c
  rw [operatorsBy, operatorsBy, run_get_bind, run_get_bind]
  split
  · rfl
  · refine bind_congr_at rfl fun op _ _ => bind_congr_at rfl fun _ _ _ => ?_
    refine bind_congr_at rfl fun first c' _ => ?_
    rw [run_get_bind, run_get_bind]
    split
    · next hlt =>
      have hle : c'.precedence table ≤ greatest := Cursor.precedence_le_of_lt htable hlt
      rw [hraise _ (by omega)]
    · rfl

/-- **What an expression is read as.**  The tokens that are read are those of a tree that means the
expression and is grouped by the table, and no operator that binds stands behind them.  Raising a
precedence by one never leaves the range of the table. -/
theorem expression_shape (table : PrecedenceTable) (ctx : Context) :
    (∀ c e c', expression table ctx c = .ok e c' →
      ∃ t : Concrete, t.erase = e ∧ c.Consumes t.yield c' ∧ t.Grouped table ∧
        ∀ symbol, c'.current.kind = .operator symbol → table.precedence? symbol = none) ∧
    ((∀ entry ∈ table.entries, entry.2 ≤ Int32.maxValue.toInt) →
      ∀ raise : Int → Parse Int, (∀ p, p + 1 ≤ Int32.maxValue.toInt → raise p = pure (p + 1)) →
        ∀ least lhs c, c.final.kind = .eof → operators table ctx least lhs c =
          operatorsBy table raise (primary table ctx) (operators table ctx) least lhs c) := by
  constructor
  · intro c e c' h
    obtain ⟨hnone, t, ht⟩ := (readers_shape table ctx c.fuel).1 c e c' h
    exact ⟨t, ht.erase, ht.consumes, ht.grouped, Cursor.precedence_neg_iff.1 hnone⟩
  · intro htable raise hraise least lhs c hc
    rw [operators_eq hc, operatorsBy_raise htable hraise]

/-- Two operators have the greatest precedence there can be and one has a negative one; a conditional ends
a right operand and takes in what follows. -/
theorem expression_shape_extreme :
    let table := PrecedenceTable.ofList [("+", 2147483647), ("-", 2147483647), ("*", 5), ("<", -1)]
    let ctx : Context := ⟨fun _ => none, {}, none⟩
    let start := Cursor.ofText "1 * 2 - (3 - 4) + if 5 then 6 else 7 * 8 < 9"
    let raise : Int → Parse Int := fun p =>
      if p + 1 ≤ Int32.maxValue.toInt then pure (p + 1) else Parse.expected "a smaller precedence"
    ∃ c e c', Parse.advance start = .ok () c ∧ expression table ctx c = .ok e c' ∧
      c'.current.kind = .operator "<" ∧
      (∃ t : Concrete, t.erase = e ∧ c.Consumes t.yield c' ∧ t.Grouped table ∧
        ∀ symbol, c'.current.kind = .operator symbol → table.precedence? symbol = none) ∧
      (∀ entry ∈ table.entries, entry.2 ≤ Int32.maxValue.toInt) ∧ c.final.kind = .eof ∧
      operators table ctx 0 e c =
        operatorsBy table raise (primary table ctx) (operators table ctx) 0 e c := by
  intro table ctx start raise
  have hread : (match (do Parse.advance; expression table ctx) start with
      | .ok _ c' => decide (c'.current.kind = .operator "<")
      | .error _ _ => false) = true := by decide +kernel
  cases hr : (do Parse.advance; expression table ctx) start with
  | error e c' =>
    rw [hr] at hread
    cases hread
  | ok e c' =>
    rw [hr] at hread
    obtain ⟨_, c, hadv, he⟩ := run_bind_eq_ok_iff.1 hr
    have htable : ∀ entry ∈ table.entries, entry.2 ≤ Int32.maxValue.toInt := by decide
    have hfinal : c.final.kind = .eof := by
      rw [Cursor.final_of_advance hadv]
      decide +kernel
    exact ⟨c, e, c', hadv, he, of_decide_eq_true hread, (expression_shape table ctx).1 c e c' he,
      htable, hfinal,
      (expression_shape table ctx).2 htable raise (fun p hp => if_pos hp) 0 e c hfinal⟩

end Expr.Reader

end ScalarLang
