import ScalarLang.Proofs.Derivation
import ScalarLang.Proofs.Stretches

/-!
# The spans of what is read

Whatever is read from a text stands there: every expression at a stretch from the start of a token to the
end of one, its parts inside it and one behind the other.  Each reader starts at the token that the cursor
looks at and takes only tokens that it moves past, so what it gives lies between that token and the one
that the cursor looks at behind it.  A failure is reported at such a stretch, or at an item of the text.

* `Cursor.Stands` — the cursor looks at a token of the text, with the rest of the text ahead.
* `Expr.Nested` — the spans of an expression and of all its nodes.
* `Parse.Lands` — what reading from a cursor gives, and where it fails.
* `Expr.Reader.expression_lands` — reading expressions, by induction on the depth.
* `Program.definition_lands`, `Program.topLevel_lands` — reading units.
* `Program.spans_nest` — the spans of a unit nest, whatever was read before it.
-/

namespace ScalarLang

open Token (Kind)

/-! ### Cursors in a text -/

namespace Cursor

variable {text : String} {c : Cursor}

/-- Where the token being looked at starts, in bytes. -/
def place (c : Cursor) : Nat := c.current.span.start.offset

/-- The cursor looks at a token of the text, and the items ahead are the last ones of the text, behind
that token. -/
structure Stands (text : String) (c : Cursor) : Prop where
  current : .ok c.current ∈ items text
  ahead : c.ahead ++ [.ok c.final] <:+ items text
  behind : ∀ item ∈ c.ahead ++ [.ok c.final],
    c.current.span.stop.offset ≤ (Lexer.itemSpan item).start.offset

/-- A token and all items behind it. -/
theorem Stands.of_suffix {t final : Token} {ahead : List Item}
    (h : .ok t :: (ahead ++ [.ok final]) <:+ items text) : Stands text ⟨t, ahead, final⟩ := by
  have hpairs := (pairwise_items text).sublist h.sublist
  exact ⟨h.subset List.mem_cons_self, (List.suffix_cons _ _).trans h, (List.pairwise_cons.1 hpairs).1⟩

/-- The last item of a text is its end. -/
theorem span_of_suffix {final : Token} {ahead : List Item}
    (h : ahead ++ [.ok final] <:+ items text) :
    final.span = ⟨Position.origin.afterAll text.toList, Position.origin.afterAll text.toList⟩ := by
  obtain ⟨init, hitems, -⟩ := (items_partition text).spans
  obtain ⟨front, hfront⟩ := h
  rw [hitems, ← List.append_assoc] at hfront
  have hlast := (List.append_inj' hfront rfl).2
  cases hlast
  rfl

/-- The end of the text, with nothing ahead but the end itself. -/
theorem Stands.of_final {final : Token} {ahead : List Item} (h : ahead ++ [.ok final] <:+ items text)
    (hnone : ahead = []) : Stands text ⟨final, ahead, final⟩ := by
  refine ⟨h.subset (List.mem_append_right _ (List.mem_singleton_self _)), h, fun item hitem => ?_⟩
  rw [hnone, List.nil_append, List.mem_singleton] at hitem
  rw [hitem]
  show final.span.stop.offset ≤ final.span.start.offset
  rw [span_of_suffix h]

/-- The cursor behind one more item stands in the text as well. -/
theorem stands_stable : Stable (Stands text) := by
  intro c hc
  have hahead := hc.ahead
  have hbehind := hc.behind
  unfold step
  split
  · next h => exact Stands.of_final hahead h
  · next t ahead h =>
    rw [h, List.cons_append] at hahead
    exact Stands.of_suffix hahead
  · next e ahead h =>
    rw [h, List.cons_append] at hahead hbehind
    exact ⟨hc.current, (List.suffix_cons _ _).trans hahead, fun item hitem =>
      hbehind item (List.mem_cons_of_mem _ hitem)⟩

theorem Stands.onTokens (h : c.Stands text) (hk : c.current.kind ≠ .eof) :
    c.current.span.OnTokens text :=
  .of_token h.current hk

/-- Moving on leaves the token being looked at behind. -/
theorem Stands.stop_le_of_advance {c' : Cursor} (h : c.Stands text) (hadv : Parse.advance c = .ok () c') :
    c.current.span.stop.offset ≤ c'.place := by
  have hbehind := h.behind
  unfold Parse.advance at hadv
  split at hadv
  · cases hadv
    exact hbehind _ (List.mem_append_right _ (List.mem_singleton_self _))
  · next t ahead hahead =>
    cases hadv
    rw [hahead] at hbehind
    exact hbehind _ List.mem_cons_self
  · cases hadv

/-- No token ends in front of its start. -/
theorem Stands.start_le_stop (h : c.Stands text) : c.place ≤ c.current.span.stop.offset := by
  by_cases hk : c.current.kind = .eof
  · have hspan := itemSpan_of_isEnd h.current (by simp [Lexer.isEnd, hk])
    have hspan : c.current.span = ⟨_, _⟩ := hspan
    rw [place, hspan]
  · exact Nat.le_of_lt (h.onTokens hk).lt

/-- The span lies between the tokens that two cursors look at. -/
structure Encloses (c c' : Cursor) (s : Span) : Prop where
  start : c.place ≤ s.start.offset
  stop : s.stop.offset ≤ c'.place

end Cursor

/-! ### Spans inside each other -/

namespace Span

/-- The span is a part of the other one. -/
def Inside (a b : Span) : Prop := b.start.offset ≤ a.start.offset ∧ a.stop.offset ≤ b.stop.offset

/-- The span ends where the other one starts, or in front of that. -/
def Before (a b : Span) : Prop := a.stop.offset ≤ b.start.offset

/-- Where a failure is reported: at an item of the text, or from a token to one. -/
def Shown (text : String) (s : Span) : Prop :=
  s.OnTokens text ∨ ∃ item ∈ items text, s = Lexer.itemSpan item

end Span

theorem Cursor.Stands.shown {text : String} {c : Cursor} (h : c.Stands text) :
    c.current.span.Shown text :=
  .inr ⟨_, h.current, rfl⟩

namespace Expr

variable {text : String} {e : Expr}

/-- The expression stands at a stretch of the text, with its parts inside it and one behind the other. -/
structure Sits (text : String) (e : Expr) : Prop where
  onTokens : e.span.OnTokens text
  inside : ∀ p ∈ e.parts, p.span.Inside e.span
  apart : e.parts.Pairwise fun p q => p.span.Before q.span

/-- All nodes of the expression stand in the text so. -/
def Nested (text : String) (e : Expr) : Prop := ∀ n, e.Node n → n.Sits text

theorem Nested.sits (h : e.Nested text) : e.Sits text := h e (.root e)

theorem Nested.of_parts (h : e.Sits text) (hparts : ∀ p ∈ e.parts, p.Nested text) : e.Nested text := by
  intro n hn
  cases hn with
  | root => exact h
  | part hp hn => exact hparts _ hp n hn

/-- A node without parts. -/
theorem Nested.leaf (h : e.span.OnTokens text) (hparts : e.parts = []) : e.Nested text := by
  refine .of_parts ⟨h, ?_, ?_⟩ ?_
  all_goals rw [hparts]
  · simp
  · exact .nil
  · simp

/-- A node from the start of one stretch to the end of another, with its parts between these points. -/
theorem Nested.joined {a b : Span} (hspan : e.span = a.through b) (ha : a.OnTokens text)
    (hb : b.OnTokens text) (h : a.stop.offset ≤ b.start.offset)
    (hparts : ∀ p ∈ e.parts, p.Nested text ∧ a.start.offset ≤ p.span.start.offset ∧
      p.span.stop.offset ≤ b.stop.offset)
    (hapart : e.parts.Pairwise fun p q => p.span.Before q.span) :
    e.Nested text ∧ e.span = ⟨a.start, b.stop⟩ := by
  obtain ⟨heq, honTokens⟩ := ha.through hb h
  rw [← hspan] at heq honTokens
  refine ⟨.of_parts ⟨honTokens, fun p hp => ?_, hapart⟩ fun p hp => (hparts p hp).1, heq⟩
  rw [heq]
  exact (hparts p hp).2

/-- The expression stands in the text, between the tokens that two cursors look at. -/
structure Lies (text : String) (c : Cursor) (e : Expr) (c' : Cursor) : Prop where
  nested : e.Nested text
  between : c.Encloses c' e.span

/-- The expressions stand in the text, one behind the other. -/
structure AllLie (text : String) (c : Cursor) (args : List Expr) (c' : Cursor) : Prop where
  lies : ∀ a ∈ args, a.Lies text c c'
  apart : args.Pairwise fun a b => a.span.Before b.span

end Expr

/-! ### Readers -/

namespace Parse

variable {text : String} {α β : Type} {c : Cursor}

/-- What reading from a cursor gives: a result, with the cursor further on in the text, or a failure that
is reported at a place of the text.  The cursor stands in the text behind both. -/
def Lands (text : String) (c : Cursor) (Q : α → Cursor → Prop) :
    EStateM.Result InputError Cursor α → Prop
  | .ok a c' => c'.Stands text ∧ c.place ≤ c'.place ∧ Q a c'
  | .error e c' => c'.Stands text ∧ e.span.Shown text

/-- What a reader gives from every cursor in the text. -/
def Places (text : String) (Q : Cursor → α → Cursor → Prop) (p : Parse α) : Prop :=
  ∀ c, c.Stands text → Lands text c (Q c) (p c)

namespace Lands

variable {P : α → Cursor → Prop} {Q : β → Cursor → Prop}

/-- Reading goes on behind what has been read. -/
theorem bind {p : Parse α} {f : α → Parse β} (hp : Lands text c P (p c))
    (hf : ∀ a c₁, c₁.Stands text → c.place ≤ c₁.place → P a c₁ → Lands text c₁ Q (f a c₁)) :
    Lands text c Q ((p >>= f) c) := by
  cases h : p c with
  | error e c₁ =>
    rw [h] at hp
    rw [run_bind_of_error h]
    exact hp
  | ok a c₁ =>
    rw [h] at hp
    obtain ⟨hc₁, hle, ha⟩ := hp
    have hgo := hf a c₁ hc₁ hle ha
    rw [run_bind_of_ok h]
    cases h₂ : f a c₁ with
    | error e c₂ =>
      rw [h₂] at hgo
      exact hgo
    | ok b c₂ =>
      rw [h₂] at hgo
      exact ⟨hgo.1, hle.trans hgo.2.1, hgo.2.2⟩

theorem pure {a : α} (hc : c.Stands text) (ha : P a c) : Lands text c P ((Pure.pure a : Parse α) c) :=
  ⟨hc, le_refl _, ha⟩

theorem imp {P' : α → Cursor → Prop} {r : EStateM.Result InputError Cursor α} (h : Lands text c P r)
    (himp : ∀ a c', P a c' → P' a c') : Lands text c P' r := by
  cases r with
  | error e c' => exact h
  | ok a c' => exact ⟨h.1, h.2.1, himp a c' h.2.2⟩

theorem advance (hc : c.Stands text) :
    Lands text c (fun _ c' => c.current.span.stop.offset ≤ c'.place) (Parse.advance c) := by
  cases h : Parse.advance c with
  | error e c' =>
    have hahead := hc.ahead
    unfold Parse.advance at h
    split at h
    · cases h
    · cases h
    · next e ahead heq =>
      have hstep := Cursor.stands_stable c hc
      rw [Cursor.step, heq] at hstep
      cases h
      rw [heq] at hahead
      exact ⟨hstep, .inr ⟨.error e, hahead.subset List.mem_cons_self, rfl⟩⟩
  | ok _ c' =>
    have hstop := hc.stop_le_of_advance h
    have hc' : c'.Stands text := Cursor.step_eq_of_advance h ▸ Cursor.stands_stable c hc
    exact ⟨hc', hc.start_le_stop.trans hstop, hstop⟩

/-- A failure at the token being looked at. -/
theorem error {e : InputError} (hc : c.Stands text) (he : e.span = c.current.span) :
    Lands text c P (.error e c) :=
  ⟨hc, he ▸ hc.shown⟩

theorem expected {what : String} (hc : c.Stands text) :
    Lands text c P ((Parse.expected what : Parse α) c) :=
  error hc rfl

theorem check {result : Except TypeError α} (hc : c.Stands text)
    (h : ∀ e, result = .error e → e.span.Shown text) :
    Lands text c (fun _ c' => c' = c) (Parse.check result c) := by
  cases result with
  | ok a => exact ⟨hc, le_refl _, rfl⟩
  | error e => exact ⟨hc, h e rfl⟩

theorem expect {kind : Kind} {what : String} (hc : c.Stands text) (hk : kind ≠ .eof)
    (hlit : kind.literal? = none) :
    Lands text c (fun span c' => span.OnTokens text ∧ c.Encloses c' span) (Parse.expect kind what c) := by
  show Lands text c _ ((if c.at? kind then _ else _ : Parse Span) c)
  by_cases hat : c.at? kind = true
  · have hkind : c.current.kind ≠ .eof := by
      rw [(Kind.same_eq_true_iff hlit).1 hat]
      exact hk
    rw [if_pos hat]
    refine (advance hc).bind fun _ c₁ hc₁ _ hstop => ?_
    exact pure hc₁ ⟨hc.onTokens hkind, le_refl _, hstop⟩
  · rw [if_neg hat]
    exact expected hc

theorem expectChar {ch : Char} (hc : c.Stands text) :
    Lands text c (fun span c' => span.OnTokens text ∧ c.Encloses c' span) (Parse.expectChar ch c) :=
  expect hc (by simp) rfl

end Lands

end Parse

/-! ### Where type errors are reported -/

namespace Typing

variable {ctx : Context} {e : TypeError}

theorem span_of_var {name : String} {span : Span} (h : var ctx name span = .error e) :
    e.span = span := by
  unfold var at h
  split at h
  · cases h
  · cases h
    rfl

theorem span_of_binary {op : Operator} {lhs rhs : Expr} (h : binary op lhs rhs = .error e) :
    e.span = lhs.span.through rhs.span := by
  unfold binary at h
  split at h
  · cases h
  · cases h
    rfl

theorem span_of_arguments {callee : String} {n : Nat} {params : List NumType} {args : List Expr}
    (h : arguments callee n params args = .error e) : ∃ a ∈ args, e.span = a.span := by
  induction params generalizing n args with
  | nil =>
    rw [arguments.eq_2 _ _ _ _ (by simp)] at h
    cases h
  | cons expected params ih =>
    cases args with
    | nil => cases h
    | cons a args =>
      rw [arguments] at h
      by_cases hty : a.ty = expected
      · rw [if_pos hty] at h
        obtain ⟨b, hb, hspan⟩ := ih h
        exact ⟨b, List.mem_cons_of_mem _ hb, hspan⟩
      · rw [if_neg hty] at h
        cases h
        exact ⟨a, List.mem_cons_self, rfl⟩

/-- A call is at fault as a whole, or one of its arguments is. -/
theorem span_of_call {callee : String} {args : List Expr} {span : Span}
    (h : call ctx callee args span = .error e) : e.span = span ∨ ∃ a ∈ args, e.span = a.span := by
  unfold call at h
  split at h
  · cases h
    exact .inl rfl
  · split at h
    · split at h
      · cases h
      · next hargs =>
        cases h
        exact .inr (span_of_arguments hargs)
    · cases h
      exact .inl rfl

theorem span_of_conditional {onTrue onFalse : Expr} (h : conditional onTrue onFalse = .error e) :
    e.span = onTrue.span.through onFalse.span := by
  unfold conditional at h
  split at h
  · cases h
  · cases h
    rfl

theorem span_of_definition {proto : Prototype} {body : Expr} (h : definition proto body = .error e) :
    e.span = body.span := by
  unfold definition at h
  split at h
  · cases h
  · cases h
    rfl

end Typing

/-- A parameter of a taken name is at fault itself. -/
theorem Scope.span_of_ofPrototype {proto : Prototype} {e : TypeError}
    (h : ofPrototype proto = .error e) : ∃ p ∈ proto.params, e.span = p.span := by
  have hfold : ∀ (params : List Param) (scope : Scope), params.foldlM (bind proto.name) scope = .error e →
      ∃ p ∈ params, e.span = p.span := by
    intro params
    induction params with
    | nil =>
      intro scope h
      cases h
    | cons p params ih =>
      intro scope h
      rw [List.foldlM_cons, bind_eq_error_iff] at h
      rcases h with h | ⟨scope', -, h⟩
      · unfold bind at h
        split at h
        · cases h
          exact ⟨p, List.mem_cons_self, rfl⟩
        · cases h
      · obtain ⟨q, hq, hspan⟩ := ih scope' h
        exact ⟨q, List.mem_cons_of_mem _ hq, hspan⟩
  exact hfold _ _ h

/-! ### Reading expressions -/

namespace Expr.Reader

open Parse

variable {text : String} {table : PrecedenceTable} {ctx : Context} {c : Cursor}
  {whole operand : Parse Expr} {arguments : Parse (List Expr)} {fold : Int → Expr → Parse Expr}

theorem unexpected_lands {P : Expr → Cursor → Prop} (hc : c.Stands text) :
    Lands text c P (unexpected c.current c) :=
  Lands.error hc rfl

theorem literal_lands {value : Literal.Value} (hc : c.Stands text) (hk : c.current.kind ≠ .eof) :
    Lands text c (Expr.Lies text c) (literal value c.current.span c) := by
  refine (Lands.advance hc).bind fun _ c₁ hc₁ _ hstop => Lands.pure hc₁ ⟨?_, le_refl _, hstop⟩
  exact .leaf (hc.onTokens hk) rfl

/-- The call of a name that stands at `start`. -/
theorem callOf_lands {name : String} {start : Span} (ha : Places text (Expr.AllLie text) arguments)
    (hc : c.Stands text) (hstart : start.OnTokens text) (hbefore : start.stop.offset ≤ c.place) :
    Lands text c (fun e c' => e.Nested text ∧ e.span.start = start.start ∧ e.span.stop.offset ≤ c'.place)
      (callOf ctx name start arguments c) := by
  refine (Lands.advance hc).bind fun _ c₁ hc₁ hle₁ _ => ?_
  rw [run_get_bind, ← ite_bind]
  have hargs : Lands text c₁ (Expr.AllLie text c₁)
      ((if c₁.atChar? ')' then pure [] else arguments) c₁) := by
    split
    · exact Lands.pure hc₁ ⟨by simp, .nil⟩
    · exact ha c₁ hc₁
  refine hargs.bind fun args c₂ hc₂ hle₂ hlie => ?_
  refine (Lands.expectChar hc₂).bind fun close c₃ hc₃ hle₃ hclose => ?_
  obtain ⟨hclose, hfirst, hlast⟩ := hclose
  have hbehind : start.stop.offset ≤ close.start.offset := by omega
  refine (Lands.check hc₃ fun e he => ?_).bind fun ty c₄ hc₄ _ hsame => ?_
  · rcases Typing.span_of_call he with hwhole | ⟨a, hmem, harg⟩
    · rw [hwhole]
      exact .inl (hstart.through hclose hbehind).2
    · rw [harg]
      exact .inl (hlie.lies a hmem).nested.sits.onTokens
  · subst hsame
    have hparts : ∀ a ∈ args, a.Nested text ∧ start.start.offset ≤ a.span.start.offset ∧
        a.span.stop.offset ≤ close.stop.offset := by
      intro a hmem
      obtain ⟨hnested, hstart', hstop'⟩ := hlie.lies a hmem
      have := hstart.lt
      have := hclose.lt
      exact ⟨hnested, by omega, by omega⟩
    obtain ⟨hnested, hspan⟩ := Nested.joined (e := .call name args ⟨ty, start.through close⟩) rfl
      hstart hclose hbehind hparts hlie.apart
    refine Lands.pure hc₄ ⟨hnested, ?_, ?_⟩
    · rw [hspan]
    · rw [hspan]
      exact hlast

theorem named_lands {name : String} (ha : Places text (Expr.AllLie text) arguments)
    (hc : c.Stands text) (hk : c.current.kind ≠ .eof) :
    Lands text c (Expr.Lies text c) (named ctx name c.current.span arguments c) := by
  refine (Lands.advance hc).bind fun _ c₁ hc₁ _ hstop => ?_
  rw [run_get_bind]
  split
  · refine (callOf_lands ha hc₁ (hc.onTokens hk) hstop).imp fun e c' h => ?_
    obtain ⟨hnested, hstart, hend⟩ := h
    refine ⟨hnested, ?_, hend⟩
    rw [hstart]
    rfl
  · refine (Lands.check hc₁ fun e he => ?_).bind fun ty c₂ hc₂ _ hsame => ?_
    · rw [Typing.span_of_var he]
      exact hc.shown
    · subst hsame
      exact Lands.pure hc₂ ⟨.leaf (hc.onTokens hk) rfl, le_refl _, hstop⟩

theorem parenthesised_lands (hw : Places text (Expr.Lies text) whole) (hc : c.Stands text) :
    Lands text c (Expr.Lies text c) (parenthesised whole c) := by
  refine (Lands.advance hc).bind fun _ c₁ hc₁ hle₁ _ => ?_
  refine (hw c₁ hc₁).bind fun e c₂ hc₂ _ he => ?_
  refine (Lands.expectChar hc₂).bind fun _ c₃ hc₃ hle₃ _ => ?_
  obtain ⟨hnested, hstart, hstop⟩ := he
  exact Lands.pure hc₃ ⟨hnested, hle₁.trans hstart, hstop.trans hle₃⟩

theorem conditional_lands (hw : Places text (Expr.Lies text) whole) (hc : c.Stands text)
    (hk : c.current.kind ≠ .eof) :
    Lands text c (Expr.Lies text c) (conditional c.current.span whole c) := by
  refine (Lands.advance hc).bind fun _ c₁ hc₁ _ hfirst => ?_
  refine (hw c₁ hc₁).bind fun condition c₂ hc₂ _ hcond => ?_
  refine (Lands.expect hc₂ (by simp) rfl).bind fun _ c₃ hc₃ hle₃ _ => ?_
  refine (hw c₃ hc₃).bind fun onTrue c₄ hc₄ _ htrue => ?_
  refine (Lands.expect hc₄ (by simp) rfl).bind fun _ c₅ hc₅ hle₅ _ => ?_
  refine (hw c₅ hc₅).bind fun onFalse c₆ hc₆ _ hfalse => ?_
  obtain ⟨hcond, hcond₁, hcond₂⟩ := hcond
  obtain ⟨htrue, htrue₁, htrue₂⟩ := htrue
  obtain ⟨hfalse, hfalse₁, hfalse₂⟩ := hfalse
  have hif := hc.onTokens hk
  have hltc := hcond.sits.onTokens.lt
  have hltt := htrue.sits.onTokens.lt
  have hbehind : onTrue.span.stop.offset ≤ onFalse.span.start.offset := by omega
  refine (Lands.check hc₆ fun e he => ?_).bind fun ty c₇ hc₇ _ hsame => ?_
  · rw [Typing.span_of_conditional he]
    exact .inl (htrue.sits.onTokens.through hfalse.sits.onTokens hbehind).2
  · subst hsame
    have hlti := hif.lt
    have hltf := hfalse.sits.onTokens.lt
    have hparts : ∀ p ∈ [condition, onTrue, onFalse], p.Nested text ∧
        c.current.span.start.offset ≤ p.span.start.offset ∧
        p.span.stop.offset ≤ onFalse.span.stop.offset := by
      refine List.forall_mem_cons.2 ⟨⟨hcond, by omega, by omega⟩, ?_⟩
      refine List.forall_mem_cons.2 ⟨⟨htrue, by omega, by omega⟩, ?_⟩
      exact List.forall_mem_singleton.2 ⟨hfalse, by omega, le_refl _⟩
    have hapart : [condition, onTrue, onFalse].Pairwise fun p q => p.span.Before q.span := by
      have hthen : condition.span.Before onTrue.span := show _ ≤ _ by omega
      have helse : condition.span.Before onFalse.span := show _ ≤ _ by omega
      refine List.pairwise_cons.2 ⟨?_, List.pairwise_pair.2 hbehind⟩
      exact List.forall_mem_cons.2 ⟨hthen, List.forall_mem_singleton.2 helse⟩
    obtain ⟨hnested, hspan⟩ := Nested.joined
      (e := .conditional condition onTrue onFalse ⟨ty, c.current.span.through onFalse.span⟩) rfl
      hif hfalse.sits.onTokens (by omega) hparts hapart
    refine Lands.pure hc₇ ⟨hnested, ?_⟩
    rw [hspan]
    exact ⟨le_refl _, hfalse₂⟩

theorem primaryOf_lands (hw : Places text (Expr.Lies text) whole)
    (ha : Places text (Expr.AllLie text) arguments) :
    Places text (Expr.Lies text) (primaryOf ctx whole arguments) := by
  intro c hc
  rw [primaryOf, run_get_bind]
  cases hvalue : c.current.kind.literal? with
  | some value =>
    refine literal_lands hc fun hk => ?_
    rw [hk] at hvalue
    cases hvalue
  | none =>
    cases hkind : c.current.kind with
    | identifier name => exact named_lands ha hc (by simp [hkind])
    | kwIf => exact conditional_lands hw hc (by simp [hkind])
    | char ch =>
      by_cases hch : ch = '('
      · simp only [hch, if_true]
        exact parenthesised_lands hw hc
      · simp only [hch, if_false]
        exact unexpected_lands hc
    | _ => exact unexpected_lands hc

theorem operator_lands (hc : c.Stands text) : Lands text c (fun _ c' => c' = c) (operator c) := by
  cases h : operator c with
  | ok op c' =>
    obtain ⟨-, rfl⟩ := operator_eq_ok_iff.1 h
    exact ⟨hc, le_refl _, rfl⟩
  | error e c' =>
    unfold operator at h
    split at h
    · split at h
      · cases h
      · cases h
        exact Lands.error hc rfl
    · cases h
      exact Lands.error hc rfl

/-- What is folded onto a left operand starts with it. -/
structure Extends (text : String) (lhs e : Expr) (c' : Cursor) : Prop where
  nested : e.Nested text
  start : e.span.start = lhs.span.start
  stop : e.span.stop.offset ≤ c'.place

/-- The operators behind a left operand that ends in front of the cursor. -/
def Folds (text : String) (fold : Int → Expr → Parse Expr) : Prop :=
  ∀ least lhs c, c.Stands text → lhs.Nested text → lhs.span.stop.offset ≤ c.place →
    Lands text c (Extends text lhs) (fold least lhs c)

theorem operatorsBy_lands {raise : Int → Parse Int} (hr : ∀ p, raise p = pure (p + 1))
    (ho : Places text (Expr.Lies text) operand) (hf : Folds text fold) :
    Folds text (operatorsBy table raise operand fold) := by
  intro least lhs c hc hlhs hbefore
  rw [operatorsBy, run_get_bind]
  split
  · exact Lands.pure hc ⟨hlhs, rfl, hbefore⟩
  · refine (operator_lands hc).bind fun op c₁ hc₁ _ hsame => ?_
    subst hsame
    refine (Lands.advance hc₁).bind fun _ c₂ hc₂ hle₂ _ => ?_
    refine (ho c₂ hc₂).bind fun first c₃ hc₃ _ hfirst => ?_
    -- whatever the right operand is, it is folded on in the same way
    have hclose : ∀ rhs c₄, c₄.Stands text → Expr.Lies text c₂ rhs c₄ →
        Lands text c₄ (Extends text lhs)
          ((do let ty ← Parse.check (Typing.binary op lhs rhs)
               fold least (.binary op lhs rhs ⟨ty, lhs.span.through rhs.span⟩)) c₄) := by
      intro rhs c₄ hc₄ hrhs
      have hbehind : lhs.span.stop.offset ≤ rhs.span.start.offset :=
        hbefore.trans (hle₂.trans hrhs.between.start)
      refine (Lands.check hc₄ fun e he => ?_).bind fun ty c₅ hc₅ _ hsame => ?_
      · rw [Typing.span_of_binary he]
        exact .inl (hlhs.sits.onTokens.through hrhs.nested.sits.onTokens hbehind).2
      · subst hsame
        have hltl := hlhs.sits.onTokens.lt
        have hltr := hrhs.nested.sits.onTokens.lt
        have hparts : ∀ p ∈ [lhs, rhs], p.Nested text ∧ lhs.span.start.offset ≤ p.span.start.offset ∧
            p.span.stop.offset ≤ rhs.span.stop.offset := by
          refine List.forall_mem_cons.2 ⟨⟨hlhs, le_refl _, by omega⟩, ?_⟩
          exact List.forall_mem_singleton.2 ⟨hrhs.nested, by omega, le_refl _⟩
        obtain ⟨hnested, hspan⟩ := Nested.joined
          (e := .binary op lhs rhs ⟨ty, lhs.span.through rhs.span⟩) rfl hlhs.sits.onTokens
          hrhs.nested.sits.onTokens hbehind hparts (List.pairwise_pair.2 hbehind)
        refine (hf least _ c₅ hc₅ hnested ?_).imp fun e c' h => ⟨h.nested, ?_, h.stop⟩
        · rw [hspan]
          exact hrhs.between.stop
        · rw [h.start, hspan]
    rw [run_get_bind]
    split
    · rw [hr]
      refine (hf _ first c₃ hc₃ hfirst.nested hfirst.between.stop).bind fun rhs c₄ hc₄ _ hrhs => ?_
      refine hclose rhs c₄ hc₄ ⟨hrhs.nested, ?_, hrhs.stop⟩
      rw [hrhs.start]
      exact hfirst.between.start
    · exact hclose first c₃ hc₃ hfirst

theorem argumentsOf_lands (hw : Places text (Expr.Lies text) whole)
    (ha : Places text (Expr.AllLie text) arguments) :
    Places text (Expr.AllLie text) (argumentsOf whole arguments) := by
  intro c hc
  refine (hw c hc).bind fun arg c₁ hc₁ hle₁ harg => ?_
  rw [run_get_bind]
  split
  · refine Lands.pure hc₁ ⟨?_, List.pairwise_singleton _ _⟩
    simpa using harg
  · split
    · refine (Lands.advance hc₁).bind fun _ c₂ hc₂ hle₂ _ => ?_
      refine (ha c₂ hc₂).bind fun args c₃ hc₃ hle₃ hargs => Lands.pure hc₃ ⟨?_, ?_⟩
      · refine List.forall_mem_cons.2 ⟨⟨harg.nested, harg.between.start, ?_⟩, fun a hmem => ?_⟩
        · exact harg.between.stop.trans (hle₂.trans hle₃)
        · obtain ⟨hnested, hstart, hstop⟩ := hargs.lies a hmem
          exact ⟨hnested, hle₁.trans (hle₂.trans hstart), hstop⟩
      · refine List.pairwise_cons.2 ⟨fun a hmem => ?_, hargs.apart⟩
        exact harg.between.stop.trans (hle₂.trans (hargs.lies a hmem).between.start)
    · exact Lands.expected hc₁

/-- At the bound of the depth nothing is read. -/
theorem depth_lands {α : Type} {P : α → Cursor → Prop} (hc : c.Stands text) :
    Lands text c P (.error (.grammar (.unexpectedToken c.current.kind c.current.span)) c) :=
  Lands.error hc rfl

/-- **What the readers give stands in the text.**  By induction on the depth of the recursion, for the
four readers at once. -/
theorem readers_land (text : String) (table : PrecedenceTable) (ctx : Context) (fuel : Nat) :
    Places text (Expr.Lies text) (expressionFor table ctx fuel) ∧
    Places text (Expr.Lies text) (primaryFor table ctx fuel) ∧
    Folds text (operatorsFor table ctx fuel) ∧
    Places text (Expr.AllLie text) (argumentsFor table ctx fuel) := by
  induction fuel with
  | zero =>
    exact ⟨fun c hc => depth_lands hc, fun c hc => depth_lands hc, fun _ _ c hc _ _ => depth_lands hc,
      fun c hc => depth_lands hc⟩
  | succ fuel ih =>
    obtain ⟨ihe, ihp, iho, iha⟩ := ih
    refine ⟨fun c hc => ?_, ?_, fun least lhs => ?_, ?_⟩
    · rw [expressionFor]
      refine (ihp c hc).bind fun lhs c₁ hc₁ _ hlhs => ?_
      refine (iho 0 lhs c₁ hc₁ hlhs.nested hlhs.between.stop).imp fun e c' h => ?_
      refine ⟨h.nested, ?_, h.stop⟩
      rw [h.start]
      exact hlhs.between.start
    · rw [primaryFor_succ]
      exact primaryOf_lands ihe iha
    · rw [operatorsFor_succ]
      exact operatorsBy_lands (fun _ => rfl) ihp iho least lhs
    · rw [argumentsFor_succ]
      exact argumentsOf_lands ihe iha

/-- **An expression stands in the text between the cursors in front of it and behind it.** -/
theorem expression_lands (text : String) (table : PrecedenceTable) (ctx : Context) :
    Places text (Expr.Lies text) (expression table ctx) :=
  fun c hc => (readers_land text table ctx c.fuel).1 c hc

end Expr.Reader

/-! ### Reading units -/

/-- The prototype stands at a stretch of the text, with its parameters inside it and one behind the
other. -/
structure Prototype.Sits (text : String) (p : Prototype) : Prop where
  onTokens : p.span.OnTokens text
  params : ∀ q ∈ p.params, q.span.OnTokens text ∧ q.span.Inside p.span
  apart : p.params.Pairwise fun q r => q.span.Before r.span

/-- The body stands behind the prototype. -/
structure Definition.Sits (text : String) (d : Definition) : Prop where
  proto : d.proto.Sits text
  body : d.body.Nested text
  order : d.proto.span.Before d.body.span

/-- The parameters stand between the tokens that two cursors look at, one behind the other. -/
structure Param.AllLie (text : String) (c : Cursor) (params : List Param) (c' : Cursor) : Prop where
  lies : ∀ p ∈ params, p.span.OnTokens text ∧ c.Encloses c' p.span
  apart : params.Pairwise fun p q => p.span.Before q.span

namespace Program

open Parse

variable {text : String} {c : Cursor}

theorem type_lands {what : String} (hc : c.Stands text) :
    Lands text c (fun _ c' => c.current.kind ≠ .eof ∧ c.current.span.stop.offset ≤ c'.place)
      (type what c) := by
  rw [type, run_get_bind]
  cases hk : c.current.kind with
  | kwInt | kwDouble =>
    refine (Lands.advance hc).bind fun _ c₁ hc₁ _ hstop => Lands.pure hc₁ ⟨?_, hstop⟩
    simp
  | _ => exact Lands.expected hc

theorem name_lands {what : String} (hc : c.Stands text) :
    Lands text c (fun r c' => r.2.OnTokens text ∧ c.Encloses c' r.2) (name what c) := by
  rw [name, run_get_bind]
  cases hk : c.current.kind with
  | identifier word =>
    refine (Lands.advance hc).bind fun _ c₁ hc₁ _ hstop => ?_
    exact Lands.pure hc₁ ⟨hc.onTokens (by simp [hk]), le_refl _, hstop⟩
  | _ => exact Lands.expected hc

theorem parameter_lands (hc : c.Stands text) :
    Lands text c (fun p c' => p.span.OnTokens text ∧ c.Encloses c' p.span) (parameter c) := by
  rw [parameter, run_get_bind]
  refine (type_lands hc).bind fun ty c₁ hc₁ _ hty => ?_
  refine (name_lands hc₁).bind fun r c₂ hc₂ _ hname => Lands.pure hc₂ ?_
  obtain ⟨hk, hstop⟩ := hty
  obtain ⟨hname, hbetween⟩ := hname
  obtain ⟨heq, hspan⟩ := (hc.onTokens hk).through hname (hstop.trans hbetween.start)
  refine ⟨hspan, ?_⟩
  show c.Encloses c₂ (c.current.span.through r.2)
  rw [heq]
  exact ⟨le_refl _, hbetween.stop⟩

theorem parametersFor_lands (n : Nat) : Places text (Param.AllLie text) (parametersFor n) := by
  induction n with
  | zero => exact fun c hc => Lands.pure hc ⟨by simp, .nil⟩
  | succ n ih =>
    intro c hc
    refine (parameter_lands hc).bind fun p c₁ hc₁ hle₁ hp => ?_
    rw [run_get_bind]
    split
    · refine (Lands.advance hc₁).bind fun _ c₂ hc₂ hle₂ _ => ?_
      refine (ih c₂ hc₂).bind fun params c₃ hc₃ hle₃ hparams => Lands.pure hc₃ ⟨?_, ?_⟩
      · refine List.forall_mem_cons.2 ⟨⟨hp.1, hp.2.start, hp.2.stop.trans (hle₂.trans hle₃)⟩, fun q hq => ?_⟩
        obtain ⟨hspan, hstart, hstop⟩ := hparams.lies q hq
        exact ⟨hspan, hle₁.trans (hle₂.trans hstart), hstop⟩
      · refine List.pairwise_cons.2 ⟨fun q hq => ?_, hparams.apart⟩
        exact hp.2.stop.trans (hle₂.trans (hparams.lies q hq).2.start)
    · exact Lands.pure hc₁ ⟨List.forall_mem_singleton.2 hp, List.pairwise_singleton _ _⟩

theorem prototype_lands (hc : c.Stands text) :
    Lands text c (fun p c' => p.Sits text ∧ c.Encloses c' p.span) (prototype c) := by
  rw [prototype, run_get_bind]
  refine (type_lands hc).bind fun ret c₁ hc₁ _ hret => ?_
  refine (name_lands hc₁).bind fun r c₂ hc₂ hle₂ _ => ?_
  refine (Lands.expectChar hc₂).bind fun _ c₃ hc₃ hle₃ _ => ?_
  rw [run_get_bind, ← ite_bind]
  have hparams : Lands text c₃ (Param.AllLie text c₃)
      ((if c₃.atChar? ')' then pure [] else parameters) c₃) := by
    split
    · exact Lands.pure hc₃ ⟨by simp, .nil⟩
    · exact parametersFor_lands _ c₃ hc₃
  refine hparams.bind fun params c₄ hc₄ hle₄ hparams => ?_
  refine (Lands.expectChar hc₄).bind fun close c₅ hc₅ _ hclose => Lands.pure hc₅ ?_
  obtain ⟨hk, hstop⟩ := hret
  obtain ⟨hclose, hbetween⟩ := hclose
  have hfirst := (hc.onTokens hk).lt
  have hlast := hclose.lt
  have hopen := hbetween.start
  obtain ⟨heq, hspan⟩ := (hc.onTokens hk).through hclose (by omega)
  have hspan_eq : (⟨r.1, params, ret, c.current.span.through close⟩ : Prototype).span =
      ⟨c.current.span.start, close.stop⟩ := heq
  refine ⟨⟨hspan, fun q hq => ?_, hparams.apart⟩, ?_⟩
  · obtain ⟨hq, hstart', hstop'⟩ := hparams.lies q hq
    rw [hspan_eq]
    refine ⟨hq, ?_, ?_⟩
    · show c.current.span.start.offset ≤ q.span.start.offset
      omega
    · show q.span.stop.offset ≤ close.stop.offset
      omega
  · rw [hspan_eq]
    exact ⟨le_refl _, hbetween.stop⟩

/-- **A definition stands in the text, its body behind its prototype.** -/
theorem definition_lands (text : String) (table : PrecedenceTable) (sigs : Signatures) :
    Places text (fun _ d _ => d.Sits text) (definition table sigs) := by
  intro c hc
  refine (Lands.expect hc (by simp) rfl).bind fun _ c₁ hc₁ _ _ => ?_
  refine (prototype_lands hc₁).bind fun proto c₂ hc₂ _ hproto => ?_
  refine (Lands.check hc₂ fun e he => ?_).bind fun scope c₃ hc₃ _ hsame => ?_
  · obtain ⟨p, hp, hspan⟩ := Scope.span_of_ofPrototype he
    rw [hspan]
    exact .inl (hproto.1.params p hp).1
  subst hsame
  refine (Expr.Reader.expression_lands text table _ c₃ hc₃).bind fun body c₄ hc₄ _ hbody => ?_
  refine (Lands.check hc₄ fun e he => ?_).bind fun _ c₅ hc₅ _ _ => ?_
  · rw [Typing.span_of_definition he]
    exact .inl hbody.nested.sits.onTokens
  · exact Lands.pure hc₅ ⟨hproto.1, hbody.nested, hproto.2.stop.trans hbody.between.start⟩

/-- **An expression of its own stands in the text**, and its prototype with it. -/
theorem topLevel_lands (text : String) (table : PrecedenceTable) (sigs : Signatures) :
    Places text (fun _ d _ => d.body.Nested text ∧ d.proto = .anonymous d.body.span)
      (topLevel table sigs) := by
  intro c hc
  refine (Expr.Reader.expression_lands text table _ c hc).bind fun body c₁ hc₁ _ hbody => ?_
  refine (Lands.check hc₁ fun e he => ?_).bind fun _ c₂ hc₂ _ _ => ?_
  · rw [Typing.span_of_definition he]
    exact .inl hbody.nested.sits.onTokens
  · exact Lands.pure hc₂ ⟨hbody.nested, rfl⟩

end Program

/-! ### The cursors of a text -/

/-- A reader of units: of definitions or of expressions, with any precedences and signatures. -/
inductive Program.UnitReader : Parse Definition → Prop
  | definition (table : PrecedenceTable) (sigs : Signatures) : UnitReader (definition table sigs)
  | topLevel (table : PrecedenceTable) (sigs : Signatures) : UnitReader (topLevel table sigs)

namespace Cursor

variable {text : String} {c c' : Cursor} {p : Parse Definition}

/-- The cursors that reading a text leads to: the one in front of the text, those behind another item,
and those that a reader of units leaves behind, whether it succeeds or fails. -/
inductive Visited (text : String) : Cursor → Prop
  | start : Visited text (ofText text)
  | step {c : Cursor} (h : Visited text c) : Visited text c.step
  | read {c c' : Cursor} {p : Parse Definition} {d : Definition} (h : Visited text c)
      (hp : Program.UnitReader p) (hr : p c = .ok d c') : Visited text c'
  | failed {c c' : Cursor} {p : Parse Definition} {e : InputError} (h : Visited text c)
      (hp : Program.UnitReader p) (hr : p c = .error e c') : Visited text c'

/-- The cursor stands in the text, or it looks at nothing yet and has the last items of the text ahead. -/
def Comes (text : String) (c : Cursor) : Prop :=
  c.Stands text ∨ c.current.kind = .eof ∧ c.ahead ++ [.ok c.final] <:+ items text

theorem comes_ofText (text : String) : (ofText text).Comes text := by
  refine .inr ⟨rfl, ?_⟩
  rw [items_eq_contents]

theorem comes_stable : Stable (Comes text) := by
  intro c hc
  rcases hc with hc | ⟨hk, hahead⟩
  · exact .inl (stands_stable c hc)
  · unfold step
    split
    · next h => exact .inl (Stands.of_final hahead h)
    · next t ahead h =>
      rw [h, List.cons_append] at hahead
      exact .inl (Stands.of_suffix hahead)
    · next e ahead h =>
      rw [h, List.cons_append] at hahead
      exact .inr ⟨hk, (List.suffix_cons _ _).trans hahead⟩

end Cursor

namespace Program

open Parse

variable {text : String} {c c' : Cursor} {p : Parse Definition}

/-- No unit starts with the end of a text. -/
theorem UnitReader.of_eof (hp : UnitReader p) (hk : c.current.kind = .eof) : ∃ e, p c = .error e c := by
  cases hp with
  | definition table sigs =>
    have hdef : Parse.expect .kwDef "'def'" c = .error (c.expected "'def'") c := by
      rw [Parse.expect, run_get_bind, Cursor.at?, hk]
      rfl
    exact ⟨_, run_bind_of_error hdef⟩
  | topLevel table sigs =>
    have hprimary : Expr.Reader.expression table ⟨sigs, {}, none⟩ c =
        .error (.grammar (.unexpectedToken c.current.kind c.current.span)) c := by
      show Expr.Reader.expressionFor table ⟨sigs, {}, none⟩ ((4 * c.ahead.length + 6) + 1 + 1) c = _
      rw [Expr.Reader.expressionFor]
      refine run_bind_of_error ?_
      rw [Expr.Reader.primaryFor_succ, Expr.Reader.primaryOf, run_get_bind]
      simp only [hk, Kind.literal?]
      rw [Expr.Reader.unexpected, hk]
      rfl
    exact ⟨_, run_bind_of_error hprimary⟩

/-- The prototype of a unit stands in the text. -/
theorem UnitReader.lands (hp : UnitReader p) (text : String) :
    Places text (fun _ d _ => d.proto.span.OnTokens text) p := by
  intro c hc
  cases hp with
  | definition table sigs => exact (definition_lands text table sigs c hc).imp fun d _ h => h.proto.onTokens
  | topLevel table sigs =>
    refine (topLevel_lands text table sigs c hc).imp fun d _ h => ?_
    show d.proto.span.OnTokens text
    rw [h.2]
    exact h.1.sits.onTokens

/-- All cursors of a text stand in it, unless they look at nothing yet. -/
theorem comes_of_visited (h : c.Visited text) : c.Comes text := by
  induction h with
  | start => exact Cursor.comes_ofText text
  | step _ ih => exact Cursor.comes_stable _ ih
  | read _ hp hr ih =>
    rcases ih with hc | ⟨hk, -⟩
    · have hlands := hp.lands text _ hc
      rw [hr] at hlands
      exact .inl hlands.1
    · obtain ⟨e, he⟩ := hp.of_eof hk
      rw [he] at hr
      cases hr
  | failed _ hp hr ih =>
    rcases ih with hc | ⟨hk, hahead⟩
    · have hlands := hp.lands text _ hc
      rw [hr] at hlands
      exact .inl hlands.1
    · obtain ⟨e, he⟩ := hp.of_eof hk
      rw [he] at hr
      cases hr
      exact .inr ⟨hk, hahead⟩

/-- A unit that is read starts at a token of the text. -/
theorem UnitReader.stands_of_ok (hp : UnitReader p) {d : Definition} (hc : c.Comes text)
    (hr : p c = .ok d c') : c.Stands text := by
  rcases hc with hc | ⟨hk, -⟩
  · exact hc
  · obtain ⟨e, he⟩ := hp.of_eof hk
    rw [he] at hr
    cases hr

/-- **The spans of a unit nest.**  Whatever was read from the text before, with whatever precedences and
signatures, every node of a definition or an expression that is read stands at a stretch of the text that
is not empty, from the start of a token to the end of one.  Its parts stand inside it and one behind the
other.  The parameters of a definition stand so inside its prototype, and the body behind the prototype. -/
theorem spans_nest (hc : c.Visited text) (table : PrecedenceTable) (sigs : Signatures) :
    (∀ d c', definition table sigs c = .ok d c' → d.Sits text) ∧
      ∀ d c', topLevel table sigs c = .ok d c' →
        d.body.Nested text ∧ d.proto = .anonymous d.body.span := by
  have hcomes := comes_of_visited hc
  refine ⟨fun d c' hr => ?_, fun d c' hr => ?_⟩
  · have hlands := definition_lands text table sigs c ((UnitReader.definition table sigs).stands_of_ok hcomes hr)
    rw [hr] at hlands
    exact hlands.2.2
  · have hlands := topLevel_lands text table sigs c ((UnitReader.topLevel table sigs).stands_of_ok hcomes hr)
    rw [hr] at hlands
    exact hlands.2.2

/-- A definition over three lines behind a malformed literal, with parentheses around an operand. -/
theorem spans_nest_lines :
    let text := "1. def int f(int a,\nint b) (a) *\nf(b, if a then 1 else b)"
    let c := (Cursor.ofText text).step.step
    c.Visited text ∧ ∃ d c', definition .standard (fun _ => none) c = .ok d c' ∧ d.Sits text := by
  have hread : ∀ text,
      ((definition .standard fun _ => none).run' (Cursor.ofText text).step.step).isSome = true →
      (Cursor.ofText text).step.step.Visited text ∧ ∃ d c',
        definition .standard (fun _ => none) (Cursor.ofText text).step.step = .ok d c' ∧ d.Sits text := by
    intro text hok
    have hc : (Cursor.ofText text).step.step.Visited text := .step (.step .start)
    cases hr : definition .standard (fun _ => none) (Cursor.ofText text).step.step with
    | ok d c' => exact ⟨hc, d, c', rfl, (spans_nest hc .standard fun _ => none).1 d c' hr⟩
    | error e c' =>
      rw [EStateM.run', EStateM.run, hr] at hok
      cases hok
  exact hread _ (by decide +kernel)

end Program

end ScalarLang
