import ScalarLang.Proofs.Parsing
import ScalarLang.Proofs.Spelling

/-!
# Definitions are read as they were written

A typed definition that is written down with the parentheses it needs and spaces between its tokens is
read as the definition it was, up to places, whatever the precedences are.  What follows it may be a
semicolon and any text, or nothing; reading stops there.

* `Cursor.consumes_ahead` — a cursor in front of tokens moves over them.
* `Lexer.exists_lookahead` — the token behind a text that a semicolon or the end follows.
* `Program.definition_written` — the round trip.
-/

namespace ScalarLang

open Token (Kind)

theorem Cursor.consumes_ahead {rest : List Item} {final : Token} {c' : Cursor}
    (h : ∀ token, Parse.advance ⟨token, rest, final⟩ = .ok () c') (token : Token)
    (tokens : List Token) :
    (⟨token, tokens.map .ok ++ rest, final⟩ : Cursor).Consumes ((token :: tokens).map Token.kind)
      c' := by
  induction tokens generalizing token with
  | nil => exact .cons ⟨rfl, h token⟩ .nil
  | cons next tokens ih => exact .cons ⟨rfl, rfl⟩ (ih next)

/-- The token behind a text is a semicolon or the end, and reading can move to it. -/
theorem Lexer.exists_lookahead {lx : Lexer} {gap after : List Char} {kind : Kind}
    (hafter : after = [] ∧ kind = .eof ∨ ∃ rest, after = ';' :: rest ∧ kind = .char ';')
    (hgap : gap = [] ∨ gap = [' ']) (hrest : lx.rest = gap ++ after) :
    ∃ c' : Cursor, c'.current.kind = kind ∧ c'.current.span.start = lx.position.afterAll gap ∧
      ∀ token, Parse.advance ⟨token, lx.contents.1, lx.contents.2⟩ = .ok () c' := by
  rcases hafter with ⟨rfl, rfl⟩ | ⟨rest, rfl, rfl⟩
  · have hfiller : fillerLength false lx.rest = gap.length := by
      rcases hgap with rfl | rfl <;> rw [hrest] <;> decide
    have hnext := @next_eq lx gap [] [] hrest hfiller rfl
    have hcontents : lx.contents = ([], _) := contentsFor_of_end hnext rfl
    rw [hcontents]
    exact ⟨⟨_, _, _⟩, rfl, rfl, fun _ => rfl⟩
  · have hother : IsOther ';' :=
      ⟨by decide, by decide, by decide, by decide, by decide, by decide⟩
    have hfiller : fillerLength false lx.rest = gap.length := by
      rw [hrest, ← List.singleton_append]
      exact fillerLength_gap hgap (by simp) (standsAs_other hother).start
    have hnext := @next_eq lx gap [';'] rest hrest hfiller (lexeme_other hother)
    rw [itemOf_other hother] at hnext
    rw [contents_of_next hnext rfl (by simp [hrest]; omega)]
    exact ⟨⟨_, _, _⟩, rfl, rfl, fun _ => rfl⟩

/-- **What is written is read.**  Behind the definition the token that follows it is being looked at. -/
theorem Program.definition_written {table : PrecedenceTable} {sigs : Signatures} {d : Definition}
    {words : List String} {gap after : String} {follow : Kind}
    (htable : ∀ op, 0 < table.strength op) (hd : d.Typed (ownSignatures sigs d.proto))
    (hwords : List.Forall₂ Kind.Written (d.tokens table) words) (hgap : gap = "" ∨ gap = " ")
    (hafter : after = "" ∧ follow = .eof ∨ ∃ rest, after = ";" ++ rest ∧ follow = .char ';') :
    ∃ d' c', (do Parse.advance; definition table sigs)
        (Cursor.ofText (" ".intercalate words ++ gap ++ after)) = .ok d' c' ∧
      d'.bare = d.bare ∧ c'.current.kind = follow ∧
      c'.current.span.start = Position.origin.afterAll (" ".intercalate words ++ gap).toList := by
  have hgap : gap.toList = [] ∨ gap.toList = [' '] := by
    rcases hgap with rfl | rfl
    · exact .inl rfl
    · exact .inr rfl
  have hafter : after.toList = [] ∧ follow = .eof ∨
      ∃ rest, after.toList = ';' :: rest ∧ follow = .char ';' := by
    rcases hafter with ⟨rfl, hfollow⟩ | ⟨rest, rfl, hfollow⟩
    · exact .inl ⟨rfl, hfollow⟩
    · exact .inr ⟨rest.toList, by simp, hfollow⟩
  have htail : Separates (gap.toList ++ after.toList) := by
    rcases hgap with h | h <;> rcases hafter with ⟨h', -⟩ | ⟨rest, h', -⟩ <;>
      simp [Separates, h, h']
  have hrest : (Lexer.ofText (" ".intercalate words ++ gap ++ after)).rest =
      [] ++ ([' '].intercalate (words.map String.toList) ++ (gap.toList ++ after.toList)) := by
    simp [Lexer.ofText, Lexer.ofChars, String.toList_intercalate]
  have hne : words ≠ [] := by
    rintro rfl
    cases hwords
  obtain ⟨tokens, lx', htokens, hrest', hpos, hcontents⟩ :=
    Lexer.contents_words hwords hne (.inl rfl) htail hrest
  obtain ⟨c', hkind, hstart, hmove⟩ := Lexer.exists_lookahead hafter hgap hrest'
  obtain ⟨token, tokens, rfl⟩ : ∃ token tokens', tokens = token :: tokens' := by
    refine List.exists_cons_of_ne_nil ?_
    rintro rfl
    cases htokens
  -- the first token is looked at before the definition is read
  have hfirst : Parse.advance (Cursor.ofText (" ".intercalate words ++ gap ++ after)) =
      .ok () ⟨token, tokens.map .ok ++ lx'.contents.1, lx'.contents.2⟩ := by
    rw [Cursor.ofText, hcontents]
    rfl
  have hconsumes := Cursor.consumes_ahead hmove token tokens
  rw [htokens] at hconsumes
  have hstops : c'.current.kind ≠ .char '(' ∧ ∀ symbol, c'.current.kind ≠ .operator symbol := by
    rw [hkind]
    rcases hafter with ⟨-, rfl⟩ | ⟨-, -, rfl⟩ <;> simp
  obtain ⟨d', hbare, hread⟩ := definition_of_consumes htable hd (Lexer.contentsFor_final _ _) hconsumes
    hstops.1 (Cursor.precedence_neg_of_ne hstops.2)
  refine ⟨d', c', run_bind_eq_ok_iff.2 ⟨(), _, hfirst, hread⟩, hbare, hkind, ?_⟩
  rw [hstart, hpos, ← Position.afterAll_append, String.toList_append, String.toList_intercalate]
  rfl

/-- Both operands of a product need parentheses, and so does the right operand of a difference; the last
branch of a conditional needs none. -/
theorem Program.definition_written_product :
    let tag : Expr.Tag := ⟨.int, .nowhere⟩
    let n : Expr := .var "n" tag
    let five := Double.ofDecimal false 5 0
    let d : Definition :=
      ⟨⟨"f", [⟨"n", .int, .nowhere⟩], .int, .nowhere⟩,
        .binary .mul (.binary .sub n (.binary .sub n (.literal (.int 1) tag) tag) tag)
          (.conditional (.literal (.double five) ⟨.double, .nowhere⟩) (.call "f" [n] tag)
            (.binary .add n (.binary .mul n n tag) tag) tag) tag⟩
    let words := ["def", "int", "f", "(", "int", "n", ")", "(", "n", "-", "(", "n", "-", "1", ")", ")",
      "*", "(", "if", ".5e1", "then", "f", "(", "n", ")", "else", "n", "+", "n", "*", "n", ")"]
    (∀ op, 0 < PrecedenceTable.standard.strength op) ∧
      d.Typed (ownSignatures (fun _ => none) d.proto) ∧
      List.Forall₂ Kind.Written (d.tokens .standard) words ∧
      ∃ d' c', (do Parse.advance; definition .standard fun _ => none)
          (Cursor.ofText (" ".intercalate words ++ " " ++ ";(")) = .ok d' c' ∧
        d'.bare = d.bare ∧ c'.current.kind = .char ';' ∧
        c'.current.span.start = Position.origin.afterAll (" ".intercalate words ++ " ").toList := by
  intro tag n five d words
  have htable : ∀ op, 0 < PrecedenceTable.standard.strength op := by
    intro op
    cases op <;> decide +kernel
  have hd : d.Typed (ownSignatures (fun _ => none) d.proto) := by
    have hn : n.Typed d.proto.params (ownSignatures (fun _ => none) d.proto) := .var rfl rfl
    refine ⟨by simp [d], by simp [d, NumType.isResolved], ?_, rfl⟩
    refine .binary (.binary hn (.binary hn (.literal rfl) rfl rfl) rfl rfl) ?_ rfl rfl
    refine .conditional (.literal rfl) (.call rfl (by simpa using hn) rfl) ?_ rfl rfl
    exact .binary hn (.binary hn hn rfl rfl) rfl rfl
  have hwords : List.Forall₂ Kind.Written (d.tokens .standard) words := by
    have htokens : d.tokens .standard = [.kwDef, .kwInt, .identifier "f", .char '(', .kwInt,
        .identifier "n", .char ')', .char '(', .identifier "n", .operator "-", .char '(',
        .identifier "n", .operator "-", .intLiteral 1, .char ')', .char ')', .operator "*", .char '(',
        .kwIf, .floatLiteral five, .kwThen, .identifier "f", .char '(', .identifier "n", .char ')',
        .kwElse, .identifier "n", .operator "+", .identifier "n", .operator "*", .identifier "n",
        .char ')'] := by decide +kernel
    have hf : (Kind.identifier "f").Written "f" :=
      .name ⟨_, _, rfl, by decide, by simp⟩ (by simp [Kind.reserved])
    have hn : (Kind.identifier "n").Written "n" :=
      .name ⟨_, _, rfl, by decide, by simp⟩ (by simp [Kind.reserved])
    have hopen : (Kind.char '(').Written "(" :=
      .char ⟨by decide, by decide, by decide, by decide, by decide, by decide⟩
    have hclose : (Kind.char ')').Written ")" :=
      .char ⟨by decide, by decide, by decide, by decide, by decide, by decide⟩
    have hone : (Kind.intLiteral 1).Written "1" := @Kind.Written.int 1 (by decide)
    have hfive : (Kind.floatLiteral five).Written ".5e1" :=
      .double (by unfold Kind.ReadFrom; decide +kernel)
    rw [htokens]
    simp only [words, List.forall₂_cons, hf, hn, hopen, hclose, hone, hfive, true_and, and_true,
      List.Forall₂.nil]
    exact ⟨.reserved (by decide), .reserved (by decide), .reserved (by decide), .operator .sub,
      .operator .sub, .operator .mul, .reserved (by decide), .reserved (by decide),
      .reserved (by decide), .operator .add, .operator .mul⟩
  exact ⟨htable, hd, hwords, definition_written htable hd hwords (.inr rfl)
    (.inr ⟨"(", rfl, rfl⟩)⟩

end ScalarLang
