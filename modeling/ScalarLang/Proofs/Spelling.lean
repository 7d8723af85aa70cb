import ScalarLang.Proofs.Lexing
import ScalarLang.Proofs.Moves

/-!
# Tokens written with spaces between them

A token can be written as a word that reads back as the token when it stands alone: a name as itself, a
number in decimal.  Neither a space nor a semicolon goes on with any word, so words with spaces between
them read back as the tokens, one for each word.

* `Token.Kind.Written` — the words for a token.
* `Token.Kind.Written.standsAs` — such a word is read as the token in front of a space or a semicolon.
* `Lexer.contents_words` — words with spaces between them are read as the tokens.
-/

namespace ScalarLang

open Token (Kind)

/-! ### Words -/

/-- The lexer reads the whole text as one token of this kind. -/
def Token.Kind.ReadFrom (kind : Kind) (text : String) : Prop :=
  (Lexer.ofText text).next.1 = .ok ⟨kind, ⟨.origin, Position.origin.afterAll text.toList⟩⟩

/-- The words for a token.  Integers are written in decimal, and doubles in any way that reads back. -/
inductive Token.Kind.Written : Kind → String → Prop
  | reserved {word : String} {kind : Kind} (h : (word, kind) ∈ Kind.reserved) : Written kind word
  | name {word : String} (h : IsWord word.toList) (hr : ∀ kind, (word, kind) ∉ Kind.reserved) :
      Written (.identifier word) word
  | int {value : Int64} (h : 0 ≤ value.toInt) : Written (.intLiteral value) value.toInt.repr
  | double {value : Double} {text : String} (h : (Kind.floatLiteral value).ReadFrom text) :
      Written (.floatLiteral value) text
  | operator (op : Operator) : Written (.operator op.symbol) op.symbol
  | char {c : Char} (h : IsOther c) : Written (.char c) c.toString

/-- No word goes on with what starts like this. -/
def Separates (after : List Char) : Prop := ∀ c ∈ after.head?, c = ' ' ∨ c = ';'

/-- The characters are read as one token wherever they start and something separates them from what
follows. -/
structure StandsAs (word : List Char) (kind : Kind) : Prop where
  start : ∀ c ∈ word.head?, isBlank c = false ∧ c ≠ '#'
  ne_nil : word ≠ []
  lexeme : ∀ after, Separates after → lexeme (word ++ after) = word
  item : ∀ span, itemOf word span = .ok ⟨kind, span⟩

namespace Separates

variable {after : List Char}

theorem not_isAlphanum (h : Separates after) : ∀ c ∈ after.head?, c.isAlphanum = false := by
  intro c hc
  rcases h c hc with rfl | rfl <;> decide

theorem not_isOperatorChar (h : Separates after) :
    ∀ c ∈ after.head?, isOperatorChar c = false := by
  intro c hc
  rcases h c hc with rfl | rfl <;> decide

theorem next?_eq_none (h : Separates after) (s : Literal.State) :
    ∀ c ∈ after.head?, s.next? c = none := by
  intro c hc
  rcases h c hc with rfl | rfl <;> cases s <;> decide

end Separates

/-- All characters of one class in front of one that is not in it. -/
theorem takeWhile_append_eq {P : Char → Bool} {word after : List Char} (hw : ∀ c ∈ word, P c = true)
    (ha : ∀ c ∈ after.head?, P c = false) : (word ++ after).takeWhile P = word := by
  rw [List.takeWhile_append_of_pos hw]
  cases after with
  | nil => simp
  | cons c after => simp [ha c rfl]

theorem isBlank_of_visible {c : Char} (h : 0x21 ≤ c.toNat) (h' : c.toNat ≤ 0x7E) :
    isBlank c = false := by
  simp only [isBlank, blankRanges, List.any_cons, List.any_nil, Bool.or_false, Bool.or_eq_false_iff,
    Bool.and_eq_false_iff, decide_eq_false_iff_not]
  omega

theorem isAlpha_iff {c : Char} :
    c.isAlpha = true ↔ 65 ≤ c.toNat ∧ c.toNat ≤ 90 ∨ 97 ≤ c.toNat ∧ c.toNat ≤ 122 := by
  simp only [Char.isAlpha, Char.isUpper, Char.isLower, Bool.or_eq_true, Bool.and_eq_true,
    decide_eq_true_eq, ge_iff_le, UInt32.le_iff_toNat_le]
  exact Iff.rfl

theorem isDigit_iff {c : Char} : c.isDigit = true ↔ 48 ≤ c.toNat ∧ c.toNat ≤ 57 :=
  Char.isDigit_iff_toNat

/-- Letters and digits start no filler. -/
theorem starts_of_isAlphanum {c : Char} (h : c.isAlphanum = true) : isBlank c = false ∧ c ≠ '#' := by
  rw [Char.isAlphanum, Bool.or_eq_true, isAlpha_iff, isDigit_iff] at h
  refine ⟨isBlank_of_visible (by omega) (by omega), ?_⟩
  rintro rfl
  exact absurd h (by decide)

theorem standsAs_word {word : List Char} (h : IsWord word) :
    StandsAs word (.ofWord (String.ofList word)) := by
  obtain ⟨c, cs, rfl, hc, hcs⟩ := h
  have hstart : isWordStart c = true := hc
  have hall : ∀ d ∈ c :: cs, isWordChar d = true := by
    refine List.forall_mem_cons.2 ⟨?_, hcs⟩
    rw [isWordChar, Char.isAlphanum, hc, Bool.true_or]
  refine ⟨?_, by simp, fun after ha => ?_, fun span => ?_⟩
  · intro d hd
    cases hd
    exact starts_of_isAlphanum (hall c List.mem_cons_self)
  · rw [List.cons_append, ScalarLang.lexeme, if_pos hstart, ← List.cons_append]
    exact takeWhile_append_eq hall ha.not_isAlphanum
  · rw [itemOf, if_pos hstart]

theorem standsAs_number {word : List Char} {s : Literal.State} {value : Literal.Value}
    (h : IsNumberStart word) (hrun : Literal.State.run? .start word = some s)
    (hv : (⟨s, String.ofList word⟩ : Recognizer).value = .ok value) : StandsAs word value.kind := by
  obtain ⟨⟨c, hc, hstart⟩, -⟩ := h
  obtain ⟨cs, rfl⟩ : ∃ cs, word = c :: cs := List.head?_eq_some_iff.1 hc
  have hnumber : isNumberStart c = true := by simpa [isNumberStart] using hstart
  have hword : ¬ isWordStart c = true := by
    rw [isWordStart, isAlpha_iff]
    rcases hstart with hd | rfl
    · rw [isDigit_iff] at hd
      omega
    · decide
  have hread : ∀ after, Separates after → ({} : Recognizer).readAll (c :: cs ++ after) =
      (⟨s, String.ofList (c :: cs)⟩, after) := by
    intro after ha
    simpa using Recognizer.readAll_eq "" hrun (ha.next?_eq_none s)
  refine ⟨?_, by simp, fun after ha => ?_, fun span => ?_⟩
  · intro d hd
    cases hd
    rcases hstart with hd | rfl
    · exact starts_of_isAlphanum (by rw [Char.isAlphanum, hd, Bool.or_true])
    · exact ⟨by decide, by decide⟩
  · rw [List.cons_append, ScalarLang.lexeme, if_neg hword, if_pos hnumber, ← List.cons_append,
      hread after ha, String.toList_ofList]
  · have hwhole := hread [] (by simp [Separates])
    rw [List.append_nil] at hwhole
    rw [itemOf, if_neg hword, if_pos hnumber, hwhole, numberItem, hv]
    cases value <;> rfl

theorem standsAs_symbol {word : List Char} (h : IsSymbol word) :
    StandsAs word (.operator (String.ofList word)) := by
  obtain ⟨hne, hall⟩ := h
  obtain ⟨c, cs, rfl⟩ := List.exists_cons_of_ne_nil hne
  have hsymbol := hall c List.mem_cons_self
  obtain ⟨hblank, hhash, hword, hnumber⟩ : isBlank c = false ∧ c ≠ '#' ∧ ¬ isWordStart c = true ∧
      ¬ isNumberStart c = true := by
    have hmem : c ∈ operatorChars := List.contains_iff_mem.1 hsymbol
    simp only [operatorChars, List.mem_cons, List.not_mem_nil, or_false] at hmem
    rcases hmem with rfl | rfl | rfl | rfl | rfl | rfl | rfl | rfl <;> decide
  refine ⟨?_, hne, fun after ha => ?_, fun span => ?_⟩
  · intro d hd
    cases hd
    exact ⟨hblank, hhash⟩
  · rw [List.cons_append, ScalarLang.lexeme, if_neg hword, if_neg hnumber, if_pos hsymbol,
      ← List.cons_append]
    exact takeWhile_append_eq hall ha.not_isOperatorChar
  · rw [itemOf, if_neg hword, if_neg hnumber, if_pos hsymbol]

theorem IsOther.starts_no_run {c : Char} (h : IsOther c) :
    ¬ isWordStart c = true ∧ ¬ isNumberStart c = true ∧ ¬ isOperatorChar c = true :=
  ⟨Bool.eq_false_iff.1 h.letter, by simp [isNumberStart, h.digit, h.point],
    Bool.eq_false_iff.1 h.symbol⟩

theorem lexeme_other {c : Char} {after : List Char} (h : IsOther c) : lexeme (c :: after) = [c] := by
  obtain ⟨hword, hnumber, hsymbol⟩ := h.starts_no_run
  rw [lexeme, if_neg hword, if_neg hnumber, if_neg hsymbol]

theorem itemOf_other {c : Char} {span : Span} (h : IsOther c) :
    itemOf [c] span = .ok ⟨.char c, span⟩ := by
  obtain ⟨hword, hnumber, hsymbol⟩ := h.starts_no_run
  rw [itemOf, if_neg hword, if_neg hnumber, if_neg hsymbol]

theorem standsAs_other {c : Char} (h : IsOther c) : StandsAs [c] (.char c) := by
  refine ⟨?_, by simp, fun after _ => lexeme_other h, fun span => itemOf_other h⟩
  intro d hd
  cases hd
  exact ⟨h.blank, h.comment⟩

/-! ### Words for tokens -/

/-- A number in decimal is a row of digits that denotes it. -/
theorem isDigits_repr (n : Nat) : Literal.IsDigits n.repr.toList ∧ Literal.decimal n.repr.toList = n := by
  rw [Nat.toList_repr]
  refine ⟨⟨Nat.toDigits_ne_nil, fun c hc => ?_⟩, ?_⟩
  · exact Nat.isDigit_of_mem_toDigits (by decide) (by decide) hc
  · rw [← Literal.digitsValue_eq_decimal]
    exact Nat.ofDigitChars_ten_toDigits

theorem isWord_of_reserved {word : String} {kind : Kind} (h : (word, kind) ∈ Kind.reserved) :
    IsWord word.toList := by
  simp only [Kind.reserved, List.mem_cons, Prod.mk.injEq, List.not_mem_nil, or_false] at h
  rcases h with ⟨rfl, -⟩ | ⟨rfl, -⟩ | ⟨rfl, -⟩ | ⟨rfl, -⟩ | ⟨rfl, -⟩ | ⟨rfl, -⟩ <;>
    exact ⟨_, _, rfl, by decide, List.all_eq_true.1 (by decide)⟩

theorem isSymbol_symbol (op : Operator) : IsSymbol op.symbol.toList := by
  cases op <;> exact ⟨by simp [Operator.symbol], List.all_eq_true.1 (by decide)⟩

/-- An integer in decimal is read as the integer. -/
theorem standsAs_int {value : Int64} (h : 0 ≤ value.toInt) :
    StandsAs value.toInt.repr.toList (.intLiteral value) := by
  obtain ⟨hdigits, hdecimal⟩ := isDigits_repr value.toInt.toNat
  rw [Int.repr_eq_if, if_pos h]
  have hrun := Literal.State.run?_eq_integerDigits_iff.2 hdigits
  have hstart : IsNumberStart value.toInt.toNat.repr.toList := by
    obtain ⟨c, cs, hcs⟩ := List.exists_cons_of_ne_nil hdigits.1
    refine ⟨⟨c, by rw [hcs]; rfl, .inl (hdigits.2 c (by rw [hcs]; exact List.mem_cons_self))⟩, ?_⟩
    rw [← Literal.State.run?_isSome_iff, hrun]
    rfl
  have hvalue := (Recognizer.value_eq hrun).1 hdigits
  have hfits : value.toInt.toNat < 2 ^ 63 := by
    have := value.toInt_lt
    omega
  rw [hdecimal, if_pos hfits, ← Int64.ofInt_eq_ofNat, Int.toNat_of_nonneg h, Int64.ofInt_toInt]
    at hvalue
  exact standsAs_number hstart hrun hvalue

/-- What reads back as one token is all one item. -/
theorem Token.Kind.ReadFrom.spells {kind : Kind} {text : String} (h : kind.ReadFrom text)
    (hk : kind ≠ .eof) : ∃ span, Spells [] span text.toList (.ok ⟨kind, span⟩) := by
  unfold ReadFrom at h
  rcases (Lexer.ofText text).exists_next with
    ⟨filler, slice, after, item, hrest, -, hs, hnext⟩ | ⟨-, hnext⟩
  · rw [hnext] at h
    obtain rfl : item = _ := h
    have hrest : text.toList = filler ++ (slice ++ after) := hrest
    have hs : Spells after
        ⟨Position.origin.afterAll filler, Position.origin.afterAll (filler ++ slice)⟩ slice _ := hs
    have hspan : (⟨.origin, Position.origin.afterAll text.toList⟩ : Span) =
        ⟨Position.origin.afterAll filler, Position.origin.afterAll (filler ++ slice)⟩ :=
      hs.itemSpan_eq
    obtain ⟨hstart, hstop⟩ := Span.mk.inj hspan
    -- neither filler in front of the item nor text behind it takes a byte
    have hfiller : filler = [] := by
      by_contra hne
      have := Position.origin.offset_lt_afterAll hne
      rw [← hstart] at this
      omega
    have hafter : after = [] := by
      by_contra hne
      have := (Position.origin.afterAll (filler ++ slice)).offset_lt_afterAll hne
      rw [← Position.afterAll_append, List.append_assoc, ← hrest, hstop] at this
      omega
    rw [hafter, hfiller, List.nil_append, List.append_nil] at hrest
    rw [← hspan, hafter, ← hrest] at hs
    exact ⟨_, hs⟩
  · rw [hnext] at h
    simp only [Except.ok.injEq, Token.mk.injEq] at h
    exact absurd h.1.symm hk

/-- A text that reads back as a double is a literal for it. -/
theorem standsAs_double {value : Double} {text : String}
    (h : (Kind.floatLiteral value).ReadFrom text) : StandsAs text.toList (.floatLiteral value) := by
  obtain ⟨span, hspells⟩ := h.spells (by simp)
  generalize text.toList = word at hspells ⊢
  cases hspells with
  | reserved _ hk => simp [Kind.reserved] at hk
  | @double _ n e hlong hd hv =>
    obtain ⟨s, hrun⟩ := Option.isSome_iff_exists.1 (Literal.State.run?_isSome_iff.2 hlong.1.2)
    exact standsAs_number hlong.1 hrun ((Recognizer.value_eq hrun).2.1 n e hd hv)

/-- **A word for a token is read as the token.** -/
theorem Token.Kind.Written.standsAs {kind : Kind} {word : String} (h : kind.Written word) :
    StandsAs word.toList kind := by
  cases h with
  | reserved h =>
    have hword := standsAs_word (isWord_of_reserved h)
    rw [String.ofList_toList, Kind.ofWord, mem_reserved_iff.2 h] at hword
    exact hword
  | name h hr =>
    have hword := standsAs_word h
    have hnone : Kind.ofReserved? word = none := by
      rw [Option.eq_none_iff_forall_ne_some]
      exact fun kind hkind => hr kind (mem_reserved_iff.1 hkind)
    rw [String.ofList_toList, Kind.ofWord, hnone] at hword
    exact hword
  | int h => exact standsAs_int h
  | double h => exact standsAs_double h
  | operator op =>
    have hsymbol := standsAs_symbol (isSymbol_symbol op)
    rwa [String.ofList_toList] at hsymbol
  | char h =>
    have hchar := standsAs_other h
    rwa [← String.toList_singleton] at hchar

theorem Token.Kind.Written.ne_eof {kind : Kind} {word : String} (h : kind.Written word) :
    kind ≠ .eof := by
  cases h with
  | reserved h =>
    rintro rfl
    simp [Kind.reserved] at h
  | _ => simp

/-! ### What a cursor is given -/

namespace Lexer

variable {lx lx' : Lexer} {n : Nat}

theorem contentsFor_of_next {item : Item} (h : lx.next = (item, lx')) (hend : isEnd item = false) :
    lx.contentsFor (n + 1) = (item :: (lx'.contentsFor n).1, (lx'.contentsFor n).2) := by
  rw [contentsFor, h]
  cases item with
  | error e => rfl
  | ok token =>
    have hk : ¬ token.kind = .eof := by simpa [isEnd] using hend
    simp only [hk, if_false]

theorem contentsFor_of_end {token : Token} (h : lx.next = (.ok token, lx'))
    (hk : token.kind = .eof) : lx.contentsFor (n + 1) = ([], token) := by
  rw [contentsFor, h]
  simp only [hk, if_true]

/-- The end comes last. -/
theorem contentsFor_final (lx : Lexer) (n : Nat) : (lx.contentsFor n).2.kind = .eof := by
  induction n generalizing lx with
  | zero => rfl
  | succ n ih =>
    rcases lx.exists_next with ⟨_, _, _, item, -, -, hs, hnext⟩ | ⟨-, hnext⟩
    · rw [contentsFor_of_next hnext hs.isEnd_eq]
      exact ih _
    · rw [contentsFor_of_end hnext rfl]

/-- It is enough to ask for one more item than there are characters. -/
theorem contentsFor_eq_contents (lx : Lexer) (h : lx.rest.length < n) :
    lx.contentsFor n = lx.contents := by
  rw [contents]
  generalize hk : lx.rest.length = k at h
  induction k using Nat.strong_induction_on generalizing lx n with
  | _ k ih =>
    obtain ⟨n, rfl⟩ : ∃ n', n = n' + 1 := ⟨n - 1, by omega⟩
    rcases lx.exists_next with ⟨filler, slice, after, item, hrest, -, hs, hnext⟩ | ⟨-, hnext⟩
    · have hslice := List.length_pos_iff.2 hs.ne_nil
      rw [hrest, List.length_append, List.length_append] at hk
      rw [contentsFor_of_next hnext hs.isEnd_eq, contentsFor_of_next hnext hs.isEnd_eq,
        ih after.length (by omega) _ rfl (show after.length < n by omega),
        ih after.length (by omega) _ rfl (show after.length < k by omega)]
    · rw [contentsFor_of_end hnext rfl, contentsFor_of_end hnext rfl]

theorem contents_of_next {item : Item} (h : lx.next = (item, lx')) (hend : isEnd item = false)
    (hlt : lx'.rest.length < lx.rest.length) :
    lx.contents = (item :: lx'.contents.1, lx'.contents.2) := by
  rw [contents, contentsFor_of_next h hend, contentsFor_eq_contents lx' hlt]

theorem fillerLength_gap {gap word after : List Char} (hgap : gap = [] ∨ gap = [' '])
    (hne : word ≠ []) (hword : ∀ c ∈ word.head?, isBlank c = false ∧ c ≠ '#') :
    fillerLength false (gap ++ (word ++ after)) = gap.length := by
  obtain ⟨c, cs, rfl⟩ := List.exists_cons_of_ne_nil hne
  obtain ⟨hblank, hhash⟩ := hword c rfl
  have hzero : fillerLength false (c :: cs ++ after) = 0 := by
    simp [fillerLength, hblank, hhash]
  rcases hgap with rfl | rfl
  · exact hzero
  · rw [List.singleton_append, fillerLength, hzero]
    rfl

/-- A word behind at most one space is the next token. -/
theorem next_word {gap word after : List Char} {kind : Kind}
    (hrest : lx.rest = gap ++ (word ++ after)) (hgap : gap = [] ∨ gap = [' '])
    (hword : StandsAs word kind) (hafter : Separates after) :
    lx.next = (.ok ⟨kind, ⟨lx.position.afterAll gap, lx.position.afterAll (gap ++ word)⟩⟩,
      ⟨after, lx.position.afterAll (gap ++ word), lx.position.afterAll gap, lx.finished⟩) := by
  rw [next_eq hrest (hrest ▸ fillerLength_gap hgap hword.ne_nil hword.start)
    (hword.lexeme after hafter), hword.item]

/-- **Words with spaces between them are read as the tokens.** -/
theorem contents_words {kinds : List Kind} {words : List String}
    (h : List.Forall₂ Kind.Written kinds words) (hne : words ≠ []) {gap tail : List Char}
    (hgap : gap = [] ∨ gap = [' ']) (htail : Separates tail)
    (hrest : lx.rest = gap ++ ([' '].intercalate (words.map String.toList) ++ tail)) :
    ∃ (tokens : List Token) (lx' : Lexer), tokens.map Token.kind = kinds ∧ lx'.rest = tail ∧
      lx'.position = lx.position.afterAll (gap ++ [' '].intercalate (words.map String.toList)) ∧
      lx.contents = (tokens.map .ok ++ lx'.contents.1, lx'.contents.2) := by
  induction h generalizing gap lx with
  | nil => exact absurd rfl hne
  | @cons kind word kinds words hk hks ih =>
    have hpos := List.length_pos_iff.2 hk.standsAs.ne_nil
    have hend : ∀ span, isEnd (.ok ⟨kind, span⟩) = false := fun span => by
      simpa [isEnd] using hk.ne_eof
    cases words with
    | nil =>
      cases hks
      rw [List.map_singleton, List.intercalate_singleton] at hrest ⊢
      have hnext := next_word hrest hgap hk.standsAs htail
      refine ⟨[_], _, rfl, rfl, rfl, contents_of_next hnext (hend _) ?_⟩
      rw [hrest]
      simp only [List.length_append]
      omega
    | cons word' words =>
      rw [List.map_cons, List.map_cons, List.intercalate_cons_cons] at hrest ⊢
      rw [← List.map_cons] at hrest ⊢
      have hrest' : lx.rest = gap ++ (word.toList ++ ([' '] ++
          ([' '].intercalate ((word' :: words).map String.toList) ++ tail))) := by
        rw [hrest]
        simp only [List.append_assoc]
      have hnext := next_word hrest' hgap hk.standsAs (by simp [Separates])
      let behind : Lexer := ⟨[' '] ++ ([' '].intercalate ((word' :: words).map String.toList) ++ tail),
        lx.position.afterAll (gap ++ word.toList), lx.position.afterAll gap, lx.finished⟩
      obtain ⟨tokens, lx', htokens, hrest'', hpos', hcontents⟩ :=
        ih (by simp) (.inr rfl) (show behind.rest = _ from rfl)
      refine ⟨⟨kind, ⟨lx.position.afterAll gap, lx.position.afterAll (gap ++ word.toList)⟩⟩ :: tokens,
        lx', ?_, hrest'', ?_, ?_⟩
      · rw [List.map_cons, htokens]
      · rw [hpos']
        simp only [behind, Position.afterAll_append]
      · rw [contents_of_next hnext (hend _), hcontents]
        · rfl
        · rw [hrest']
          simp only [List.length_append]
          omega

end Lexer

end ScalarLang
