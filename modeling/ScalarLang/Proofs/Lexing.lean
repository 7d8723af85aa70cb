import ScalarLang.Proofs.Literals
import ScalarLang.Proofs.Results
import ScalarLang.Token.Lexer

/-!
# Source texts as filler and items

A source text is cut into items with filler between them: blanks and comments.  Each item is the longest
word, number or operator that starts where it starts, or a single other character, and its characters
decide what it is.  The lexer finds this partition, and the end of the input behind it.

* `Filler`, `LastFiller` — what stands between items, and what can stand behind the last one.
* `Spells` — the item that a stretch of text is, given the text behind it.
* `Partition` — a text as filler and items, each with its place.
* `Lexer.next_eq` — the next item, once its characters are known.
* `Lexer.exists_next` — the next item of any text, or the end.
* `Lexer.exists_partition` — what a lexer gives until it has come to the end.
* `Partition.spans` — the items of a partition stand one behind the other.
* `Lexer.maximal_munch` — the items of a source text are those of its partition.
-/

namespace ScalarLang

/-! ### Filler -/

/-- Blanks and comments; a comment runs from `#` through a newline. -/
inductive Filler : List Char → Prop
  | nil : Filler []
  | blank {c : Char} {cs : List Char} (hc : isBlank c = true) (h : Filler cs) : Filler (c :: cs)
  | comment {body cs : List Char} (hb : '\n' ∉ body) (h : Filler cs) :
      Filler ('#' :: (body ++ '\n' :: cs))

/-- Filler at the end of a text, where the last comment need not have a newline. -/
inductive LastFiller : List Char → Prop
  | closed {cs : List Char} (h : Filler cs) : LastFiller cs
  | unended {cs body : List Char} (h : Filler cs) (hb : '\n' ∉ body) :
      LastFiller (cs ++ '#' :: body)

theorem LastFiller.blank {c : Char} {cs : List Char} (hc : isBlank c = true) (h : LastFiller cs) :
    LastFiller (c :: cs) := by
  cases h with
  | closed h => exact .closed (.blank hc h)
  | unended h hb => exact .unended (.blank hc h) hb

theorem LastFiller.comment {body cs : List Char} (hb : '\n' ∉ body) (h : LastFiller cs) :
    LastFiller ('#' :: (body ++ '\n' :: cs)) := by
  cases h with
  | closed h => exact .closed (.comment hb h)
  | @unended cs rest h hr =>
    have hsplit : '#' :: (body ++ '\n' :: (cs ++ '#' :: rest)) =
        '#' :: (body ++ '\n' :: cs) ++ '#' :: rest := by simp
    rw [hsplit]
    exact .unended (.comment hb h) hr

/-- Filler in front of a text that starts with none. -/
structure FillerBefore (filler after : List Char) : Prop where
  last : LastFiller filler
  filler : after ≠ [] → Filler filler
  stop : ∀ c ∈ after.head?, isBlank c = false ∧ c ≠ '#'

/-- The lexer counts the characters of the filler at the head of a text, outside of a comment and inside
of one. -/
theorem fillerLength_split (cs : List Char) :
    (∃ filler after, cs = filler ++ after ∧ Lexer.fillerLength false cs = filler.length ∧
      FillerBefore filler after) ∧
    ('\n' ∉ cs ∧ Lexer.fillerLength true cs = cs.length ∨
      ∃ body filler after, '\n' ∉ body ∧ cs = body ++ '\n' :: (filler ++ after) ∧
        Lexer.fillerLength true cs = body.length + 1 + filler.length ∧
        FillerBefore filler after) := by
  induction cs with
  | nil =>
    refine ⟨⟨[], [], rfl, rfl, .closed .nil, fun h => absurd rfl h, by simp⟩, .inl ⟨by simp, rfl⟩⟩
  | cons c cs ih =>
    obtain ⟨⟨filler, after, hcs, hlen, hbefore⟩, ihc⟩ := ih
    constructor
    · by_cases hblank : isBlank c = true
      · refine ⟨c :: filler, after, by rw [hcs]; rfl, ?_, ?_⟩
        · simp [Lexer.fillerLength, hblank, hlen]
          omega
        · exact ⟨hbefore.last.blank hblank, fun h => .blank hblank (hbefore.filler h), hbefore.stop⟩
      · by_cases hhash : c = '#'
        · have hcount : Lexer.fillerLength false (c :: cs) = 1 + Lexer.fillerLength true cs := by
            rw [Lexer.fillerLength, if_neg (by decide), if_neg hblank, if_pos hhash]
          rw [hcount, hhash]
          rcases ihc with ⟨hbody, hlen'⟩ | ⟨body, filler', after', hbody, rfl, hlen', hbefore'⟩
          · refine ⟨'#' :: cs, [], by simp, by rw [hlen', List.length_cons]; omega, ?_, ?_, by simp⟩
            · exact .unended .nil hbody
            · exact fun h => absurd rfl h
          · refine ⟨'#' :: (body ++ '\n' :: filler'), after', by simp, ?_, ?_⟩
            · rw [hlen']
              simp
              omega
            · exact ⟨hbefore'.last.comment hbody, fun h => .comment hbody (hbefore'.filler h),
                hbefore'.stop⟩
        · refine ⟨[], c :: cs, rfl, ?_, .closed .nil, fun _ => .nil, ?_⟩
          · simp [Lexer.fillerLength, hblank, hhash]
          · simpa [hhash] using hblank
    · by_cases hnl : c = '\n'
      · have hcount : Lexer.fillerLength true (c :: cs) = 1 + Lexer.fillerLength false cs := by
          simp [Lexer.fillerLength, hnl]
        refine .inr ⟨[], filler, after, by simp, by rw [hnl, ← hcs]; rfl, ?_, hbefore⟩
        rw [hcount, hlen]
        simp
      · have hcount : Lexer.fillerLength true (c :: cs) = 1 + Lexer.fillerLength true cs := by
          have hne : (c != '\n') = true := by simpa using hnl
          simp [Lexer.fillerLength, hne]
        rw [hcount]
        rcases ihc with ⟨hbody, hlen'⟩ | ⟨body, filler', after', hbody, rfl, hlen', hbefore'⟩
        · refine .inl ⟨by simpa [hbody] using Ne.symm hnl, ?_⟩
          rw [hlen', List.length_cons]
          omega
        · refine .inr ⟨c :: body, filler', after', by simpa [hbody] using Ne.symm hnl, rfl, ?_,
            hbefore'⟩
          rw [hlen', List.length_cons]
          omega

/-! ### Items -/

/-- A letter and any number of letters and digits. -/
def IsWord (s : List Char) : Prop :=
  ∃ c cs, s = c :: cs ∧ c.isAlpha = true ∧ ∀ d ∈ cs, d.isAlphanum = true

/-- A text that starts with a digit or a point and can be extended to a literal. -/
def IsNumberStart (s : List Char) : Prop :=
  (∃ c ∈ s.head?, c.isDigit = true ∨ c = '.') ∧ Literal.Viable s

/-- One or more operator characters. -/
def IsSymbol (s : List Char) : Prop := s ≠ [] ∧ ∀ c ∈ s, isOperatorChar c = true

/-- A character that no filler, word, number or operator starts with. -/
structure IsOther (c : Char) : Prop where
  blank : isBlank c = false
  comment : c ≠ '#'
  letter : c.isAlpha = false
  digit : c.isDigit = false
  point : c ≠ '.'
  symbol : isOperatorChar c = false

/-- What the stretch `slice` of a text is, when it stands at `span` and `after` is the text behind
it. -/
inductive Spells (after : List Char) (span : Span) : List Char → Item → Prop
  | reserved {slice : List Char} {kind : Token.Kind} (h : Longest IsWord slice after)
      (hk : (String.ofList slice, kind) ∈ Token.Kind.reserved) :
      Spells after span slice (.ok ⟨kind, span⟩)
  | name {slice : List Char} (h : Longest IsWord slice after)
      (hk : ∀ kind, (String.ofList slice, kind) ∉ Token.Kind.reserved) :
      Spells after span slice (.ok ⟨.identifier (String.ofList slice), span⟩)
  | int {slice : List Char} (h : Longest IsNumberStart slice after) (hd : Literal.IsDigits slice)
      (hv : Literal.decimal slice < 2 ^ 63) :
      Spells after span slice (.ok ⟨.intLiteral (Int64.ofNat (Literal.decimal slice)), span⟩)
  | outOfRange {slice : List Char} (h : Longest IsNumberStart slice after)
      (hd : Literal.IsDigits slice) (hv : 2 ^ 63 ≤ Literal.decimal slice) :
      Spells after span slice (.error (.integerOutOfRange (String.ofList slice) span))
  | double {slice : List Char} {n : Nat} {e : Int} (h : Longest IsNumberStart slice after)
      (hd : ¬ Literal.IsDigits slice) (hv : Literal.Denotes slice n e) :
      Spells after span slice (.ok ⟨.floatLiteral (Double.ofDecimal false n e), span⟩)
  | malformed {slice : List Char} (h : Longest IsNumberStart slice after)
      (hv : ¬ Literal.IsLiteral slice) :
      Spells after span slice (.error (.malformedNumber (String.ofList slice) span))
  | operator {slice : List Char} (h : Longest IsSymbol slice after) :
      Spells after span slice (.ok ⟨.operator (String.ofList slice), span⟩)
  | char {c : Char} (h : IsOther c) : Spells after span [c] (.ok ⟨.char c, span⟩)

/-- A text from the position `p` on, cut into items with filler between them.  The last item is the end
of the input, which takes no characters. -/
inductive Partition : Position → List Char → List Item → Prop
  | done {p : Position} {filler : List Char} (h : LastFiller filler) :
      Partition p filler [.ok ⟨.eof, ⟨p.afterAll filler, p.afterAll filler⟩⟩]
  | item {p : Position} {filler slice after : List Char} {item : Item} {items : List Item}
      (hf : Filler filler)
      (hs : Spells after ⟨p.afterAll filler, p.afterAll (filler ++ slice)⟩ slice item)
      (ht : Partition (p.afterAll (filler ++ slice)) after items) :
      Partition p (filler ++ (slice ++ after)) (item :: items)

/-! ### Words and operators -/

section Classes

variable {span : Span}

theorem takeWhile_head {P : Char → Bool} {cs : List Char} :
    ∀ c ∈ (cs.dropWhile P).head?, P c = false := by
  intro c hc
  have hnot := List.head?_dropWhile_not P cs
  rw [Option.mem_def.1 hc] at hnot
  simpa using hnot

theorem mem_reserved_iff {word : String} {kind : Token.Kind} :
    Token.Kind.ofReserved? word = some kind ↔ (word, kind) ∈ Token.Kind.reserved := by
  rw [Token.Kind.ofReserved?]
  constructor
  · intro h
    obtain ⟨l₁, l₂, hl, -⟩ := List.lookup_eq_some_iff.1 h
    rw [hl]
    simp
  · intro h
    simp only [Token.Kind.reserved, List.mem_cons, Prod.mk.injEq, List.not_mem_nil,
      or_false] at h
    rcases h with h | h | h | h | h | h <;> rw [h.1, h.2] <;> rfl

theorem spells_word {after slice : List Char} (h : Longest IsWord slice after) :
    Spells after span slice (.ok ⟨.ofWord (String.ofList slice), span⟩) := by
  rw [Token.Kind.ofWord]
  cases hk : Token.Kind.ofReserved? (String.ofList slice) with
  | some kind => exact .reserved h (mem_reserved_iff.1 hk)
  | none =>
    refine .name h fun kind hmem => ?_
    rw [mem_reserved_iff.2 hmem] at hk
    cases hk

theorem longest_word {c : Char} {cs after : List Char} (hc : c.isAlpha = true)
    (hcs : ∀ d ∈ cs, d.isAlphanum = true) (hstop : ∀ d ∈ after.head?, d.isAlphanum = false) :
    Longest IsWord (c :: cs) after := by
  refine .of_head ⟨c, cs, rfl, hc, hcs⟩ ?_ ?_
  · rintro d t ⟨c', cs', heq, hc', hcs'⟩
    obtain ⟨rfl, rfl⟩ := List.cons.inj heq
    exact ⟨c, cs ++ [d], rfl, hc, fun x hx => hcs' x (by
      rcases List.mem_append.1 hx with hx | hx
      · exact List.mem_append_left _ hx
      · rw [List.mem_singleton.1 hx]
        simp)⟩
  · rintro d hd ⟨c', cs', heq, -, hcs'⟩
    obtain ⟨-, rfl⟩ := List.cons.inj heq
    have := hcs' d (by simp)
    rw [hstop d hd] at this
    cases this

theorem longest_symbol {slice after : List Char} (hne : slice ≠ [])
    (hs : ∀ c ∈ slice, isOperatorChar c = true)
    (hstop : ∀ c ∈ after.head?, isOperatorChar c = false) : Longest IsSymbol slice after := by
  refine .of_head ⟨hne, hs⟩ ?_ ?_
  · rintro d t ⟨-, hall⟩
    refine ⟨by simp, fun x hx => hall x ?_⟩
    rcases List.mem_append.1 hx with hx | hx
    · exact List.mem_append_left _ hx
    · rw [List.mem_singleton.1 hx]
      simp
  · rintro d hd ⟨-, hall⟩
    have := hall d (by simp)
    rw [hstop d hd] at this
    cases this

/-! ### Numbers -/

theorem longest_number {c : Char} {cs after : List Char} {s : Literal.State}
    (hc : c.isDigit = true ∨ c = '.') (hrun : Literal.State.run? .start (c :: cs) = some s)
    (hstop : ∀ d ∈ after.head?, s.next? d = none) : Longest IsNumberStart (c :: cs) after := by
  obtain ⟨hviable, hlongest⟩ := Recognizer.longest_viable hrun hstop
  exact ⟨⟨⟨c, rfl, hc⟩, hviable⟩, fun longer hprefix hlonger => hlongest longer hprefix hlonger.2⟩

theorem spells_number {after slice : List Char} {s : Literal.State}
    (h : Longest IsNumberStart slice after) (hrun : Literal.State.run? .start slice = some s) :
    Spells after span slice (numberItem ⟨s, String.ofList slice⟩ span) := by
  obtain ⟨hdigits, hdouble, hnone⟩ := Recognizer.value_eq hrun
  unfold numberItem
  by_cases hd : Literal.IsDigits slice
  · rw [hdigits hd]
    by_cases hv : Literal.decimal slice < 2 ^ 63
    · rw [if_pos hv]
      exact .int h hd hv
    · rw [if_neg hv]
      exact .outOfRange h hd (not_lt.1 hv)
  · by_cases hl : Literal.IsLiteral slice
    · obtain ⟨n, e, hv⟩ := hl
      rw [hdouble n e hd hv]
      exact .double h hd hv
    · rw [hnone hl]
      exact .malformed h hl

end Classes

/-! ### The item at the head of a text -/

/-- The first characters of a text that starts with no filler, and the item that they are. -/
theorem lexeme_spells {c : Char} {cs : List Char} (span : Span) (hblank : isBlank c = false)
    (hhash : c ≠ '#') :
    ∃ slice after, c :: cs = slice ++ after ∧ slice ≠ [] ∧ lexeme (c :: cs) = slice ∧
      Spells after span slice (itemOf slice span) := by
  by_cases hword : isWordStart c = true
  · have hchar : isWordChar c = true := by
      simp [isWordChar, Char.isAlphanum, isWordStart] at hword ⊢
      exact .inl hword
    refine ⟨c :: cs.takeWhile isWordChar, cs.dropWhile isWordChar, ?_, by simp, ?_, ?_⟩
    · rw [List.cons_append, List.takeWhile_append_dropWhile]
    · rw [lexeme, if_pos hword, List.takeWhile_cons_of_pos hchar]
    · rw [itemOf, if_pos hword]
      exact spells_word (longest_word hword (fun d hd => List.mem_takeWhile_imp hd) takeWhile_head)
  by_cases hnumber : isNumberStart c = true
  · have hstart : c.isDigit = true ∨ c = '.' := by simpa [isNumberStart] using hnumber
    obtain ⟨taken, rest, s, hsplit, hrun, hstop⟩ := Recognizer.exists_split .start (c :: cs)
    have hread : ({} : Recognizer).readAll (c :: cs) = (⟨s, String.ofList taken⟩, rest) := by
      rw [hsplit]
      simpa using Recognizer.readAll_eq "" hrun hstop
    cases taken with
    | nil =>
      -- the automaton takes at least the first character
      obtain rfl := Option.some.inj hrun
      rw [List.nil_append] at hsplit
      have hnone := hstop c (by rw [← hsplit]; rfl)
      rcases hstart with hd | rfl
      · simp [Literal.State.next?, hd] at hnone
      · simp [Literal.State.next?] at hnone
    | cons c' taken =>
      obtain ⟨rfl, rfl⟩ := List.cons.inj hsplit
      refine ⟨c :: taken, rest, rfl, by simp, ?_, ?_⟩
      · rw [lexeme, if_neg hword, if_pos hnumber, hread, String.toList_ofList]
      · have hend : ∀ d ∈ ([] : List Char).head?, s.next? d = none := by simp
        have hagain : ({} : Recognizer).readAll (c :: taken) =
            (⟨s, String.ofList (c :: taken)⟩, []) := by
          simpa using Recognizer.readAll_eq "" hrun hend
        rw [itemOf, if_neg hword, if_pos hnumber, hagain]
        exact spells_number (longest_number hstart hrun hstop) hrun
  by_cases hsymbol : isOperatorChar c = true
  · refine ⟨c :: cs.takeWhile isOperatorChar, cs.dropWhile isOperatorChar, ?_, by simp, ?_, ?_⟩
    · rw [List.cons_append, List.takeWhile_append_dropWhile]
    · rw [lexeme, if_neg hword, if_neg hnumber, if_pos hsymbol, List.takeWhile_cons_of_pos hsymbol]
    · rw [itemOf, if_neg hword, if_neg hnumber, if_pos hsymbol]
      refine .operator (longest_symbol (by simp) ?_ takeWhile_head)
      exact List.forall_mem_cons.2 ⟨hsymbol, fun d hd => List.mem_takeWhile_imp hd⟩
  · refine ⟨[c], cs, rfl, by simp, ?_, ?_⟩
    · rw [lexeme, if_neg hword, if_neg hnumber, if_neg hsymbol]
    · rw [itemOf, if_neg hword, if_neg hnumber, if_neg hsymbol]
      simp only [isNumberStart, Bool.or_eq_true, beq_iff_eq, not_or, Bool.not_eq_true] at hnumber
      exact .char ⟨hblank, hhash, Bool.eq_false_iff.2 hword, hnumber.1, hnumber.2,
        Bool.eq_false_iff.2 hsymbol⟩

/-! ### The lexer -/

/-- The place of an item. -/
def Lexer.itemSpan : Item → Span
  | .ok token => token.span
  | .error e => e.span

theorem Spells.itemSpan_eq {after slice : List Char} {span : Span} {item : Item}
    (h : Spells after span slice item) : Lexer.itemSpan item = span := by
  cases h <;> rfl

theorem Spells.isEnd_eq {after slice : List Char} {span : Span} {item : Item}
    (h : Spells after span slice item) : Lexer.isEnd item = false := by
  cases h with
  | reserved _ hk =>
    simp only [Token.Kind.reserved, List.mem_cons, Prod.mk.injEq, List.not_mem_nil,
      or_false] at hk
    rcases hk with hk | hk | hk | hk | hk | hk <;> rw [hk.2] <;> rfl
  | _ => rfl

theorem Spells.ne_nil {after slice : List Char} {span : Span} {item : Item}
    (h : Spells after span slice item) : slice ≠ [] := by
  have hword : ∀ {s}, IsWord s → s ≠ [] := by
    rintro s ⟨c, cs, rfl, -⟩
    simp
  have hnumber : ∀ {s}, IsNumberStart s → s ≠ [] := by
    rintro s ⟨⟨c, hc, -⟩, -⟩ rfl
    cases hc
  cases h with
  | reserved h _ => exact hword h.1
  | name h _ => exact hword h.1
  | int h _ _ => exact hnumber h.1
  | outOfRange h _ _ => exact hnumber h.1
  | double h _ _ => exact hnumber h.1
  | malformed h _ => exact hnumber h.1
  | operator h => exact h.1.1
  | char _ => simp

namespace Lexer

variable {lx : Lexer}

/-- The next item, once the filler in front of it and its characters are known. -/
theorem next_eq {filler slice after : List Char} (hrest : lx.rest = filler ++ (slice ++ after))
    (hf : fillerLength false lx.rest = filler.length) (hl : lexeme (slice ++ after) = slice) :
    lx.next =
      (itemOf slice ⟨lx.position.afterAll filler, lx.position.afterAll (filler ++ slice)⟩,
        ⟨after, lx.position.afterAll (filler ++ slice), lx.position.afterAll filler,
          lx.finished⟩) := by
  rw [hrest] at hf
  have hskip : lx.skipFiller =
      ⟨slice ++ after, lx.position.afterAll filler, lx.position.afterAll filler, lx.finished⟩ := by
    simp [skipFiller, advanceBy, mark, hrest, hf]
  simp [next, hskip, advanceBy, span, hl, Position.afterAll_append]

/-- **The next item of any text**, or the end of the input behind the last filler. -/
theorem exists_next (lx : Lexer) :
    (∃ filler slice after item, lx.rest = filler ++ (slice ++ after) ∧ Filler filler ∧
      Spells after ⟨lx.position.afterAll filler, lx.position.afterAll (filler ++ slice)⟩ slice item ∧
      lx.next = (item, ⟨after, lx.position.afterAll (filler ++ slice),
        lx.position.afterAll filler, lx.finished⟩)) ∨
    (LastFiller lx.rest ∧
      lx.next = (.ok ⟨.eof, ⟨lx.position.afterAll lx.rest, lx.position.afterAll lx.rest⟩⟩,
        ⟨[], lx.position.afterAll lx.rest, lx.position.afterAll lx.rest, lx.finished⟩)) := by
  obtain ⟨⟨filler, text, hrest, hlen, hbefore⟩, -⟩ := fillerLength_split lx.rest
  cases text with
  | nil =>
    right
    rw [List.append_nil] at hrest
    refine ⟨hrest ▸ hbefore.last, ?_⟩
    have hsplit : lx.rest = filler ++ ([] ++ []) := by simpa using hrest
    have hnext := next_eq hsplit hlen rfl
    rw [List.append_nil, ← hrest] at hnext
    exact hnext
  | cons c cs =>
    left
    obtain ⟨hblank, hhash⟩ := hbefore.stop c rfl
    obtain ⟨slice, after, hsplit, hne, hl, hspells⟩ := lexeme_spells
      ⟨lx.position.afterAll filler, lx.position.afterAll (filler ++ (lexeme (c :: cs)))⟩ hblank hhash
    rw [hl] at hspells
    rw [hsplit] at hrest hl
    exact ⟨filler, slice, after, _, hrest, hbefore.filler (by simp), hspells,
      next_eq hrest hlen hl⟩

theorem next?_of_next {item : Item} {lx' : Lexer} (hfin : lx.finished = false)
    (h : lx.next = (item, lx')) :
    lx.next? = (some item, if isEnd item then { lx' with finished := true } else lx') := by
  rw [next?, hfin, h]
  rfl

theorem drainFor_of_finished (hfin : lx.finished = true) (n : Nat) : lx.drainFor n = ([], lx) := by
  cases n with
  | zero => rfl
  | succ n => rw [drainFor, next?, if_pos hfin]

/-- **A lexer gives the items of the text ahead of it and then has finished.**  It is enough to ask for one
more than there are characters. -/
theorem exists_partition (lx : Lexer) (hfin : lx.finished = false) :
    ∃ items, Partition lx.position lx.rest items ∧ ∀ n, lx.rest.length < n →
      lx.drainFor n = (items,
        ⟨[], lx.position.afterAll lx.rest, lx.position.afterAll lx.rest, true⟩) := by
  -- every item but the last takes a character, so the text ahead gets shorter
  induction hk : lx.rest.length using Nat.strong_induction_on generalizing lx with
  | _ k ih =>
    rcases lx.exists_next with ⟨filler, slice, after, item, hrest, hf, hs, hnext⟩ | ⟨hlast, hnext⟩
    · have hslice := List.length_pos_iff.2 hs.ne_nil
      have hlen := hk
      rw [hrest, List.length_append, List.length_append] at hlen
      let rest : Lexer := ⟨after, lx.position.afterAll (filler ++ slice),
        lx.position.afterAll filler, lx.finished⟩
      obtain ⟨items, hpart, hdrain⟩ := ih after.length (by omega) rest hfin rfl
      refine ⟨item :: items, ?_, fun n hn => ?_⟩
      · rw [hrest]
        exact .item hf hs hpart
      · obtain ⟨n, rfl⟩ : ∃ n', n = n' + 1 := ⟨n - 1, by omega⟩
        have hdrain' : rest.drainFor n = _ := hdrain n (by omega)
        rw [← Position.afterAll_append, List.append_assoc, ← hrest] at hdrain'
        rw [drainFor, next?_of_next hfin hnext, hs.isEnd_eq]
        simp only [Bool.false_eq_true, if_false]
        rw [hdrain']
    · refine ⟨_, .done hlast, fun n hn => ?_⟩
      obtain ⟨n, rfl⟩ : ∃ n', n = n' + 1 := ⟨n - 1, by omega⟩
      rw [drainFor, next?_of_next hfin hnext, isEnd]
      simp only [beq_self_eq_true, if_true]
      rw [drainFor_of_finished rfl]

theorem next_of_rest_nil (h : lx.rest = []) :
    lx.next = (.ok ⟨.eof, ⟨lx.position, lx.position⟩⟩, { lx with start := lx.position }) := by
  obtain ⟨rest, position, start, finished⟩ := lx
  obtain rfl : rest = [] := h
  rfl

/-- Behind the end of the input there is nothing but the end of the input. -/
theorem iterate_next_of_end {stop : Position} (n : Nat) :
    (fun lx : Lexer => lx.next.2)^[n] ⟨[], stop, stop, true⟩ = ⟨[], stop, stop, true⟩ := by
  induction n with
  | zero => rfl
  | succ n ih => rw [Function.iterate_succ_apply', ih, next_of_rest_nil rfl]

end Lexer

/-! ### Places -/

namespace Position

theorem offset_after (p : Position) (c : Char) : (p.after c).offset = p.offset + c.utf8Size := by
  unfold after
  split
  · next h =>
    rw [h]
    rfl
  · rfl

/-- Offsets count the bytes of UTF-8. -/
theorem offset_afterAll (p : Position) (cs : List Char) :
    (p.afterAll cs).offset = p.offset + (cs.map Char.utf8Size).sum := by
  induction cs generalizing p with
  | nil => rfl
  | cons c cs ih =>
    rw [afterAll_cons, ih, offset_after, List.map_cons, List.sum_cons, Nat.add_assoc]

theorem offset_le_afterAll (p : Position) (cs : List Char) : p.offset ≤ (p.afterAll cs).offset := by
  rw [offset_afterAll]
  exact Nat.le_add_right _ _

theorem offset_lt_afterAll (p : Position) {cs : List Char} (h : cs ≠ []) :
    p.offset < (p.afterAll cs).offset := by
  cases cs with
  | nil => exact absurd rfl h
  | cons c cs =>
    rw [offset_afterAll, List.map_cons, List.sum_cons]
    have := c.utf8Size_pos
    omega

end Position

/-- **The items of a partition stand one behind the other**, each takes at least one byte, and the last
one is the end of the input. -/
theorem Partition.spans {p : Position} {cs : List Char} {items : List Item}
    (h : Partition p cs items) :
    ∃ init, items = init ++ [.ok ⟨.eof, ⟨p.afterAll cs, p.afterAll cs⟩⟩] ∧
      (∀ item ∈ init, Lexer.isEnd item = false ∧
        (Lexer.itemSpan item).start.offset < (Lexer.itemSpan item).stop.offset) ∧
      (∀ item ∈ init, p.offset ≤ (Lexer.itemSpan item).start.offset) ∧
      init.Pairwise fun a b => (Lexer.itemSpan a).stop.offset ≤ (Lexer.itemSpan b).start.offset := by
  induction h with
  | done h => exact ⟨[], rfl, by simp, by simp, .nil⟩
  | @item p filler slice after item items hf hs ht ih =>
    obtain ⟨init, hitems, hinit, hbehind, hpairs⟩ := ih
    have hspan := hs.itemSpan_eq
    have hstart := p.offset_le_afterAll filler
    have hstop : (p.afterAll filler).offset < (p.afterAll (filler ++ slice)).offset := by
      rw [Position.afterAll_append]
      exact Position.offset_lt_afterAll _ hs.ne_nil
    refine ⟨item :: init, ?_, ?_, ?_, ?_⟩
    · rw [hitems, List.cons_append, ← Position.afterAll_append, List.append_assoc]
    · refine List.forall_mem_cons.2 ⟨⟨hs.isEnd_eq, ?_⟩, hinit⟩
      rw [hspan]
      exact hstop
    · refine List.forall_mem_cons.2 ⟨?_, fun i hi => ?_⟩
      · rw [hspan]
        exact hstart
      · have := hbehind i hi
        omega
    · refine List.pairwise_cons.2 ⟨fun i hi => ?_, hpairs⟩
      rw [hspan]
      exact hbehind i hi

theorem mapM_id_eq_ok_iff {ε α : Type} {l : List (Except ε α)} {as : List α} :
    l.mapM id = .ok as ↔ l = as.map .ok := by
  induction l generalizing as with
  | nil => cases as <;> simp [pure, Except.pure]
  | cons x l ih =>
    rw [List.mapM_cons, bind_eq_ok_iff]
    constructor
    · rintro ⟨a, hx, h⟩
      obtain ⟨as', has', h⟩ := bind_eq_ok_iff.1 h
      cases h
      rw [List.map_cons, ← ih.1 has', ← hx]
      rfl
    · intro h
      cases as with
      | nil => cases h
      | cons a as =>
        obtain ⟨rfl, rfl⟩ := List.cons.inj h
        exact ⟨a, rfl, bind_eq_ok_iff.2 ⟨as, ih.2 rfl, rfl⟩⟩

theorem exists_eq_map_ok_iff {ε α : Type} {l : List (Except ε α)} :
    (∃ as : List α, l = as.map .ok) ↔ ∀ e, .error e ∉ l := by
  constructor
  · rintro ⟨as, rfl⟩ e he
    simp at he
  · intro h
    induction l with
    | nil => exact ⟨[], rfl⟩
    | cons x l ih =>
      obtain ⟨as, rfl⟩ := ih fun e he => h e (List.mem_cons_of_mem x he)
      cases x with
      | error e => exact absurd List.mem_cons_self (h e)
      | ok a => exact ⟨a :: as, rfl⟩

/-- **Maximal munch.**  However long it is drained, the lexer of a source text gives the items of its
partition, with the end of the input as the last one.  The other items take stretches of bytes that are
not empty and do not overlap, in the order of the text.  After that the lexer gives no more items, and it
is at the end of the input however often it is asked for the next one.  The tokens of the text are its
items, unless one of them is an error. -/
theorem Lexer.maximal_munch (text : String) :
    let stop := Position.origin.afterAll text.toList
    let ending : Item := .ok ⟨.eof, ⟨stop, stop⟩⟩
    ∃ init lx, (∀ n, text.toList.length < n → (ofText text).drainFor n = (init ++ [ending], lx)) ∧
      Partition .origin text.toList (init ++ [ending]) ∧
      (∀ item ∈ init, isEnd item = false ∧
        (itemSpan item).start.offset < (itemSpan item).stop.offset) ∧
      (init.Pairwise fun a b => (itemSpan a).stop.offset ≤ (itemSpan b).start.offset) ∧
      (∀ n, let later := (fun lx : Lexer => lx.next.2)^[n] lx
        later.next? = (none, later) ∧ later.next.1 = ending) ∧
      (∀ tokens, tokenize text = .ok tokens ↔ init ++ [ending] = tokens.map .ok) ∧
      ((∃ tokens, tokenize text = .ok tokens) ↔ ∀ e, .error e ∉ init) := by
  intro stop ending
  obtain ⟨items, hpart, hdrain⟩ := exists_partition (ofText text) rfl
  obtain ⟨init, rfl, hinit, -, hpairs⟩ := hpart.spans
  have hitems : ScalarLang.items text = init ++ [ending] :=
    congrArg Prod.fst (hdrain _ (Nat.lt_succ_self _))
  have htokens : ∀ tokens, tokenize text = .ok tokens ↔ init ++ [ending] = tokens.map .ok := by
    intro tokens
    rw [tokenize, hitems, mapM_id_eq_ok_iff]
  refine ⟨init, ⟨[], stop, stop, true⟩, hdrain, hpart, hinit, hpairs, fun n => ?_, htokens, ?_⟩
  · rw [iterate_next_of_end]
    exact ⟨rfl, by rw [next_of_rest_nil rfl]⟩
  · simp only [htokens, exists_eq_map_ok_iff]
    simp [ending]

end ScalarLang
