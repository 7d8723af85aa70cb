import Mathlib.Data.String.Basic
import ScalarLang.Proofs.Places
import ScalarLang.Proofs.Spelling

/-!
# The items of a text made of two

A newline ends whatever stands in front of it: a word, a number, an operator, and a comment as well.  So
the items of a text with a newline in it are those in front of the newline and those behind it, and a text
behind another one has the items that it has alone, at places that are shifted by as many lines and bytes
as stand in front.

* `Position.shift`, `Span.shift`, `Span.shiftOr` — places of a text that stands behind others.
* `Span.MovesBy` — a function of spans that moves a text as a function of points does.
* `Lexer.contents_moveBy` — a text that is moved has the same items, moved.
* `Lexer.contents_newline` — the items on both sides of a newline.
* `Lexer.contents_seam` — the items of two texts with a semicolon on a line of its own between them.
-/

namespace ScalarLang

/-! ### Shifted places -/

/-- The point that many lines and bytes further on. -/
def Position.shift (lines bytes : Nat) (p : Position) : Position :=
  ⟨p.line + lines, p.column, p.offset + bytes⟩

/-- The stretch that many lines and bytes further on. -/
def Span.shift (lines bytes : Nat) (s : Span) : Span :=
  ⟨s.start.shift lines bytes, s.stop.shift lines bytes⟩

/-- The shift of a span that stands in a text, and `nowhere` for any span that stands nowhere. -/
def Span.shiftOr (nowhere : Span) (lines bytes : Nat) (s : Span) : Span :=
  if s.isNowhere then nowhere else s.shift lines bytes

namespace Position

variable {lines bytes : Nat}

theorem shift_after (p : Position) (c : Char) :
    (p.after c).shift lines bytes = (p.shift lines bytes).after c := by
  unfold after shift
  split
  · simp only [Position.mk.injEq, true_and]
    omega
  · simp only [Position.mk.injEq, true_and]
    omega

theorem line_after (p : Position) (c : Char) :
    (p.after c).line = p.line + if c == '\n' then 1 else 0 := by
  unfold after
  split
  · next h => simp [h]
  · next h => simp [h]

/-- Lines count newlines. -/
theorem line_afterAll (p : Position) (cs : List Char) :
    (p.afterAll cs).line = p.line + cs.count '\n' := by
  induction cs generalizing p with
  | nil => rfl
  | cons c cs ih =>
    rw [afterAll_cons, ih, line_after, List.count_cons]
    omega

theorem line_pos_afterAll {p : Position} (h : 0 < p.line) (cs : List Char) :
    0 < (p.afterAll cs).line := by
  rw [line_afterAll]
  omega

/-- Behind a line there is the start of a text, that many lines and bytes further on. -/
theorem afterAll_newline (cs : List Char) :
    origin.afterAll (cs ++ ['\n']) =
      origin.shift (cs.count '\n' + 1) ((cs.map Char.utf8Size).sum + 1) := by
  rw [afterAll_append, afterAll_cons, afterAll_nil, after, if_pos rfl, line_afterAll, offset_afterAll,
    shift]
  simp only [origin, Position.mk.injEq, true_and]
  omega

end Position

namespace Span

theorem isNowhere_shift (lines bytes : Nat) {s : Span} (h : s.isNowhere = false) :
    (s.shift lines bytes).isNowhere = false := by
  simp only [isNowhere, shift, Position.shift, beq_eq_false_iff_ne] at h ⊢
  omega

/-- Spans that stand nowhere are a unit, before and behind the shift. -/
theorem shiftOr_carries {nowhere : Span} (hnowhere : nowhere.isNowhere = true) (lines bytes : Nat) :
    Carries (shiftOr nowhere lines bytes) := by
  intro a b
  by_cases ha : a.isNowhere = true
  · simp [through, shiftOr, ha, hnowhere]
  · have ha' := isNowhere_shift lines bytes (Bool.eq_false_iff.2 ha)
    by_cases hb : b.isNowhere = true
    · simp [through, shiftOr, ha, hb, ha', hnowhere]
    · have hb' := isNowhere_shift lines bytes (Bool.eq_false_iff.2 hb)
      have hab : (⟨a.start, b.stop⟩ : Span).isNowhere = false := Bool.eq_false_iff.2 ha
      simp [through, shiftOr, ha, hb, ha', hb', hab]
      rfl

/-- The function moves the stretches of a text as `σ` moves its points. -/
structure MovesBy (φ : Span → Span) (σ : Position → Position) : Prop where
  after : ∀ p c, σ (p.after c) = (σ p).after c
  span : ∀ a b : Position, 0 < a.line → φ ⟨a, b⟩ = ⟨σ a, σ b⟩

theorem shiftOr_movesBy (nowhere : Span) (lines bytes : Nat) :
    MovesBy (shiftOr nowhere lines bytes) (Position.shift lines bytes) := by
  refine ⟨Position.shift_after, fun a b ha => ?_⟩
  have hplaced : (⟨a, b⟩ : Span).isNowhere = false := by
    simp only [isNowhere, beq_eq_false_iff_ne]
    omega
  rw [shiftOr, hplaced]
  rfl

theorem MovesBy.afterAll {φ : Span → Span} {σ : Position → Position} (h : MovesBy φ σ) (p : Position)
    (cs : List Char) : σ (p.afterAll cs) = (σ p).afterAll cs := by
  induction cs generalizing p with
  | nil => rfl
  | cons c cs ih => rw [Position.afterAll_cons, ih, h.after, Position.afterAll_cons]

end Span

/-! ### A text that is moved -/

theorem itemOf_move (φ : Span → Span) (slice : List Char) (span : Span) :
    itemOf slice (φ span) = moveItem φ (itemOf slice span) := by
  have hnumber : ∀ r : Recognizer, numberItem r (φ span) = moveItem φ (numberItem r span) := by
    intro r
    unfold numberItem
    split <;> rfl
  cases slice with
  | nil => rfl
  | cons c cs =>
    rw [itemOf, itemOf]
    split
    · rfl
    · split
      · exact hnumber _
      · split <;> rfl

namespace Lexer

variable {φ : Span → Span} {σ : Position → Position}

/-- The lexer at the points that `σ` gives. -/
def moveBy (σ : Position → Position) (lx : Lexer) : Lexer :=
  ⟨lx.rest, σ lx.position, σ lx.start, lx.finished⟩

/-- The lexer stands in a text. -/
def Placed (lx : Lexer) : Prop := 0 < lx.position.line ∧ 0 < lx.start.line

theorem Placed.next {lx : Lexer} (h : lx.Placed) : lx.next.2.Placed :=
  ⟨Position.line_pos_afterAll (Position.line_pos_afterAll h.1 _) _, Position.line_pos_afterAll h.1 _⟩

theorem next_moveBy (hm : Span.MovesBy φ σ) {lx : Lexer} (h : lx.Placed) :
    (lx.moveBy σ).next = (moveItem φ lx.next.1, lx.next.2.moveBy σ) := by
  have hskip : (lx.moveBy σ).skipFiller = lx.skipFiller.moveBy σ := by
    simp only [skipFiller, advanceBy, mark, moveBy, hm.afterAll]
  have hbehind : (lx.moveBy σ).next.2 = lx.next.2.moveBy σ := by
    simp only [next, hskip]
    simp only [advanceBy, moveBy, hm.afterAll]
  have hspan : (lx.next.2.moveBy σ).span = φ lx.next.2.span := (hm.span _ _ h.next.2).symm
  refine Prod.ext ?_ hbehind
  show itemOf (lexeme (lx.moveBy σ).skipFiller.rest) (lx.moveBy σ).next.2.span =
    moveItem φ (itemOf (lexeme lx.skipFiller.rest) lx.next.2.span)
  rw [hbehind, hspan, hskip, itemOf_move]
  rfl

/-- **The items of a text that is moved are the same items, moved.** -/
theorem contentsFor_moveBy (hm : Span.MovesBy φ σ) {lx : Lexer} (h : lx.Placed) (n : Nat) :
    (lx.moveBy σ).contentsFor n =
      ((lx.contentsFor n).1.map (moveItem φ), (lx.contentsFor n).2.move φ) := by
  induction n generalizing lx with
  | zero =>
    show ([], _) = ([], _)
    rw [show (lx.moveBy σ).span = φ lx.span from (hm.span _ _ h.2).symm]
    rfl
  | succ n ih =>
    have ih := ih h.next
    rw [contentsFor, contentsFor, next_moveBy hm h]
    cases hnext : lx.next with
    | mk item lx' =>
      rw [hnext] at ih
      cases item with
      | error e => simp only [moveItem, ih, List.map_cons]
      | ok token =>
        by_cases hk : token.kind = .eof
        · simp only [moveItem, Token.kind_move, hk, if_true, List.map_nil]
        · simp only [moveItem, Token.kind_move, hk, if_false, ih, List.map_cons]

theorem contents_moveBy (hm : Span.MovesBy φ σ) {lx : Lexer} (h : lx.Placed) :
    (lx.moveBy σ).contents = (lx.contents.1.map (moveItem φ), lx.contents.2.move φ) :=
  contentsFor_moveBy hm h _

end Lexer

/-! ### Both sides of a newline -/

theorem takeWhile_append_stop {P : Char → Bool} {stop : Char} (h : P stop = false)
    (cs after : List Char) : (cs ++ stop :: after).takeWhile P = cs.takeWhile P := by
  induction cs with
  | nil => simp [h]
  | cons c cs ih => simp only [List.cons_append, List.takeWhile_cons, ih]

theorem Literal.State.next?_newline (s : Literal.State) : s.next? '\n' = none := by
  cases s <;> decide

/-- No item goes on behind a newline. -/
theorem lexeme_newline (c : Char) (cs after : List Char) :
    lexeme (c :: cs ++ '\n' :: after) = lexeme (c :: cs) := by
  rw [List.cons_append, lexeme, lexeme, ← List.cons_append]
  split
  · exact takeWhile_append_stop (by decide) _ _
  · split
    · obtain ⟨taken, rest, s, hsplit, hrun, hstop⟩ := Recognizer.exists_split .start (c :: cs)
      have hstop' : ∀ d ∈ (rest ++ '\n' :: after).head?, s.next? d = none := by
        cases rest with
        | nil =>
          intro d hd
          cases hd
          exact s.next?_newline
        | cons d rest => exact hstop
      rw [hsplit, List.append_assoc, Recognizer.readAll_eq "" hrun hstop,
        Recognizer.readAll_eq "" hrun hstop']
    · split
      · exact takeWhile_append_stop (by decide) _ _
      · rfl

namespace Lexer

variable {cs after : List Char} {p q : Position} {finished : Bool}

/-- A newline is filler, and it ends a comment. -/
theorem fillerLength_newline (inComment : Bool) (cs after : List Char) :
    fillerLength inComment (cs ++ '\n' :: after) =
      if fillerLength inComment cs = cs.length then cs.length + 1 + fillerLength false after
      else fillerLength inComment cs := by
  induction cs generalizing inComment with
  | nil =>
    have hblank : isBlank '\n' = true := by decide
    cases inComment <;> simp [fillerLength, hblank]
  | cons c cs ih =>
    -- a character that is filler counts on both sides
    have hcount : ∀ b, 1 + fillerLength b (cs ++ '\n' :: after) =
        if 1 + fillerLength b cs = cs.length + 1 then cs.length + 1 + 1 + fillerLength false after
        else 1 + fillerLength b cs := by
      intro b
      rw [ih]
      split
      · rw [if_pos (by omega)]
        omega
      · rw [if_neg (by omega)]
    rw [List.cons_append, fillerLength, fillerLength, List.length_cons]
    split
    · exact hcount _
    · split
      · exact hcount _
      · split
        · exact hcount _
        · rw [if_neg (by omega)]

/-- In front of a newline, the next item is the one of the text in front of it. -/
theorem exists_next_newline (p q : Position) (finished : Bool) (after : List Char)
    (h : fillerLength false cs ≠ cs.length) :
    ∃ item rest p' q', isEnd item = false ∧ rest.length < cs.length ∧
      p'.afterAll rest = p.afterAll cs ∧
      (⟨cs, p, q, finished⟩ : Lexer).next = (item, ⟨rest, p', q', finished⟩) ∧
      (⟨cs ++ '\n' :: after, p, q, finished⟩ : Lexer).next =
        (item, ⟨rest ++ '\n' :: after, p', q', finished⟩) := by
  obtain ⟨⟨filler, text, rfl, hlen, hbefore⟩, -⟩ := fillerLength_split cs
  have hcount := fillerLength_newline false (filler ++ text) after
  rw [if_neg h, hlen, List.append_assoc] at hcount
  cases text with
  | nil =>
    rw [List.append_nil] at h hlen
    exact absurd hlen h
  | cons c cs =>
    obtain ⟨hblank, hhash⟩ := hbefore.stop c rfl
    obtain ⟨slice, rest, hsplit, hne, hl, hspells⟩ := lexeme_spells
      ⟨p.afterAll filler, p.afterAll (filler ++ lexeme (c :: cs))⟩ hblank hhash
    have hl' : lexeme (slice ++ (rest ++ '\n' :: after)) = slice := by
      rw [← List.append_assoc, ← hsplit, lexeme_newline, hl]
    rw [hl] at hspells
    rw [hsplit] at hl hlen hcount ⊢
    refine ⟨itemOf slice _, rest, _, _, hspells.isEnd_eq, ?_, ?_, next_eq rfl hlen hl, ?_⟩
    · have := List.length_pos_iff.2 hne
      simp only [List.length_append]
      omega
    · rw [← Position.afterAll_append, List.append_assoc]
    · refine next_eq ?_ ?_ hl'
      · simp only [List.append_assoc]
      · simpa only [List.append_assoc] using hcount

/-- Filler up to a newline, and the newline, are filler in front of what stands behind. -/
theorem next_filler_newline (q' : Position) (h : fillerLength false cs = cs.length) :
    (⟨cs ++ '\n' :: after, p, q, finished⟩ : Lexer).next =
      (⟨after, p.afterAll (cs ++ ['\n']), q', finished⟩ : Lexer).next := by
  have hcount := fillerLength_newline false cs after
  rw [if_pos h] at hcount
  have hskip : (⟨cs ++ '\n' :: after, p, q, finished⟩ : Lexer).skipFiller =
      (⟨after, p.afterAll (cs ++ ['\n']), q', finished⟩ : Lexer).skipFiller := by
    have hsplit : cs ++ '\n' :: after = (cs ++ ['\n']) ++ after := by simp
    have hlen : cs.length + 1 = (cs ++ ['\n']).length := by simp
    simp only [skipFiller, advanceBy, mark, hcount]
    rw [hsplit, hlen, List.drop_length_add_append, List.take_length_add_append,
      Position.afterAll_append]
  rw [next, next, hskip]

/-- Lexers with the same next item have the same items. -/
theorem contents_congr {lx lx' : Lexer} (h : lx.next = lx'.next) : lx.contents = lx'.contents := by
  have hlarge : ∀ n, lx.contentsFor (n + 1) = lx'.contentsFor (n + 1) := by
    intro n
    rw [contentsFor, contentsFor, h]
  have h₁ := lx.contentsFor_eq_contents (n := lx.rest.length + lx'.rest.length + 1) (by omega)
  have h₂ := lx'.contentsFor_eq_contents (n := lx.rest.length + lx'.rest.length + 1) (by omega)
  rw [← h₁, ← h₂, hlarge]

/-- **The items on both sides of a newline.**  By induction on the number of characters in front of it. -/
theorem contents_newline (cs after : List Char) (p q q' : Position) (finished : Bool) :
    let behind := (⟨after, p.afterAll (cs ++ ['\n']), q', finished⟩ : Lexer).contents
    (⟨cs ++ '\n' :: after, p, q, finished⟩ : Lexer).contents =
      ((⟨cs, p, q, finished⟩ : Lexer).contents.1 ++ behind.1, behind.2) := by
  intro behind
  induction hk : cs.length using Nat.strong_induction_on generalizing cs p q with
  | _ k ih =>
    by_cases hfiller : fillerLength false cs = cs.length
    · have hend : (⟨cs, p, q, finished⟩ : Lexer).next = _ :=
        next_eq (show cs = cs ++ ([] ++ []) by simp) hfiller rfl
      have hnone : (⟨cs, p, q, finished⟩ : Lexer).contents.1 = [] :=
        congrArg Prod.fst (contentsFor_of_end hend rfl)
      rw [hnone, contents_congr (next_filler_newline q' hfiller)]
      rfl
    · obtain ⟨item, rest, p₁, q₁, hend, hlt, hp, hnext, hnext'⟩ :=
        exists_next_newline p q finished after hfiller
      have hplace : p₁.afterAll (rest ++ ['\n']) = p.afterAll (cs ++ ['\n']) := by
        rw [Position.afterAll_append, hp, Position.afterAll_append]
      have hrest := ih rest.length (by omega) rest p₁ q₁ rfl
      rw [contents_of_next hnext hend hlt, contents_of_next hnext' hend (by simpa using hlt), hrest,
        hplace]
      rfl

theorem sum_utf8Size (text : String) : (text.toList.map Char.utf8Size).sum = text.utf8ByteSize := by
  have hsum : ∀ cs : List Char, (cs.map Char.utf8Size).sum = String.utf8Len cs := by
    intro cs
    induction cs with
    | nil => rfl
    | cons c cs ih => rw [List.map_cons, List.sum_cons, ih, String.utf8Len_cons, Nat.add_comm]
  rw [hsum, ← String.utf8ByteSize_ofList, String.ofList_toList]

/-- **The items of two texts with a semicolon on a line of its own between them:** those of the first one,
the semicolon, and those of the second one, as many lines and bytes further on as stand in front of it. -/
theorem contents_seam (nowhere : Span) (s₁ s₂ : String) :
    let place := Span.shiftOr nowhere (s₁.toList.count '\n' + 2) (s₁.utf8ByteSize + 3)
    ∃ semicolon : Token, semicolon.kind = .char ';' ∧
      (ofText (s₁ ++ "\n;\n" ++ s₂)).contents =
        ((ofText s₁).contents.1 ++ .ok semicolon :: (ofText s₂).contents.1.map (moveItem place),
          (ofText s₂).contents.2.move place) := by
  intro place
  let front := s₁.toList ++ ['\n']
  let q := Position.origin.afterAll front
  have htext : (s₁ ++ "\n;\n" ++ s₂).toList = s₁.toList ++ '\n' :: ([';'] ++ '\n' :: s₂.toList) := by
    simp
  -- the semicolon, which is the only item between the newlines
  have hsemi : (⟨[';'], q, q, false⟩ : Lexer).contents.1 = [.ok ⟨.char ';', ⟨q, q.after ';'⟩⟩] := rfl
  -- behind both of them the second text starts, on a line of its own
  have hplace : q.afterAll [';', '\n'] =
      Position.origin.shift (s₁.toList.count '\n' + 2) (s₁.utf8ByteSize + 3) := by
    rw [← Position.afterAll_append, ← sum_utf8Size]
    have hfront : front ++ [';', '\n'] = (s₁.toList ++ ['\n', ';']) ++ ['\n'] := by simp [front]
    rw [hfront, Position.afterAll_newline, List.count_append, List.map_append, List.sum_append]
    rfl
  have hsecond : (⟨s₂.toList, q.afterAll [';', '\n'], q.afterAll [';', '\n'], false⟩ : Lexer).contents =
      ((ofText s₂).contents.1.map (moveItem place), (ofText s₂).contents.2.move place) := by
    have hplaced : (ofText s₂).Placed := ⟨Nat.one_pos, Nat.one_pos⟩
    rw [hplace]
    exact contents_moveBy (Span.shiftOr_movesBy nowhere _ _) hplaced
  refine ⟨⟨.char ';', ⟨q, q.after ';'⟩⟩, rfl, ?_⟩
  rw [ofText, ofChars, htext, contents_newline _ _ _ _ q, contents_newline _ _ _ _ (q.afterAll [';', '\n']),
    hsemi, show [';'] ++ ['\n'] = [';', '\n'] from rfl, hsecond]
  rfl

end Lexer

end ScalarLang
