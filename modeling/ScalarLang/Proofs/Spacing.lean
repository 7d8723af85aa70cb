import ScalarLang.Proofs.Progress
import ScalarLang.Proofs.Seams

/-!
# Filler between items

Filler can be put in wherever an item starts or ends, and the items stay what they are.  In front of an
item it is more of the filler that is there already.  Behind one it starts with a blank or with `#`, and
no item goes on with either.  Behind the last item it is taken in by a comment that is still open there,
up to its first newline.

* `Visible` — the characters that filler does not start with.
* `Filler.fillerLength_append`, `LastFiller.fillerLength_eq` — the lexer steps over all filler.
* `lexeme_eq_of_head` — an item ends as well in front of other text that does not go on with it.
* `unplaced` — an item without its place.
* `Lexer.readings_insert` — filler put into the text ahead of a lexer.
* `items_insert_filler` — filler put into a source text.
-/

namespace ScalarLang

/-! ### Filler and what it starts with -/

/-- The character is no blank and starts no comment. -/
def Visible (c : Char) : Prop := isBlank c = false ∧ c ≠ '#'

theorem visible_of_isOperatorChar {c : Char} (h : isOperatorChar c = true) : Visible c := by
  have hmem : c ∈ operatorChars := List.contains_iff_mem.1 h
  simp only [operatorChars, List.mem_cons, List.not_mem_nil, or_false] at hmem
  rcases hmem with rfl | rfl | rfl | rfl | rfl | rfl | rfl | rfl <;> exact ⟨by decide, by decide⟩

/-- Number literals are made of digits, letters, points and signs. -/
theorem visible_of_next? {s s' : Literal.State} {c : Char} (h : s.next? c = some s') : Visible c := by
  have hclass : c.isDigit = true ∨ c = '.' ∨ (c = 'e' ∨ c = 'E') ∨ c = '+' ∨ c = '-' := by
    cases s <;> simp only [Literal.State.next?] at h <;> grind
  rcases hclass with hd | rfl | (rfl | rfl) | rfl | rfl
  · exact starts_of_isAlphanum (by rw [Char.isAlphanum, hd, Bool.or_true])
  all_goals exact ⟨by decide, by decide⟩

namespace Filler

variable {filler filler' : List Char}

theorem head_not_visible (h : Filler filler) : ∀ c ∈ filler.head?, ¬ Visible c := by
  intro c hc hv
  cases h with
  | nil => cases hc
  | blank hb _ =>
    cases hc
    rw [hv.1] at hb
    cases hb
  | comment _ _ =>
    cases hc
    exact hv.2 rfl

theorem append (h : Filler filler) (h' : Filler filler') : Filler (filler ++ filler') := by
  induction h with
  | nil => exact h'
  | blank hc _ ih => exact .blank hc ih
  | @comment body cs hb _ ih =>
    have hcomment : Filler ('#' :: (body ++ '\n' :: (cs ++ filler'))) := .comment hb ih
    simpa using hcomment

/-- Behind its first newline, filler is filler again. -/
theorem newline_cases (h : Filler filler) :
    '\n' ∉ filler ∨
      ∃ body rest, filler = body ++ '\n' :: rest ∧ '\n' ∉ body ∧ Filler rest := by
  induction h with
  | nil => exact .inl (by simp)
  | @blank c cs hc h ih =>
    by_cases hnl : c = '\n'
    · exact .inr ⟨[], cs, by rw [hnl]; rfl, by simp, h⟩
    · rcases ih with hnone | ⟨body, rest, rfl, hb, hrest⟩
      · exact .inl (by simpa [hnone] using Ne.symm hnl)
      · exact .inr ⟨c :: body, rest, rfl, by simpa [hb] using Ne.symm hnl, hrest⟩
  | @comment body cs hb h _ => exact .inr ⟨'#' :: body, cs, rfl, by simpa using hb, h⟩

end Filler

/-- Filler behind the last item goes on with the comment that is open there. -/
theorem LastFiller.append {cs filler : List Char} (h : LastFiller cs) (hf : Filler filler) :
    LastFiller (cs ++ filler) := by
  cases h with
  | closed h => exact .closed (h.append hf)
  | @unended cs body h hb =>
    rw [List.append_assoc, List.cons_append]
    rcases hf.newline_cases with hnone | ⟨body', rest, rfl, hb', hrest⟩
    · exact .unended h (by simp [hb, hnone])
    · have hcomment : Filler ('#' :: ((body ++ body') ++ '\n' :: rest)) :=
        .comment (by simp [hb, hb']) hrest
      rw [List.append_assoc] at hcomment
      exact .closed (h.append hcomment)

/-- Filler and the filler at the end of a text. -/
theorem LastFiller.of_append {filler cs : List Char} (h : LastFiller cs) (hf : Filler filler) :
    LastFiller (filler ++ cs) := by
  cases h with
  | closed h => exact .closed (hf.append h)
  | unended h hb =>
    rw [← List.append_assoc]
    exact .unended (hf.append h) hb

/-- An open comment takes in a text without a newline. -/
theorem fillerLength_of_not_mem {body : List Char} (h : '\n' ∉ body) :
    Lexer.fillerLength true body = body.length := by
  rcases (fillerLength_split body).2 with ⟨-, hlen⟩ | ⟨front, filler, after, -, rfl, -, -⟩
  · exact hlen
  · exact absurd (by simp) h

/-- **The lexer steps over all filler.** -/
theorem Filler.fillerLength_append {filler : List Char} (h : Filler filler) (cs : List Char) :
    Lexer.fillerLength false (filler ++ cs) = filler.length + Lexer.fillerLength false cs := by
  induction h with
  | nil => rw [List.nil_append, List.length_nil, Nat.zero_add]
  | @blank c filler hc _ ih =>
    simp only [List.cons_append, Lexer.fillerLength, hc, if_true, Bool.false_eq_true, if_false, ih,
      List.length_cons]
    omega
  | @comment body filler hb _ ih =>
    have hbody := Lexer.fillerLength_newline true body (filler ++ cs)
    rw [if_pos (fillerLength_of_not_mem hb), ih] at hbody
    have hblank : ¬ isBlank '#' = true := by decide
    have hsplit : '#' :: (body ++ '\n' :: filler) ++ cs = '#' :: (body ++ '\n' :: (filler ++ cs)) := by
      simp
    rw [hsplit, Lexer.fillerLength, if_neg Bool.false_ne_true, if_neg hblank, if_pos rfl, hbody]
    simp only [List.length_cons, List.length_append]
    omega

theorem LastFiller.fillerLength_eq {cs : List Char} (h : LastFiller cs) :
    Lexer.fillerLength false cs = cs.length := by
  cases h with
  | closed h =>
    have hall := h.fillerLength_append []
    simpa [Lexer.fillerLength] using hall
  | @unended cs body h hb =>
    have hblank : ¬ isBlank '#' = true := by decide
    rw [h.fillerLength_append, Lexer.fillerLength, if_neg Bool.false_ne_true, if_neg hblank, if_pos rfl,
      fillerLength_of_not_mem hb, List.length_append, List.length_cons]
    omega

/-! ### Where an item ends -/

/-- What follows characters of one class matters only by its first character. -/
theorem takeWhile_eq_of_head {P : Char → Bool} {slice after after' : List Char}
    (h : (slice ++ after).takeWhile P = slice)
    (hhead : ∀ d ∈ after'.head?, P d = false ∨ d ∈ after.head?) :
    (slice ++ after').takeWhile P = slice := by
  have hall : ∀ c ∈ slice, P c = true := by
    intro c hc
    rw [← h] at hc
    exact List.mem_takeWhile_imp hc
  have hstop : ∀ d ∈ after.head?, P d = false := by
    intro d hd
    rw [List.takeWhile_append_of_pos hall] at h
    obtain ⟨rest, rfl⟩ : ∃ rest, after = d :: rest := List.head?_eq_some_iff.1 hd
    by_contra hp
    rw [List.takeWhile_cons_of_pos (by simpa using hp)] at h
    simp at h
  refine takeWhile_append_eq hall fun d hd => ?_
  rcases hhead d hd with hp | hafter
  · exact hp
  · exact hstop d hafter

/-- **An item that ends in front of a text ends as well in front of another one** that starts with filler
or with the same character. -/
theorem lexeme_eq_of_head {slice after after' : List Char} (hne : slice ≠ [])
    (hl : lexeme (slice ++ after) = slice)
    (hhead : ∀ d ∈ after'.head?, ¬ Visible d ∨ d ∈ after.head?) : lexeme (slice ++ after') = slice := by
  obtain ⟨c, cs, rfl⟩ := List.exists_cons_of_ne_nil hne
  -- no character of filler belongs to a class that items are made of
  have hclass : ∀ P : Char → Bool, (∀ d, P d = true → Visible d) →
      ∀ d ∈ after'.head?, P d = false ∨ d ∈ after.head? := by
    intro P hP d hd
    rcases hhead d hd with hv | hafter
    · exact .inl (Bool.eq_false_iff.2 (mt (hP d) hv))
    · exact .inr hafter
  rw [List.cons_append, lexeme] at hl ⊢
  rw [← List.cons_append] at hl ⊢
  by_cases hword : isWordStart c = true
  · rw [if_pos hword] at hl ⊢
    exact takeWhile_eq_of_head hl (hclass isWordChar fun d => starts_of_isAlphanum)
  rw [if_neg hword] at hl ⊢
  by_cases hnumber : isNumberStart c = true
  · rw [if_pos hnumber] at hl ⊢
    obtain ⟨taken, rest, s, hsplit, hrun, hstop⟩ := Recognizer.exists_split .start (c :: cs ++ after)
    rw [hsplit, Recognizer.readAll_eq "" hrun hstop] at hl
    obtain rfl : taken = c :: cs := by simpa using hl
    obtain rfl : after = rest := List.append_cancel_left hsplit
    have hstop' : ∀ d ∈ after'.head?, s.next? d = none := by
      intro d hd
      rcases hhead d hd with hv | hafter
      · exact Option.eq_none_iff_forall_ne_some.2 fun s' hs => hv (visible_of_next? hs)
      · exact hstop d hafter
    rw [Recognizer.readAll_eq "" hrun hstop']
    simp
  rw [if_neg hnumber] at hl ⊢
  by_cases hsymbol : isOperatorChar c = true
  · rw [if_pos hsymbol] at hl ⊢
    exact takeWhile_eq_of_head hl (hclass isOperatorChar fun d => visible_of_isOperatorChar)
  · rw [if_neg hsymbol] at hl ⊢
    exact hl

/-! ### Items without their places -/

/-- The item without its place: the kind and the value of a token, or an error with its text. -/
def unplaced : Item → Item := moveItem fun _ => .nowhere

theorem unplaced_itemOf (slice : List Char) (span : Span) :
    unplaced (itemOf slice span) = itemOf slice .nowhere :=
  (itemOf_move (fun _ => .nowhere) slice span).symm

theorem isEnd_unplaced (item : Item) : Lexer.isEnd (unplaced item) = Lexer.isEnd item := by
  cases item <;> rfl

namespace Lexer

variable {lx lx' : Lexer}

theorem contentsFor_unplaced (h : lx.rest = lx'.rest) (n : Nat) :
    (lx.contentsFor n).1.map unplaced = (lx'.contentsFor n).1.map unplaced := by
  induction n generalizing lx lx' with
  | zero => rfl
  | succ n ih =>
    have hskip : lx.skipFiller.rest = lx'.skipFiller.rest := by
      simp only [skipFiller, advanceBy, mark, h]
    have hitem : unplaced lx.next.1 = unplaced lx'.next.1 := by
      show unplaced (itemOf (lexeme lx.skipFiller.rest) _) = unplaced (itemOf (lexeme lx'.skipFiller.rest) _)
      rw [unplaced_itemOf, unplaced_itemOf, hskip]
    have hrest : lx.next.2.rest = lx'.next.2.rest := by
      show lx.skipFiller.rest.drop (lexeme lx.skipFiller.rest).length =
        lx'.skipFiller.rest.drop (lexeme lx'.skipFiller.rest).length
      rw [hskip]
    have hcons : ∀ lx : Lexer, (lx.contentsFor (n + 1)).1.map unplaced =
        if isEnd lx.next.1 then [] else unplaced lx.next.1 :: (lx.next.2.contentsFor n).1.map unplaced := by
      intro lx
      cases hnext : lx.next with
      | mk item behind =>
        cases hend : isEnd item with
        | false => simp only [contentsFor_of_next hnext hend, List.map_cons, Bool.false_eq_true, if_false]
        | true =>
          cases item with
          | error e => cases hend
          | ok token =>
            simp only [contentsFor_of_end hnext (show token.kind = .eof by simpa [isEnd] using hend),
              if_true, List.map_nil]
    rw [hcons, hcons, ← isEnd_unplaced lx.next.1, ← isEnd_unplaced lx'.next.1, hitem, ih hrest]

/-- What the items are depends on the text ahead only. -/
theorem contents_unplaced (h : lx.rest = lx'.rest) :
    lx.contents.1.map unplaced = lx'.contents.1.map unplaced := by
  rw [contents, contents, h]
  exact contentsFor_unplaced h _

/-- Behind the last item there is nothing but filler. -/
theorem contents_of_lastFiller (h : LastFiller lx.rest) :
    lx.contents = ([], ⟨.eof, ⟨lx.position.afterAll lx.rest, lx.position.afterAll lx.rest⟩⟩) := by
  have hsplit : lx.rest = lx.rest ++ ([] ++ []) := by simp
  have hnext := next_eq hsplit h.fillerLength_eq rfl
  rw [List.append_nil] at hnext
  exact contentsFor_of_end hnext rfl

/-- The characters of an item, behind filler and in front of other text. -/
structure Cuts (slice after : List Char) : Prop where
  start : ∃ c ∈ slice.head?, Visible c
  lexeme : lexeme (slice ++ after) = slice

theorem Cuts.ne_nil {slice after : List Char} (h : Cuts slice after) : slice ≠ [] := by
  obtain ⟨c, hc, -⟩ := h.start
  rintro rfl
  cases hc

theorem Cuts.of_head {slice after after' : List Char} (h : Cuts slice after)
    (hhead : ∀ d ∈ after'.head?, ¬ Visible d ∨ d ∈ after.head?) : Cuts slice after' :=
  ⟨h.start, lexeme_eq_of_head h.ne_nil h.lexeme hhead⟩

theorem Cuts.isEnd_itemOf {slice after : List Char} (h : Cuts slice after) (span : Span) :
    isEnd (itemOf slice span) = false := by
  obtain ⟨c, hc, hv⟩ := h.start
  obtain ⟨cs, rfl⟩ : ∃ cs, slice = c :: cs := List.head?_eq_some_iff.1 hc
  obtain ⟨slice, after', -, -, hslice, hspells⟩ := @lexeme_spells c (cs ++ after) span hv.1 hv.2
  obtain rfl : c :: cs = slice := h.lexeme.symm.trans hslice
  exact hspells.isEnd_eq

/-- A text starts with filler and an item, or there is only filler. -/
theorem exists_cuts (cs : List Char) :
    (∃ filler slice after, cs = filler ++ (slice ++ after) ∧ Filler filler ∧ Cuts slice after) ∨
      LastFiller cs := by
  obtain ⟨⟨filler, text, rfl, -, hbefore⟩, -⟩ := fillerLength_split cs
  cases text with
  | nil =>
    rw [List.append_nil]
    exact .inr hbefore.last
  | cons c cs =>
    obtain ⟨hblank, hhash⟩ := hbefore.stop c rfl
    obtain ⟨slice, after, hsplit, hne, hl, -⟩ := @lexeme_spells c cs .nowhere hblank hhash
    obtain ⟨d, ds, rfl⟩ := List.exists_cons_of_ne_nil hne
    obtain rfl : c = d := (List.cons.inj hsplit).1
    rw [hsplit] at hl ⊢
    exact .inl ⟨filler, c :: ds, after, rfl, hbefore.filler (by simp), ⟨c, rfl, hblank, hhash⟩, hl⟩

/-- The lexer behind an item and the filler in front of it. -/
def behind (lx : Lexer) (filler slice after : List Char) : Lexer :=
  ⟨after, lx.position.afterAll (filler ++ slice), lx.position.afterAll filler, lx.finished⟩

/-- Filler and an item at the head of a text give the item, and then come those of the text behind it. -/
theorem contents_of_cuts {filler slice after : List Char} (hrest : lx.rest = filler ++ (slice ++ after))
    (hf : Filler filler) (hc : Cuts slice after) :
    lx.contents =
      (itemOf slice ⟨lx.position.afterAll filler, lx.position.afterAll (filler ++ slice)⟩ ::
          (lx.behind filler slice after).contents.1,
        (lx.behind filler slice after).contents.2) := by
  have hnone : fillerLength false (slice ++ after) = 0 := by
    obtain ⟨c, hc, hblank, hhash⟩ := hc.start
    obtain ⟨cs, rfl⟩ : ∃ cs, slice = c :: cs := List.head?_eq_some_iff.1 hc
    simp [fillerLength, hblank, hhash]
  have hlen : fillerLength false lx.rest = filler.length := by
    rw [hrest, hf.fillerLength_append, hnone, Nat.add_zero]
  have hslice := List.length_pos_iff.2 hc.ne_nil
  refine contents_of_next (next_eq hrest hlen hc.lexeme) (hc.isEnd_itemOf _) ?_
  show after.length < lx.rest.length
  rw [hrest, List.length_append, List.length_append]
  omega

/-- What holds at the end of a text, and in front of an item if it holds behind it, holds everywhere. -/
theorem induct {P : Lexer → Prop} (last : ∀ lx, LastFiller lx.rest → P lx)
    (item : ∀ lx filler slice after, lx.rest = filler ++ (slice ++ after) → Filler filler →
      Cuts slice after → P (lx.behind filler slice after) → P lx) (lx : Lexer) : P lx := by
  induction hn : lx.rest.length using Nat.strong_induction_on generalizing lx with
  | _ n ih =>
    rcases exists_cuts lx.rest with ⟨filler, slice, after, hrest, hf, hc⟩ | hlast
    · have hslice := List.length_pos_iff.2 hc.ne_nil
      rw [hrest, List.length_append, List.length_append] at hn
      exact item lx filler slice after hrest hf hc (ih after.length (by omega) _ rfl)
    · exact last lx hlast

theorem itemSpan_itemOf (slice : List Char) (span : Span) : itemSpan (itemOf slice span) = span := by
  cases slice with
  | nil => rfl
  | cons c cs =>
    rw [itemOf]
    split
    · rfl
    · split
      · unfold numberItem
        split <;> rfl
      · split <;> rfl

/-- All items stand behind the lexer. -/
theorem position_le_of_mem_contents (lx : Lexer) :
    ∀ item ∈ lx.contents.1 ++ [.ok lx.contents.2], lx.position.offset ≤ (itemSpan item).start.offset ∧
      (itemSpan item).start.offset ≤ (itemSpan item).stop.offset := by
  induction lx using Lexer.induct with
  | last lx h =>
    intro item hitem
    rw [contents_of_lastFiller h, List.nil_append, List.mem_singleton] at hitem
    rw [hitem]
    exact ⟨Position.offset_le_afterAll _ _, le_refl _⟩
  | item lx filler slice after hrest hf hc ih =>
    intro item hitem
    have hfiller := lx.position.offset_le_afterAll filler
    have hslice := (lx.position.afterAll filler).offset_le_afterAll slice
    rw [← Position.afterAll_append] at hslice
    rw [contents_of_cuts hrest hf hc, List.cons_append] at hitem
    rcases List.mem_cons.1 hitem with rfl | hitem
    · rw [itemSpan_itemOf]
      exact ⟨hfiller, hslice⟩
    · obtain ⟨hstart, hstop⟩ := ih item hitem
      have hbehind : (lx.position.afterAll (filler ++ slice)).offset ≤ (itemSpan item).start.offset := hstart
      exact ⟨by omega, hstop⟩

end Lexer

/-! ### Points of a text -/

namespace Position

variable {p : Position} {front back front' back' : List Char}

/-- Of two points of a text, the one with fewer bytes in front of it comes first. -/
theorem exists_eq_append (h : front ++ back = front' ++ back')
    (hp : (p.afterAll front).offset ≤ (p.afterAll front').offset) :
    ∃ more, front' = front ++ more ∧ back = more ++ back' := by
  rcases List.append_eq_append_iff.1 h with ⟨more, hfront, hback⟩ | ⟨more, hfront, hback⟩
  · exact ⟨more, hfront, hback⟩
  · cases more with
    | nil => exact ⟨[], by simpa using hfront.symm, by simpa using hback.symm⟩
    | cons c more =>
      have hlt := (p.afterAll front').offset_lt_afterAll (List.cons_ne_nil c more)
      rw [← afterAll_append, ← hfront] at hlt
      omega

/-- A text has one point for each place. -/
theorem afterAll_inj (h : front ++ back = front' ++ back')
    (hp : p.afterAll front = p.afterAll front') : front = front' ∧ back = back' := by
  obtain ⟨more, hfront, -⟩ := exists_eq_append h (le_of_eq (congrArg offset hp))
  obtain ⟨more', hfront', -⟩ := exists_eq_append h.symm (le_of_eq (congrArg offset hp.symm))
  have hnil : more = [] := by
    have hlen := congrArg List.length hfront
    have hlen' := congrArg List.length hfront'
    rw [List.length_append] at hlen hlen'
    exact List.length_eq_zero_iff.1 (by omega)
  rw [hnil, List.append_nil] at hfront
  exact ⟨hfront.symm, List.append_cancel_left (hfront ▸ h)⟩

end Position

/-! ### Filler put in -/

namespace Lexer

variable {gap filler slice after : List Char}

/-- What the items of a text are. -/
def readings (cs : List Char) : List Item := (ofChars cs).contents.1.map unplaced

theorem map_unplaced_contents (lx : Lexer) : lx.contents.1.map unplaced = readings lx.rest :=
  contents_unplaced rfl

theorem readings_of_lastFiller {cs : List Char} (h : LastFiller cs) : readings cs = [] := by
  have hlast : LastFiller (ofChars cs).rest := h
  rw [readings, contents_of_lastFiller hlast]
  rfl

theorem readings_of_cuts (hg : Filler gap) (hc : Cuts slice after) :
    readings (gap ++ (slice ++ after)) = itemOf slice .nowhere :: readings after := by
  have hrest : (ofChars (gap ++ (slice ++ after))).rest = gap ++ (slice ++ after) := rfl
  rw [readings, contents_of_cuts hrest hg hc, List.map_cons, unplaced_itemOf, map_unplaced_contents]
  rfl

/-- Filler in front of a text. -/
theorem readings_filler_append (hf : Filler filler) (cs : List Char) :
    readings (filler ++ cs) = readings cs := by
  rcases exists_cuts cs with ⟨gap, slice, after, rfl, hg, hc⟩ | hlast
  · rw [← List.append_assoc, readings_of_cuts (hf.append hg) hc, readings_of_cuts hg hc]
  · rw [readings_of_lastFiller hlast, readings_of_lastFiller (hlast.of_append hf)]

/-- Filler behind the first item. -/
theorem readings_insert_behind (hf : Filler filler) (hg : Filler gap) (hc : Cuts slice after) :
    readings (gap ++ (slice ++ (filler ++ after))) = readings (gap ++ (slice ++ after)) := by
  have hc' : Cuts slice (filler ++ after) := by
    refine hc.of_head fun d hd => ?_
    cases filler with
    | nil => exact .inr hd
    | cons c filler => exact .inl (hf.head_not_visible d hd)
  rw [readings_of_cuts hg hc', readings_of_cuts hg hc, readings_filler_append hf]

/-- **Filler put in where an item starts or ends leaves the items as they are.**  By induction on the
items in front of that point. -/
theorem readings_insert (hf : Filler filler) (lx : Lexer) :
    ∀ front back, lx.rest = front ++ back → ∀ item ∈ lx.contents.1 ++ [.ok lx.contents.2],
      lx.position.afterAll front = (itemSpan item).start ∨
        lx.position.afterAll front = (itemSpan item).stop →
      readings (front ++ (filler ++ back)) = readings lx.rest := by
  induction lx using Lexer.induct with
  | last lx h =>
    intro front back hrest item hitem hpoint
    rw [contents_of_lastFiller h, List.nil_append, List.mem_singleton] at hitem
    have hend : lx.position.afterAll front = lx.position.afterAll lx.rest := by
      rw [hitem] at hpoint
      exact hpoint.elim id id
    obtain ⟨rfl, rfl⟩ : front = lx.rest ∧ back = [] :=
      Position.afterAll_inj (by rw [← hrest, List.append_nil]) hend
    rw [List.append_nil, readings_of_lastFiller (h.append hf), readings_of_lastFiller h]
  | item lx gap slice after hrest hg hc ih =>
    intro front back hsplit item hitem hpoint
    have htext : front ++ back = gap ++ (slice ++ after) := hsplit.symm.trans hrest
    have htext' : front ++ back = (gap ++ slice) ++ after := htext.trans (List.append_assoc _ _ _).symm
    rw [hrest]
    rw [contents_of_cuts hrest hg hc, List.cons_append] at hitem
    rcases List.mem_cons.1 hitem with rfl | hitem
    · rw [itemSpan_itemOf] at hpoint
      rcases hpoint with hstart | hstop
      · obtain ⟨rfl, rfl⟩ := Position.afterAll_inj htext hstart
        rw [← List.append_assoc, readings_of_cuts (hg.append hf) hc, readings_of_cuts hg hc]
      · obtain ⟨rfl, rfl⟩ := Position.afterAll_inj htext' hstop
        rw [List.append_assoc]
        exact readings_insert_behind hf hg hc
    · have hle : (lx.position.afterAll (gap ++ slice)).offset ≤ (lx.position.afterAll front).offset := by
        have hitem := position_le_of_mem_contents _ item hitem
        have hstart : (lx.position.afterAll (gap ++ slice)).offset ≤ (itemSpan item).start.offset := hitem.1
        rcases hpoint with hpoint | hpoint
        · rw [hpoint]
          exact hstart
        · rw [hpoint]
          exact hstart.trans hitem.2
      obtain ⟨more, rfl, rfl⟩ := Position.exists_eq_append htext'.symm hle
      cases more with
      | nil =>
        rw [List.append_nil, List.append_assoc]
        exact readings_insert_behind hf hg hc
      | cons c more =>
        rw [Position.afterAll_append] at hpoint
        have hmore : readings (c :: more ++ (filler ++ back)) = readings (c :: more ++ back) :=
          ih (c :: more) back rfl item hitem hpoint
        have hc' : Cuts slice (c :: more ++ (filler ++ back)) := hc.of_head fun d hd => .inr hd
        rw [List.append_assoc, List.append_assoc, readings_of_cuts hg hc', readings_of_cuts hg hc, hmore]

end Lexer

/-- The items of a text, with the end of the text as the last of them. -/
theorem map_unplaced_items (text : String) :
    (items text).map unplaced = Lexer.readings text.toList ++ [.ok ⟨.eof, .nowhere⟩] := by
  have hend : unplaced (.ok (Cursor.ofText text).final) = .ok ⟨.eof, .nowhere⟩ := by
    have hkind := (Cursor.ended_ofText text).final
    show Except.ok (Token.mk (Cursor.ofText text).final.kind .nowhere) = _
    rw [hkind]
  rw [items_eq_contents, List.map_append, List.map_singleton, hend]
  rfl

/-- **Layout does not change the items of a text.**  Each token keeps its kind and its value, and each
malformed literal the text that the error gives. -/
theorem items_insert_filler (front back filler : String) (hf : Filler filler.toList) {item : Item}
    (hitem : item ∈ items (front ++ back))
    (hpoint : Position.origin.afterAll front.toList = (Lexer.itemSpan item).start ∨
      Position.origin.afterAll front.toList = (Lexer.itemSpan item).stop) :
    (items (front ++ filler ++ back)).map unplaced = (items (front ++ back)).map unplaced := by
  rw [items_eq_contents] at hitem
  rw [map_unplaced_items, map_unplaced_items]
  have hrest : (Lexer.ofText (front ++ back)).rest = front.toList ++ back.toList := String.toList_append
  have hsame := Lexer.readings_insert hf (Lexer.ofText (front ++ back)) _ _ hrest item hitem hpoint
  rw [String.append_assoc, String.toList_append, String.toList_append, hsame]
  rfl

/-- A comment behind a malformed literal that a word follows at once. -/
theorem items_insert_filler_malformed :
    Filler "# 5\n\t".toList ∧
      Except.error (.malformedNumber "1." ⟨⟨1, 7, 6⟩, ⟨1, 9, 8⟩⟩) ∈ items ("12ab+-1." ++ "x.5.5") ∧
      Position.origin.afterAll "12ab+-1.".toList = ⟨1, 9, 8⟩ ∧
      (items ("12ab+-1." ++ "# 5\n\t" ++ "x.5.5")).map unplaced =
        (items ("12ab+-1." ++ "x.5.5")).map unplaced := by
  have hbody : '\n' ∉ [' ', '5'] := by decide
  have hf : Filler "# 5\n\t".toList := .comment hbody (.blank (by decide) .nil)
  have hitem : Except.error (.malformedNumber "1." ⟨⟨1, 7, 6⟩, ⟨1, 9, 8⟩⟩) ∈
      items ("12ab+-1." ++ "x.5.5") := by decide +kernel
  have hpoint : Position.origin.afterAll "12ab+-1.".toList = ⟨1, 9, 8⟩ := by decide +kernel
  exact ⟨hf, hitem, hpoint, items_insert_filler _ _ _ hf hitem (.inr hpoint)⟩

end ScalarLang
