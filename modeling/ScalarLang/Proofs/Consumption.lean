import ScalarLang.Proofs.Stretches

/-!
# What a lexer has consumed

A lexer counts lines, columns and bytes character by character.  However it is asked, for characters, for
a look ahead or for items in any order, what it has not consumed is the end of the text, and its counters
tell what has been consumed: they are the numbers of newlines, of characters behind the last newline and of
bytes.  The spans that it gives to items are counted in the same way.

* `Position.behind` — the position behind a text, told from the text as a whole.
* `Position.afterAll_origin` — counting character by character comes to the same.
* `Lexer.Request`, `Lexer.answer`, `Lexer.answers` — what can be asked of a lexer, in any order.
* `Lexer.Stands` — how much a lexer has consumed, and where its last item started.
* `Lexer.Stands.answer`, `Lexer.Stands.answers` — one request keeps this, and so do any number.
* `Lexer.positions_tell` — the positions of a lexer and the spans of its items.
-/

namespace ScalarLang

/-! ### Positions told from the text -/

namespace Position

/-- The position behind a text: its line is one more than there are newlines, its column one more than
there are characters behind the last of them, and its offset is the number of bytes. -/
def behind (cs : List Char) : Position :=
  ⟨1 + cs.count '\n', 1 + (cs.rtakeWhile (· != '\n')).length, (String.ofList cs).utf8ByteSize⟩

theorem behind_snoc (cs : List Char) (c : Char) : behind (cs ++ [c]) = (behind cs).after c := by
  have hbytes : (String.ofList (cs ++ [c])).utf8ByteSize
      = (String.ofList cs).utf8ByteSize + c.utf8Size := by
    rw [String.ofList_append, String.utf8ByteSize_append, ← String.singleton_eq_ofList,
      String.utf8ByteSize_singleton]
  by_cases hc : c = '\n'
  · have hsize : c.utf8Size = 1 := by
      rw [hc]
      rfl
    rw [behind, hbytes, hsize, after, if_pos hc, hc, List.rtakeWhile_concat_neg _ _ _ (by decide),
      List.count_append]
    rfl
  · have hcount : [c].count '\n' = 0 := List.count_singleton.trans (if_neg (by simpa using hc))
    rw [behind, hbytes, after, if_neg hc, List.rtakeWhile_concat_pos _ _ _ (by simpa using hc),
      List.count_append, hcount, List.length_append]
    rfl

/-- **Counting character by character tells the position behind a text.** -/
theorem afterAll_origin (cs : List Char) : origin.afterAll cs = behind cs := by
  induction cs using List.reverseRecOn with
  | nil => rfl
  | append_singleton cs c ih => rw [afterAll_append, ih, behind_snoc, afterAll_cons, afterAll_nil]

end Position

namespace Lexer

/-! ### Requests -/

/-- What can be asked of a lexer: to step over a character, to look at the one ahead, for the next item,
and for the next item unless the end of the input has been given. -/
inductive Request where
  | advance
  | peek
  | next
  | next?
deriving DecidableEq, Repr

/-- A character or an item, unless there is none. -/
inductive Answer where
  | char (c? : Option Char)
  | item (item? : Option Item)

def answer (lx : Lexer) : Request → Answer × Lexer
  | .advance => (.char lx.advance.1, lx.advance.2)
  | .peek => (.char lx.peek, lx)
  | .next => (.item (some lx.next.1), lx.next.2)
  | .next? => (.item lx.next?.1, lx.next?.2)

/-- The answers to requests, one after the other. -/
def answers (lx : Lexer) : List Request → List Answer × Lexer
  | [] => ([], lx)
  | request :: requests =>
    let (answer, lx) := lx.answer request
    let (rest, lx) := lx.answers requests
    (answer :: rest, lx)

/-! ### The consumed text -/

variable {text consumed earlier : List Char} {lx : Lexer}

/-- The lexer has consumed `consumed` of the text, and its last item started behind `earlier`. -/
structure Stands (text consumed earlier : List Char) (lx : Lexer) : Prop where
  text_eq : text = consumed ++ lx.rest
  position_eq : lx.position = Position.behind consumed
  start_eq : lx.start = Position.behind earlier
  isPrefix : earlier <+: consumed

/-- The item stands in the text where its span says: the span is that of the characters that the item is
spelled with, or it is empty and the item is the end of the input. -/
def Found (text : List Char) (item : Item) : Prop :=
  ∃ before inside after, text = before ++ (inside ++ after) ∧
    itemSpan item = ⟨Position.behind before, Position.behind (before ++ inside)⟩ ∧
    (Spells after (itemSpan item) inside item ∨
      item = .ok ⟨.eof, itemSpan item⟩ ∧ inside = [] ∧ after = [])

theorem stands_ofChars (cs : List Char) : (ofChars cs).Stands cs [] [] :=
  ⟨rfl, rfl, rfl, List.prefix_rfl⟩

namespace Stands

theorem position_after (h : lx.Stands text consumed earlier) (cs : List Char) :
    lx.position.afterAll cs = Position.behind (consumed ++ cs) := by
  rw [h.position_eq, ← Position.afterAll_origin, ← Position.afterAll_origin, Position.afterAll_append]

theorem advance (h : lx.Stands text consumed earlier) :
    ∃ consumed', lx.advance.2.Stands text consumed' earlier := by
  cases hrest : lx.rest with
  | nil =>
    refine ⟨consumed, ?_⟩
    rw [Lexer.advance, hrest]
    exact h
  | cons c rest =>
    refine ⟨consumed ++ [c], ?_, ?_, ?_, h.isPrefix.trans (List.prefix_append _ _)⟩
    · rw [h.text_eq, hrest, Lexer.advance, hrest, List.append_assoc]
      rfl
    · rw [Lexer.advance, hrest]
      exact h.position_after [c]
    · rw [Lexer.advance, hrest]
      exact h.start_eq

/-- The next item stands behind what has been consumed, and the lexer then stands behind the item. -/
theorem next (h : lx.Stands text consumed earlier) :
    Found text lx.next.1 ∧ ∃ consumed' earlier', lx.next.2.Stands text consumed' earlier' := by
  rcases lx.exists_next with ⟨filler, slice, after, item, hrest, -, hs, hnext⟩ | ⟨-, hnext⟩
  · have htext : text = (consumed ++ filler) ++ (slice ++ after) := by
      rw [h.text_eq, hrest, List.append_assoc]
    have hstart := h.position_after filler
    have hstop := h.position_after (filler ++ slice)
    rw [← List.append_assoc] at hstop
    rw [hstart, hstop] at hs hnext
    rw [hnext]
    refine ⟨⟨consumed ++ filler, slice, after, htext, hs.itemSpan_eq, .inl ?_⟩,
      consumed ++ filler ++ slice, consumed ++ filler, ?_, rfl, rfl, List.prefix_append _ _⟩
    · rw [hs.itemSpan_eq]
      exact hs
    · exact htext.trans (List.append_assoc _ _ _).symm
  · have htext : text = (consumed ++ lx.rest) ++ ([] ++ []) := by
      rw [List.append_nil, List.append_nil]
      exact h.text_eq
    rw [h.position_after lx.rest] at hnext
    rw [hnext]
    refine ⟨⟨consumed ++ lx.rest, [], [], htext, ?_, .inr ⟨rfl, rfl, rfl⟩⟩,
      consumed ++ lx.rest, consumed ++ lx.rest, ?_, rfl, rfl, List.prefix_rfl⟩
    · rw [List.append_nil]
      rfl
    · rw [List.append_nil]
      exact h.text_eq

/-- One request: what it gives stands where it says, and the lexer has consumed as much or more. -/
theorem answer (h : lx.Stands text consumed earlier) (request : Request) :
    (∀ item, (lx.answer request).1 = .item (some item) → Found text item) ∧
      ∃ consumed' earlier', (lx.answer request).2.Stands text consumed' earlier' := by
  obtain ⟨hfound, consumed', earlier', hnext⟩ := h.next
  cases request with
  | advance =>
    obtain ⟨consumed', hadvance⟩ := h.advance
    exact ⟨by simp [Lexer.answer], consumed', earlier, hadvance⟩
  | peek => exact ⟨by simp [Lexer.answer], consumed, earlier, h⟩
  | next =>
    refine ⟨fun item hitem => ?_, consumed', earlier', hnext⟩
    cases hitem
    exact hfound
  | next? =>
    cases hfin : lx.finished with
    | true =>
      have heq : lx.next? = (none, lx) := by rw [next?, if_pos hfin]
      rw [Lexer.answer, heq]
      exact ⟨by simp, consumed, earlier, h⟩
    | false =>
      rw [Lexer.answer, next?_of_next hfin rfl]
      refine ⟨fun item hitem => ?_, consumed', earlier', ?_⟩
      · cases hitem
        exact hfound
      · -- only the mark of having finished is set
        show Stands text consumed' earlier'
          (if isEnd lx.next.1 then { lx.next.2 with finished := true } else lx.next.2)
        split
        · exact ⟨hnext.text_eq, hnext.position_eq, hnext.start_eq, hnext.isPrefix⟩
        · exact hnext

/-- Any number of requests, in any order. -/
theorem answers (h : lx.Stands text consumed earlier) (requests : List Request) :
    (∀ item, .item (some item) ∈ (lx.answers requests).1 → Found text item) ∧
      ∃ consumed' earlier', (lx.answers requests).2.Stands text consumed' earlier' := by
  induction requests generalizing lx consumed earlier with
  | nil => exact ⟨by simp [Lexer.answers], consumed, earlier, h⟩
  | cons request requests ih =>
    obtain ⟨hfound, consumed', earlier', hanswer⟩ := h.answer request
    obtain ⟨hrest, hstands⟩ := ih hanswer
    refine ⟨fun item hitem => ?_, hstands⟩
    rcases List.mem_cons.1 hitem with hitem | hitem
    · exact hfound item hitem.symm
    · exact hrest item hitem

end Stands

/-- **Positions tell what has been consumed.**  However a lexer is asked, in any order: the characters it
has not consumed are the end of the text.  Its line is one more than the number of newlines consumed, its
column one more than the number of characters behind the last of them, and its offset the number of bytes
consumed.  Its last item started at the position behind some part of what it has consumed.  The span of
each item that it gave, token or error, goes from the position in front of the first of the characters that
spell the item to the position behind the last; that of the end of the input is empty and behind the
text. -/
theorem positions_tell (text : String) (requests : List Request) :
    let (answers, lx) := (ofText text).answers requests
    ∃ consumed, text.toList = consumed ++ lx.rest ∧
      lx.position = ⟨1 + consumed.count '\n', 1 + (consumed.rtakeWhile (· != '\n')).length,
        (String.ofList consumed).utf8ByteSize⟩ ∧
      (∃ earlier, earlier <+: consumed ∧ lx.start = Position.behind earlier) ∧
      ∀ item, .item (some item) ∈ answers → Found text.toList item := by
  obtain ⟨hfound, consumed, earlier, h⟩ := (stands_ofChars text.toList).answers requests
  exact ⟨consumed, h.text_eq, h.position_eq, ⟨earlier, h.isPrefix, h.start_eq⟩, hfound⟩

end Lexer

end ScalarLang
