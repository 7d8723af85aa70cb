import ScalarLang.Proofs.Seams

/-!
# The lines of a text

A line is what stands between two newlines, or between a newline and the start or the end of the text; a
carriage return in front of the newline that ends it does not count.  The line of a number is the one
with that many newlines in front of it, less one, so a point is on the line that its position tells, at
the column that it tells.

* `EndsLine`, `IsLine` — a line of a text, between what is above it and what is below it.
* `IsLine.splitLines_eq` — the line of a number.
* `Position.afterAll_line` — the position of a point on a line.
* `exists_lineStart`, `exists_lineEnd` — every point is on a line.
-/

namespace ScalarLang

variable {above line below left text : List Char} {c : Char} {cs : List Char}

/-- A line ends with the text, at a newline, or at a carriage return and a newline. -/
inductive EndsLine (line : List Char) : List Char → Prop
  | atEnd : EndsLine line []
  | atNewline {rest : List Char} (h : line.getLast? ≠ some '\r') : EndsLine line ('\n' :: rest)
  | atReturn {rest : List Char} : EndsLine line ('\r' :: '\n' :: rest)

/-- A text that a line can start behind: it is empty, or it ends with a newline. -/
def StartsLine (above : List Char) : Prop := above = [] ∨ above.getLast? = some '\n'

instance (above : List Char) : Decidable (StartsLine above) :=
  inferInstanceAs (Decidable (above = [] ∨ above.getLast? = some '\n'))

/-- A line of the text, between what is above it and what is below it. -/
structure IsLine (text above line below : List Char) : Prop where
  text_eq : text = above ++ (line ++ below)
  starts : StartsLine above
  within : '\n' ∉ line
  ends : EndsLine line below

/-! ### Splitting a text -/

theorem splitLines_cons_of_ne (hc : c ≠ '\n') (hcr : c = '\r' → cs.head? ≠ some '\n') :
    splitLines (c :: cs) = (c :: (splitLines cs).headD []) :: (splitLines cs).tail := by
  rw [splitLines.eq_4 c cs hc (by rintro rest rfl rfl; exact hcr rfl rfl)]
  cases splitLines cs <;> rfl

/-- A character in front of a text changes no line but the first. -/
theorem tail_splitLines_cons (hc : c ≠ '\n') (hcs : cs ≠ []) :
    (splitLines (c :: cs)).tail = (splitLines cs).tail := by
  by_cases hcr : c = '\r' → cs.head? ≠ some '\n'
  · rw [splitLines_cons_of_ne hc hcr]
    rfl
  · obtain ⟨rfl, hhead⟩ : c = '\r' ∧ cs.head? = some '\n' := by simpa using hcr
    obtain ⟨rest, rfl⟩ := List.head?_eq_some_iff.1 hhead
    rfl

theorem drop_splitLines_newline (front rest : List Char) :
    (splitLines (front ++ '\n' :: rest)).drop (front.count '\n' + 1) = splitLines rest := by
  induction front with
  | nil => rfl
  | cons c front ih =>
    by_cases hc : c = '\n'
    · subst hc
      rw [List.count_cons_self]
      exact ih
    · rw [List.count_cons_of_ne hc, ← List.drop_tail, List.cons_append,
        tail_splitLines_cons hc (by simp), List.drop_tail]
      exact ih

/-- Each newline ends a line. -/
theorem StartsLine.drop_splitLines (h : StartsLine above) (rest : List Char) :
    (splitLines (above ++ rest)).drop (above.count '\n') = splitLines rest := by
  rcases h with rfl | h
  · rfl
  · obtain ⟨front, rfl⟩ := List.getLast?_eq_some_iff.1 h
    rw [List.append_assoc, List.count_append]
    exact drop_splitLines_newline front rest

/-- The first line of a text. -/
theorem EndsLine.head?_splitLines (h : EndsLine line below) (hline : '\n' ∉ line)
    (hne : line ++ below ≠ []) : (splitLines (line ++ below)).head? = some line := by
  induction line with
  | nil =>
    cases h with
    | atEnd => exact absurd rfl hne
    | atNewline _ => rfl
    | atReturn => rfl
  | cons c line ih =>
    have hc : c ≠ '\n' := fun hc => hline (hc ▸ List.mem_cons_self)
    have hline' : '\n' ∉ line := fun hmem => hline (List.mem_cons_of_mem _ hmem)
    have hends : EndsLine line below := by
      cases h with
      | atEnd => exact .atEnd
      | atReturn => exact .atReturn
      | atNewline h =>
        refine .atNewline fun hlast => h ?_
        rw [List.getLast?_cons, hlast]
        rfl
    -- a carriage return in front of the newline would not count
    have hcr : c = '\r' → (line ++ below).head? ≠ some '\n' := by
      rintro rfl hhead
      cases line with
      | nil =>
        cases h with
        | atEnd => cases hhead
        | atNewline h => exact h rfl
        | atReturn => cases hhead
      | cons d line =>
        have hd : d = '\n' := by simpa using hhead
        exact hline' (hd ▸ List.mem_cons_self)
    rw [List.cons_append, splitLines_cons_of_ne hc hcr]
    by_cases hrest : line ++ below = []
    · rw [hrest, List.append_eq_nil_iff.1 hrest |>.1]
      rfl
    · have hhead := ih hends hline' hrest
      cases hsplit : splitLines (line ++ below) with
      | nil =>
        rw [hsplit] at hhead
        cases hhead
      | cons first lines =>
        rw [hsplit] at hhead
        cases hhead
        rfl

/-- **The line of a number**: the one with so many newlines above it. -/
theorem IsLine.splitLines_eq (h : IsLine text above line below) (hne : line ++ below ≠ []) :
    (splitLines text)[above.count '\n']? = some line := by
  have hdrop := h.starts.drop_splitLines (line ++ below)
  have hhead := h.ends.head?_splitLines h.within hne
  rw [← h.text_eq] at hdrop
  rw [← hdrop, List.head?_drop] at hhead
  exact hhead

/-- Behind the last newline of a text there is no line, unless there is some text. -/
theorem StartsLine.splitLines_eq_none (h : StartsLine above) :
    (splitLines above)[above.count '\n']? = none := by
  have hdrop := h.drop_splitLines []
  rw [List.append_nil] at hdrop
  have hhead : ((splitLines above).drop (above.count '\n')).head? = none := by
    rw [hdrop]
    rfl
  rwa [List.head?_drop] at hhead

/-! ### Points on lines -/

namespace Position

theorem column_afterAll_of_not_mem (p : Position) (h : '\n' ∉ cs) :
    (p.afterAll cs).column = p.column + cs.length := by
  induction cs generalizing p with
  | nil => rfl
  | cons c cs ih =>
    have hc : c ≠ '\n' := fun hc => h (hc ▸ List.mem_cons_self)
    rw [afterAll_cons, ih _ fun hmem => h (List.mem_cons_of_mem _ hmem), after, if_neg hc,
      List.length_cons]
    show p.column + 1 + cs.length = p.column + (cs.length + 1)
    omega

theorem column_of_startsLine (h : StartsLine above) : (origin.afterAll above).column = 1 := by
  rcases h with rfl | h
  · rfl
  · obtain ⟨front, rfl⟩ := List.getLast?_eq_some_iff.1 h
    rw [afterAll_append]
    rfl

/-- **The position of a point on a line** tells how many newlines are above the line and how many
characters of it are in front of the point. -/
theorem afterAll_line (h : StartsLine above) (hleft : '\n' ∉ left) :
    (origin.afterAll (above ++ left)).line = above.count '\n' + 1 ∧
      (origin.afterAll (above ++ left)).column = left.length + 1 := by
  rw [afterAll_append, line_afterAll, line_afterAll, List.count_eq_zero_of_not_mem hleft,
    column_afterAll_of_not_mem _ hleft, column_of_startsLine h]
  exact ⟨Nat.add_comm 1 _, Nat.add_comm 1 _⟩

end Position

/-- Every point of a text is on a line. -/
theorem exists_lineStart (before : List Char) :
    ∃ above left, before = above ++ left ∧ StartsLine above ∧ '\n' ∉ left := by
  induction before using List.reverseRecOn with
  | nil => exact ⟨[], [], rfl, .inl rfl, by simp⟩
  | append_singleton before c ih =>
    by_cases hc : c = '\n'
    · refine ⟨before ++ [c], [], (List.append_nil _).symm, .inr ?_, by simp⟩
      rw [hc, List.getLast?_append]
      rfl
    · obtain ⟨above, left, rfl, hstarts, hleft⟩ := ih
      refine ⟨above, left ++ [c], List.append_assoc _ _ _, hstarts, ?_⟩
      simpa [hleft] using fun h => hc h.symm

/-- The line goes on up to a newline, with or without a carriage return, or to the end of the text. -/
theorem exists_lineEnd (rest : List Char) :
    ∃ right below, rest = right ++ below ∧ '\n' ∉ right ∧ EndsLine right below := by
  induction rest with
  | nil => exact ⟨[], [], rfl, by simp, .atEnd⟩
  | cons c rest ih =>
    by_cases hc : c = '\n'
    · subst hc
      exact ⟨[], '\n' :: rest, rfl, by simp, .atNewline (by simp)⟩
    by_cases hcr : c = '\r' ∧ ∃ rest', rest = '\n' :: rest'
    · obtain ⟨rfl, rest', rfl⟩ := hcr
      exact ⟨[], '\r' :: '\n' :: rest', rfl, by simp, .atReturn⟩
    · obtain ⟨right, below, rfl, hright, hends⟩ := ih
      refine ⟨c :: right, below, rfl, ?_, ?_⟩
      · simpa [hright] using fun h => hc h.symm
      · cases hends with
        | atEnd => exact .atEnd
        | atReturn => exact .atReturn
        | @atNewline rest h =>
          refine .atNewline fun hlast => ?_
          cases right with
          | nil => exact hcr ⟨by simpa using hlast, rest, rfl⟩
          | cons d right => exact h (by simpa using hlast)

end ScalarLang
