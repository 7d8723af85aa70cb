import ScalarLang.Proofs.Lines
import ScalarLang.Proofs.Nesting

/-!
# Diagnostics in front of their source

A diagnostic of a unit that failed points at the source: at a stretch of it that starts and ends with a
visible character, or at its end.  It is rendered with the line on which that stretch starts, and below
it the stretch is underlined as far as it is on that line, or its first character if it is on several.
Behind a newline at the end of the source there is no line to show.

* `Span.Points` — the spans that diagnostics have.
* `Session.InText`, `Session.InText.shown` — where the failure of a unit is reported.
* `underlined` — the characters of a span that are underlined.
* `Diagnostic.render_points` — how a diagnostic with such a span is rendered.
* `Compiler.Reached.diagnostics_point` — all of this for the failures of a text.
* `Compiler.Reached.carets_aligned_iff` — the carets stand below the stretch up to line 9999.
-/

namespace ScalarLang

/-! ### Where diagnostics point -/

/-- The span of a stretch of the text that starts and ends with a visible character, or of the end of the
text. -/
structure Span.Points (text before inside after : List Char) (s : Span) : Prop where
  marks : s.Marks text before inside after
  ends : inside = [] ∧ after = [] ∨
    (∃ c ∈ inside.head?, Visible c) ∧ ∃ c ∈ inside.getLast?, Visible c

namespace Span

variable {text : String} {s : Span}

theorem OnTokens.points (h : s.OnTokens text) :
    ∃ before inside after, s.Points text.toList before inside after := by
  obtain ⟨before, inside, after, hmarks, hne⟩ := h.range
  refine ⟨before, inside, after, hmarks, .inr ⟨?_, ?_⟩⟩
  -- from the start of the stretch on, the text starts with a token
  · obtain ⟨t, ht, hk, hstart⟩ := h.first
    obtain ⟨before₁, slice, after₁, hslice, hsne, hvisible⟩ := marks_of_mem_items ht (Lexer.isEnd_ok hk)
    have hpoint : Position.origin.afterAll before = Position.origin.afterAll before₁ :=
      hmarks.start_eq.symm.trans (hstart.symm.trans hslice.start_eq)
    obtain ⟨-, hrest⟩ := Position.afterAll_inj (hmarks.text_eq.symm.trans hslice.text_eq) hpoint
    obtain ⟨c, inside, rfl⟩ := List.exists_cons_of_ne_nil hne
    obtain ⟨d, slice, rfl⟩ := List.exists_cons_of_ne_nil hsne
    obtain rfl : c = d := (List.cons.inj hrest).1
    exact ⟨c, rfl, hvisible c List.mem_cons_self⟩
  -- up to the end of the stretch, the text ends with one
  · obtain ⟨t, ht, hk, hstop⟩ := h.last
    obtain ⟨before₁, slice, after₁, hslice, hsne, hvisible⟩ := marks_of_mem_items ht (Lexer.isEnd_ok hk)
    have hpoint : Position.origin.afterAll (before ++ inside) =
        Position.origin.afterAll (before₁ ++ slice) :=
      hmarks.stop_eq.symm.trans (hstop.symm.trans hslice.stop_eq)
    have htext : (before ++ inside) ++ after = (before₁ ++ slice) ++ after₁ := by
      rw [List.append_assoc, List.append_assoc, ← hmarks.text_eq, hslice.text_eq]
    obtain ⟨hfront, -⟩ := Position.afterAll_inj htext hpoint
    have hlast := congrArg List.getLast? hfront
    obtain ⟨c, hc⟩ := Option.isSome_iff_exists.1 (List.getLast?_isSome.2 hne)
    obtain ⟨d, hd⟩ := Option.isSome_iff_exists.1 (List.getLast?_isSome.2 hsne)
    rw [List.getLast?_append, List.getLast?_append, hc, hd] at hlast
    obtain rfl : c = d := Option.some.inj hlast
    exact ⟨c, hc, hvisible c (List.mem_of_getLast? hd)⟩

/-- Where failures are reported, diagnostics can point. -/
theorem Shown.points (h : s.Shown text) : ∃ before inside after, s.Points text.toList before inside after := by
  rcases h with h | ⟨item, hitem, rfl⟩
  · exact h.points
  · cases hend : Lexer.isEnd item with
    | true =>
      rw [itemSpan_of_isEnd hitem hend]
      exact ⟨text.toList, [], [], ⟨by simp, rfl, by rw [List.append_nil]⟩, .inl ⟨rfl, rfl⟩⟩
    | false =>
      obtain ⟨before, inside, after, hmarks, hne, hvisible⟩ := marks_of_mem_items hitem hend
      obtain ⟨d, hd⟩ := Option.isSome_iff_exists.1 (List.getLast?_isSome.2 hne)
      obtain ⟨c, inside, rfl⟩ := List.exists_cons_of_ne_nil hne
      exact ⟨before, c :: inside, after, hmarks, .inr ⟨⟨c, rfl, hvisible c List.mem_cons_self⟩,
        d, hd, hvisible d (List.mem_of_getLast? hd)⟩⟩

end Span

/-! ### Failures of units -/

namespace Cursor

variable {I : Cursor → Prop}

theorem Stable.seekFrom (hI : Stable I) {final current : Token} {ahead : List Item}
    (h : I ⟨current, ahead, final⟩) : I (Cursor.seekFrom final current ahead).2 := by
  induction ahead generalizing current with
  | nil =>
    rw [Cursor.seekFrom]
    split
    · exact h
    · exact hI _ h
    · exact h
  | cons item ahead ih =>
    rw [Cursor.seekFrom.eq_def]
    simp only
    split
    · exact h
    · split
      · exact ih (hI _ h)
      · exact hI _ h
    · exact h

/-- Looking for the next unit moves over items. -/
theorem Stable.seek (hI : Stable I) {c : Cursor} (h : I c) (needsAdvance : Bool) :
    I (c.seek needsAdvance).2 := by
  have hstep := hI c h
  unfold step at hstep
  unfold Cursor.seek
  split
  · split <;> simp_all [Stable.seekFrom hI]
  · exact hI.seekFrom h

theorem Comes.ahead {text : String} {c : Cursor} (h : c.Comes text) :
    c.ahead ++ [.ok c.final] <:+ items text := by
  rcases h with h | h
  · exact h.ahead
  · exact h.2

end Cursor

namespace Session

variable {text : String} {s s' : Session} {o : Outcome} {c : Cursor}

/-- The cursor of the session is one of the text, with the end of the text behind its items. -/
structure InText (text : String) (s : Session) : Prop where
  comes : s.cursor.Comes text
  ended : s.cursor.Ended

theorem exists_unitReader (s : Session) (c : Cursor) :
    ∃ p, Program.UnitReader p ∧ s.reads c = p c := by
  by_cases hk : c.current.kind = .kwDef
  · exact ⟨_, .definition _ _, reads_of_kwDef hk⟩
  · exact ⟨_, .topLevel _ _, reads_of_ne_kwDef hk⟩

/-- A unit starts at a token of the text. -/
theorem InText.stands_of_unit (hs : s.InText text) (h : s.cursor.seek s.needsAdvance = (.unit, c)) :
    c.Stands text := by
  have hcomes := Cursor.comes_stable.seek hs.comes s.needsAdvance
  rw [h] at hcomes
  rcases hcomes with hc | ⟨hk, -⟩
  · exact hc
  · have hfirst := (first_of_unit hs.ended h).1
    exact absurd hk (ne_eof_of_mem_first hs.ended (hfirst ▸ List.mem_cons_self))

/-- What a unit reads stands in the text. -/
theorem InText.lands_of_unit (hs : s.InText text) (h : s.cursor.seek s.needsAdvance = (.unit, c)) :
    Parse.Lands text c (fun d _ => d.proto.span.OnTokens text) (s.reads c) := by
  obtain ⟨p, hp, hreads⟩ := s.exists_unitReader c
  rw [hreads]
  exact hp.lands text c (hs.stands_of_unit h)

/-- **A unit leaves the session in the text.** -/
theorem InText.goes (hs : s.InText text) (h : s.Goes o s') : s'.InText text := by
  have hread : ∀ {c c' d}, s.cursor.seek s.needsAdvance = (.unit, c) → s.reads c = .ok d c' →
      c'.Comes text := by
    intro c c' d hseek hr
    have hlands := hs.lands_of_unit hseek
    rw [hr] at hlands
    exact .inl hlands.1
  refine ⟨?_, (h.takes hs.ended).1⟩
  cases h with
  | malformed h =>
    have hcomes := Cursor.comes_stable.seek hs.comes s.needsAdvance
    rw [h] at hcomes
    exact hcomes
  | unreadable h hr =>
    have hlands := hs.lands_of_unit h
    rw [hr] at hlands
    exact .inl hlands.1
  | refused h hr _ => exact hread h hr
  | defined h _ hr _ => exact hread h hr
  | evaluated h _ hr _ _ => exact hread h hr
  | faulted h _ hr _ _ => exact hread h hr

/-- A malformed item that a session finds is one of the text. -/
theorem InText.mem_items_of_malformed {e : LexError} (hs : s.InText text)
    (h : s.cursor.seek s.needsAdvance = (.malformed e, c)) : .error e ∈ items text := by
  have hfinds := seek_finds hs.ended
  have hdue := s.first_suffix_due
  rw [h] at hfinds
  generalize s.first = first at hfinds hdue
  cases hfinds with
  | malformed =>
    refine hs.comes.ahead.subset (List.mem_append_left _ ?_)
    have hmem := hdue.subset List.mem_cons_self
    unfold due Cursor.due Cursor.left at hmem
    split at hmem
    · exact hmem
    · split at hmem
      · cases hmem
      · simpa using hmem

/-- **The failure of a unit is reported at a place of the text.** -/
theorem InText.shown {d : Diagnostic} {ds : List Definition} (hs : s.InText text) (hsound : s.Sound ds)
    (h : s.Goes (.failure d) s') : ∃ span, d.span? = some span ∧ span.Shown text := by
  cases h with
  | malformed h => exact ⟨_, rfl, .inr ⟨_, hs.mem_items_of_malformed h, rfl⟩⟩
  | unreadable h hr =>
    have hlands := hs.lands_of_unit h
    rw [hr] at hlands
    exact ⟨_, rfl, hlands.2⟩
  | refused h hr hg =>
    have hlands := hs.lands_of_unit h
    rw [hr] at hlands
    rcases hsound.generate_cases hr with hg' | haccepts
    · obtain ⟨he, -⟩ := Prod.mk.inj (hg.symm.trans hg')
      rw [Except.error.inj he]
      exact ⟨_, rfl, .inl hlands.2.2⟩
    · obtain ⟨f, m', hg', -⟩ := haccepts.generate
      cases hg.symm.trans hg'
  | faulted h _ hr _ _ =>
    have hlands := hs.lands_of_unit h
    rw [hr] at hlands
    exact ⟨_, rfl, .inl hlands.2.2⟩

end Session

/-- The diagnostics of a text point at it. -/
theorem Compiler.Reached.exists_points {c : Compiler} (h : c.Reached) {text : String} {d : Diagnostic}
    (hd : .failure d ∈ c.outcomes text) :
    ∃ span before inside after, d.span? = some span ∧ span.Points text.toList before inside after := by
  obtain ⟨ds, hsound⟩ := h.sound text
  obtain ⟨units, t, hrun, houtcomes, -⟩ := exists_run c text
  have hkept := hrun.forall_mem
    (I := fun s => s.InText text ∧ ∃ ds, s.Sound ds)
    (fun s o s' hs hgoes => ⟨hs.1.goes hgoes, hs.2.imp' _ fun ds hds => hds.goes hgoes⟩)
    ⟨⟨Cursor.comes_ofText text, Cursor.ended_ofText text⟩, ds, hsound⟩
  rw [houtcomes] at hd
  obtain ⟨⟨s, o⟩, hmem, ho⟩ := List.mem_map.1 hd
  obtain ⟨⟨hinText, ds, hds⟩, s', hgoes⟩ := hkept _ hmem
  have ho : o = .failure d := ho
  rw [ho] at hgoes
  obtain ⟨span, hspan, hshown⟩ := hinText.shown hds hgoes
  obtain ⟨before, inside, after, hpoints⟩ := hshown.points
  exact ⟨span, before, inside, after, hspan, hpoints⟩

/-! ### The line of a span -/

theorem Visible.ne_newline {c : Char} (h : Visible c) : c ≠ '\n' := by
  rintro rfl
  exact absurd h.1 (by decide)

theorem Visible.ne_return {c : Char} (h : Visible c) : c ≠ '\r' := by
  rintro rfl
  exact absurd h.1 (by decide)

/-- The characters of a span that are underlined: all of them, or the first one if there are several
lines of them. -/
def underlined (inside : List Char) : List Char := if '\n' ∈ inside then inside.take 1 else inside

/-- The line on which a span starts: `left` is in front of the span, and `right` is behind the characters
that are underlined. -/
structure Span.OnLine (text before inside left right : List Char) (s : Span) : Prop where
  line : ∃ above below, before = above ++ left ∧ IsLine text above (left ++ (underlined inside ++ right)) below
  column : left.length = s.start.column - 1
  ending : inside = [] → right = []

namespace Span.Points

variable {text before inside after : List Char} {s : Span}

/-- What is underlined starts the stretch, has no newline in it and ends with a visible character. -/
theorem underlined_spec (h : s.Points text before inside after) :
    (∃ more, inside = underlined inside ++ more ∧ (inside = [] → more = [])) ∧
      '\n' ∉ underlined inside ∧ (inside ≠ [] → ∃ c ∈ (underlined inside).getLast?, Visible c) := by
  rcases h.ends with ⟨rfl, -⟩ | ⟨⟨c, hc, hvisible⟩, hlast⟩
  · exact ⟨⟨[], rfl, fun _ => rfl⟩, by simp [underlined], fun hne => absurd rfl hne⟩
  · obtain ⟨cs, rfl⟩ := List.head?_eq_some_iff.1 hc
    by_cases hmem : '\n' ∈ c :: cs
    · rw [underlined, if_pos hmem]
      refine ⟨⟨cs, rfl, fun hnil => absurd hnil (by simp)⟩, ?_, fun _ => ⟨c, rfl, hvisible⟩⟩
      simpa using hvisible.ne_newline.symm
    · rw [underlined, if_neg hmem]
      exact ⟨⟨[], (List.append_nil _).symm, fun _ => rfl⟩, hmem, fun _ => hlast⟩

/-- The span starts on a line of the text, unless it is the end of the text and no text is on the line. -/
theorem exists_onLine (h : s.Points text before inside after) (hline : ¬ (inside = [] ∧ StartsLine before)) :
    ∃ left right, s.OnLine text before inside left right ∧
      (splitLines text)[s.start.line - 1]? = some (left ++ (underlined inside ++ right)) := by
  obtain ⟨⟨more, hmore, hnone⟩, hnewline, hlast⟩ := h.underlined_spec
  obtain ⟨above, left, hbefore, hstarts, hleft⟩ := exists_lineStart before
  obtain ⟨right, below, hsplit, hright, hends⟩ := exists_lineEnd (more ++ after)
  obtain ⟨hnumber, hcolumn⟩ := Position.afterAll_line hstarts hleft
  rw [← hbefore, ← h.marks.start_eq] at hnumber hcolumn
  have hempty : inside = [] → right = [] ∧ below = [] := by
    intro hinside
    have hafter : after = [] := by
      rcases h.ends with hend | ⟨⟨c, hc, -⟩, -⟩
      · exact hend.2
      · rw [hinside] at hc
        cases hc
    rw [hnone hinside, hafter] at hsplit
    exact List.append_eq_nil_iff.1 hsplit.symm
  have hline' : IsLine text above (left ++ (underlined inside ++ right)) below := by
    refine ⟨?_, hstarts, by simp [hleft, hnewline, hright], ?_⟩
    · have htext : text = before ++ (underlined inside ++ (more ++ after)) := by
        rw [← List.append_assoc (underlined inside), ← hmore]
        exact h.marks.text_eq
      rw [htext, hbefore, hsplit]
      simp only [List.append_assoc]
    · cases hends with
      | atEnd => exact .atEnd
      | atReturn => exact .atReturn
      | atNewline hr =>
        -- the character in front of the newline is on the right, or it is the last that is underlined
        refine .atNewline fun hcr => ?_
        rw [List.getLast?_append, List.getLast?_append] at hcr
        cases hd : right.getLast? with
        | some d =>
          rw [hd] at hr hcr
          exact hr hcr
        | none =>
          have hinside : inside ≠ [] := fun hinside => by cases (hempty hinside).2
          obtain ⟨c, hc, hvisible⟩ := hlast hinside
          rw [hd, Option.mem_def.1 hc] at hcr
          exact hvisible.ne_return (Option.some.inj hcr)
  have hne : (left ++ (underlined inside ++ right)) ++ below ≠ [] := by
    intro hnil
    simp only [List.append_eq_nil_iff] at hnil
    obtain ⟨⟨rfl, hunder, -⟩, -⟩ := hnil
    by_cases hinside : inside = []
    · exact hline ⟨hinside, by rw [hbefore, List.append_nil]; exact hstarts⟩
    · obtain ⟨c, hc, -⟩ := hlast hinside
      rw [hunder] at hc
      cases hc
  have hfound := hline'.splitLines_eq hne
  refine ⟨left, right, ⟨⟨above, below, hbefore, hline'⟩, ?_, fun hinside => (hempty hinside).1⟩, ?_⟩
  · omega
  · rw [hnumber, Nat.add_sub_cancel]
    exact hfound

/-- There is no line behind a newline at the end of the text. -/
theorem no_line (h : s.Points text before inside after) (hinside : inside = [])
    (hstarts : StartsLine before) : (splitLines text)[s.start.line - 1]? = none := by
  have htext : text = before := by
    rcases h.ends with ⟨rfl, rfl⟩ | ⟨⟨c, hc, -⟩, -⟩
    · simpa using h.marks.text_eq
    · rw [hinside] at hc
      cases hc
  obtain ⟨hnumber, -⟩ := Position.afterAll_line hstarts (List.not_mem_nil (a := '\n'))
  rw [List.append_nil, ← h.marks.start_eq] at hnumber
  rw [hnumber, Nat.add_sub_cancel, htext]
  exact hstarts.splitLines_eq_none

/-- As many characters are underlined as there are to be, and one in any case. -/
theorem underlineWidth_eq (h : s.Points text before inside after) :
    Diagnostic.underlineWidth s = max (underlined inside).length 1 := by
  have hstop : s.stop = s.start.afterAll inside := by
    rw [h.marks.stop_eq, h.marks.start_eq, Position.afterAll_append]
  have hlines : s.stop.line = s.start.line + inside.count '\n' := by
    rw [hstop, Position.line_afterAll]
  unfold Diagnostic.underlineWidth underlined
  by_cases hmem : '\n' ∈ inside
  · have hcount := List.count_pos_iff.2 hmem
    obtain ⟨c, cs, rfl⟩ := List.exists_cons_of_ne_nil (List.ne_nil_of_mem hmem)
    rw [if_pos hmem, if_neg (by omega)]
    rfl
  · have hcolumn := s.start.column_afterAll_of_not_mem hmem
    rw [← hstop] at hcolumn
    rw [if_neg hmem, if_pos (by rw [hlines, List.count_eq_zero_of_not_mem hmem, Nat.add_zero]), hcolumn,
      Nat.add_sub_cancel_left]

end Span.Points

/-! ### Rendering -/

namespace Diagnostic

variable {d : Diagnostic} {name text : String} {span : Span} {before inside after : List Char}

/-- What a diagnostic is rendered with in any case: severity, category and message, and the place. -/
def heading (d : Diagnostic) (name : String) (span : Span) : String :=
  d.label ++ ": " ++ d.message ++ "\n" ++ " --> " ++ name ++ ":" ++ span.start.describe ++ "\n"

/-- The line with the carets: the gutter, blanks, and the carets themselves. -/
def caretLine (column width : Nat) : String :=
  "     | " ++ spaces column ++ String.ofList (List.replicate width '^') ++ "\n"

theorem render_plain (hspan : d.span? = some span) (hplace : span.isNowhere = false) :
    render .plain (some ⟨name, text⟩) d =
      d.heading name span ++ snippet .plain d.severity span (some ⟨name, text⟩) := by
  rw [render, hspan]
  simp only [Option.filter, hplace]
  rfl

theorem snippet_plain {number : Nat} (h : span.start.line = number + 1) :
    snippet .plain d.severity span (some ⟨name, text⟩) =
      match (splitLines text.toList)[number]? with
      | some line => sourceLine span.start.line (String.ofList line) ++
          caretLine (span.start.column - 1) (underlineWidth span)
      | none => "" := by
  have hline : (some (⟨name, text⟩ : Source)).bind (fun source => source.line? span.start.line) =
      (splitLines text.toList)[number]?.map String.ofList := by
    rw [h]
    rfl
  rw [snippet, hline]
  cases (splitLines text.toList)[number]? <;> rfl

/-- **A diagnostic is rendered with the line on which its span starts**, if there is one. -/
theorem render_points (name : String) (hspan : d.span? = some span) (h : span.Points text.toList before inside after) :
    if inside = [] ∧ StartsLine before then
      render .plain (some ⟨name, text⟩) d = d.heading name span
    else ∃ left right, span.OnLine text.toList before inside left right ∧
      render .plain (some ⟨name, text⟩) d = d.heading name span ++
        (sourceLine span.start.line (String.ofList (left ++ (underlined inside ++ right))) ++
          caretLine (span.start.column - 1) (max (underlined inside).length 1)) := by
  obtain ⟨number, hnumber⟩ := Nat.exists_eq_add_of_lt h.marks.line_pos
  rw [Nat.zero_add] at hnumber
  rw [render_plain hspan h.marks.isNowhere_eq, snippet_plain hnumber, h.underlineWidth_eq]
  split
  · next hnone =>
    have hline := h.no_line hnone.1 hnone.2
    rw [hnumber, Nat.add_sub_cancel] at hline
    rw [hline, String.append_empty]
  · next hsome =>
    obtain ⟨left, right, honLine, hline⟩ := h.exists_onLine hsome
    rw [hnumber, Nat.add_sub_cancel] at hline
    rw [hline]
    exact ⟨left, right, honLine, rfl⟩

/-- The diagnostic points at the source text.  It has a span, which is that of a stretch of the text that
starts and ends with a visible character, or of its end.  Rendering it prints the line on which the span
starts, and below that line the gutter, a blank for each character in front of the span, and carets: one
for each character of the span, one only if these are on several lines, and one behind the line if the
span is the end of the text.  Nothing is printed below the heading exactly if the span is the end of a
text that ends with a newline. -/
def PointsAt (name text : String) (d : Diagnostic) : Prop :=
  ∃ span before inside after, d.span? = some span ∧ span.isNowhere = false ∧
    span.Points text.toList before inside after ∧
    if inside = [] ∧ text.toList.getLast? = some '\n' then
      render .plain (some ⟨name, text⟩) d = d.heading name span
    else ∃ left right, span.OnLine text.toList before inside left right ∧
      render .plain (some ⟨name, text⟩) d = d.heading name span ++
        (sourceLine span.start.line (String.ofList (left ++ (underlined inside ++ right))) ++
          caretLine (span.start.column - 1) (max (underlined inside).length 1))

/-! ### Gutters -/

/-- What stands in front of a source line: its number, padded to four places. -/
def gutter (number : Nat) : String := spaces (4 - number.repr.length) ++ number.repr ++ " | "

/-- The diagnostic is rendered with a snippet: `front` is what the source line has in front of the span,
and `blank` is what the line below has in front of the carets. -/
structure Snippet (name text : String) (d : Diagnostic) (span : Span) (front blank : String) : Prop where
  rendered : ∃ before inside after left right, span.Points text.toList before inside after ∧
    span.OnLine text.toList before inside left right ∧
    front = gutter span.start.line ++ String.ofList left ∧
    render .plain (some ⟨name, text⟩) d = d.heading name span ++
      ((front ++ String.ofList (underlined inside ++ right) ++ "\n") ++
        (blank ++ String.ofList (List.replicate (max (underlined inside).length 1) '^') ++ "\n"))
  no_caret : '^' ∉ blank.toList

theorem length_spaces (n : Nat) : (spaces n).length = n := by
  rw [spaces, String.length_ofList, List.length_replicate]

/-- The gutter of a source line is as wide as that of the carets up to line 9999. -/
theorem length_gutter_eq_iff (number : Nat) : (gutter number).length = 7 ↔ number < 10000 := by
  have hdigits : number.repr.length ≤ 4 ↔ number < 10 ^ 4 := by
    rw [Nat.repr, String.length_ofList]
    exact Nat.length_toDigits_le_iff (by decide) (by decide)
  have hlength : (gutter number).length = (4 - number.repr.length) + number.repr.length + 3 := by
    rw [gutter, String.length_append, String.length_append, length_spaces]
    rfl
  omega

/-- The snippet of a diagnostic, and how its two lines are aligned. -/
theorem exists_snippet (name : String) (hspan : d.span? = some span)
    (h : span.Points text.toList before inside after)
    (hline : ¬ (inside = [] ∧ StartsLine before)) :
    ∃ front blank, d.Snippet name text span front blank ∧
      (blank.length = front.length ↔ span.start.line < 10000) := by
  have hrender := render_points name hspan h
  rw [if_neg hline] at hrender
  obtain ⟨left, right, honLine, hrender⟩ := hrender
  refine ⟨gutter span.start.line ++ String.ofList left, "     | " ++ spaces (span.start.column - 1),
    ⟨⟨before, inside, after, left, right, h, honLine, rfl, ?_⟩, ?_⟩, ?_⟩
  · rw [hrender, sourceLine, String.ofList_append]
    simp only [caretLine, gutter, String.append_assoc]
  · simp [spaces]
  · have hgutter := length_gutter_eq_iff span.start.line
    have hblank : ("     | " ++ spaces (span.start.column - 1)).length = 7 + left.length := by
      rw [String.length_append, length_spaces, honLine.column]
      rfl
    rw [hblank, String.length_append, String.length_ofList, ← hgutter]
    omega

end Diagnostic

/-! ### The diagnostics of a text -/

namespace Compiler

variable {c : Compiler} {name text : String} {d : Diagnostic}

theorem outcomes_empty (c : Compiler) : c.outcomes "" = [] := rfl

/-- A text with a failure is not empty, so its end is behind a newline or on a line. -/
theorem startsLine_iff_of_failure (hd : .failure d ∈ c.outcomes text) :
    StartsLine text.toList ↔ text.toList.getLast? = some '\n' := by
  refine ⟨fun h => h.resolve_left fun hnil => ?_, .inr⟩
  rw [String.toList_eq_nil_iff.1 hnil, outcomes_empty] at hd
  cases hd

/-- There is no line to show exactly if the span is the end of a text that ends with a newline. -/
theorem no_line_iff_of_failure {span : Span} {before inside after : List Char}
    (hd : .failure d ∈ c.outcomes text) (h : span.Points text.toList before inside after) :
    inside = [] ∧ StartsLine before ↔ inside = [] ∧ text.toList.getLast? = some '\n' := by
  refine and_congr_right fun hinside => ?_
  rw [← startsLine_iff_of_failure hd]
  rcases h.ends with ⟨rfl, rfl⟩ | ⟨⟨ch, hch, -⟩, -⟩
  · have htext : text.toList = before := by simpa using h.marks.text_eq
    rw [htext]
  · rw [hinside] at hch
    cases hch

/-- **Diagnostics point at the source.**  Whatever has been compiled before, every failure of a text has
a span in the text, and rendering it shows the line on which the span starts, with carets below the
characters of the span. -/
theorem Reached.diagnostics_point (h : c.Reached) (name text : String)
    (hd : .failure d ∈ c.outcomes text) : d.PointsAt name text := by
  obtain ⟨span, before, inside, after, hspan, hpoints⟩ := h.exists_points hd
  refine ⟨span, before, inside, after, hspan, hpoints.marks.isNowhere_eq, hpoints, ?_⟩
  have hrender := Diagnostic.render_points name hspan hpoints
  simpa only [no_line_iff_of_failure hd hpoints] using hrender

/-- A function defined twice, the second time with a prototype on two lines. -/
theorem Reached.diagnostics_point_redefinition :
    let text := "def int f(int a) a\ndef int f(\n int b) b"
    let d : Diagnostic := { category := .type, message := "function 'f' is already defined",
                            span? := some ⟨⟨2, 5, 23⟩, ⟨3, 8, 37⟩⟩ }
    let c := Compiler.ofConfig {}
    c.Reached ∧ .failure d ∈ c.outcomes text ∧ d.PointsAt "f" text := by
  intro text d c
  have hc : c.Reached := Reached.ofConfig {}
  have hd : .failure d ∈ c.outcomes text := by decide +kernel
  exact ⟨hc, hd, Reached.diagnostics_point hc "f" text hd⟩

/-- **The carets stand below the span exactly up to line 9999.**  A failure that is rendered with a
snippet has as many characters in front of the first caret as the source line has in front of the first
character of the span, or in front of its end, if the number of the line has no more than four digits.
Any other line has a wider gutter than the carets below it. -/
theorem Reached.carets_aligned_iff (h : c.Reached) (name text : String)
    (hd : .failure d ∈ c.outcomes text) :
    ∃ span, d.span? = some span ∧
      (d.render .plain (some ⟨name, text⟩) = d.heading name span ∨
        ∃ front blank, d.Snippet name text span front blank ∧
          (blank.length = front.length ↔ span.start.line < 10000)) := by
  obtain ⟨span, before, inside, after, hspan, hpoints⟩ := h.exists_points hd
  refine ⟨span, hspan, ?_⟩
  by_cases hline : inside = [] ∧ StartsLine before
  · have hrender := Diagnostic.render_points name hspan hpoints
    rw [if_pos hline] at hrender
    exact .inl hrender
  · exact .inr (Diagnostic.exists_snippet name hspan hpoints hline)

/-- The call of an unknown function on the second line. -/
theorem Reached.carets_aligned_iff_call :
    let text := "1 +\r\n  f(2) #"
    let d : Diagnostic := { category := .type, message := "unknown function 'f'",
                            span? := some ⟨⟨2, 3, 7⟩, ⟨2, 7, 11⟩⟩ }
    let c := Compiler.ofConfig {}
    c.Reached ∧ .failure d ∈ c.outcomes text ∧
      ∃ span, d.span? = some span ∧
        (d.render .plain (some ⟨"f", text⟩) = d.heading "f" span ∨
          ∃ front blank, d.Snippet "f" text span front blank ∧
            (blank.length = front.length ↔ span.start.line < 10000)) := by
  intro text d c
  have hc : c.Reached := Reached.ofConfig {}
  have hd : .failure d ∈ c.outcomes text := by decide +kernel
  exact ⟨hc, hd, Reached.carets_aligned_iff hc "f" text hd⟩

/-! ### A point far below -/

/-- The outcome of the first unit is one of the outcomes. -/
theorem mem_outcomes_of_goes {o : Outcome} {s' : Session} (h : (Session.start c text).Goes o s') :
    o ∈ c.outcomes text := by
  obtain ⟨units, t, hrun, houtcomes, -⟩ := exists_run c text
  obtain ⟨events, hnext⟩ := h.next
  rw [houtcomes]
  cases hrun with
  | done hnone =>
    rw [hnone] at hnext
    cases hnext
  | unit hgoes _ =>
    obtain ⟨events', hnext'⟩ := hgoes.next
    cases Option.some.inj (hnext.symm.trans hnext')
    exact List.mem_cons_self

/-- The span of a point behind so many empty lines. -/
def pointSpan (n : Nat) : Span := ⟨⟨n + 1, 1, n⟩, ⟨n + 1, 2, n + 1⟩⟩

theorem afterAll_newlines (n : Nat) : Position.origin.afterAll (List.replicate n '\n') = ⟨n + 1, 1, n⟩ := by
  induction n with
  | zero => rfl
  | succ n ih =>
    rw [List.replicate_succ', Position.afterAll_append, ih]
    rfl

theorem filler_newlines (n : Nat) : Filler (List.replicate n '\n') := by
  induction n with
  | zero => exact .nil
  | succ n ih => exact .blank (by decide) ih

theorem pointSpan_points (n : Nat) :
    (pointSpan n).Points (List.replicate n '\n' ++ ['.']) (List.replicate n '\n') ['.'] [] := by
  refine ⟨⟨rfl, (afterAll_newlines n).symm, ?_⟩, .inr ⟨⟨'.', rfl, by decide, by decide⟩,
    '.', rfl, by decide, by decide⟩⟩
  rw [Position.afterAll_append, afterAll_newlines]
  rfl

/-- A text with so many empty lines and a point below them. -/
def pointText (n : Nat) : String := String.ofList (List.replicate n '\n' ++ ['.'])

/-- The failure of a point as a literal. -/
def pointDiagnostic (n : Nat) : Diagnostic :=
  (CompileError.input (.lexical (.malformedNumber "." (pointSpan n)))).toDiagnostic

/-- A point is a malformed literal, however far below it is. -/
theorem pointDiagnostic_mem (c : Compiler) (n : Nat) :
    .failure (pointDiagnostic n) ∈ c.outcomes (pointText n) := by
  have hcuts : Lexer.Cuts ['.'] [] := ⟨⟨'.', rfl, by decide, by decide⟩, by decide⟩
  have hrest : (Lexer.ofText (pointText n)).rest = List.replicate n '\n' ++ (['.'] ++ []) :=
    String.toList_ofList
  have hlast : LastFiller ((Lexer.ofText (pointText n)).behind (List.replicate n '\n') ['.'] []).rest :=
    .closed .nil
  have hspan : (⟨Position.origin.afterAll (List.replicate n '\n'),
      Position.origin.afterAll (List.replicate n '\n' ++ ['.'])⟩ : Span) = pointSpan n :=
    congrArg₂ Span.mk (pointSpan_points n).marks.start_eq.symm (pointSpan_points n).marks.stop_eq.symm
  obtain ⟨final, hcursor⟩ : ∃ final, Cursor.ofText (pointText n) =
      ⟨⟨.eof, .nowhere⟩, [.error (.malformedNumber "." (pointSpan n))], final⟩ := by
    rw [Cursor.ofText, Lexer.contents_of_cuts hrest (filler_newlines n) hcuts,
      Lexer.contents_of_lastFiller hlast, ← hspan]
    exact ⟨_, rfl⟩
  have hseek : (Cursor.ofText (pointText n)).seek true =
      (.malformed (.malformedNumber "." (pointSpan n)), ⟨⟨.eof, .nowhere⟩, [], final⟩) := by
    rw [hcursor]
    rfl
  exact mem_outcomes_of_goes (.malformed hseek)

/-- **On line 10000 the carets do not stand below the span.** -/
theorem carets_shifted :
    let text := pointText 9999
    let d := pointDiagnostic 9999
    .failure d ∈ (Compiler.ofConfig {}).outcomes text ∧ ∃ span front blank, d.span? = some span ∧
      d.Snippet "f" text span front blank ∧ blank.length ≠ front.length := by
  intro text d
  have hpoints : (pointSpan 9999).Points text.toList (List.replicate 9999 '\n') ['.'] [] := by
    show (pointSpan 9999).Points (String.ofList _).toList _ _ _
    rw [String.toList_ofList]
    exact pointSpan_points 9999
  have hline : ¬ (['.'] = [] ∧ StartsLine (List.replicate 9999 '\n')) := fun h => absurd h.1 (by simp)
  obtain ⟨front, blank, hsnippet, haligned⟩ := Diagnostic.exists_snippet "f" (d := d) rfl hpoints hline
  refine ⟨pointDiagnostic_mem _ 9999, pointSpan 9999, front, blank, rfl, hsnippet, fun heq => ?_⟩
  exact absurd (haligned.1 heq) (Nat.lt_irrefl 10000)

end Compiler

end ScalarLang
