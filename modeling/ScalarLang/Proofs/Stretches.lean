import ScalarLang.Proofs.Spacing

/-!
# Stretches of a text

An item stands at a stretch of the text: its span goes from the point in front of the stretch to the
point behind it.  No item has a blank in it or starts a comment, so no item goes over the end of a line.
Two tokens one behind the other give a stretch as well, from the start of the first to the end of the
second.

* `Span.Marks` — the span of a stretch of a text.
* `marks_of_mem_items`, `pairwise_items` — the items of a text are stretches of it, one behind the other.
* `Span.OnTokens` — a stretch from the start of a token to the end of one.
* `Span.OnTokens.through` — two of them are joined to one.
-/

namespace ScalarLang

/-! ### The characters of items -/

/-- All that the automaton of number literals takes is visible. -/
theorem Literal.State.visible_of_run? {s : State} {cs : List Char} (h : (s.run? cs).isSome) :
    ∀ c ∈ cs, Visible c := by
  induction cs generalizing s with
  | nil => simp
  | cons c cs ih =>
    rw [run?] at h
    cases hnext : s.next? c with
    | none =>
      rw [hnext] at h
      cases h
    | some s' =>
      rw [hnext, Option.bind_some] at h
      exact List.forall_mem_cons.2 ⟨visible_of_next? hnext, ih h⟩

theorem IsWord.visible {slice : List Char} (h : IsWord slice) : ∀ c ∈ slice, Visible c := by
  obtain ⟨c, cs, rfl, hc, hcs⟩ := h
  have hc : c.isAlphanum = true := by rw [Char.isAlphanum, hc, Bool.true_or]
  exact List.forall_mem_cons.2 ⟨starts_of_isAlphanum hc, fun d hd => starts_of_isAlphanum (hcs d hd)⟩

theorem IsNumberStart.visible {slice : List Char} (h : IsNumberStart slice) :
    ∀ c ∈ slice, Visible c :=
  Literal.State.visible_of_run? (Literal.State.run?_isSome_iff.2 h.2)

/-- No item has a blank in it or starts a comment. -/
theorem Spells.visible {after slice : List Char} {span : Span} {item : Item}
    (h : Spells after span slice item) : ∀ c ∈ slice, Visible c := by
  cases h with
  | reserved h _ => exact h.1.visible
  | name h _ => exact h.1.visible
  | int h _ _ => exact h.1.visible
  | outOfRange h _ _ => exact h.1.visible
  | double h _ _ => exact h.1.visible
  | malformed h _ => exact h.1.visible
  | operator h => exact fun c hc => visible_of_isOperatorChar (h.1.2 c hc)
  | char h =>
    intro c hc
    rw [List.mem_singleton.1 hc]
    exact ⟨h.blank, h.comment⟩

/-! ### The places of items -/

/-- The span is that of `inside`, which stands between `before` and `after` in the text. -/
structure Span.Marks (text before inside after : List Char) (s : Span) : Prop where
  text_eq : text = before ++ (inside ++ after)
  start_eq : s.start = Position.origin.afterAll before
  stop_eq : s.stop = Position.origin.afterAll (before ++ inside)

namespace Span.Marks

variable {text before inside after : List Char} {s : Span}

theorem line_pos (h : s.Marks text before inside after) : 0 < s.start.line := by
  rw [h.start_eq]
  exact Position.line_pos_afterAll (by decide) _

theorem isNowhere_eq (h : s.Marks text before inside after) : s.isNowhere = false := by
  have hline := h.line_pos
  rw [isNowhere, beq_eq_false_iff_ne]
  omega

end Span.Marks

/-- The end of the input is behind the text, and any other item is a stretch of it. -/
theorem Partition.marks {p : Position} {cs : List Char} {items : List Item}
    (h : Partition p cs items) (front : List Char) (hp : p = Position.origin.afterAll front) :
    ∀ item ∈ items, ∃ before inside after, (Lexer.itemSpan item).Marks (front ++ cs) before inside after ∧
      (Lexer.isEnd item = true ∧ inside = [] ∧ after = [] ∨
        Lexer.isEnd item = false ∧ inside ≠ [] ∧ ∀ c ∈ inside, Visible c) := by
  induction h generalizing front with
  | @done p filler h =>
    intro item hitem
    rw [List.mem_singleton.1 hitem, hp, ← Position.afterAll_append]
    refine ⟨front ++ filler, [], [], ⟨by simp, rfl, ?_⟩, .inl ⟨rfl, rfl, rfl⟩⟩
    rw [List.append_nil]
    rfl
  | @item p filler slice after item items hf hs ht ih =>
    intro i hi
    rcases List.mem_cons.1 hi with rfl | hi
    · refine ⟨front ++ filler, slice, after, ?_, .inr ⟨hs.isEnd_eq, hs.ne_nil, hs.visible⟩⟩
      rw [hs.itemSpan_eq, hp]
      refine ⟨(List.append_assoc _ _ _).symm, ?_, ?_⟩
      · exact (Position.afterAll_append _ front filler).symm
      · rw [List.append_assoc]
        exact (Position.afterAll_append _ front (filler ++ slice)).symm
    · have hp' : p.afterAll (filler ++ slice) = Position.origin.afterAll (front ++ (filler ++ slice)) := by
        rw [hp]
        exact (Position.afterAll_append _ front (filler ++ slice)).symm
      obtain ⟨before, inside, rest, hmarks, hkind⟩ := ih _ hp' i hi
      refine ⟨before, inside, rest, ⟨?_, hmarks.start_eq, hmarks.stop_eq⟩, hkind⟩
      rw [← hmarks.text_eq]
      simp

variable {text : String} {item : Item}

theorem items_partition (text : String) : Partition .origin text.toList (items text) := by
  obtain ⟨all, hpart, hdrain⟩ := Lexer.exists_partition (Lexer.ofText text) rfl
  have hitems : items text = all := congrArg Prod.fst (hdrain _ (Nat.lt_succ_self _))
  rw [hitems]
  exact hpart

theorem Lexer.isEnd_ok {t : Token} (h : t.kind ≠ .eof) : isEnd (.ok t) = false := by
  simpa [isEnd] using h

/-- An item is a stretch of visible characters. -/
theorem marks_of_mem_items (h : item ∈ items text) (hend : Lexer.isEnd item = false) :
    ∃ before inside after, (Lexer.itemSpan item).Marks text.toList before inside after ∧
      inside ≠ [] ∧ ∀ c ∈ inside, Visible c := by
  obtain ⟨before, inside, after, hmarks, hkind⟩ := (items_partition text).marks [] rfl item h
  rcases hkind with ⟨hend', -⟩ | ⟨-, hinside⟩
  · rw [hend] at hend'
    cases hend'
  · exact ⟨before, inside, after, hmarks, hinside⟩

/-- The end of the input stands behind the text. -/
theorem itemSpan_of_isEnd (h : item ∈ items text) (hend : Lexer.isEnd item = true) :
    Lexer.itemSpan item =
      ⟨Position.origin.afterAll text.toList, Position.origin.afterAll text.toList⟩ := by
  obtain ⟨before, inside, after, hmarks, hkind⟩ := (items_partition text).marks [] rfl item h
  rcases hkind with ⟨-, rfl, rfl⟩ | ⟨hend', -⟩
  · have htext : text.toList = before := by
      simpa using hmarks.text_eq
    have hstop := hmarks.stop_eq
    rw [List.append_nil] at hstop
    rw [htext]
    exact congrArg₂ Span.mk hmarks.start_eq hstop
  · rw [hend] at hend'
    cases hend'

/-- No item ends behind the end of the text. -/
theorem stop_le_of_mem_items (h : item ∈ items text) :
    (Lexer.itemSpan item).stop.offset ≤ (Position.origin.afterAll text.toList).offset := by
  obtain ⟨before, inside, after, hmarks, -⟩ := (items_partition text).marks [] rfl item h
  rw [hmarks.stop_eq, show text.toList = (before ++ inside) ++ after by simpa using hmarks.text_eq,
    Position.afterAll_append _ (before ++ inside) after]
  exact Position.offset_le_afterAll _ _

/-- **The items of a text stand one behind the other**, up to the end of the text. -/
theorem pairwise_items (text : String) :
    (items text).Pairwise fun a b => (Lexer.itemSpan a).stop.offset ≤ (Lexer.itemSpan b).start.offset := by
  obtain ⟨init, hitems, -, -, hpairs⟩ := (items_partition text).spans
  rw [hitems]
  refine List.pairwise_append.2 ⟨hpairs, List.pairwise_singleton _ _, fun a ha b hb => ?_⟩
  rw [List.mem_singleton.1 hb]
  refine stop_le_of_mem_items ?_
  rw [hitems]
  exact List.mem_append_left _ ha

/-! ### Stretches between tokens -/

namespace Span

/-- A stretch of the text that goes from the start of a token to the end of one. -/
structure OnTokens (text : String) (s : Span) : Prop where
  first : ∃ t, .ok t ∈ items text ∧ t.kind ≠ .eof ∧ t.span.start = s.start
  last : ∃ t, .ok t ∈ items text ∧ t.kind ≠ .eof ∧ t.span.stop = s.stop
  range : ∃ before inside after, s.Marks text.toList before inside after ∧ inside ≠ []

namespace OnTokens

variable {a b s : Span}

theorem lt (h : s.OnTokens text) : s.start.offset < s.stop.offset := by
  obtain ⟨before, inside, after, hmarks, hne⟩ := h.range
  rw [hmarks.start_eq, hmarks.stop_eq, Position.afterAll_append]
  exact Position.offset_lt_afterAll _ hne

theorem isNowhere_eq (h : s.OnTokens text) : s.isNowhere = false := by
  obtain ⟨before, inside, after, hmarks, -⟩ := h.range
  exact hmarks.isNowhere_eq

/-- From the start of a token to the end of one that ends behind it. -/
theorem of_tokens {t u : Token} (ht : .ok t ∈ items text) (hu : .ok u ∈ items text)
    (htk : t.kind ≠ .eof) (huk : u.kind ≠ .eof) (hlt : t.span.start.offset < u.span.stop.offset) :
    OnTokens text ⟨t.span.start, u.span.stop⟩ := by
  refine ⟨⟨t, ht, htk, rfl⟩, ⟨u, hu, huk, rfl⟩, ?_⟩
  obtain ⟨before, inside, after, ⟨htext, hstart, -⟩, -⟩ := marks_of_mem_items ht (Lexer.isEnd_ok htk)
  obtain ⟨before', inside', after', ⟨htext', -, hstop⟩, -⟩ := marks_of_mem_items hu (Lexer.isEnd_ok huk)
  have hstart : t.span.start = Position.origin.afterAll before := hstart
  have hstop : u.span.stop = Position.origin.afterAll (before' ++ inside') := hstop
  rw [hstart, hstop] at hlt ⊢
  have hsplit : before ++ (inside ++ after) = (before' ++ inside') ++ after' := by
    rw [← htext, htext', List.append_assoc]
  obtain ⟨more, hmore, hrest⟩ := Position.exists_eq_append hsplit (Nat.le_of_lt hlt)
  refine ⟨before, more, after', ⟨by rw [htext, hrest], rfl, by rw [hmore]⟩, ?_⟩
  rintro rfl
  rw [hmore, List.append_nil] at hlt
  exact Nat.lt_irrefl _ hlt

theorem of_token {t : Token} (ht : .ok t ∈ items text) (hk : t.kind ≠ .eof) : t.span.OnTokens text := by
  obtain ⟨before, inside, after, hmarks, hne, -⟩ := marks_of_mem_items ht (Lexer.isEnd_ok hk)
  exact ⟨⟨t, ht, hk, rfl⟩, ⟨t, ht, hk, rfl⟩, before, inside, after, hmarks, hne⟩

/-- Two stretches one behind the other are joined to one. -/
theorem through (ha : a.OnTokens text) (hb : b.OnTokens text) (h : a.stop.offset ≤ b.start.offset) :
    a.through b = ⟨a.start, b.stop⟩ ∧ (a.through b).OnTokens text := by
  have heq : a.through b = ⟨a.start, b.stop⟩ := by
    simp only [Span.through, ha.isNowhere_eq, hb.isNowhere_eq, Bool.false_eq_true, if_false]
  have hlt : a.start.offset < b.stop.offset := by
    have := ha.lt
    have := hb.lt
    omega
  obtain ⟨t, ht, htk, hstart⟩ := ha.first
  obtain ⟨u, hu, huk, hstop⟩ := hb.last
  rw [← hstart, ← hstop] at hlt
  refine ⟨heq, ?_⟩
  rw [heq, ← hstart, ← hstop]
  exact of_tokens ht hu htk huk hlt

end OnTokens

end Span

end ScalarLang
