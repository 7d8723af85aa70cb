import Mathlib
import ScalarLang.Literal
import ScalarLang.Proofs.Rounding

/-!
# The grammar of number literals

The automaton that recognises literals is compared with the grammar of literals, given by their parts.
Each state stands for the texts that lead to it, and from each state a literal can still be completed.
So the automaton goes on as long as some literal starts with what it has read, and accepts exactly the
literals.

* `Literal.decimal` — the number that a row of digits denotes.
* `Literal.Mantissa`, `Literal.Exponent`, `Literal.Denotes` — the parts of a literal, and the number
  `n · 10 ^ e` that it denotes.
* `Literal.IsLiteral`, `Literal.Viable` — the literals, and the texts that some literal starts with.
* `Literal.State.run?_eq_some_iff` — the texts that lead to each state.
* `Literal.State.run?_isSome_iff` — the automaton goes on exactly on viable texts.
* `Literal.Denotes.doubleValue_eq`, `Literal.Denotes.doubleValue_nearest` — a literal that is a double is
  nearest to what it denotes.
* `Longest` — the longest stretch with a property at the head of a text.
* `Recognizer.readAll_eq`, `Recognizer.value_eq` — what is read, and its value.
* `Recognizer.readAll_recognizes` — all of this for the recognizer of a whole text.
-/

namespace ScalarLang

namespace Literal

/-! ### The grammar -/

/-- One or more digits. -/
def IsDigits (s : List Char) : Prop := s ≠ [] ∧ ∀ c ∈ s, c.isDigit = true

/-- The number that a row of digits denotes, the first digit being the most significant. -/
def decimal (s : List Char) : Nat :=
  Nat.ofDigits 10 (s.reverse.map fun c => c.toNat - '0'.toNat)

/-- `[0-9]+` or `[0-9]*.[0-9]+`, which denote `n · 10 ^ e`. -/
inductive Mantissa : List Char → Nat → Int → Prop
  | whole {ds : List Char} (h : IsDigits ds) : Mantissa ds (decimal ds) 0
  | point {ws fs : List Char} (hw : ∀ c ∈ ws, c.isDigit = true) (hf : IsDigits fs) :
      Mantissa (ws ++ '.' :: fs) (decimal (ws ++ fs)) (-fs.length)

/-- `[eE][+-]?[0-9]+` or nothing, and the power of ten that it stands for. -/
inductive Exponent : List Char → Int → Prop
  | absent : Exponent [] 0
  | plain {x : Char} {ds : List Char} (hx : x = 'e' ∨ x = 'E') (h : IsDigits ds) :
      Exponent (x :: ds) (decimal ds)
  | plus {x : Char} {ds : List Char} (hx : x = 'e' ∨ x = 'E') (h : IsDigits ds) :
      Exponent (x :: '+' :: ds) (decimal ds)
  | minus {x : Char} {ds : List Char} (hx : x = 'e' ∨ x = 'E') (h : IsDigits ds) :
      Exponent (x :: '-' :: ds) (-decimal ds)

/-- The text is a literal for `n · 10 ^ e`. -/
def Denotes (s : List Char) (n : Nat) (e : Int) : Prop :=
  ∃ m x a b, s = m ++ x ∧ Mantissa m n a ∧ Exponent x b ∧ e = a + b

def IsLiteral (s : List Char) : Prop := ∃ n e, Denotes s n e

/-- Some literal starts with the text. -/
def Viable (s : List Char) : Prop := ∃ t, IsLiteral (s ++ t)

/-! ### Digits -/

theorem IsDigits.snoc {s : List Char} {c : Char} (h : ∀ d ∈ s, d.isDigit = true)
    (hc : c.isDigit = true) : IsDigits (s ++ [c]) := by
  refine ⟨by simp, fun d hd => ?_⟩
  rcases List.mem_append.1 hd with hd | hd
  · exact h d hd
  · rw [List.mem_singleton.1 hd]
    exact hc

theorem decimal_snoc (s : List Char) (c : Char) :
    decimal (s ++ [c]) = 10 * decimal s + (c.toNat - '0'.toNat) := by
  simp [decimal, Nat.ofDigits_cons]
  omega

theorem digitsValue_eq_decimal (s : List Char) : digitsValue s = decimal s := by
  induction s using List.reverseRecOn with
  | nil => rfl
  | append_singleton s c ih =>
    rw [decimal_snoc, ← ih]
    simp [digitsValue]

/-! ### Runs of the automaton -/

namespace State

/-- The state after a text, if the automaton takes all of it. -/
def run? : State → List Char → Option State
  | s, [] => some s
  | s, c :: cs => (s.next? c).bind fun s' => run? s' cs

theorem run?_append (s : State) (cs ds : List Char) :
    s.run? (cs ++ ds) = (s.run? cs).bind fun s' => s'.run? ds := by
  induction cs generalizing s with
  | nil => rfl
  | cons c cs ih =>
    rw [List.cons_append, run?, run?, Option.bind_assoc]
    congr 1
    funext s'
    exact ih s'

theorem run?_snoc (s : State) (cs : List Char) (c : Char) :
    s.run? (cs ++ [c]) = (s.run? cs).bind fun s' => s'.next? c := by
  rw [run?_append]
  congr 1
  funext s'
  simp [run?]

/-- In a state that digits lead back to, any number of digits do. -/
theorem run?_digits {s : State} (hs : ∀ c : Char, c.isDigit = true → s.next? c = some s)
    {ds : List Char} (h : ∀ c ∈ ds, c.isDigit = true) : s.run? ds = some s := by
  induction ds with
  | nil => rfl
  | cons c ds ih =>
    rw [List.forall_mem_cons] at h
    rw [run?, hs c h.1, Option.bind_some, ih h.2]

/-- Digits lead to a state that further digits lead back to. -/
theorem run?_isDigits {s s' : State} (hs : ∀ c : Char, c.isDigit = true → s.next? c = some s')
    (hs' : ∀ c : Char, c.isDigit = true → s'.next? c = some s') {ds : List Char} (h : IsDigits ds) :
    s.run? ds = some s' := by
  obtain ⟨hne, hdigits⟩ := h
  cases ds with
  | nil => exact absurd rfl hne
  | cons c ds =>
    rw [List.forall_mem_cons] at hdigits
    rw [run?, hs c hdigits.1, Option.bind_some, run?_digits hs' hdigits.2]

/-- The texts that each state stands for. -/
inductive Follows : State → List Char → Prop
  | start : Follows .start []
  | integerDigits {ds : List Char} (h : IsDigits ds) : Follows .integerDigits ds
  | dotSeen {ws : List Char} (hw : ∀ c ∈ ws, c.isDigit = true) : Follows .dotSeen (ws ++ ['.'])
  | fractionDigits {ws fs : List Char} (hw : ∀ c ∈ ws, c.isDigit = true) (hf : IsDigits fs) :
      Follows .fractionDigits (ws ++ '.' :: fs)
  | exponentMarker {m : List Char} {n : Nat} {a : Int} {x : Char} (hm : Mantissa m n a)
      (hx : x = 'e' ∨ x = 'E') : Follows .exponentMarker (m ++ [x])
  | exponentSign {m : List Char} {n : Nat} {a : Int} {x sign : Char} (hm : Mantissa m n a)
      (hx : x = 'e' ∨ x = 'E') (hs : sign = '+' ∨ sign = '-') :
      Follows .exponentSign (m ++ [x, sign])
  | exponentDigits {m x : List Char} {n : Nat} {a b : Int} (hm : Mantissa m n a)
      (hx : Exponent x b) (hne : x ≠ []) : Follows .exponentDigits (m ++ x)

end State

/-- One more digit can be put behind an exponent. -/
theorem Exponent.snoc {x : List Char} {b : Int} (h : Exponent x b) (hne : x ≠ []) {c : Char}
    (hc : c.isDigit = true) : ∃ b', Exponent (x ++ [c]) b' := by
  cases h with
  | absent => exact absurd rfl hne
  | plain hx hd => exact ⟨_, .plain hx (.snoc hd.2 hc)⟩
  | plus hx hd => exact ⟨_, .plus hx (.snoc hd.2 hc)⟩
  | minus hx hd => exact ⟨_, .minus hx (.snoc hd.2 hc)⟩

namespace State

/-- One character leads from the texts of a state to those of the next one. -/
theorem Follows.next {s s' : State} {cs : List Char} {c : Char} (h : Follows s cs)
    (hn : s.next? c = some s') : Follows s' (cs ++ [c]) := by
  cases h with
  | start =>
    rw [next?] at hn
    split at hn
    · next hc =>
      cases hn
      exact .integerDigits (.snoc (by simp) hc)
    · split at hn
      · next hc =>
        cases hn
        exact hc ▸ @Follows.dotSeen [] (by simp)
      · cases hn
  | integerDigits h =>
    rw [next?] at hn
    split at hn
    · next hc =>
      cases hn
      exact .integerDigits (.snoc h.2 hc)
    · split at hn
      · next hc =>
        cases hn
        exact hc ▸ .dotSeen h.2
      · split at hn
        · next hc =>
          cases hn
          exact .exponentMarker (.whole h) hc
        · cases hn
  | dotSeen hw =>
    rw [next?] at hn
    split at hn
    · next hc =>
      cases hn
      rw [List.append_assoc]
      exact .fractionDigits hw (.snoc (s := []) (by simp) hc)
    · cases hn
  | fractionDigits hw hf =>
    rw [next?] at hn
    split at hn
    · next hc =>
      cases hn
      rw [List.append_assoc]
      exact .fractionDigits hw (.snoc hf.2 hc)
    · split at hn
      · next hc =>
        cases hn
        exact .exponentMarker (.point hw hf) hc
      · cases hn
  | exponentMarker hm hx =>
    rw [next?] at hn
    rw [List.append_assoc]
    split at hn
    · next hc =>
      cases hn
      exact .exponentDigits hm (.plain hx (.snoc (s := []) (by simp) hc)) (by simp)
    · split at hn
      · next hc =>
        cases hn
        exact .exponentSign hm hx hc
      · cases hn
  | exponentSign hm hx hs =>
    rw [next?] at hn
    rw [List.append_assoc]
    split at hn
    · next hc =>
      cases hn
      rcases hs with rfl | rfl
      · exact .exponentDigits hm (.plus hx (.snoc (s := []) (by simp) hc)) (by simp)
      · exact .exponentDigits hm (.minus hx (.snoc (s := []) (by simp) hc)) (by simp)
    · cases hn
  | exponentDigits hm hx hne =>
    rw [next?] at hn
    rw [List.append_assoc]
    split at hn
    · next hc =>
      cases hn
      obtain ⟨b', hx'⟩ := hx.snoc hne hc
      exact .exponentDigits hm hx' (by simp)
    · cases hn

theorem next?_marker {x : Char} (hx : x = 'e' ∨ x = 'E') :
    next? .integerDigits x = some .exponentMarker ∧
      next? .fractionDigits x = some .exponentMarker := by
  rcases hx with rfl | rfl <;> decide

theorem next?_sign {c : Char} (hc : c = '+' ∨ c = '-') :
    next? .exponentMarker c = some .exponentSign := by
  rcases hc with rfl | rfl <;> decide

theorem run?_whole {ws : List Char} (hw : ∀ c ∈ ws, c.isDigit = true) :
    run? .start (ws ++ ['.']) = some .dotSeen := by
  rw [run?_snoc]
  cases ws with
  | nil => decide
  | cons c ws =>
    have hrun : run? .start (c :: ws) = some .integerDigits :=
      run?_isDigits (fun c hc => by simp [next?, hc]) (fun c hc => by simp [next?, hc])
        ⟨by simp, hw⟩
    rw [hrun]
    decide

/-- A mantissa leads to one of two states, and a marker leads on from both to the same one. -/
theorem run?_mantissa {m : List Char} {n : Nat} {a : Int} (h : Mantissa m n a) :
    (run? .start m = some .integerDigits ∧ IsDigits m) ∨ run? .start m = some .fractionDigits := by
  cases h with
  | whole h =>
    refine .inl ⟨run?_isDigits ?_ ?_ h, h⟩ <;> exact fun c hc => by simp [next?, hc]
  | @point ws fs hw hf =>
    have hsplit : ws ++ '.' :: fs = ws ++ ['.'] ++ fs := by simp
    rw [hsplit, run?_append, run?_whole hw, Option.bind_some]
    refine .inr (run?_isDigits ?_ ?_ hf) <;> exact fun c hc => by simp [next?, hc]

theorem run?_marker {m : List Char} {n : Nat} {a : Int} {x : Char} (hm : Mantissa m n a)
    (hx : x = 'e' ∨ x = 'E') (cs : List Char) :
    run? .start (m ++ x :: cs) = run? .exponentMarker cs := by
  rw [run?_append]
  rcases run?_mantissa hm with ⟨h, -⟩ | h
  · rw [h, Option.bind_some, run?, (next?_marker hx).1, Option.bind_some]
  · rw [h, Option.bind_some, run?, (next?_marker hx).2, Option.bind_some]

theorem run?_exponent {m x : List Char} {n : Nat} {a b : Int} (hm : Mantissa m n a)
    (hx : Exponent x b) (hne : x ≠ []) : run? .start (m ++ x) = some .exponentDigits := by
  have hdigits : ∀ c : Char, c.isDigit = true → next? .exponentDigits c = some .exponentDigits :=
    fun c hc => by simp [next?, hc]
  cases hx with
  | absent => exact absurd rfl hne
  | plain hx hd =>
    rw [run?_marker hm hx]
    exact run?_isDigits (fun c hc => by simp [next?, hc]) hdigits hd
  | plus hx hd =>
    rw [run?_marker hm hx, run?, next?_sign (.inl rfl), Option.bind_some]
    exact run?_isDigits (fun c hc => by simp [next?, hc]) hdigits hd
  | minus hx hd =>
    rw [run?_marker hm hx, run?, next?_sign (.inr rfl), Option.bind_some]
    exact run?_isDigits (fun c hc => by simp [next?, hc]) hdigits hd

/-- **The texts that lead to a state are the ones it stands for.** -/
theorem run?_eq_some_iff {s : State} {cs : List Char} : run? .start cs = some s ↔ Follows s cs := by
  constructor
  · intro h
    induction cs using List.reverseRecOn generalizing s with
    | nil =>
      cases h
      exact .start
    | append_singleton cs c ih =>
      rw [run?_snoc, Option.bind_eq_some_iff] at h
      obtain ⟨s₁, h₁, h₂⟩ := h
      exact (ih h₁).next h₂
  · intro h
    cases h with
    | start => rfl
    | integerDigits h =>
      refine run?_isDigits ?_ ?_ h <;> exact fun c hc => by simp [next?, hc]
    | dotSeen hw => exact run?_whole hw
    | @fractionDigits ws fs hw hf =>
      have hsplit : ws ++ '.' :: fs = ws ++ ['.'] ++ fs := by simp
      rw [hsplit, run?_append, run?_whole hw, Option.bind_some]
      refine run?_isDigits ?_ ?_ hf <;> exact fun c hc => by simp [next?, hc]
    | exponentMarker hm hx => rw [run?_marker hm hx, run?]
    | exponentSign hm hx hs =>
      rw [run?_marker hm hx, run?, next?_sign hs, Option.bind_some, run?]
    | exponentDigits hm hx hne => exact run?_exponent hm hx hne

/-- The states in which what has been read is a literal. -/
def Accepting (s : State) : Prop := s = .integerDigits ∨ s = .fractionDigits ∨ s = .exponentDigits

/-- From every state a literal can be completed. -/
theorem exists_completion (s : State) : ∃ t s', s.run? t = some s' ∧ s'.Accepting := by
  cases s with
  | start => exact ⟨['0'], .integerDigits, rfl, .inl rfl⟩
  | integerDigits => exact ⟨[], .integerDigits, rfl, .inl rfl⟩
  | dotSeen => exact ⟨['0'], .fractionDigits, rfl, .inr (.inl rfl)⟩
  | fractionDigits => exact ⟨[], .fractionDigits, rfl, .inr (.inl rfl)⟩
  | exponentMarker => exact ⟨['0'], .exponentDigits, rfl, .inr (.inr rfl)⟩
  | exponentSign => exact ⟨['0'], .exponentDigits, rfl, .inr (.inr rfl)⟩
  | exponentDigits => exact ⟨[], .exponentDigits, rfl, .inr (.inr rfl)⟩

theorem run?_eq_integerDigits_iff {cs : List Char} :
    run? .start cs = some .integerDigits ↔ IsDigits cs := by
  rw [run?_eq_some_iff]
  constructor
  · intro h
    cases h with
    | integerDigits h => exact h
  · exact .integerDigits

/-- **The automaton accepts exactly the literals.** -/
theorem isLiteral_iff {cs : List Char} :
    IsLiteral cs ↔ ∃ s, run? .start cs = some s ∧ s.Accepting := by
  constructor
  · rintro ⟨n, e, m, x, a, b, rfl, hm, hx, -⟩
    by_cases hne : x = []
    · rw [hne, List.append_nil]
      rcases run?_mantissa hm with ⟨h, -⟩ | h
      · exact ⟨_, h, .inl rfl⟩
      · exact ⟨_, h, .inr (.inl rfl)⟩
    · exact ⟨_, run?_exponent hm hx hne, .inr (.inr rfl)⟩
  · rintro ⟨s, hs, hacc⟩
    rw [run?_eq_some_iff] at hs
    rcases hacc with rfl | rfl | rfl
    · cases hs with
      | integerDigits h => exact ⟨_, _, cs, [], 0, 0, by simp, .whole h, .absent, rfl⟩
    · cases hs with
      | fractionDigits hw hf => exact ⟨_, _, _, [], _, 0, by simp, .point hw hf, .absent, rfl⟩
    · cases hs with
      | exponentDigits hm hx hne => exact ⟨_, _, _, _, _, _, rfl, hm, hx, rfl⟩

/-- **The automaton goes on exactly as long as some literal starts with what it reads.** -/
theorem run?_isSome_iff {cs : List Char} : (run? .start cs).isSome ↔ Viable cs := by
  constructor
  · intro h
    obtain ⟨s, hs⟩ := Option.isSome_iff_exists.1 h
    obtain ⟨t, s', ht, hacc⟩ := s.exists_completion
    exact ⟨t, isLiteral_iff.2 ⟨s', by rw [run?_append, hs, Option.bind_some, ht], hacc⟩⟩
  · rintro ⟨t, ht⟩
    obtain ⟨s, hs, -⟩ := isLiteral_iff.1 ht
    rw [run?_append, Option.bind_eq_some_iff] at hs
    obtain ⟨s₁, h₁, -⟩ := hs
    exact Option.isSome_iff_exists.2 ⟨s₁, h₁⟩

end State

/-- What a viable text starts with is viable. -/
theorem Viable.of_append {s t : List Char} (h : Viable (s ++ t)) : Viable s := by
  obtain ⟨u, hu⟩ := h
  exact ⟨t ++ u, by rwa [← List.append_assoc]⟩

/-! ### Values -/

/-- The digits at the head of a text, and what is behind them. -/
theorem span_digits {ds cs : List Char} (h : ∀ c ∈ ds, c.isDigit = true)
    (hcs : ∀ c ∈ cs.head?, c.isDigit = false) :
    (ds ++ cs).takeWhile Char.isDigit = ds ∧ (ds ++ cs).dropWhile Char.isDigit = cs := by
  have htake : cs.takeWhile Char.isDigit = [] := by
    cases cs with
    | nil => rfl
    | cons c cs => simp [hcs c rfl]
  have hdrop : cs.dropWhile Char.isDigit = cs := by
    cases cs with
    | nil => rfl
    | cons c cs => simp [hcs c rfl]
  rw [List.takeWhile_append_of_pos h, List.dropWhile_append_of_pos h, htake, hdrop]
  exact ⟨List.append_nil ds, rfl⟩

theorem Exponent.not_isDigit {x : List Char} {b : Int} (h : Exponent x b) :
    ∀ c ∈ x.head?, c.isDigit = false ∧ c ≠ '.' := by
  have hmarker : ∀ c : Char, c = 'e' ∨ c = 'E' → c.isDigit = false ∧ c ≠ '.' := by
    rintro c (rfl | rfl) <;> decide
  cases h with
  | absent => simp
  | plain hx _ => simpa using hmarker _ hx
  | plus hx _ => simpa using hmarker _ hx
  | minus hx _ => simpa using hmarker _ hx

theorem Exponent.exponentValue_eq {x : List Char} {b : Int} (h : Exponent x b) :
    exponentValue (x.drop 1) = b := by
  cases h with
  | absent => rfl
  | @plain _ ds _ hd =>
    obtain ⟨hne, hdigits⟩ := hd
    cases ds with
    | nil => exact absurd rfl hne
    | cons d ds =>
      have hminus : d ≠ '-' := by
        rintro rfl
        exact absurd (hdigits '-' List.mem_cons_self) (by decide)
      have hplus : d ≠ '+' := by
        rintro rfl
        exact absurd (hdigits '+' List.mem_cons_self) (by decide)
      rw [← digitsValue_eq_decimal]
      simp [exponentValue, hminus, hplus]
  | plus _ _ =>
    rw [← digitsValue_eq_decimal]
    rfl
  | minus _ _ =>
    rw [← digitsValue_eq_decimal]
    rfl

/-- A literal is read as the decimal number that it denotes. -/
theorem Denotes.doubleValue_eq {s : List Char} {n : Nat} {e : Int} (h : Denotes s n e) :
    doubleValue s = Double.ofDecimal false n e := by
  obtain ⟨m, x, a, b, rfl, hm, hx, rfl⟩ := h
  have hstop := hx.not_isDigit
  cases hm with
  | whole h =>
    obtain ⟨htake, hdrop⟩ := span_digits h.2 fun c hc => (hstop c hc).1
    have hpoint : ∀ ds, x ≠ '.' :: ds := by
      rintro ds rfl
      exact (hstop '.' rfl).2 rfl
    unfold doubleValue
    simp only [htake, hdrop, digitsValue_eq_decimal, hx.exponentValue_eq]
    simp
  | @point ws fs hw hf =>
    have hdot : ∀ c ∈ ('.' :: (fs ++ x)).head?, c.isDigit = false := by simp
    obtain ⟨htake, hdrop⟩ := span_digits hw hdot
    obtain ⟨htake', hdrop'⟩ := span_digits hf.2 fun c hc => (hstop c hc).1
    rw [List.append_assoc, List.cons_append]
    unfold doubleValue
    simp only [htake, hdrop, htake', hdrop', digitsValue_eq_decimal, hx.exponentValue_eq]
    congr 1
    omega

/-- **A literal is read as the double nearest to the number it denotes.** -/
theorem Denotes.doubleValue_nearest {s : List Char} {n : Nat} {e : Int} (h : Denotes s n e) :
    Double.Nearest (n * 10 ^ e) (doubleValue s) := by
  rw [h.doubleValue_eq]
  simpa using (Double.ofDecimal_nearest false n e).2

end Literal

/-! ### Longest stretches -/

/-- The longest stretch with the property `P` at the head of the text `slice ++ after`. -/
def Longest (P : List Char → Prop) (slice after : List Char) : Prop :=
  P slice ∧ ∀ longer, longer <+: slice ++ after → P longer → longer.length ≤ slice.length

/-- If a property passes to shorter stretches, the next character decides. -/
theorem Longest.of_head {P : List Char → Prop} {slice after : List Char} (h : P slice)
    (hshorter : ∀ c t, P (slice ++ c :: t) → P (slice ++ [c]))
    (hstop : ∀ c ∈ after.head?, ¬ P (slice ++ [c])) : Longest P slice after := by
  refine ⟨h, fun longer hprefix hlonger => ?_⟩
  by_contra hlen
  obtain ⟨t, rfl⟩ : slice <+: longer :=
    List.prefix_of_prefix_length_le (List.prefix_append slice after) hprefix (by omega)
  rw [List.prefix_append_right_inj] at hprefix
  cases t with
  | nil => simp at hlen
  | cons c t =>
    obtain ⟨u, rfl⟩ := hprefix
    exact hstop c rfl (hshorter c t hlonger)

/-! ### The recognizer -/

namespace Recognizer

open Literal

/-- Every text is one that the automaton takes and a rest that it stops at. -/
theorem exists_split (s : State) (cs : List Char) :
    ∃ taken rest s', cs = taken ++ rest ∧ s.run? taken = some s' ∧
      ∀ c ∈ rest.head?, s'.next? c = none := by
  induction cs generalizing s with
  | nil => exact ⟨[], [], s, rfl, rfl, by simp⟩
  | cons c cs ih =>
    cases hn : s.next? c with
    | none => exact ⟨[], c :: cs, s, rfl, rfl, by simpa using hn⟩
    | some s₁ =>
      obtain ⟨taken, rest, s', rfl, hrun, hstop⟩ := ih s₁
      exact ⟨c :: taken, rest, s', rfl, by rw [State.run?, hn, Option.bind_some, hrun], hstop⟩

/-- The recognizer reads what the automaton takes, up to where it stops. -/
theorem readAll_eq {s s' : State} (text : String) {taken rest : List Char}
    (hrun : s.run? taken = some s') (hstop : ∀ c ∈ rest.head?, s'.next? c = none) :
    (⟨s, text⟩ : Recognizer).readAll (taken ++ rest) =
      (⟨s', text ++ String.ofList taken⟩, rest) := by
  induction taken generalizing s text with
  | nil =>
    cases hrun
    cases rest with
    | nil => simp [readAll]
    | cons c rest => simp [readAll, read?, hstop c rfl]
  | cons c taken ih =>
    rw [State.run?, Option.bind_eq_some_iff] at hrun
    obtain ⟨s₁, hnext, hrun⟩ := hrun
    rw [List.cons_append, readAll, read?, hnext]
    show (⟨s₁, text.push c⟩ : Recognizer).readAll (taken ++ rest) = _
    rw [ih (text.push c) hrun]
    have htext : text.push c ++ String.ofList taken = text ++ String.ofList (c :: taken) := by
      rw [← String.toList_inj]
      simp
    rw [htext]

/-- **The value of what has been read:** the number that digits denote if that fits, the double nearest
to any other literal, and none if it is no literal. -/
theorem value_eq {s : State} {cs : List Char} (h : State.run? .start cs = some s) :
    (IsDigits cs → (⟨s, String.ofList cs⟩ : Recognizer).value =
      if decimal cs < 2 ^ 63 then .ok (.int (Int64.ofNat (decimal cs))) else .error .outOfRange) ∧
    (∀ n e, ¬ IsDigits cs → Denotes cs n e →
      (⟨s, String.ofList cs⟩ : Recognizer).value = .ok (.double (Double.ofDecimal false n e))) ∧
    (¬ IsLiteral cs → (⟨s, String.ofList cs⟩ : Recognizer).value = .error .incomplete) := by
  refine ⟨fun hdigits => ?_, fun n e hdigits hden => ?_, fun hlit => ?_⟩
  · rw [State.run?_eq_integerDigits_iff.2 hdigits] at h
    obtain rfl := Option.some.inj h
    simp [value, isInteger, digitsValue_eq_decimal]
  · obtain ⟨s', hs', hacc⟩ := State.isLiteral_iff.1 ⟨n, e, hden⟩
    obtain rfl := Option.some.inj (h.symm.trans hs')
    have hinteger : s ≠ .integerDigits := by
      rintro rfl
      exact hdigits (State.run?_eq_integerDigits_iff.1 h)
    have hdouble : s = .fractionDigits ∨ s = .exponentDigits := hacc.resolve_left hinteger
    rcases hdouble with rfl | rfl <;> simp [value, isInteger, isDouble, hden.doubleValue_eq]
  · have hacc : ¬ s.Accepting := fun hacc => hlit (State.isLiteral_iff.2 ⟨s, h, hacc⟩)
    simp only [State.Accepting, not_or] at hacc
    simp [value, isInteger, isDouble, hacc]

theorem isInteger_iff {s : State} {text : String} :
    (⟨s, text⟩ : Recognizer).isInteger = true ↔ s = .integerDigits := by
  simp [isInteger]

theorem isAccepted_iff {s : State} {text : String} :
    (⟨s, text⟩ : Recognizer).isAccepted = true ↔ s.Accepting := by
  simp [isAccepted, isInteger, isDouble, State.Accepting]

theorem value_eq_incomplete_iff (r : Recognizer) :
    r.value = .error .incomplete ↔ r.isAccepted = false := by
  unfold value isAccepted
  cases r.isInteger with
  | true =>
    simp only [if_true]
    split <;> simp
  | false => cases r.isDouble <;> simp

/-- A character is taken exactly if some literal starts with it behind what has been read. -/
theorem read?_isSome_iff {s : State} {cs : List Char} (h : State.run? .start cs = some s) (c : Char) :
    ((⟨s, String.ofList cs⟩ : Recognizer).read? c).isSome ↔ Viable (cs ++ [c]) := by
  rw [← State.run?_isSome_iff, State.run?_snoc, h, Option.bind_some, read?, Option.isSome_map]

/-- What has been read can be followed no further than the automaton has followed it. -/
theorem longest_viable {s : State} {taken rest : List Char} (hrun : State.run? .start taken = some s)
    (hstop : ∀ c ∈ rest.head?, s.next? c = none) : Longest Viable taken rest := by
  refine .of_head ?_ ?_ ?_
  · rw [← State.run?_isSome_iff, hrun]
    rfl
  · intro c t ht
    rw [List.append_cons] at ht
    exact ht.of_append
  · intro c hc ht
    rw [← State.run?_isSome_iff, State.run?_snoc, hrun, Option.bind_some, hstop c hc] at ht
    cases ht

/-- **The recognizer recognises the grammar of literals.**  Of any text, a fresh recognizer takes the longest
stretch that some literal starts with, and that is its text.  It takes one more character exactly if some
literal starts with what has been read and that character; a character that it refuses leaves it as it
is.  It accepts exactly the literals, and as integers those that are digits.  There is no value exactly if
it does not accept; digits have the number they denote as their value if it fits into 64 bits with a sign
and are out of range if it does not, and every other literal has a double, the one nearest to what it
denotes. -/
theorem readAll_recognizes (text : String) :
    let (r, rest) := ({} : Recognizer).readAll text.toList
    let taken := r.text.toList
    text.toList = taken ++ rest ∧ Longest Viable taken rest ∧
    (∀ c, Viable (taken ++ [c]) → ∃ r', r.read? c = some r' ∧ r'.text = r.text.push c) ∧
    (∀ c, ¬ Viable (taken ++ [c]) → r.read? c = none ∧ ∀ cs, r.readAll (c :: cs) = (r, c :: cs)) ∧
    (r.isAccepted = true ↔ IsLiteral taken) ∧ (r.isInteger = true ↔ IsDigits taken) ∧
    (r.value = .error .incomplete ↔ r.isAccepted = false) ∧
    (IsDigits taken →
      (decimal taken ≤ 2 ^ 63 - 1 → ∃ i : Int64, r.value = .ok (.int i) ∧ i.toInt = decimal taken) ∧
      (2 ^ 63 - 1 < decimal taken → r.value = .error .outOfRange)) ∧
    (∀ n e, ¬ IsDigits taken → Denotes taken n e →
      r.value = .ok (.double (Double.ofDecimal false n e))) := by
  obtain ⟨taken, rest, s, htext, hrun, hstop⟩ := exists_split .start text.toList
  have hread : ({} : Recognizer).readAll text.toList = (⟨s, String.ofList taken⟩, rest) := by
    rw [htext, readAll_eq "" hrun hstop, String.empty_append]
  rw [hread]
  simp only [String.toList_ofList]
  obtain ⟨hdigits, hdouble, -⟩ := value_eq hrun
  refine ⟨htext, longest_viable hrun hstop, ?_, ?_, ?_, ?_, value_eq_incomplete_iff _, ?_, hdouble⟩
  · intro c hc
    obtain ⟨r', hr'⟩ := Option.isSome_iff_exists.1 ((read?_isSome_iff hrun c).2 hc)
    obtain ⟨s', -, rfl⟩ := Option.map_eq_some_iff.1 hr'
    exact ⟨_, hr', rfl⟩
  · intro c hc
    have hnone : (⟨s, String.ofList taken⟩ : Recognizer).read? c = none := by
      rw [← read?_isSome_iff hrun c, Option.not_isSome_iff_eq_none] at hc
      exact hc
    refine ⟨hnone, fun cs => ?_⟩
    rw [readAll, hnone]
  · rw [isAccepted_iff, State.isLiteral_iff]
    constructor
    · exact fun hacc => ⟨s, hrun, hacc⟩
    · rintro ⟨s', hs', hacc⟩
      obtain rfl := Option.some.inj (hrun.symm.trans hs')
      exact hacc
  · rw [isInteger_iff, ← State.run?_eq_integerDigits_iff, hrun, Option.some.injEq]
  · intro hd
    rw [hdigits hd]
    refine ⟨fun hle => ?_, fun hlt => ?_⟩
    · have hfits : decimal taken < 2 ^ 63 := by omega
      rw [if_pos hfits]
      exact ⟨_, rfl, Int64.toInt_ofNat_of_lt hfits⟩
    · rw [if_neg (by omega)]

end Recognizer

end ScalarLang
