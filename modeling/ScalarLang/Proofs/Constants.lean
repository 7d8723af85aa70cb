import ScalarLang.Double.Text
import ScalarLang.Proofs.Rounding
import ScalarLang.Proofs.Spelling
import ScalarLang.Text.Digits

/-!
# Constants in listings

A constant in a listing is written with six decimals if it can be read back from them, and as its bit pattern
otherwise.  Whether it can be read back is found out by reading, and numbers are compared, so the two zeros
are not told apart and a double that is not a number never passes.  The exponent is respelled after that.
Nothing of this changes what a constant is read back as: all sixty-four bits of it.

* `Double.ofConstant?` — the double that a constant stands for.
* `Double.ofText?_of_point` — a decimal number is read as the nearest double of its sign.
* `Double.eq_of_numEq` — an equal number of the same sign is the same double.
* `Double.scientific?_reads` — the six-decimal form is read back as the double.
* `Double.hexText_reads` — so is the bit pattern.
* `Double.constantText_chars` — the characters of a constant, which is not written like an integer.
* `Double.constantText_reads` — every constant is read back, and no two doubles have the same.
-/

namespace ScalarLang

namespace Double

open Literal

variable {d v : Double} {cs : List Char} {n : Nat} {e : Int}

/-- The double that a constant stands for.  Behind `0x` sixteen hexadecimal digits are the bit pattern, and
any other text is a decimal number. -/
def ofConstant? (text : String) : Option Double :=
  match text.toList with
  | '0' :: 'x' :: digits =>
    if digits.length = 16 ∧ digits.all isHexDigit then
      some ⟨UInt64.ofNat (ofDigits 16 digits)⟩
    else none
  | _ => ofText? text

/-! ### Reading decimal numbers -/

theorem ne_sign_of_isDigit {c : Char} (h : c.isDigit = true) : c ≠ '-' ∧ c ≠ '+' := by
  constructor <;> (rintro rfl; exact absurd h (by decide))

theorem powerOfTen?_of_exponent {x : List Char} {b : Int} (h : Exponent x b) :
    powerOfTen? x = some b := by
  have hvalue := h.exponentValue_eq
  have hmarked : ∀ {c : Char} {cs : List Char}, c = 'e' ∨ c = 'E' → IsDigits (unsigned cs) →
      powerOfTen? (c :: cs) = some (exponentValue cs) := by
    intro c cs hc hd
    have hall : (unsigned cs).all Char.isDigit = true := List.all_eq_true.2 hd.2
    have hne : (unsigned cs).isEmpty = false := List.isEmpty_eq_false_iff.2 hd.1
    have hmarker : (c == 'e' || c == 'E') = true := by simpa using hc
    rw [powerOfTen?, hmarker, hall, hne]
    rfl
  rw [← hvalue]
  cases h with
  | absent => rfl
  | @plain c ds hc hd =>
    obtain ⟨d, ds, rfl⟩ := List.exists_cons_of_ne_nil hd.1
    obtain ⟨hminus, hplus⟩ := ne_sign_of_isDigit (hd.2 d List.mem_cons_self)
    have hunsigned : unsigned (d :: ds) = d :: ds := by
      unfold unsigned
      split <;> simp_all
    exact hmarked hc (hunsigned.symm ▸ hd)
  | plus hc hd => exact hmarked hc hd
  | minus hc hd => exact hmarked hc hd

/-- The digits of a decimal number with a point, and its exponent. -/
theorem decimalBits?_of_point {ws fs x : List Char} {b : Int} (hw : IsDigits ws) (hf : IsDigits fs)
    (hx : Exponent x b) :
    decimalBits? (ws ++ '.' :: (fs ++ x)) = some (nearestDecimalBits (decimal (ws ++ fs)) (b - fs.length)) := by
  have hdot : ∀ c ∈ ('.' :: (fs ++ x)).head?, c.isDigit = false := by simp
  obtain ⟨htake, hdrop⟩ := span_digits hw.2 hdot
  obtain ⟨htake', hdrop'⟩ := span_digits hf.2 fun c hc => (hx.not_isDigit c hc).1
  have hparts : decimalParts (ws ++ '.' :: (fs ++ x)) = (ws, fs, x) := by
    simp only [decimalParts, htake, hdrop, htake', hdrop']
  have hne : (ws ++ fs).isEmpty = false := by
    rw [List.isEmpty_eq_false_iff]
    exact List.append_ne_nil_of_left_ne_nil hw.1 fs
  rw [decimalBits?, hparts]
  simp only [hne, powerOfTen?_of_exponent hx, digitsValue_eq_decimal]
  rfl

theorem ofText?_neg (cs : List Char) :
    ofText? ("-" ++ String.ofList cs) = (magnitude? cs).map (withSign true) := by
  have hlist : ("-" ++ String.ofList cs).toList = '-' :: cs := by simp
  rw [ofText?, hlist]
  rfl

theorem ofText?_of_digit {c : Char} (hc : c.isDigit = true) (cs : List Char) :
    ofText? (String.ofList (c :: cs)) = (magnitude? (c :: cs)).map (withSign false) := by
  obtain ⟨hminus, hplus⟩ := ne_sign_of_isDigit hc
  rw [ofText?, String.toList_ofList]
  split <;> simp_all

/-- **A decimal number is read as the nearest double of its sign.** -/
theorem ofText?_of_point (d : Double) {ws fs x : List Char} {b : Int} (hw : IsDigits ws) (hf : IsDigits fs)
    (hx : Exponent x b) :
    ofText? (d.sign ++ String.ofList (ws ++ '.' :: (fs ++ x))) =
      some (ofDecimal d.isNegative (decimal (ws ++ fs)) (b - fs.length)) := by
  have hbits : magnitude? (ws ++ '.' :: (fs ++ x)) =
      some (nearestDecimalBits (decimal (ws ++ fs)) (b - fs.length)) := by
    rw [magnitude?, decimalBits?_of_point hw hf hx]
    rfl
  rw [sign, ofDecimal]
  cases d.isNegative with
  | true =>
    rw [if_pos rfl, ofText?_neg, hbits]
    rfl
  | false =>
    obtain ⟨c, ws', rfl⟩ := List.exists_cons_of_ne_nil hw.1
    rw [if_neg (by decide), String.empty_append, List.cons_append,
      ofText?_of_digit (hw.2 c List.mem_cons_self), ← List.cons_append, hbits]
    rfl

/-! ### Equal numbers -/

/-- **An equal number of the same sign is the same double.**  Only the zeros are equal and not the same, and
they differ in sign. -/
theorem eq_of_numEq (h : (ofDecimal d.isNegative n e).numEq d = true) :
    ofDecimal d.isNegative n e = d := by
  rw [numEq] at h
  simp only [Bool.and_eq_true, Bool.or_eq_true, beq_iff_eq] at h
  rcases h.2 with hbits | ⟨hzero, hzero'⟩
  · cases d
    exact congrArg mk hbits
  · rw [isZero, beq_iff_eq, ofDecimal, magnitudeBits_withSign (nearestDecimalBits_lt n e)] at hzero
    rw [isZero, beq_iff_eq] at hzero'
    rw [ofDecimal, hzero, ← hzero', withSign_magnitudeBits]

/-! ### The six-decimal form -/

theorem toList_padded (width : Nat) (digits : String) :
    (padded width digits).toList = List.replicate (width - digits.length) '0' ++ digits.toList := by
  rw [padded, String.toList_append, String.toList_ofList]

/-- Zeros in front of a number change nothing of it. -/
theorem padded_repr (width n : Nat) :
    IsDigits (padded width n.repr).toList ∧ decimal (padded width n.repr).toList = n := by
  obtain ⟨⟨hne, hdigits⟩, hdecimal⟩ := isDigits_repr n
  have hzeros : ∀ k, digitsValue (List.replicate k '0' ++ n.repr.toList) = n := by
    intro k
    induction k with
    | zero =>
      rw [List.replicate_zero, List.nil_append, digitsValue_eq_decimal]
      exact hdecimal
    | succ k ih => exact ih
  rw [toList_padded, ← digitsValue_eq_decimal]
  refine ⟨⟨List.append_ne_nil_of_right_ne_nil _ hne, fun c hc => ?_⟩, hzeros _⟩
  rcases List.mem_append.1 hc with hc | hc
  · rw [List.eq_of_mem_replicate hc]
    rfl
  · exact hdigits c hc

theorem exponent_repr (k : Int) : Exponent ('e' :: k.repr.toList) k := by
  rw [Int.repr_eq_if]
  split
  · next h =>
    obtain ⟨hdigits, hdecimal⟩ := isDigits_repr k.toNat
    have hexp : Exponent ('e' :: k.toNat.repr.toList) (decimal k.toNat.repr.toList) :=
      .plain (.inl rfl) hdigits
    rw [hdecimal, Int.toNat_of_nonneg h] at hexp
    exact hexp
  · next h =>
    obtain ⟨hdigits, hdecimal⟩ := isDigits_repr (-k).toNat
    have hexp : Exponent ('e' :: '-' :: (-k).toNat.repr.toList) (-(decimal (-k).toNat.repr.toList : Int)) :=
      .minus (.inl rfl) hdigits
    rw [hdecimal, Int.toNat_of_nonneg (by omega), Int.neg_neg] at hexp
    rw [String.toList_append]
    exact hexp

/-- Respelling an exponent does not change it. -/
theorem exponent_signedExponent (k : Int) :
    Exponent ('e' :: (signedExponent k.repr.toList).toList) k := by
  rw [Int.repr_eq_if]
  split
  · next h =>
    obtain ⟨hdigits, hdecimal⟩ := padded_repr 2 k.toNat
    have hexp : Exponent ('e' :: '+' :: (padded 2 k.toNat.repr).toList)
        (decimal (padded 2 k.toNat.repr).toList) := .plus (.inl rfl) hdigits
    rw [hdecimal, Int.toNat_of_nonneg h] at hexp
    obtain ⟨c, cs, hcs⟩ := List.exists_cons_of_ne_nil (isDigits_repr k.toNat).1.1
    have hne : c ≠ '-' :=
      (ne_sign_of_isDigit ((isDigits_repr k.toNat).1.2 c (by rw [hcs]; exact List.mem_cons_self))).1
    have hspell : signedExponent k.toNat.repr.toList = "+" ++ padded 2 k.toNat.repr := by
      rw [signedExponent.eq_2 _ (by rintro ds hds; exact hne (List.cons.inj (hcs.symm.trans hds)).1),
        String.ofList_toList]
    rw [hspell, String.toList_append]
    exact hexp
  · next h =>
    obtain ⟨hdigits, hdecimal⟩ := padded_repr 2 (-k).toNat
    have hexp : Exponent ('e' :: '-' :: (padded 2 (-k).toNat.repr).toList)
        (-(decimal (padded 2 (-k).toNat.repr).toList : Int)) := .minus (.inl rfl) hdigits
    rw [hdecimal, Int.toNat_of_nonneg (by omega), Int.neg_neg] at hexp
    have hspell : signedExponent ("-" ++ (-k).toNat.repr).toList = "-" ++ padded 2 (-k).toNat.repr := by
      rw [String.toList_append]
      show signedExponent ('-' :: (-k).toNat.repr.toList) = _
      rw [signedExponent.eq_1, String.ofList_toList]
    rw [hspell, String.toList_append]
    exact hexp

/-- The parts of the six-decimal form of a finite double. -/
theorem sixPlaces_of_finite (hnan : d.isNaN = false) (hinf : d.isInfinite = false) :
    ∃ (c : Char) (fs : List Char) (k : Int), IsDigits [c] ∧ IsDigits fs ∧
      d.sixPlaces = d.sign ++ String.ofList ([c] ++ '.' :: (fs ++ 'e' :: k.repr.toList)) := by
  have hdigits := (padded_repr 7 d.sevenDigits.coefficient).1
  have hlength : 7 ≤ (padded 7 d.sevenDigits.coefficient.repr).toList.length := by
    rw [toList_padded, List.length_append, List.length_replicate, String.length_toList]
    omega
  have hform : d.sixPlaces = d.sign
      ++ String.ofList ((padded 7 d.sevenDigits.coefficient.repr).toList.take 1) ++ "."
      ++ String.ofList ((padded 7 d.sevenDigits.coefficient.repr).toList.drop 1) ++ "e"
      ++ (d.sevenDigits.exponent + 6).repr := by
    rw [sixPlaces, hnan, hinf]
    rfl
  obtain ⟨c, fs, hcs⟩ := List.exists_cons_of_ne_nil hdigits.1
  rw [hcs] at hdigits hlength hform
  refine ⟨c, fs, d.sevenDigits.exponent + 6, ⟨by simp, ?_⟩, ⟨?_, ?_⟩, ?_⟩
  · simpa using hdigits.2 c List.mem_cons_self
  · rintro rfl
    rw [List.length_singleton] at hlength
    omega
  · exact fun f hf => hdigits.2 f (List.mem_cons_of_mem c hf)
  · rw [hform, ← String.toList_inj]
    simp

theorem isNaN_eq_false_of_numEq (h : v.numEq d = true) : d.isNaN = false := by
  rw [numEq] at h
  simp only [Bool.and_eq_true, Bool.not_eq_true'] at h
  exact h.1.2

/-- The first `e` of a six-decimal form stands in front of the exponent. -/
theorem span_sixPlaces (d : Double) {c : Char} {fs x : List Char} (hc : IsDigits [c]) (hf : IsDigits fs) :
    let mantissa := d.sign.toList ++ ([c] ++ '.' :: fs)
    (mantissa ++ 'e' :: x).takeWhile (· != 'e') = mantissa ∧
      (mantissa ++ 'e' :: x).dropWhile (· != 'e') = 'e' :: x := by
  intro mantissa
  have hdigit : ∀ {f : Char}, f.isDigit = true → (f != 'e') = true := by
    intro f hf
    rw [bne_iff_ne]
    rintro rfl
    exact absurd hf (by decide)
  have hsign : ∀ f ∈ d.sign.toList, (f != 'e') = true := by
    rw [sign]
    split <;> simp
  have hall : ∀ f ∈ mantissa, (f != 'e') = true := by
    intro f hmem
    rcases List.mem_append.1 hmem with hmem | hmem
    · exact hsign f hmem
    · rcases List.mem_append.1 hmem with hmem | hmem
      · exact hdigit (hc.2 f hmem)
      · rcases List.mem_cons.1 hmem with rfl | hmem
        · decide
        · exact hdigit (hf.2 f hmem)
  rw [List.takeWhile_append_of_pos hall, List.dropWhile_append_of_pos hall]
  simp

/-- A sign, a digit and a point do not start a bit pattern. -/
theorem ofConstant?_of_point (d : Double) (c : Char) (cs : List Char) :
    ofConstant? (d.sign ++ String.ofList (c :: '.' :: cs)) =
      ofText? (d.sign ++ String.ofList (c :: '.' :: cs)) := by
  unfold ofConstant?
  split
  · next digits h =>
    rw [sign] at h
    split at h <;> simp at h
  · rfl

/-- The six-decimal form: a sign, a digit, a point, digits and a signed exponent, of a number that is equal
to the double. -/
theorem scientific?_parts {text : String} (h : d.scientific? = some text) :
    ∃ c fs k, IsDigits [c] ∧ IsDigits fs ∧
      text = d.sign ++
        String.ofList ([c] ++ '.' :: (fs ++ 'e' :: (signedExponent k.repr.toList).toList)) ∧
      (ofDecimal d.isNegative (decimal ([c] ++ fs)) (k - fs.length)).numEq d = true := by
  unfold scientific? at h
  split at h
  case isFalse => cases h
  case isTrue hread =>
    obtain ⟨v, hv, heq⟩ := (Option.any_eq_true _ _).1 hread
    have hnan := isNaN_eq_false_of_numEq heq
    cases hinf : d.isInfinite with
    | true =>
      -- infinity is read back as well, but there is no exponent to respell
      have hsix : d.sixPlaces = d.sign ++ "inf" := by
        rw [sixPlaces, hnan, hinf]
        rfl
      have hdrop : d.sixPlaces.toList.dropWhile (· != 'e') = [] := by
        rw [hsix, sign]
        split <;> rfl
      simp only [hdrop] at h
      cases h
    | false =>
      obtain ⟨c, fs, k, hc, hf, hsix⟩ := sixPlaces_of_finite hnan hinf
      have hlist : d.sixPlaces.toList = (d.sign.toList ++ ([c] ++ '.' :: fs)) ++ 'e' :: k.repr.toList := by
        rw [hsix, String.toList_append, String.toList_ofList]
        simp
      obtain ⟨htake, hdrop⟩ := span_sixPlaces d (x := k.repr.toList) hc hf
      simp only [hlist, htake, hdrop, Option.some.injEq] at h
      rw [hsix, ofText?_of_point d hc hf (exponent_repr k), Option.some.injEq] at hv
      refine ⟨c, fs, k, hc, hf, ?_, hv ▸ heq⟩
      rw [← h, ← String.toList_inj]
      simp

/-- **The six-decimal form is read back as the double.**  It was read as an equal number before its exponent was
respelled, and it has the sign of the double. -/
theorem scientific?_reads {text : String} (h : d.scientific? = some text) :
    ofConstant? text = some d := by
  obtain ⟨c, fs, k, hc, hf, rfl, heq⟩ := scientific?_parts h
  refine (ofConstant?_of_point d c _).trans ?_
  refine (ofText?_of_point d hc hf (exponent_signedExponent k)).trans ?_
  rw [eq_of_numEq heq]

/-! ### Bit patterns -/

theorem ofDigits_snoc (cs : List Char) (c : Char) :
    ofDigits 16 (cs ++ [c]) = ofDigits 16 cs * 16 + digitValue c := by
  simp [ofDigits]

theorem hexDigit_digitChar : ∀ k < 16, digitValue k.digitChar.toUpper = k ∧
    isHexDigit k.digitChar.toUpper = true := by
  decide

/-- Hexadecimal digits in capitals give the number back. -/
theorem ofDigits_toDigits (n : Nat) : ofDigits 16 ((Nat.toDigits 16 n).map Char.toUpper) = n ∧
    ∀ c ∈ (Nat.toDigits 16 n).map Char.toUpper, isHexDigit c = true := by
  induction n using Nat.strong_induction_on with
  | _ n ih =>
    rw [Nat.toDigits_eq_if (by decide)]
    split
    · next hlt =>
      obtain ⟨hvalue, hhex⟩ := hexDigit_digitChar n hlt
      refine ⟨?_, by simpa using hhex⟩
      rw [List.map_singleton, ← List.nil_append [_], ofDigits_snoc, hvalue]
      exact Nat.zero_add n
    · next hge =>
      obtain ⟨ihvalue, ihhex⟩ := ih (n / 16) (by omega)
      obtain ⟨hvalue, hhex⟩ := hexDigit_digitChar (n % 16) (Nat.mod_lt _ (by decide))
      rw [List.map_append, List.map_singleton, ofDigits_snoc, ihvalue, hvalue]
      refine ⟨by omega, fun c hmem => ?_⟩
      rcases List.mem_append.1 hmem with hmem | hmem
      · exact ihhex c hmem
      · rw [List.mem_singleton.1 hmem]
        exact hhex

theorem ofDigits_replicate (k : Nat) (cs : List Char) :
    ofDigits 16 (List.replicate k '0' ++ cs) = ofDigits 16 cs := by
  induction k with
  | zero => rfl
  | succ k ih => exact ih

/-- The bit pattern: sixteen hexadecimal digits behind `0x`. -/
theorem hexText_parts (d : Double) :
    ∃ digits, d.hexText.toList = '0' :: 'x' :: digits ∧ digits.length = 16 ∧
      (∀ c ∈ digits, isHexDigit c = true) ∧ ofDigits 16 digits = d.bits.toNat := by
  let digits := (Nat.toDigits 16 d.bits.toNat).map Char.toUpper
  have hlength : digits.length ≤ 16 := by
    rw [List.length_map]
    exact Nat.toDigits_length 16 d.bits.toNat 16 (by decide) d.bits.toNat_lt
  obtain ⟨hvalue, hhex⟩ := ofDigits_toDigits d.bits.toNat
  refine ⟨List.replicate (16 - digits.length) '0' ++ digits, ?_, ?_, fun c hc => ?_, ?_⟩
  · rw [hexText, String.toList_append, toList_padded]
    simp [digits]
  · rw [List.length_append, List.length_replicate]
    omega
  · rcases List.mem_append.1 hc with hc | hc
    · rw [List.eq_of_mem_replicate hc]
      rfl
    · exact hhex c hc
  · rw [ofDigits_replicate, hvalue]

/-- **The bit pattern is read back as the double.** -/
theorem hexText_reads (d : Double) : ofConstant? d.hexText = some d := by
  obtain ⟨digits, hlist, hlength, hhex, hvalue⟩ := d.hexText_parts
  rw [ofConstant?, hlist]
  show (if _ ∧ _ then _ else _) = _
  rw [if_pos ⟨hlength, List.all_eq_true.2 hhex⟩, hvalue, UInt64.ofNat_toNat]

/-! ### Constants -/

/-- Every constant is read back as the double it was written for. -/
theorem ofConstant?_constantText (d : Double) : ofConstant? d.constantText = some d := by
  rw [constantText]
  cases h : d.scientific? with
  | some text => exact scientific?_reads h
  | none => exact d.hexText_reads

theorem constantText_injective : constantText.Injective := by
  intro d v h
  have hread := d.ofConstant?_constantText
  rw [h, ofConstant?_constantText] at hread
  exact (Option.some.inj hread).symm

/-! ### Characters -/

/-- The characters that constants are written with. -/
def isNumberChar (c : Char) : Bool := c.isAlphanum || ['.', '+', '-'].contains c

theorem isNumberChar_of_isDigit {c : Char} (h : c.isDigit = true) : isNumberChar c = true := by
  simp [isNumberChar, Char.isAlphanum, h]

theorem exponent_chars {x : List Char} {b : Int} (h : Exponent x b) :
    ∀ c ∈ x, c.isDigit = true ∨ c ∈ ['e', 'E', '+', '-'] := by
  cases h with
  | absent => simp
  | plain hx hds =>
    refine List.forall_mem_cons.2 ⟨?_, fun c hc => .inl (hds.2 c hc)⟩
    rcases hx with rfl | rfl <;> decide
  | plus hx hds =>
    refine List.forall_mem_cons.2 ⟨?_, List.forall_mem_cons.2 ⟨by decide, fun c hc => .inl (hds.2 c hc)⟩⟩
    rcases hx with rfl | rfl <;> decide
  | minus hx hds =>
    refine List.forall_mem_cons.2 ⟨?_, List.forall_mem_cons.2 ⟨by decide, fun c hc => .inl (hds.2 c hc)⟩⟩
    rcases hx with rfl | rfl <;> decide

theorem isNumberChar_of_exponent {x : List Char} {b : Int} (h : Exponent x b) :
    ∀ c ∈ x, isNumberChar c = true := by
  intro c hc
  rcases exponent_chars h c hc with hdigit | hmem
  · exact isNumberChar_of_isDigit hdigit
  · have hall : ∀ c ∈ ['e', 'E', '+', '-'], isNumberChar c = true := by simp [isNumberChar]
    exact hall c hmem

theorem isNumberChar_of_isHexDigit {c : Char} (h : isHexDigit c = true) : isNumberChar c = true := by
  have halpha : 'a' ≤ c.toLower ∧ c.toLower ≤ 'f' → c.isAlpha = true := by
    intro hletter
    rw [Char.isAlpha, Bool.or_eq_true]
    unfold Char.toLower at hletter
    split at hletter
    · next hupper => exact .inl (by simpa [Char.isUpper] using hupper)
    · have hle : c ≤ 'z' := hletter.2.trans (by decide)
      refine .inr ?_
      rw [Char.isLower, Bool.and_eq_true, decide_eq_true_iff, decide_eq_true_iff]
      exact ⟨hletter.1, hle⟩
  rw [isHexDigit, Bool.or_eq_true, Bool.and_eq_true, decide_eq_true_iff, decide_eq_true_iff] at h
  rcases h with hdigit | hletter
  · exact isNumberChar_of_isDigit hdigit
  · simp [isNumberChar, Char.isAlphanum, halpha hletter]

/-- A constant has a point in it or the mark of a bit pattern, so it is not written like an integer. -/
theorem constantText_chars (d : Double) :
    (∀ c ∈ d.constantText.toList, isNumberChar c = true) ∧
      ('.' ∈ d.constantText.toList ∨ 'x' ∈ d.constantText.toList) := by
  rw [constantText]
  cases h : d.scientific? with
  | some text =>
    obtain ⟨c, fs, k, hc, hf, rfl, -⟩ := scientific?_parts h
    have hsign : ∀ f ∈ d.sign.toList, isNumberChar f = true := by
      rw [sign]
      split
      · simp [isNumberChar]
      · simp
    have hlist : (d.sign ++ String.ofList
        ([c] ++ '.' :: (fs ++ 'e' :: (signedExponent k.repr.toList).toList))).toList =
        d.sign.toList ++ ([c] ++ '.' :: (fs ++ 'e' :: (signedExponent k.repr.toList).toList)) := by
      simp
    rw [Option.getD_some, hlist]
    refine ⟨fun f hmem => ?_, .inl (by simp)⟩
    simp only [List.mem_append, List.mem_cons (b := '.')] at hmem
    rcases hmem with hmem | hmem | rfl | hmem | hmem
    · exact hsign f hmem
    · exact isNumberChar_of_isDigit (hc.2 f hmem)
    · decide
    · exact isNumberChar_of_isDigit (hf.2 f hmem)
    · exact isNumberChar_of_exponent (exponent_signedExponent k) f hmem
  | none =>
    obtain ⟨digits, hlist, -, hhex, -⟩ := d.hexText_parts
    rw [Option.getD_none, hlist]
    refine ⟨?_, .inr (by simp)⟩
    refine List.forall_mem_cons.2 ⟨by decide, List.forall_mem_cons.2 ⟨by decide, fun f hmem => ?_⟩⟩
    exact isNumberChar_of_isHexDigit (hhex f hmem)

/-- **Constants survive being written.**  Every double, and each of its bits, is read back from its constant:
zeros with their sign, infinities, the smallest magnitudes and every double that is not a number.  So no two
doubles have the same constant. -/
theorem constantText_reads :
    (∀ d : Double, ofConstant? d.constantText = some d) ∧ constantText.Injective :=
  ⟨ofConstant?_constantText, constantText_injective⟩

end Double

end ScalarLang
