import Mathlib
import ScalarLang.Double.Nearest

/-!
# Rounding to the nearest double

A decimal number is read as the double that is nearest to it, and halfway between two of them as the one
whose significand is even.  Infinity is taken for the power of two that would come next.  The exponent is
chosen so that the number has fifty-three significand bits.  Doubles of that exponent and larger ones are
then multiples of one step, to which a quotient is rounded, and all others lie below them and below the
number.

* `roundDiv_spec` — a quotient is rounded by half at most, and by half only to an even number.
* `Double.binaryExponent_spec` — the exponent at which a quotient has fifty-three significand bits.
* `Double.magnitude`, `Double.toRat` — the number that a pattern stands for.
* `Double.Prefers` — one pattern is nearer to a number than another, or as near and even.
* `Double.nearestBits_prefers`, `Double.nearestDecimalBits_prefers` — the pattern that is found.
* `Double.Nearest`, `Double.ofDecimal_nearest` — no double is nearer to a decimal number than the one that
  it is read as.
-/

namespace ScalarLang

/-! ### Rounding a quotient -/

/-- A quotient is rounded by half at most, and by half only to an even number. -/
theorem roundDiv_spec (n : Nat) {d : Nat} (hd : 0 < d) :
    |(n : ℚ) / d - roundDiv n d| ≤ 1 / 2 ∧
      (|(n : ℚ) / d - roundDiv n d| = 1 / 2 → roundDiv n d % 2 = 0) := by
  have hd' : (0 : ℚ) < d := by exact_mod_cast hd
  have hsplit : (n : ℚ) / d = (n / d : Nat) + ((n % d : Nat) : ℚ) / d := by
    rw [eq_comm, ← mul_div_cancel_right₀ ((n / d : Nat) : ℚ) hd'.ne', ← add_div]
    congr 1
    exact_mod_cast Nat.div_add_mod' n d
  have hpos : (0 : ℚ) ≤ ((n % d : Nat) : ℚ) / d := by positivity
  have hlt : ((n % d : Nat) : ℚ) / d < 1 := by
    rw [div_lt_one hd']
    exact_mod_cast Nat.mod_lt n hd
  rw [hsplit, roundDiv]
  split
  · next h =>
    have hless : ((n % d : Nat) : ℚ) / d < 1 / 2 := by
      rw [div_lt_iff₀ hd']
      have : (2 : ℚ) * (n % d : Nat) < d := by exact_mod_cast h
      linarith
    rw [add_sub_cancel_left, abs_of_nonneg hpos]
    exact ⟨hless.le, fun heq => absurd heq hless.ne⟩
  · split
    · next h =>
      have hmore : 1 / 2 < ((n % d : Nat) : ℚ) / d := by
        rw [lt_div_iff₀ hd']
        have : (d : ℚ) < 2 * (n % d : Nat) := by exact_mod_cast h
        linarith
      rw [Nat.cast_add, Nat.cast_one, add_sub_add_left_eq_sub, abs_of_neg (by linarith)]
      exact ⟨by linarith, fun heq => by linarith⟩
    · next hle hge =>
      have hhalf : ((n % d : Nat) : ℚ) / d = 1 / 2 := by
        rw [div_eq_iff hd'.ne']
        have : (2 : ℚ) * (n % d : Nat) = d := by exact_mod_cast (by omega : 2 * (n % d) = d)
        linarith
      rw [hhalf]
      split
      · next heven =>
        rw [add_sub_cancel_left]
        exact ⟨by norm_num, fun _ => heven⟩
      · next hodd =>
        rw [Nat.cast_add, Nat.cast_one, add_sub_add_left_eq_sub]
        exact ⟨by norm_num, fun _ => by omega⟩

/-- Of whole numbers, one that is off by half at most is nearest, and another that is as near is off by
half. -/
theorem nearest_of_half {y : ℚ} {s : Nat} (h : |y - s| ≤ 1 / 2) (t : Nat) :
    |y - s| ≤ |y - t| ∧ (t ≠ s → |y - t| = |y - s| → |y - s| = 1 / 2) := by
  by_cases hts : t = s
  · rw [hts]
    exact ⟨le_refl _, fun hne => absurd rfl hne⟩
  · have hone : (1 : ℚ) ≤ |(t : ℚ) - s| := by
      have hne : (t : ℤ) - s ≠ 0 := by omega
      exact_mod_cast Int.one_le_abs hne
    have htriangle : |(t : ℚ) - s| ≤ |y - s| + |y - t| := by
      rw [← abs_neg (y - t), neg_sub, add_comm]
      exact abs_sub_le (t : ℚ) y s
    exact ⟨by linarith, fun _ heq => by linarith⟩

theorem unscale_spec {base den : Nat} (num : Nat) (hbase : 0 < base) (hden : 0 < den) (e : Int) :
    0 < (unscale base num den e).2 ∧
      ((unscale base num den e).1 : ℚ) / (unscale base num den e).2 = num / den / (base : ℚ) ^ e := by
  unfold unscale
  split
  · next he =>
    obtain ⟨k, rfl⟩ := Int.eq_ofNat_of_zero_le he
    refine ⟨Nat.mul_pos hden (Nat.pow_pos hbase), ?_⟩
    show (num : ℚ) / ((den * base ^ k : Nat) : ℚ) = _
    rw [zpow_natCast, div_div]
    push_cast
    rfl
  · next he =>
    obtain ⟨k, hk⟩ := Int.eq_ofNat_of_zero_le (Int.le_of_lt (Int.neg_pos_of_neg (Int.not_le.1 he)))
    refine ⟨hden, ?_⟩
    rw [hk, show e = -(k : Int) by omega, zpow_neg, zpow_natCast, div_inv_eq_mul, div_mul_eq_mul_div]
    show ((num * base ^ k : Nat) : ℚ) / _ = _
    push_cast
    rfl

namespace Double

theorem cast_exponentWeight : (exponentWeight : ℚ) = 2 ^ 52 := by norm_num [exponentWeight]

/-- A quotient lies between the powers of two that the leading bits of both numbers give. -/
theorem quotient_bounds {num den : Nat} (hnum : num ≠ 0) (hden : 0 < den) :
    (2 : ℚ) ^ ((num.log2 : ℤ) - den.log2 - 1) < num / den ∧
      (num : ℚ) / den < 2 ^ ((num.log2 : ℤ) - den.log2 + 1) := by
  have hden' : (0 : ℚ) < den := by exact_mod_cast hden
  have hnumLow : (2 : ℚ) ^ num.log2 ≤ num := by exact_mod_cast Nat.log2_self_le hnum
  have hnumHigh : (num : ℚ) < 2 ^ (num.log2 + 1) := by exact_mod_cast Nat.lt_log2_self
  have hdenLow : (2 : ℚ) ^ den.log2 ≤ den := by exact_mod_cast Nat.log2_self_le (Nat.ne_of_gt hden)
  have hdenHigh : (den : ℚ) < 2 ^ (den.log2 + 1) := by exact_mod_cast Nat.lt_log2_self
  -- multiplied by the power above or below the denominator, each bound is one of the numerator
  have hproduct (e : ℤ) (a b : Nat) (he : e + b = a) : (2 : ℚ) ^ e * 2 ^ b = 2 ^ a := by
    rw [← zpow_natCast, ← zpow_natCast, ← zpow_add₀ two_ne_zero, he]
  constructor
  · rw [lt_div_iff₀ hden']
    calc (2 : ℚ) ^ ((num.log2 : ℤ) - den.log2 - 1) * den
        < 2 ^ ((num.log2 : ℤ) - den.log2 - 1) * 2 ^ (den.log2 + 1) := by gcongr
      _ = 2 ^ num.log2 := hproduct _ _ _ (by push_cast; omega)
      _ ≤ num := hnumLow
  · rw [div_lt_iff₀ hden']
    calc (num : ℚ) < 2 ^ (num.log2 + 1) := hnumHigh
      _ = 2 ^ ((num.log2 : ℤ) - den.log2 + 1) * 2 ^ den.log2 :=
        (hproduct _ _ _ (by push_cast; omega)).symm
      _ ≤ 2 ^ ((num.log2 : ℤ) - den.log2 + 1) * den := by gcongr

/-- Has the quotient less than fifty-three significand bits at an exponent? -/
theorem unscale_lt_iff (num : Nat) {den : Nat} (hden : 0 < den) (e : Int) :
    (unscale 2 num den e).1 < exponentWeight * (unscale 2 num den e).2 ↔
      (num : ℚ) / den < 2 ^ 52 * 2 ^ e := by
  obtain ⟨hpos, hquotient⟩ := unscale_spec num (by decide : 0 < 2) hden e
  have hpos' : (0 : ℚ) < (unscale 2 num den e).2 := by exact_mod_cast hpos
  have hstep : (0 : ℚ) < 2 ^ e := by positivity
  rw [Nat.cast_ofNat] at hquotient
  rw [← div_lt_iff₀ hstep, ← hquotient, div_lt_iff₀ hpos', ← cast_exponentWeight]
  exact_mod_cast Iff.rfl

/-- The exponent at which a quotient has fifty-three significand bits, or fewer if it is the least there
is. -/
theorem binaryExponent_spec {num den : Nat} (hnum : num ≠ 0) (hden : 0 < den) :
    -1074 ≤ binaryExponent num den ∧
      (num : ℚ) / den < 2 ^ 53 * 2 ^ binaryExponent num den ∧
      (binaryExponent num den = -1074 ∨ 2 ^ 52 * 2 ^ binaryExponent num den ≤ (num : ℚ) / den) := by
  let guess : Int := (num.log2 : Int) - den.log2 - 52
  let chosen : Int :=
    if (unscale 2 num den guess).1 < exponentWeight * (unscale 2 num den guess).2 then guess - 1
    else guess
  have hstep (n : Nat) : (2 : ℚ) ^ n * 2 ^ (guess - 1) = 2 ^ ((n : ℤ) + guess - 1) := by
    rw [← zpow_natCast, ← zpow_add₀ two_ne_zero, add_sub_assoc]
  have hguess : (2 : ℚ) ^ guess = 2 * 2 ^ (guess - 1) := by
    rw [← zpow_one_add₀ two_ne_zero, add_sub_cancel]
  -- the bits of both numbers leave two exponents, between which the comparison decides
  obtain ⟨hlow, hhigh⟩ := quotient_bounds hnum hden
  rw [show (num.log2 : ℤ) - den.log2 - 1 = (52 : Nat) + guess - 1 by simp only [guess]; omega,
    ← hstep] at hlow
  rw [show (num.log2 : ℤ) - den.log2 + 1 = (54 : Nat) + guess - 1 by simp only [guess]; omega,
    ← hstep] at hhigh
  have hchosen : (2 : ℚ) ^ 52 * 2 ^ chosen ≤ num / den ∧ (num : ℚ) / den < 2 ^ 53 * 2 ^ chosen := by
    by_cases h : (unscale 2 num den guess).1 < exponentWeight * (unscale 2 num den guess).2
    · have hless := (unscale_lt_iff num hden guess).1 h
      simp only [chosen, if_pos h]
      rw [hguess] at hless
      exact ⟨hlow.le, by linarith⟩
    · have hmore := not_lt.1 fun hless => h ((unscale_lt_iff num hden guess).2 hless)
      simp only [chosen, if_neg h]
      refine ⟨hmore, ?_⟩
      rw [hguess]
      linarith
  have hmax : binaryExponent num den = max chosen (-1074) := rfl
  rw [hmax]
  refine ⟨Int.le_max_right .., ?_, ?_⟩
  · refine lt_of_lt_of_le hchosen.2 ?_
    gcongr
    · norm_num
    · exact Int.le_max_left ..
  · rcases Int.le_total chosen (-1074) with hle | hle
    · exact .inl (max_eq_right hle)
    · rw [max_eq_left hle]
      exact .inr hchosen.1

/-! ### The numbers that patterns stand for -/

/-- The number that a magnitude pattern stands for.  A pattern is a number of steps, which double in size
where the exponent bits change, but not where they stop being zero. -/
def magnitude (bits : Nat) : ℚ :=
  (bits - (bits / exponentWeight - 1) * exponentWeight : Nat) *
    2 ^ (((bits / exponentWeight - 1 : Nat) : ℤ) - 1074)

/-- A significand that is rounded up to the next power of two carries into the exponent bits. -/
theorem magnitude_add {s k : Nat} (hs : s ≤ 2 * exponentWeight) (hk : k = 0 ∨ exponentWeight ≤ s) :
    magnitude (s + k * exponentWeight) = s * 2 ^ ((k : ℤ) - 1074) := by
  have hpos : 0 < exponentWeight := by decide
  rw [magnitude, Nat.add_mul_div_right _ _ hpos]
  by_cases hlt : s < exponentWeight
  · obtain rfl : k = 0 := by omega
    rw [Nat.div_eq_of_lt hlt]
    simp
  · by_cases hlt' : s < 2 * exponentWeight
    · rw [Nat.div_eq_of_lt_le (by omega : 1 * exponentWeight ≤ s) (by omega),
        show 1 + k - 1 = k by omega, Nat.add_sub_cancel]
    · obtain rfl : s = 2 * exponentWeight := by omega
      have hrest : 2 * exponentWeight + k * exponentWeight - (k + 1) * exponentWeight = exponentWeight := by
        have hsucc := Nat.add_one_mul k exponentWeight
        omega
      rw [Nat.mul_div_cancel _ hpos, show 2 + k - 1 = k + 1 by omega, hrest,
        show ((k + 1 : Nat) : ℤ) - 1074 = 1 + ((k : ℤ) - 1074) by push_cast; ring,
        zpow_one_add₀ two_ne_zero]
      push_cast
      ring

theorem exists_split (bits : Nat) : ∃ s k, bits = s + k * exponentWeight ∧ s < 2 * exponentWeight ∧
    (k = 0 ∨ exponentWeight ≤ s) := by
  refine ⟨bits - (bits / exponentWeight - 1) * exponentWeight, bits / exponentWeight - 1, ?_, ?_, ?_⟩ <;>
  · unfold exponentWeight
    omega

theorem magnitude_strictMono : StrictMono magnitude := by
  refine strictMono_nat_of_lt_succ fun bits => ?_
  obtain ⟨s, k, rfl, hs, hk⟩ := exists_split bits
  rw [Nat.add_right_comm, magnitude_add hs.le hk, magnitude_add hs (hk.imp_right Nat.le_succ_of_le)]
  have htwo : (0 : ℚ) < 2 ^ ((k : ℤ) - 1074) := by positivity
  push_cast
  linarith

theorem magnitude_zero : magnitude 0 = 0 := by simp [magnitude]

theorem magnitude_one : magnitude 1 = 2 ^ (-1074 : ℤ) := by
  simpa using magnitude_add (s := 1) (k := 0) (by decide) (.inl rfl)

theorem magnitude_infinityBits : magnitude infinityBits = 2 ^ 1024 := by
  have h := magnitude_add (s := exponentWeight) (k := 2046) (by decide) (.inr (Nat.le_refl _))
  rw [show exponentWeight + 2046 * exponentWeight = infinityBits by decide] at h
  rw [h, cast_exponentWeight,
    show ((2046 : Nat) : ℤ) - 1074 = (972 : Nat) by norm_num, zpow_natCast, ← pow_add]

theorem magnitude_nonneg (bits : Nat) : 0 ≤ magnitude bits := by
  rw [← magnitude_zero]
  exact magnitude_strictMono.monotone (Nat.zero_le bits)

/-! ### The nearest pattern -/

/-- The pattern `bits` is nearer to `x` than another, or as near and even. -/
def Prefers (x : ℚ) (bits other : Nat) : Prop :=
  |x - magnitude bits| ≤ |x - magnitude other| ∧
    (other ≠ bits → |x - magnitude other| = |x - magnitude bits| → bits % 2 = 0)

theorem prefers_zero {x : ℚ} (hx : 0 ≤ x) (hsmall : 2 * x ≤ magnitude 1) (other : Nat) :
    Prefers x 0 other := by
  refine ⟨?_, fun _ _ => rfl⟩
  rw [magnitude_zero, sub_zero, abs_of_nonneg hx]
  rcases Nat.eq_zero_or_pos other with rfl | hpos
  · rw [magnitude_zero, sub_zero, abs_of_nonneg hx]
  · have hle : magnitude 1 ≤ magnitude other := magnitude_strictMono.monotone hpos
    rw [abs_sub_comm]
    exact le_trans (by linarith) (le_abs_self _)

theorem prefers_zero_zero (other : Nat) : Prefers 0 0 other := by
  refine prefers_zero (le_refl 0) ?_ other
  rw [mul_zero]
  exact magnitude_nonneg 1

theorem prefers_infinity {x : ℚ} (hx : magnitude infinityBits < x) {other : Nat}
    (hother : other ≤ infinityBits) : Prefers x infinityBits other := by
  refine ⟨?_, fun _ _ => rfl⟩
  have hle : magnitude other ≤ magnitude infinityBits := magnitude_strictMono.monotone hother
  rw [abs_of_nonneg (by linarith), abs_of_nonneg (by linarith)]
  linarith

section Rounded

variable {x : ℚ} {s k : Nat}

/-- A number `s` of steps `2 ^ (k - 1074)`, to which `x` has been rounded, and which has the bits of a
significand. -/
structure Rounded (x : ℚ) (s k : Nat) : Prop where
  half : |x / 2 ^ ((k : ℤ) - 1074) - s| ≤ 1 / 2
  even : |x / 2 ^ ((k : ℤ) - 1074) - s| = 1 / 2 → s % 2 = 0
  lt : x < 2 ^ 53 * 2 ^ ((k : ℤ) - 1074)
  least : k = 0 ∨ 2 ^ 52 * 2 ^ ((k : ℤ) - 1074) ≤ x

theorem Rounded.magnitude_eq (h : Rounded x s k) :
    magnitude (s + k * exponentWeight) = s * 2 ^ ((k : ℤ) - 1074) := by
  have hstep : (0 : ℚ) < 2 ^ ((k : ℤ) - 1074) := by positivity
  obtain ⟨hlow, hhigh⟩ := abs_le.1 h.half
  refine magnitude_add ?_ (h.least.imp_right fun hle => ?_)
  · have hlt : x / 2 ^ ((k : ℤ) - 1074) < 2 ^ 53 := (div_lt_iff₀ hstep).2 h.lt
    have hs : (s : ℚ) < 2 * exponentWeight + 1 := by
      rw [cast_exponentWeight]
      linarith
    exact Nat.le_of_lt_succ (by exact_mod_cast hs)
  · have hge : 2 ^ 52 ≤ x / 2 ^ ((k : ℤ) - 1074) := (le_div_iff₀ hstep).2 hle
    have hs : (exponentWeight : ℚ) < s + 1 := by
      rw [cast_exponentWeight]
      linarith
    exact Nat.le_of_lt_succ (by exact_mod_cast hs)

/-- Patterns of smaller exponents lie below the powers of two of larger ones; all others are multiples of
the step. -/
theorem magnitude_lt_or_eq (k other : Nat) :
    (0 < k ∧ magnitude other < 2 ^ 52 * 2 ^ ((k : ℤ) - 1074)) ∨
      ∃ t : Nat, magnitude other = t * 2 ^ ((k : ℤ) - 1074) := by
  obtain ⟨t, i, rfl, ht, hi⟩ := exists_split other
  rw [magnitude_add ht.le hi]
  rcases Nat.lt_or_ge i k with hlt | hge
  · refine .inl ⟨Nat.zero_lt_of_lt hlt, ?_⟩
    have ht' : (t : ℚ) < 2 ^ 53 := by
      have hcast : (t : ℚ) < 2 * exponentWeight := by exact_mod_cast ht
      rw [cast_exponentWeight] at hcast
      linarith
    calc (t : ℚ) * 2 ^ ((i : ℤ) - 1074) < 2 ^ 53 * 2 ^ ((i : ℤ) - 1074) := by gcongr
      _ = 2 ^ 52 * 2 ^ (1 + ((i : ℤ) - 1074)) := by
        rw [zpow_one_add₀ two_ne_zero]
        ring
      _ ≤ 2 ^ 52 * 2 ^ ((k : ℤ) - 1074) := by
        gcongr
        · norm_num
        · omega
  · refine .inr ⟨t * 2 ^ (i - k), ?_⟩
    push_cast
    rw [mul_assoc, ← zpow_natCast, ← zpow_add₀ two_ne_zero]
    congr 2
    omega

/-- **A number of steps that has been rounded to is preferred to every pattern.** -/
theorem Rounded.prefers (h : Rounded x s k) (other : Nat) :
    Prefers x (s + k * exponentWeight) other := by
  have hstep : (0 : ℚ) < 2 ^ ((k : ℤ) - 1074) := by positivity
  -- distances between multiples of the step are measured in steps
  have hscale (t : Nat) : |x - t * 2 ^ ((k : ℤ) - 1074)| =
      |x / 2 ^ ((k : ℤ) - 1074) - t| * 2 ^ ((k : ℤ) - 1074) := by
    rw [← abs_of_pos hstep, ← abs_mul, abs_of_pos hstep, sub_mul, div_mul_cancel₀ _ hstep.ne']
  rw [Prefers, h.magnitude_eq, hscale s]
  rcases magnitude_lt_or_eq k other with ⟨hk, hlt⟩ | ⟨t, ht⟩
  · have hle : 2 ^ 52 * 2 ^ ((k : ℤ) - 1074) ≤ x := h.least.resolve_left (Nat.ne_of_gt hk)
    have hnear := mul_le_mul_of_nonneg_right (nearest_of_half h.half exponentWeight).1 hstep.le
    have hedge : |x - 2 ^ 52 * 2 ^ ((k : ℤ) - 1074)| = x - 2 ^ 52 * 2 ^ ((k : ℤ) - 1074) :=
      abs_of_nonneg (by linarith)
    have hfar : |x - magnitude other| = x - magnitude other := abs_of_nonneg (by linarith)
    rw [← hscale exponentWeight, cast_exponentWeight, hedge] at hnear
    rw [hfar]
    exact ⟨by linarith, fun _ heq => by linarith⟩
  · obtain ⟨hle, htie⟩ := nearest_of_half h.half t
    rw [ht, hscale t]
    refine ⟨mul_le_mul_of_nonneg_right hle hstep.le, fun hne heq => ?_⟩
    have hts : t ≠ s := by
      rintro rfl
      exact hne (magnitude_strictMono.injective (ht.trans h.magnitude_eq.symm))
    have heven := h.even (htie hts (mul_right_cancel₀ hstep.ne' heq))
    unfold exponentWeight
    omega

end Rounded

/-- **The pattern nearest to a quotient.** -/
theorem nearestBits_prefers (num : Nat) {den other : Nat} (hden : 0 < den)
    (hother : other ≤ infinityBits) : Prefers ((num : ℚ) / den) (nearestBits num den) other := by
  unfold nearestBits
  split
  · next hzero =>
    rw [hzero, Nat.cast_zero, zero_div]
    exact prefers_zero_zero other
  · next hnum =>
    obtain ⟨hle, hlt, hleast⟩ := binaryExponent_spec hnum hden
    obtain ⟨hpos, hquotient⟩ := unscale_spec num (by decide : 0 < 2) hden (binaryExponent num den)
    have hround := roundDiv_spec (unscale 2 num den (binaryExponent num den)).1 hpos
    rw [hquotient] at hround
    show Prefers _ (min (roundDiv (unscale 2 num den (binaryExponent num den)).1
      (unscale 2 num den (binaryExponent num den)).2 +
        (binaryExponent num den + 1074).toNat * exponentWeight) infinityBits) other
    generalize roundDiv (unscale 2 num den (binaryExponent num den)).1
      (unscale 2 num den (binaryExponent num den)).2 = s at hround ⊢
    obtain ⟨k, hk⟩ := Int.eq_ofNat_of_zero_le (by omega : 0 ≤ binaryExponent num den + 1074)
    have he : binaryExponent num den = (k : ℤ) - 1074 := by omega
    have hrounded : Rounded ((num : ℚ) / den) s k := by
      rw [he] at hround hlt hleast
      exact ⟨hround.1, hround.2, hlt, hleast.imp_left fun heq => by omega⟩
    rw [hk, Int.toNat_natCast]
    rcases Nat.lt_or_ge infinityBits (s + k * exponentWeight) with hlarge | hfinite
    · -- what is nearer to a larger pattern lies beyond infinity
      rw [Nat.min_eq_right hlarge.le]
      refine prefers_infinity ?_ hother
      have hmono := magnitude_strictMono hlarge
      have hnear := (hrounded.prefers infinityBits).1
      by_contra hge
      rw [not_lt] at hge
      rw [abs_of_nonpos (by linarith), abs_of_nonpos (by linarith)] at hnear
      linarith
    · rw [Nat.min_eq_left hfinite]
      exact hrounded.prefers other

/-! ### Decimal numbers -/

theorem lt_pow_length_repr (m : Nat) : m < 10 ^ m.repr.length := by
  rw [Nat.repr_eq_ofList_toDigits, String.length_ofList]
  exact (Nat.length_toDigits_le_iff (by decide) Nat.length_toDigits_pos).1 (Nat.le_refl _)

theorem pow_length_repr_le {m : Nat} (hm : m ≠ 0) : 10 ^ m.repr.length ≤ 10 * m := by
  rw [Nat.repr_eq_ofList_toDigits, String.length_ofList]
  by_contra hlt
  have hlength : 0 < (Nat.toDigits 10 m).length := Nat.length_toDigits_pos
  obtain ⟨k, hk⟩ := Nat.exists_eq_succ_of_ne_zero (Nat.ne_of_gt hlength)
  rw [hk, Nat.succ_eq_add_one, Nat.pow_succ] at hlt
  have hpow : m < 10 ^ k := by omega
  rcases Nat.eq_zero_or_pos k with rfl | hpos
  · omega
  · have hle := (Nat.length_toDigits_le_iff (by decide) hpos).2 hpow
    omega

/-- A number of more than 310 places in front of the point lies beyond infinity. -/
theorem magnitude_infinityBits_lt {m : Nat} {e : Int} (hm : m ≠ 0) (h : 310 < (m.repr.length : ℤ) + e) :
    magnitude infinityBits < m * 10 ^ e := by
  have hpow : (10 : ℚ) ^ m.repr.length ≤ 10 * m := by exact_mod_cast pow_length_repr_le hm
  have hplaces : (10 : ℚ) ^ 311 ≤ 10 * (m * 10 ^ e) := by
    calc (10 : ℚ) ^ 311 = 10 ^ ((311 : Nat) : ℤ) := (zpow_natCast _ _).symm
      _ ≤ 10 ^ ((m.repr.length : ℤ) + e) := zpow_le_zpow_right₀ (by norm_num) (by push_cast; omega)
      _ = 10 ^ m.repr.length * 10 ^ e := by rw [zpow_add₀ (by norm_num), zpow_natCast]
      _ ≤ 10 * m * 10 ^ e := by gcongr
      _ = 10 * (m * 10 ^ e) := mul_assoc ..
  have hpowers : (10 : ℚ) * 2 ^ 1024 < 10 ^ 311 := by
    exact_mod_cast (by decide +kernel : 10 * 2 ^ 1024 < 10 ^ 311)
  rw [magnitude_infinityBits]
  exact lt_of_mul_lt_mul_left (hpowers.trans_le hplaces) (by norm_num)

/-- A number that starts more than 324 places behind the point lies in the first half of the first step. -/
theorem two_mul_le_magnitude_one {m : Nat} {e : Int} (h : (m.repr.length : ℤ) + e < -324) :
    2 * ((m : ℚ) * 10 ^ e) ≤ magnitude 1 := by
  have hpow : (m : ℚ) ≤ 10 ^ m.repr.length := by exact_mod_cast (lt_pow_length_repr m).le
  have hplaces : (m : ℚ) * 10 ^ e ≤ (10 ^ 325)⁻¹ := by
    calc (m : ℚ) * 10 ^ e ≤ 10 ^ m.repr.length * 10 ^ e := by gcongr
      _ = 10 ^ ((m.repr.length : ℤ) + e) := by rw [zpow_add₀ (by norm_num), zpow_natCast]
      _ ≤ 10 ^ (-((325 : Nat) : ℤ)) := zpow_le_zpow_right₀ (by norm_num) (by push_cast; omega)
      _ = (10 ^ 325)⁻¹ := by rw [zpow_neg, zpow_natCast]
  have hpowers : (2 : ℚ) * (10 ^ 325)⁻¹ ≤ (2 ^ 1074)⁻¹ := by
    rw [← div_eq_mul_inv, div_le_iff₀ (by positivity), inv_mul_eq_div, le_div_iff₀ (by positivity)]
    exact_mod_cast (by decide +kernel : 2 * 2 ^ 1074 ≤ 10 ^ 325)
  rw [magnitude_one, show (-1074 : ℤ) = -((1074 : Nat) : ℤ) by norm_num, zpow_neg, zpow_natCast]
  exact (mul_le_mul_of_nonneg_left hplaces (by norm_num)).trans hpowers

/-- **The pattern nearest to a decimal number.** -/
theorem nearestDecimalBits_prefers (m : Nat) (e : Int) {other : Nat} (hother : other ≤ infinityBits) :
    Prefers ((m : ℚ) * 10 ^ e) (nearestDecimalBits m e) other := by
  unfold nearestDecimalBits
  simp only
  split
  · next hzero =>
    rw [hzero, Nat.cast_zero, zero_mul]
    exact prefers_zero_zero other
  · next hm =>
    split
    · next hlarge => exact prefers_infinity (magnitude_infinityBits_lt hm hlarge) hother
    · split
      · next hsmall => exact prefers_zero (by positivity) (two_mul_le_magnitude_one hsmall) other
      · obtain ⟨hpos, hquotient⟩ := unscale_spec m (by decide : 0 < 10) Nat.one_pos (-e)
        have heq : (m : ℚ) * 10 ^ e =
            ((unscale 10 m 1 (-e)).1 : ℚ) / (unscale 10 m 1 (-e)).2 := by
          rw [hquotient, zpow_neg, div_inv_eq_mul]
          simp
        rw [heq]
        exact nearestBits_prefers _ hpos hother

/-! ### Signed numbers -/

theorem bits_lt (d : Double) : d.bits.toNat < 2 * signWeight := d.bits.toNat_lt

theorem bits_withSign {negative : Bool} {m : Nat} (h : m < signWeight) :
    (withSign negative m).bits.toNat = if negative then m + signWeight else m := by
  rw [withSign, UInt64.toNat_ofNat']
  refine Nat.mod_eq_of_lt ?_
  unfold signWeight at *
  split <;> omega

theorem magnitudeBits_withSign {negative : Bool} {m : Nat} (h : m < signWeight) :
    (withSign negative m).magnitudeBits = m := by
  rw [magnitudeBits, bits_withSign h]
  unfold signWeight at *
  split <;> omega

/-- A double is its sign and its magnitude. -/
theorem withSign_magnitudeBits (d : Double) : withSign d.isNegative d.magnitudeBits = d := by
  have hlt := d.bits_lt
  have hmod : d.magnitudeBits < signWeight := Nat.mod_lt _ (by decide)
  have hbits : (withSign d.isNegative d.magnitudeBits).bits = d.bits := by
    refine UInt64.toNat_inj.1 ?_
    rw [bits_withSign hmod, isNegative, magnitudeBits]
    by_cases hneg : signWeight ≤ d.bits.toNat
    · rw [decide_eq_true hneg, if_pos rfl]
      unfold signWeight at *
      omega
    · rw [decide_eq_false hneg, if_neg (by decide)]
      exact Nat.mod_eq_of_lt (Nat.lt_of_not_le hneg)
  cases d
  exact congrArg mk hbits

theorem nearestBits_le (num den : Nat) : nearestBits num den ≤ infinityBits := by
  unfold nearestBits
  split
  · exact Nat.zero_le _
  · exact Nat.min_le_right _ _

theorem nearestDecimalBits_le (m : Nat) (e : Int) : nearestDecimalBits m e ≤ infinityBits := by
  unfold nearestDecimalBits
  simp only
  split
  · exact Nat.zero_le _
  · split
    · exact Nat.le_refl _
    · split
      · exact Nat.zero_le _
      · exact nearestBits_le _ _

theorem nearestDecimalBits_lt (m : Nat) (e : Int) : nearestDecimalBits m e < signWeight :=
  Nat.lt_of_le_of_lt (nearestDecimalBits_le m e) (by decide)

/-- The number that a double stands for.  Infinity is taken for the power of two that would come next. -/
def toRat (d : Double) : ℚ :=
  (if d.isNegative then -1 else 1) * (d.significand * 2 ^ d.exponent)

theorem magnitude_magnitudeBits (d : Double) :
    magnitude d.magnitudeBits = d.significand * 2 ^ d.exponent := by
  rw [magnitude, significand, exponent, fractionField, exponentField]
  by_cases hzero : d.magnitudeBits / exponentWeight = 0
  · rw [if_pos hzero, if_pos hzero, hzero, Nat.mod_eq_of_lt ((Nat.div_eq_zero_iff_lt (by decide)).1 hzero)]
    simp
  · rw [if_neg hzero, if_neg hzero]
    congr 2
    · unfold exponentWeight at *
      omega
    · generalize d.magnitudeBits / exponentWeight = field at hzero ⊢
      omega

theorem isNaN_eq_false_iff {d : Double} : d.isNaN = false ↔ d.magnitudeBits ≤ infinityBits := by
  rw [isNaN, decide_eq_false_iff_not, Nat.not_lt]

theorem significand_mod_two (d : Double) : d.significand % 2 = d.magnitudeBits % 2 := by
  rw [significand, exponentField, fractionField]
  unfold exponentWeight
  split <;> omega

theorem isNegative_withSign {negative : Bool} {m : Nat} (h : m < signWeight) :
    (withSign negative m).isNegative = negative := by
  rw [isNegative, bits_withSign h]
  cases negative with
  | true => simp
  | false => simpa using h

/-- No double is nearer to `x` than `d`, and if another is as near then the significand of `d` is even. -/
structure Nearest (x : ℚ) (d : Double) : Prop where
  isNaN : d.isNaN = false
  le : ∀ other : Double, other.isNaN = false → |x - d.toRat| ≤ |x - other.toRat|
  even : ∀ other : Double, other.isNaN = false → other.toRat ≠ d.toRat →
    |x - other.toRat| = |x - d.toRat| → d.significand % 2 = 0

/-- The distance of a double from a number of a given sign. -/
theorem abs_sub_toRat {x : ℚ} (hx : 0 ≤ x) (negative : Bool) (d : Double) :
    |(if negative then -1 else 1) * x - d.toRat| =
      if d.isNegative = negative then |x - magnitude d.magnitudeBits|
      else x + magnitude d.magnitudeBits := by
  have hsum : 0 ≤ x + magnitude d.magnitudeBits := add_nonneg hx (magnitude_nonneg _)
  rw [toRat, ← magnitude_magnitudeBits]
  cases negative <;> cases d.isNegative
  · simp
  · simpa using abs_of_nonneg hsum
  · rw [← abs_neg]
    simpa [add_comm] using abs_of_nonneg hsum
  · rw [← abs_neg]
    simp [add_comm, sub_eq_add_neg]

/-- **A decimal number is read as the double of its sign that is nearest to it.** -/
theorem ofDecimal_nearest (negative : Bool) (m : Nat) (e : Int) :
    (ofDecimal negative m e).isNegative = negative ∧
      Nearest ((if negative then -1 else 1) * (m * 10 ^ e)) (ofDecimal negative m e) := by
  have hx : (0 : ℚ) ≤ m * 10 ^ e := by positivity
  have hlt := nearestDecimalBits_lt m e
  have hsign : (ofDecimal negative m e).isNegative = negative := isNegative_withSign hlt
  have hbits : (ofDecimal negative m e).magnitudeBits = nearestDecimalBits m e :=
    magnitudeBits_withSign hlt
  have hself := abs_sub_toRat hx negative (ofDecimal negative m e)
  rw [if_pos hsign, hbits] at hself
  -- doubles of the other sign are no nearer than zero
  obtain ⟨hzero, hzeroEven⟩ := nearestDecimalBits_prefers m e (Nat.zero_le infinityBits)
  rw [magnitude_zero, sub_zero, abs_of_nonneg hx] at hzero hzeroEven
  refine ⟨hsign, ?_, fun other hother => ?_, fun other hother hne heq => ?_⟩
  · rw [isNaN_eq_false_iff, hbits]
    exact nearestDecimalBits_le m e
  · rw [hself, abs_sub_toRat hx]
    split
    · exact (nearestDecimalBits_prefers m e (isNaN_eq_false_iff.1 hother)).1
    · have hnonneg := magnitude_nonneg other.magnitudeBits
      linarith
  · rw [significand_mod_two, hbits]
    rw [hself, abs_sub_toRat hx] at heq
    split at heq
    · next hother' =>
      refine (nearestDecimalBits_prefers m e (isNaN_eq_false_iff.1 hother)).2 (fun hsame => hne ?_) heq
      rw [← withSign_magnitudeBits other, hother', hsame]
      rfl
    · have hnonneg := magnitude_nonneg other.magnitudeBits
      by_cases hbitsZero : nearestDecimalBits m e = 0
      · rw [hbitsZero]
      · exact hzeroEven (Ne.symm hbitsZero) (by linarith)

end Double

end ScalarLang
