/-
# Nearest numbers

Distances are taken among the rationals.  `roundDiv` rounds a quotient to a
whole number that no other is nearer to (`abs_roundDiv_sub_le`), and an even one
if two are as near.  `nearestCode` does so in units of the last place of the
binade that the fraction lies in:

    magnitudes of that binade and those above    whole numbers of units
    magnitudes below                             no nearer than its beginning

So no magnitude of the format is nearer to the fraction than the one that
`nearestCode` finds (`abs_magnitude_nearestCode_sub_le`).
-/
import Mathlib.Algebra.Order.Field.Rat
import Mathlib.Tactic.FieldSimp
import Mathlib.Tactic.Linarith
import Mathlib.Tactic.Positivity
import Mathlib.Tactic.Ring
import XmlRpc.Proofs.Binary.Exact

namespace XmlRpc

namespace Binary

variable {f : Format} {num den : Nat}

/-! ## Rounded quotients -/

theorem cast_div_eq (hden : 0 < den) :
    (num : ℚ) / den = (num / den : Nat) + (num % den : Nat) / den := by
  have hne : (den : ℚ) ≠ 0 := Nat.cast_ne_zero.mpr (Nat.ne_of_gt hden)
  have hdiv : ((den * (num / den) + num % den : Nat) : ℚ) = num :=
    congrArg Nat.cast (Nat.div_add_mod num den)
  rw [Nat.cast_add, Nat.cast_mul] at hdiv
  field_simp
  linarith

/-- A quotient is rounded down where less than half is left, or half behind an
even number, and up otherwise. -/
theorem roundDiv_cases (num den : Nat) :
    (roundDiv num den = num / den ∧
      (2 * (num % den) < den ∨ 2 * (num % den) = den ∧ num / den % 2 = 0)) ∨
    (roundDiv num den = num / den + 1 ∧
      (den < 2 * (num % den) ∨ 2 * (num % den) = den ∧ num / den % 2 = 1)) := by
  rw [roundDiv]
  by_cases h : 2 * (num % den) > den ∨ 2 * (num % den) = den ∧ num / den % 2 = 1
  · exact .inr ⟨if_pos (by simpa using h), h⟩
  · refine .inl ⟨if_neg (by simpa using h), ?_⟩
    have hparity := Nat.mod_two_eq_zero_or_one (num / den)
    omega

theorem roundDiv_le {m : Nat} (h : num < den * m) : roundDiv num den ≤ m := by
  have hlt : num / den < m := Nat.div_lt_of_lt_mul h
  rcases roundDiv_cases num den with ⟨hr, -⟩ | ⟨hr, -⟩ <;> omega

theorem le_roundDiv {m : Nat} (hden : 0 < den) (h : den * m ≤ num) : m ≤ roundDiv num den := by
  have hle : m ≤ num / den := (Nat.le_div_iff_mul_le hden).mpr (Nat.mul_comm m den ▸ h)
  rcases roundDiv_cases num den with ⟨hr, -⟩ | ⟨hr, -⟩ <;> omega

/-- Rounding misses by half at most, and by half only at an even number. -/
theorem roundDiv_miss (num : Nat) (hden : 0 < den) :
    |(roundDiv num den : ℚ) - num / den| ≤ 1 / 2 ∧
      (|(roundDiv num den : ℚ) - num / den| = 1 / 2 → roundDiv num den % 2 = 0) := by
  have hpos : (0 : ℚ) < den := Nat.cast_pos.mpr hden
  have htwice : 2 * ((num % den : Nat) / den : ℚ) = (2 * (num % den) : Nat) / den := by
    rw [Nat.cast_mul, Nat.cast_ofNat, mul_div_assoc]
  have hnonneg : (0 : ℚ) ≤ (num % den : Nat) / den := div_nonneg (Nat.cast_nonneg _) hpos.le
  have hlt : ((num % den : Nat) / den : ℚ) < 1 :=
    (div_lt_one hpos).mpr (Nat.cast_lt.mpr (Nat.mod_lt num hden))
  rw [cast_div_eq hden]
  rcases roundDiv_cases num den with ⟨hr, h⟩ | ⟨hr, h⟩
  · have hmiss : |((num / den : Nat) : ℚ) - ((num / den : Nat) + (num % den : Nat) / den)|
        = (num % den : Nat) / den := by
      rw [sub_add_cancel_left, abs_neg, abs_of_nonneg hnonneg]
    rw [hr, hmiss]
    rcases h with h | ⟨h, heven⟩
    · have hhalf : 2 * ((num % den : Nat) / den : ℚ) < 1 := by
        rw [htwice]
        exact (div_lt_one hpos).mpr (Nat.cast_lt.mpr h)
      exact ⟨by linarith, fun heq => by linarith⟩
    · have hhalf : 2 * ((num % den : Nat) / den : ℚ) = 1 := by
        rw [htwice, h, div_self hpos.ne']
      exact ⟨by linarith, fun _ => heven⟩
  · have hmiss : |((num / den + 1 : Nat) : ℚ) - ((num / den : Nat) + (num % den : Nat) / den)|
        = 1 - (num % den : Nat) / den := by
      rw [Nat.cast_add, Nat.cast_one, add_sub_add_left_eq_sub, abs_of_pos (sub_pos.mpr hlt)]
    rw [hr, hmiss]
    rcases h with h | ⟨h, hodd⟩
    · have hhalf : 1 < 2 * ((num % den : Nat) / den : ℚ) := by
        rw [htwice]
        exact (one_lt_div hpos).mpr (Nat.cast_lt.mpr h)
      exact ⟨by linarith, fun heq => by linarith⟩
    · have hhalf : 2 * ((num % den : Nat) / den : ℚ) = 1 := by
        rw [htwice, h, div_self hpos.ne']
      exact ⟨by linarith, fun _ => by omega⟩

theorem eq_of_abs_sub_lt_one {m n : Nat} (h : |(m : ℚ) - n| < 1) : m = n := by
  have hint : |(m : ℤ) - n| < 1 := by exact_mod_cast h
  exact_mod_cast sub_eq_zero.mp (Int.abs_lt_one_iff.mp hint)

/-- No whole number is nearer to a quotient than the rounded one. -/
theorem abs_roundDiv_sub_le (hden : 0 < den) (m : Nat) :
    |(roundDiv num den : ℚ) - num / den| ≤ |(m : ℚ) - num / den| := by
  have hhalf := (roundDiv_miss num hden).1
  by_contra hlt
  have hlt := not_le.mp hlt
  have hsub := abs_sub_le (m : ℚ) (num / den) (roundDiv num den)
  rw [abs_sub_comm (num / den : ℚ)] at hsub
  have hm : m = roundDiv num den := eq_of_abs_sub_lt_one (by linarith)
  rw [hm] at hlt
  exact lt_irrefl _ hlt

/-- What another quotient is rounded to is what this one is, if this one lies as
near to it. -/
theorem roundDiv_eq_of_abs_sub_le {num' den' : Nat} (hden : 0 < den) (hden' : 0 < den')
    (h : |(roundDiv num' den' : ℚ) - num / den| ≤ |(roundDiv num' den' : ℚ) - num' / den'|) :
    roundDiv num den = roundDiv num' den' := by
  obtain ⟨hhalf, heven⟩ := roundDiv_miss num hden
  obtain ⟨hhalf', heven'⟩ := roundDiv_miss num' hden'
  have hsub := abs_sub_le (roundDiv num den : ℚ) (num / den) (roundDiv num' den')
  rw [abs_sub_comm (num / den : ℚ)] at hsub
  by_cases hlt : |(roundDiv num den : ℚ) - roundDiv num' den'| < 1
  · exact eq_of_abs_sub_lt_one hlt
  · -- both miss by half, so both are even, and even numbers are not one apart
    have hlt := not_lt.mp hlt
    have hone : |(roundDiv num den : ℚ) - roundDiv num' den'| = 1 := by linarith
    have h1 := heven (by linarith)
    have h2 := heven' (by linarith)
    have hint : |(roundDiv num den : ℤ) - roundDiv num' den'| = 1 := by exact_mod_cast hone
    rcases (abs_eq zero_le_one).mp hint with hint | hint <;> omega

/-! ## Binades of fractions -/

theorem exists_floorLog2 (hnum : num ≠ 0) (hden : 0 < den) :
    ∃ a b : Nat, floorLog2 num den = (a : Int) - b ∧
      den * Nat.pow 2 a ≤ num * Nat.pow 2 b ∧ num * Nat.pow 2 b < den * Nat.pow 2 (a + 1) := by
  -- times this power of two the fraction is one at least, and then its logarithm is a number's
  have hle : den ≤ num * Nat.pow 2 den :=
    Nat.le_trans (Nat.le_of_lt Nat.lt_two_pow_self)
      (Nat.le_mul_of_pos_left _ (Nat.pos_of_ne_zero hnum))
  have hq : num * Nat.pow 2 den / den ≠ 0 := Nat.ne_of_gt (Nat.div_pos hle hden)
  have hl : den * Nat.pow 2 (num * Nat.pow 2 den / den).log2 ≤ num * Nat.pow 2 den :=
    Nat.le_trans (Nat.mul_le_mul_left den (Nat.log2_self_le hq)) (Nat.mul_div_le _ den)
  have hu : num * Nat.pow 2 den < den * Nat.pow 2 ((num * Nat.pow 2 den / den).log2 + 1) :=
    Nat.lt_of_lt_of_le (Nat.lt_mul_div_succ _ hden) (Nat.mul_le_mul_left den Nat.lt_log2_self)
  exact ⟨_, den, floorLog2_eq hl hu, hl, hu⟩

/-- How many binades above the first one a fraction lies. -/
def lift (f : Format) (num den : Nat) : Nat :=
  (floorLog2 num den + f.leastExponent - f.fractionBits).toNat

theorem nearestCode_eq (hnum : num ≠ 0) :
    nearestCode f num den = lift f num den * f.binadeSize
      + roundDiv (num * f.scale) (den * Nat.pow 2 (lift f num den)) := if_neg hnum

/-- In units of its binade a fraction needs as many bits as a significand has,
and all of them above the first binade. -/
theorem lift_bounds (hnum : num ≠ 0) (hden : 0 < den) :
    num * f.scale < den * Nat.pow 2 (lift f num den) * (2 * f.binadeSize) ∧
      (lift f num den = 0 ∨
        den * Nat.pow 2 (lift f num den) * f.binadeSize ≤ num * f.scale) := by
  obtain ⟨a, b, hlog, hl, hu⟩ := exists_floorLog2 hnum hden
  have hlift : lift f num den = ((a : Int) - b + f.leastExponent - f.fractionBits).toNat := by
    rw [lift, hlog]
  generalize lift f num den = k at hlift ⊢
  have hunits (j : Nat) : den * Nat.pow 2 k * Nat.pow 2 j * Nat.pow 2 b
      = den * Nat.pow 2 (k + j + b) := by
    rw [two_pow_add, two_pow_add, Nat.mul_assoc den, Nat.mul_assoc den]
  have hscale : num * f.scale * Nat.pow 2 b = num * Nat.pow 2 b * Nat.pow 2 f.leastExponent :=
    Nat.mul_right_comm _ _ _
  refine ⟨?_, ?_⟩
  · refine Nat.lt_of_mul_lt_mul_right (a := Nat.pow 2 b) ?_
    have hsize : 2 * f.binadeSize = Nat.pow 2 (f.fractionBits + 1) := by
      rw [two_pow_add, Nat.mul_comm]
      rfl
    calc num * f.scale * Nat.pow 2 b
        = num * Nat.pow 2 b * Nat.pow 2 f.leastExponent := hscale
      _ < den * Nat.pow 2 (a + 1) * Nat.pow 2 f.leastExponent :=
          Nat.mul_lt_mul_of_pos_right hu (two_pow_pos _)
      _ = den * Nat.pow 2 (a + 1 + f.leastExponent) := by rw [Nat.mul_assoc, ← two_pow_add]
      _ ≤ den * Nat.pow 2 (k + (f.fractionBits + 1) + b) :=
          Nat.mul_le_mul_left den (Nat.pow_le_pow_right (by decide) (by omega))
      _ = den * Nat.pow 2 k * (2 * f.binadeSize) * Nat.pow 2 b := by rw [hsize, hunits]
  · rcases Nat.eq_zero_or_pos k with hk | hk
    · exact .inl hk
    · refine .inr (Nat.le_of_mul_le_mul_right ?_ (two_pow_pos b))
      calc den * Nat.pow 2 k * f.binadeSize * Nat.pow 2 b
          = den * Nat.pow 2 (k + f.fractionBits + b) := hunits f.fractionBits
        _ ≤ den * Nat.pow 2 (a + f.leastExponent) :=
            Nat.mul_le_mul_left den (Nat.pow_le_pow_right (by decide) (by omega))
        _ = den * Nat.pow 2 a * Nat.pow 2 f.leastExponent := by rw [two_pow_add, Nat.mul_assoc]
        _ ≤ num * Nat.pow 2 b * Nat.pow 2 f.leastExponent := Nat.mul_le_mul_right _ hl
        _ = num * f.scale * Nat.pow 2 b := hscale.symm

/-! ## Magnitudes -/

theorem scale_pos (f : Format) : 0 < f.scale := two_pow_pos f.leastExponent

def magnitude (f : Format) (code : Nat) : ℚ := (fraction f code).1 / f.scale

theorem magnitude_nonneg (f : Format) (code : Nat) : 0 ≤ magnitude f code :=
  div_nonneg (Nat.cast_nonneg _) (Nat.cast_nonneg _)

/-- The number that a sign and the magnitude of a code denote. -/
def number (f : Format) (negative : Bool) (code : Nat) : ℚ :=
  if negative then -magnitude f code else magnitude f code

theorem abs_number (f : Format) (s : Bool) (code : Nat) : |number f s code| = magnitude f code := by
  cases s with
  | false => exact abs_of_nonneg (magnitude_nonneg f code)
  | true => exact (abs_neg _).trans (abs_of_nonneg (magnitude_nonneg f code))

theorem abs_number_sub (f : Format) (s : Bool) (code other : Nat) :
    |number f s code - number f s other| = |magnitude f code - magnitude f other| := by
  cases s with
  | false => rfl
  | true =>
      show |-magnitude f code - -magnitude f other| = _
      rw [neg_sub_neg, abs_sub_comm]

/-- A binade goes on to the beginning of the one above it. -/
theorem fraction_add {k m : Nat} (hm : m ≤ 2 * f.binadeSize) (hk : k = 0 ∨ f.binadeSize ≤ m) :
    (fraction f (k * f.binadeSize + m)).1 = m * Nat.pow 2 k := by
  rcases Nat.lt_or_ge m f.binadeSize with hlow | hfull
  · obtain rfl : k = 0 := hk.resolve_right (Nat.not_le_of_lt hlow)
    rw [Nat.zero_mul, Nat.zero_add]
    show significand f m * Nat.pow 2 (binade f m) = _
    rw [significand, if_pos hlow, binade, Nat.div_eq_of_lt hlow]
  · rcases Nat.lt_or_eq_of_le hm with hm | rfl
    · obtain ⟨hsig, hbinade⟩ := code_of_full (k := k) hfull hm
      show significand f _ * Nat.pow 2 (binade f _) = _
      rw [hsig, hbinade]
    · have hcode : k * f.binadeSize + 2 * f.binadeSize = (k + 1) * f.binadeSize + f.binadeSize := by
        ring
      have hpos := binadeSize_pos f
      obtain ⟨hsig, hbinade⟩ := code_of_full (k := k + 1) (Nat.le_refl f.binadeSize) (by omega)
      show significand f _ * Nat.pow 2 (binade f _) = _
      rw [hcode, hsig, hbinade, two_pow_add]
      show f.binadeSize * (Nat.pow 2 k * 2) = _
      ring

theorem fraction_succ (code : Nat) :
    (fraction f (code + 1)).1 = (fraction f code).1 + Nat.pow 2 (binade f code) := by
  have hsig : significand f code < 2 * f.binadeSize := by
    have hlt := significand_lt f code
    rw [two_pow_add, Nat.mul_comm] at hlt
    exact hlt
  have hnext : (fraction f (binade f code * f.binadeSize + (significand f code + 1))).1
      = (significand f code + 1) * Nat.pow 2 (binade f code) :=
    fraction_add hsig ((binade_eq_zero_or f code).imp_right Nat.le_succ_of_le)
  rw [← Nat.add_assoc, binade_add_significand, Nat.add_mul, Nat.one_mul] at hnext
  exact hnext

theorem fraction_strictMono (f : Format) : StrictMono fun code => (fraction f code).1 := by
  refine strictMono_nat_of_lt_succ ?_
  intro code
  show (fraction f code).1 < (fraction f (code + 1)).1
  rw [fraction_succ]
  exact Nat.lt_add_of_pos_right (two_pow_pos _)

theorem fraction_mono {c d : Nat} (h : c ≤ d) : (fraction f c).1 ≤ (fraction f d).1 :=
  (fraction_strictMono f).monotone h

theorem magnitude_injective (f : Format) : Function.Injective (magnitude f) := by
  intro c d h
  have hscale : (f.scale : ℚ) ≠ 0 := Nat.cast_ne_zero.mpr (Nat.ne_of_gt (scale_pos f))
  have hfraction := (div_left_inj' hscale).mp h
  exact (fraction_strictMono f).injective (Nat.cast_injective hfraction)

/-! ## Nearest magnitudes -/

/-- The unit of the last place in a binade. -/
def unit (f : Format) (k : Nat) : ℚ := (Nat.pow 2 k : Nat) / f.scale

theorem unit_pos (f : Format) (k : Nat) : 0 < unit f k :=
  div_pos (Nat.cast_pos.mpr (two_pow_pos k)) (Nat.cast_pos.mpr (scale_pos f))

theorem cast_div_eq_unit (f : Format) (k : Nat) (hden : 0 < den) :
    (num : ℚ) / den = ((num * f.scale : Nat) / (den * Nat.pow 2 k : Nat)) * unit f k := by
  have hden : (den : ℚ) ≠ 0 := Nat.cast_ne_zero.mpr (Nat.ne_of_gt hden)
  have hscale : (f.scale : ℚ) ≠ 0 := Nat.cast_ne_zero.mpr (Nat.ne_of_gt (scale_pos f))
  have hpow : ((Nat.pow 2 k : Nat) : ℚ) ≠ 0 :=
    Nat.cast_ne_zero.mpr (Nat.ne_of_gt (two_pow_pos k))
  rw [unit, Nat.cast_mul, Nat.cast_mul]
  field_simp

theorem abs_mul_unit_sub (f : Format) (k : Nat) (x y : ℚ) :
    |x * unit f k - y * unit f k| = |x - y| * unit f k := by
  rw [← sub_mul, abs_mul, abs_of_pos (unit_pos f k)]

/-- In units of the binade of the fraction, the magnitude that is found is the
rounded quotient. -/
theorem magnitude_nearestCode (hnum : num ≠ 0) (hden : 0 < den) :
    magnitude f (nearestCode f num den)
      = roundDiv (num * f.scale) (den * Nat.pow 2 (lift f num den))
        * unit f (lift f num den) := by
  obtain ⟨hhigh, hlow⟩ := lift_bounds (f := f) hnum hden
  have hcode : nearestCode f num den = _ := nearestCode_eq hnum
  generalize lift f num den = k at hhigh hlow hcode ⊢
  have hfull : k = 0 ∨ f.binadeSize ≤ roundDiv (num * f.scale) (den * Nat.pow 2 k) :=
    hlow.imp_right (le_roundDiv (Nat.mul_pos hden (two_pow_pos k)))
  rw [hcode, magnitude, fraction_add (roundDiv_le hhigh) hfull, unit, Nat.cast_mul, mul_div_assoc]

/-- A magnitude is a whole number of units of a binade that it lies in or
above. -/
theorem magnitude_of_le {k code : Nat} (h : k ≤ binade f code) :
    ∃ m : Nat, magnitude f code = m * unit f k := by
  refine ⟨significand f code * Nat.pow 2 (binade f code - k), ?_⟩
  have hsum : binade f code = binade f code - k + k := (Nat.sub_add_cancel h).symm
  have hfraction : (fraction f code).1
      = significand f code * Nat.pow 2 (binade f code - k) * Nat.pow 2 k := by
    rw [Nat.mul_assoc, ← two_pow_add, ← hsum]
    rfl
  rw [magnitude, hfraction, unit, Nat.cast_mul _ (Nat.pow 2 k), mul_div_assoc]

theorem magnitude_le_of_lt {k code : Nat} (h : binade f code < k) :
    magnitude f code ≤ f.binadeSize * unit f k := by
  have hfraction : (fraction f code).1 ≤ f.binadeSize * Nat.pow 2 k :=
    calc (fraction f code).1
        = significand f code * Nat.pow 2 (binade f code) := rfl
      _ ≤ Nat.pow 2 (f.fractionBits + 1) * Nat.pow 2 (binade f code) :=
          Nat.mul_le_mul_right _ (Nat.le_of_lt (significand_lt f code))
      _ = f.binadeSize * Nat.pow 2 (binade f code + 1) := by
          rw [Nat.add_comm, two_pow_add, two_pow_add, Format.binadeSize]
          ring
      _ ≤ f.binadeSize * Nat.pow 2 k :=
          Nat.mul_le_mul_left _ (Nat.pow_le_pow_right (by decide) h)
  rw [magnitude, unit, ← mul_div_assoc, ← Nat.cast_mul]
  exact div_le_div_of_nonneg_right (Nat.cast_le.mpr hfraction) (Nat.cast_nonneg _)

/-- Beyond the beginning of a binade a magnitude has no other nearer to it than a
unit of that binade. -/
theorem unit_le_abs_magnitude_sub {k code other : Nat}
    (h : f.binadeSize * unit f k < magnitude f code) (hne : other ≠ code) :
    unit f k ≤ |magnitude f other - magnitude f code| := by
  have hunit := unit_pos f k
  have habove : k ≤ binade f code := by
    by_contra hlt
    exact absurd h (not_lt.mpr (magnitude_le_of_lt (not_le.mp hlt)))
  obtain ⟨m, hm⟩ := magnitude_of_le habove
  rcases Nat.lt_or_ge (binade f other) k with hlow | hhigh
  · have hle := magnitude_le_of_lt hlow
    have hsize : f.binadeSize < m := by
      rw [hm] at h
      exact Nat.cast_lt.mp (lt_of_mul_lt_mul_right h hunit.le)
    have hnext : (f.binadeSize + 1 : ℚ) * unit f k ≤ magnitude f code := by
      rw [hm, ← Nat.cast_add_one]
      exact mul_le_mul_of_nonneg_right (Nat.cast_le.mpr hsize) hunit.le
    rw [abs_sub_comm]
    refine le_trans ?_ (le_abs_self _)
    linarith
  · obtain ⟨n, hn⟩ := magnitude_of_le hhigh
    have hapart : (1 : ℚ) ≤ |(n : ℚ) - m| := by
      by_contra hlt
      have heq : n = m := eq_of_abs_sub_lt_one (not_le.mp hlt)
      exact hne (magnitude_injective f (by rw [hn, hm, heq]))
    rw [hn, hm, abs_mul_unit_sub]
    exact le_mul_of_one_le_left hunit.le hapart

theorem magnitude_zero (f : Format) : magnitude f 0 = 0 := by
  have hfraction : (fraction f 0).1 = 0 := by
    show significand f 0 * _ = 0
    rw [significand, if_pos (binadeSize_pos f), Nat.zero_mul]
  rw [magnitude, hfraction, Nat.cast_zero, zero_div]

/-- No magnitude is nearer to a fraction than the one that is found. -/
theorem abs_magnitude_nearestCode_sub_le (hden : 0 < den) (code : Nat) :
    |magnitude f (nearestCode f num den) - num / den| ≤ |magnitude f code - num / den| := by
  rcases Nat.eq_zero_or_pos num with rfl | hnum
  · have hzero : nearestCode f 0 den = 0 := if_pos rfl
    rw [hzero, magnitude_zero, Nat.cast_zero, zero_div, sub_zero, abs_zero]
    exact abs_nonneg _
  · have hnum : num ≠ 0 := Nat.ne_of_gt hnum
    have hlow := (lift_bounds (f := f) hnum hden).2
    rw [magnitude_nearestCode hnum hden, cast_div_eq_unit f (lift f num den) hden,
      abs_mul_unit_sub]
    generalize lift f num den = k at hlow ⊢
    have hpos : 0 < den * Nat.pow 2 k := Nat.mul_pos hden (two_pow_pos k)
    have hunit := unit_pos f k
    rcases Nat.lt_or_ge (binade f code) k with hbelow | habove
    · have hbegin : (f.binadeSize : ℚ) ≤ (num * f.scale : Nat) / (den * Nat.pow 2 k : Nat) := by
        rw [le_div_iff₀ (Nat.cast_pos.mpr hpos), ← Nat.cast_mul, Nat.mul_comm]
        exact Nat.cast_le.mpr (hlow.resolve_left (Nat.ne_of_gt (Nat.zero_lt_of_lt hbelow)))
      have hle := magnitude_le_of_lt hbelow
      calc |(roundDiv (num * f.scale) (den * Nat.pow 2 k) : ℚ)
              - (num * f.scale : Nat) / (den * Nat.pow 2 k : Nat)| * unit f k
          ≤ |(f.binadeSize : ℚ) - (num * f.scale : Nat) / (den * Nat.pow 2 k : Nat)| * unit f k :=
            mul_le_mul_of_nonneg_right (abs_roundDiv_sub_le hpos _) hunit.le
        _ = ((num * f.scale : Nat) / (den * Nat.pow 2 k : Nat)) * unit f k
              - f.binadeSize * unit f k := by
            rw [abs_sub_comm, abs_of_nonneg (sub_nonneg.mpr hbegin), sub_mul]
        _ ≤ ((num * f.scale : Nat) / (den * Nat.pow 2 k : Nat)) * unit f k - magnitude f code :=
            sub_le_sub_left hle _
        _ ≤ |magnitude f code
              - ((num * f.scale : Nat) / (den * Nat.pow 2 k : Nat)) * unit f k| := by
            rw [abs_sub_comm]
            exact le_abs_self _
    · obtain ⟨m, hm⟩ := magnitude_of_le habove
      rw [hm, abs_mul_unit_sub]
      exact mul_le_mul_of_nonneg_right (abs_roundDiv_sub_le hpos m) hunit.le

end Binary

end XmlRpc
