/-
# The texts of numbers

The text of a finite number is the only one of this form that denotes the count
of millionths that the number is rounded to (`eq_toText_iff`):

    sign       a minus where the sign bit is set, and nothing otherwise
    whole      digits with no zero in front, unless it is the only one
    point
    fraction   six digits at most, with no zero at the end, unless it is the only one

So nothing is left of a number below half a millionth but its sign.
-/
import Mathlib.Algebra.Group.Int.Even
import XmlRpc.Proofs.Binary.Settling
import XmlRpc.Proofs.Text.Digits

namespace XmlRpc

namespace Binary

open Numeral (IsDigits IsShortest)

/-! ## Rounding half to even -/

/-- The whole number that a rational is rounded to: half away at most, and even
where it is half away. -/
structure RoundsTo (x : ℚ) (n : ℤ) : Prop where
  le_half : |n - x| ≤ 1 / 2
  even : |n - x| = 1 / 2 → Even n

theorem RoundsTo.unique {x : ℚ} {m n : ℤ} (hm : RoundsTo x m) (hn : RoundsTo x n) : m = n := by
  have hsub := abs_sub_le (m : ℚ) x n
  rw [abs_sub_comm x] at hsub
  by_cases hlt : |(m : ℚ) - n| < 1
  · have hint : |m - n| < 1 := by exact_mod_cast hlt
    exact sub_eq_zero.mp (Int.abs_lt_one_iff.mp hint)
  · -- both are half away, so both are even, and even numbers are not one apart
    have hle := hm.le_half
    have hle' := hn.le_half
    have hone : |(m : ℚ) - n| = 1 := by linarith
    have hdiff : Even (m - n) := (hm.even (by linarith)).sub (hn.even (by linarith))
    have hint : |m - n| = 1 := by exact_mod_cast hone
    exact absurd (even_abs.mpr hdiff) (hint ▸ Int.not_even_one)

theorem RoundsTo.neg {x : ℚ} {n : ℤ} (h : RoundsTo x n) : RoundsTo (-x) (-n) := by
  have habs : |((-n : ℤ) : ℚ) - -x| = |(n : ℚ) - x| := by
    rw [Int.cast_neg, neg_sub_neg, abs_sub_comm]
  refine ⟨habs ▸ h.le_half, ?_⟩
  intro htie
  exact (h.even (habs ▸ htie)).neg

variable {f : Format}

theorem cast_placesScale : ((placesScale : Nat) : ℚ) = 10 ^ 6 := Nat.cast_pow 10 6

theorem roundsTo_millionths (f : Format) (code : Nat) :
    RoundsTo (magnitude f code * 10 ^ 6) (millionths f code) := by
  have hvalue := cast_millionths (f := f) code
  rw [cast_placesScale] at hvalue
  obtain ⟨hhalf, heven⟩ := roundDiv_miss ((fraction f code).1 * placesScale) (scale_pos f)
  rw [hvalue] at hhalf heven
  refine ⟨hhalf, ?_⟩
  intro htie
  exact (Int.even_coe_nat _).mpr (Nat.even_iff.mpr (heven htie))

theorem roundsTo_number (f : Format) (s : Bool) (code : Nat) :
    RoundsTo (number f s code * 10 ^ 6) (if s then -millionths f code else millionths f code) := by
  have h := roundsTo_millionths f code
  cases s with
  | false => exact h
  | true =>
      have hneg : number f true code = -magnitude f code := rfl
      rw [hneg, neg_mul, if_pos rfl]
      exact h.neg

/-! ## Digits behind a point -/

/-- Six digits at most, with no zero at the end unless it is the only one. -/
structure IsFraction (ds : List Char) : Prop extends IsDigits ds where
  length_le : ds.length ≤ 6
  eq_zero : ds.getLast? = some '0' → ds = ['0']

theorem getLast?_dropZeros (cs : List Char) : (dropZeros cs).getLast? ≠ some '0' := by
  rw [dropZeros, List.getLast?_reverse]
  intro h
  have hnot := List.head?_dropWhile_not (· == '0') cs.reverse
  rw [h] at hnot
  exact absurd hnot (by decide)

theorem dropZeros_append_replicate {ds : List Char} (h : ds.getLast? ≠ some '0') (k : Nat) :
    dropZeros (ds ++ List.replicate k '0') = ds := by
  have hzeros : ∀ c ∈ List.replicate k '0', (c == '0') = true := by
    intro c hc
    exact beq_iff_eq.mpr (List.eq_of_mem_replicate hc)
  rw [dropZeros, List.reverse_append, List.reverse_replicate,
    List.dropWhile_append_of_pos hzeros]
  cases hds : ds.reverse with
  | nil => exact (List.reverse_eq_nil_iff.mp hds).symm
  | cons c cs =>
      have hc : ¬ (c == '0') = true := by
        rintro hc
        have hlast : ds.getLast? = some c := by rw [← List.head?_reverse, hds]; rfl
        exact h (hlast.trans (congrArg some (beq_iff_eq.mp hc)))
      rw [List.dropWhile_cons, if_neg hc, ← hds, List.reverse_reverse]

theorem fractionDigits_eq (m : Nat) :
    fractionDigits m = if dropZeros (Numeral.padded places m) = [] then ['0']
      else dropZeros (Numeral.padded places m) := by
  rw [fractionDigits]
  split
  · rename_i hnil
    rw [if_pos hnil]
  · rename_i hne
    rw [if_neg hne]

theorem fractionDigits_ne_nil (m : Nat) : fractionDigits m ≠ [] := by
  rw [fractionDigits_eq]
  split
  · exact List.cons_ne_nil _ _
  · assumption

theorem ofDigitChars_fractionDigits {m : Nat} (hm : m < placesScale) :
    Nat.ofDigitChars 10 (fractionDigits m) 0 * 10 ^ (6 - (fractionDigits m).length) = m := by
  obtain ⟨n, hn, hvalue, -⟩ := digits?_fractionDigits hm
  rw [(Numeral.digits?_eq_some_iff.mp hn).2]
  exact hvalue

theorem isFraction_fractionDigits {m : Nat} (hm : m < placesScale) :
    IsFraction (fractionDigits m) := by
  obtain ⟨n, -, -, -, hle⟩ := digits?_fractionDigits hm
  refine ⟨⟨fractionDigits_ne_nil m, isDigit_fractionDigits m⟩, hle, ?_⟩
  rw [fractionDigits_eq]
  split
  · intro _
    rfl
  · intro h
    exact absurd h (getLast?_dropZeros _)

/-- A fraction without superfluous zeros is the one that is written for its
count of millionths. -/
theorem fractionDigits_ofDigitChars {ds : List Char} (h : IsFraction ds) :
    fractionDigits (Nat.ofDigitChars 10 ds 0 * 10 ^ (6 - ds.length)) = ds := by
  have hlen : (ds ++ List.replicate (6 - ds.length) '0').length = places := by
    rw [List.length_append, List.length_replicate]
    exact Nat.add_sub_of_le h.length_le
  have hfilled : IsDigits (ds ++ List.replicate (6 - ds.length) '0') := by
    refine ⟨List.append_ne_nil_of_left_ne_nil h.ne_nil _, ?_⟩
    refine List.forall_mem_append.mpr ⟨h.isDigit, ?_⟩
    intro c hc
    rw [List.eq_of_mem_replicate hc]
    rfl
  have hpadded := Numeral.padded_ofDigitChars hfilled
  rw [hlen, Nat.ofDigitChars_append, Nat.ofDigitChars_replicate_zero, Nat.mul_comm] at hpadded
  rw [fractionDigits_eq, hpadded]
  by_cases hzero : ds.getLast? = some '0'
  · rw [h.eq_zero hzero]
    rfl
  · rw [dropZeros_append_replicate hzero, if_neg h.ne_nil]

/-! ## Texts with a point -/

/-- The number that digits before and behind a point denote. -/
def pointed (whole part : List Char) : ℚ :=
  Nat.ofDigitChars 10 whole 0 + Nat.ofDigitChars 10 part 0 / 10 ^ part.length

/-- A text with a sign, a point and no superfluous zeros, and the number that it
denotes. -/
inductive FixedForm (negative : Bool) : List Char → ℚ → Prop where
  | mk {whole part : List Char} {x : ℚ} : IsShortest whole → IsFraction part →
      (if negative then -pointed whole part else pointed whole part) = x →
      FixedForm negative ((if negative then ['-'] else []) ++ whole ++ '.' :: part) x

theorem pointed_eq_iff {whole part : List Char} (h : part.length ≤ 6) (n : Nat) :
    pointed whole part = n / 10 ^ 6 ↔
      Nat.ofDigitChars 10 whole 0 * 10 ^ 6 + Nat.ofDigitChars 10 part 0 * 10 ^ (6 - part.length)
        = n := by
  have hpow : (10 : ℚ) ^ 6 = 10 ^ part.length * 10 ^ (6 - part.length) := by
    rw [← pow_add, Nat.add_sub_of_le h]
  have hne : (10 : ℚ) ^ part.length ≠ 0 := pow_ne_zero _ (by norm_num)
  have hshift : (Nat.ofDigitChars 10 part 0 : ℚ) / 10 ^ part.length * 10 ^ 6
      = Nat.ofDigitChars 10 part 0 * 10 ^ (6 - part.length) := by
    rw [hpow, ← mul_assoc, div_mul_cancel₀ _ hne]
  rw [eq_div_iff (by norm_num), pointed, add_mul, hshift]
  norm_cast

theorem pointed_trimmedText (n : Nat) :
    pointed (Numeral.ofNat (n / placesScale)) (fractionDigits (n % placesScale)) = n / 10 ^ 6 := by
  have hlt := Nat.mod_lt n placesScale_pos
  refine (pointed_eq_iff (isFraction_fractionDigits hlt).length_le n).mpr ?_
  rw [ofDigitChars_fractionDigits hlt, Numeral.ofDigitChars_ofNat]
  exact Nat.div_add_mod' n placesScale

/-- No other text without superfluous zeros denotes a count of millionths. -/
theorem eq_trimmedText {whole part : List Char} {n : Nat} (hw : IsShortest whole)
    (hp : IsFraction part) (h : pointed whole part = n / 10 ^ 6) :
    whole ++ '.' :: part = trimmedText n := by
  have hscale : placesScale = 1000000 := rfl
  have hsum := (pointed_eq_iff hp.length_le n).mp h
  have hlt : Nat.ofDigitChars 10 part 0 * 10 ^ (6 - part.length) < placesScale := by
    rw [← pow_mul_pow_places hp.length_le]
    exact Nat.mul_lt_mul_of_pos_right (Numeral.ofDigitChars_lt hp.toIsDigits)
      (Nat.pow_pos (by decide))
  have hdiv : n / placesScale = Nat.ofDigitChars 10 whole 0 := by
    rw [hscale] at hlt ⊢
    omega
  have hmod : n % placesScale = Nat.ofDigitChars 10 part 0 * 10 ^ (6 - part.length) := by
    rw [hscale] at hlt ⊢
    omega
  rw [trimmedText, hdiv, hmod, Numeral.ofNat_ofDigitChars hw, fractionDigits_ofDigitChars hp]

/-! ## Texts of numbers -/

variable {s : Bool} {code : Fin f.infinityCode} {cs : List Char}

theorem fixedForm_toText (s : Bool) (code : Fin f.infinityCode) :
    FixedForm s (toText (.finite s code))
      (((if s then -millionths f code else millionths f code : ℤ) : ℚ) / 10 ^ 6) := by
  have hlt := Nat.mod_lt (millionths f code) placesScale_pos
  have hform := @FixedForm.mk s _ _ _ (Numeral.isShortest_ofNat (millionths f code / placesScale))
    (isFraction_fractionDigits hlt) rfl
  rw [pointed_trimmedText, List.append_assoc] at hform
  rw [toText_finite]
  cases s with
  | false => exact hform
  | true =>
      rw [if_pos rfl, Int.cast_neg, neg_div]
      exact hform

theorem eq_toText_of_fixedForm
    (h : FixedForm s cs
      (((if s then -millionths f code else millionths f code : ℤ) : ℚ) / 10 ^ 6)) :
    cs = toText (.finite s code) := by
  cases h with
  | @mk whole part x hw hp hx =>
      have hpointed : pointed whole part = millionths f code / 10 ^ 6 := by
        cases s with
        | false => exact hx
        | true =>
            rw [if_pos rfl, if_pos rfl, Int.cast_neg, neg_div] at hx
            exact neg_injective hx
      rw [toText_finite, List.append_assoc, eq_trimmedText hw hp hpointed]
      rfl

/-- Below half a millionth nothing but the sign is left. -/
theorem toText_of_tiny (h : |number f s code| ≤ 1 / (2 * 10 ^ 6)) :
    toText (.finite s code) = (if s then ['-'] else []) ++ ['0', '.', '0'] := by
  have hnonneg := magnitude_nonneg f code
  rw [abs_number] at h
  have hle : magnitude f code * 10 ^ 6 ≤ 1 / 2 := by linarith
  have hzero : RoundsTo (magnitude f code * 10 ^ 6) 0 := by
    refine ⟨?_, fun _ => Even.zero⟩
    rw [Int.cast_zero, zero_sub, abs_neg, abs_of_nonneg (by positivity)]
    exact hle
  have hmillionths : millionths f code = 0 :=
    Int.natCast_eq_zero.mp ((roundsTo_millionths f code).unique hzero)
  rw [toText_finite, hmillionths]
  rfl

/-- The text of a finite double is the one text with its sign and without
superfluous zeros that denotes the double rounded to six places, half to even. -/
theorem eq_toText_iff (s : Bool) (code : Fin Format.double.infinityCode) :
    (∀ cs, cs = toText (.finite s code : Double) ↔
      ∃ n : ℤ, RoundsTo (number .double s code * 10 ^ 6) n ∧ FixedForm s cs (n / 10 ^ 6)) ∧
    (|number .double s code| ≤ 1 / (2 * 10 ^ 6) →
      toText (.finite s code : Double) = (if s then ['-'] else []) ++ ['0', '.', '0']) := by
  refine ⟨?_, toText_of_tiny⟩
  intro cs
  constructor
  · rintro rfl
    exact ⟨_, roundsTo_number .double s code, fixedForm_toText s code⟩
  · rintro ⟨n, hn, hform⟩
    rw [hn.unique (roundsTo_number .double s code)] at hform
    exact eq_toText_of_fixedForm hform

/-- Less than half a millionth below zero, a double is written as zero with a
minus sign. -/
theorem eq_toText_iff_tiny :
    let code : Fin Format.double.infinityCode := ⟨4512606826625236992, by decide⟩
    number .double true code = -1 / 2 ^ 21 ∧
      toText (.finite true code : Double) = ['-', '0', '.', '0'] := by
  intro code
  have hfraction := fraction_add (f := .double) (k := 1001) (m := Format.double.binadeSize)
    (by decide) (.inr (Nat.le_refl _))
  have hmagnitude : magnitude .double code = Format.double.binadeSize * unit .double 1001 := by
    have hcode : code.val = 1001 * Format.double.binadeSize + Format.double.binadeSize := rfl
    rw [magnitude, hcode, hfraction, unit, Nat.cast_mul, mul_div_assoc]
  have hunit : unit .double 1001 * 2 ^ 73 = 1 := unit_mul_two_pow rfl
  have hsize : Format.double.binadeSize = 2 ^ 52 := rfl
  have hnumber : number .double true code = -1 / 2 ^ 21 := by
    show -magnitude .double code = _
    rw [hmagnitude, hsize, Nat.cast_pow]
    linarith
  refine ⟨hnumber, (eq_toText_iff true code).2 ?_⟩
  rw [hnumber]
  norm_num

/-- Halfway between two millionths the even one is written. -/
example : toText (.finite false ⟨4575657221408423936, by decide⟩ : Double)
      = ['0', '.', '0', '0', '7', '8', '1', '2'] ∧
    toText (.finite false ⟨4582412620849479680, by decide⟩ : Double)
      = ['0', '.', '0', '2', '3', '4', '3', '8'] := by decide +kernel

end Binary

end XmlRpc
