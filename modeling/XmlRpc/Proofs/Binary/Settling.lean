/-
# Doubles that settle

A text denotes the decimal fraction of six places that it shows, whose zeros it
leaves out.  A double is read back as the double nearest to the fraction that it
was rounded to, and that fraction is the one that the double read back is rounded
to: it lies no farther from it, and where it lies as far, halfway between two
fractions, the even one is taken both times.

    d  rounded to N / 10⁶,  nearest double d'    |d' − d| ≤ 10⁻⁶
    d' rounded to N / 10⁶,  nearest double d'

So the text of a double is that of the double read back (`toText_reread`), and
reading twice changes nothing more (`reread_reread`).  Where doubles are farther
apart than a millionth, d' is d (`reread_of_le_magnitude`).
-/
import Mathlib.Data.List.TakeWhile
import XmlRpc.Proofs.Binary
import XmlRpc.Proofs.Binary.Nearest

namespace XmlRpc

namespace Binary

/-! ## Fractions in their texts -/

theorem exists_dropZeros (cs : List Char) :
    ∃ k, dropZeros cs ++ List.replicate k '0' = cs := by
  have htaken : ∀ c ∈ cs.reverse.takeWhile (· == '0'), c = '0' := by
    intro c hc
    have hzero := List.mem_takeWhile_imp hc
    exact beq_iff_eq.mp hzero
  refine ⟨(cs.reverse.takeWhile (· == '0')).length, ?_⟩
  calc dropZeros cs ++ List.replicate (cs.reverse.takeWhile (· == '0')).length '0'
      = (cs.reverse.dropWhile (· == '0')).reverse
          ++ (cs.reverse.takeWhile (· == '0')).reverse := by
        rw [dropZeros, List.eq_replicate_of_mem htaken, List.reverse_replicate,
          List.length_replicate]
    _ = cs := by
        rw [← List.reverse_append, List.takeWhile_append_dropWhile, List.reverse_reverse]

theorem digits?_replicate (acc k : Nat) :
    Numeral.digits? 10 Numeral.decimalDigit? acc (List.replicate k '0')
      = some (acc * Nat.pow 10 k) := by
  induction k generalizing acc with
  | zero => exact congrArg some (Nat.mul_one acc).symm
  | succ k ih =>
      rw [List.replicate_succ, Numeral.digits?]
      show Numeral.digits? 10 Numeral.decimalDigit? (acc * 10 + 0) _ = _
      rw [ih, Nat.add_zero, Nat.mul_assoc, Nat.mul_comm 10]
      rfl

theorem placesScale_pos : 0 < placesScale := Nat.pow_pos (by decide)

theorem pow_mul_pow_places {p : Nat} (h : p ≤ places) :
    Nat.pow 10 p * Nat.pow 10 (places - p) = placesScale := by
  show 10 ^ p * 10 ^ (places - p) = 10 ^ places
  rw [← Nat.pow_add, Nat.add_sub_of_le h]

theorem digits?_fractionDigits {m : Nat} (hm : m < placesScale) :
    ∃ n, Numeral.digits? 10 Numeral.decimalDigit? 0 (fractionDigits m) = some n ∧
      n * Nat.pow 10 (places - (fractionDigits m).length) = m ∧
      0 < (fractionDigits m).length ∧ (fractionDigits m).length ≤ places := by
  obtain ⟨k, hk⟩ := exists_dropZeros (Numeral.padded places m)
  have hlen : (dropZeros (Numeral.padded places m)).length + k = places := by
    have happend := congrArg List.length hk
    rwa [List.length_append, List.length_replicate,
      Numeral.length_padded (by decide) hm] at happend
  have hvalue := Numeral.decimal?_padded places m
  rw [Numeral.decimal?_of_ne_nil (Numeral.padded_ne_nil _ _), ← hk,
    Numeral.digits?_append] at hvalue
  obtain ⟨n, hn, hzeros⟩ := Option.bind_eq_some_iff.mp hvalue
  have hm : n * Nat.pow 10 k = m := Option.some.inj ((digits?_replicate n k).symm.trans hzeros)
  rw [fractionDigits]
  split
  · rename_i hnil
    rw [hnil] at hn
    cases hn
    rw [Nat.zero_mul] at hm
    exact ⟨0, rfl, by rw [Nat.zero_mul]; exact hm, by decide, by decide⟩
  · rename_i hne
    have hpos : 0 < (dropZeros (Numeral.padded places m)).length := List.length_pos_iff.mpr hne
    have hk : places - (dropZeros (Numeral.padded places m)).length = k := by omega
    exact ⟨n, hn, hk ▸ hm, hpos, by omega⟩

/-- A text of few places is no zero or infinity by its length alone. -/
theorem ofDecimal_places (f : Format) (s : Bool) (count n : Nat) {p : Nat} (hp : 0 < p)
    (hle : p ≤ places) : ofDecimal f s count n (0 - p) = nearest f s n (Nat.pow 10 p) := by
  have hplaces : places = 6 := rfl
  rw [ofDecimal]
  split
  · rename_i hn
    rw [hn]
    rfl
  · rw [if_neg (by omega), if_neg (by omega), if_neg (by omega)]
    congr 2
    omega

/-- The text of a count of millionths denotes the number nearest to it. -/
theorem ofText?_trimmedText_nearest (f : Format) (s : Bool) (millionths : Nat) :
    ∃ n p, p ≤ places ∧ n * Nat.pow 10 (places - p) = millionths ∧
      ofText? f (signText s ++ trimmedText millionths) = some (nearest f s n (Nat.pow 10 p)) := by
  have hw := Numeral.isDigit_ofNat (millionths / placesScale)
  have hp := isDigit_fractionDigits (millionths % placesScale)
  obtain ⟨n, hn, hfraction, hpos, hle⟩ :=
    digits?_fractionDigits (Nat.mod_lt millionths placesScale_pos)
  generalize hds : fractionDigits (millionths % placesScale) = ds at hp hn hfraction hpos hle
  have hvalue : Numeral.decimal? (Numeral.ofNat (millionths / placesScale) ++ ds)
      = some (millionths / placesScale * Nat.pow 10 ds.length + n) := by
    rw [Numeral.decimal?_of_ne_nil
        (List.append_ne_nil_of_left_ne_nil (Numeral.ofNat_ne_nil _) _),
      Numeral.digits?_append, Numeral.digits?_ofNat, Option.bind_some, Numeral.digits?_acc, hn]
    rfl
  refine ⟨millionths / placesScale * Nat.pow 10 ds.length + n, ds.length, hle, ?_, ?_⟩
  · rw [Nat.add_mul, hfraction, Nat.mul_assoc, pow_mul_pow_places hle]
    exact Nat.div_add_mod' millionths placesScale
  · rw [ofText?_trimmedText, trimmedText, hds, unsigned?_point f s hw hp hvalue,
      ofDecimal_places f s _ _ hpos hle]

/-! ## Numbers read back -/

theorem cast_millionths {f : Format} (code : Nat) :
    (((fraction f code).1 * placesScale : Nat) : ℚ) / f.scale = magnitude f code * placesScale := by
  rw [magnitude, Nat.cast_mul]
  ring

/-- How many millionths a magnitude is away from what another is written as. -/
def miss (f : Format) (code other : Nat) : ℚ :=
  |magnitude f other * placesScale - millionths f code|

/-- What is read back of a number that is written: no magnitude is nearer to its
text. -/
theorem exists_reread {f : Format} (s : Bool) (code : Fin f.infinityCode) :
    ∃ back : Nat, reread (.finite s code) = ofCode s back ∧
      ∀ other : Nat, miss f code back ≤ miss f code other := by
  obtain ⟨n, p, hp, hn, htext⟩ := ofText?_trimmedText_nearest f s (millionths f code)
  have hten : 0 < Nat.pow 10 p := Nat.pow_pos (by decide)
  have hshown : (n : ℚ) / (Nat.pow 10 p : Nat) * placesScale = millionths f code := by
    have hne : ((Nat.pow 10 p : Nat) : ℚ) ≠ 0 := Nat.cast_ne_zero.mpr (Nat.ne_of_gt hten)
    rw [← hn, ← pow_mul_pow_places hp, Nat.cast_mul, Nat.cast_mul]
    field_simp
  have hmiss (other : Nat) : miss f code other
      = |magnitude f other - n / (Nat.pow 10 p : Nat)| * placesScale := by
    rw [miss, ← hshown, ← sub_mul, abs_mul, Nat.abs_cast]
  refine ⟨nearestCode f n (Nat.pow 10 p), ?_, ?_⟩
  · rw [reread, toText_finite, htext]
    rfl
  · intro other
    rw [hmiss, hmiss]
    exact mul_le_mul_of_nonneg_right (abs_magnitude_nearestCode_sub_le hten other)
      (Nat.cast_nonneg placesScale)

section ReadBack

variable {f : Format} {code back : Nat}

theorem miss_self_le (f : Format) (code : Nat) : miss f code code ≤ 1 / 2 := by
  rw [miss, abs_sub_comm, ← cast_millionths]
  exact (roundDiv_miss _ (scale_pos f)).1

/-- The magnitude read back is written as the one that was. -/
theorem millionths_eq (h : miss f code back ≤ miss f code code) :
    millionths f back = millionths f code := by
  refine roundDiv_eq_of_abs_sub_le (scale_pos f) (scale_pos f) ?_
  rw [cast_millionths, cast_millionths, abs_sub_comm, abs_sub_comm (_ : ℚ) (magnitude f code * _)]
  exact h

theorem abs_magnitude_sub_le (h : miss f code back ≤ miss f code code) :
    |magnitude f back - magnitude f code| ≤ 1 / placesScale := by
  have hhalf := miss_self_le f code
  have hsub := abs_sub_le (magnitude f back * placesScale) (millionths f code : ℚ)
    (magnitude f code * placesScale)
  rw [abs_sub_comm (millionths f code : ℚ)] at hsub
  change _ ≤ miss f code back + miss f code code at hsub
  rw [le_div_iff₀ (Nat.cast_pos.mpr placesScale_pos), ← Nat.abs_cast placesScale, ← abs_mul,
    sub_mul]
  linarith

theorem millionths_of_eq {n : Nat} (h : magnitude f code * placesScale = n) :
    millionths f code = n := by
  have hscale : (f.scale : ℚ) ≠ 0 := Nat.cast_ne_zero.mpr (Nat.ne_of_gt (scale_pos f))
  rw [← cast_millionths, div_eq_iff hscale, ← Nat.cast_mul] at h
  rw [millionths, Nat.cast_injective h, Nat.mul_comm n, roundDiv_mul_left (scale_pos f)]

theorem eq_of_whole {n : Nat} (hn : magnitude f code * placesScale = n)
    (h : miss f code back ≤ miss f code code) : back = code := by
  have hplaces : (placesScale : ℚ) ≠ 0 := Nat.cast_ne_zero.mpr (Nat.ne_of_gt placesScale_pos)
  rw [miss, miss, millionths_of_eq hn, ← hn, sub_self, abs_zero, abs_nonpos_iff,
    sub_eq_zero] at h
  exact magnitude_injective f (mul_right_cancel₀ hplaces h)

/-- Where magnitudes are farther apart than a millionth, one is read back as
itself. -/
theorem eq_of_unit_lt {k : Nat} (hunit : 1 / placesScale < unit f k)
    (hlarge : f.binadeSize * unit f k < magnitude f code)
    (h : miss f code back ≤ miss f code code) : back = code := by
  by_contra hne
  have hgap := unit_le_abs_magnitude_sub hlarge hne
  exact absurd (abs_magnitude_sub_le h) (not_le.mpr (hunit.trans_le hgap))

end ReadBack

theorem unit_mul_two_pow {f : Format} {j k : Nat} (h : k + j = f.leastExponent) :
    unit f k * 2 ^ j = 1 := by
  have hk : (Nat.pow 2 k : ℚ) ≠ 0 := Nat.cast_ne_zero.mpr (Nat.ne_of_gt (two_pow_pos k))
  have hj : (2 ^ j : ℚ) ≠ 0 := pow_ne_zero j two_ne_zero
  have hscale : (f.scale : ℚ) = (Nat.pow 2 k : Nat) * 2 ^ j := by
    rw [Format.scale, ← h, two_pow_add, Nat.cast_mul]
    exact congrArg _ (Nat.cast_pow 2 j)
  rw [unit, hscale]
  field_simp

/-- Between the largest finite magnitude and what stands for infinity there is
one at least, in a format whose last unit is one at least. -/
theorem magnitude_add_one_le {f : Format} (hf : f.leastExponent ≤ binade f (f.infinityCode - 1))
    {code back : Nat} (hcode : code < f.infinityCode) (hback : f.infinityCode ≤ back) :
    magnitude f code + 1 ≤ magnitude f back := by
  have hscale : (0 : ℚ) < f.scale := Nat.cast_pos.mpr (scale_pos f)
  have hunit : f.scale ≤ Nat.pow 2 (binade f (f.infinityCode - 1)) :=
    Nat.pow_le_pow_right (by decide) hf
  have hlast : (fraction f f.infinityCode).1
      = (fraction f (f.infinityCode - 1)).1 + Nat.pow 2 (binade f (f.infinityCode - 1)) := by
    rw [← fraction_succ, Nat.sub_add_cancel (Nat.one_le_of_lt hcode)]
  have hfraction : (fraction f code).1 + f.scale ≤ (fraction f back).1 :=
    calc (fraction f code).1 + f.scale
        ≤ (fraction f (f.infinityCode - 1)).1 + Nat.pow 2 (binade f (f.infinityCode - 1)) :=
          Nat.add_le_add (fraction_mono (Nat.le_sub_one_of_lt hcode)) hunit
      _ = (fraction f f.infinityCode).1 := hlast.symm
      _ ≤ (fraction f back).1 := fraction_mono hback
  rw [magnitude, magnitude, div_add_one hscale.ne', ← Nat.cast_add]
  exact div_le_div_of_nonneg_right (Nat.cast_le.mpr hfraction) hscale.le

/-- A double that is read back is finite, off by a millionth at most, and written as
the one that was read. -/
theorem reread_finite (s : Bool) (code : Fin Format.double.infinityCode) :
    ∃ back : Fin Format.double.infinityCode, reread (.finite s code) = .finite s back ∧
      |magnitude .double back - magnitude .double code| ≤ 1 / placesScale ∧
      toText (.finite s back) = toText (.finite s code) := by
  obtain ⟨back, hback, hnearest⟩ := exists_reread s code
  have hoff := abs_magnitude_sub_le (hnearest code)
  have hlt : back < Format.double.infinityCode := by
    by_contra hge
    have hgap := magnitude_add_one_le (f := .double) (by decide) code.isLt (Nat.le_of_not_lt hge)
    have hone : (1 : ℚ) / placesScale < 1 :=
      (div_lt_one (Nat.cast_pos.mpr placesScale_pos)).mpr (Nat.one_lt_cast.mpr (by decide))
    have hle := le_abs_self (magnitude .double back - magnitude .double code)
    linarith
  refine ⟨⟨back, hlt⟩, hback.trans (ofCode_of_lt s hlt), hoff, ?_⟩
  rw [toText_finite, toText_finite, millionths_eq (hnearest code)]

/-- Doubles from 2³³ on are read back as themselves. -/
theorem reread_of_le_magnitude (s : Bool) {code : Fin Format.double.infinityCode}
    (h : 2 ^ 33 ≤ magnitude .double code) : reread (.finite s code) = .finite s code := by
  obtain ⟨back, hback, hnearest⟩ := exists_reread s code
  have hunit : unit .double 1055 = 1 / 2 ^ 19 := by
    have hone : unit .double 1055 * 2 ^ 19 = 1 := unit_mul_two_pow rfl
    linarith
  have hbegin : (Format.double.binadeSize : ℚ) * unit .double 1055 = 2 ^ 33 := by
    have hsize : Format.double.binadeSize = 2 ^ 52 := rfl
    rw [hunit, hsize]
    norm_num
  have hcode : back = code := by
    -- above 2³³ all others are farther away than a millionth, but one below it is not
    rcases h.eq_or_lt with heq | hlt
    · have hwhole : magnitude .double code * placesScale = (2 ^ 33 * placesScale : Nat) := by
        rw [← heq, Nat.cast_mul, Nat.cast_pow, Nat.cast_ofNat]
      exact eq_of_whole hwhole (hnearest code)
    · refine eq_of_unit_lt ?_ (hbegin.trans_lt hlt) (hnearest code)
      have hplaces : placesScale = 10 ^ 6 := rfl
      rw [hunit, hplaces]
      norm_num
  rw [hback, hcode]
  exact ofCode_of_lt s code.isLt

/-- Above 2³² doubles are closer than a millionth, and one is read back as the one
below it: its text is 4294967296.00001. -/
example : reread (.finite false ⟨4751297606875873291, by decide⟩ : Double)
    = .finite false ⟨4751297606875873290, by decide⟩ := by decide +kernel

theorem toText_reread (x : Double) : x.reread.toText = x.toText := by
  cases x with
  | nan => rfl
  | infinity s => rfl
  | finite s code =>
      obtain ⟨back, hback, -, htext⟩ := reread_finite s code
      rw [hback, htext]

theorem reread_reread (x : Double) : x.reread.reread = x.reread := by
  have hagain := ofText?_toText x.reread
  rw [toText_reread, ofText?_toText] at hagain
  exact (Option.some.inj hagain).symm

end Binary

end XmlRpc
