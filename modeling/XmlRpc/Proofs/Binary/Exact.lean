/-
# Numbers that a format holds

Rounding a fraction that a format holds exactly changes nothing
(`nearestCode_of_eq`).  The code of a magnitude says how to write it as a
significand times a power of two; rounding finds that power again, by the
logarithm of the fraction (`floorLog2_eq`), and then the significand.

Every number of 32 bits is one of 64 bits, so widening it and narrowing it
again gives it back (`narrow_widen`).
-/
import XmlRpc.Binary.Rounding

namespace XmlRpc

namespace Binary

variable {f : Format} {num den : Nat}

/-! ## Powers of two -/

theorem two_pow_add (a b : Nat) : Nat.pow 2 (a + b) = Nat.pow 2 a * Nat.pow 2 b :=
  Nat.pow_add 2 a b

theorem two_pow_pos (a : Nat) : 0 < Nat.pow 2 a := Nat.two_pow_pos a

theorem lt_of_two_pow_lt {a b : Nat} (h : Nat.pow 2 a < Nat.pow 2 b) : a < b :=
  (Nat.pow_lt_pow_iff_right Nat.one_lt_two).mp h

theorem reaches_sub (a b : Nat) :
    reaches num den ((a : Int) - b) = true ↔ den * Nat.pow 2 a ≤ num * Nat.pow 2 b := by
  rw [reaches]
  split
  · obtain ⟨d, rfl⟩ : ∃ d, a = d + b := ⟨a - b, by omega⟩
    have hd : (((d + b : Nat) : Int) - b).toNat = d := by omega
    rw [decide_eq_true_eq, hd, two_pow_add, ← Nat.mul_assoc]
    exact (Nat.mul_le_mul_right_iff (two_pow_pos b)).symm
  · obtain ⟨d, rfl⟩ : ∃ d, b = d + a := ⟨b - a, by omega⟩
    have hd : (-((a : Int) - (d + a : Nat))).toNat = d := by omega
    rw [decide_eq_true_eq, hd, two_pow_add, ← Nat.mul_assoc]
    exact (Nat.mul_le_mul_right_iff (two_pow_pos a)).symm

theorem floorLog2_eq {a b : Nat} (hl : den * Nat.pow 2 a ≤ num * Nat.pow 2 b)
    (hu : num * Nat.pow 2 b < den * Nat.pow 2 (a + 1)) : floorLog2 num den = (a : Int) - b := by
  have hden : den ≠ 0 := by
    rintro rfl
    rw [Nat.zero_mul] at hu
    exact Nat.not_lt_zero _ hu
  have hnum : num ≠ 0 := by
    rintro rfl
    rw [Nat.zero_mul] at hl
    exact absurd hl (Nat.not_le_of_lt (Nat.mul_pos (Nat.pos_of_ne_zero hden) (two_pow_pos a)))
  -- The logarithms of numerator and denominator miss by less than one each.
  have hlow : den.log2 + a < num.log2 + 1 + b := by
    refine lt_of_two_pow_lt ?_
    rw [two_pow_add, two_pow_add _ b]
    calc Nat.pow 2 den.log2 * Nat.pow 2 a
        ≤ den * Nat.pow 2 a := Nat.mul_le_mul_right _ (Nat.log2_self_le hden)
      _ ≤ num * Nat.pow 2 b := hl
      _ < Nat.pow 2 (num.log2 + 1) * Nat.pow 2 b :=
          Nat.mul_lt_mul_of_pos_right Nat.lt_log2_self (two_pow_pos b)
  have hhigh : num.log2 + b < den.log2 + 1 + (a + 1) := by
    refine lt_of_two_pow_lt ?_
    rw [two_pow_add, two_pow_add _ (a + 1)]
    calc Nat.pow 2 num.log2 * Nat.pow 2 b
        ≤ num * Nat.pow 2 b := Nat.mul_le_mul_right _ (Nat.log2_self_le hnum)
      _ < den * Nat.pow 2 (a + 1) := hu
      _ ≤ Nat.pow 2 (den.log2 + 1) * Nat.pow 2 (a + 1) :=
          Nat.mul_le_mul_right _ (Nat.le_of_lt Nat.lt_log2_self)
  have hcases : num.log2 + b = a + den.log2 ∨ num.log2 + b = a + 1 + den.log2 := by omega
  rw [floorLog2]
  rcases hcases with h | h
  · have hreach : den * Nat.pow 2 num.log2 ≤ num * Nat.pow 2 den.log2 := by
      refine Nat.le_of_mul_le_mul_right ?_ (two_pow_pos b)
      calc den * Nat.pow 2 num.log2 * Nat.pow 2 b
          = den * Nat.pow 2 a * Nat.pow 2 den.log2 := by
            rw [Nat.mul_assoc, ← two_pow_add, h, two_pow_add, Nat.mul_assoc]
        _ ≤ num * Nat.pow 2 b * Nat.pow 2 den.log2 := Nat.mul_le_mul_right _ hl
        _ = num * Nat.pow 2 den.log2 * Nat.pow 2 b := Nat.mul_right_comm _ _ _
    rw [if_pos ((reaches_sub _ _).mpr hreach)]
    omega
  · have hreach : ¬ den * Nat.pow 2 num.log2 ≤ num * Nat.pow 2 den.log2 := by
      refine Nat.not_le_of_lt (Nat.lt_of_mul_lt_mul_right (a := Nat.pow 2 b) ?_)
      calc num * Nat.pow 2 den.log2 * Nat.pow 2 b
          = num * Nat.pow 2 b * Nat.pow 2 den.log2 := Nat.mul_right_comm _ _ _
        _ < den * Nat.pow 2 (a + 1) * Nat.pow 2 den.log2 :=
            Nat.mul_lt_mul_of_pos_right hu (two_pow_pos _)
        _ = den * Nat.pow 2 num.log2 * Nat.pow 2 b := by
            rw [Nat.mul_assoc, ← two_pow_add, ← h, two_pow_add, Nat.mul_assoc]
    rw [if_neg (mt (reaches_sub _ _).mp hreach)]
    omega

theorem floorLog2_of_eq {m k e : Nat} (hden : 0 < den) (hm : m ≠ 0)
    (h : num * Nat.pow 2 e = den * (m * Nat.pow 2 k)) :
    floorLog2 num den = (m.log2 + k : Nat) - e := by
  refine floorLog2_eq ?_ ?_
  · rw [two_pow_add]
    refine Nat.le_trans (Nat.mul_le_mul_left den ?_) (Nat.le_of_eq h.symm)
    exact Nat.mul_le_mul_right _ (Nat.log2_self_le hm)
  · refine Nat.lt_of_le_of_lt (Nat.le_of_eq h) (Nat.mul_lt_mul_of_pos_left ?_ hden)
    rw [Nat.add_right_comm, two_pow_add]
    exact Nat.mul_lt_mul_of_pos_right Nat.lt_log2_self (two_pow_pos _)

/-! ## Significands -/

theorem binadeSize_pos (f : Format) : 0 < f.binadeSize := two_pow_pos f.fractionBits

theorem significand_lt (f : Format) (code : Nat) :
    significand f code < Nat.pow 2 (f.fractionBits + 1) := by
  have hmod := Nat.mod_lt code (binadeSize_pos f)
  rw [two_pow_add, significand]
  change _ < f.binadeSize * 2
  split <;> omega

/-- A code counts its significand from the beginning of its binade. -/
theorem binade_add_significand (f : Format) (code : Nat) :
    binade f code * f.binadeSize + significand f code = code := by
  rw [binade, significand]
  split
  · rename_i h
    rw [Nat.div_eq_of_lt h, Nat.zero_sub, Nat.zero_mul, Nat.zero_add]
  · rename_i h
    obtain ⟨k, hk⟩ : ∃ k, code / f.binadeSize = k + 1 :=
      Nat.exists_eq_add_one.mpr (Nat.div_pos (Nat.le_of_not_lt h) (binadeSize_pos f))
    have hdiv := Nat.div_add_mod code f.binadeSize
    rw [hk, Nat.mul_add, Nat.mul_one, Nat.mul_comm] at hdiv
    rw [hk, Nat.add_sub_cancel]
    omega

/-- Above the first binade significands have all their bits. -/
theorem binade_eq_zero_or (f : Format) (code : Nat) :
    binade f code = 0 ∨ f.binadeSize ≤ significand f code := by
  rw [binade, significand]
  split
  · rename_i h
    exact .inl (by rw [Nat.div_eq_of_lt h])
  · exact .inr (Nat.le_add_right _ _)

theorem code_of_full {m k : Nat} (hl : f.binadeSize ≤ m) (hu : m < 2 * f.binadeSize) :
    significand f (k * f.binadeSize + m) = m ∧ binade f (k * f.binadeSize + m) = k := by
  obtain ⟨t, rfl⟩ : ∃ t, m = f.binadeSize + t := Nat.exists_eq_add_of_le hl
  have ht : t < f.binadeSize := by omega
  have hcode : k * f.binadeSize + (f.binadeSize + t) = t + (k + 1) * f.binadeSize := by
    rw [Nat.add_mul, Nat.one_mul]
    omega
  have hge : ¬ k * f.binadeSize + (f.binadeSize + t) < f.binadeSize := by omega
  refine ⟨?_, ?_⟩
  · rw [significand, if_neg hge, hcode, Nat.add_mul_mod_self_right, Nat.mod_eq_of_lt ht]
  · rw [binade, hcode, Nat.add_mul_div_right _ _ (binadeSize_pos f), Nat.div_eq_of_lt ht]
    omega

/-! ## Fractions that a format holds -/

theorem roundDiv_mul_left {q : Nat} (h : 0 < den) : roundDiv (den * q) den = q := by
  have hzero : ¬ 0 = den := Nat.ne_of_lt h
  simp [roundDiv, Nat.mul_div_cancel_left q h, Nat.mul_mod_right, hzero]

theorem nearestCode_of_eq {code : Nat} (hden : 0 < den)
    (h : num * f.scale = den * (significand f code * Nat.pow 2 (binade f code))) :
    nearestCode f num den = code := by
  have hcode := binade_add_significand f code
  rw [nearestCode]
  split
  · rename_i hnum
    rw [hnum, Nat.zero_mul] at h
    have hsig : significand f code = 0 := by
      rcases Nat.mul_eq_zero.mp h.symm with hz | hz
      · omega
      · exact (Nat.mul_eq_zero.mp hz).resolve_right (Nat.ne_of_gt (two_pow_pos _))
    have hbinade := (binade_eq_zero_or f code).resolve_right
      (by rw [hsig]; exact Nat.not_le_of_lt (binadeSize_pos f))
    rw [hsig, hbinade, Nat.zero_mul] at hcode
    exact hcode
  · rename_i hnum
    have hsig : significand f code ≠ 0 := by
      intro hz
      rw [hz, Nat.zero_mul, Nat.mul_zero] at h
      rcases Nat.mul_eq_zero.mp h with hz | hz
      · exact hnum hz
      · exact absurd hz (Nat.ne_of_gt (two_pow_pos _))
    have hlog := floorLog2_of_eq hden hsig h
    have hle : (significand f code).log2 < f.fractionBits + 1 :=
      (Nat.log2_lt hsig).mpr (significand_lt f code)
    have hlift : (floorLog2 num den + f.leastExponent - f.fractionBits).toNat
        = binade f code := by
      rw [hlog]
      rcases binade_eq_zero_or f code with hb | hb
      · omega
      · have hge : f.fractionBits ≤ (significand f code).log2 := (Nat.le_log2 hsig).mpr hb
        omega
    show (floorLog2 num den + f.leastExponent - f.fractionBits).toNat * f.binadeSize
      + roundDiv (num * f.scale) (den * Nat.pow 2 _) = code
    rw [hlift, h, Nat.mul_comm (significand f code), ← Nat.mul_assoc,
      roundDiv_mul_left (Nat.mul_pos hden (two_pow_pos _))]
    exact hcode

/-- A format holds every whole number of not too many bits times a power of
two that leaves room for the rest of its bits. -/
theorem exists_code {m j : Nat} (hm : m < 2 * f.binadeSize) (hj : f.fractionBits ≤ j) :
    ∃ code, significand f code * Nat.pow 2 (binade f code) = m * Nat.pow 2 j ∧
      code < (j + 2) * f.binadeSize := by
  cases m with
  | zero =>
      refine ⟨0, ?_, Nat.mul_pos (Nat.succ_pos _) (binadeSize_pos f)⟩
      rw [significand, if_pos (binadeSize_pos f), Nat.zero_mul, Nat.zero_mul]
  | succ n =>
      have hne : n + 1 ≠ 0 := Nat.succ_ne_zero n
      have hlog : (n + 1).log2 < f.fractionBits + 1 := by
        refine (Nat.log2_lt hne).mpr ?_
        rw [Nat.pow_add_one, Nat.mul_comm]
        exact hm
      obtain ⟨d, hd⟩ : ∃ d, f.fractionBits = (n + 1).log2 + d :=
        Nat.exists_eq_add_of_le (Nat.le_of_lt_succ hlog)
      have hsize : f.binadeSize = Nat.pow 2 (n + 1).log2 * Nat.pow 2 d := by
        rw [Format.binadeSize, hd, two_pow_add]
      have hlow : f.binadeSize ≤ (n + 1) * Nat.pow 2 d := by
        rw [hsize]
        exact Nat.mul_le_mul_right _ (Nat.log2_self_le hne)
      have hhigh : (n + 1) * Nat.pow 2 d < 2 * f.binadeSize := by
        have hdouble : 2 * f.binadeSize = Nat.pow 2 ((n + 1).log2 + 1) * Nat.pow 2 d := by
          rw [hsize, ← Nat.mul_assoc, two_pow_add, Nat.mul_comm 2]
        rw [hdouble]
        exact Nat.mul_lt_mul_of_pos_right Nat.lt_log2_self (two_pow_pos d)
      obtain ⟨hsig, hbinade⟩ := code_of_full (k := j - d) hlow hhigh
      refine ⟨(j - d) * f.binadeSize + (n + 1) * Nat.pow 2 d, ?_, ?_⟩
      · have hsum : d + (j - d) = j := by omega
        rw [hsig, hbinade, Nat.mul_assoc, ← two_pow_add, hsum]
      · have hle : (j - d) * f.binadeSize ≤ j * f.binadeSize :=
          Nat.mul_le_mul_right _ (Nat.sub_le j d)
        rw [Nat.add_mul j 2]
        exact Nat.add_lt_add_of_le_of_lt hle hhigh

/-! ## Widening and narrowing -/

theorem ofCode_of_lt (s : Bool) {code : Nat} (h : code < f.infinityCode) :
    ofCode s code = .finite s ⟨code, h⟩ := dif_pos h

theorem convert_finite {g : Format} {s : Bool} {code : Fin f.infinityCode} {other : Nat}
    (hlt : other < g.infinityCode)
    (h : significand f code * Nat.pow 2 (binade f code) * g.scale
      = f.scale * (significand g other * Nat.pow 2 (binade g other))) :
    convert g (.finite s code) = .finite s ⟨other, hlt⟩ := by
  have hcode := nearestCode_of_eq (two_pow_pos f.leastExponent) h
  rw [← ofCode_of_lt s hlt, ← hcode]
  rfl

/-- Of two formats, how many of the finer one's least magnitudes make one of
the other's. -/
theorem scale_of_leastExponent {g : Format} {k : Nat}
    (h : g.leastExponent = f.leastExponent + k) : g.scale = f.scale * Nat.pow 2 k := by
  rw [Format.scale, Format.scale, h, two_pow_add]

theorem leastExponent_double : ∃ k, 52 ≤ k ∧ k ≤ 925 ∧
    Format.double.leastExponent = Format.single.leastExponent + k :=
  ⟨925, by decide⟩

/-- Every magnitude of 32 bits is one of 64 bits. -/
theorem exists_double_code (code : Fin Format.single.infinityCode) :
    ∃ wide < Format.double.infinityCode,
      significand .single code * Nat.pow 2 (binade .single code) * Format.double.scale
        = Format.single.scale * (significand .double wide * Nat.pow 2 (binade .double wide)) := by
  obtain ⟨k, hlow, hhigh, hexponent⟩ := leastExponent_double
  have hsig : significand .single code < 2 * Format.double.binadeSize :=
    Nat.lt_of_lt_of_le (significand_lt .single code) (by decide)
  have hbinade : binade .single code < 255 :=
    Nat.lt_of_le_of_lt (Nat.sub_le _ 1)
      ((Nat.div_lt_iff_lt_mul (binadeSize_pos .single)).mpr code.isLt)
  obtain ⟨wide, hwide, hlt⟩ := exists_code (f := .double) (j := binade .single code + k) hsig
    (Nat.le_trans hlow (Nat.le_add_left _ _))
  refine ⟨wide, Nat.lt_of_lt_of_le hlt ?_, ?_⟩
  · exact Nat.le_trans (Nat.mul_le_mul_right _ (show _ ≤ 1181 by omega)) (by decide)
  · rw [hwide, scale_of_leastExponent hexponent, two_pow_add, Nat.mul_left_comm, Nat.mul_assoc]

theorem narrow_widen (x : Single) : narrow (widen x) = x := by
  cases x with
  | nan => rfl
  | infinity s => rfl
  | finite s code =>
      obtain ⟨wide, hlt, hwide⟩ := exists_double_code code
      rw [widen, convert_finite hlt hwide, narrow]
      refine convert_finite code.isLt ?_
      rw [Nat.mul_comm, ← hwide, Nat.mul_comm]

end Binary

end XmlRpc
