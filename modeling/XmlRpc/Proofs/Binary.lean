/-
# Numbers read back

Trimming the whole text of a finite number trims the digits behind its point
(`toText_finite`).  So the text denotes a number again: of NaN and of the
infinities the same one, of a finite number the one nearest to its text.
`reread` is that number.
-/
import Mathlib.Data.List.Basic
import XmlRpc.Binary.Decimal
import XmlRpc.Proofs.Text.Numeral

namespace XmlRpc

namespace Binary

variable {f : Format}

/-- The number that is read where this one was written: a finite number as it
stands in its text, and any other itself. -/
def reread : Binary f → Binary f
  | .nan => .nan
  | .infinity s => .infinity s
  | .finite s code => (ofText? f (toText (.finite s code))).getD (.finite s code)

/-! ## Trimming -/

/-- The digits behind the point: as few as show the number, at least one. -/
def fractionDigits (n : Nat) : List Char :=
  match dropZeros (Numeral.padded places n) with
  | [] => ['0']
  | ds => ds

/-- A count of millionths, without superfluous places. -/
def trimmedText (millionths : Nat) : List Char :=
  Numeral.ofNat (millionths / placesScale)
    ++ '.' :: fractionDigits (millionths % placesScale)

/-- The count of millionths that a magnitude is written as. -/
def millionths (f : Format) (code : Nat) : Nat :=
  roundDiv ((fraction f code).1 * placesScale) f.scale

/-- What stands in front of a point is not trimmed. -/
theorem dropZeros_point (cs ds : List Char) :
    dropZeros (cs ++ '.' :: ds) = cs ++ '.' :: dropZeros ds := by
  have hpoint : ('.' :: cs.reverse).dropWhile (· == '0') = '.' :: cs.reverse :=
    List.dropWhile_cons_of_neg (by decide)
  have hdrop : (ds.reverse ++ '.' :: cs.reverse).dropWhile (· == '0')
      = ds.reverse.dropWhile (· == '0') ++ '.' :: cs.reverse := by
    rw [List.dropWhile_append, hpoint]
    split
    · rename_i hempty
      rw [List.isEmpty_iff.mp hempty]
      rfl
    · rfl
  rw [dropZeros, List.reverse_append, List.reverse_cons, List.append_assoc, List.singleton_append,
    hdrop, List.reverse_append, List.reverse_cons, List.reverse_reverse, List.append_assoc,
    List.singleton_append, dropZeros]

theorem mem_of_mem_dropZeros {c : Char} {cs : List Char} (h : c ∈ dropZeros cs) : c ∈ cs := by
  rw [dropZeros, List.mem_reverse] at h
  exact List.mem_reverse.mp ((List.dropWhile_sublist _).subset h)

theorem trimZeros_of_not_mem {cs : List Char} (h : '.' ∉ cs) : trimZeros cs = cs := by
  rw [trimZeros, if_neg]
  rwa [List.contains_iff_mem]

/-- Trimming a text with a point trims the digits behind it. -/
theorem trimZeros_placesText (s : Bool) (n : Nat) :
    trimZeros (signText s ++ placesText n) = signText s ++ trimmedText n := by
  have hpoint : (signText s ++ placesText n).contains '.' = true := by
    rw [List.contains_iff_mem]
    exact List.mem_append_right _ (List.mem_append_right _ List.mem_cons_self)
  have hdrop : dropZeros (signText s ++ placesText n)
      = (signText s ++ Numeral.ofNat (n / placesScale))
        ++ '.' :: dropZeros (Numeral.padded places (n % placesScale)) := by
    rw [placesText, ← List.append_assoc, dropZeros_point]
  rw [trimZeros, if_pos hpoint, hdrop, trimmedText, fractionDigits]
  cases hds : dropZeros (Numeral.padded places (n % placesScale)) with
  | nil => simp
  | cons c cs =>
      have hlast : ((signText s ++ Numeral.ofNat (n / placesScale))
          ++ '.' :: c :: cs).getLast? ≠ some '.' := by
        rw [List.getLast?_append_cons, List.getLast?_cons_cons]
        intro h
        have hmem := mem_of_mem_dropZeros (hds ▸ List.mem_of_getLast? h)
        exact absurd (Numeral.isDigit_padded places _ _ hmem) (by decide)
      rw [if_neg (by simpa using hlast), List.append_assoc]

theorem toText_nan : toText (nan : Binary f) = ['N', 'a', 'N'] := by
  have hpoint : '.' ∉ ['N', 'a', 'N'] := by decide
  exact trimZeros_of_not_mem hpoint

theorem toText_infinity (s : Bool) :
    toText (infinity s : Binary f) = signText s ++ ['i', 'n', 'f'] := by
  have hpoint : '.' ∉ signText s ++ ['i', 'n', 'f'] := by cases s <;> decide
  exact trimZeros_of_not_mem hpoint

theorem toText_finite (s : Bool) (code : Fin f.infinityCode) :
    toText (.finite s code) = signText s ++ trimmedText (millionths f code) :=
  trimZeros_placesText s _

/-! ## The digits of a text -/

theorem isDigit_fractionDigits (n : Nat) : ∀ c ∈ fractionDigits n, c.isDigit = true := by
  intro c hc
  rw [fractionDigits] at hc
  split at hc
  · rw [List.mem_singleton.mp hc]
    rfl
  · exact Numeral.isDigit_padded places n c (mem_of_mem_dropZeros hc)

theorem spanDigits_run {ds r : List Char} (h : ∀ c ∈ ds, c.isDigit = true)
    (hr : ∀ c ∈ r.head?, c.isDigit = false) : spanDigits (ds ++ r) = (ds, r) := by
  refine Numeral.span_run ?_ ?_
  · intro c hc
    rw [Numeral.isSome_decimalDigit?]
    exact h c hc
  · intro c hc
    rw [Numeral.isSome_decimalDigit?]
    exact hr c hc

/-! ## Reading -/

/-- Digits, a point and digits are the number of all digits, with as many places
as stand behind the point. -/
theorem unsigned?_point (f : Format) (negative : Bool) {whole part : List Char} {n : Nat}
    (hw : ∀ c ∈ whole, c.isDigit = true) (hp : ∀ c ∈ part, c.isDigit = true)
    (hn : Numeral.decimal? (whole ++ part) = some n) :
    unsigned? f negative (whole ++ '.' :: part)
      = some (ofDecimal f negative (whole ++ part).length n (0 - part.length)) := by
  have hwhole := spanDigits_run (r := '.' :: part) hw (by simp)
  have hpart := spanDigits_run (r := []) hp (by simp)
  rw [List.append_nil] at hpart
  simp only [unsigned?, hwhole, hpart, hn, exponent?]

/-- What begins with a digit is no word. -/
theorem ofText?_signed {cs : List Char} {c : Char} (hc : c.isDigit = true) (s : Bool) :
    ofText? f (signText s ++ c :: cs) = unsigned? f s (c :: cs) := by
  have hlower : lowerAscii c = c := by
    refine if_neg ?_
    intro h
    simp only [Bool.and_eq_true, decide_eq_true_eq] at h
    have hle : c.toNat ≤ 57 := (Char.isDigit_iff_toNat.mp hc).2
    have hge : 65 ≤ c.toNat := UInt32.le_iff_toNat_le.mp h.1
    omega
  have hn : c ≠ 'n' := by rintro rfl; exact absurd hc (by decide)
  have hi : c ≠ 'i' := by rintro rfl; exact absurd hc (by decide)
  have hsign : takeSign (signText s ++ c :: cs) = (s, c :: cs) := by
    cases s with
    | true => rfl
    | false =>
        show takeSign (c :: cs) = _
        rw [takeSign.eq_3]
        · rintro r hr
          cases hr
          exact absurd hc (by decide)
        · rintro r hr
          cases hr
          exact absurd hc (by decide)
  simp [ofText?, hsign, hlower, hn, hi]

theorem ofText?_trimmedText (f : Format) (s : Bool) (n : Nat) :
    ofText? f (signText s ++ trimmedText n) = unsigned? f s (trimmedText n) := by
  have hw := Numeral.isDigit_ofNat (n / placesScale)
  rw [trimmedText]
  cases h : Numeral.ofNat (n / placesScale) with
  | nil => exact absurd h (Numeral.ofNat_ne_nil _)
  | cons c cs =>
      rw [h] at hw
      exact ofText?_signed (hw c List.mem_cons_self) s

theorem exists_ofText?_trimmedText (f : Format) (s : Bool) (n : Nat) :
    ∃ x, ofText? f (signText s ++ trimmedText n) = some x := by
  have hw := Numeral.isDigit_ofNat (n / placesScale)
  have hp := isDigit_fractionDigits (n % placesScale)
  obtain ⟨m, hm⟩ := Numeral.decimal?_isSome
    (List.append_ne_nil_of_left_ne_nil (Numeral.ofNat_ne_nil (n / placesScale)) _)
    (List.forall_mem_append.mpr ⟨hw, hp⟩)
  exact ⟨_, (ofText?_trimmedText f s n).trans (unsigned?_point f s hw hp hm)⟩

theorem ofText?_toText (x : Binary f) : ofText? f x.toText = some x.reread := by
  cases x with
  | nan => rw [toText_nan]; rfl
  | infinity s => rw [toText_infinity]; cases s <;> rfl
  | finite s code =>
      obtain ⟨y, hy⟩ := exists_ofText?_trimmedText f s (millionths f code)
      rw [reread, toText_finite, hy]
      rfl

end Binary

end XmlRpc
