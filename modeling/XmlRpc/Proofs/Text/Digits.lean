/-
# Digits and the numbers they denote

`Nat.ofDigitChars` is what digits denote, zeros in front included.  The readers
and the writers of numerals are about it:

    decimal?   the number of one digit or more (`decimal?_eq_some_iff`)
    signed?    the same behind one sign at most (`signed?_eq_some_iff`)
    padded     gives digits back from their number and their count
    ofNat      gives them back if no zero stands in front
-/
import Mathlib.Data.List.Basic
import Mathlib.Data.List.Induction
import XmlRpc.Proofs.Text.Numeral

namespace XmlRpc

namespace Numeral

variable {cs ds : List Char}

/-! ## Readers -/

theorem decimalDigit?_of_isDigit {c : Char} (h : c.isDigit = true) :
    decimalDigit? c = some (c.toNat - '0'.toNat) := if_pos h

theorem decimalDigit?_of_not_isDigit {c : Char} (h : ¬ c.isDigit = true) :
    decimalDigit? c = none := if_neg h

theorem digits?_eq_some_iff {acc n : Nat} :
    digits? 10 decimalDigit? acc cs = some n ↔
      (∀ c ∈ cs, c.isDigit = true) ∧ Nat.ofDigitChars 10 cs acc = n := by
  induction cs generalizing acc with
  | nil => simp [digits?]
  | cons c cs ih =>
      rw [digits?, List.forall_mem_cons, Nat.ofDigitChars_cons]
      by_cases hc : c.isDigit = true
      · rw [decimalDigit?_of_isDigit hc, Nat.mul_comm 10 acc, and_iff_right hc]
        exact ih
      · rw [decimalDigit?_of_not_isDigit hc]
        exact iff_of_false (by simp) fun h => hc h.1.1

structure IsDigits (ds : List Char) : Prop where
  ne_nil : ds ≠ []
  isDigit : ∀ c ∈ ds, c.isDigit = true

theorem decimal?_eq_some_iff {n : Nat} :
    decimal? cs = some n ↔ IsDigits cs ∧ Nat.ofDigitChars 10 cs 0 = n := by
  by_cases hne : cs = []
  · subst hne
    exact iff_of_false nofun fun h => h.1.ne_nil rfl
  · rw [decimal?_of_ne_nil hne, digits?_eq_some_iff]
    refine and_congr_left' ?_
    exact ⟨fun h => ⟨hne, h⟩, fun h => h.isDigit⟩

/-- Digits behind one sign at most, and the integer that they denote. -/
inductive SignedNumeral : List Char → Int → Prop where
  | bare {ds : List Char} : IsDigits ds → SignedNumeral ds (Nat.ofDigitChars 10 ds 0)
  | plus {ds : List Char} : IsDigits ds → SignedNumeral ('+' :: ds) (Nat.ofDigitChars 10 ds 0)
  | minus {ds : List Char} : IsDigits ds → SignedNumeral ('-' :: ds) (-Nat.ofDigitChars 10 ds 0)

theorem isDigits_of_map {sign : Int → Int} {i : Int}
    (h : ((decimal? cs).bind fun n => some (n : Int)).map sign = some i) :
    IsDigits cs ∧ sign (Nat.ofDigitChars 10 cs 0) = i := by
  obtain ⟨_, hread, rfl⟩ := Option.map_eq_some_iff.mp h
  obtain ⟨n, hn, hcast⟩ := Option.bind_eq_some_iff.mp hread
  obtain ⟨hds, rfl⟩ := decimal?_eq_some_iff.mp hn
  cases hcast
  exact ⟨hds, rfl⟩

theorem signedNumeral_of_signed? {i : Int} (h : signed? cs = some i) : SignedNumeral cs i := by
  unfold signed? at h
  split at h
  · obtain ⟨hds, rfl⟩ := isDigits_of_map h
    exact .minus hds
  · obtain ⟨hds, rfl⟩ := isDigits_of_map h
    exact .plus hds
  · obtain ⟨hds, rfl⟩ := isDigits_of_map h
    exact .bare hds

theorem signed?_eq_some_iff {i : Int} : signed? cs = some i ↔ SignedNumeral cs i := by
  refine ⟨signedNumeral_of_signed?, ?_⟩
  intro h
  cases h with
  | bare hds => rw [signed?_of_isDigit hds.isDigit, decimal?_eq_some_iff.mpr ⟨hds, rfl⟩]; rfl
  | plus hds => rw [signed?, decimal?_eq_some_iff.mpr ⟨hds, rfl⟩]; rfl
  | minus hds => rw [signed?, decimal?_eq_some_iff.mpr ⟨hds, rfl⟩]; rfl

/-! ## Writers -/

theorem ofDigitChars_ofNat (n : Nat) : Nat.ofDigitChars 10 (ofNat n) 0 = n :=
  Nat.ofDigitChars_ten_toDigits

theorem digitChar_of_isDigit {c : Char} (h : c.isDigit = true) :
    c.toNat - '0'.toNat < 10 ∧ (c.toNat - '0'.toNat).digitChar = c := by
  have hge : 48 ≤ c.toNat := (Char.isDigit_iff_toNat.mp h).1
  have hle : c.toNat ≤ 57 := (Char.isDigit_iff_toNat.mp h).2
  have hzero : '0'.toNat = 48 := rfl
  have hlt : c.toNat - '0'.toNat < 10 := by omega
  refine ⟨hlt, Char.toNat_inj.mp ?_⟩
  rw [Nat.toNat_digitChar_of_lt_ten hlt]
  omega

theorem ofNat_of_ten_le {n : Nat} (h : 10 ≤ n) : ofNat n = ofNat (n / 10) ++ [(n % 10).digitChar] :=
  Nat.toDigits_of_base_le (by decide) h

theorem padded_succ {w : Nat} (hw : 0 < w) (n : Nat) :
    padded (w + 1) n = padded w (n / 10) ++ [(n % 10).digitChar] := by
  rcases Nat.lt_or_ge n 10 with hn | hn
  · have hone : ofNat n = [n.digitChar] := Nat.toDigits_of_lt_base hn
    obtain ⟨k, rfl⟩ : ∃ k, w = k + 1 := ⟨w - 1, by omega⟩
    rw [Nat.div_eq_of_lt hn, Nat.mod_eq_of_lt hn, padded, hone, padded]
    show List.replicate (k + 1) '0' ++ _ = List.replicate k '0' ++ ['0'] ++ _
    rw [List.replicate_succ']
  · have hsub : w + 1 - ((ofNat (n / 10)).length + 1) = w - (ofNat (n / 10)).length := by omega
    rw [padded, ofNat_of_ten_le hn, List.length_append, List.length_singleton, hsub,
      ← List.append_assoc]
    rfl

theorem padded_ofDigitChars (h : IsDigits ds) :
    padded ds.length (Nat.ofDigitChars 10 ds 0) = ds := by
  obtain ⟨hne, h⟩ := h
  induction ds using List.reverseRecOn with
  | nil => exact absurd rfl hne
  | append_singleton ds c ih =>
      obtain ⟨hlt, hc⟩ := digitChar_of_isDigit (h c (List.mem_append_right _ List.mem_cons_self))
      rw [Nat.ofDigitChars_append, Nat.ofDigitChars_cons, Nat.ofDigitChars_nil, List.length_append,
        List.length_singleton]
      generalize c.toNat - '0'.toNat = d at hlt hc
      subst hc
      by_cases hds : ds = []
      · subst hds
        rw [Nat.ofDigitChars_nil, Nat.mul_zero, Nat.zero_add, padded, ofNat,
          Nat.toDigits_of_lt_base hlt]
        rfl
      · have hdiv : (10 * Nat.ofDigitChars 10 ds 0 + d) / 10 = Nat.ofDigitChars 10 ds 0 := by omega
        have hmod : (10 * Nat.ofDigitChars 10 ds 0 + d) % 10 = d := by omega
        rw [padded_succ (List.length_pos_iff.mpr hds), hdiv, hmod,
          ih hds fun e he => h e (List.mem_append_left _ he)]

theorem ofDigitChars_lt (h : IsDigits ds) : Nat.ofDigitChars 10 ds 0 < Nat.pow 10 ds.length := by
  have hpos : 0 < ds.length := List.length_pos_iff.mpr h.ne_nil
  refine (Nat.length_toDigits_le_iff (by decide) hpos).mp ?_
  have hlen := congrArg List.length (padded_ofDigitChars h)
  rw [padded, List.length_append] at hlen
  exact Nat.le_of_add_left_le (Nat.le_of_eq hlen)

/-- Digits with no zero in front, unless it is the only one. -/
structure IsShortest (ds : List Char) : Prop extends IsDigits ds where
  eq_zero : ds.head? = some '0' → ds = ['0']

theorem eq_zero_of_ofNat {n : Nat} (h : ofNat n = ['0']) : n = 0 := by
  have hvalue := ofDigitChars_ofNat n
  rw [h] at hvalue
  exact hvalue.symm

theorem isShortest_ofNat (n : Nat) : IsShortest (ofNat n) := by
  refine ⟨⟨ofNat_ne_nil n, isDigit_ofNat n⟩, ?_⟩
  induction n using Nat.strongRecOn with
  | ind n ih =>
      intro h
      rcases Nat.lt_or_ge n 10 with hn | hn
      · rw [ofNat, Nat.toDigits_of_lt_base hn] at h ⊢
        exact congrArg (· :: []) (Option.some.inj h)
      · rw [ofNat_of_ten_le hn, List.head?_append_of_ne_nil _ (ofNat_ne_nil _)] at h
        have hq := eq_zero_of_ofNat (ih (n / 10) (by omega) h)
        omega

/-- Digits without a zero in front are the numeral of their number. -/
theorem ofNat_ofDigitChars (h : IsShortest ds) : ofNat (Nat.ofDigitChars 10 ds 0) = ds := by
  obtain ⟨⟨hne, h⟩, hzero⟩ := h
  induction ds using List.reverseRecOn with
  | nil => exact absurd rfl hne
  | append_singleton ds c ih =>
      obtain ⟨hlt, hc⟩ := digitChar_of_isDigit (h c (List.mem_append_right _ List.mem_cons_self))
      rw [Nat.ofDigitChars_append, Nat.ofDigitChars_cons, Nat.ofDigitChars_nil]
      generalize c.toNat - '0'.toNat = d at hlt hc
      subst hc
      by_cases hds : ds = []
      · subst hds
        rw [Nat.ofDigitChars_nil, Nat.mul_zero, Nat.zero_add]
        exact Nat.toDigits_of_lt_base hlt
      · have hhead : ds.head? ≠ some '0' := by
          intro hhead
          have hone := congrArg List.length
            (hzero ((List.head?_append_of_ne_nil _ hds).trans hhead))
          rw [List.length_append] at hone
          exact hds (List.length_eq_zero_iff.mp (Nat.succ.inj hone))
        have hdigits := ih (fun hhead' => absurd hhead' hhead) hds
          fun e he => h e (List.mem_append_left _ he)
        have hpos : Nat.ofDigitChars 10 ds 0 ≠ 0 := by
          intro hvalue
          rw [hvalue] at hdigits
          exact hhead (hdigits ▸ rfl)
        have hdiv : (10 * Nat.ofDigitChars 10 ds 0 + d) / 10 = Nat.ofDigitChars 10 ds 0 := by omega
        have hmod : (10 * Nat.ofDigitChars 10 ds 0 + d) % 10 = d := by omega
        rw [ofNat_of_ten_le (by omega), hdiv, hmod, hdigits]

end Numeral

end XmlRpc
