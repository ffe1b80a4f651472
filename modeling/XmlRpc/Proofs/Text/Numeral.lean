/-
# Numerals read back

What `ofNat`, `padded` and `ofInt` write denotes the number that it was
written for.

    ofNat n      digits, at least one, and no zeros in front
    padded w n   w digits, if n has no more
    ofInt i      digits, behind `-` where i is negative
-/
import Mathlib.Data.List.TakeDrop
import Mathlib.Tactic.Ring
import XmlRpc.Text.Numeral

namespace XmlRpc

namespace Numeral

/-! ## Runs -/

/-- A list is cut behind a run, in front of what does not belong to it. -/
theorem span_run {p : Char → Bool} {cs r : List Char} (h : ∀ c ∈ cs, p c = true)
    (hr : ∀ c ∈ r.head?, p c = false) : (cs ++ r).span p = (cs, r) := by
  rw [List.span_eq_takeWhile_dropWhile, List.takeWhile_append_of_pos h,
    List.dropWhile_append_of_pos h]
  cases r with
  | nil => simp
  | cons c r => simp [hr c rfl]

/-! ## Digits -/

theorem isSome_decimalDigit? (c : Char) : (decimalDigit? c).isSome = c.isDigit := by
  rw [decimalDigit?]
  split <;> rename_i h
  · exact h.symm
  · exact (Bool.eq_false_iff.mpr h).symm

theorem decimalDigit?_digitChar {d : Nat} (h : d < 10) : decimalDigit? d.digitChar = some d := by
  have hd : ('0' ≤ d.digitChar && d.digitChar ≤ '9') = true :=
    Nat.isDigit_digitChar.trans (decide_eq_true h)
  rw [decimalDigit?, if_pos hd]
  exact congrArg some (Nat.toNat_digitChar_sub_48_of_lt_ten h)

theorem digits?_append {base : Nat} {digit? : Char → Option Nat} (cs ds : List Char) (acc : Nat) :
    digits? base digit? acc (cs ++ ds)
      = (digits? base digit? acc cs).bind fun n => digits? base digit? n ds := by
  induction cs generalizing acc with
  | nil => rfl
  | cons c cs ih =>
      rw [List.cons_append, digits?, digits?]
      cases digit? c with
      | none => rfl
      | some d => exact ih (acc * base + d)

theorem digits?_isSome {cs : List Char} (h : ∀ c ∈ cs, c.isDigit = true) (acc : Nat) :
    ∃ n, digits? 10 decimalDigit? acc cs = some n := by
  induction cs generalizing acc with
  | nil => exact ⟨acc, rfl⟩
  | cons c cs ih =>
      have hc := h c List.mem_cons_self
      rw [← isSome_decimalDigit?] at hc
      obtain ⟨d, hd⟩ := Option.isSome_iff_exists.mp hc
      obtain ⟨n, hn⟩ := ih (fun e he => h e (List.mem_cons_of_mem _ he)) (acc * 10 + d)
      exact ⟨n, by rw [digits?, hd]; exact hn⟩

theorem decimal?_of_ne_nil {cs : List Char} (h : cs ≠ []) :
    decimal? cs = digits? 10 decimalDigit? 0 cs := by
  cases cs with
  | nil => exact absurd rfl h
  | cons c cs => rfl

theorem decimal?_isSome {cs : List Char} (hne : cs ≠ []) (h : ∀ c ∈ cs, c.isDigit = true) :
    ∃ n, decimal? cs = some n := by
  rw [decimal?_of_ne_nil hne]
  exact digits?_isSome h 0

/-- Digits behind a number count less than its last one. -/
theorem digits?_acc (acc : Nat) (cs : List Char) :
    digits? 10 decimalDigit? acc cs
      = (digits? 10 decimalDigit? 0 cs).map (acc * Nat.pow 10 cs.length + ·) := by
  induction cs generalizing acc with
  | nil => exact congrArg some (Nat.mul_one acc).symm
  | cons c cs ih =>
      rw [digits?, digits?]
      cases decimalDigit? c with
      | none => rfl
      | some d =>
          show digits? 10 decimalDigit? (acc * 10 + d) cs
            = (digits? 10 decimalDigit? (0 * 10 + d) cs).map _
          rw [ih (acc * 10 + d), ih (0 * 10 + d), Option.map_map]
          refine congrArg (Option.map · _) (funext fun n => ?_)
          have hpow : Nat.pow 10 (c :: cs).length = Nat.pow 10 cs.length * 10 := rfl
          simp only [Function.comp_apply, hpow]
          ring

/-! ## Numbers -/

theorem ofNat_ne_nil (n : Nat) : ofNat n ≠ [] := Nat.toDigits_ne_nil

theorem isDigit_ofNat (n : Nat) : ∀ c ∈ ofNat n, c.isDigit = true := fun _ hc =>
  Nat.isDigit_of_mem_toDigits (by decide) (by decide) hc

/-- The last digit is the remainder, and those before it are the quotient. -/
theorem digits?_ofNat (n : Nat) : digits? 10 decimalDigit? 0 (ofNat n) = some n := by
  induction n using Nat.strongRecOn with
  | ind n ih =>
      rcases Nat.lt_or_ge n 10 with hn | hn
      · rw [ofNat, Nat.toDigits_of_lt_base hn, digits?, decimalDigit?_digitChar hn]
        simp [digits?]
      · have hq := ih (n / 10) (by omega)
        have hr : n % 10 < 10 := Nat.mod_lt n (by decide)
        rw [ofNat] at hq ⊢
        rw [Nat.toDigits_of_base_le (by decide) hn, digits?_append, hq, Option.bind_some, digits?,
          decimalDigit?_digitChar hr]
        exact congrArg some (Nat.div_add_mod' n 10)

theorem decimal?_ofNat (n : Nat) : decimal? (ofNat n) = some n := by
  rw [decimal?_of_ne_nil (ofNat_ne_nil n), digits?_ofNat]

theorem digits?_zeros (k : Nat) (cs : List Char) :
    digits? 10 decimalDigit? 0 (List.replicate k '0' ++ cs) = digits? 10 decimalDigit? 0 cs := by
  induction k with
  | zero => rfl
  | succ k ih => exact ih

theorem padded_ne_nil (w n : Nat) : padded w n ≠ [] := by
  rw [padded]
  exact List.append_ne_nil_of_right_ne_nil _ (ofNat_ne_nil n)

theorem isDigit_padded (w n : Nat) : ∀ c ∈ padded w n, c.isDigit = true := by
  intro c hc
  rcases List.mem_append.mp hc with hc | hc
  · rw [List.eq_of_mem_replicate hc]
    rfl
  · exact isDigit_ofNat n c hc

theorem decimal?_padded (w n : Nat) : decimal? (padded w n) = some n := by
  rw [decimal?_of_ne_nil (padded_ne_nil w n), padded, digits?_zeros, digits?_ofNat]

theorem length_padded {w n : Nat} (hw : 0 < w) (h : n < Nat.pow 10 w) :
    (padded w n).length = w := by
  have hlen : (ofNat n).length ≤ w := (Nat.length_toDigits_le_iff (by decide) hw).mpr h
  rw [padded, List.length_append, List.length_replicate]
  omega

/-! ## Integers -/

theorem signed?_of_isDigit {cs : List Char} (h : ∀ c ∈ cs, c.isDigit = true) :
    signed? cs = (decimal? cs).map fun n => (n : Int) := by
  rw [signed?.eq_3]
  · rintro r rfl
    exact absurd (h _ List.mem_cons_self) (by decide)
  · rintro r rfl
    exact absurd (h _ List.mem_cons_self) (by decide)

theorem signed?_ofInt (i : Int) : signed? (ofInt i) = some i := by
  cases i with
  | ofNat n =>
      rw [ofInt, signed?_of_isDigit (isDigit_ofNat n), decimal?_ofNat]
      rfl
  | negSucc n =>
      rw [ofInt, signed?, decimal?_ofNat]
      rfl

theorem toInt64?_toInt (i : Int64) : toInt64? i.toInt = some i := by
  have hlo := i.le_toInt
  have hhi := i.toInt_lt
  rw [toInt64?, if_pos ⟨hlo, Int.le_of_lt_add_one hhi⟩, Int64.ofInt_toInt]

end Numeral

end XmlRpc
