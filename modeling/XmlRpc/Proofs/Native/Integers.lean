/-
# Whole numbers on their way

No whole number becomes another one (`integers_exact`):

    text to int      a numeral with one sign at most is read as its number, if
                     64 bits hold it; any other text is refused
    int to slot      stored as it is, if the type of the slot holds it; else the
                     slot keeps what it has
    native to int    the same number, or nil where 64 bits with a sign do not
                     hold it
-/
import XmlRpc.Proofs.Document.Scalars
import XmlRpc.Proofs.Native.RoundTrip
import XmlRpc.Proofs.Text.Digits

namespace XmlRpc

open Numeral (SignedNumeral)

/-! ## Texts of ints -/

namespace Numeral

theorem toInt64?_eq_some_iff {i : Int} {n : Int64} : toInt64? i = some n ↔ n.toInt = i := by
  constructor
  · intro h
    rw [toInt64?] at h
    split at h
    · rename_i hrange
      cases h
      exact Int64.toInt_ofInt_of_le hrange.1 (Int.lt_add_one_of_le hrange.2)
    · cases h
  · rintro rfl
    exact toInt64?_toInt n

end Numeral

namespace Document

variable {tag : Tag} {text : String}

theorem int?_eq_some_iff {n : Int64} :
    int? text = some n ↔ SignedNumeral text.toList n.toInt := by
  rw [int?, Option.bind_eq_some_iff]
  constructor
  · rintro ⟨i, hi, hn⟩
    rw [Numeral.toInt64?_eq_some_iff.mp hn]
    exact Numeral.signed?_eq_some_iff.mp hi
  · intro h
    exact ⟨n.toInt, Numeral.signed?_eq_some_iff.mpr h, Numeral.toInt64?_toInt n⟩

theorem scalar_of_int (ht : tag = .int ∨ tag = .i4) :
    scalar tag text = (int? text).elim (.error (.badInt text)) fun n => .ok (.int n) := by
  rcases ht with rfl | rfl <;> rw [scalar] <;> cases int? text <;> rfl

theorem scalar_int_iff (ht : tag = .int ∨ tag = .i4) {n : Int64} :
    scalar tag text = .ok (.int n) ↔ SignedNumeral text.toList n.toInt := by
  rw [scalar_of_int ht, ← int?_eq_some_iff]
  cases int? text with
  | none => exact iff_of_false nofun nofun
  | some m =>
      constructor
      · intro h
        cases h
        rfl
      · intro h
        cases h
        rfl

theorem scalar_int_error (ht : tag = .int ∨ tag = .i4)
    (h : ∀ n : Int64, ¬ SignedNumeral text.toList n.toInt) :
    scalar tag text = .error (.badInt text) := by
  rw [scalar_of_int ht]
  cases hn : int? text with
  | none => rfl
  | some n => exact absurd (int?_eq_some_iff.mp hn) (h n)

end Document

/-! ## Types of whole numbers -/

namespace Native

namespace IntType

def bits : IntType → Nat
  | .i8 | .u8 => 8
  | .i16 | .u16 => 16
  | .i32 | .u32 => 32
  | .i64 | .u64 | .isize | .usize => 64

def isSigned : IntType → Bool
  | .i8 | .i16 | .i32 | .i64 | .isize => true
  | .u8 | .u16 | .u32 | .u64 | .usize => false

/-- Whether the bits of a type represent a number, negative ones in two's
complement. -/
def Represents (t : IntType) (i : Int) : Prop :=
  if t.isSigned then -2 ^ (t.bits - 1) ≤ i ∧ i < 2 ^ (t.bits - 1) else 0 ≤ i ∧ i < 2 ^ t.bits

theorem holds_iff (t : IntType) (i : Int) : t.holds i = true ↔ t.Represents i := by
  rw [holds, Bool.and_eq_true, decide_eq_true_eq, decide_eq_true_eq, Represents]
  cases t <;> simp only [least, greatest, isSigned, bits, if_true, if_false, reduceCtorEq] <;> omega

instance (t : IntType) (i : Int) : Decidable (t.Represents i) :=
  decidable_of_iff (t.holds i = true) (t.holds_iff i)

end IntType

variable {Γ : Schema} {t : IntType} {x : Native}

theorem project_int_of_represents {n : Int64} (h : t.Represents n.toInt) :
    project Γ (.int n) (.int t) x = .done (.int n.toInt) :=
  if_pos ((t.holds_iff n.toInt).mpr h)

theorem project_int_of_not_represents {n : Int64} (h : ¬ t.Represents n.toInt) :
    project Γ (.int n) (.int t) x = .refused x (.outOfRange n t.name) :=
  if_neg (mt (t.holds_iff n.toInt).mp h)

theorem toValue_int_of_represents {i : Int} (h : t.Represents i) (hlt : i < 2 ^ 63) :
    ∃ n : Int64, n.toInt = i ∧ (Native.int i).toValue = .int n := by
  have hholds := (t.holds_iff i).mpr h
  have hle : t.least ≤ i := by
    simp only [IntType.holds, Bool.and_eq_true, decide_eq_true_eq] at hholds
    exact hholds.1
  exact intValue_eq (t.least_le.trans hle) (Int.le_of_lt_add_one hlt)

theorem toValue_int_of_le {i : Int} (h : 2 ^ 63 ≤ i) : (Native.int i).toValue = .nil := by
  have hnone : Numeral.toInt64? i = none := if_neg (by omega)
  rw [toValue, intValue, hnone]

open Document (HoldsScalar scalar)

/-- A text is read as an int exactly if it is a numeral of 64 bits, an int goes into
a slot exactly if the type of the slot holds it, and a number is sent as an int
exactly if 64 bits hold it; in all three the number stays the same. -/
theorem integers_exact (Γ : Schema) :
    (∀ (tag : Tag) (text : String), tag = .int ∨ tag = .i4 →
      (∀ z : Int, (∃ n : Int64, n.toInt = z ∧ scalar tag text = .ok (.int n)) ↔
        SignedNumeral text.toList z ∧ -2 ^ 63 ≤ z ∧ z < 2 ^ 63) ∧
      ((¬ ∃ z : Int, SignedNumeral text.toList z ∧ -2 ^ 63 ≤ z ∧ z < 2 ^ 63) →
        ∃ p f, scalar tag text = .error p ∧ p.toError = .fault f ∧
          f.code = FaultCode.invalidRequest.number) ∧
      ∀ source, HoldsScalar source tag text → Value.ofSource source = scalar tag text) ∧
    (∀ (t : IntType) (n : Int64) (x : Native),
      (t.Represents n.toInt → project Γ (.int n) (.int t) x = .done (.int n.toInt)) ∧
      (¬ t.Represents n.toInt → ∃ m f, project Γ (.int n) (.int t) x = .refused x m ∧
        m.toError = .fault f ∧ f.code = FaultCode.internalError.number)) ∧
    (∀ (t : IntType) (i : Int), t.Represents i →
      (i < 2 ^ 63 → ∃ n : Int64, n.toInt = i ∧ (Native.int i).toValue = .int n ∧
        Value.ofSource (.ofOctets (Native.int i).toValue.document) = .ok (.int n)) ∧
      (2 ^ 63 ≤ i → (Native.int i).toValue = .nil)) := by
  refine ⟨?_, ?_, ?_⟩
  · intro tag text ht
    have hrange {z : Int} : (-2 ^ 63 ≤ z ∧ z < 2 ^ 63) ↔ ∃ n : Int64, n.toInt = z := by
      constructor
      · rintro ⟨hl, hu⟩
        exact ⟨Int64.ofInt z, Int64.toInt_ofInt_of_le hl hu⟩
      · rintro ⟨n, rfl⟩
        exact ⟨n.le_toInt, n.toInt_lt⟩
    refine ⟨?_, ?_, ?_⟩
    · intro z
      rw [hrange]
      constructor
      · rintro ⟨n, rfl, hn⟩
        exact ⟨(Document.scalar_int_iff ht).mp hn, n, rfl⟩
      · rintro ⟨hz, n, rfl⟩
        exact ⟨n, rfl, (Document.scalar_int_iff ht).mpr hz⟩
    · intro h
      refine ⟨_, _, Document.scalar_int_error ht ?_, rfl, rfl⟩
      intro n hn
      exact h ⟨n.toInt, hn, hrange.mpr ⟨n, rfl⟩⟩
    · intro source hs
      refine Document.ofSource_of_holdsScalar ?_ hs
      rcases ht with rfl | rfl <;> decide
  · intro t n x
    refine ⟨project_int_of_represents, ?_⟩
    intro h
    exact ⟨_, _, project_int_of_not_represents h, rfl, rfl⟩
  · intro t i h
    refine ⟨?_, toValue_int_of_le⟩
    intro hlt
    obtain ⟨n, hn, hvalue⟩ := toValue_int_of_represents h hlt
    have hnamed : (Value.int n).Named := trivial
    refine ⟨n, hn, hvalue, ?_⟩
    rw [hvalue]
    exact Document.ofSource_of_named hnamed

/-- The greatest int is read with a sign and zeros in front, and one below the least is
not; eight bits with a sign do not hold 128, and no int is the greatest number of 64
bits without one. -/
theorem integers_exact_limits :
    let greatest := "+009223372036854775807"
    let below := "-9223372036854775809"
    (∃ n : Int64, n.toInt = 9223372036854775807 ∧ scalar .i4 greatest = .ok (.int n)) ∧
    (∃ p f, scalar .int below = .error p ∧ p.toError = .fault f ∧ f.code = -32600) ∧
    Value.ofSource (.ofOctets (Document.render [.element .value [.text .int below.toList]]))
      = scalar .int below ∧
    project [] (.int 127) (.int .i8) (.int 5) = .done (.int 127) ∧
    (∃ m f, project [] (.int 128) (.int .i8) (.int 5) = .refused (.int 5) m ∧
      m.toError = .fault f ∧ f.code = -32603) ∧
    (∃ n : Int64, n.toInt = -128 ∧ (Native.int (-128)).toValue = .int n) ∧
    (Native.int 18446744073709551615).toValue = .nil := by
  intro greatest below
  obtain ⟨htexts, hslots, hnatives⟩ := integers_exact []
  obtain ⟨hread, -, -⟩ := htexts .i4 greatest (.inr rfl)
  obtain ⟨-, hrefused, hsource⟩ := htexts .int below (.inl rfl)
  refine ⟨(hread 9223372036854775807).mpr ⟨?_, by decide⟩, hrefused ?_, hsource _ ?_,
    (hslots .i8 127 (.int 5)).1 (by decide), (hslots .i8 128 (.int 5)).2 (by decide), ?_,
    (hnatives .u64 18446744073709551615 (by decide)).2 (by decide)⟩
  · exact Numeral.signed?_eq_some_iff.mp (by decide +kernel)
  · rintro ⟨z, hz, hl, -⟩
    have hbelow : Numeral.signed? below.toList = some (-9223372036854775809) := by decide +kernel
    cases hbelow.symm.trans (Numeral.signed?_eq_some_iff.mpr hz)
    exact absurd hl (by decide)
  · exact Document.holdsScalar_render .int below
  · obtain ⟨n, hn, hvalue, -⟩ := (hnatives .i8 (-128) (by decide)).1 (by decide)
    exact ⟨n, hn, hvalue⟩

end Native

end XmlRpc
