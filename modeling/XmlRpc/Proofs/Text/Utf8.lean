/-
# UTF-8, back and forth

`Coded u c`: the octets `u` are a complete character, and it is `c`.

    decode (encode cs) = cs                                    (`decode_encode`)
    decode u = cs  ⟹  u = encode cs                            (`Spelled.eq_encode`)
    decode u = cs  ⟹  decode (u ++ w) begins with cs           (`decode_prefix`)

Octets below 80 stand for themselves and occur in no other character, so a
delimiter of markup is found among the octets exactly where it is in the text
(`mem_encode_iff`).
-/
import XmlRpc.Text.Utf8

namespace XmlRpc

namespace Utf8

@[simp] theorem encode_nil : encode [] = [] := rfl

@[simp] theorem encode_cons (c : Char) (cs : List Char) :
    encode (c :: cs) = String.utf8EncodeChar c ++ encode cs := rfl

@[simp] theorem encode_append (as bs : List Char) :
    encode (as ++ bs) = encode as ++ encode bs := List.flatMap_append

@[simp] theorem encode_eq_nil_iff {cs : List Char} : encode cs = [] ↔ cs = [] := by
  cases cs with
  | nil => simp
  | cons c cs => simp [String.utf8EncodeChar_ne_nil]

/-! ## One character -/

/-- The octets of one character, as they are recognised. -/
inductive Coded : Octets → Char → Prop where
  | one {a : UInt8} : a < 0x80 → Coded [a] (Char.ofNat a.toNat)
  | two {a b : UInt8} : 0xC2 ≤ a → a ≤ 0xDF → isContinuation b = true →
      Coded [a, b] (char2 a b)
  | three {a b c : UInt8} : 0xE0 ≤ a → a ≤ 0xEF → isSecondOfThree a b = true →
      isContinuation c = true → Coded [a, b, c] (char3 a b c)
  | four {a b c d : UInt8} : 0xF0 ≤ a → a ≤ 0xF4 → isSecondOfFour a b = true →
      isContinuation c = true → isContinuation d = true → Coded [a, b, c, d] (char4 a b c d)

theorem not_lt_of_le {a b c : UInt8} (h : b ≤ a) (hc : c ≤ b) : ¬ a < c := by
  simp only [UInt8.lt_iff_toNat_lt, UInt8.le_iff_toNat_le] at *
  omega

theorem not_le_of_le {a b c : UInt8} (h : b ≤ a) (hc : c < b) : ¬ a ≤ c := by
  simp only [UInt8.lt_iff_toNat_lt, UInt8.le_iff_toNat_le] at *
  omega

theorem Coded.decodeFrom {u : Octets} {c : Char} (h : Coded u c) (i : Nat) (w : Octets) :
    decodeFrom i (u ++ w) = (Utf8.decodeFrom (i + u.length) w).map (c :: ·) := by
  cases h with
  | one ha =>
    rw [List.cons_append, Utf8.decodeFrom.eq_def]
    simp [ha]
  | two h₁ h₂ hb =>
    have n₁ := not_lt_of_le h₁ (c := 0x80) (by decide)
    rw [List.cons_append, Utf8.decodeFrom.eq_def]
    simp [n₁, h₁, h₂, hb]
  | three h₁ h₂ hb hc =>
    have n₁ := not_lt_of_le h₁ (c := 0x80) (by decide)
    have n₂ := not_le_of_le h₁ (c := 0xDF) (by decide)
    rw [List.cons_append, Utf8.decodeFrom.eq_def]
    simp [n₁, n₂, h₁, h₂, hb, hc]
  | four h₁ h₂ hb hc hd =>
    have n₁ := not_lt_of_le h₁ (c := 0x80) (by decide)
    have n₂ := not_le_of_le h₁ (c := 0xDF) (by decide)
    have n₃ := not_le_of_le h₁ (c := 0xEF) (by decide)
    rw [List.cons_append, Utf8.decodeFrom.eq_def]
    simp [n₁, n₂, n₃, h₁, h₂, hb, hc, hd]

theorem map_cons_eq_ok {x : Except Problem (List Char)} {c : Char} {cs : List Char}
    (h : x.map (c :: ·) = .ok cs) : ∃ ds, x = .ok ds ∧ cs = c :: ds := by
  cases x with
  | error p => cases h
  | ok ds => cases h; exact ⟨ds, rfl, rfl⟩

theorem isContinuation_iff {b : UInt8} :
    isContinuation b = true ↔ 0x80 ≤ b.toNat ∧ b.toNat ≤ 0xBF := by
  simp [isContinuation, UInt8.le_iff_toNat_le]

theorem isSecondOfThree_iff {a b : UInt8} :
    isSecondOfThree a b = true ↔ (0x80 ≤ b.toNat ∧ b.toNat ≤ 0xBF) ∧
      (a.toNat = 0xE0 → 0xA0 ≤ b.toNat) ∧ (a.toNat = 0xED → b.toNat ≤ 0x9F) := by
  simp only [isSecondOfThree, isContinuation, ← UInt8.toNat_inj]
  split
  · simp [UInt8.le_iff_toNat_le, *]
    omega
  · split
    · simp [UInt8.le_iff_toNat_le, *]
      omega
    · simp [UInt8.le_iff_toNat_le, *] at *
      omega

theorem isSecondOfFour_iff {a b : UInt8} :
    isSecondOfFour a b = true ↔ (0x80 ≤ b.toNat ∧ b.toNat ≤ 0xBF) ∧
      (a.toNat = 0xF0 → 0x90 ≤ b.toNat) ∧ (a.toNat = 0xF4 → b.toNat ≤ 0x8F) := by
  simp only [isSecondOfFour, isContinuation, ← UInt8.toNat_inj]
  split
  · simp [UInt8.le_iff_toNat_le, *]
    omega
  · split
    · simp [UInt8.le_iff_toNat_le, *]
      omega
    · simp [UInt8.le_iff_toNat_le, *] at *
      omega

theorem coded_utf8EncodeChar (c : Char) : Coded (String.utf8EncodeChar c) c := by
  have hv : c.val.toNat < 0xD800 ∨ 0xDFFF < c.val.toNat ∧ c.val.toNat < 0x110000 := c.valid
  have hc {n : Nat} (h : n = c.val.toNat) : Char.ofNat n = c := h ▸ Char.ofNat_toNat c
  unfold String.utf8EncodeChar
  dsimp only
  generalize c.val.toNat = v at hv hc
  split
  · rw [← hc (n := (UInt8.ofNat v).toNat) (by simp; omega)]
    exact .one (by rw [UInt8.lt_iff_toNat_lt]; simp; omega)
  · split
    · have h : char2 (UInt8.ofNat (v / 64 % 32 + 192)) (UInt8.ofNat (v % 64 + 128)) = c :=
        hc (by simp; omega)
      rw [← h]
      exact .two (by rw [UInt8.le_iff_toNat_le]; simp; omega)
        (by rw [UInt8.le_iff_toNat_le]; simp; omega) (by rw [isContinuation_iff]; simp; omega)
    · split
      · have h : char3 (UInt8.ofNat (v / 4096 % 16 + 224)) (UInt8.ofNat (v / 64 % 64 + 128))
            (UInt8.ofNat (v % 64 + 128)) = c := hc (by simp; omega)
        rw [← h]
        exact .three (by rw [UInt8.le_iff_toNat_le]; simp; omega)
          (by rw [UInt8.le_iff_toNat_le]; simp; omega)
          (by rw [isSecondOfThree_iff]; simp; omega) (by rw [isContinuation_iff]; simp; omega)
      · have h : char4 (UInt8.ofNat (v / 262144 % 8 + 240)) (UInt8.ofNat (v / 4096 % 64 + 128))
            (UInt8.ofNat (v / 64 % 64 + 128)) (UInt8.ofNat (v % 64 + 128)) = c :=
          hc (by simp; omega)
        rw [← h]
        exact .four (by rw [UInt8.le_iff_toNat_le]; simp; omega)
          (by rw [UInt8.le_iff_toNat_le]; simp; omega)
          (by rw [isSecondOfFour_iff]; simp; omega) (by rw [isContinuation_iff]; simp; omega)
          (by rw [isContinuation_iff]; simp; omega)

/-! ## Texts -/

/-- The octets of a text, character by character. -/
inductive Spelled : Octets → List Char → Prop where
  | nil : Spelled [] []
  | cons {u w : Octets} {c : Char} {cs : List Char} :
      Coded u c → Spelled w cs → Spelled (u ++ w) (c :: cs)

theorem spelled_encode (cs : List Char) : Spelled (encode cs) cs := by
  induction cs with
  | nil => exact .nil
  | cons c cs ih => exact .cons (coded_utf8EncodeChar c) ih

theorem spelled_of_decodeFrom {i : Nat} {o : Octets} {cs : List Char}
    (h : decodeFrom i o = .ok cs) : Spelled o cs := by
  fun_induction decodeFrom i o generalizing cs with
  | case1 =>
      cases h
      exact .nil
  | case2 i a r ha ih =>
      obtain ⟨ds, hd, rfl⟩ := map_cons_eq_ok h
      exact .cons (.one ha) (ih hd)
  | case4 i a h₁ h₂ b r hb ih =>
      obtain ⟨ds, hd, rfl⟩ := map_cons_eq_ok h
      simp only [Bool.and_eq_true, decide_eq_true_eq] at h₂
      exact .cons (.two h₂.1 h₂.2 hb) (ih hd)
  | case8 i a h₁ h₂ h₃ b hb c r hc ih =>
      obtain ⟨ds, hd, rfl⟩ := map_cons_eq_ok h
      simp only [Bool.and_eq_true, decide_eq_true_eq] at h₃
      exact .cons (.three h₃.1 h₃.2 hb hc) (ih hd)
  | case14 i a h₁ h₂ h₃ h₄ b hb c hc d r hd ih =>
      obtain ⟨ds, hds, rfl⟩ := map_cons_eq_ok h
      simp only [Bool.and_eq_true, decide_eq_true_eq] at h₄
      exact .cons (.four h₄.1 h₄.2 hb hc hd) (ih hds)
  | _ => cases h

/-- Octets that end where a character ends are decoded on their own, whatever
follows. -/
theorem Spelled.decodeFrom {u : Octets} {cs : List Char} (h : Spelled u cs) (w : Octets) :
    ∀ i, decodeFrom i (u ++ w) = (Utf8.decodeFrom (i + u.length) w).map (cs ++ ·) := by
  induction h with
  | nil =>
      intro i
      show Utf8.decodeFrom i w = (Utf8.decodeFrom i w).map ([] ++ ·)
      cases Utf8.decodeFrom i w <;> rfl
  | @cons u v c cs hc _ ih =>
      intro i
      rw [List.append_assoc, hc.decodeFrom, ih, List.length_append, Nat.add_assoc]
      cases Utf8.decodeFrom (i + (u.length + v.length)) w <;> rfl

theorem Spelled.decode_eq {u : Octets} {cs : List Char} (h : Spelled u cs) :
    decode u = .ok cs := by
  have := h.decodeFrom [] 0
  rw [List.append_nil] at this
  rw [decode, this]
  simp [Utf8.decodeFrom, Except.map]

@[simp] theorem decode_encode (cs : List Char) : decode (encode cs) = .ok cs :=
  (spelled_encode cs).decode_eq

theorem encode_inj {as bs : List Char} : encode as = encode bs ↔ as = bs := by
  constructor
  · intro h
    have hdecode := congrArg decode h
    rw [decode_encode, decode_encode] at hdecode
    exact Except.ok.inj hdecode
  · rintro rfl
    rfl

/-- A part of a text that can be read on its own is a beginning of the
text. -/
theorem decode_prefix {u w : Octets} {cs ds : List Char} (hu : decode u = .ok cs)
    (h : decode (u ++ w) = .ok ds) : cs <+: ds := by
  rw [decode, (spelled_of_decodeFrom hu).decodeFrom] at h
  cases hw : decodeFrom (0 + u.length) w with
  | error p => rw [hw] at h; cases h
  | ok es =>
      rw [hw] at h
      cases h
      exact ⟨es, rfl⟩

/-! ## Octets below 80 -/

theorem utf8EncodeChar_of_lt {c : Char} (h : c.toNat < 0x80) :
    String.utf8EncodeChar c = [UInt8.ofNat c.toNat] := by
  have h' : c.val.toNat ≤ 0x7F := Nat.le_of_lt_succ h
  simp only [String.utf8EncodeChar, h', if_true]
  rfl

theorem toNat_ofNat {n : Nat} (h : n.isValidChar) : (Char.ofNat n).toNat = n := by
  rw [Char.ofNat, dif_pos h]
  unfold Char.ofNatAux Char.toNat
  simp

theorem mem_utf8EncodeChar_iff {b : UInt8} (hb : b.toNat < 0x80) {c : Char} :
    b ∈ String.utf8EncodeChar c ↔ c = Char.ofNat b.toNat := by
  have hc : c = Char.ofNat b.toNat ↔ c.val.toNat = b.toNat := by
    rw [← Char.toNat_inj, toNat_ofNat (.inl (by omega))]
    rfl
  rw [hc]
  unfold String.utf8EncodeChar
  dsimp only
  generalize c.val.toNat = v
  split
  · simp [← UInt8.toNat_inj]
    omega
  · split
    · simp [← UInt8.toNat_inj]
      omega
    · split
      · simp [← UInt8.toNat_inj]
        omega
      · simp [← UInt8.toNat_inj]
        omega

theorem mem_encode_iff {b : UInt8} (hb : b.toNat < 0x80) {cs : List Char} :
    b ∈ encode cs ↔ Char.ofNat b.toNat ∈ cs := by
  simp [encode, List.mem_flatMap, mem_utf8EncodeChar_iff hb]

/-! ## Octets that are text -/

theorem ofNat_eq_of_toNat {a : UInt8} {n : Nat} (h : n = a.toNat) : UInt8.ofNat n = a := by
  rw [h, UInt8.ofNat_toNat]

theorem Coded.eq_utf8EncodeChar {u : Octets} {c : Char} (h : Coded u c) :
    String.utf8EncodeChar c = u := by
  have hval {n : Nat} (hn : n.isValidChar) : (Char.ofNat n).val.toNat = n := toNat_ofNat hn
  unfold String.utf8EncodeChar
  cases h with
  | @one a ha =>
      rw [UInt8.lt_iff_toNat_lt] at ha
      change a.toNat < 0x80 at ha
      dsimp only
      rw [hval (.inl (by omega)), if_pos (by omega), UInt8.ofNat_toNat]
  | @two a b h₁ h₂ hb =>
      obtain ⟨hb₁, hb₂⟩ := isContinuation_iff.mp hb
      rw [UInt8.le_iff_toNat_le] at h₁ h₂
      change 0xC2 ≤ a.toNat at h₁
      change a.toNat ≤ 0xDF at h₂
      dsimp only
      rw [char2, hval (.inl (by omega)), if_neg (by omega), if_pos (by omega),
        ofNat_eq_of_toNat (a := a) (by omega), ofNat_eq_of_toNat (a := b) (by omega)]
  | @three a b c h₁ h₂ hb hc =>
      obtain ⟨⟨hb₁, hb₂⟩, hlow, hhigh⟩ := isSecondOfThree_iff.mp hb
      obtain ⟨hc₁, hc₂⟩ := isContinuation_iff.mp hc
      rw [UInt8.le_iff_toNat_le] at h₁ h₂
      change 0xE0 ≤ a.toNat at h₁
      change a.toNat ≤ 0xEF at h₂
      have hvalid : ((a.toNat - 0xE0) * 4096 + (b.toNat - 0x80) * 64
          + (c.toNat - 0x80)).isValidChar := by
        by_cases ha : a.toNat ≤ 0xED
        · exact .inl (by omega)
        · exact .inr (by omega)
      dsimp only
      rw [char3, hval hvalid, if_neg (by omega), if_neg (by omega), if_pos (by omega),
        ofNat_eq_of_toNat (a := a) (by omega), ofNat_eq_of_toNat (a := b) (by omega),
        ofNat_eq_of_toNat (a := c) (by omega)]
  | @four a b c d h₁ h₂ hb hc hd =>
      obtain ⟨⟨hb₁, hb₂⟩, hlow, hhigh⟩ := isSecondOfFour_iff.mp hb
      obtain ⟨hc₁, hc₂⟩ := isContinuation_iff.mp hc
      obtain ⟨hd₁, hd₂⟩ := isContinuation_iff.mp hd
      rw [UInt8.le_iff_toNat_le] at h₁ h₂
      change 0xF0 ≤ a.toNat at h₁
      change a.toNat ≤ 0xF4 at h₂
      dsimp only
      rw [char4, hval (.inr (by omega)), if_neg (by omega), if_neg (by omega), if_neg (by omega),
        ofNat_eq_of_toNat (a := a) (by omega), ofNat_eq_of_toNat (a := b) (by omega),
        ofNat_eq_of_toNat (a := c) (by omega), ofNat_eq_of_toNat (a := d) (by omega)]

theorem Spelled.eq_encode {u : Octets} {cs : List Char} (h : Spelled u cs) : encode cs = u := by
  induction h with
  | nil => rfl
  | cons hc _ ih => rw [encode_cons, hc.eq_utf8EncodeChar, ih]

/-! ## Lengths -/

theorem length_utf8EncodeChar_le (c : Char) : (String.utf8EncodeChar c).length ≤ 4 := by
  unfold String.utf8EncodeChar
  dsimp only
  repeat' split
  all_goals
    simp only [List.length_cons, List.length_nil]
    omega

theorem length_le_length_encode (cs : List Char) : cs.length ≤ (encode cs).length := by
  induction cs with
  | nil => exact Nat.le_refl _
  | cons c cs ih =>
      have hpos := List.length_pos_iff.mpr (String.utf8EncodeChar_ne_nil (c := c))
      rw [encode_cons, List.length_append, List.length_cons]
      omega

end Utf8

end XmlRpc
