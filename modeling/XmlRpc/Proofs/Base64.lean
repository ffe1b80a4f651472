/-
# Base64 read back

`decode_encode`: reading the text of octets gives them back.  The proof goes
group by group, as the text does:

    x y z  …    four letters, and the three octets of four letters are x y z
    x y         three letters and one sign
    x           two letters and two signs

The length of a text is a multiple of four, so no stray letter is at its end.

`length_decode_le`: no text stands for more octets than it has itself.
-/
import XmlRpc.Base64
import XmlRpc.Proofs.Text.Utf8
import XmlRpc.Text.Blank

namespace XmlRpc

namespace Base64

/-! ## Letters -/

theorem value?_letter : ∀ n < 64, value? (letter n) = some n := by decide

theorem letter_ne_pad : ∀ n < 64, letter n ≠ pad := by decide

theorem letter_lt : ∀ n < 64, (letter n).toNat < 0x80 := by decide

theorem symbolAt_letter (offset : Nat) {n : Nat} (h : n < 64) :
    symbolAt offset (letter n) = .ok n := by
  rw [symbolAt, value?_letter n h]

theorem octet_lt (x : UInt8) : x.toNat < 256 := x.toNat_lt

/-- An octet put together again from its bits. -/
theorem ofNat_eq {x : UInt8} {n : Nat} (h : n = x.toNat) : UInt8.ofNat n = x := by
  rw [h, UInt8.ofNat_toNat]

/-! ## The last group -/

section LastGroup

variable (offset j : Nat)

theorem lastGroup_letter {n : Nat} (h : n < 64) (r : Octets) :
    lastGroup offset j (letter n :: r)
      = (lastGroup offset (j + 1) r).map fun (ns, k) => (n :: ns, k) := by
  rw [lastGroup, if_neg (letter_ne_pad n h), symbolAt_letter _ h]

theorem lastGroup_pads {j : Nat} (hj : 2 ≤ j) (k : Nat) :
    lastGroup offset j (List.replicate (k + 1) pad) = .ok ([], k + 1) := by
  have hr : (List.replicate k pad).any (· != pad) = false := by
    rw [List.any_eq_false]
    intro b hb
    rw [List.eq_of_mem_replicate hb]
    decide
  have hlt : ¬ j < 2 := Nat.not_lt.mpr hj
  rw [List.replicate_succ, lastGroup, if_pos rfl]
  simp [hlt, hr]

theorem groups_last (a b c d : UInt8) {ns : List Nat} {k : Nat}
    (h : lastGroup offset 0 [a, b, c, d] = .ok (ns, k)) :
    groups offset [a, b, c, d] = lastOctets offset ns k := by
  rw [groups, h]
  · rfl
  · exact List.cons_ne_nil _ _
  · intro _ _ _ _ _ _ hl
    cases hl

end LastGroup

variable {offset : Nat} {a b c d : Nat}

theorem groups_one (ha : a < 64) (hb : b < 64) (hz : b % 16 = 0) :
    groups offset [letter a, letter b, pad, pad] = .ok ((threeOctets a b 0 0).take 1) := by
  have hpads := lastGroup_pads offset (Nat.le_refl 2) 1
  have hlast : lastGroup offset 0 [letter a, letter b, pad, pad] = .ok ([a, b], 2) := by
    rw [lastGroup_letter offset 0 ha, lastGroup_letter offset 1 hb]
    exact congrArg _ (congrArg _ hpads)
  rw [groups_last offset _ _ _ _ hlast, lastOctets]
  simp [hz]

theorem groups_two (ha : a < 64) (hb : b < 64) (hc : c < 64) (hz : c % 4 = 0) :
    groups offset [letter a, letter b, letter c, pad] = .ok ((threeOctets a b c 0).take 2) := by
  have hpads := lastGroup_pads offset (j := 3) (by decide) 0
  have hlast : lastGroup offset 0 [letter a, letter b, letter c, pad] = .ok ([a, b, c], 1) := by
    rw [lastGroup_letter offset 0 ha, lastGroup_letter offset 1 hb, lastGroup_letter offset 2 hc]
    exact congrArg _ (congrArg _ (congrArg _ hpads))
  rw [groups_last offset _ _ _ _ hlast, lastOctets]
  simp [hz]

theorem groups_three (ha : a < 64) (hb : b < 64) (hc : c < 64) (hd : d < 64) {r o : Octets}
    (hr : groups (offset + 4) r = .ok o) :
    groups offset (letter a :: letter b :: letter c :: letter d :: r)
      = .ok (threeOctets a b c d ++ o) := by
  cases r with
  | nil =>
      have hlast : lastGroup offset 0 [letter a, letter b, letter c, letter d]
          = .ok ([a, b, c, d], 0) := by
        rw [lastGroup_letter offset 0 ha, lastGroup_letter offset 1 hb,
          lastGroup_letter offset 2 hc, lastGroup_letter offset 3 hd]
        rfl
      cases hr
      rw [groups_last offset _ _ _ _ hlast, List.append_nil, lastOctets]
      simp
  | cons e r =>
      rw [groups, symbolAt_letter _ ha, symbolAt_letter _ hb, symbolAt_letter _ hc,
        symbolAt_letter _ hd, hr]
      rfl

/-! ## Texts -/

theorem groups_encode (o : Octets) (offset : Nat) : groups offset (encode o) = .ok o := by
  induction o using encode.induct generalizing offset with
  | case1 => rfl
  | case2 x =>
      have hx := octet_lt x
      rw [encode, groups_one (by omega) (by omega) (by omega)]
      have h : (threeOctets (x.toNat / 4) (x.toNat % 4 * 16) 0 0).take 1 = [x] := by
        rw [threeOctets, ofNat_eq (x := x) (by omega)]
        rfl
      rw [h]
  | case3 x y =>
      have hx := octet_lt x
      have hy := octet_lt y
      rw [encode, groups_two (by omega) (by omega) (by omega) (by omega)]
      have h : (threeOctets (x.toNat / 4) (x.toNat % 4 * 16 + y.toNat / 16)
          (y.toNat % 16 * 4) 0).take 2 = [x, y] := by
        rw [threeOctets, ofNat_eq (x := x) (by omega), ofNat_eq (x := y) (by omega)]
        rfl
      rw [h]
  | case4 x y z r ih =>
      have hx := octet_lt x
      have hy := octet_lt y
      have hz := octet_lt z
      rw [encode, groups_three (by omega) (by omega) (by omega) (by omega) (ih (offset + 4))]
      have h : threeOctets (x.toNat / 4) (x.toNat % 4 * 16 + y.toNat / 16)
          (y.toNat % 16 * 4 + z.toNat / 64) (z.toNat % 64) = [x, y, z] := by
        rw [threeOctets, ofNat_eq (x := x) (by omega), ofNat_eq (x := y) (by omega),
          ofNat_eq (x := z) (by omega)]
      rw [h]
      rfl

theorem length_encode (o : Octets) : (encode o).length % 4 = 0 := by
  induction o using encode.induct with
  | case1 => rfl
  | case2 x => simp [encode]
  | case3 x y => simp [encode]
  | case4 x y z r ih =>
      rw [encode]
      simp only [List.length_cons]
      omega

theorem decode_encode (o : Octets) : decode (encode o) = .ok o := by
  have hstray : strayEnd? (encode o) = none := by
    rw [strayEnd?, if_neg]
    rw [length_encode o]
    decide
  rw [decode, hstray]
  exact groups_encode o 0

/-! ## Characters -/

theorem mem_encode {o : Octets} {e : UInt8} (h : e ∈ encode o) :
    e = pad ∨ ∃ n < 64, e = letter n := by
  have hletter {n : Nat} (hn : n < 64) : letter n = pad ∨ ∃ m < 64, letter n = letter m :=
    .inr ⟨n, hn, rfl⟩
  induction o using encode.induct with
  | case1 => cases h
  | case2 x =>
      have hx := octet_lt x
      rw [encode] at h
      simp only [List.mem_cons, List.not_mem_nil, or_false] at h
      rcases h with rfl | rfl | rfl | rfl
      · exact hletter (by omega)
      · exact hletter (by omega)
      · exact .inl rfl
      · exact .inl rfl
  | case3 x y =>
      have hx := octet_lt x
      have hy := octet_lt y
      rw [encode] at h
      simp only [List.mem_cons, List.not_mem_nil, or_false] at h
      rcases h with rfl | rfl | rfl | rfl
      · exact hletter (by omega)
      · exact hletter (by omega)
      · exact hletter (by omega)
      · exact .inl rfl
  | case4 x y z r ih =>
      have hx := octet_lt x
      have hy := octet_lt y
      have hz := octet_lt z
      rw [encode] at h
      simp only [List.mem_cons] at h
      rcases h with rfl | rfl | rfl | rfl | h
      · exact hletter (by omega)
      · exact hletter (by omega)
      · exact hletter (by omega)
      · exact hletter (by omega)
      · exact ih h

/-- What is true of the sign and of all letters is true of a whole text. -/
theorem of_mem_encodeText {P : Char → Prop} (hpad : P (Char.ofNat pad.toNat))
    (hletter : ∀ n < 64, P (Char.ofNat (letter n).toNat)) {o : Octets} :
    ∀ c ∈ encodeText o, P c := by
  intro c hc
  obtain ⟨e, he, rfl⟩ := List.mem_map.mp hc
  rcases mem_encode he with rfl | ⟨n, hn, rfl⟩
  · exact hpad
  · exact hletter n hn

theorem filter_encodeText (o : Octets) :
    (encodeText o).filter (fun c => !Blank.isAscii c) = encodeText o := by
  rw [List.filter_eq_self]
  exact of_mem_encodeText (by decide) (by decide)

theorem encode_encodeText (o : Octets) : Utf8.encode (encodeText o) = encode o := by
  have hascii : ∀ e ∈ encode o, e.toNat < 0x80 := by
    intro e he
    rcases mem_encode he with rfl | ⟨n, hn, rfl⟩
    · decide
    · exact letter_lt n hn
  rw [encodeText]
  generalize encode o = es at hascii
  induction es with
  | nil => rfl
  | cons e es ih =>
      have he := hascii e List.mem_cons_self
      have hn : (Char.ofNat e.toNat).toNat = e.toNat :=
        Utf8.toNat_ofNat (.inl (Nat.lt_trans he (by decide)))
      have htail := ih fun f hf => hascii f (List.mem_cons_of_mem e hf)
      have hlt : (Char.ofNat e.toNat).toNat < 0x80 := by rw [hn]; exact he
      rw [List.map_cons, Utf8.encode_cons, htail, Utf8.utf8EncodeChar_of_lt hlt, hn,
        UInt8.ofNat_toNat]
      rfl

/-! ## Lengths -/

theorem length_lastGroup {offset : Nat} (r : Octets) :
    ∀ {j : Nat} {ns : List Nat} {k : Nat}, lastGroup offset j r = .ok (ns, k) →
      ns.length + k = r.length := by
  induction r with
  | nil =>
      intro j ns k h
      cases h
      rfl
  | cons b r ih =>
      intro j ns k h
      rw [lastGroup] at h
      split at h
      · split at h
        · cases h
        · cases h
          exact Nat.zero_add _
      · split at h
        · cases h
        · cases hrest : lastGroup offset (j + 1) r with
          | error p => rw [hrest] at h; cases h
          | ok x =>
              obtain ⟨ms, k'⟩ := x
              rw [hrest] at h
              cases h
              have hlen := ih hrest
              rw [List.length_cons, List.length_cons]
              omega

theorem length_lastOctets {offset : Nat} {ns : List Nat} {k : Nat} {o : Octets}
    (h : lastOctets offset ns k = .ok o) : o.length ≤ ns.length := by
  unfold lastOctets at h
  split at h
  · cases h
  · split at h
    · cases h
    · split at h
      · split at h
        · cases h
          exact Nat.le_succ 1
        · cases h
      · split at h
        · cases h
          exact Nat.le_succ 2
        · cases h
      · cases h
        exact Nat.le_succ 3
      · cases h

theorem exists_of_bind_eq_ok {α β : Type} {x : Except Problem α} {f : α → Except Problem β} {b : β}
    (h : (x >>= f) = .ok b) : ∃ a, x = .ok a ∧ f a = .ok b := by
  cases x with
  | error p => cases h
  | ok a => exact ⟨a, rfl, h⟩

theorem length_groups {offset : Nat} {o p : Octets} (h : groups offset o = .ok p) :
    p.length ≤ o.length := by
  fun_induction groups offset o generalizing p with
  | case1 =>
      cases h
      exact Nat.le_refl _
  | case2 offset a b c d e r ih =>
      obtain ⟨_, -, h⟩ := exists_of_bind_eq_ok h
      obtain ⟨_, -, h⟩ := exists_of_bind_eq_ok h
      obtain ⟨_, -, h⟩ := exists_of_bind_eq_ok h
      obtain ⟨_, -, h⟩ := exists_of_bind_eq_ok h
      obtain ⟨rest, hrest, h⟩ := exists_of_bind_eq_ok h
      cases h
      have hle := ih hrest
      simp only [threeOctets, List.length_append, List.length_cons, List.length_nil] at hle ⊢
      omega
  | case3 offset last _ _ =>
      obtain ⟨x, hlast, h⟩ := exists_of_bind_eq_ok h
      have hoctets := length_lastOctets h
      have hgroup := length_lastGroup last hlast
      omega

theorem length_decode_le {o p : Octets} (h : decode o = .ok p) : p.length ≤ o.length := by
  rw [decode] at h
  split at h
  · cases h
  · exact length_groups h

end Base64

end XmlRpc
