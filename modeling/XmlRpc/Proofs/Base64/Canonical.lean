/-
# The one text of octets

Reading accepts the text that writing gives, and no other
(`decode_eq_ok_iff`).  What these texts look like is said without the writer:

    nothing
    ⟨a⟩⟨b⟩==          the last four bits of b are zero
    ⟨a⟩⟨b⟩⟨c⟩=        the last two bits of c are zero
    ⟨a⟩⟨b⟩⟨c⟩⟨d⟩ …    and such a text again

`Canonical` is that form, and `canonical_iff` that writing gives just the texts
of it.  So the sign stands at the end or not at all, none is missing, and no bit
is set behind the last octet.
-/
import XmlRpc.Proofs.Base64

namespace XmlRpc

namespace Base64

inductive Canonical : Octets → Prop where
  | nil : Canonical []
  | one {a b : Nat} : a < 64 → b < 64 → b % 16 = 0 → Canonical [letter a, letter b, pad, pad]
  | two {a b c : Nat} : a < 64 → b < 64 → c < 64 → c % 4 = 0 →
      Canonical [letter a, letter b, letter c, pad]
  | three {a b c d : Nat} {r : Octets} : a < 64 → b < 64 → c < 64 → d < 64 → Canonical r →
      Canonical (letter a :: letter b :: letter c :: letter d :: r)

/-! ## Groups put together again -/

variable {a b c d : Nat}

theorem exists_threeOctets (ha : a < 64) (hb : b < 64) (hc : c < 64) (hd : d < 64) :
    ∃ x y z : UInt8, threeOctets a b c d = [x, y, z] ∧ x.toNat = a * 4 + b / 16 ∧
      y.toNat = b % 16 * 16 + c / 4 ∧ z.toNat = c % 4 * 64 + d :=
  ⟨_, _, _, rfl, UInt8.toNat_ofNat_of_lt (show _ < 256 by omega),
    UInt8.toNat_ofNat_of_lt (show _ < 256 by omega),
    UInt8.toNat_ofNat_of_lt (show _ < 256 by omega)⟩

theorem encode_one (ha : a < 64) (hb : b < 64) (hz : b % 16 = 0) :
    encode ((threeOctets a b 0 0).take 1) = [letter a, letter b, pad, pad] := by
  obtain ⟨x, y, z, hxyz, hx, -, -⟩ :=
    exists_threeOctets ha hb (c := 0) (d := 0) (by omega) (by omega)
  have ha' : (a * 4 + b / 16) / 4 = a := by omega
  have hb' : (a * 4 + b / 16) % 4 * 16 = b := by omega
  rw [hxyz, List.take_succ_cons, List.take_zero, encode, hx, ha', hb']

theorem encode_two (ha : a < 64) (hb : b < 64) (hc : c < 64) (hz : c % 4 = 0) :
    encode ((threeOctets a b c 0).take 2) = [letter a, letter b, letter c, pad] := by
  obtain ⟨x, y, z, hxyz, hx, hy, -⟩ := exists_threeOctets ha hb hc (d := 0) (by omega)
  have ha' : (a * 4 + b / 16) / 4 = a := by omega
  have hb' : (a * 4 + b / 16) % 4 * 16 + (b % 16 * 16 + c / 4) / 16 = b := by omega
  have hc' : (b % 16 * 16 + c / 4) % 16 * 4 = c := by omega
  rw [hxyz, List.take_succ_cons, List.take_succ_cons, List.take_zero, encode, hx, hy, ha', hb', hc']

theorem encode_three (ha : a < 64) (hb : b < 64) (hc : c < 64) (hd : d < 64) (p : Octets) :
    encode (threeOctets a b c d ++ p)
      = letter a :: letter b :: letter c :: letter d :: encode p := by
  obtain ⟨x, y, z, hxyz, hx, hy, hz⟩ := exists_threeOctets ha hb hc hd
  have ha' : (a * 4 + b / 16) / 4 = a := by omega
  have hb' : (a * 4 + b / 16) % 4 * 16 + (b % 16 * 16 + c / 4) / 16 = b := by omega
  have hc' : (b % 16 * 16 + c / 4) % 16 * 4 + (c % 4 * 64 + d) / 64 = c := by omega
  have hd' : (c % 4 * 64 + d) % 64 = d := by omega
  rw [hxyz, List.cons_append, List.cons_append, List.cons_append, List.nil_append, encode, hx, hy,
    hz, ha', hb', hc', hd']

theorem canonical_encode (o : Octets) : Canonical (encode o) := by
  induction o using encode.induct with
  | case1 => exact .nil
  | case2 x =>
      have hx := octet_lt x
      exact .one (by omega) (by omega) (by omega)
  | case3 x y =>
      have hx := octet_lt x
      have hy := octet_lt y
      exact .two (by omega) (by omega) (by omega) (by omega)
  | case4 x y z r ih =>
      have hx := octet_lt x
      have hy := octet_lt y
      have hz := octet_lt z
      exact .three (by omega) (by omega) (by omega) (by omega) ih

/-- Writing gives just the texts of that form. -/
theorem canonical_iff {o : Octets} : Canonical o ↔ ∃ p, o = encode p := by
  constructor
  · intro h
    induction h with
    | nil => exact ⟨[], rfl⟩
    | one ha hb hz => exact ⟨_, (encode_one ha hb hz).symm⟩
    | two ha hb hc hz => exact ⟨_, (encode_two ha hb hc hz).symm⟩
    | three ha hb hc hd _ ih =>
        obtain ⟨p, rfl⟩ := ih
        exact ⟨_, (encode_three ha hb hc hd p).symm⟩
  · rintro ⟨p, rfl⟩
    exact canonical_encode p

/-! ## What is read -/

theorem ofNat_add_sub {x : UInt8} {first : Nat} (h : first ≤ x.toNat) :
    UInt8.ofNat (first + (x.toNat - first)) = x :=
  ofNat_eq (Nat.add_sub_cancel' h)

theorem letter_of_value? {x : UInt8} {n : Nat} (h : value? x = some n) :
    n < 64 ∧ letter n = x := by
  unfold value? at h
  simp only [Bool.and_eq_true, decide_eq_true_eq, UInt8.le_iff_toNat_le] at h
  split at h
  · rename_i hupper
    obtain ⟨hfirst, hlast⟩ : 0x41 ≤ x.toNat ∧ x.toNat ≤ 0x5A := hupper
    cases h
    refine ⟨by omega, ?_⟩
    rw [letter, if_pos (by omega)]
    exact ofNat_add_sub hfirst
  · split at h
    · rename_i hlower
      obtain ⟨hfirst, hlast⟩ : 0x61 ≤ x.toNat ∧ x.toNat ≤ 0x7A := hlower
      cases h
      refine ⟨by omega, ?_⟩
      rw [letter, if_neg (by omega), if_pos (by omega), Nat.add_sub_cancel]
      exact ofNat_add_sub hfirst
    · split at h
      · rename_i hdigit
        obtain ⟨hfirst, hlast⟩ : 0x30 ≤ x.toNat ∧ x.toNat ≤ 0x39 := hdigit
        cases h
        refine ⟨by omega, ?_⟩
        rw [letter, if_neg (by omega), if_neg (by omega), if_pos (by omega), Nat.add_sub_cancel]
        exact ofNat_add_sub hfirst
      · split at h
        · rename_i hplus
          cases h
          exact ⟨by omega, hplus.symm⟩
        · split at h
          · rename_i hslash
            cases h
            exact ⟨by omega, hslash.symm⟩
          · cases h

theorem letter_of_symbolAt {offset : Nat} {x : UInt8} {n : Nat} (h : symbolAt offset x = .ok n) :
    n < 64 ∧ letter n = x := by
  rw [symbolAt] at h
  split at h
  · rename_i m hm
    cases h
    exact letter_of_value? hm
  · cases h

/-- What a last group is made of: letters, and signs behind two letters at least. -/
theorem eq_of_lastGroup {offset : Nat} (r : Octets) :
    ∀ {j : Nat} {ns : List Nat} {k : Nat}, lastGroup offset j r = .ok (ns, k) →
      (∀ n ∈ ns, n < 64) ∧ r = ns.map letter ++ List.replicate k pad := by
  induction r with
  | nil =>
      intro j ns k h
      cases h
      exact ⟨List.forall_mem_nil _, rfl⟩
  | cons x r ih =>
      intro j ns k h
      rw [lastGroup] at h
      split at h
      · rename_i hx
        split at h
        · cases h
        · rename_i hpads
          cases h
          refine ⟨List.forall_mem_nil _, ?_⟩
          have hall : ∀ y ∈ r, y = pad := by
            intro y hy
            apply Decidable.byContradiction
            intro hne
            have hany : r.any (· != pad) = true := List.any_eq_true.mpr ⟨y, hy, bne_iff_ne.mpr hne⟩
            exact hpads (by rw [hany, Bool.or_true])
          rw [hx, List.eq_replicate_of_mem hall]
          simp [List.replicate_succ]
      · split at h
        · cases h
        · rename_i n hn
          obtain ⟨hlt, rfl⟩ := letter_of_symbolAt hn
          cases hrest : lastGroup offset (j + 1) r with
          | error p =>
              rw [hrest] at h
              cases h
          | ok y =>
              obtain ⟨ms, k'⟩ := y
              rw [hrest] at h
              cases h
              obtain ⟨hms, hr⟩ := ih hrest
              refine ⟨List.forall_mem_cons.mpr ⟨hlt, hms⟩, ?_⟩
              rw [hr]
              rfl

theorem encode_of_lastOctets {offset k : Nat} {ns : List Nat} {p : Octets} (hns : ∀ n ∈ ns, n < 64)
    (hfour : ns.length + k ≤ 4) (h : lastOctets offset ns k = .ok p) :
    ns.map letter ++ List.replicate k pad = encode p := by
  unfold lastOctets at h
  split at h
  · cases h
  · rename_i htwo
    split at h
    · cases h
    · rename_i hlen
      split at h
      · rename_i a b
        split at h
        · rename_i hz
          cases h
          have hk : k = 2 := by
            simp only [List.length_cons, List.length_nil] at hfour hlen
            omega
          rw [hk, encode_one (hns a (by simp)) (hns b (by simp)) hz]
          rfl
        · cases h
      · rename_i a b c
        split at h
        · rename_i hz
          cases h
          have hk : k = 1 := by
            simp only [List.length_cons, List.length_nil] at hfour hlen
            omega
          rw [hk, encode_two (hns a (by simp)) (hns b (by simp)) (hns c (by simp)) hz]
          rfl
        · cases h
      · rename_i a b c d
        cases h
        have hk : k = 0 := by
          simp only [List.length_cons, List.length_nil] at hfour
          omega
        have hencode := encode_three (hns a (by simp)) (hns b (by simp)) (hns c (by simp))
          (hns d (by simp)) []
        rw [List.append_nil] at hencode
        rw [hk, hencode]
        rfl
      · cases h

theorem eq_encode_of_groups {offset : Nat} {o p : Octets} (h : groups offset o = .ok p) :
    o = encode p := by
  fun_induction groups offset o generalizing p with
  | case1 =>
      cases h
      rfl
  | case2 offset a b c d e r ih =>
      obtain ⟨na, ha, h⟩ := exists_of_bind_eq_ok h
      obtain ⟨nb, hb, h⟩ := exists_of_bind_eq_ok h
      obtain ⟨nc, hc, h⟩ := exists_of_bind_eq_ok h
      obtain ⟨nd, hd, h⟩ := exists_of_bind_eq_ok h
      obtain ⟨rest, hrest, h⟩ := exists_of_bind_eq_ok h
      cases h
      obtain ⟨hna, rfl⟩ := letter_of_symbolAt ha
      obtain ⟨hnb, rfl⟩ := letter_of_symbolAt hb
      obtain ⟨hnc, rfl⟩ := letter_of_symbolAt hc
      obtain ⟨hnd, rfl⟩ := letter_of_symbolAt hd
      rw [encode_three hna hnb hnc hnd, ← ih hrest]
  | case3 offset last hne hlong =>
      obtain ⟨⟨ns, k⟩, hlast, h⟩ := exists_of_bind_eq_ok h
      obtain ⟨hns, hr⟩ := eq_of_lastGroup last hlast
      -- a group of five and more has been cut already
      have hfour : last.length ≤ 4 := by
        rcases last with _ | ⟨a, _ | ⟨b, _ | ⟨c, _ | ⟨d, _ | ⟨e, r⟩⟩⟩⟩⟩
        case cons.cons.cons.cons.cons => exact (hlong a b c d e r rfl).elim
        all_goals simp
      have hlength := length_lastGroup last hlast
      rw [hr]
      exact encode_of_lastOctets hns (by omega) h

/-- A text is read as octets exactly if it is what writing the octets gives. -/
theorem decode_eq_ok_iff {o p : Octets} : decode o = .ok p ↔ o = encode p := by
  constructor
  · intro h
    rw [decode] at h
    split at h
    · cases h
    · exact eq_encode_of_groups h
  · rintro rfl
    exact decode_encode p

end Base64

end XmlRpc
