/-
# Escaped text read back

What a text says in which each ampersand begins a reference:

    c      itself, unless it is an ampersand
    &r;    the character that `r` resolves to; there is no semicolon in `r`

A text is read in one way at most (`Reads.unique`), and what escaping makes of a
text is read as that text (`reads_escape`), even where the text looks like a
reference itself.  So no two texts are escaped alike (`escape_inj`).
-/
import XmlRpc.Text.Reference

namespace XmlRpc

namespace Reference

/-- What a text says. -/
inductive Reads : List Char → List Char → Prop where
  | nil : Reads [] []
  | char {c : Char} {cs ds : List Char} : c ≠ '&' → Reads cs ds → Reads (c :: cs) (c :: ds)
  | reference {r cs ds : List Char} {c : Char} : ';' ∉ r → resolve? r = some c → Reads cs ds →
      Reads ('&' :: (r ++ ';' :: cs)) (c :: ds)

variable {c : Char} {n l r cs ds es : List Char}

theorem append_semicolon_inj {q : List Char} (hr : ';' ∉ r) (hq : ';' ∉ q)
    (h : r ++ ';' :: cs = q ++ ';' :: ds) : r = q ∧ cs = ds := by
  induction r generalizing q with
  | nil =>
      cases q with
      | nil => exact ⟨rfl, (List.cons.inj h).2⟩
      | cons d q => exact absurd ((List.cons.inj h).1 ▸ List.mem_cons_self) hq
  | cons c r ih =>
      cases q with
      | nil => exact absurd ((List.cons.inj h).1 ▸ List.mem_cons_self) hr
      | cons d q =>
          obtain ⟨rfl, htail⟩ := List.cons.inj h
          obtain ⟨rfl, rfl⟩ := ih (fun hm => hr (List.mem_cons_of_mem c hm))
            (fun hm => hq (List.mem_cons_of_mem c hm)) htail
          exact ⟨rfl, rfl⟩

theorem Reads.unique (h : Reads cs ds) (h' : Reads cs es) : ds = es := by
  induction h generalizing es with
  | nil =>
      cases h'
      rfl
  | char hc _ ih =>
      cases h' with
      | char _ hrest => rw [ih hrest]
      | reference => exact absurd rfl hc
  | @reference r cs ds c hr hres _ ih =>
      generalize hw : '&' :: (r ++ ';' :: cs) = written at h'
      cases h' with
      | nil => cases hw
      | char hc => exact absurd (List.cons.inj hw).1.symm hc
      | reference hq hres' hrest =>
          obtain ⟨rfl, rfl⟩ := append_semicolon_inj hr hq (List.cons.inj hw).2
          rw [ih hrest, Option.some.inj (hres.symm.trans hres')]

/-! ## Escaping -/

theorem resolve?_of_name? (h : name? c = some n) : resolve? n = some c := by
  unfold name? at h
  split at h <;> cases h <;> rfl

theorem isLower_of_name? (h : name? c = some n) : ∀ d ∈ n, d.isLower = true := by
  unfold name? at h
  split at h <;> cases h <;> exact List.all_eq_true.mp rfl

theorem not_mem_of_name? (h : name? c = some n) {d : Char} (hd : d.isLower = false) : d ∉ n := by
  intro hm
  rw [isLower_of_name? h d hm] at hd
  cases hd

theorem isLower_of_isSpecial (h : isSpecial c = true) : c.isLower = false := by
  unfold isSpecial name? at h
  split at h
  case h_6 => cases h
  all_goals rfl

theorem ne_ampersand_of_name? (h : name? c = none) : c ≠ '&' := by
  rintro rfl
  cases h

theorem escape_cons (c : Char) (cs : List Char) : escape (c :: cs) = escapeChar c ++ escape cs :=
  List.flatMap_cons

theorem reads_escape (cs : List Char) : Reads (escape cs) cs := by
  induction cs with
  | nil => exact .nil
  | cons c cs ih =>
      rw [escape_cons, escapeChar]
      cases h : name? c with
      | none => exact .char (ne_ampersand_of_name? h) ih
      | some n =>
          have hread := Reads.reference (not_mem_of_name? h rfl) (resolve?_of_name? h) ih
          simpa using hread

theorem reads_escape_iff : Reads (escape cs) ds ↔ ds = cs := by
  constructor
  · intro h
    exact h.unique (reads_escape cs)
  · rintro rfl
    exact reads_escape ds

theorem escape_inj : escape cs = escape ds ↔ cs = ds := by
  constructor
  · intro h
    have hread := reads_escape cs
    rw [h] at hread
    exact hread.unique (reads_escape ds)
  · rintro rfl
    rfl

/-- Of the characters with a name an escaped text holds ampersands only. -/
theorem eq_of_mem_escape (h : c ∈ escape cs) (hc : isSpecial c = true) : c = '&' := by
  obtain ⟨d, -, hd⟩ := List.mem_flatMap.mp h
  rw [escapeChar] at hd
  split at hd
  · rename_i n hn
    rcases List.mem_cons.mp hd with rfl | hd
    · rfl
    · rcases List.mem_append.mp hd with hd | hd
      · exact absurd hd (not_mem_of_name? hn (isLower_of_isSpecial hc))
      · rw [List.mem_singleton.mp hd] at hc
        cases hc
  · rename_i hnone
    rw [List.mem_singleton.mp hd, isSpecial, hnone] at hc
    cases hc

theorem exists_of_append_eq {p q : List Char} (hp : '&' ∉ p) (h : p ++ q = l ++ '&' :: r) :
    ∃ m, q = m ++ '&' :: r := by
  induction p generalizing l with
  | nil => exact ⟨l, h⟩
  | cons d p ih =>
      cases l with
      | nil => exact absurd ((List.cons.inj h).1 ▸ List.mem_cons_self) hp
      | cons e l => exact ih (fun hm => hp (List.mem_cons_of_mem d hm)) (List.cons.inj h).2

/-- Each ampersand of an escaped text begins one of the five references. -/
theorem reference_of_escape (h : escape cs = l ++ '&' :: r) :
    ∃ c n rest, name? c = some n ∧ r = n ++ ';' :: rest := by
  induction cs generalizing l with
  | nil =>
      have hlen := congrArg List.length h
      simp [escape] at hlen
  | cons c cs ih =>
      rw [escape_cons, escapeChar] at h
      cases hc : name? c with
      | none =>
          rw [hc] at h
          obtain ⟨m, hm⟩ := exists_of_append_eq (by simpa using (ne_ampersand_of_name? hc).symm) h
          exact ih hm
      | some n =>
          rw [hc] at h
          cases l with
          | nil =>
              have htail : n ++ [';'] ++ escape cs = r := (List.cons.inj h).2
              refine ⟨c, n, escape cs, hc, ?_⟩
              rw [← htail, List.append_assoc]
              rfl
          | cons d l =>
              have hname : '&' ∉ n ++ [';'] := by simpa using not_mem_of_name? hc rfl
              obtain ⟨m, hm⟩ := exists_of_append_eq hname (List.cons.inj h).2
              exact ih hm

end Reference

end XmlRpc
