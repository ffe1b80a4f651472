/-
# Where pieces of markup end

A cut is found by walking over octets that do not end the piece:

    cut        over octets at which the pattern does not begin
    cutTag     over octets that are no quote and no `>`; inside double
               quotes, over all octets but the double quote
    text       over octets that are no `<` and no `&`

Where a cut was made, it is made again whatever comes behind it, and a part of
what it took has no cut (`cut_eq_some`, `cutTag_eq_some`).
-/
import XmlRpc.Proofs.Markup.Stream

namespace XmlRpc

namespace Markup

/-! ## Runs -/

theorem takeWhile_run {p : UInt8 → Bool} {x r : Octets} (hx : ∀ b ∈ x, p b = true)
    (hr : ∀ b ∈ r.head?, p b = false) : (x ++ r).takeWhile p = x := by
  rw [List.takeWhile_append_of_pos hx]
  cases r with
  | nil => simp
  | cons b r => simp [hr b rfl]

theorem dropWhile_run {p : UInt8 → Bool} {x r : Octets} (hx : ∀ b ∈ x, p b = true)
    (hr : ∀ b ∈ r.head?, p b = false) : (x ++ r).dropWhile p = r := by
  rw [List.dropWhile_append_of_pos hx]
  cases r with
  | nil => rfl
  | cons b r => simp [hr b rfl]

/-! ## Patterns -/

theorem cut_here (pattern r : Octets) (hp : pattern ≠ []) :
    cut pattern (pattern ++ r) = some ([], r) := by
  cases pattern with
  | nil => exact absurd rfl hp
  | cons b p =>
      have : (b :: p).isPrefixOf (b :: (p ++ r)) = true := by simp
      simp [cut, this]

theorem cut_cons {pattern r before after : Octets} {b : UInt8}
    (hb : pattern.isPrefixOf (b :: r) = false) (h : cut pattern r = some (before, after)) :
    cut pattern (b :: r) = some (b :: before, after) := by
  simp [cut, hb, h]

theorem cut_append {a : UInt8} {p x r before after : Octets} (hx : a ∉ x)
    (h : cut (a :: p) r = some (before, after)) :
    cut (a :: p) (x ++ r) = some (x ++ before, after) := by
  induction x with
  | nil => exact h
  | cons b x ih =>
      simp only [List.mem_cons, not_or] at hx
      refine cut_cons ?_ (ih hx.2)
      simp [List.isPrefixOf, hx.1]

theorem cut_eq_none_of_short {pattern o : Octets} (h : o.length < pattern.length) :
    cut pattern o = none := by
  induction o with
  | nil => rfl
  | cons b r ih =>
      have hb : ¬ pattern.isPrefixOf (b :: r) = true := by
        rw [List.isPrefixOf_iff_prefix]
        intro hp
        exact absurd hp.length_le (Nat.not_le_of_lt h)
      rw [cut, if_neg hb, ih (Nat.lt_of_succ_lt h)]
      rfl

/-- A cut does not depend on what is behind the pattern, and there is none
before the pattern is complete. -/
theorem cut_eq_some {pattern o before after : Octets} (hp : pattern ≠ [])
    (h : cut pattern o = some (before, after)) :
    o = before ++ (pattern ++ after) ∧
      (∀ c, cut pattern (before ++ (pattern ++ c)) = some (before, c)) ∧
      ∀ u, u <+: before ++ pattern → u ≠ before ++ pattern → cut pattern u = none := by
  induction o generalizing before with
  | nil => cases h
  | cons b r ih =>
      rw [cut] at h
      split at h
      · rename_i hb
        rw [List.isPrefixOf_iff_prefix] at hb
        cases h
        obtain ⟨y, hy⟩ := hb
        refine ⟨?_, fun c => cut_here pattern c hp, ?_⟩
        · rw [← hy, List.drop_left]
          rfl
        · intro u hu hne
          refine cut_eq_none_of_short (Nat.lt_of_le_of_ne hu.length_le fun hl => ?_)
          exact hne (hu.eq_of_length hl)
      · rename_i hb
        rw [Option.map_eq_some_iff] at h
        obtain ⟨⟨before', after'⟩, hcut, heq⟩ := h
        cases heq
        obtain ⟨hr, hext, hnone⟩ := ih hcut
        -- whether the pattern begins at `b` is settled before the pattern found ends
        have hnot : ¬ pattern <+: b :: (before' ++ pattern) := by
          intro hpre
          refine hb (List.isPrefixOf_iff_prefix.mpr (hpre.trans ?_))
          rw [hr, ← List.append_assoc]
          exact List.prefix_append (b :: (before' ++ pattern)) after
        refine ⟨by rw [hr]; rfl, fun c => cut_cons ?_ (hext c), ?_⟩
        · rw [← Bool.not_eq_true, List.isPrefixOf_iff_prefix]
          show ¬ pattern <+: b :: (before' ++ (pattern ++ c))
          rw [← List.append_assoc]
          intro hpre
          refine hnot (List.prefix_of_prefix_length_le hpre
            (List.prefix_append (b :: (before' ++ pattern)) c) ?_)
          rw [List.length_cons, List.length_append]
          omega
        · intro u hu hne
          cases u with
          | nil => rfl
          | cons b' u =>
              obtain ⟨rfl, hu'⟩ := List.cons_prefix_cons.mp hu
              have hpre : ¬ pattern.isPrefixOf (b' :: u) = true := by
                rw [List.isPrefixOf_iff_prefix]
                intro hpre
                exact hnot (hpre.trans (List.cons_prefix_cons.mpr ⟨rfl, hu'⟩))
              rw [cut, if_neg hpre, hnone u hu' fun he => hne (by rw [he]; rfl)]
              rfl

/-! ## Tags -/

theorem cutTag_here (r : Octets) : cutTag .outside (0x3E :: r) = some ([], r) := by
  simp [cutTag]

theorem cutTag_cons {q : Quote} {b : UInt8} {r before after : Octets}
    (hb : ¬ (q = .outside ∧ b = 0x3E)) (h : cutTag (q.after b) r = some (before, after)) :
    cutTag q (b :: r) = some (b :: before, after) := by
  simp only [cutTag, if_neg hb, h]
  rfl

/-- Octets that are no delimiter of a tag. -/
def Plain (x : Octets) : Prop := ∀ b ∈ x, b ≠ 0x27 ∧ b ≠ 0x22 ∧ b ≠ 0x3E

theorem cutTag_plain {x r before after : Octets} (hx : Plain x)
    (h : cutTag .outside r = some (before, after)) :
    cutTag .outside (x ++ r) = some (x ++ before, after) := by
  induction x with
  | nil => exact h
  | cons b x ih =>
      obtain ⟨h₁, h₂, h₃⟩ := hx b List.mem_cons_self
      refine cutTag_cons (by simp [h₃]) ?_
      rw [show Quote.after b .outside = .outside by simp [Quote.after, h₁, h₂]]
      exact ih fun c hc => hx c (List.mem_cons_of_mem _ hc)

theorem cutTag_quoted {x r before after : Octets} (hx : (0x22 : UInt8) ∉ x)
    (h : cutTag .outside r = some (before, after)) :
    cutTag .outside (0x22 :: x ++ 0x22 :: r) = some (0x22 :: x ++ 0x22 :: before, after) := by
  refine cutTag_cons (by decide) ?_
  show cutTag .double (x ++ 0x22 :: r) = _
  induction x with
  | nil => exact cutTag_cons (by decide) h
  | cons b x ih =>
      simp only [List.mem_cons, not_or] at hx
      refine cutTag_cons (by simp) ?_
      rw [show Quote.after b .double = .double by simp [Quote.after, Ne.symm hx.1]]
      exact ih hx.2

theorem cutTag_eq_some {q : Quote} {o before after : Octets}
    (h : cutTag q o = some (before, after)) :
    o = before ++ 0x3E :: after ∧
      (∀ c, cutTag q (before ++ 0x3E :: c) = some (before, c)) ∧
      ∀ u, u <+: before → cutTag q u = none := by
  induction o generalizing q before with
  | nil => cases h
  | cons b r ih =>
      rw [cutTag] at h
      split at h
      · rename_i hb
        obtain ⟨rfl, rfl⟩ := hb
        cases h
        refine ⟨rfl, fun c => cutTag_here c, ?_⟩
        intro u hu
        rw [List.prefix_nil.mp hu]
        rfl
      · rename_i hb
        rw [Option.map_eq_some_iff] at h
        obtain ⟨⟨before', after'⟩, hcut, heq⟩ := h
        cases heq
        obtain ⟨hr, hext, hnone⟩ := ih hcut
        refine ⟨by rw [hr]; rfl, fun c => cutTag_cons hb (hext c), ?_⟩
        intro u hu
        cases u with
        | nil => rfl
        | cons b' u =>
            obtain ⟨rfl, hu'⟩ := List.cons_prefix_cons.mp hu
            rw [cutTag, if_neg hb, hnone u hu']
            rfl

/-! ## Texts -/

/-- Octets that stand for themselves in a text. -/
def isPlainText (b : UInt8) : Bool := b != 0x3C && b != 0x26

theorem next_plain {x c : Octets} (hne : x ≠ []) (hx : ∀ b ∈ x, isPlainText b = true)
    (hc : ∀ b ∈ c.head?, isPlainText b = false) (d : Ending) (names : List Octets) :
    (Scanner.between d names (x ++ c)).next = match c with
      | [] => match d with
        | .endOfInput => (.ok (.text x), (Scanner.between d names x).finish)
        | .broken message => (.error (.stream message), (Scanner.between d names x).finish)
      | c => (.ok (.text x), Scanner.between d names c) := by
  cases x with
  | nil => exact absurd rfl hne
  | cons b x =>
      have hb := hx b List.mem_cons_self
      have hx' := fun e he => hx e (List.mem_cons_of_mem b he)
      have h₁ : b ≠ 0x3C := by rintro rfl; cases hb
      have h₂ : b ≠ 0x26 := by rintro rfl; cases hb
      have hnext : (Scanner.between d names (b :: x ++ c)).next
          = Scanner.text (Scanner.between d names (b :: x ++ c)) b (x ++ c) := by
        rw [Scanner.between_next]
        simp only [Scanner.content, List.cons_append, if_neg h₁, if_neg h₂]
      have hplain : (fun b : UInt8 => b != 0x3C && b != 0x26) = isPlainText := rfl
      rw [hnext, Scanner.text, hplain, takeWhile_run hx' hc, dropWhile_run hx' hc]
      cases c with
      | nil => cases d <;> rfl
      | cons a c => rfl

theorem next_text {x c : Octets} {a : UInt8} (hne : x ≠ []) (hx : ∀ b ∈ x, isPlainText b = true)
    (ha : isPlainText a = false) (d : Ending) (names : List Octets) :
    (Scanner.between d names (x ++ a :: c)).next
      = (.ok (.text x), Scanner.between d names (a :: c)) :=
  next_plain hne hx (fun b hb => by cases hb; exact ha) d names

theorem next_text_end {x : Octets} (hne : x ≠ []) (hx : ∀ b ∈ x, isPlainText b = true)
    (names : List Octets) :
    (Scanner.between .endOfInput names x).next
      = (.ok (.text x), (Scanner.between .endOfInput names x).finish) := by
  have h := next_plain (c := []) hne hx (fun b hb => by cases hb) .endOfInput names
  rwa [List.append_nil] at h

/-- Where the stream breaks behind a text, the text is lost. -/
theorem next_text_broken {x : Octets} (hne : x ≠ []) (hx : ∀ b ∈ x, isPlainText b = true)
    (names : List Octets) (message : String) :
    (Scanner.between (.broken message) names x).next
      = (.error (.stream message), (Scanner.between (.broken message) names x).finish) := by
  have h := next_plain (c := []) hne hx (fun b hb => by cases hb) (.broken message) names
  rwa [List.append_nil] at h

end Markup

end XmlRpc
