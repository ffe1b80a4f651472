/-
# The cursor

A token reader has two places for a token that has been scanned and is not taken
yet: the one that ended a text waits in the lexer, and one that was pushed back
waits in front of it.  Neither can be told from outside.  What comes of one read
after the other is fixed (`deliveries`), and a reader is a cursor on it:

    read      gives what is under the cursor, which goes one on
    unread    moves the cursor one back
    trim      moves it over blank texts, up to the first other token or the end;
              a problem behind the blanks is taken, as a read takes it

That holds as long as a token is pushed back only where it has just been read
(`Fair`).  There is room for one: a second one is a misuse, also behind a `trim`
that has stopped at a token.

`deliveries` goes on behind a problem, as reading may.  Up to the first problem,
or the end, it is the tokens of the source (`deliveries_eq`).
-/
import Mathlib.Data.List.Infix
import XmlRpc.Proofs.Markup.Advance

namespace XmlRpc

namespace Markup

/-! ## What is delivered -/

/-- What one read after the other gives. -/
def TokenReader.deliveries (r : TokenReader) : Nat → Delivery
  | 0 => r.read.1
  | k + 1 => r.read.2.deliveries k

/-- Tokens one after the other, and what stops them for ever after. -/
def Stream.deliveries (st : Stream) (k : Nat) : Delivery :=
  match st.1[k]?, st.2 with
  | some t, _ => .ok (some t)
  | none, none => .ok none
  | none, some p => .error p

namespace TokenReader

variable {r r' : TokenReader}

theorem deliveries_of_end (h : r.tokens = ([], none)) (k : Nat) : r.deliveries k = .ok none := by
  induction k generalizing r with
  | zero =>
      obtain ⟨r', hr', -⟩ := read_of_tokens_nil h
      rw [deliveries, hr']
  | succ k ih =>
      obtain ⟨r', hr', ht', -⟩ := read_of_tokens_nil h
      rw [deliveries, hr']
      exact ih ht'

theorem deliveries_eq (r : TokenReader) {k : Nat}
    (h : k ≤ r.tokens.1.length ∨ r.tokens.2 = none) :
    r.deliveries k = Stream.deliveries r.tokens k := by
  induction k generalizing r with
  | zero =>
      match hr : r.read with
      | (.error p, r') => rw [deliveries, hr, tokens_of_read_error hr]; rfl
      | (.ok none, r') => rw [deliveries, hr, tokens_of_read_none hr]; rfl
      | (.ok (some t), r') => rw [deliveries, hr, tokens_of_read_some hr]; rfl
  | succ k ih =>
      match hr : r.read with
      | (.error p, r') =>
          rw [tokens_of_read_error hr] at h
          simp at h
      | (.ok none, r') =>
          rw [deliveries_of_end (tokens_of_read_none hr), tokens_of_read_none hr]
          rfl
      | (.ok (some t), r') =>
          rw [tokens_of_read_some hr] at h ⊢
          rw [deliveries, hr]
          refine ih r' ?_
          simpa using h

end TokenReader

/-! ## Requests -/

inductive Request where
  | read
  | trim
  | unread (t : Token)
  deriving DecidableEq

inductive Reply where
  | delivered (d : Delivery)
  | done
  | failed (p : Problem)
  deriving DecidableEq

def Reply.problem? : Reply → Option Problem
  | .delivered (.error p) => some p
  | .failed p => some p
  | _ => none

/-- What was asked for and what was answered, the first request first. -/
abbrev History := List (Request × Reply)

namespace TokenReader

def answer (r : TokenReader) : Request → Reply × TokenReader
  | .read => (.delivered r.read.1, r.read.2)
  | .trim =>
    match r.trim with
    | (.ok (), r') => (.done, r')
    | (.error p, r') => (.failed p, r')
  | .unread t =>
    match r.unread t with
    | .ok r' => (.done, r')
    | .error p => (.failed p, r)

def asked (r : TokenReader) (qs : List Request) : History × TokenReader :=
  qs.foldl (fun x q => (x.1 ++ [(q, (x.2.answer q).1)], (x.2.answer q).2)) ([], r)

@[simp] theorem asked_nil (r : TokenReader) : r.asked [] = ([], r) := rfl

theorem asked_concat (r : TokenReader) (qs : List Request) (q : Request) :
    r.asked (qs ++ [q]) = ((r.asked qs).1 ++ [(q, ((r.asked qs).2.answer q).1)],
      ((r.asked qs).2.answer q).2) := by
  rw [asked, List.foldl_append]
  rfl

end TokenReader

/-! ## Histories -/

/-- Whether every token that was pushed back is the one that was read directly
before. -/
def Fair (h : History) : Prop :=
  ∀ h₁ t a h₂, h = h₁ ++ (.unread t, a) :: h₂ →
    ∃ h₀, h₁ = h₀ ++ [(.read, .delivered (.ok (some t)))]

/-- Whether no token was pushed back on another one. -/
def Intact (h : History) : Prop := ∀ e ∈ h, e.2.problem? ≠ some .pushedBackTwice

/-- Takes account of one answer in the tokens that are kept: a token that is read
is added, and one that is pushed back is dropped. -/
def keep (ts : List Token) : Request × Reply → List Token
  | (.read, .delivered (.ok (some t))) => ts ++ [t]
  | (.unread _, .done) => ts.dropLast
  | _ => ts

/-- The tokens that were read and not pushed back. -/
def kept (h : History) : List Token := h.foldl keep []

theorem kept_concat (h : History) (e : Request × Reply) : kept (h ++ [e]) = keep (kept h) e :=
  List.foldl_append

theorem fair_nil : Fair [] := by
  intro h₁ t a h₂ h
  simp at h

theorem fair_concat_iff {h : History} {q : Request} {a : Reply} :
    Fair (h ++ [(q, a)]) ↔ Fair h ∧
      ∀ t, q = .unread t → ∃ h₀, h = h₀ ++ [(.read, .delivered (.ok (some t)))] := by
  constructor
  · intro hf
    refine ⟨?_, ?_⟩
    · rintro h₁ t b h₂ rfl
      exact hf h₁ t b (h₂ ++ [(q, a)]) (by simp)
    · rintro t rfl
      exact hf h t a [] rfl
  · rintro ⟨hf, hlast⟩ h₁ t b h₂ heq
    rcases List.eq_nil_or_concat h₂ with rfl | ⟨h₃, e, rfl⟩
    · obtain ⟨rfl, he⟩ := List.append_inj' heq rfl
      cases he
      exact hlast t rfl
    · rw [List.concat_eq_append, ← List.cons_append, ← List.append_assoc] at heq
      obtain ⟨rfl, -⟩ := List.append_inj' heq rfl
      exact hf h₁ t b h₃ rfl

/-- Whether tokens are others in their order, and none but blank texts left out. -/
structure AllButBlanks (ts us : List Token) : Prop where
  sublist : ts.Sublist us
  others : ts.filter (!·.isBlank) = us.filter (!·.isBlank)

theorem AllButBlanks.append {ts us : List Token} (h : AllButBlanks ts us) (vs : List Token) :
    AllButBlanks (ts ++ vs) (us ++ vs) where
  sublist := h.sublist.append_right vs
  others := by rw [List.filter_append, List.filter_append, h.others]

theorem AllButBlanks.of_append {ts us vs : List Token} (h : AllButBlanks (ts ++ vs) (us ++ vs)) :
    AllButBlanks ts us where
  sublist := List.append_sublist_append_right vs |>.mp h.sublist
  others := by
    have hothers := h.others
    rw [List.filter_append, List.filter_append] at hothers
    exact List.append_cancel_right hothers

theorem AllButBlanks.blanks {ts us vs : List Token} (h : AllButBlanks ts us)
    (hvs : ∀ t ∈ vs, t.isBlank = true) : AllButBlanks ts (us ++ vs) where
  sublist := h.sublist.trans (List.sublist_append_left us vs)
  others := by
    have hnone : vs.filter (!·.isBlank) = [] := List.filter_eq_nil_iff.mpr (by simpa using hvs)
    rw [List.filter_append, hnone, List.append_nil, h.others]

/-! ## Cursors -/

/-- Whether there are only blank texts from one position up to another. -/
def BlankFrom (ds : Nat → Delivery) (m n : Nat) : Prop :=
  ∀ k, m ≤ k → k < n → ∃ t, ds k = .ok (some t) ∧ t.isBlank = true

/-- What a cursor does that stands at a position: what it answers, and where it
stands then. -/
inductive Moves (ds : Nat → Delivery) : Nat → Request → Reply → Nat → Prop
  | read {n : Nat} : Moves ds n .read (.delivered (ds n)) (n + 1)
  | unread {n : Nat} {t : Token} : ds n = .ok (some t) → Moves ds (n + 1) (.unread t) .done n
  | trim {m n : Nat} {t : Token} : m ≤ n → BlankFrom ds m n → ds n = .ok (some t) →
      t.isBlank = false → Moves ds m .trim .done n
  | trimToEnd {m n : Nat} : m ≤ n → BlankFrom ds m n → ds n = .ok none →
      Moves ds m .trim .done n
  | trimToProblem {m n : Nat} {p : Problem} : m ≤ n → BlankFrom ds m n → ds n = .error p →
      Moves ds m .trim (.failed p) (n + 1)

/-- Whether a history is that of a cursor which has begun at the first delivery,
and where it stands now. -/
inductive Follows (ds : Nat → Delivery) : History → Nat → Prop
  | start : Follows ds [] 0
  | next {h : History} {m n : Nat} {q : Request} {a : Reply} : Follows ds h m → Moves ds m q a n →
      Follows ds (h ++ [(q, a)]) n

def token? : Delivery → Option Token
  | .ok t => t
  | .error _ => none

/-- The tokens before a position. -/
def passed (ds : Nat → Delivery) : Nat → List Token
  | 0 => []
  | n + 1 => passed ds n ++ (token? (ds n)).toList

section Moves

variable {ds es : Nat → Delivery} {m n k : Nat} {q : Request} {a : Reply} {h : History}

theorem Follows.of_concat {e : Request × Reply} (hf : Follows ds (h ++ [e]) n) :
    ∃ m, Follows ds h m ∧ Moves ds m e.1 e.2 n := by
  generalize heq : h ++ [e] = h' at hf
  cases hf with
  | start => simp at heq
  | next hf hm =>
      obtain ⟨rfl, he⟩ := List.append_inj' heq rfl
      cases he
      exact ⟨_, hf, hm⟩

theorem BlankFrom.shift (hs : ∀ k, es k = ds (n + k)) (hb : BlankFrom es m k) :
    BlankFrom ds (n + m) (n + k) := by
  intro i hi hik
  obtain ⟨j, rfl⟩ := Nat.exists_eq_add_of_le (Nat.le_trans (Nat.le_add_right n m) hi)
  rw [← hs]
  exact hb j (Nat.add_le_add_iff_left.mp hi) (Nat.add_lt_add_iff_left.mp hik)

theorem Moves.shift (hs : ∀ k, es k = ds (n + k)) (hm : Moves es m q a k) :
    Moves ds (n + m) q a (n + k) := by
  cases hm with
  | read =>
      rw [hs]
      exact .read
  | unread ht => exact .unread (hs _ ▸ ht)
  | trim hle hb ht hblank =>
      exact .trim (Nat.add_le_add_left hle n) (hb.shift hs) (hs _ ▸ ht) hblank
  | trimToEnd hle hb ht => exact .trimToEnd (Nat.add_le_add_left hle n) (hb.shift hs) (hs _ ▸ ht)
  | trimToProblem hle hb hp =>
      exact .trimToProblem (Nat.add_le_add_left hle n) (hb.shift hs) (hs _ ▸ hp)

theorem Moves.trim_succ {t : Token} (h₀ : ds 0 = .ok (some t)) (ht : t.isBlank = true)
    (hm : Moves (fun k => ds (k + 1)) 0 .trim a n) : Moves ds 0 .trim a (n + 1) := by
  have hblank {k : Nat} (hb : BlankFrom (fun k => ds (k + 1)) 0 k) : BlankFrom ds 0 (k + 1) := by
    intro i _ hi
    cases i with
    | zero => exact ⟨t, h₀, ht⟩
    | succ i => exact hb i (Nat.zero_le i) (Nat.lt_of_succ_lt_succ hi)
  cases hm with
  | trim _ hb ht' hnot => exact .trim (Nat.zero_le _) (hblank hb) ht' hnot
  | trimToEnd _ hb hend => exact .trimToEnd (Nat.zero_le _) (hblank hb) hend
  | trimToProblem _ hb hp => exact .trimToProblem (Nat.zero_le _) (hblank hb) hp

theorem BlankFrom.passed (hb : BlankFrom ds m n) (hle : m ≤ n) :
    ∃ ts, passed ds n = passed ds m ++ ts ∧ ∀ t ∈ ts, t.isBlank = true := by
  induction n, hle using Nat.le_induction with
  | base => exact ⟨[], (List.append_nil _).symm, by simp⟩
  | succ n hle ih =>
      obtain ⟨ts, hts, hblank⟩ := ih fun k hm hk => hb k hm (Nat.lt_succ_of_lt hk)
      obtain ⟨t, ht, htb⟩ := hb n hle (Nat.lt_succ_self n)
      refine ⟨ts ++ [t], ?_, ?_⟩
      · rw [Markup.passed, hts, ht, token?, Option.toList_some, List.append_assoc]
      · intro u hu
        rcases List.mem_append.mp hu with hu | hu
        · exact hblank u hu
        · rwa [List.mem_singleton.mp hu]

end Moves

/-! ## Readers are cursors -/

theorem Lexer.gather_ne_pushedBackTwice (acc : Option (List Char)) (s : Scanner) (b : Buffer) :
    (Lexer.gather acc s b).1 ≠ .error .pushedBackTwice := by
  intro h
  fun_induction Lexer.gather acc s b with
  | case1 acc s b q s' b' hn =>
      cases h
      exact Scanner.arises_of_next ((s.nextInto_clear b).symm.trans (congrArg Prod.fst hn))
  | case2 acc s b e s' b' hn q he =>
      cases h
      exact e.piece_ne_pushedBackTwice he
  | case3 acc s b e s' b' hn cs he hlt ih => exact ih h
  | _ => cases h

namespace TokenReader

variable {r r' : TokenReader}

theorem read_ne_pushedBackTwice (r : TokenReader) : r.read.1 ≠ .error .pushedBackTwice := by
  intro h
  obtain ⟨⟨c, pending, b⟩, pushedBack⟩ := r
  cases pushedBack with
  | some t => cases h
  | none =>
      cases pending with
      | some t => cases h
      | none => exact Lexer.gather_ne_pushedBackTwice none c b h

theorem deliveries_ne_pushedBackTwice (r : TokenReader) (k : Nat) :
    r.deliveries k ≠ .error .pushedBackTwice := by
  induction k generalizing r with
  | zero => exact r.read_ne_pushedBackTwice
  | succ k ih => exact ih r.read.2

theorem exists_unread (h : r.pushedBack = none) (t : Token) :
    ∃ r', r.unread t = .ok r' ∧ r'.read = (.ok (some t), r) := by
  obtain ⟨l, p⟩ := r
  cases h
  exact ⟨⟨l, some t⟩, rfl, rfl⟩

theorem deliveries_of_read {t : Token} (ds : Nat → Delivery) (hr : r'.read = (.ok (some t), r))
    (h₀ : ds 0 = .ok (some t)) (hs : ∀ k, r.deliveries k = ds (k + 1)) (k : Nat) :
    r'.deliveries k = ds k := by
  cases k with
  | zero => rw [deliveries, hr, h₀]
  | succ k => rw [deliveries, hr, hs]

/-- A reader trims as a cursor does, and delivers afterwards what is left for the
cursor. -/
theorem moves_trim (r : TokenReader) :
    ∃ n, Moves r.deliveries 0 .trim (r.answer .trim).1 n ∧
      ∀ k, (r.answer .trim).2.deliveries k = r.deliveries (n + k) := by
  rw [answer]
  fun_induction trim r with
  | case1 r p r' hr =>
      have h₀ : r.deliveries 0 = .error p := by rw [deliveries, hr]
      refine ⟨1, .trimToProblem (Nat.le_refl 0) (fun k _ hk => by omega) h₀, ?_⟩
      intro k
      rw [Nat.add_comm, deliveries, hr]
  | case2 r r' hr =>
      have hend := tokens_of_read_none hr
      refine ⟨0, .trimToEnd (Nat.le_refl 0) (fun k _ hk => by omega) (deliveries_of_end hend 0), ?_⟩
      intro k
      rw [deliveries_of_end hend, deliveries_of_end (tokens_of_end hr)]
  | case3 r t r' hr hblank hlt ih =>
      have h₀ : r.deliveries 0 = .ok (some t) := by rw [deliveries, hr]
      have hrest : (fun k => r.deliveries (k + 1)) = r'.deliveries := by
        funext k
        rw [deliveries, hr]
      obtain ⟨n, hmoves, hleft⟩ := ih
      rw [← hrest] at hmoves
      refine ⟨n + 1, hmoves.trim_succ h₀ hblank, ?_⟩
      intro k
      rw [hleft k, Nat.add_right_comm, deliveries, hr]
  | case4 r t r' hr hblank r'' hu =>
      have h₀ : r.deliveries 0 = .ok (some t) := by rw [deliveries, hr]
      have hp := r.read_pushedBack
      rw [hr] at hp
      obtain ⟨q, hq, hread⟩ := exists_unread hp t
      cases hq.symm.trans hu
      refine ⟨0, .trim (Nat.le_refl 0) (fun k _ hk => by omega) h₀ (by simpa using hblank), ?_⟩
      intro k
      rw [Nat.zero_add]
      refine deliveries_of_read _ hread h₀ ?_ k
      intro k
      rw [deliveries, hr]
  | case5 r t r' hr hblank p hu =>
      have hp := r.read_pushedBack
      rw [hr] at hp
      obtain ⟨q, hq, -⟩ := exists_unread hp t
      cases hq.symm.trans hu

theorem pushedBack_of_read {qs : List Request} {h₀ : History} {d : Delivery}
    (h : (r.asked qs).1 = h₀ ++ [(.read, .delivered d)]) : (r.asked qs).2.pushedBack = none := by
  rcases List.eq_nil_or_concat qs with rfl | ⟨qs, q, rfl⟩
  · simp at h
  · rw [List.concat_eq_append, asked_concat] at h ⊢
    obtain ⟨-, he⟩ := List.append_inj' h rfl
    cases he
    exact read_pushedBack _

/-- A reader that is used fairly is a cursor on what it delivers, and delivers
afterwards what is left for the cursor. -/
theorem follows_asked (r : TokenReader) (qs : List Request) (hf : Fair (r.asked qs).1) :
    ∃ n, Follows r.deliveries (r.asked qs).1 n ∧
      ∀ k, (r.asked qs).2.deliveries k = r.deliveries (n + k) := by
  induction qs using List.reverseRecOn with
  | nil => exact ⟨0, .start, fun k => by rw [Nat.zero_add]; rfl⟩
  | append_singleton qs q ih =>
      rw [asked_concat] at hf ⊢
      obtain ⟨hf, hlast⟩ := fair_concat_iff.mp hf
      obtain ⟨n, hfollows, hleft⟩ := ih hf
      cases q with
      | read =>
          have hreply : ((r.asked qs).2.answer .read).1 = .delivered (r.deliveries n) :=
            congrArg Reply.delivered (hleft 0)
          rw [hreply]
          refine ⟨n + 1, hfollows.next .read, ?_⟩
          intro k
          rw [Nat.add_assoc, Nat.add_comm 1 k, ← hleft]
          rfl
      | trim =>
          obtain ⟨m, hmoves, hrest⟩ := (r.asked qs).2.moves_trim
          refine ⟨n + m, hfollows.next (hmoves.shift hleft), ?_⟩
          intro k
          rw [hrest, hleft, Nat.add_assoc]
      | unread t =>
          -- the token stands right before the cursor, and the slot for it is free
          obtain ⟨h₀, hread⟩ := hlast t rfl
          have hback := hfollows
          rw [hread] at hback
          obtain ⟨m, -, hmoves⟩ := hback.of_concat
          generalize hd : Reply.delivered (.ok (some t)) = a at hmoves
          cases hmoves with
          | read =>
              have ht : r.deliveries m = .ok (some t) := (Reply.delivered.inj hd).symm
              obtain ⟨r', hr', hnext⟩ := exists_unread (pushedBack_of_read hread) t
              have hanswer : (r.asked qs).2.answer (.unread t) = (.done, r') := by
                rw [answer, hr']
              rw [hanswer]
              refine ⟨m, hfollows.next (.unread ht), ?_⟩
              refine deliveries_of_read (fun k => r.deliveries (m + k)) hnext ht ?_
              intro k
              rw [hleft, Nat.add_assoc, Nat.add_comm 1 k]

/-! ## A second token -/

theorem unread_eq_error_iff (t : Token) :
    r.unread t = .error .pushedBackTwice ↔ r.pushedBack ≠ none := by
  rw [unread]
  cases r.pushedBack <;> simp

theorem pushedBack_unread {t : Token} (h : r.unread t = .ok r') : r'.pushedBack = some t := by
  rw [unread] at h
  split at h
  · cases h
  · cases h
    rfl

/-- Trimming pushes a token back if there is one behind the blanks. -/
theorem pushedBack_trim (h : r.trim = (.ok (), r')) : r'.pushedBack ≠ none ↔ r'.tokens.1 ≠ [] := by
  fun_induction trim r with
  | case1 => cases h
  | case2 r r₁ hr =>
      cases h
      have hp := r.read_pushedBack
      rw [hr] at hp
      rw [tokens_of_end hr]
      exact not_congr (iff_of_true hp rfl)
  | case3 r t r₁ hr hblank hlt ih => exact ih h
  | case4 r t r₁ hr hblank r₂ hu =>
      cases h
      have hp := pushedBack_unread hu
      rw [tokens_of_pushedBack hp, hp]
      simp
  | case5 => cases h

theorem pushedBack_trim_problem {p : Problem} (h : r.trim = (.error p, r')) :
    r'.pushedBack = none := by
  fun_induction trim r with
  | case1 r q r₁ hr | case5 r t r₁ hr =>
      cases h
      have hp := r.read_pushedBack
      rwa [hr] at hp
  | case3 r t r₁ hr hblank hlt ih => exact ih h
  | case2 => cases h
  | case4 => cases h

/-- A token is in the slot if one was pushed back last, or if blanks were passed over
last and there is a token behind them. -/
theorem pushedBack_asked {qs : List Request} (hr : r.pushedBack = none)
    (hi : Intact (r.asked qs).1) : (r.asked qs).2.pushedBack ≠ none ↔
      (∃ h q, (r.asked qs).1 = h ++ [(q, .done)]) ∧ (r.asked qs).2.tokens.1 ≠ [] := by
  rcases List.eq_nil_or_concat qs with rfl | ⟨qs, q, rfl⟩
  · refine iff_of_false (not_not_intro hr) ?_
    rintro ⟨⟨h, q, heq⟩, -⟩
    simp at heq
  · rw [List.concat_eq_append, asked_concat] at hi ⊢
    generalize (r.asked qs).2 = r₁, (r.asked qs).1 = h₁ at hi ⊢
    have hlast (a : Reply) : (∃ h q', h₁ ++ [(q, a)] = h ++ [(q', .done)]) ↔ a = .done := by
      constructor
      · rintro ⟨h, q', heq⟩
        obtain ⟨-, he⟩ := List.append_inj' heq rfl
        cases he
        rfl
      · rintro rfl
        exact ⟨h₁, q, rfl⟩
    rw [hlast]
    cases q with
    | read =>
        refine iff_of_false (not_not_intro r₁.read_pushedBack) ?_
        rintro ⟨h, -⟩
        cases h
    | trim =>
        match ht : r₁.trim with
        | (.ok (), r₂) =>
            have hanswer : r₁.answer .trim = (.done, r₂) := by rw [answer, ht]
            rw [hanswer, pushedBack_trim ht]
            exact (and_iff_right rfl).symm
        | (.error p, r₂) =>
            have hanswer : r₁.answer .trim = (.failed p, r₂) := by rw [answer, ht]
            rw [hanswer]
            refine iff_of_false (not_not_intro (pushedBack_trim_problem ht)) ?_
            rintro ⟨h, -⟩
            cases h
    | unread t =>
        cases hu : r₁.unread t with
        | ok r₂ =>
            have hanswer : r₁.answer (.unread t) = (.done, r₂) := by rw [answer, hu]
            have hp := pushedBack_unread hu
            rw [hanswer, tokens_of_pushedBack hp, hp]
            simp
        | error p =>
            have hanswer : r₁.answer (.unread t) = (.failed p, r₁) := by rw [answer, hu]
            rw [hanswer] at hi
            have hp : p = .pushedBackTwice := by
              rw [unread] at hu
              split at hu <;> cases hu
              rfl
            subst hp
            exact absurd rfl (hi _ (List.mem_append_right h₁ List.mem_cons_self))

end TokenReader

/-! ## Fair use -/

section Fair

variable {ds : Nat → Delivery} {h : History} {n : Nat}

theorem Follows.intact (hds : ∀ k, ds k ≠ .error .pushedBackTwice) (hf : Follows ds h n) :
    Intact h := by
  induction hf with
  | start =>
      intro e he
      cases he
  | @next h m n q a hf hm ih =>
      intro e he
      rcases List.mem_append.mp he with he | he
      · exact ih e he
      · cases List.mem_singleton.mp he
        cases hm with
        | read =>
            have hm := hds m
            intro hp
            match hd : ds m with
            | .ok t =>
                rw [hd] at hp
                cases hp
            | .error p =>
                rw [hd] at hp hm
                cases hp
                exact hm rfl
        | unread _ | trim _ _ _ _ | trimToEnd _ _ _ =>
            intro hp
            cases hp
        | @trimToProblem _ k p _ _ hp =>
            rintro hq
            cases hq
            exact hds k hp

/-- What is kept is all that a cursor has passed, but for blank texts. -/
theorem Follows.allButBlanks (hf : Follows ds h n) (hfair : Fair h) :
    AllButBlanks (kept h) (passed ds n) := by
  induction hf with
  | start => exact ⟨List.Sublist.refl [], rfl⟩
  | @next h m n q a hf hm ih =>
      obtain ⟨hfair, hlast⟩ := fair_concat_iff.mp hfair
      have ih := ih hfair
      rw [kept_concat]
      cases hm with
      | read =>
          rw [passed]
          match hd : ds m with
          | .ok (some t) => exact ih.append [t]
          | .ok none | .error p =>
              show AllButBlanks (kept h) (passed ds m ++ [])
              rwa [List.append_nil]
      | @unread _ t ht =>
          obtain ⟨h₀, rfl⟩ := hlast t rfl
          have hread : kept (h₀ ++ [(.read, .delivered (.ok (some t)))]) = kept h₀ ++ [t] :=
            kept_concat _ _
          rw [hread, passed, ht] at ih
          rw [hread, keep, List.dropLast_concat]
          exact ih.of_append
      | trim hle hb _ _ | trimToEnd hle hb _ =>
          obtain ⟨ts, hts, hblank⟩ := hb.passed hle
          rw [hts]
          exact ih.blanks hblank
      | trimToProblem hle hb hp =>
          obtain ⟨ts, hts, hblank⟩ := hb.passed hle
          rw [passed, hp, hts]
          show AllButBlanks (kept h) (passed ds m ++ ts ++ [])
          rw [List.append_nil]
          exact ih.blanks hblank

end Fair

/-- Whatever is asked of a token reader, it answers as a cursor on the tokens of its
source would, on what stops them and on what can be read behind that, if only what
was read directly before is pushed back.  Then no token is pushed back on another one,
what is left is what is ahead of the cursor, and of what is behind it only blank texts
are missing among what was read and kept.

However a reader was used so far, there is no room for a token just where one was
pushed back last, and where blanks were passed over last and a token is behind them. -/
theorem reads_as_cursor (s : Source) (qs : List Request) :
    let r := TokenReader.ofSource s
    let ds := r.deliveries
    let h := (r.asked qs).1
    let r' := (r.asked qs).2
    (∀ k, k ≤ r.tokens.1.length ∨ r.tokens.2 = none → ds k = Stream.deliveries r.tokens k) ∧
    (Fair h → Intact h ∧ ∃ n, Follows ds h n ∧ (∀ k, r'.deliveries k = ds (n + k)) ∧
      AllButBlanks (kept h) (passed ds n)) ∧
    (Intact h → ∀ t, r'.unread t = .error .pushedBackTwice ↔
      (∃ h₀ q, h = h₀ ++ [(q, .done)]) ∧ r'.tokens.1 ≠ []) := by
  intro r ds h r'
  refine ⟨fun _ => r.deliveries_eq, ?_, ?_⟩
  · intro hfair
    obtain ⟨n, hfollows, hleft⟩ := r.follows_asked qs hfair
    exact ⟨hfollows.intact r.deliveries_ne_pushedBackTwice, n, hfollows, hleft,
      hfollows.allButBlanks hfair⟩
  · intro hi t
    rw [TokenReader.unread_eq_error_iff]
    exact TokenReader.pushedBack_asked rfl hi

/-- Two tokens that are pushed back, one at the end of a text and one right behind it,
and a bad reference that is met while blanks are passed over. -/
theorem reads_as_cursor_border :
    let s := Source.ofOctets (Utf8.encode "<a> <b/>&x;".toList)
    let a : Token := .startTag "a"
    let b : Token := .startTag "b"
    let qs : List Request := [.read, .read, .unread (.text " "), .trim, .read, .unread b, .read,
      .read, .trim, .read]
    let h : History :=
      [(.read, .delivered (.ok (some a))), (.read, .delivered (.ok (some (.text " ")))),
        (.unread (.text " "), .done), (.trim, .done), (.read, .delivered (.ok (some b))),
        (.unread b, .done), (.read, .delivered (.ok (some b))),
        (.read, .delivered (.ok (some (.endTag "b")))), (.trim, .failed (.unknownReference "x")),
        (.read, .delivered (.ok none))]
    ((TokenReader.ofSource s).asked qs).1 = h ∧ Fair h ∧ Intact h ∧
      AllButBlanks (kept h) [a, .text " ", b, .endTag "b"] ∧
      ((TokenReader.ofSource s).asked (qs.take 6)).2.unread a = .error .pushedBackTwice := by
  intro s a b qs h
  have hh : ((TokenReader.ofSource s).asked qs).1 = h := by decide +kernel
  have hread {h : History} (x : Reply) (hf : Fair h) : Fair (h ++ [(.read, x)]) :=
    fair_concat_iff.mpr ⟨hf, fun t ht => by cases ht⟩
  have htrim {h : History} (x : Reply) (hf : Fair h) : Fair (h ++ [(.trim, x)]) :=
    fair_concat_iff.mpr ⟨hf, fun t ht => by cases ht⟩
  have hback {h : History} (t : Token) (hf : Fair h) :
      Fair (h ++ [(.read, .delivered (.ok (some t)))] ++ [(.unread t, .done)]) :=
    fair_concat_iff.mpr ⟨hread _ hf, fun u hu => by cases hu; exact ⟨h, rfl⟩⟩
  have hfair : Fair h :=
    hread (.delivered (.ok none)) (htrim (.failed (.unknownReference "x"))
      (hread (.delivered (.ok (some (.endTag "b")))) (hread (.delivered (.ok (some b)))
        (hback b (htrim .done (hback (.text " ") (hread (.delivered (.ok (some a))) fair_nil)))))))
  obtain ⟨-, hcursor, -⟩ := reads_as_cursor s qs
  rw [hh] at hcursor
  obtain ⟨hintact, n, -, -, -⟩ := hcursor hfair
  refine ⟨hh, hfair, hintact, ?_, ?_⟩
  · exact ⟨by decide, by decide⟩
  · have hsix : ((TokenReader.ofSource s).asked (qs.take 6)).1 = h.take 6 := by decide +kernel
    obtain ⟨-, -, hsecond⟩ := reads_as_cursor s (qs.take 6)
    rw [hsix] at hsecond
    have hsixIntact : Intact (h.take 6) := fun e he => hintact e (List.mem_of_mem_take he)
    refine (hsecond hsixIntact a).mpr ⟨⟨h.take 5, _, rfl⟩, ?_⟩
    decide +kernel

end Markup

end XmlRpc
