/-
# Steps of a reader

What the small readers do, in terms of the tokens ahead of them.  For each of
them there are three sorts of facts:

    …_sound      it has succeeded, so these tokens were ahead
    accepts_…    these tokens are ahead, so it takes them and no more
    fails_…      the tokens stop too early, and it says why they stop

`Accepts` and `Refuses`, of which `Fails` is a case, are carried along
sequences of steps by `Accepts.bind`, `Refuses.bind` and `Refuses.later`.
-/
import XmlRpc.Proofs.Document.Grammar
import XmlRpc.Proofs.Markup.Stream

namespace XmlRpc

namespace Document

open Markup (Token TokenReader Stream Separate)

variable {α β : Type}

/-! ## Sequences -/

theorem bind_apply (m : Reading α) (f : α → Reading β) (r : TokenReader) :
    (m >>= f) r = match m r with
      | .ok a r' => f a r'
      | .error p r' => .error p r' := by
  change EStateM.bind m f r = _
  rw [EStateM.bind]
  cases m r <;> rfl

theorem bind_eq_ok {m : Reading α} {f : α → Reading β} {r r'' : TokenReader} {b : β}
    (h : (m >>= f) r = .ok b r'') : ∃ a r', m r = .ok a r' ∧ f a r' = .ok b r'' := by
  rw [bind_apply] at h
  match hm : m r with
  | .error p r' => rw [hm] at h; cases h
  | .ok a r' => rw [hm] at h; exact ⟨a, r', rfl, h⟩

theorem bind_of_ok {m : Reading α} {f : α → Reading β} {r r' : TokenReader} {a : α}
    (h : m r = .ok a r') : (m >>= f) r = f a r' := by
  rw [bind_apply, h]

theorem bind_of_error {m : Reading α} {f : α → Reading β} {r r' : TokenReader} {p : Problem}
    (h : m r = .error p r') : (m >>= f) r = .error p r' := by
  rw [bind_apply, h]

theorem pure_eq_ok {a b : α} {r r' : TokenReader} (h : (pure a : Reading α) r = .ok b r') :
    a = b ∧ r = r' := by
  cases h
  exact ⟨rfl, rfl⟩

theorem lift_eq_ok {x : Except Problem α} {r r' : TokenReader} {a : α}
    (h : (liftM x : Reading α) r = .ok a r') : x = .ok a ∧ r = r' := by
  cases x with
  | error p => cases h
  | ok b => cases h; exact ⟨rfl, rfl⟩

/-- The reader takes those tokens with that result wherever that stream
follows them. -/
def Accepts (m : Reading α) (ts : List Token) (a : α) (st : Stream) : Prop :=
  ∀ r, r.tokens = st.after ts → ∃ r', m r = .ok a r' ∧ r'.tokens = st

/-- Why there is no further token. -/
def stopProblem : Option Markup.Problem → Problem
  | none => .unexpectedEnd
  | some p => .markup p

/-- The reader ends with that problem on that stream. -/
def Refuses (m : Reading α) (p : Problem) (st : Stream) : Prop :=
  ∀ r : TokenReader, r.tokens = st → ∃ r', m r = .error p r'

/-- The reader fails on that stream, and with what stops the stream. -/
def Fails (m : Reading α) (st : Stream) : Prop := Refuses m (stopProblem st.2) st

theorem Accepts.bind {m : Reading α} {f : α → Reading β} {ts us : List Token} {a : α} {b : β}
    {st : Stream} (hm : Accepts m ts a (st.after us)) (hf : Accepts (f a) us b st) :
    Accepts (m >>= f) (ts ++ us) b st := by
  intro r hr
  obtain ⟨r', hr', ht⟩ := hm r (hr.trans (Stream.after_after ts us st).symm)
  rw [bind_of_ok hr']
  exact hf r' ht

theorem accepts_pure (a : α) (st : Stream) : Accepts (pure a) [] a st :=
  fun r hr => ⟨r, rfl, hr⟩

theorem accepts_lift {x : Except Problem α} {a : α} (h : x = .ok a) (st : Stream) :
    Accepts (liftM x) [] a st := by
  intro r hr
  cases h
  exact ⟨r, rfl, hr⟩

theorem Accepts.lifted {x : Except Problem α} {f : α → Reading β} {a : α} {us : List Token} {b : β}
    {st : Stream} (h : x = .ok a) (hf : Accepts (f a) us b st) : Accepts (liftM x >>= f) us b st :=
  Accepts.bind (accepts_lift h _) hf

theorem Accepts.map {m : Reading α} {f : α → Reading β} {ts : List Token} {a : α} {b : β}
    {st : Stream} (hm : Accepts m ts a st) (hf : Accepts (f a) [] b st) :
    Accepts (m >>= f) ts b st := by
  have h := @Accepts.bind _ _ m f ts [] a b st hm hf
  rwa [List.append_nil] at h

theorem Refuses.bind {m : Reading α} {f : α → Reading β} {p : Problem} {st : Stream}
    (h : Refuses m p st) : Refuses (m >>= f) p st := by
  intro r hr
  obtain ⟨r', hr'⟩ := h r hr
  exact ⟨r', bind_of_error hr'⟩

theorem Refuses.later {m : Reading α} {f : α → Reading β} {p : Problem} {ts : List Token} {a : α}
    {st : Stream} (hm : Accepts m ts a st) (hf : Refuses (f a) p st) :
    Refuses (m >>= f) p (st.after ts) := by
  intro r hr
  obtain ⟨r', hr', ht⟩ := hm r hr
  rw [bind_of_ok hr']
  exact hf r' ht

theorem Fails.bind {m : Reading α} {f : α → Reading β} {st : Stream} (h : Fails m st) :
    Fails (m >>= f) st := Refuses.bind h

theorem Fails.later {m : Reading α} {f : α → Reading β} {ts : List Token} {a : α} {st : Stream}
    (hm : Accepts m ts a st) (hf : Fails (f a) st) : Fails (m >>= f) (st.after ts) :=
  Refuses.later hm hf

/-! ## Single tokens -/

variable {r r' : TokenReader}

theorem read_sound {t : Token} (h : read r = .ok (some t) r') :
    r.tokens = Stream.after [t] r'.tokens ∧ r'.pushedBack = none := by
  have hp := r.read_pushedBack
  match hr : r.read with
  | (.error p, _) => simp only [read, hr] at h; cases h
  | (.ok u, r₁) =>
      simp only [read, hr] at h
      rw [hr] at hp
      cases h
      exact ⟨TokenReader.tokens_of_read_some hr, hp⟩

theorem read_none_sound (h : read r = .ok none r') :
    r.tokens = ([], none) ∧ r'.tokens = ([], none) := by
  match hr : r.read with
  | (.error p, _) => simp only [read, hr] at h; cases h
  | (.ok u, r₁) =>
      simp only [read, hr] at h
      cases h
      exact ⟨TokenReader.tokens_of_read_none hr, TokenReader.tokens_of_end hr⟩

theorem next_sound {t : Token} (h : next r = .ok t r') :
    r.tokens = Stream.after [t] r'.tokens ∧ r'.pushedBack = none := by
  obtain ⟨o, r₁, h₁, h₂⟩ := bind_eq_ok h
  cases o with
  | none => cases h₂
  | some u =>
      cases h₂
      exact read_sound h₁

theorem unread_sound {t : Token} (hp : r.pushedBack = none) (h : unread t r = .ok () r') :
    r'.tokens = Stream.after [t] r.tokens := by
  obtain ⟨r₁, hr, ht⟩ := TokenReader.tokens_unread hp t
  simp only [unread, hr] at h
  cases h
  exact ht

theorem accepts_next (t : Token) (st : Stream) : Accepts next [t] t st := by
  intro r hr
  obtain ⟨r', hr', ht, -⟩ := TokenReader.read_of_tokens_cons hr
  have hread : read r = .ok (some t) r' := by simp only [read, hr']
  exact ⟨r', bind_of_ok hread, ht⟩

theorem Accepts.token {f : Token → Reading α} {t : Token} {us : List Token} {a : α} {st : Stream}
    (hf : Accepts (f t) us a st) : Accepts (next >>= f) (t :: us) a st :=
  Accepts.bind (accepts_next t _) hf

theorem fails_read_problem (p : Markup.Problem) : Fails read ([], some p) := by
  intro r hr
  obtain ⟨r', hr'⟩ := TokenReader.read_of_tokens_problem hr
  exact ⟨r', by simp only [read, hr', stopProblem]⟩

theorem fails_next (stop : Option Markup.Problem) : Fails next ([], stop) := by
  cases stop with
  | some p => exact (fails_read_problem p).bind
  | none =>
      intro r hr
      obtain ⟨r', hr', -⟩ := TokenReader.read_of_tokens_nil hr
      have hread : read r = .ok none r' := by simp only [read, hr']
      exact ⟨r', bind_of_ok hread⟩

/-- A token that is only looked at: taken, and pushed back at once. -/
theorem next_bind_unread {f : Token → Reading α} {g : Unit → Reading α} {t : Token}
    (hf : f t = unread t >>= g) (h : r.tokens.1.head? = some t) :
    ∃ r', r'.tokens = r.tokens ∧ (next >>= f) r = g () r' := by
  obtain ⟨ts, hts⟩ := List.head?_eq_some_iff.mp h
  obtain ⟨r₁, hr₁, ht₁, hp₁⟩ :=
    TokenReader.read_of_tokens_cons (show r.tokens = (t :: ts, r.tokens.2) from Prod.ext hts rfl)
  obtain ⟨r₂, hr₂, ht₂⟩ := TokenReader.tokens_unread hp₁ t
  have hread : read r = .ok (some t) r₁ := by simp only [read, hr₁]
  have hunread : unread t r₁ = .ok () r₂ := by simp only [unread, hr₂]
  have hnext : next r = .ok t r₁ := bind_of_ok hread
  refine ⟨r₂, ?_, ?_⟩
  · rw [ht₂, ht₁]
    exact Prod.ext hts.symm rfl
  · rw [bind_of_ok hnext, hf, bind_of_ok hunread]

theorem Accepts.peek {f : Token → Reading α} {g : Unit → Reading α} {t : Token} {ts : List Token}
    {a : α} {st : Stream} (hg : Accepts (g ()) ts a st) (hf : f t = unread t >>= g)
    (h : (ts ++ st.1).head? = some t) : Accepts (next >>= f) ts a st := by
  intro r hr
  obtain ⟨r', ht, hr'⟩ := next_bind_unread hf (by rw [hr]; exact h)
  rw [hr']
  exact hg r' (ht.trans hr)

theorem Refuses.peek {f : Token → Reading α} {g : Unit → Reading α} {p : Problem} {t : Token}
    {st : Stream} (hg : Refuses (g ()) p st) (hf : f t = unread t >>= g)
    (h : st.1.head? = some t) : Refuses (next >>= f) p st := by
  intro r hr
  obtain ⟨r', ht, hr'⟩ := next_bind_unread hf (by rw [hr]; exact h)
  rw [hr']
  exact hg r' (ht.trans hr)

theorem Fails.peek {f : Token → Reading α} {g : Unit → Reading α} {t : Token} {st : Stream}
    (hg : Fails (g ()) st) (hf : f t = unread t >>= g) (h : st.1.head? = some t) :
    Fails (next >>= f) st := Refuses.peek hg hf h

/-! ## Texts -/

theorem readText_some_sound {s : String} (h : readText r = .ok (some s) r') :
    r.tokens = Stream.after [.text s] r'.tokens := by
  obtain ⟨t, r₁, h₁, h₂⟩ := bind_eq_ok h
  cases t with
  | text s' =>
      cases h₂
      exact (next_sound h₁).1
  | _ =>
      obtain ⟨_, r₂, -, h₄⟩ := bind_eq_ok h₂
      cases h₄

theorem readText_none_sound (h : readText r = .ok none r') :
    r'.tokens = r.tokens ∧ ∀ s, r.tokens.1.head? ≠ some (.text s) := by
  obtain ⟨t, r₁, h₁, h₂⟩ := bind_eq_ok h
  obtain ⟨ht, hp⟩ := next_sound h₁
  cases t with
  | text s => cases h₂
  | _ =>
      obtain ⟨_, r₂, h₃, h₄⟩ := bind_eq_ok h₂
      cases h₄
      rw [ht]
      exact ⟨unread_sound hp h₃, fun s hs => by cases hs⟩

theorem Accepts.text {f : Option String → Reading β} {s : String} {us : List Token} {b : β}
    {st : Stream} (hf : Accepts (f (some s)) us b st) :
    Accepts (readText >>= f) (.text s :: us) b st := by
  have htext : Accepts readText [.text s] (some s) (st.after us) :=
    (accepts_next (.text s) _).map (accepts_pure (some s) _)
  exact htext.bind hf

theorem accepts_readText_none {t : Token} {st : Stream} (h : st.1.head? = some t)
    (ht : ∀ s, t ≠ .text s) : Accepts readText [] none st := by
  refine Accepts.peek (g := fun _ => pure none) (accepts_pure none st) ?_ h
  cases t with
  | text s => exact absurd rfl (ht s)
  | _ => rfl

theorem Accepts.noText {f : Option String → Reading β} {t : Token} {us : List Token} {b : β}
    {st : Stream} (h : (us ++ st.1).head? = some t) (ht : ∀ s, t ≠ .text s)
    (hf : Accepts (f none) us b st) : Accepts (readText >>= f) us b st :=
  Accepts.bind (accepts_readText_none h ht) hf

theorem fails_readText (stop : Option Markup.Problem) : Fails readText ([], stop) :=
  (fails_next stop).bind

/-! ## Blanks -/

theorem trim_of_blank {t : Token} (h : r.read = (.ok (some t), r')) (ht : t.isBlank = true) :
    r.trim = r'.trim := by
  rw [TokenReader.trim]
  split <;> rename_i h' <;> rw [h] at h' <;> cases h'
  rw [if_pos ht]

theorem trim_of_not_blank {r'' : TokenReader} {t : Token} (h : r.read = (.ok (some t), r'))
    (ht : t.isBlank = false) (hu : r'.unread t = .ok r'') : r.trim = (.ok (), r'') := by
  rw [TokenReader.trim]
  split <;> rename_i h' <;> rw [h] at h' <;> cases h'
  rw [if_neg (by simp [ht]), hu]

theorem trim_of_end (h : r.read = (.ok none, r')) : r.trim = (.ok (), r') := by
  rw [TokenReader.trim]
  split <;> rename_i h' <;> rw [h] at h' <;> cases h'
  rfl

theorem trim_of_problem {p : Markup.Problem} (h : r.read = (.error p, r')) :
    r.trim = (.error p, r') := by
  rw [TokenReader.trim]
  split <;> rename_i h' <;> rw [h] at h' <;> cases h'
  rfl

def Blanks (ts : List Token) : Prop := ∀ t ∈ ts, t.isBlank = true

theorem blanks_nil : Blanks [] := fun _ ht => by cases ht

theorem Ws.blanks {w : List Token} (h : Ws w) : Blanks w := by
  intro t ht
  cases h with
  | none => cases ht
  | blank hs =>
      cases List.mem_singleton.mp ht
      exact hs

theorem Blanks.append {w₁ w₂ : List Token} (h₁ : Blanks w₁) (h₂ : Blanks w₂) :
    Blanks (w₁ ++ w₂) := by
  intro t ht
  rcases List.mem_append.mp ht with ht | ht
  · exact h₁ t ht
  · exact h₂ t ht

/-- Where texts are as long as can be, blanks are at most one text. -/
theorem Blanks.ws {w : List Token} (h : Blanks w) (hs : Separate w) : Ws w := by
  have htext {t : Token} (ht : t.isBlank = true) : ∃ s, t = .text s ∧ Blank.isBlank s.toList := by
    cases t with
    | text s => exact ⟨s, rfl, ht⟩
    | _ => cases ht
  match w with
  | [] => exact .none
  | [t] =>
      obtain ⟨s, rfl, hb⟩ := htext (h t List.mem_cons_self)
      exact .blank hb
  | t :: u :: w =>
      obtain ⟨s, rfl, -⟩ := htext (h t List.mem_cons_self)
      obtain ⟨s', rfl, -⟩ := htext (h u (List.mem_cons_of_mem _ List.mem_cons_self))
      exact absurd ⟨[], w, rfl⟩ (hs s s')

theorem trim_eq_ok (h : trim r = .ok () r') : r.trim = (.ok (), r') := by
  match ht : r.trim with
  | (.ok (), r₁) => simp only [trim, ht] at h; cases h; rfl
  | (.error p, r₁) => simp only [trim, ht] at h; cases h

theorem trim_blanks {r r' : TokenReader} (h : r.trim = (.ok (), r')) :
    ∃ w, Blanks w ∧ r.tokens = Stream.after w r'.tokens := by
  have hp := r.read_pushedBack
  match hr : r.read with
  | (.error p, r₁) => rw [trim_of_problem hr] at h; cases h
  | (.ok none, r₁) =>
      rw [trim_of_end hr] at h
      cases h
      refine ⟨[], blanks_nil, ?_⟩
      rw [TokenReader.tokens_of_read_none hr, TokenReader.tokens_of_end hr]
      rfl
  | (.ok (some t), r₁) =>
      have hlt : r₁.size < r.size := by
        have := TokenReader.read_size_lt (congrArg Prod.fst hr)
        rwa [hr] at this
      rw [hr] at hp
      cases ht : t.isBlank with
      | true =>
          rw [trim_of_blank hr ht] at h
          obtain ⟨w, hw, hr₁⟩ := trim_blanks h
          refine ⟨t :: w, ?_, ?_⟩
          · intro u hu
            rcases List.mem_cons.mp hu with rfl | hu
            · exact ht
            · exact hw u hu
          · rw [TokenReader.tokens_of_read_some hr, hr₁]
            rfl
      | false =>
          obtain ⟨r₂, hr₂, ht₂⟩ := TokenReader.tokens_unread hp t
          rw [trim_of_not_blank hr ht hr₂] at h
          cases h
          refine ⟨[], blanks_nil, ?_⟩
          rw [TokenReader.tokens_of_read_some hr, ht₂]
          rfl
termination_by r.size

theorem trim_sound (hs : Separate r.tokens.1) (h : trim r = .ok () r') :
    ∃ w, Ws w ∧ r.tokens = Stream.after w r'.tokens := by
  obtain ⟨w, hw, ht⟩ := trim_blanks (trim_eq_ok h)
  refine ⟨w, hw.ws (hs.of_infix ?_), ht⟩
  rw [ht]
  exact (List.prefix_append w _).isInfix

/-- What is true of trimming where no blanks are left is true of trimming
behind blanks. -/
theorem trim_of_blanks {w : List Token} (hw : Blanks w) {st : Stream}
    (hr : r.tokens = st.after w) : ∃ r', r'.tokens = st ∧ trim r = trim r' := by
  induction w generalizing r with
  | nil => exact ⟨r, hr, rfl⟩
  | cons t w ih =>
      obtain ⟨r₁, hr₁, ht₁, -⟩ := TokenReader.read_of_tokens_cons hr
      obtain ⟨r₂, hr₂, ht₂⟩ := ih (fun u hu => hw u (List.mem_cons_of_mem t hu)) ht₁
      refine ⟨r₂, hr₂, ?_⟩
      rw [← ht₂, trim, trim, trim_of_blank hr₁ (hw t List.mem_cons_self)]

theorem accepts_trim {w : List Token} (hw : Blanks w) {t : Token} {st : Stream}
    (h : st.1.head? = some t) (ht : t.isBlank = false) : Accepts trim w () st := by
  intro r hr
  obtain ⟨r₁, hr₁, he⟩ := trim_of_blanks hw hr
  obtain ⟨ts, hts⟩ := List.head?_eq_some_iff.mp h
  have hst : st = (t :: ts, st.2) := Prod.ext hts rfl
  obtain ⟨r₂, hr₂, ht₂, hp₂⟩ := TokenReader.read_of_tokens_cons (hr₁.trans hst)
  obtain ⟨r₃, hr₃, ht₃⟩ := TokenReader.tokens_unread hp₂ t
  refine ⟨r₃, ?_, ?_⟩
  · rw [he, trim, trim_of_not_blank hr₂ ht hr₃]
  · rw [ht₃, ht₂, hst]
    rfl

theorem accepts_trim_end {w : List Token} (hw : Blanks w) : Accepts trim w () ([], none) := by
  intro r hr
  obtain ⟨r₁, hr₁, he⟩ := trim_of_blanks hw hr
  obtain ⟨r₂, hr₂, ht₂, -⟩ := TokenReader.read_of_tokens_nil hr₁
  refine ⟨r₂, ?_, ht₂⟩
  rw [he, trim, trim_of_end hr₂]

theorem fails_trim {w : List Token} (hw : Blanks w) (p : Markup.Problem) :
    Fails trim (w, some p) := by
  intro r hr
  have hr' : r.tokens = Stream.after w ([], some p) := by
    rw [hr]
    simp [Stream.after]
  obtain ⟨r₁, hr₁, he⟩ := trim_of_blanks hw hr'
  obtain ⟨r₂, hr₂⟩ := TokenReader.read_of_tokens_problem hr₁
  refine ⟨r₂, ?_⟩
  rw [he, trim, trim_of_problem hr₂]
  rfl

theorem fails_trim_next {w : List Token} (hw : Blanks w) (stop : Option Markup.Problem)
    (f : Token → Reading α) : Fails (trim >>= fun _ => next >>= f) (w, stop) := by
  cases stop with
  | some p => exact (fails_trim hw p).bind
  | none =>
      have := Fails.later (accepts_trim_end hw) (fails_next none).bind (f := fun _ => next >>= f)
      simpa [Stream.after] using this

/-! ## Tags -/

variable {tag : Tag} {w : List Token} {st : Stream}

theorem trim_next_sound {f : Token → Reading α} {a : α} (hs : Separate r.tokens.1)
    (h : (trim >>= fun _ => next >>= f) r = .ok a r') :
    ∃ w t r₁, Ws w ∧ r.tokens = Stream.after (w ++ [t]) r₁.tokens ∧ r₁.pushedBack = none ∧
      f t r₁ = .ok a r' := by
  obtain ⟨_, r₁, h₁, h⟩ := bind_eq_ok h
  obtain ⟨w, hw, ht₁⟩ := trim_sound hs h₁
  obtain ⟨t, r₂, h₂, h⟩ := bind_eq_ok h
  obtain ⟨ht₂, hp₂⟩ := next_sound h₂
  exact ⟨w, t, r₂, hw, by rw [ht₁, ht₂, Stream.after_after], hp₂, h⟩

theorem expectStart_sound (hs : Separate r.tokens.1) (h : expectStart tag r = .ok () r') :
    ∃ w, Ws w ∧ r.tokens = Stream.after (w ++ [startOf tag]) r'.tokens := by
  obtain ⟨w, t, r₁, hw, hr, -, h⟩ := trim_next_sound hs h
  split at h
  · rename_i ht
    cases h
    exact ⟨w, hw, by rw [hr, ht]; rfl⟩
  · cases h

theorem expectEnd_sound (hs : Separate r.tokens.1) (h : expectEnd tag r = .ok () r') :
    ∃ w, Ws w ∧ r.tokens = Stream.after (w ++ [endOf tag]) r'.tokens := by
  obtain ⟨w, t, r₁, hw, hr, -, h⟩ := trim_next_sound hs h
  split at h
  · rename_i ht
    cases h
    exact ⟨w, hw, by rw [hr, ht]; rfl⟩
  · cases h

theorem nextStartIs_true_sound (hs : Separate r.tokens.1)
    (h : nextStartIs tag r = .ok true r') :
    ∃ w, Ws w ∧ r.tokens = Stream.after (w ++ [startOf tag]) r'.tokens := by
  obtain ⟨w, t, r₁, hw, hr, -, h⟩ := trim_next_sound hs h
  split at h
  · rename_i ht
    cases h
    exact ⟨w, hw, by rw [hr, ht]; rfl⟩
  · obtain ⟨_, r₂, -, h⟩ := bind_eq_ok h
    cases h

theorem nextStartIs_false_sound (hs : Separate r.tokens.1)
    (h : nextStartIs tag r = .ok false r') :
    ∃ w, Ws w ∧ r.tokens = Stream.after w r'.tokens := by
  obtain ⟨w, t, r₁, hw, hr, hp, h⟩ := trim_next_sound hs h
  split at h
  · cases h
  · obtain ⟨_, r₂, h₂, h⟩ := bind_eq_ok h
    cases h
    exact ⟨w, hw, by rw [hr, unread_sound hp h₂, Stream.after_after]⟩

theorem accepts_trim_next {f : Token → Reading α} {t : Token} {a : α} (hw : Blanks w)
    (ht : t.isBlank = false) (hf : f t = pure a) (st : Stream) :
    Accepts (trim >>= fun _ => next >>= f) (w ++ [t]) a st :=
  (accepts_trim hw (t := t) rfl ht).bind ((accepts_next t st).map (hf ▸ accepts_pure a st))

variable {f : Unit → Reading β} {us : List Token} {b : β}

theorem Accepts.start (hw : Blanks w) (hf : Accepts (f ()) us b st) :
    Accepts (expectStart tag >>= f) (w ++ startOf tag :: us) b st := by
  have h : Accepts (expectStart tag) (w ++ [startOf tag]) () (st.after us) :=
    accepts_trim_next hw rfl (if_pos rfl) _
  have hb := h.bind hf
  rwa [List.append_assoc] at hb

theorem Accepts.close (hw : Blanks w) (hf : Accepts (f ()) us b st) :
    Accepts (expectEnd tag >>= f) (w ++ endOf tag :: us) b st := by
  have h : Accepts (expectEnd tag) (w ++ [endOf tag]) () (st.after us) :=
    accepts_trim_next hw rfl (if_pos rfl) _
  have hb := h.bind hf
  rwa [List.append_assoc] at hb

theorem Accepts.started {f : Bool → Reading β} (hw : Blanks w) (hf : Accepts (f true) us b st) :
    Accepts (nextStartIs tag >>= f) (w ++ startOf tag :: us) b st := by
  have h : Accepts (nextStartIs tag) (w ++ [startOf tag]) true (st.after us) :=
    accepts_trim_next hw rfl (if_pos rfl) _
  have hb := h.bind hf
  rwa [List.append_assoc] at hb

theorem accepts_nextStartIs_false (hw : Blanks w) {t : Token} (h : st.1.head? = some t)
    (hb : t.isBlank = false) (ht : t ≠ startOf tag) : Accepts (nextStartIs tag) w false st := by
  refine Accepts.map (accepts_trim hw h hb) ?_
  exact Accepts.peek (g := fun _ => pure false) (accepts_pure false st) (if_neg ht) h

theorem Accepts.notStarted {f : Bool → Reading β} (hw : Blanks w) {t : Token}
    (h : (us ++ st.1).head? = some t) (hb : t.isBlank = false) (ht : t ≠ startOf tag)
    (hf : Accepts (f false) us b st) : Accepts (nextStartIs tag >>= f) (w ++ us) b st :=
  Accepts.bind (accepts_nextStartIs_false hw h hb ht) hf

/-! ## Refusals behind steps -/

section Refusals

variable {p : Problem} {stop : Option Markup.Problem}

theorem Refuses.start {f : Unit → Reading β} (hf : Refuses (f ()) p (us, stop)) :
    Refuses (expectStart tag >>= f) p (startOf tag :: us, stop) :=
  @Refuses.later _ _ _ _ p [startOf tag] () (us, stop)
    (accepts_trim_next blanks_nil rfl (if_pos rfl) _) hf

theorem Refuses.close {f : Unit → Reading β} (hf : Refuses (f ()) p (us, stop)) :
    Refuses (expectEnd tag >>= f) p (endOf tag :: us, stop) :=
  @Refuses.later _ _ _ _ p [endOf tag] () (us, stop)
    (accepts_trim_next blanks_nil rfl (if_pos rfl) _) hf

theorem Refuses.started {f : Bool → Reading β} (hf : Refuses (f true) p (us, stop)) :
    Refuses (nextStartIs tag >>= f) p (startOf tag :: us, stop) :=
  @Refuses.later _ _ _ _ p [startOf tag] true (us, stop)
    (accepts_trim_next blanks_nil rfl (if_pos rfl) _) hf

theorem Refuses.token {f : Token → Reading β} {t : Token} (hf : Refuses (f t) p (us, stop)) :
    Refuses (next >>= f) p (t :: us, stop) :=
  @Refuses.later _ _ _ _ p [t] t (us, stop) (accepts_next t _) hf

theorem Refuses.text {f : Option String → Reading β} {s : String}
    (hf : Refuses (f (some s)) p (us, stop)) : Refuses (readText >>= f) p (.text s :: us, stop) :=
  @Refuses.later _ _ _ _ p [.text s] (some s) (us, stop)
    ((accepts_next (.text s) _).map (accepts_pure (some s) _)) hf

theorem Refuses.noText {f : Option String → Reading β} {t : Token} (ht : ∀ s, t ≠ .text s)
    (hf : Refuses (f none) p (t :: us, stop)) : Refuses (readText >>= f) p (t :: us, stop) :=
  @Refuses.later _ _ _ _ p [] none (t :: us, stop) (accepts_readText_none rfl ht) hf

theorem refuses_throw (p : Problem) (st : Stream) : Refuses (throw p : Reading β) p st :=
  fun r _ => ⟨r, rfl⟩

end Refusals

/-! ## Inside values -/

/-- Reads the content and the end tag of an element inside a value. -/
def readTyped (fuel : Nat) : Tag → Reading Value
  | .array => do
    expectStart .data
    let items ← readItems fuel
    expectEnd .data
    expectEnd .array
    return .array items
  | .struct => do
    let members ← readMembers fuel
    expectEnd .struct
    return .struct members
  | tag => readScalar tag

/-- What a value holds, between the text that may come first and the end
tag. -/
def readBody (fuel : Nat) (text : Option String) : Token → Reading Value
  | .endTag name =>
    if name = Tag.value.label then return text.elim .nil .string
    else throw (.misplaced Tag.value.closeTag (.endTag name))
  | .startTag name => do
    let tag ← typeOf text name
    let v ← readTyped fuel tag
    expectEnd .value
    return v
  | other => throw (.misplaced Tag.value.closeTag other)

theorem readValue_succ (fuel : Nat) : readValue (fuel + 1) = (do
    expectStart .value
    let text ← readText
    let t ← next
    readBody fuel text t) := by
  rw [readValue]
  refine bind_congr fun _ => bind_congr fun text => bind_congr ?_
  intro t
  cases t with
  | startTag name =>
      refine bind_congr ?_
      intro tag
      cases tag <;> simp only [readTyped, bind_assoc, pure_bind]
  | endTag name => cases text <;> rfl
  | _ => rfl

/-! ## Inside envelopes -/

def readOptionalParams (fuel : Nat) : Reading Params := do
  if ← nextStartIs .params then readParams fuel else return []

theorem readCall_eq (fuel : Nat) : readCall fuel = (do
    readHeader
    expectStart .methodCall
    expectStart .methodName
    let method ← readText
    expectEnd .methodName
    let params ← readOptionalParams fuel
    expectEnd .methodCall
    return ⟨method.getD "", params⟩) := by
  rw [readCall]
  refine bind_congr fun _ => bind_congr fun _ => bind_congr fun _ => bind_congr ?_
  intro method
  refine bind_congr ?_
  intro _
  rw [readOptionalParams, bind_assoc]
  refine bind_congr ?_
  intro b
  cases b with
  | true => rfl
  | false => rfl

def readFault (fuel : Nat) : Reading Response := do
  expectStart .fault
  let v ← readValue fuel
  if v.kind = .struct then
    expectEnd .fault
    return ⟨[], v⟩
  else throw (.faultNotStruct v.kind)

def readResult (fuel : Nat) : Reading Response := do
  if ← nextStartIs .params then
    let params ← readParams fuel
    return ⟨params, .nil⟩
  else readFault fuel

theorem readResponse_eq (fuel : Nat) : readResponse fuel = (do
    readHeader
    expectStart .methodResponse
    let response ← readResult fuel
    expectEnd .methodResponse
    return response) := by
  rw [readResponse]
  refine bind_congr fun _ => bind_congr ?_
  intro _
  rw [readResult, bind_assoc]
  refine bind_congr ?_
  intro b
  cases b with
  | true => simp only [if_true, bind_assoc, pure_bind]
  | false =>
      simp only [Bool.false_eq_true, if_false, readFault, bind_assoc]
      refine bind_congr fun _ => bind_congr ?_
      intro v
      by_cases hv : v.kind = .struct
      · rw [if_neg (not_not_intro hv), if_pos hv, bind_assoc]
      · rw [if_pos hv, if_neg hv]
        rfl

end Document

end XmlRpc
