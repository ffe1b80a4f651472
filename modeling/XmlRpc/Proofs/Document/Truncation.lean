/-
# Documents cut short

No reader accepts a document of which the last tokens are missing.  It takes
what is there, and then it fails with what stops the tokens: the problem, or
the end of the input that comes unexpectedly.  In particular it never fails
because of what is there.

With the place up to which a source holds a document, this is the law of cuts
(`cut_law`):

    behind it     whatever comes, the same result is read
    before it     a fault for malformed input or for a cut character if the
                  input ends there, and the failure of the stream if it breaks
-/
import XmlRpc.Proofs.Document.RoundTrip
import XmlRpc.Proofs.Markup.Cut

namespace XmlRpc

namespace Document

open Markup (Token TokenReader Stream Truncated not_truncated_nil EndsInTag CutShort)

theorem isBlank_prefix {cs ds : List Char} (h : cs <+: ds) (hd : Blank.isBlank ds = true) :
    Blank.isBlank cs = true := by
  rw [Blank.isBlank, List.all_eq_true] at hd ⊢
  intro c hc
  exact hd c (h.subset hc)

theorem blanks_of_truncated {w us : List Token} (hw : Blanks w) (h : Truncated us w) :
    Blanks us := by
  induction h with
  | here => exact blanks_nil
  | inText hs =>
      intro t ht
      cases List.mem_singleton.mp ht
      exact isBlank_prefix hs (hw _ List.mem_cons_self)
  | cons _ ih =>
      intro t ht
      rcases List.mem_cons.mp ht with rfl | ht
      · exact hw t List.mem_cons_self
      · exact ih (fun u hu => hw u (List.mem_cons_of_mem _ hu)) t ht

theorem truncated_of_blanks {w us ts : List Token} {t : Token} (hw : Blanks w)
    (h : Truncated us (w ++ t :: ts)) (ht : ∀ s, t ≠ .text s) :
    Blanks us ∨ ∃ us', us = w ++ t :: us' ∧ Truncated us' ts := by
  rcases h.of_append with hl | ⟨us', rfl, hr⟩
  · exact .inl (blanks_of_truncated hw hl)
  · rcases hr.of_cons ht with rfl | ⟨us'', rfl, hr'⟩
    · exact .inl (by rw [List.append_nil]; exact hw)
    · exact .inr ⟨us'', rfl, hr'⟩

/-! ## Steps -/

variable {α β : Type} {stop : Option Markup.Problem} {us w ts : List Token} {tag : Tag}

theorem fails_cut_trim {m : Reading α} {f : α → Reading β} {t : Token} {a : α} (hw : Blanks w)
    (ht : ∀ s, t ≠ .text s) (h : Truncated us (w ++ t :: ts))
    (hm : ∀ w, Blanks w → Fails m (w, stop)) (ha : ∀ st, Accepts m (w ++ [t]) a st)
    (hf : ∀ us', us'.length < us.length → Truncated us' ts → Fails (f a) (us', stop)) :
    Fails (m >>= f) (us, stop) := by
  rcases truncated_of_blanks hw h ht with hb | ⟨us', rfl, hr⟩
  · exact (hm us hb).bind
  · have hlt : us'.length < (w ++ t :: us').length := by
      rw [List.length_append, List.length_cons]
      omega
    have hlater := Fails.later (ha (us', stop)) (hf us' hlt hr)
    have heq : Stream.after (w ++ [t]) (us', stop) = (w ++ t :: us', stop) := by
      simp [Stream.after]
    rwa [heq] at hlater

theorem Fails.start {f : Unit → Reading β} (hw : Blanks w)
    (h : Truncated us (w ++ startOf tag :: ts))
    (hf : ∀ us', us'.length < us.length → Truncated us' ts → Fails (f ()) (us', stop)) :
    Fails (expectStart tag >>= f) (us, stop) :=
  fails_cut_trim hw (by simp [startOf]) h (fun _ hw => fails_trim_next hw stop _)
    (accepts_trim_next hw rfl (if_pos rfl)) hf

theorem Fails.close {f : Unit → Reading β} (hw : Blanks w)
    (h : Truncated us (w ++ endOf tag :: ts))
    (hf : ∀ us', us'.length < us.length → Truncated us' ts → Fails (f ()) (us', stop)) :
    Fails (expectEnd tag >>= f) (us, stop) :=
  fails_cut_trim hw (by simp [endOf]) h (fun _ hw => fails_trim_next hw stop _)
    (accepts_trim_next hw rfl (if_pos rfl)) hf

theorem Fails.started {f : Bool → Reading β} (hw : Blanks w)
    (h : Truncated us (w ++ startOf tag :: ts))
    (hf : ∀ us', us'.length < us.length → Truncated us' ts → Fails (f true) (us', stop)) :
    Fails (nextStartIs tag >>= f) (us, stop) :=
  fails_cut_trim hw (by simp [startOf]) h (fun _ hw => fails_trim_next hw stop _)
    (accepts_trim_next hw rfl (if_pos rfl)) hf

theorem Fails.token {f : Token → Reading α} {t : Token} (h : Truncated us (t :: ts))
    (ht : ∀ s, t ≠ .text s)
    (hf : ∀ us', us'.length < us.length → Truncated us' ts → Fails (f t) (us', stop)) :
    Fails (next >>= f) (us, stop) := by
  rcases h.of_cons ht with rfl | ⟨us', rfl, hr⟩
  · exact (fails_next stop).bind
  · exact Fails.later (accepts_next t (us', stop)) (hf us' (Nat.lt_succ_self _) hr)

/-- A text may be cut itself, and then nothing follows it. -/
theorem Fails.text {f : Option String → Reading β} {s : String} (h : Truncated us (.text s :: ts))
    (hcut : ∀ s', Fails (f (some s')) ([], stop))
    (hf : ∀ us', us'.length < us.length → Truncated us' ts → Fails (f (some s)) (us', stop)) :
    Fails (readText >>= f) (us, stop) := by
  have htext (s : String) (us : List Token) (hs : Fails (f (some s)) (us, stop)) :
      Fails (readText >>= f) (.text s :: us, stop) :=
    Fails.later ((accepts_next (.text s) _).map (accepts_pure (some s) _)) hs
  cases h with
  | here => exact (fails_readText stop).bind
  | @inText _ s' => exact htext s' [] (hcut s')
  | @cons _ us' _ h => exact htext s us' (hf us' (Nat.lt_succ_self _) h)

theorem Fails.noText {f : Option String → Reading β} {t : Token} (h : Truncated us (t :: ts))
    (ht : ∀ s, t ≠ .text s) (hf : Fails (f none) (us, stop)) :
    Fails (readText >>= f) (us, stop) := by
  rcases h.of_cons ht with rfl | ⟨us', rfl, -⟩
  · exact (fails_readText stop).bind
  · have hnone : Accepts readText [] none (t :: us', stop) := accepts_readText_none rfl ht
    exact Fails.later hnone hf

theorem Fails.lifted {x : Except Problem α} {f : α → Reading β} {a : α} {st : Stream}
    (h : x = .ok a) (hf : Fails (f a) st) : Fails (liftM x >>= f) st :=
  Fails.later (accepts_lift h st) hf

theorem fails_close {f : Unit → Reading β} (h : Truncated us [endOf tag]) :
    Fails (expectEnd tag >>= f) (us, stop) :=
  .close blanks_nil h fun _ _ h => absurd h not_truncated_nil

/-! ## Values -/

theorem fails_readScalar {s : String} (hts : OptionalText ts s)
    (h : Truncated us (ts ++ [endOf tag])) : Fails (readScalar tag) (us, stop) := by
  cases hts with
  | none => exact .noText h (by simp [endOf]) (fails_close h)
  | text s =>
      refine .text h ?_ fun us' _ h' => fails_close h'
      intro s'
      exact (fails_trim_next blanks_nil stop _).bind

/-- The reader fails on every truncated value with fewer tokens than its
fuel. -/
def ValueCut (stop : Option Markup.Problem) (fuel : Nat) : Prop :=
  ∀ (w ts us : List Token) (v : Value), Blanks w → ValueForm ts v → Truncated us (w ++ ts) →
    us.length < fuel → Fails (readValue fuel) (us, stop)

def ItemsCut (stop : Option Markup.Problem) (fuel : Nat) : Prop :=
  ∀ (ts w us : List Token) (vs : List Value) (tag : Tag), ItemsForm ts vs → Blanks w →
    Truncated us (ts ++ (w ++ [endOf tag])) → us.length + 1 < fuel →
    Fails (readItems fuel) (us, stop)

def MembersCut (stop : Option Markup.Problem) (fuel : Nat) : Prop :=
  ∀ (ts w us : List Token) (ms : List Member) (tag : Tag), MembersForm ts ms → Blanks w →
    Truncated us (ts ++ (w ++ [endOf tag])) → us.length + 1 < fuel →
    Fails (readMembers fuel) (us, stop)

variable {fuel : Nat}

theorem blanks_before_end {w us : List Token} (hw : Blanks w)
    (h : Truncated us (w ++ [endOf tag])) : Blanks us := by
  rcases truncated_of_blanks hw h (by simp [endOf]) with hb | ⟨us', -, h'⟩
  · exact hb
  · exact absurd h' not_truncated_nil

theorem Fails.value {f : Value → Reading β} {us' : List Token} {v : Value}
    (hc : ValueCut stop fuel) (hw : Blanks w) (hts : ValueForm ts v)
    (h : Truncated us (w ++ (ts ++ us'))) (hlt : us.length < fuel)
    (hf : ∀ us₁, us₁.length + 1 < us.length → Truncated us₁ us' → Fails (f v) (us₁, stop)) :
    Fails (readValue fuel >>= f) (us, stop) := by
  rw [← List.append_assoc] at h
  rcases h.of_append with hl | ⟨us₁, rfl, hr⟩
  · exact (hc w ts us v hw hts hl hlt).bind
  · obtain ⟨ts', rfl, hne⟩ := hts.head
    have hpos : 0 < ts'.length := List.length_pos_iff.mpr hne
    simp only [List.length_append, List.length_cons] at hlt hf
    have hlen : (startOf .value :: ts').length < fuel := by
      rw [List.length_cons]
      omega
    have hread := (readers_complete fuel).1 w _ v (us₁, stop) hw hts hlen
    exact Fails.later hread (hf us₁ (by omega) hr)

theorem itemsCut_succ (hv : ValueCut stop fuel) (hi : ItemsCut stop fuel) :
    ItemsCut stop (fuel + 1) := by
  intro ts w us vs tag hts hw h hlt
  rw [readItems]
  cases hts with
  | nil => exact fails_trim_next (blanks_before_end hw h) stop _
  | @cons w₁ ts₁ ts₂ v vs hw₁ hts₁ hts₂ =>
      obtain ⟨ts', rfl, -⟩ := hts₁.head
      rw [List.append_assoc, List.append_assoc] at h
      rcases truncated_of_blanks hw₁.blanks h (by simp [startOf]) with hb | ⟨us₁, rfl, h₁⟩
      · exact fails_trim_next hb stop _
      · rw [List.length_append, List.length_cons] at hlt
        have htrim : Accepts trim w₁ () (startOf .value :: us₁, stop) :=
          accepts_trim hw₁.blanks rfl rfl
        refine Fails.later htrim (Fails.peek (t := startOf .value) ?_ (if_pos rfl) rfl)
        refine .value hv blanks_nil hts₁ (.cons h₁) (by rw [List.length_cons]; omega) ?_
        intro us₂ hlen h₂
        rw [List.length_cons] at hlen
        exact (hi ts₂ w us₂ vs tag hts₂ hw h₂ (by omega)).bind

theorem membersCut_succ (hv : ValueCut stop fuel) (hm : MembersCut stop fuel) :
    MembersCut stop (fuel + 1) := by
  intro ts w us ms tag hts hw h hlt
  rw [readMembers]
  cases hts with
  | nil => exact (fails_trim_next (blanks_before_end hw h) stop _).bind
  | @cons w₁ w₂ w₃ ts₁ w₄ ts₂ name v ms hw₁ hw₂ hw₃ hts₁ hw₄ hts₂ =>
      simp only [List.append_assoc, List.cons_append] at h
      refine .started hw₁.blanks h ?_
      intro us₁ hl₁ h₁
      refine .start hw₂.blanks h₁ ?_
      intro us₂ hl₂ h₂
      refine .text h₂ (fun _ => (fails_trim_next blanks_nil stop _).bind) ?_
      intro us₃ hl₃ h₃
      refine .close blanks_nil h₃ ?_
      intro us₄ hl₄ h₄
      refine .value hv hw₃.blanks hts₁ h₄ (by omega) ?_
      intro us₅ hl₅ h₅
      refine .close hw₄.blanks h₅ ?_
      intro us₆ hl₆ h₆
      exact (hm ts₂ w us₆ ms tag hts₂ hw h₆ (by omega)).bind

theorem Fails.list {m : Reading α} {f : α → Unit → Reading β} {a : α} {us' : List Token}
    (hcut : Truncated us (ts ++ (w ++ [endOf tag])) → Fails m (us, stop))
    (hacc : ∀ st : Stream, ts.length < us.length → st.1.head? = some (endOf tag) →
      Accepts m (ts ++ w) a st)
    (h : Truncated us (ts ++ (w ++ endOf tag :: us')))
    (hf : ∀ us₁, us₁.length < us.length → Truncated us₁ us' → Fails (f a ()) (us₁, stop)) :
    Fails (m >>= fun a => expectEnd tag >>= f a) (us, stop) := by
  have hsplit : ts ++ (w ++ endOf tag :: us') = (ts ++ (w ++ [endOf tag])) ++ us' := by simp
  rw [hsplit] at h
  rcases h.of_append with hl | ⟨us₁, rfl, hr⟩
  · exact (hcut hl).bind
  · simp only [List.length_append, List.length_cons] at hacc hf
    have hend : Accepts (expectEnd tag) [endOf tag] () (us₁, stop) :=
      accepts_trim_next blanks_nil rfl (if_pos rfl) _
    have hclose := Fails.later hend (hf us₁ (by omega) hr)
    have hlater := Fails.later (f := fun a => expectEnd tag >>= f a)
      (hacc (endOf tag :: us₁, stop) (by omega) rfl) hclose
    have heq : Stream.after (ts ++ w) (endOf tag :: us₁, stop)
        = (ts ++ (w ++ [endOf tag]) ++ us₁, stop) := by
      simp [Stream.after]
    rwa [heq] at hlater

theorem fails_readTyped (hi : ItemsCut stop fuel) (hm : MembersCut stop fuel) {v : Value}
    {us' : List Token} {f : Value → Reading β} (hts : TypedForm (startOf tag :: ts) v)
    (h : Truncated us (ts ++ us')) (hlt : us.length + 1 < fuel)
    (hf : ∀ us₁, Truncated us₁ us' → Fails (f v) (us₁, stop)) :
    Fails (readTyped fuel tag >>= f) (us, stop) := by
  obtain ⟨-, hci, hcm⟩ := readers_complete fuel
  generalize hzs : startOf tag :: ts = zs at hts
  cases hts with
  | @scalar tag' ts' s v ht hts' hv =>
      obtain ⟨htag, rfl⟩ := List.cons.inj hzs
      cases startOf_inj htag
      rw [readTyped_scalar fuel ht]
      rcases h.of_append with hl | ⟨us₁, rfl, hr⟩
      · exact (fails_readScalar hts' hl).bind
      · exact Fails.later (accepts_readScalar hts' hv _) (hf us₁ hr)
  | @array w₁ ts' w₂ w₃ vs hw₁ hts' hw₂ hw₃ =>
      obtain ⟨htag, rfl⟩ := List.cons.inj hzs
      cases startOf_inj htag
      simp only [List.append_assoc, List.cons_append, List.nil_append] at h
      rw [readTyped]
      simp only [bind_assoc, pure_bind]
      refine .start hw₁.blanks h ?_
      intro us₁ hl₁ h₁
      refine .list (fun hcut => hi ts' w₂ us₁ vs .data hts' hw₂.blanks hcut (by omega))
        (fun st hl hst => hci ts' w₂ vs .data st hts' hw₂.blanks hst (by omega)) h₁ ?_
      intro us₂ hl₂ h₂
      exact .close hw₃.blanks h₂ fun us₃ _ h₃ => hf us₃ h₃
  | @struct ts' w ms hts' hw =>
      obtain ⟨htag, rfl⟩ := List.cons.inj hzs
      cases startOf_inj htag
      simp only [List.append_assoc, List.cons_append, List.nil_append] at h
      rw [readTyped]
      simp only [bind_assoc, pure_bind]
      exact .list (fun hcut => hm ts' w us ms .struct hts' hw.blanks hcut (by omega))
        (fun st hl hst => hcm ts' w ms .struct st hts' hw.blanks hst (by omega)) h
        fun us₁ _ h₁ => hf us₁ h₁

theorem valueCut_succ (hi : ItemsCut stop fuel) (hm : MembersCut stop fuel) :
    ValueCut stop (fuel + 1) := by
  intro w ts us v hw hts h hlt
  rw [readValue_succ]
  have hbody (text : Option String) : Fails (next >>= readBody fuel text) ([], stop) :=
    (fails_next stop).bind
  cases hts with
  | nil =>
      refine .start hw h ?_
      intro us₁ _ h₁
      refine .noText h₁ (by simp [endOf]) (.token h₁ (by simp [endOf]) fun us₂ _ h₂ => ?_)
      exact absurd h₂ not_truncated_nil
  | text s =>
      refine .start hw h fun us₁ _ h₁ => .text h₁ (fun s' => hbody (some s')) ?_
      intro us₂ _ h₂
      refine .token h₂ (by simp [endOf]) ?_
      intro us₃ _ h₃
      exact absurd h₃ not_truncated_nil
  | @typed w₁ ts' w₂ v hw₁ hts' hw₂ =>
      obtain ⟨tag, ts'', rfl, htag⟩ := hts'.head
      have htyped (text : Option String) (hb : Blank.isBlank (text.getD "").toList = true)
          {us₁ : List Token} (hlen : us₁.length < us.length)
          (h₁ : Truncated us₁ (startOf tag :: (ts'' ++ (w₂ ++ [endOf .value])))) :
          Fails (next >>= readBody fuel text) (us₁, stop) := by
        refine .token h₁ (by simp [startOf]) ?_
        intro us₂ hl₂ h₂
        refine .lifted (typeOf_label hb htag) ?_
        refine fails_readTyped hi hm hts' h₂ (by omega) ?_
        intro us₃ h₃
        refine .close hw₂.blanks h₃ fun us₄ _ h₄ => absurd h₄ not_truncated_nil
      refine .start hw h ?_
      intro us₁ hl₁ h₁
      cases hw₁ with
      | none => exact .noText h₁ (by simp [startOf]) (htyped none rfl hl₁ h₁)
      | blank hb =>
          refine .text h₁ (fun s' => hbody (some s')) ?_
          intro us₂ hl₂ h₂
          exact htyped (some _) hb (Nat.lt_trans hl₂ hl₁) h₂

/-- By induction on the fuel, all three readers at once. -/
theorem readers_cut (stop : Option Markup.Problem) (fuel : Nat) :
    ValueCut stop fuel ∧ ItemsCut stop fuel ∧ MembersCut stop fuel := by
  induction fuel with
  | zero =>
      refine ⟨?_, ?_, ?_⟩
      · intro w ts us v _ _ _ hlt
        exact absurd hlt (Nat.not_lt_zero _)
      · intro ts w us vs tag _ _ _ hlt
        exact absurd hlt (Nat.not_lt_zero _)
      · intro ts w us ms tag _ _ _ hlt
        exact absurd hlt (Nat.not_lt_zero _)
  | succ fuel ih =>
      obtain ⟨hv, hi, hm⟩ := ih
      exact ⟨valueCut_succ hi hm, itemsCut_succ hv hi, membersCut_succ hv hm⟩

/-! ## Envelopes -/

theorem accepts_readHeader_end (hw : Blanks w) : Accepts readHeader w () ([], none) := by
  refine Accepts.map (accepts_trim_end hw) ?_
  intro r hr
  obtain ⟨r', hr', ht', -⟩ := TokenReader.read_of_tokens_nil hr
  have hread : read r = .ok none r' := by simp only [read, hr']
  exact ⟨r', bind_of_ok hread, ht'⟩

/-- Blanks and nothing behind them: if they do not fail at once, the root
does. -/
theorem fails_header_blanks {f : Unit → Reading β} (hw : Blanks w)
    (hf : Fails (f ()) ([], stop)) : Fails (readHeader >>= f) (w, stop) := by
  cases stop with
  | some p => exact (fails_trim hw p).bind.bind
  | none =>
      have h := Fails.later (accepts_readHeader_end hw) hf
      rwa [Stream.after, List.append_nil] at h

theorem Fails.header {f : Unit → Reading β} {hs : List Token} (hh : HeaderForm hs)
    (h : Truncated us (hs ++ startOf tag :: ts))
    (hf : ∀ w us₁, Blanks w → us₁.length ≤ us.length → Truncated us₁ (w ++ startOf tag :: ts) →
      Fails (f ()) (us₁, stop)) :
    Fails (readHeader >>= f) (us, stop) := by
  have hnil : Fails (f ()) ([], stop) := hf [] [] blanks_nil (Nat.zero_le _) .here
  cases hh with
  | @bare w₁ w₂ hw₁ hw₂ =>
      have hw := hw₁.blanks.append hw₂.blanks
      rcases truncated_of_blanks hw h (by simp [startOf]) with hb | ⟨us₁, rfl, h₁⟩
      · exact fails_header_blanks hb hnil
      · have hheader : Accepts readHeader (w₁ ++ w₂) () (startOf tag :: us₁, stop) :=
          accepts_readHeader hw rfl
        refine Fails.later hheader ?_
        exact hf [] _ blanks_nil (by rw [List.length_append]; omega) (.cons h₁)
  | @declared w₁ w₂ hw₁ hw₂ =>
      rw [List.append_assoc, List.cons_append] at h
      rcases truncated_of_blanks hw₁.blanks h (by simp) with hb | ⟨us₁, rfl, h₁⟩
      · exact fails_header_blanks hb hnil
      · have hlen : us₁.length ≤ (w₁ ++ Token.declaration :: us₁).length := by
          rw [List.length_append, List.length_cons]
          omega
        have hlater := Fails.later (accepts_readHeader_declaration hw₁.blanks (us₁, stop))
          (hf w₂ us₁ hw₂.blanks hlen h₁)
        rwa [Stream.after, List.append_assoc] at hlater

theorem fails_readParamList (valueFuel : Nat) (fuel : Nat) :
    ∀ (ts w us : List Token) (vs : Params) (tag : Tag), ParamListForm ts vs → Blanks w →
      Truncated us (ts ++ (w ++ [endOf tag])) → us.length < valueFuel → us.length < fuel →
      Fails (readParamList valueFuel fuel) (us, stop) := by
  induction fuel with
  | zero =>
      intro ts w us vs tag _ _ _ _ hlt
      exact absurd hlt (Nat.not_lt_zero _)
  | succ fuel ih =>
      intro ts w us vs tag hts hw h hlv hlt
      rw [readParamList]
      cases hts with
      | nil => exact (fails_trim_next (blanks_before_end hw h) stop _).bind
      | @cons w₁ w₂ ts₁ w₃ ts₂ v vs hw₁ hw₂ hts₁ hw₃ hts₂ =>
          simp only [List.append_assoc, List.cons_append] at h
          refine .started hw₁.blanks h ?_
          intro us₁ hl₁ h₁
          refine .value (readers_cut stop valueFuel).1 hw₂.blanks hts₁ h₁ (by omega)
            fun us₂ hl₂ h₂ => ?_
          refine .close hw₃.blanks h₂ ?_
          intro us₃ hl₃ h₃
          exact (ih ts₂ w us₃ vs tag hts₂ hw h₃ (by omega) (by omega)).bind

theorem fails_readParams {us' : List Token} {vs : Params} {f : Params → Reading β}
    (hts : ParamsForm (startOf .params :: ts) vs) (h : Truncated us (ts ++ us'))
    (hlt : us.length < fuel)
    (hf : ∀ us₁, us₁.length < us.length → Truncated us₁ us' → Fails (f vs) (us₁, stop)) :
    Fails (readParams fuel >>= f) (us, stop) := by
  cases hts with
  | @mk ts' w vs hts' hw =>
      simp only [List.append_assoc, List.cons_append, List.nil_append] at h
      rw [readParams]
      simp only [bind_assoc, pure_bind]
      exact .list
        (fun hcut => fails_readParamList fuel fuel ts' w us vs .params hts' hw.blanks hcut hlt hlt)
        (fun st hl hst => accepts_readParamList ts' fuel vs w .params hts' hw.blanks hst
          (by omega) (by omega)) h hf

/-! ## Documents -/

theorem fails_readBareValue {v : Value} (hts : DocumentForm ValueForm ts v)
    (h : Truncated us ts) (hlt : us.length < fuel) : Fails (readBareValue fuel) (us, stop) := by
  cases hts with
  | @mk hs ts v hh hts =>
      obtain ⟨ts', rfl, -⟩ := hts.head
      refine .header hh h ?_
      intro w us₁ hw hle h₁
      exact (readers_cut stop fuel).1 w _ us₁ v hw hts h₁ (by omega)

theorem fails_readOptionalParams {ps us' : List Token} {vs : Params}
    {f : Params → Unit → Reading β} (hps : OptionalParams ps vs) (hw : Blanks w)
    (h : Truncated us (ps ++ (w ++ endOf tag :: us'))) (hlt : us.length < fuel)
    (hf : ∀ us₁, us₁.length < us.length → Truncated us₁ us' → Fails (f vs ()) (us₁, stop)) :
    Fails (readOptionalParams fuel >>= fun vs => expectEnd tag >>= f vs) (us, stop) := by
  rw [readOptionalParams, bind_assoc]
  cases hps with
  | none =>
      rcases truncated_of_blanks hw h (by simp [endOf]) with hb | ⟨us₁, rfl, h₁⟩
      · exact (fails_trim_next hb stop _).bind
      · have hnone : Accepts (nextStartIs .params) w false (endOf tag :: us₁, stop) :=
          accepts_nextStartIs_false hw rfl rfl endOf_ne_startOf
        have hend : Accepts (expectEnd tag) [endOf tag] () (us₁, stop) :=
          accepts_trim_next blanks_nil rfl (if_pos rfl) _
        have hlen : us₁.length < (w ++ endOf tag :: us₁).length := by
          rw [List.length_append, List.length_cons]
          omega
        exact Fails.later hnone (Fails.later hend (hf us₁ hlen h₁))
  | @params w₁ ts vs hw₁ hts =>
      obtain ⟨ts', rfl⟩ := hts.head
      rw [List.append_assoc] at h
      refine .started hw₁.blanks h ?_
      intro us₁ hl₁ h₁
      refine fails_readParams hts h₁ (by omega) ?_
      intro us₂ hl₂ h₂
      exact .close hw h₂ fun us₃ hl₃ h₃ => hf us₃ (by omega) h₃

theorem fails_readCall {c : Call} (hts : DocumentForm CallForm ts c) (h : Truncated us ts)
    (hlt : us.length < fuel) : Fails (readCall fuel) (us, stop) := by
  rw [readCall_eq]
  cases hts with
  | @mk hs ts c hh hts =>
    cases hts with
    | @mk w₁ name ps w₂ method params hw₁ hname hps hw₂ =>
        refine .header hh h ?_
        intro w us₁ hw hle₁ h₁
        refine .start hw h₁ ?_
        intro us₂ hl₂ h₂
        refine .start hw₁.blanks h₂ ?_
        intro us₃ hl₃ h₃
        have hend {us₄ : List Token} {method : Option String} (hl₄ : us₄.length ≤ us₃.length)
            (h₄ : Truncated us₄ (endOf .methodName :: (ps ++ (w₂ ++ [endOf .methodCall])))) :
            Fails (expectEnd .methodName >>= fun _ => readOptionalParams fuel >>= fun params =>
              expectEnd .methodCall >>= fun _ => pure (⟨method.getD "", params⟩ : Call))
              (us₄, stop) := by
          refine .close blanks_nil h₄ ?_
          intro us₅ hl₅ h₅
          refine fails_readOptionalParams hps hw₂.blanks h₅ (by omega) ?_
          intro us₆ _ h₆
          exact absurd h₆ not_truncated_nil
        cases hname with
        | none => exact .noText h₃ (by simp [endOf]) (hend (Nat.le_refl _) h₃)
        | text s =>
            refine .text h₃ (fun _ => (fails_trim_next blanks_nil stop _).bind) ?_
            intro us₄ hl₄ h₄
            exact hend (Nat.le_of_lt hl₄) h₄

theorem fails_readResult_fault {w₁ w₂ ts w₃ us' : List Token} {v : Value}
    {f : Response → Reading β} (hw₁ : Blanks w₁) (hw₂ : Blanks w₂) (hts : ValueForm ts v)
    (hw₃ : Blanks w₃)
    (h : Truncated us (w₁ ++ startOf .fault :: (w₂ ++ (ts ++ (w₃ ++ endOf .fault :: us')))))
    (hlt : us.length < fuel) (hv : v.kind = .struct)
    (hf : ∀ us₁, Truncated us₁ us' → Fails (f ⟨[], v⟩) (us₁, stop)) :
    Fails (readResult fuel >>= f) (us, stop) := by
  rw [readResult, bind_assoc]
  rcases truncated_of_blanks hw₁ h (by simp [startOf]) with hb | ⟨us₁, rfl, h₁⟩
  · exact (fails_trim_next hb stop _).bind
  · rw [List.length_append, List.length_cons] at hlt
    have hnone : Accepts (nextStartIs .params) w₁ false (startOf .fault :: us₁, stop) :=
      accepts_nextStartIs_false hw₁ rfl rfl (by decide)
    refine Fails.later hnone ?_
    simp only [Bool.false_eq_true, if_false, readFault, bind_assoc]
    have hstart : Accepts (expectStart .fault) [startOf .fault] () (us₁, stop) :=
      accepts_trim_next blanks_nil rfl (if_pos rfl) _
    refine Fails.later hstart ?_
    refine .value (readers_cut stop fuel).1 hw₂ hts h₁ (by omega) ?_
    intro us₂ _ h₂
    simp only [if_pos hv, bind_assoc, pure_bind]
    exact .close hw₃ h₂ fun us₃ _ h₃ => hf us₃ h₃

theorem fails_readResponse {a : Response} (hts : DocumentForm ResponseForm ts a)
    (h : Truncated us ts) (hlt : us.length < fuel) : Fails (readResponse fuel) (us, stop) := by
  rw [readResponse_eq]
  cases hts with
  | @mk hs ts a hh hts =>
    cases hts with
    | @params w₁ ts w₂ vs hw₁ hts hw₂ =>
        obtain ⟨ts', rfl⟩ := hts.head
        refine .header hh h ?_
        intro w us₁ hw hle₁ h₁
        refine .start hw h₁ ?_
        intro us₂ hl₂ h₂
        rw [readResult, bind_assoc]
        refine .started hw₁.blanks h₂ ?_
        intro us₃ hl₃ h₃
        simp only [if_true, bind_assoc, pure_bind]
        refine fails_readParams hts h₃ (by omega) ?_
        intro us₄ _ h₄
        exact .close hw₂.blanks h₄ fun us₅ _ h₅ => absurd h₅ not_truncated_nil
    | @fault w₁ w₂ ts w₃ w₄ v hw₁ hw₂ hts hv hw₃ hw₄ =>
        refine .header hh h ?_
        intro w us₁ hw hle₁ h₁
        refine .start hw h₁ ?_
        intro us₂ hl₂ h₂
        refine fails_readResult_fault hw₁.blanks hw₂.blanks hts hw₃.blanks h₂ (by omega) hv ?_
        intro us₃ h₃
        exact .close hw₄.blanks h₃ fun us₄ _ h₄ => absurd h₄ not_truncated_nil

/-! ## Sources -/

theorem endsInTag_append {ts us : List Token} (h : EndsInTag us) : EndsInTag (ts ++ us) := by
  obtain ⟨name, h⟩ := h
  exact ⟨name, by rw [List.getLast?_append, h]; rfl⟩

theorem endsInTag_cons {t : Token} {us : List Token} (h : EndsInTag us) : EndsInTag (t :: us) := by
  have hcons : EndsInTag ([t] ++ us) := endsInTag_append h
  exact hcons

theorem endsInTag_endOf (tag : Tag) : EndsInTag [endOf tag] := ⟨tag.label, rfl⟩

theorem ValueForm.endsInTag {ts : List Token} {v : Value} (h : ValueForm ts v) : EndsInTag ts := by
  cases h with
  | nil => exact endsInTag_cons (endsInTag_endOf _)
  | text s => exact endsInTag_cons (endsInTag_cons (endsInTag_endOf _))
  | typed _ _ _ =>
      refine endsInTag_cons (endsInTag_append (endsInTag_append (endsInTag_append ?_)))
      exact endsInTag_endOf _

theorem CallForm.endsInTag {ts : List Token} {c : Call} (h : CallForm ts c) : EndsInTag ts := by
  cases h with
  | mk _ _ _ _ =>
      refine endsInTag_cons (endsInTag_append (endsInTag_cons (endsInTag_append ?_)))
      exact endsInTag_cons (endsInTag_append (endsInTag_append (endsInTag_endOf _)))

theorem ResponseForm.endsInTag {ts : List Token} {a : Response} (h : ResponseForm ts a) :
    EndsInTag ts := by
  cases h with
  | params _ _ _ =>
      refine endsInTag_cons (endsInTag_append (endsInTag_append (endsInTag_append ?_)))
      exact endsInTag_endOf _
  | fault _ _ _ _ _ _ =>
      refine endsInTag_cons (endsInTag_append (endsInTag_cons (endsInTag_append ?_)))
      refine endsInTag_append (endsInTag_append (endsInTag_cons (endsInTag_append ?_)))
      exact endsInTag_endOf _

theorem toError_of_isCut {p : Markup.Problem} (hp : p.isCut = true) :
    ∃ f, p.toError = .fault f ∧ (f.code = FaultCode.malformedInput.number ∨
      f.code = FaultCode.invalidCharacter.number) := by
  cases p with
  | undecodable q => exact ⟨_, rfl, .inr rfl⟩
  | unknownMarkup => exact ⟨_, rfl, .inl rfl⟩
  | unclosedInstruction => exact ⟨_, rfl, .inl rfl⟩
  | unclosedComment => exact ⟨_, rfl, .inl rfl⟩
  | unclosedDoctype => exact ⟨_, rfl, .inl rfl⟩
  | unclosedCdata => exact ⟨_, rfl, .inl rfl⟩
  | unclosedTag => exact ⟨_, rfl, .inl rfl⟩
  | unclosedReference => exact ⟨_, rfl, .inl rfl⟩
  | _ => cases hp

theorem toError_of_halts {stop : Option Markup.Problem} (h : Markup.Halts .endOfInput stop) :
    ∃ f, (stopProblem stop).toError = .fault f ∧ (f.code = FaultCode.malformedInput.number ∨
      f.code = FaultCode.invalidCharacter.number) := by
  cases stop with
  | none => exact ⟨_, rfl, .inl rfl⟩
  | some p => exact toError_of_isCut h

/-- The law of cuts for one sort of documents.  Whatever is read is held by
the first `m` octets: it is read whatever comes behind them and however the
source ends, and it is not read, nor anything else, from fewer octets. -/
def CutLaw {α : Type} (ofSource : Source → Except Problem α) : Prop :=
  ∀ (o : Octets) (d : Ending) (a : α), ofSource ⟨o, d⟩ = .ok a →
    ∃ m ≤ o.length, (∀ c d', ofSource ⟨o.take m ++ c, d'⟩ = .ok a) ∧
      ∀ n < m,
        (∃ p f, ofSource ⟨o.take n, .endOfInput⟩ = .error p ∧ p.toError = .fault f ∧
          (f.code = FaultCode.malformedInput.number ∨
            f.code = FaultCode.invalidCharacter.number)) ∧
        ∀ message, ∃ p, ofSource ⟨o.take n, .broken message⟩ = .error p ∧
          p.toError = .stream message

theorem cutLaw_run {reading : Nat → Reading α} {Root : List Token → α → Prop}
    (hiff : ∀ s a, run reading s = .ok a ↔
      ∃ ts, ts <+: (TokenReader.ofSource s).tokens.1 ∧ DocumentForm Root ts a)
    (hend : ∀ ts a, Root ts a → EndsInTag ts)
    (hfails : ∀ fuel ts a us stop, DocumentForm Root ts a → Truncated us ts → us.length < fuel →
      Fails (reading fuel) (us, stop)) : CutLaw (run reading) := by
  intro o d a h
  obtain ⟨ts, hts, hdoc⟩ := (hiff _ a).mp h
  have hends : EndsInTag ts := by
    cases hdoc with
    | mk _ hroot => exact endsInTag_append (hend _ a hroot)
  obtain ⟨u, hu, hwhole, hshort⟩ := Markup.exists_cut ⟨o, d⟩ hts hends
  have htake : o.take u.length = u := (List.prefix_iff_eq_take.mp hu).symm
  refine ⟨u.length, hu.length_le, ?_, ?_⟩
  · intro c d'
    rw [htake]
    exact (hiff _ a).mpr ⟨ts, hwhole c d', hdoc⟩
  · intro n hn
    have hw : o.take n <+: u := by
      rw [← htake]
      exact List.take_prefix_take_left (Nat.le_of_lt hn)
    have hne : o.take n ≠ u := by
      intro he
      have := congrArg List.length he
      rw [List.length_take] at this
      omega
    -- the reader has fuel for the tokens that are left
    have hrun (d' : Ending) : ∃ stop, run reading ⟨o.take n, d'⟩ = .error (stopProblem stop) ∧
        Markup.Halts d' stop := by
      obtain ⟨htr, hhalts⟩ := hshort _ hw hne d'
      have hlen := TokenReader.length_tokens_le (TokenReader.ofSource ⟨o.take n, d'⟩)
      exact ⟨_, run_error (hfails _ ts a _ _ hdoc htr (Nat.lt_succ_of_le hlen) _ rfl), hhalts⟩
    refine ⟨?_, ?_⟩
    · obtain ⟨stop, hp, hhalts⟩ := hrun .endOfInput
      obtain ⟨f, hf, hcode⟩ := toError_of_halts hhalts
      exact ⟨_, f, hp, hf, hcode⟩
    · intro message
      obtain ⟨stop, hp, hhalts⟩ := hrun (.broken message)
      cases hhalts
      exact ⟨_, hp, rfl⟩

/-- Values, calls and responses obey the law of cuts. -/
theorem cut_law : CutLaw Value.ofSource ∧ CutLaw Call.ofSource ∧ CutLaw Response.ofSource := by
  refine ⟨?_, ?_, ?_⟩
  · exact cutLaw_run
      (run_iff (fun _ _ _ _ => readBareValue_sound) (fun _ _ _ _ => accepts_readBareValue))
      (fun _ _ => ValueForm.endsInTag) (fun _ _ _ _ _ => fails_readBareValue)
  · exact cutLaw_run (run_iff (fun _ _ _ _ => readCall_sound) (fun _ _ _ _ => accepts_readCall))
      (fun _ _ => CallForm.endsInTag) (fun _ _ _ _ _ => fails_readCall)
  · exact cutLaw_run
      (run_iff (fun _ _ _ _ => readResponse_sound) (fun _ _ _ _ => accepts_readResponse))
      (fun _ _ => ResponseForm.endsInTag) (fun _ _ _ _ _ => fails_readResponse)

/-- Every cut of a document falls short, whether it goes through a tag, a
reference or a character of several octets. -/
theorem cut_law_through_text :
    let o := Utf8.encode "<value><string>é &amp; €</string></value>".toList
    Value.ofSource ⟨o, .endOfInput⟩ = .ok (.string "é & €") ∧
    (∀ c d, Value.ofSource ⟨o ++ c, d⟩ = .ok (.string "é & €")) ∧
    ∀ n < o.length,
      (∃ p f, Value.ofSource ⟨o.take n, .endOfInput⟩ = .error p ∧ p.toError = .fault f ∧
        (f.code = FaultCode.malformedInput.number ∨
          f.code = FaultCode.invalidCharacter.number)) ∧
      ∀ message, ∃ p, Value.ofSource ⟨o.take n, .broken message⟩ = .error p ∧
        p.toError = .stream message := by
  intro o
  have hdocument : (Value.string "é & €").document = o := by decide +kernel
  have hread : Value.ofSource ⟨o, .endOfInput⟩ = .ok (.string "é & €") :=
    hdocument ▸ ofSource_of_named (v := .string "é & €") trivial
  obtain ⟨m, hle, hheld, hshort⟩ := cut_law.1 o .endOfInput _ hread
  -- without its last octet the document is not read
  have hlast : (Value.ofSource ⟨o.take (o.length - 1), .endOfInput⟩).isOk = false := by
    decide +kernel
  have hm : m = o.length := by
    by_contra hne
    have hcut := hheld ((o.take (o.length - 1)).drop m) .endOfInput
    have htake : (o.take (o.length - 1)).take m = o.take m := by
      rw [List.take_take, Nat.min_eq_left (by omega)]
    rw [← htake, List.take_append_drop] at hcut
    rw [hcut] at hlast
    cases hlast
  refine ⟨hread, ?_, hm ▸ hshort⟩
  intro c d
  have htake : o.take m = o := List.take_of_length_le (Nat.le_of_eq hm.symm)
  have hc := hheld c d
  rwa [htake] at hc

end Document

end XmlRpc
