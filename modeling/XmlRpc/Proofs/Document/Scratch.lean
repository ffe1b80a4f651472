/-
# The buffer that documents are read with

A reader *agrees* with itself if readers that differ in their buffers alone
end alike in it: with one result, or with one problem, and with cursors that
again differ in their buffers alone.  The steps do (`agrees_read`,
`agrees_unread`, `agrees_trim`), sequences of steps do (`Agrees.bind`), and so
does every reader (`compositional_agrees`).

Reading a source therefore gives one result with every buffer
(`runWith_eq_run`), whatever another source has left in it.
-/
import XmlRpc.Proofs.Document.Compound
import XmlRpc.Proofs.Markup.Scratch

namespace XmlRpc

namespace Document

open Markup (Token TokenReader)

variable {α β : Type}

/-! ## Agreement -/

/-- Whether two readings have ended in one way. -/
inductive SameEnd : EStateM.Result Problem TokenReader α → EStateM.Result Problem TokenReader α →
    Prop
  | ok (a : α) {r q : TokenReader} : r.Alike q → SameEnd (.ok a r) (.ok a q)
  | error (p : Problem) {r q : TokenReader} : r.Alike q → SameEnd (.error p r) (.error p q)

/-- Whether it makes no difference to a reader what stands in the buffer. -/
def Agrees (m : Reading α) : Prop := ∀ r q : TokenReader, r.Alike q → SameEnd (m r) (m q)

theorem agrees_pure (a : α) : Agrees (pure a) := by
  intro r q h
  exact .ok a h

theorem agrees_throw (p : Problem) : Agrees (throw p : Reading α) := by
  intro r q h
  exact .error p h

theorem Agrees.bind {m : Reading α} {f : α → Reading β} (hm : Agrees m)
    (hf : ∀ a, Agrees (f a)) : Agrees (m >>= f) := by
  intro r q h
  have hend := hm r q h
  rw [bind_apply, bind_apply]
  generalize m r = x, m q = y at hend
  cases hend with
  | error p h => exact .error p h
  | ok a h => exact hf a _ _ h

/-! ## Tokens -/

theorem agrees_read : Agrees read := by
  intro r q h
  match hr : r.read with
  | (.error p, r') =>
      obtain ⟨q', hq, h'⟩ := h.read_eq hr
      simp only [read, hr, hq]
      exact .error _ h'
  | (.ok t, r') =>
      obtain ⟨q', hq, h'⟩ := h.read_eq hr
      simp only [read, hr, hq]
      exact .ok t h'

theorem agrees_unread (t : Token) : Agrees (unread t) := by
  intro r q h
  rcases h.unread t with ⟨p, hr, hq⟩ | ⟨r', q', hr, hq, h'⟩
  · simp only [unread, hr, hq]
    exact .error _ h
  · simp only [unread, hr, hq]
    exact .ok () h'

theorem agrees_trim : Agrees trim := by
  intro r q h
  match hr : r.read with
  | (.error p, r') =>
      obtain ⟨q', hq, h'⟩ := h.read_eq hr
      simp only [trim, trim_of_problem hr, trim_of_problem hq]
      exact .error _ h'
  | (.ok none, r') =>
      obtain ⟨q', hq, h'⟩ := h.read_eq hr
      simp only [trim, trim_of_end hr, trim_of_end hq]
      exact .ok () h'
  | (.ok (some t), r') =>
      obtain ⟨q', hq, h'⟩ := h.read_eq hr
      cases ht : t.isBlank with
      | true =>
          have hlt : r'.size < r.size := by
            have := TokenReader.read_size_lt (congrArg Prod.fst hr)
            rwa [hr] at this
          have hrest := agrees_trim r' q' h'
          rw [trim, trim] at hrest ⊢
          rwa [trim_of_blank hr ht, trim_of_blank hq ht]
      | false =>
          rcases h'.unread t with ⟨p, hu, -⟩ | ⟨r'', q'', hu, hv, h''⟩
          · -- nothing is pushed back behind a token just read
            have hp := r.read_pushedBack
            rw [hr] at hp
            obtain ⟨_, hok, -⟩ := TokenReader.tokens_unread hp t
            rw [hu] at hok
            cases hok
          · simp only [trim, trim_of_not_blank hr ht hu, trim_of_not_blank hq ht hv]
            exact .ok () h''
termination_by r => r.size

/-! ## Readers -/

theorem agrees_of_continues {t : Token} {m : Reading α}
    (h : Continues (fun _ m => Agrees m) t m) : Agrees m := by
  cases h with
  | on hm => exact hm
  | back hm => exact (agrees_unread t).bind fun _ => hm

theorem compositional_agrees : Compositional fun _ m => Agrees m where
  pure := agrees_pure
  refuse _ := agrees_throw _
  lifted := by
    intro α β x f _ hf
    cases x with
    | error p =>
        intro r q h
        exact .error p h
    | ok a => exact hf a rfl
  bind := Agrees.bind
  trim := agrees_trim
  read := by
    intro α f hnone hsome
    refine agrees_read.bind ?_
    intro t
    cases t with
    | none => exact hnone
    | some t => exact agrees_of_continues (hsome t)

/-! ## Sources -/

/-- A source is read as with a buffer of its own. -/
theorem runWith_eq_run {reading : Nat → Reading α} (h : ∀ fuel, Agrees (reading fuel))
    (s : Source) (b : Buffer) : (runWith reading s b).1 = run reading s := by
  have halike := TokenReader.withBuffer_alike s b (.new 0)
  have hend := h ((TokenReader.withBuffer s b).size + 1) _ _ halike
  rw [run, runWith, runWith, ← halike.size]
  generalize reading _ (TokenReader.withBuffer s b) = x,
    reading _ (TokenReader.withBuffer s (.new 0)) = y at hend
  cases hend with
  | ok a _ => rfl
  | error p _ => rfl

end Document

end XmlRpc
