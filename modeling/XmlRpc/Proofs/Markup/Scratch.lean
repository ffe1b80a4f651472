/-
# The buffer that tokens are read from

A lexer empties its buffer before it reads an event from it, so nothing that
the buffer held before is ever read.  Two readers are *alike* if they differ
in their buffers alone; then they deliver the same, and are alike again:

    gather    what is gathered from an event on (`gather_alike`)
    read      `Alike.read`
    unread    `Alike.unread`
    tokens    all that is delivered (`Alike.tokens`)
-/
import XmlRpc.Markup.Token

namespace XmlRpc

namespace Markup

/-! ## Gathering, event by event -/

namespace Lexer

variable {s s' : Scanner} {e : Event} (acc : Option (List Char)) (cs : List Char)

theorem nextInto_of_next {x : Except Problem Event} (h : s.next = (x, s')) (b : Buffer) :
    ∃ b', s.nextInto b.clear = ((x, s'), b') :=
  ⟨(s.nextInto b.clear).2, Prod.ext ((s.nextInto_clear b).trans h) rfl⟩

theorem gather_problem {p : Problem} (h : s.next = (.error p, s')) (b : Buffer) :
    ∃ b', gather acc s b = (.error p, ⟨s', none, b'⟩) := by
  obtain ⟨b', hb⟩ := nextInto_of_next h b
  refine ⟨b', ?_⟩
  rw [gather]
  split <;> rename_i h' <;> rw [hb] at h' <;> cases h'
  rfl

theorem gather_badPiece {p : Problem} (h : s.next = (.ok e, s')) (he : e.piece = .error p)
    (b : Buffer) : ∃ b', gather acc s b = (.error p, ⟨s', none, b'⟩) := by
  obtain ⟨b', hb⟩ := nextInto_of_next h b
  refine ⟨b', ?_⟩
  rw [gather]
  split <;> rename_i h' <;> rw [hb] at h' <;> cases h'
  split <;> rename_i he' <;> rw [he] at he' <;> cases he'
  rfl

theorem gather_chars (h : s.next = (.ok e, s')) (he : e.piece = .ok (.chars cs))
    (b : Buffer) : ∃ b', gather acc s b = gather (some (acc.getD [] ++ cs)) s' b' := by
  obtain ⟨b', hb⟩ := nextInto_of_next h b
  refine ⟨b', ?_⟩
  rw [gather]
  split <;> rename_i h' <;> rw [hb] at h' <;> cases h'
  split <;> rename_i he' <;> rw [he] at he' <;> cases he'
  rfl

theorem gather_token_none {t : Token} (h : s.next = (.ok e, s')) (he : e.piece = .ok (.token t))
    (b : Buffer) : ∃ b', gather none s b = (.ok (some t), ⟨s', none, b'⟩) := by
  obtain ⟨b', hb⟩ := nextInto_of_next h b
  refine ⟨b', ?_⟩
  rw [gather]
  split <;> rename_i h' <;> rw [hb] at h' <;> cases h'
  split <;> rename_i he' <;> rw [he] at he' <;> cases he'
  rfl

theorem gather_token_some {t : Token} (h : s.next = (.ok e, s'))
    (he : e.piece = .ok (.token t)) (b : Buffer) :
    ∃ b', gather (some cs) s b = (.ok (some (.text (String.ofList cs))), ⟨s', some t, b'⟩) := by
  obtain ⟨b', hb⟩ := nextInto_of_next h b
  refine ⟨b', ?_⟩
  rw [gather]
  split <;> rename_i h' <;> rw [hb] at h' <;> cases h'
  split <;> rename_i he' <;> rw [he] at he' <;> cases he'
  rfl

theorem gather_stop (h : s.next = (.ok e, s')) (he : e.piece = .ok .stop) (b : Buffer) :
    ∃ b', gather acc s b
      = (.ok (acc.map fun cs => .text (String.ofList cs)), ⟨s', none, b'⟩) := by
  obtain ⟨b', hb⟩ := nextInto_of_next h b
  refine ⟨b', ?_⟩
  rw [gather]
  split <;> rename_i h' <;> rw [hb] at h' <;> cases h'
  split <;> rename_i he' <;> rw [he] at he' <;> cases he'
  cases acc <;> rfl

end Lexer

/-! ## Readers with different buffers -/

/-- Whether two lexers differ in their buffers alone. -/
structure Lexer.Alike (l m : Lexer) : Prop where
  scanner : l.scanner = m.scanner
  pending : l.pending = m.pending

structure TokenReader.Alike (r q : TokenReader) : Prop where
  lexer : r.lexer.Alike q.lexer
  pushedBack : r.pushedBack = q.pushedBack

namespace Lexer

/-- What is gathered does not depend on the buffer.  Events of a text are followed
up to the one that ends it. -/
theorem gather_alike (acc : Option (List Char)) (s : Scanner) (b c : Buffer) :
    (gather acc s b).1 = (gather acc s c).1 ∧
      (gather acc s b).2.Alike (gather acc s c).2 := by
  match h : s.next with
  | (.error p, s') =>
      obtain ⟨b', hb⟩ := gather_problem acc h b
      obtain ⟨c', hc⟩ := gather_problem acc h c
      rw [hb, hc]
      exact ⟨rfl, rfl, rfl⟩
  | (.ok e, s') =>
    match he : e.piece with
    | .error p =>
        obtain ⟨b', hb⟩ := gather_badPiece acc h he b
        obtain ⟨c', hc⟩ := gather_badPiece acc h he c
        rw [hb, hc]
        exact ⟨rfl, rfl, rfl⟩
    | .ok (.chars cs) =>
        have hlt : s'.size < s.size := by
          have := s.next_size_lt (congrArg Prod.fst h) (Event.ne_endOfInput_of_chars he)
          rwa [h] at this
        obtain ⟨b', hb⟩ := gather_chars acc cs h he b
        obtain ⟨c', hc⟩ := gather_chars acc cs h he c
        rw [hb, hc]
        exact gather_alike _ s' b' c'
    | .ok (.token t) =>
        cases acc with
        | none =>
            obtain ⟨b', hb⟩ := gather_token_none h he b
            obtain ⟨c', hc⟩ := gather_token_none h he c
            rw [hb, hc]
            exact ⟨rfl, rfl, rfl⟩
        | some cs =>
            obtain ⟨b', hb⟩ := gather_token_some cs h he b
            obtain ⟨c', hc⟩ := gather_token_some cs h he c
            rw [hb, hc]
            exact ⟨rfl, rfl, rfl⟩
    | .ok .stop =>
        obtain ⟨b', hb⟩ := gather_stop acc h he b
        obtain ⟨c', hc⟩ := gather_stop acc h he c
        rw [hb, hc]
        exact ⟨rfl, rfl, rfl⟩
termination_by s.size

theorem Alike.next {l m : Lexer} (h : l.Alike m) :
    l.next.1 = m.next.1 ∧ l.next.2.Alike m.next.2 := by
  obtain ⟨s, pending, b⟩ := l
  obtain ⟨_, _, c⟩ := m
  obtain ⟨rfl, rfl⟩ := h
  cases pending with
  | some t => exact ⟨rfl, rfl, rfl⟩
  | none => exact gather_alike none s b c

end Lexer

namespace TokenReader

variable {r q : TokenReader}

theorem Alike.read (h : r.Alike q) : r.read.1 = q.read.1 ∧ r.read.2.Alike q.read.2 := by
  obtain ⟨l, pushedBack⟩ := r
  obtain ⟨m, _⟩ := q
  obtain ⟨hlexer, rfl⟩ := h
  cases pushedBack with
  | some t => exact ⟨rfl, hlexer, rfl⟩
  | none =>
      obtain ⟨hdelivery, hlexer⟩ := hlexer.next
      exact ⟨hdelivery, hlexer, rfl⟩

theorem Alike.unread (h : r.Alike q) (t : Token) :
    (∃ p, r.unread t = .error p ∧ q.unread t = .error p) ∨
      ∃ r' q', r.unread t = .ok r' ∧ q.unread t = .ok q' ∧ r'.Alike q' := by
  obtain ⟨l, pushedBack⟩ := r
  obtain ⟨m, _⟩ := q
  obtain ⟨hlexer, rfl⟩ := h
  cases pushedBack with
  | some u => exact .inl ⟨_, rfl, rfl⟩
  | none => exact .inr ⟨_, _, rfl, rfl, hlexer, rfl⟩

theorem Alike.size (h : r.Alike q) : r.size = q.size := by
  obtain ⟨⟨s, pending, b⟩, pushedBack⟩ := r
  obtain ⟨⟨_, _, c⟩, _⟩ := q
  obtain ⟨⟨rfl, rfl⟩, rfl⟩ := h
  rfl

theorem Alike.read_eq (h : r.Alike q) {d : Delivery} {r' : TokenReader} (hr : r.read = (d, r')) :
    ∃ q', q.read = (d, q') ∧ r'.Alike q' := by
  obtain ⟨hdelivery, hafter⟩ := h.read
  rw [hr] at hdelivery hafter
  exact ⟨q.read.2, Prod.ext hdelivery.symm rfl, hafter⟩

theorem withBuffer_alike (s : Source) (b c : Buffer) :
    (withBuffer s b).Alike (withBuffer s c) := ⟨⟨rfl, rfl⟩, rfl⟩

end TokenReader

end Markup

end XmlRpc
