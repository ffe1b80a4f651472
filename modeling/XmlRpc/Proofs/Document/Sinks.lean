/-
# Sinks take a beginning

Steps that are written piece by piece leave in a sink what the whole document
written at once leaves there, however often they are interrupted by tags.  That
needs two things of whatever takes the pieces (`Seamless`): nothing is always
taken, and two pieces one after the other are taken as both in one.

    taken in one piece, or in any portions       `writeBy_eq`
    taken piece by piece, tag after tag          `putSteps_eq`
    staged first, and then taken in one piece    `writeDocument_eq`

All three leave the same sink, and in it the octets of the document up to the
room that there was.  Only what flushes tells that flushing has failed.
-/
import XmlRpc.Codec.Basic

namespace XmlRpc

namespace Progress

variable {σ : Type}

theorem andThen_ok (s : σ) (next : σ → Progress σ) : andThen (.ok (), s) next = next s := rfl

theorem andThen_self (x : Progress σ) : (x.andThen fun s => (.ok (), s)) = x := by
  obtain ⟨_ | ⟨⟩, s⟩ := x <;> rfl

theorem andThen_snd (x : Progress σ) (f : σ → Except Error Unit) :
    (x.andThen fun s => (f s, s)).2 = x.2 := by
  obtain ⟨_ | ⟨⟩, s⟩ := x <;> rfl

end Progress

namespace Sink

variable {s : Sink} {a b o : Octets} {n : Nat}

/-! ## Room -/

def Fits (s : Sink) (o : Octets) : Prop := ∀ n, s.room = some n → o.length ≤ n

/-- A sink that has taken some octets more. -/
def holding (s : Sink) (o : Octets) : Sink :=
  { s with taken := s.taken ++ o, room := s.room.map (· - o.length) }

theorem holding_nil (s : Sink) : s.holding [] = s := by
  obtain ⟨taken, room, refusal, flushFailure⟩ := s
  cases room <;> simp [holding]

theorem holding_append (s : Sink) (a b : Octets) :
    s.holding (a ++ b) = (s.holding a).holding b := by
  obtain ⟨taken, room, refusal, flushFailure⟩ := s
  cases room <;> simp [holding, Nat.sub_sub]

theorem fits_append : s.Fits (a ++ b) ↔ s.Fits a ∧ (s.holding a).Fits b := by
  obtain ⟨taken, room, refusal, flushFailure⟩ := s
  cases room with
  | none => simp [Fits, holding]
  | some n =>
      simp only [Fits, holding, Option.map_some, Option.some.injEq, forall_eq', List.length_append]
      omega

theorem exists_room_of_not_fits (h : ¬ s.Fits o) : ∃ n, s.room = some n ∧ n < o.length := by
  cases hroom : s.room with
  | none =>
      refine absurd ?_ h
      intro n hn
      rw [hroom] at hn
      cases hn
  | some n =>
      refine ⟨n, rfl, Nat.lt_of_not_le ?_⟩
      intro hle
      apply h
      intro m hm
      rw [hroom] at hm
      cases hm
      exact hle

theorem writeAll_of_fits (h : s.Fits o) : s.writeAll o = (.ok (), s.holding o) := by
  obtain ⟨taken, room, refusal, flushFailure⟩ := s
  cases room with
  | none => rfl
  | some n => exact if_pos (h n rfl)

theorem writeAll_of_lt (hroom : s.room = some n) (hlt : n < o.length) :
    s.writeAll o = (.error (.stream s.refusal.message), s.holding (o.take n)) := by
  obtain ⟨taken, room, refusal, flushFailure⟩ := s
  cases hroom
  have hlen : n - min n o.length = 0 := by omega
  simp [writeAll, holding, hlen, Nat.not_le.mpr hlt]

/-! ## Pieces -/

theorem writeAll_nil (s : Sink) : s.writeAll [] = (.ok (), s) := by
  have hfits : s.Fits [] := fun n _ => Nat.zero_le n
  rw [writeAll_of_fits hfits, holding_nil]

theorem writeAll_append (s : Sink) (a b : Octets) :
    s.writeAll (a ++ b) = (s.writeAll a).andThen fun s => s.writeAll b := by
  by_cases ha : s.Fits a
  · rw [writeAll_of_fits ha, Progress.andThen_ok]
    by_cases hb : (s.holding a).Fits b
    · rw [writeAll_of_fits hb, writeAll_of_fits (fits_append.mpr ⟨ha, hb⟩), holding_append]
    · obtain ⟨m, hm, hlt⟩ := exists_room_of_not_fits hb
      obtain ⟨n, hn, rfl⟩ := Option.map_eq_some_iff.mp hm
      have hle := ha n hn
      have hlong : n < (a ++ b).length := by
        rw [List.length_append]
        omega
      rw [writeAll_of_lt hm hlt, writeAll_of_lt hn hlong, List.take_append,
        List.take_of_length_le hle, holding_append]
      rfl
  · obtain ⟨n, hn, hlt⟩ := exists_room_of_not_fits ha
    have hlong : n < (a ++ b).length := by
      rw [List.length_append]
      omega
    rw [writeAll_of_lt hn hlt, writeAll_of_lt hn hlong,
      List.take_append_of_le_length (Nat.le_of_lt hlt)]
    rfl

theorem writeDocument_eq (s : Sink) (o : Octets) :
    s.writeDocument o = (s.writeAll o).andThen fun s => (s.flush, s) := by
  rw [writeDocument]
  split <;> rename_i hw <;> rw [hw] <;> rfl

theorem writeDocument_snd (s : Sink) (o : Octets) : (s.writeDocument o).2 = (s.writeAll o).2 := by
  rw [writeDocument_eq, Progress.andThen_snd]

/-! ## Portions -/

/-- How many of some octets a single write takes if there is room for one: the
portion that the sink likes, one octet at least and no more than fit. -/
def portionOf (portion : Sink → Octets → Nat) (s : Sink) (o : Octets) : Nat :=
  max 1 (min (portion s o) (s.room.elim o.length fun n => min n o.length))

/-- A single write.  A full sink fails, or takes nothing. -/
def offer (portion : Sink → Octets → Nat) (s : Sink) (o : Octets) : Except Error Nat × Sink :=
  if s.room = some 0 then
    match s.refusal with
    | .closed message => (.error (.stream message), s)
    | .takesNothing => (.ok 0, s)
  else
    (.ok (portionOf portion s o), s.holding (o.take (portionOf portion s o)))

/-- Writes until nothing is left, or until a write fails or takes nothing. -/
def writeBy (portion : Sink → Octets → Nat) (s : Sink) (o : Octets) : Progress Sink :=
  if _ : o = [] then (.ok (), s)
  else
    match s.offer portion o with
    | (.error e, s) => (.error e, s)
    | (.ok 0, s) => (.error (.stream Refusal.takesNothing.message), s)
    | (.ok (k + 1), s) => writeBy portion s (o.drop (k + 1))
termination_by o.length
decreasing_by
  have hpos := List.length_pos_iff.mpr ‹¬ o = []›
  rw [List.length_drop]
  omega

theorem portionOf_bounds (portion : Sink → Octets → Nat) (ho : o ≠ []) (hroom : s.room ≠ some 0) :
    1 ≤ portionOf portion s o ∧ portionOf portion s o ≤ o.length ∧
      s.Fits (o.take (portionOf portion s o)) := by
  have hpos := List.length_pos_iff.mpr ho
  obtain ⟨taken, room, refusal, flushFailure⟩ := s
  cases room with
  | none =>
      simp only [portionOf, Option.elim_none, Fits]
      refine ⟨by omega, by omega, ?_⟩
      intro n hn
      cases hn
  | some n =>
      have hn : n ≠ 0 := fun h => hroom (congrArg some h)
      simp only [portionOf, Option.elim_some, Fits, Option.some.injEq, forall_eq', List.length_take]
      omega

/-- However a sink divides what it is offered, it takes the same in the end. -/
theorem writeBy_eq (portion : Sink → Octets → Nat) (s : Sink) (o : Octets) :
    s.writeBy portion o = s.writeAll o := by
  rw [writeBy]
  by_cases ho : o = []
  · rw [dif_pos ho, ho, writeAll_nil]
  · rw [dif_neg ho]
    have hpos := List.length_pos_iff.mpr ho
    by_cases hroom : s.room = some 0
    · rw [writeAll_of_lt hroom hpos, List.take_zero, holding_nil, offer, if_pos hroom]
      cases s.refusal <;> rfl
    · obtain ⟨hone, hle, hfits⟩ := portionOf_bounds portion ho hroom
      rw [offer, if_neg hroom]
      generalize portionOf portion s o = k at hone hle hfits
      obtain ⟨k, rfl⟩ : ∃ m, k = m + 1 := ⟨k - 1, by omega⟩
      -- what the first write leaves is shorter, and taken in portions again
      have hrest := writeBy_eq portion (s.holding (o.take (k + 1))) (o.drop (k + 1))
      have hwhole := writeAll_append s (o.take (k + 1)) (o.drop (k + 1))
      rw [List.take_append_drop, writeAll_of_fits hfits, Progress.andThen_ok] at hwhole
      rw [hwhole]
      exact hrest
termination_by o.length
decreasing_by
  rw [List.length_drop]
  omega

end Sink

namespace Document

/-! ## Steps -/

/-- Whether it makes no difference to what takes some pieces where one of them
ends and the next begins. -/
structure Seamless {σ : Type} (put : σ → Octets → Progress σ) : Prop where
  nothing : ∀ s, put s [] = (.ok (), s)
  append : ∀ s a b, put s (a ++ b) = (put s a).andThen fun s => put s b

theorem seamless_writeAll : Seamless Sink.writeAll := ⟨Sink.writeAll_nil, Sink.writeAll_append⟩

section Steps

variable {σ : Type} {put : σ → Octets → Progress σ}

theorem putRaw_eq (h : Seamless put) (tag : Tag) (body : List Char) (s : σ) :
    putRaw put tag body s = put s (rawPieces tag body).flatten := by
  simp only [putRaw, rawPieces, List.flatten_cons, List.flatten_nil, List.append_nil, h.append]

mutual

theorem Step.putTo_eq (h : Seamless put) (t : Step) (s : σ) :
    t.putTo put s = put s t.pieces.flatten := by
  cases t with
  | declaration => simp only [Step.putTo, Step.pieces, List.flatten_singleton]
  | raw tag body => exact putRaw_eq h tag body s
  | text tag body => exact putRaw_eq h tag (textBody body) s
  | element tag body =>
      have hbody (s : σ) : putSteps put body s = put s (piecesOf body).flatten :=
        putSteps_eq h body s
      simp only [Step.putTo, Step.pieces, List.flatten_cons, List.flatten_append, List.flatten_nil,
        List.append_nil, h.append, hbody]

/-- Steps put their document, wherever its pieces end. -/
theorem putSteps_eq (h : Seamless put) (ts : List Step) (s : σ) :
    putSteps put ts s = put s (piecesOf ts).flatten := by
  cases ts with
  | nil => exact (h.nothing s).symm
  | cons t ts =>
      have htail (s : σ) : putSteps put ts s = put s (piecesOf ts).flatten := putSteps_eq h ts s
      simp only [putSteps, piecesOf, List.flatten_append, h.append, Step.putTo_eq h t, htail]

end

end Steps

/-! ## Documents -/

theorem stream_eq (ts : List Step) (sink : Sink) : stream ts sink = sink.writeAll (render ts) :=
  putSteps_eq seamless_writeAll ts sink

/-- The octets that steps write where there is room for all. -/
def produced (ts : List Step) : Octets := (stream ts .unlimited).2.taken

theorem produced_eq (ts : List Step) : produced ts = render ts := by
  rw [produced, stream_eq]
  rfl

def putOctets (written o : Octets) : Progress Octets := (.ok (), written ++ o)

theorem seamless_putOctets : Seamless putOctets := by
  constructor
  · intro written
    rw [putOctets, List.append_nil]
  · intro written a b
    rw [putOctets, ← List.append_assoc]
    rfl

theorem content_stage (c : Codec) (ts : List Step) :
    putSteps putOctets ts [] = (.ok (), (c.stage ts).staged.content) :=
  putSteps_eq seamless_putOctets ts []

/-- What becomes of some octets on a sink with room for `n`: it takes as many as
it has room for, and it is an error if these are not all. -/
structure TakesPrefix (sink : Sink) (n : Nat) (o : Octets) (flushed : Except Error Unit)
    (x : Progress Sink) : Prop where
  taken : x.2.taken = sink.taken ++ o.take n
  short : n < o.length → x.1 = .error (.stream sink.refusal.message)
  whole : o.length ≤ n → x.1 = flushed

variable {sink : Sink} {n : Nat} {o : Octets}

theorem fits_iff (h : sink.room = some n) : sink.Fits o ↔ o.length ≤ n := by
  simp [Sink.Fits, h]

/-- What is done behind a write changes only what it ends with. -/
theorem takesPrefix_andThen (h : sink.room = some n) (flush : Sink → Except Error Unit) :
    TakesPrefix sink n o (flush (sink.holding o))
      ((sink.writeAll o).andThen fun s => (flush s, s)) := by
  by_cases hle : o.length ≤ n
  · rw [Sink.writeAll_of_fits ((fits_iff h).mpr hle)]
    refine ⟨?_, ?_, ?_⟩
    · rw [List.take_of_length_le hle]
      rfl
    · intro hlt
      exact absurd hle (Nat.not_le.mpr hlt)
    · intro _
      rfl
  · rw [Sink.writeAll_of_lt h (Nat.lt_of_not_le hle)]
    refine ⟨rfl, ?_, ?_⟩
    · intro _
      rfl
    · intro hfits
      exact absurd hfits hle

theorem takesPrefix_writeAll (h : sink.room = some n) :
    TakesPrefix sink n o (.ok ()) (sink.writeAll o) := by
  have hprefix := takesPrefix_andThen (o := o) h fun _ => .ok ()
  rwa [Progress.andThen_self] at hprefix

theorem takesPrefix_writeDocument (h : sink.room = some n) :
    TakesPrefix sink n o sink.flush (sink.writeDocument o) := by
  rw [Sink.writeDocument_eq]
  exact takesPrefix_andThen h Sink.flush

/-- A sink with room for some octets takes those of the document up to there,
whether it is written piece by piece or staged, and in whatever portions the
sink takes what it is offered.  It is an error if that is not all of it. -/
theorem sinks_take_prefix (ts : List Step) (c : Codec) (h : sink.room = some n) :
    (stream ts .unlimited).1 = .ok () ∧
    putSteps putOctets ts [] = (.ok (), produced ts) ∧
    TakesPrefix sink n (produced ts) (.ok ()) (stream ts sink) ∧
    TakesPrefix sink n (produced ts) sink.flush (c.write ts sink).1 ∧
    (c.write ts sink).1.2 = (stream ts sink).2 ∧
    (∀ portion, putSteps (Sink.writeBy portion) ts sink = stream ts sink ∧
      sink.writeBy portion (produced ts) = sink.writeAll (produced ts)) := by
  have hwrite : (c.write ts sink).1 = sink.writeDocument (render ts) := rfl
  have hportion (portion) : Sink.writeBy portion = Sink.writeAll := by
    funext sink o
    exact Sink.writeBy_eq portion sink o
  rw [produced_eq, hwrite, stream_eq, stream_eq]
  refine ⟨rfl, content_stage c ts, takesPrefix_writeAll h, takesPrefix_writeDocument h,
    Sink.writeDocument_snd sink _, ?_⟩
  intro portion
  rw [hportion]
  exact ⟨stream_eq ts sink, rfl⟩

/-- A string whose document does not fit: it is cut inside a tag, and nothing is
taken of what stands behind. -/
theorem sinks_take_prefix_cut :
    let sink : Sink := ⟨[0x0A], some 8, .takesNothing, some "not flushed"⟩
    let ts := [valueStep (.string "a & b"), .declaration]
    let c := Codec.new .standard
    (stream ts sink).2.taken = Utf8.encodeString "\n<value><" ∧
    (stream ts sink).1 = .error (.stream "failed to write whole buffer") ∧
    (c.write ts sink).1 = stream ts sink := by
  intro sink ts c
  have hroom : sink.room = some 8 := rfl
  obtain ⟨-, -, hstreamed, hstaged, hsame, -⟩ := sinks_take_prefix ts c hroom
  have hshort : 8 < (produced ts).length := by
    rw [produced_eq]
    decide
  refine ⟨?_, hstreamed.short hshort, ?_⟩
  · rw [hstreamed.taken, produced_eq]
    decide
  · exact Prod.ext ((hstaged.short hshort).trans (hstreamed.short hshort).symm) hsame

end Document

end XmlRpc
