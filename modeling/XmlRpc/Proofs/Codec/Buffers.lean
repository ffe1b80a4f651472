/-
# Pools of buffers within bounds

A history is what has happened to a pool: buffers were lent, and buffers were
put back, in any order and whatever had become of them meanwhile.  All that
can be done with a pool makes a history (`reached_withBuffer`,
`reached_encodeRequest`, `reached_run`), also while other buffers are on loan.

After every history the pool is within its bounds (`Bounded`): so many buffers
for a method, so many methods, and no idle buffer that is too large or holds
anything.  What is encoded into a lent buffer is therefore the call and nothing
else, whoever had the buffer before.
-/
import Mathlib.Data.List.Nodup
import XmlRpc.Codec.Staging
import XmlRpc.Proofs.Codec.Exchange

namespace XmlRpc

namespace BufferPool

variable {config : Config} {p : BufferPool} {m n : String} {b : Buffer} {bs : List Buffer}

/-! ## Entries -/

def methods (p : BufferPool) : List String := p.entries.map (·.1)

def add (p : BufferPool) (m : String) (bs : List Buffer) : BufferPool :=
  { p with entries := p.entries ++ [(m, bs)] }

theorem idle?_eq_none_iff : p.idle? m = none ↔ m ∉ p.methods := by
  rw [idle?, Option.map_eq_none_iff, List.find?_eq_none, methods, List.mem_map]
  simp only [beq_iff_eq, not_exists, not_and]

theorem mem_methods_iff : m ∈ p.methods ↔ ∃ bs, p.idle? m = some bs := by
  rw [← Option.ne_none_iff_exists', Ne, idle?_eq_none_iff, not_not]

theorem idleCount_of_idle? (h : p.idle? m = some bs) : p.idleCount m = bs.length := by
  rw [idleCount, h]
  rfl

@[simp] theorem methods_setIdle (p : BufferPool) (m : String) (bs : List Buffer) :
    (p.setIdle m bs).methods = p.methods := List.map_map

@[simp] theorem methods_add (p : BufferPool) (m : String) (bs : List Buffer) :
    (p.add m bs).methods = p.methods ++ [m] := List.map_append

theorem idle?_cons (config : Config) (e : String × List Buffer)
    (entries : List (String × List Buffer)) (n : String) : idle? ⟨config, e :: entries⟩ n
      = if e.1 = n then some e.2 else idle? ⟨config, entries⟩ n := by
  rw [idle?, List.find?_cons]
  by_cases h : e.1 = n
  · rw [if_pos h, beq_iff_eq.mpr h]
    rfl
  · rw [if_neg h, beq_eq_false_iff_ne.mpr h]
    rfl

theorem idle?_setIdle (n : String) :
    (p.setIdle m bs).idle? n = if n = m then (p.idle? m).map (fun _ => bs) else p.idle? n := by
  obtain ⟨config, entries⟩ := p
  induction entries with
  | nil => split <;> rfl
  | cons e entries ih =>
      have hset : setIdle ⟨config, e :: entries⟩ m bs
          = ⟨config, (e.1, if e.1 = m then bs else e.2)
            :: (setIdle ⟨config, entries⟩ m bs).entries⟩ := rfl
      rw [hset, idle?_cons, idle?_cons, idle?_cons]
      by_cases hn : e.1 = n
      · by_cases hm : n = m
        · simp only [hn, hm, if_true, Option.map_some]
        · simp only [hn, hm, if_true, if_false]
      · by_cases hm : n = m
        · subst hm
          simp only [hn, if_true, if_false] at ih ⊢
          exact ih
        · simp only [hn, hm, if_false] at ih ⊢
          exact ih

theorem idle?_add (h : m ∉ p.methods) (n : String) :
    (p.add m bs).idle? n = if n = m then some bs else p.idle? n := by
  by_cases hnm : n = m
  · have hnone := idle?_eq_none_iff.mpr h
    rw [idle?, Option.map_eq_none_iff] at hnone
    rw [if_pos hnm, hnm, idle?, add, List.find?_append, hnone]
    simp
  · rw [if_neg hnm, idle?, add, List.find?_append, idle?]
    cases p.entries.find? (·.1 == n) with
    | none => simp [Ne.symm hnm]
    | some e => rfl

/-! ## Steps -/

/-- Whether a pool keeps a buffer that is put back: it is not too large, and
there is room for it. -/
def Keeps (p : BufferPool) (m : String) (b : Buffer) : Prop :=
  b.capacity ≤ p.config.maxRetainedCapacity ∧ p.idleCount m < p.config.buffersPerMethod ∧
    (m ∈ p.methods ∨ p.methodCount < p.config.maxPooledMethods)

/-- Either the buffer put back last is lent, or a new one. -/
theorem take_cases (p : BufferPool) (m : String) :
    (∃ b bs, p.idle? m = some (b :: bs) ∧ p.take m = (b, p.setIdle m bs)) ∨
      p.idleCount m = 0 ∧ p.take m = (.new p.config.bufferCapacity, p) := by
  cases h : p.idle? m with
  | none =>
      refine .inr ⟨?_, ?_⟩
      · rw [idleCount, h]
        rfl
      · rw [take, h]
  | some bs =>
      cases bs with
      | nil =>
          refine .inr ⟨idleCount_of_idle? h, ?_⟩
          rw [take, h]
      | cons b bs =>
          refine .inl ⟨b, bs, rfl, ?_⟩
          rw [take, h]

/-- Either a buffer is kept, with those of its method or as the first of them,
or nothing happens. -/
theorem put_cases (p : BufferPool) (m : String) (b : Buffer) :
    (∃ bs, p.idle? m = some bs ∧ p.Keeps m b ∧ p.put m b = p.setIdle m (b.clear :: bs)) ∨
      (m ∉ p.methods ∧ p.Keeps m b ∧ p.put m b = p.add m [b.clear]) ∨
      ¬ p.Keeps m b ∧ p.put m b = p := by
  rw [put]
  split
  · rename_i hlarge
    exact .inr (.inr ⟨fun h => Nat.not_lt.mpr h.1 hlarge, rfl⟩)
  rename_i hsmall
  cases h : p.idle? m with
  | some bs =>
      have hcount := idleCount_of_idle? h
      dsimp only
      split
      · rename_i hroom
        refine .inl ⟨bs, rfl, ⟨Nat.not_lt.mp hsmall, hcount ▸ hroom, .inl ?_⟩, rfl⟩
        exact mem_methods_iff.mpr ⟨bs, h⟩
      · rename_i hfull
        exact .inr (.inr ⟨fun hkeeps => hfull (hcount ▸ hkeeps.2.1), rfl⟩)
  | none =>
      have hcount : p.idleCount m = 0 := by
        rw [idleCount, h]
        rfl
      have hnot := idle?_eq_none_iff.mp h
      dsimp only
      split
      · rename_i hfull
        rw [Bool.or_eq_true, decide_eq_true_eq, decide_eq_true_eq] at hfull
        refine .inr (.inr ⟨?_, rfl⟩)
        rintro ⟨-, hroom, hmethods⟩
        rcases hfull with hfull | hzero
        · exact hmethods.elim hnot (Nat.not_lt.mpr hfull)
        · omega
      · rename_i hroom
        rw [Bool.or_eq_true, decide_eq_true_eq, decide_eq_true_eq, not_or] at hroom
        refine .inr (.inl ⟨hnot, ⟨Nat.not_lt.mp hsmall, ?_, .inr (Nat.not_le.mp hroom.1)⟩, rfl⟩)
        omega

theorem idle?_take (p : BufferPool) (m n : String) :
    (p.take m).2.idle? n = if n = m then (p.idle? m).map List.tail else p.idle? n := by
  rcases take_cases p m with ⟨b, bs, h, htake⟩ | ⟨hcount, htake⟩
  · rw [htake, idle?_setIdle, h]
    rfl
  · rw [htake]
    split
    · rename_i hnm
      subst hnm
      cases h : p.idle? n with
      | none => rfl
      | some bs =>
          rw [idleCount_of_idle? h, List.length_eq_zero_iff] at hcount
          rw [hcount]
          rfl
    · rfl

theorem idle?_put_of_keeps (h : p.Keeps m b) (n : String) : (p.put m b).idle? n
    = if n = m then some (b.clear :: (p.idle? m).getD []) else p.idle? n := by
  rcases put_cases p m b with ⟨bs, hidle, -, hput⟩ | ⟨hnot, -, hput⟩ | ⟨hnot, -⟩
  · rw [hput, idle?_setIdle, hidle]
    rfl
  · rw [hput, idle?_add hnot, idle?_eq_none_iff.mpr hnot]
    rfl
  · exact absurd h hnot

theorem put_of_not_keeps (h : ¬ p.Keeps m b) : p.put m b = p := by
  rcases put_cases p m b with ⟨_, -, hkeeps, -⟩ | ⟨-, hkeeps, -⟩ | ⟨-, hput⟩
  · exact absurd hkeeps h
  · exact absurd hkeeps h
  · exact hput

theorem length_methods (p : BufferPool) : p.methods.length = p.methodCount := List.length_map _

@[simp] theorem config_take (p : BufferPool) (m : String) : (p.take m).2.config = p.config := by
  rcases take_cases p m with ⟨b, bs, -, h⟩ | ⟨-, h⟩
  · rw [h]
    rfl
  · rw [h]

@[simp] theorem methods_take (p : BufferPool) (m : String) : (p.take m).2.methods = p.methods := by
  rcases take_cases p m with ⟨b, bs, -, h⟩ | ⟨-, h⟩
  · rw [h]
    exact methods_setIdle p m bs
  · rw [h]

@[simp] theorem config_put (p : BufferPool) (m : String) (b : Buffer) :
    (p.put m b).config = p.config := by
  rcases put_cases p m b with ⟨bs, -, -, h⟩ | ⟨-, -, h⟩ | ⟨-, h⟩
  · rw [h]
    rfl
  · rw [h]
    rfl
  · rw [h]

/-! ## Bounds -/

/-- Whether idle buffers are what a pool may have for one method. -/
structure Fine (config : Config) (bs : List Buffer) : Prop where
  room : 0 < config.buffersPerMethod
  length_le : bs.length ≤ config.buffersPerMethod
  clean : ∀ b ∈ bs, b.content = [] ∧ b.capacity ≤ config.maxRetainedCapacity

structure Bounded (config : Config) (p : BufferPool) : Prop where
  config_eq : p.config = config
  nodup : p.methods.Nodup
  methodCount_le : p.methodCount ≤ config.maxPooledMethods
  fine : ∀ m bs, p.idle? m = some bs → Fine config bs

theorem bounded_new (config : Config) : Bounded config (new config) :=
  ⟨rfl, List.nodup_nil, Nat.zero_le _, fun _ _ h => by cases h⟩

theorem Fine.tail (h : Fine config bs) : Fine config bs.tail where
  room := h.room
  length_le := Nat.le_trans (by rw [List.length_tail]; exact Nat.sub_le _ 1) h.length_le
  clean b hb := h.clean b (List.mem_of_mem_tail hb)

theorem Fine.kept {p : BufferPool} (hkeeps : p.Keeps m b)
    (h : ∀ c ∈ (p.idle? m).getD [], c.content = [] ∧ c.capacity ≤ p.config.maxRetainedCapacity) :
    Fine p.config (b.clear :: (p.idle? m).getD []) where
  room := Nat.lt_of_le_of_lt (Nat.zero_le _) hkeeps.2.1
  length_le := hkeeps.2.1
  clean c hc := by
    rcases List.mem_cons.mp hc with rfl | hc
    · exact ⟨rfl, hkeeps.1⟩
    · exact h c hc

theorem Bounded.clean (h : Bounded config p) (m : String) : ∀ b ∈ (p.idle? m).getD [],
    b.content = [] ∧ b.capacity ≤ config.maxRetainedCapacity := by
  cases hidle : p.idle? m with
  | none => exact fun _ hb => by cases hb
  | some bs => exact (h.fine m bs hidle).clean

theorem Bounded.idleCount_le (h : Bounded config p) (m : String) :
    p.idleCount m ≤ config.buffersPerMethod := by
  cases hidle : p.idle? m with
  | none =>
      rw [idleCount, hidle]
      exact Nat.zero_le _
  | some bs =>
      rw [idleCount_of_idle? hidle]
      exact (h.fine m bs hidle).length_le

theorem Bounded.take (h : Bounded config p) (m : String) : Bounded config (p.take m).2 where
  config_eq := by rw [config_take, h.config_eq]
  nodup := by rw [methods_take]; exact h.nodup
  methodCount_le := by rw [← length_methods, methods_take, length_methods]; exact h.methodCount_le
  fine n bs hidle := by
    rw [idle?_take] at hidle
    split at hidle
    · obtain ⟨cs, hcs, rfl⟩ := Option.map_eq_some_iff.mp hidle
      exact (h.fine m cs hcs).tail
    · exact h.fine n bs hidle

theorem Bounded.put (h : Bounded config p) (m : String) (b : Buffer) :
    Bounded config (p.put m b) := by
  have hfine (hkeeps : p.Keeps m b) (n : String) (bs : List Buffer)
      (hidle : (p.put m b).idle? n = some bs) : Fine config bs := by
    rw [idle?_put_of_keeps hkeeps] at hidle
    split at hidle
    · cases hidle
      exact h.config_eq ▸ Fine.kept hkeeps (h.config_eq ▸ h.clean m)
    · exact h.fine n bs hidle
  rcases put_cases p m b with ⟨bs, -, hkeeps, hput⟩ | ⟨hnot, hkeeps, hput⟩ | ⟨-, hput⟩
  · refine ⟨(config_put p m b).trans h.config_eq, ?_, ?_, hfine hkeeps⟩
    · rw [hput, methods_setIdle]
      exact h.nodup
    · rw [hput, ← length_methods, methods_setIdle, length_methods]
      exact h.methodCount_le
  · refine ⟨(config_put p m b).trans h.config_eq, ?_, ?_, hfine hkeeps⟩
    · rw [hput, methods_add]
      exact List.Nodup.append h.nodup (List.nodup_singleton m) (List.disjoint_singleton.mpr hnot)
    · rw [hput, ← length_methods, methods_add, List.length_append, length_methods]
      exact h.config_eq ▸ hkeeps.2.2.resolve_left hnot
  · rw [hput]
    exact h

/-! ## Histories -/

/-- What happens to a pool: a buffer is lent for a method, or put back. -/
inductive Event where
  | lent (method : String)
  | returned (method : String) (b : Buffer)

def apply (p : BufferPool) : Event → BufferPool
  | .lent method => (p.take method).2
  | .returned method b => p.put method b

/-- A pool that was new before all this happened to it. -/
def after (config : Config) (h : List Event) : BufferPool := h.foldl apply (new config)

@[simp] theorem after_concat (config : Config) (h : List Event) (e : Event) :
    after config (h ++ [e]) = (after config h).apply e := by
  rw [after, List.foldl_append]
  rfl

theorem Bounded.apply (h : Bounded config p) (e : Event) : Bounded config (p.apply e) := by
  cases e with
  | lent m => exact h.take m
  | returned m b => exact h.put m b

theorem Bounded.foldl (hp : Bounded config p) (h : List Event) :
    Bounded config (h.foldl BufferPool.apply p) := by
  induction h generalizing p with
  | nil => exact hp
  | cons e h ih => exact ih (hp.apply e)

theorem bounded_after (config : Config) (h : List Event) : Bounded config (after config h) :=
  (bounded_new config).foldl h

/-! ## What makes a history -/

/-- Whether a pool can come about. -/
def Reached (config : Config) (p : BufferPool) : Prop := ∃ h, p = after config h

theorem reached_new (config : Config) : Reached config (new config) := ⟨[], rfl⟩

theorem Reached.apply (hp : Reached config p) (e : Event) : Reached config (p.apply e) := by
  obtain ⟨h, rfl⟩ := hp
  exact ⟨h ++ [e], (after_concat config h e).symm⟩

theorem reached_withBuffer {α : Type} {body : Buffer → BufferPool → α × Buffer × BufferPool}
    (hp : Reached config p) (hbody : ∀ b q, Reached config q → Reached config (body b q).2.2) :
    Reached config (p.withBuffer m body).2 :=
  (hbody _ _ (hp.apply (.lent m))).apply (.returned m _)

theorem reached_encodeRequest (hp : Reached config p) (codecs : CodecPool) (args : List Native) :
    Reached config (p.encodeRequest codecs m args).2 := by
  refine reached_withBuffer hp ?_
  intro b q hq
  exact hq

end BufferPool

namespace Staging

open BufferPool (Reached reached_encodeRequest)

variable {config : Config}

mutual

theorem reached_step (s : Staging) (hs : Reached config s.buffers) :
    ∀ r, Reached config (s.step r).2.buffers
  | .lend method _ meanwhile =>
      (reached_run ⟨(s.buffers.take method).2, s.codecs⟩ (hs.apply (.lent method)) meanwhile).apply
        (.returned method _)
  | .encode _ args => reached_encodeRequest hs s.codecs args
  | .count _ => hs

/-- What is done with pools in use makes a history, loans inside loans
included. -/
theorem reached_run (s : Staging) (hs : Reached config s.buffers) :
    ∀ rs, Reached config (s.run rs).2.buffers
  | [] => hs
  | r :: rs => reached_run (s.step r).2 (reached_step s hs r) rs

end

end Staging

namespace BufferPool

variable {config : Config} {p : BufferPool}

/-! ## Buffers on loan -/

theorem Reached.bounded (hp : Reached config p) : Bounded config p := by
  obtain ⟨h, rfl⟩ := hp
  exact bounded_after config h

theorem content_take (hp : Reached config p) (m : String) : (p.take m).1.content = [] := by
  rcases take_cases p m with ⟨b, bs, h, htake⟩ | ⟨-, htake⟩
  · rw [htake]
    exact ((hp.bounded.fine m _ h).clean b List.mem_cons_self).1
  · rw [htake]
    rfl

theorem encodeRequest_of_empty {m : String} (h : (p.take m).1.content = []) (codecs : CodecPool)
    (args : List Native) : (p.encodeRequest codecs m args).1.1
      = .ok (Document.render (Document.callSteps (Call.ofArguments m args))) := by
  show Except.ok ((p.take m).1.content ++ _) = _
  rw [h]
  rfl

/-- A pool that can come about is within its bounds, lends empty buffers, and
encodes a call as a codec that has done nothing yet writes it. -/
theorem bounded_of_reached (hp : Reached config p) :
    (∀ m, p.idleCount m ≤ config.buffersPerMethod) ∧
    p.methodCount ≤ config.maxPooledMethods ∧
    (∀ m, ∀ b ∈ (p.idle? m).getD [],
      b.content = [] ∧ b.capacity ≤ config.maxRetainedCapacity) ∧
    (∀ m, ∃ b q, b.content = [] ∧ Reached config q ∧
      ∀ (α : Type) (body : Buffer → BufferPool → α × Buffer × BufferPool),
        p.withBuffer m body = ((body b q).1, (body b q).2.2.put m (body b q).2.1)) ∧
    ∀ (codecs : CodecPool) (m : String) (args : List Native), ∃ o,
      Codec.Delivers ((Codec.new .standard).writeRequest m args .unlimited) o ∧
        (p.encodeRequest codecs m args).1.1 = .ok o := by
  have hb := hp.bounded
  refine ⟨hb.idleCount_le, hb.methodCount_le, hb.clean, ?_, ?_⟩
  · intro m
    exact ⟨_, _, content_take hp m, hp.apply (.lent m), fun _ _ => rfl⟩
  · intro codecs m args
    exact ⟨_, Codec.delivers_write _ _, encodeRequest_of_empty (content_take hp m) codecs args⟩

/-- Two loans of one method, one inside the other, where there is room for one
buffer: the inner one goes back first and stays.  It was left dirty, and a call
is encoded into it nevertheless. -/
theorem bounded_of_reached_nested :
    let s := ((Staging.new ⟨1, 1, 1, 4, 16⟩ .standard).run
      [.lend "m" [0x78, 0x79] [.lend "m" [0x7A] []]]).2
    s.buffers.idleCount "m" = 1 ∧ s.buffers.methodCount ≤ 1 ∧
      ∃ o, Codec.Delivers ((Codec.new .standard).writeRequest "m" [] .unlimited) o ∧
        (s.buffers.encodeRequest s.codecs "m" []).1.1 = .ok o := by
  intro s
  have hs : Reached ⟨1, 1, 1, 4, 16⟩ s.buffers := Staging.reached_run _ (reached_new _) _
  obtain ⟨-, hmethods, -, -, hencode⟩ := bounded_of_reached hs
  exact ⟨rfl, hmethods, hencode s.codecs "m" []⟩

end BufferPool

end XmlRpc
