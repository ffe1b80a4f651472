/-
# What a pool of codecs owns

A pool makes a codec when none is idle and drops one when the queue is full.
What it has made and not dropped is idle or on loan, and nothing is both:

                  idle    on loan    made    dropped
    acquire        −1       +1                          a codec is idle
    acquire                 +1        +1                none is
    release        +1       −1                          there is room
    release                 −1                 +1       there is none

`Accounted` keeps these books for a pool and the serial numbers of what it has
lent.  Every request keeps them balanced, and so do the requests inside it:
`Passes` goes through all moments of a run, those within a loan included.
-/
import Mathlib.Data.List.Nodup
import XmlRpc.Proofs.Codec.Isolation

namespace XmlRpc

open Native (Schema)

namespace CodecPool

variable {p : CodecPool} {lent : List Nat}

/-! ## The steps of a pool -/

/-- The serial numbers of the idle codecs. -/
def serials (p : CodecPool) : List Nat := p.idle.map (·.serial)

theorem one_le_capacity (p : CodecPool) : 1 ≤ p.capacity := Nat.le_max_left _ _

@[simp] theorem config_acquire (p : CodecPool) : p.acquire.2.config = p.config := by
  rw [acquire]
  split <;> rfl

@[simp] theorem config_release (p : CodecPool) (c : PooledCodec) :
    (p.release c).config = p.config := by
  rw [release]
  split <;> rfl

/-- Either the codec that has waited longest is lent, or a new one. -/
theorem acquire_cases (p : CodecPool) :
    (∃ c idle, p.idle = c :: idle ∧ p.acquire.1.serial = c.serial ∧
        p.acquire.2 = { p with idle }) ∨
      p.idle = [] ∧ p.acquire.1.serial = p.created ∧
        p.acquire.2 = { p with created := p.created + 1 } := by
  cases h : p.idle with
  | cons c idle =>
      refine .inl ⟨c, idle, rfl, ?_⟩
      rw [acquire, h]
      exact ⟨rfl, rfl⟩
  | nil =>
      refine .inr ⟨rfl, ?_⟩
      rw [acquire, h]
      exact ⟨rfl, rfl⟩

/-- Either a codec is kept, as the last in the queue, or it is dropped. -/
theorem release_cases (p : CodecPool) (c : PooledCodec) :
    (p.idleCount < p.capacity ∧ p.release c = { p with idle := p.idle ++ [c] }) ∨
      p.capacity ≤ p.idleCount ∧ p.release c = { p with dropped := p.dropped + 1 } := by
  rw [release]
  split
  · exact .inl ⟨‹_›, rfl⟩
  · exact .inr ⟨Nat.not_lt.mp ‹_›, rfl⟩

theorem created_acquire (p : CodecPool) :
    p.acquire.2.created = p.created + if p.idleCount = 0 then 1 else 0 := by
  obtain ⟨c, idle, hidle, -, hpool⟩ | ⟨hidle, -, hpool⟩ := p.acquire_cases
  · rw [hpool, idleCount, hidle]
    rfl
  · rw [hpool, idleCount, hidle]
    rfl

/-! ## Balanced books -/

/-- Whether a pool that has lent the codecs of these serial numbers has its
books in order. -/
structure Accounted (p : CodecPool) (lent : List Nat) : Prop where
  idle_le : p.idleCount ≤ p.capacity
  once : (p.serials ++ lent).Nodup
  lt_created : ∀ n ∈ p.serials ++ lent, n < p.created
  balance : p.created = p.dropped + p.idleCount + lent.length

namespace Accounted

theorem new (config : Config) : (new config).Accounted [] :=
  ⟨Nat.zero_le _, List.nodup_nil, fun _ h => absurd h List.not_mem_nil, rfl⟩

theorem perm {lent' : List Nat} (h : p.Accounted lent) (hp : lent.Perm lent') :
    p.Accounted lent' := by
  have happ : (p.serials ++ lent).Perm (p.serials ++ lent') := hp.append_left _
  refine ⟨h.idle_le, happ.nodup_iff.mp h.once, ?_, ?_⟩
  · intro n hn
    exact h.lt_created n (happ.mem_iff.mpr hn)
  · rw [h.balance, hp.length_eq]

theorem acquire (h : p.Accounted lent) :
    p.acquire.2.Accounted (p.acquire.1.serial :: lent) := by
  have hbalance := h.balance
  obtain ⟨c, idle, hidle, hserial, hpool⟩ | ⟨hidle, hserial, hpool⟩ := p.acquire_cases
  · have hserials : p.serials = c.serial :: idle.map (·.serial) := by rw [serials, hidle]; rfl
    have hcount : p.idleCount = idle.length + 1 := by rw [idleCount, hidle]; rfl
    have hmoved : (p.serials ++ lent).Perm (idle.map (·.serial) ++ c.serial :: lent) := by
      rw [hserials]
      exact List.perm_middle.symm
    rw [hserial, hpool]
    refine ⟨?_, hmoved.nodup_iff.mp h.once, ?_, ?_⟩
    · exact Nat.le_trans (Nat.le_of_lt (hcount ▸ Nat.lt_succ_self _)) h.idle_le
    · intro n hn
      exact h.lt_created n (hmoved.mem_iff.mpr hn)
    · show p.created = p.dropped + idle.length + (lent.length + 1)
      omega
  · have hserials : p.serials = [] := by rw [serials, hidle]; rfl
    have hcount : p.idleCount = 0 := by rw [idleCount, hidle]; rfl
    have honce := h.once
    have hlt := h.lt_created
    rw [hserials, List.nil_append] at honce hlt
    rw [hserial, hpool]
    have hnil : serials { p with created := p.created + 1 } = [] := hserials
    refine ⟨h.idle_le, ?_, ?_, ?_⟩
    · rw [hnil]
      exact List.nodup_cons.mpr ⟨fun hmem => Nat.lt_irrefl _ (hlt _ hmem), honce⟩
    · rw [hnil]
      intro n hn
      cases hn with
      | head => exact Nat.lt_succ_self _
      | tail _ hn => exact Nat.lt_succ_of_lt (hlt n hn)
    · show p.created + 1 = p.dropped + p.idleCount + (lent.length + 1)
      omega

theorem release {c : PooledCodec} (h : p.Accounted (c.serial :: lent)) :
    (p.release c).Accounted lent := by
  have hbalance := h.balance
  rw [List.length_cons] at hbalance
  obtain ⟨hroom, hpool⟩ | ⟨hfull, hpool⟩ := p.release_cases c
  · have hserials : serials { p with idle := p.idle ++ [c] } = p.serials ++ [c.serial] :=
      List.map_append
    have hcount : idleCount { p with idle := p.idle ++ [c] } = p.idleCount + 1 :=
      List.length_append
    have happ :
        serials { p with idle := p.idle ++ [c] } ++ lent = p.serials ++ c.serial :: lent := by
      rw [hserials, List.append_assoc]
      rfl
    rw [hpool]
    refine ⟨hcount ▸ hroom, happ ▸ h.once, happ ▸ h.lt_created, ?_⟩
    rw [hcount]
    show p.created = p.dropped + (p.idleCount + 1) + lent.length
    omega
  · have hsub : (p.serials ++ lent).Sublist (p.serials ++ c.serial :: lent) :=
      (List.sublist_cons_self _ _).append_left _
    rw [hpool]
    refine ⟨h.idle_le, h.once.sublist hsub, ?_, ?_⟩
    · intro n hn
      exact h.lt_created n (hsub.subset hn)
    · show p.created = p.dropped + 1 + p.idleCount + lent.length
      omega

/-- A loan for the time of a closure keeps the books, if the closure does. -/
theorem withCodec {α : Type} {lent' : List Nat}
    {body : Codec → CodecPool → α × Codec × CodecPool} (h : p.Accounted lent)
    (hbody : ∀ c q n, Accounted q (n :: lent) → Accounted (body c q).2.2 (n :: lent')) :
    (p.withCodec body).2.Accounted lent' := by
  have hinside := hbody p.acquire.1.codec _ _ h.acquire
  exact release (c := { p.acquire.1 with codec := (body p.acquire.1.codec p.acquire.2).2.1 })
    hinside

theorem dropped_release (h : p.Accounted lent) (c : PooledCodec) :
    (p.release c).dropped = p.dropped + if p.idleCount = p.capacity then 1 else 0 := by
  have hle := h.idle_le
  obtain ⟨hroom, hpool⟩ | ⟨hfull, hpool⟩ := p.release_cases c
  · rw [hpool, if_neg (Nat.ne_of_lt hroom)]
    rfl
  · rw [hpool, if_pos (Nat.le_antisymm hle hfull)]

/-- A closure that leaves the pool alone is lent the codec that is put back
behind it, so that one codec is idle afterwards where none was before. -/
theorem idleCount_withCodec {α : Type} {body : Codec → CodecPool → α × Codec × CodecPool}
    (h : p.Accounted lent)
    (hbody : (body p.acquire.1.codec p.acquire.2).2.2 = p.acquire.2) :
    (p.withCodec body).2.idleCount = max 1 p.idleCount := by
  have hle := h.idle_le
  have hone := p.one_le_capacity
  obtain ⟨b, hb⟩ : ∃ b, (p.withCodec body).2 = p.acquire.2.release b := by
    refine ⟨{ p.acquire.1 with codec := (body p.acquire.1.codec p.acquire.2).2.1 }, ?_⟩
    exact congrArg (CodecPool.release · _) hbody
  have hcapacity : p.acquire.2.capacity = p.capacity := by rw [capacity, config_acquire]; rfl
  have hcount : p.acquire.2.idleCount + 1 = max 1 p.idleCount := by
    obtain ⟨c, idle, hidle, -, hpool⟩ | ⟨hidle, -, hpool⟩ := p.acquire_cases
    · have hlength : p.idleCount = idle.length + 1 := by rw [idleCount, hidle]; rfl
      rw [hpool, hlength]
      exact (Nat.max_eq_right (Nat.le_add_left 1 _)).symm
    · rw [hpool, idleCount, idleCount, hidle]
      rfl
  rw [hb]
  obtain ⟨hroom, hpool⟩ | ⟨hfull, hpool⟩ := p.acquire.2.release_cases b
  · rw [hpool, ← hcount]
    exact List.length_append
  · omega

end Accounted

end CodecPool

namespace Lending

variable {Γ : Schema} {l l' : Lending} {holder : String} {rs : List Request}

/-! ## Pools in use -/

/-- The serial numbers of the codecs on loan. -/
def lent (l : Lending) : List Nat := l.loans.map (·.2.serial)

/-- A pool in use with its books in order: no holder has two codecs, and what
is on loan is what the holders have. -/
structure Accounted (config : Config) (l : Lending) : Prop where
  config_eq : l.pool.config = config
  holders_nodup : l.holders.Nodup
  books : l.pool.Accounted l.lent

theorem lent_perm {c : PooledCodec} (hd : l.holders.Nodup) (h : l.loan? holder = some c) :
    l.lent.Perm (c.serial :: (l.loans.filter (·.1 != holder)).map (·.2.serial)) := by
  rw [loan?, Option.map_eq_some_iff] at h
  obtain ⟨e, hfind, rfl⟩ := h
  obtain ⟨heq, before, after, hloans, hbefore⟩ := List.find?_eq_some_iff_append.mp hfind
  have hname : e.1 = holder := beq_iff_eq.mp heq
  rw [holders, hloans, List.map_append, List.map_cons] at hd
  have hkept : ∀ other ∈ before ++ after, (other.1 != holder) = true := by
    intro other hmem
    have hnot : e.1 ∉ (before ++ after).map (·.1) := by
      rw [List.map_append]
      exact (List.nodup_cons.mp (List.nodup_middle.mp hd)).1
    refine bne_iff_ne.mpr ?_
    intro hsame
    exact hnot (List.mem_map.mpr ⟨other, hmem, hsame.trans hname.symm⟩)
  have hgone : ¬ (e.1 != holder) = true := fun h => bne_iff_ne.mp h hname
  have hfilter : l.loans.filter (·.1 != holder) = before ++ after := by
    have hcons : (e :: after).filter (·.1 != holder) = after.filter (·.1 != holder) :=
      List.filter_cons_of_neg hgone
    rw [hloans, List.filter_append, hcons, ← List.filter_append]
    exact List.filter_eq_self.mpr hkept
  rw [hfilter, lent, hloans, List.map_append, List.map_append]
  exact List.perm_middle

/-- The books are kept also where something else is on loan, such as a codec
just taken. -/
theorem books_settle (other : List Nat) (hd : l.holders.Nodup)
    (h : l.pool.Accounted (other ++ l.lent)) :
    (l.settle holder).pool.Accounted (other ++ (l.settle holder).lent) := by
  cases hloan : l.loan? holder with
  | none =>
      rw [settle, hloan]
      exact h
  | some c =>
      have hperm := (lent_perm hd hloan).append_left other
      rw [settle, hloan]
      exact (h.perm (hperm.trans List.perm_middle)).release

@[simp] theorem config_settle (l : Lending) (holder : String) :
    (l.settle holder).pool.config = l.pool.config := by
  rw [settle]
  cases l.loan? holder with
  | none => rfl
  | some c => exact CodecPool.config_release _ _

theorem lent_use (o : Operation) : (l.use Γ holder o).2.lent = l.lent := by
  rw [use]
  cases l.loan? holder with
  | none => rfl
  | some c =>
      refine List.map_map.trans (List.map_congr_left ?_)
      intro e _
      show (if e.1 = holder then _ else _ : PooledCodec).serial = _
      split <;> rfl

theorem pool_use (o : Operation) : (l.use Γ holder o).2.pool = l.pool := by
  rw [use]
  cases l.loan? holder <;> rfl

namespace Accounted

variable {config : Config}

theorem new (config : Config) : (new config).Accounted config :=
  ⟨rfl, List.nodup_nil, .new config⟩

theorem settle (h : l.Accounted config) (holder : String) :
    (l.settle holder).Accounted config := by
  refine ⟨(config_settle l holder).trans h.config_eq, ?_, ?_⟩
  · rw [holders_settle]
    exact h.holders_nodup.filter _
  · exact books_settle [] h.holders_nodup h.books

theorem acquire (h : l.Accounted config) (holder : String) :
    (l.acquire holder).Accounted config := by
  refine ⟨?_, ?_, ?_⟩
  · refine (config_settle { l with pool := l.pool.acquire.2 } holder).trans ?_
    exact (CodecPool.config_acquire _).trans h.config_eq
  · rw [holders_acquire]
    refine List.nodup_cons.mpr ⟨?_, h.holders_nodup.filter _⟩
    intro hmem
    exact bne_iff_ne.mp (List.mem_filter.mp hmem).2 rfl
  · -- The new codec is on loan already when the former one goes back.
    exact books_settle (l := { l with pool := l.pool.acquire.2 }) [l.pool.acquire.1.serial]
      h.holders_nodup h.books.acquire

theorem use (h : l.Accounted config) (holder : String) (o : Operation) :
    (l.use Γ holder o).2.Accounted config := by
  refine ⟨?_, ?_, ?_⟩
  · rw [pool_use, h.config_eq]
  · rw [holders_use]
    exact h.holders_nodup
  · rw [pool_use, lent_use]
    exact h.books

theorem withCodec {α : Type} (h : l.Accounted config)
    (body : Codec → CodecPool → α × Codec × CodecPool) (hbody : ∀ c q, (body c q).2.2 = q) :
    Accounted config { l with pool := (l.pool.withCodec body).2 } := by
  refine ⟨?_, h.holders_nodup, ?_⟩
  · refine (CodecPool.config_release _ _).trans ?_
    rw [hbody]
    exact (CodecPool.config_acquire _).trans h.config_eq
  · refine h.books.withCodec ?_
    intro c q n hq
    rw [hbody]
    exact hq

mutual

theorem step {l : Lending} (h : l.Accounted config) : ∀ r, (l.step Γ r).2.Accounted config
  | .acquire holder => h.acquire holder
  | .release holder => h.settle holder
  | .use holder o => h.use holder o
  | .lend o =>
      h.withCodec (fun c p => ((c.run Γ o).1, (c.run Γ o).2, p)) fun _ _ => rfl
  | .abandon => h.withCodec (fun c p => ((), c, p)) fun _ _ => rfl
  | .within holder body => (run (h.acquire holder) body).settle holder

theorem run {l : Lending} (h : l.Accounted config) : ∀ rs, (l.run Γ rs).2.Accounted config
  | [] => h
  | r :: rs => run (step h r) rs

end

end Accounted

/-! ## All moments of a run -/

/-- `Passes Γ l rs l'`: a pool in use that starts as `l` and does `rs` is `l'`
at some moment, before or after a request or inside one. -/
inductive Passes (Γ : Schema) : Lending → List Request → Lending → Prop where
  | here (l : Lending) (rs : List Request) : Passes Γ l rs l
  | inside {l : Lending} {holder : String} {body rs : List Request} {l' : Lending} :
      Passes Γ (l.acquire holder) body l' → Passes Γ l (.within holder body :: rs) l'
  | later {l : Lending} {r : Request} {rs : List Request} {l' : Lending} :
      Passes Γ (l.step Γ r).2 rs l' → Passes Γ l (r :: rs) l'

theorem Accounted.passes {config : Config} (h : l.Accounted config) (hp : Passes Γ l rs l') :
    l'.Accounted config := by
  induction hp with
  | here => exact h
  | inside _ ih => exact ih (h.acquire _)
  | later _ ih => exact ih (h.step _)

/-- At every moment of every run of requests, loans in loans included: the idle
codecs are no more than the pool may keep, no codec is idle twice, lent twice
or both, and what was made and not dropped is idle or on loan.  A codec is made
only where none is idle, and dropped only where the queue is full.  A loan
during which the pool is left alone leaves one codec idle if none was, and
otherwise as many as there were, however it ends. -/
theorem books_balance (Γ : Schema) (config : Config) (rs : List Request) (l : Lending)
    (h : Passes Γ (new config) rs l) :
    l.pool.idleCount ≤ max 1 config.poolCapacity ∧
    (l.pool.serials ++ l.lent).Nodup ∧
    (l.pool.created : Int) - l.pool.dropped = l.pool.idleCount + l.loans.length ∧
    l.pool.acquire.2.created = l.pool.created + (if l.pool.idleCount = 0 then 1 else 0) ∧
    (∀ c, (l.pool.release c).dropped
      = l.pool.dropped + if l.pool.idleCount = max 1 config.poolCapacity then 1 else 0) ∧
    ∀ (α : Type) (body : Codec → CodecPool → α × Codec × CodecPool),
      (body l.pool.acquire.1.codec l.pool.acquire.2).2.2 = l.pool.acquire.2 →
        (l.pool.withCodec body).2.idleCount = max 1 l.pool.idleCount := by
  obtain ⟨hconfig, -, hbooks⟩ := (Accounted.new config).passes h
  have hcapacity : l.pool.capacity = max 1 config.poolCapacity := by
    rw [CodecPool.capacity, hconfig]
  have hlent : l.lent.length = l.loans.length := List.length_map _
  refine ⟨hcapacity ▸ hbooks.idle_le, hbooks.once, ?_, l.pool.created_acquire, ?_, ?_⟩
  · have hbalance := hbooks.balance
    omega
  · intro c
    rw [← hcapacity]
    exact hbooks.dropped_release c
  · intro α body hbody
    exact hbooks.idleCount_withCodec hbody

/-- A moment in a loan, where the pool may keep one codec: three are on loan
and the fourth is idle, so that the next one that comes back is dropped. -/
theorem books_balance_nested :
    ∃ l, Passes [] (new { Config.standard with poolCapacity := 0 })
        [.acquire "a", .within "b" [.acquire "c", .abandon, .release "a"], .release "c"] l ∧
      l.pool.serials = [3] ∧ l.lent = [2, 1, 0] ∧
      l.pool.idleCount ≤ 1 ∧ ([3] ++ [2, 1, 0]).Nodup ∧
      (l.pool.created : Int) - l.pool.dropped = 1 + 3 ∧
      l.pool.acquire.2.created = 4 ∧ (∀ c, (l.pool.release c).dropped = 1) ∧
      (l.pool.withCodec fun c p => ("panicked", c, p)).2.idleCount = 1 := by
  refine ⟨_, .later (.inside (.later (.later (.here _ [.release "a"])))), rfl, rfl, ?_⟩
  obtain ⟨hidle, honce, hbalance, hcreated, hdropped, hloan⟩ :=
    books_balance [] { Config.standard with poolCapacity := 0 }
      [.acquire "a", .within "b" [.acquire "c", .abandon, .release "a"], .release "c"] _
      (.later (.inside (.later (.later (.here _ [.release "a"])))))
  exact ⟨hidle, honce, hbalance, hcreated, hdropped, hloan String _ rfl⟩

end Lending

end XmlRpc
