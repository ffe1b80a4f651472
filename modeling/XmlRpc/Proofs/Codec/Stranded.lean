/-
# Methods without buffers

A method keeps its entry when its last idle buffer is lent.  If every buffer
that is put back for it since is too large, the entry stays, without a buffer:
the method is *stranded*.  It is counted among the methods of the pool
nevertheless, and takes the place of one (`methodCount_after`).
-/
import Mathlib.Data.Set.Card
import XmlRpc.Proofs.Codec.Buffers

namespace XmlRpc

namespace BufferPool

variable {config : Config} {p : BufferPool} {h : List Event} {m : String}

/-- Whether the last idle buffer of a method was lent, and none was put back
since but buffers that are too large. -/
def Stranded (config : Config) (h : List Event) (m : String) : Prop :=
  ∃ h₁ h₂, h = h₁ ++ .lent m :: h₂ ∧ (after config h₁).idleCount m = 1 ∧
    ∀ b, .returned m b ∈ h₂ → config.maxRetainedCapacity < b.capacity

/-! ## Entries without buffers -/

theorem large_of_not_keeps (hb : Bounded config p) (hidle : p.idle? m = some []) {b : Buffer}
    (h : ¬ p.Keeps m b) : config.maxRetainedCapacity < b.capacity := by
  by_contra hsmall
  refine h ⟨?_, ?_, .inl (mem_methods_iff.mpr ⟨[], hidle⟩)⟩
  · rw [hb.config_eq]
    exact Nat.not_lt.mp hsmall
  · rw [hb.config_eq, idleCount_of_idle? hidle]
    exact (hb.fine m [] hidle).room

theorem map_tail_eq_nil_iff : (p.idle? m).map List.tail = some [] ↔
    p.idleCount m = 1 ∨ p.idle? m = some [] := by
  rw [idleCount]
  cases hidle : p.idle? m with
  | none => simp
  | some bs =>
      cases bs with
      | nil => simp
      | cons b bs => simp

/-- A loan leaves an entry without buffers if it takes the last one, or if there
was none. -/
theorem idle?_take_eq_nil_iff (p : BufferPool) (k m : String) :
    (p.take k).2.idle? m = some [] ↔
      (p.idleCount m = 1 ∧ k = m) ∨ p.idle? m = some [] := by
  rw [idle?_take]
  by_cases hk : m = k
  · subst hk
    rw [if_pos rfl, map_tail_eq_nil_iff, and_iff_left rfl]
  · rw [if_neg hk, or_iff_right]
    rintro ⟨-, rfl⟩
    exact hk rfl

theorem idle?_put_eq_nil_iff (hb : Bounded config p) (k m : String) (b : Buffer) :
    (p.put k b).idle? m = some [] ↔
      p.idle? m = some [] ∧ (k = m → config.maxRetainedCapacity < b.capacity) := by
  by_cases hkeeps : p.Keeps k b
  · rw [idle?_put_of_keeps hkeeps]
    by_cases hk : m = k
    · subst hk
      rw [if_pos rfl]
      refine iff_of_false (by simp) ?_
      rintro ⟨-, hlarge⟩
      have hsmall := hkeeps.1
      rw [hb.config_eq] at hsmall
      exact Nat.not_lt.mpr hsmall (hlarge rfl)
    · rw [if_neg hk, and_iff_left]
      intro hkm
      exact absurd hkm.symm hk
  · rw [put_of_not_keeps hkeeps, iff_self_and]
    rintro hidle rfl
    exact large_of_not_keeps hb hidle hkeeps

theorem idle?_apply_eq_nil_iff (hb : Bounded config p) (e : Event) (m : String) :
    (p.apply e).idle? m = some [] ↔
      (p.idleCount m = 1 ∧ e = .lent m) ∨
        p.idle? m = some [] ∧
          ∀ b, e = .returned m b → config.maxRetainedCapacity < b.capacity := by
  cases e with
  | lent k =>
      refine (idle?_take_eq_nil_iff p k m).trans ?_
      simp
  | returned k b =>
      refine (idle?_put_eq_nil_iff hb k m b).trans ?_
      simp

/-! ## Stranded methods -/

/-- The last event of a history either strands a method, or does not help one
that was stranded before. -/
theorem stranded_concat_iff {e : Event} : Stranded config (h ++ [e]) m ↔
    ((after config h).idleCount m = 1 ∧ e = .lent m) ∨
      Stranded config h m ∧ ∀ b, e = .returned m b → config.maxRetainedCapacity < b.capacity := by
  constructor
  · rintro ⟨h₁, h₂, heq, hone, hlarge⟩
    rcases List.eq_nil_or_concat h₂ with rfl | ⟨h₃, e', rfl⟩
    · obtain ⟨rfl, he⟩ := List.append_inj' heq rfl
      exact .inl ⟨hone, List.singleton_inj.mp he⟩
    · rw [List.concat_eq_append] at heq hlarge
      rw [← List.cons_append, ← List.append_assoc] at heq
      obtain ⟨rfl, he⟩ := List.append_inj' heq rfl
      refine .inr ⟨⟨h₁, h₃, rfl, hone, ?_⟩, ?_⟩
      · intro b hb
        exact hlarge b (List.mem_append_left _ hb)
      · intro b hb
        refine hlarge b (List.mem_append_right _ ?_)
        rw [← he, hb]
        exact List.mem_singleton_self _
  · rintro (⟨hone, rfl⟩ | ⟨⟨h₁, h₂, rfl, hone, hlarge⟩, he⟩)
    · exact ⟨h, [], rfl, hone, fun b hb => by cases hb⟩
    · refine ⟨h₁, h₂ ++ [e], List.append_assoc .., hone, ?_⟩
      intro b hb
      rcases List.mem_append.mp hb with hb | hb
      · exact hlarge b hb
      · exact he b (List.mem_singleton.mp hb).symm

/-- By induction on the history, from its beginning on. -/
theorem idle?_after_eq_nil_iff (config : Config) (h : List Event) (m : String) :
    (after config h).idle? m = some [] ↔ Stranded config h m := by
  induction h using List.reverseRecOn with
  | nil =>
      refine iff_of_false (by simp [after, new, idle?]) ?_
      rintro ⟨h₁, h₂, heq, -⟩
      simp at heq
  | append_singleton h e ih =>
      rw [after_concat, idle?_apply_eq_nil_iff (bounded_after config h), ih, stranded_concat_iff]

theorem mem_methods_after_iff : m ∈ (after config h).methods ↔
    1 ≤ (after config h).idleCount m ∨ Stranded config h m := by
  rw [← idle?_after_eq_nil_iff, mem_methods_iff, idleCount]
  cases (after config h).idle? m with
  | none => simp
  | some bs =>
      cases bs with
      | nil => simp
      | cons b bs => simp

theorem ncard_setOf_mem {names : List String} (hn : names.Nodup) :
    {m | m ∈ names}.ncard = names.length := by
  rw [← List.coe_toFinset, Set.ncard_coe_finset, List.toFinset_card_of_nodup hn]

theorem setOf_mem_methods (config : Config) (h : List Event) :
    {m | m ∈ (after config h).methods}
      = {m | 1 ≤ (after config h).idleCount m} ∪ {m | Stranded config h m} :=
  Set.ext fun _ => mem_methods_after_iff

theorem finite_stranded (config : Config) (h : List Event) :
    {m | Stranded config h m}.Finite := by
  refine (List.finite_toSet (after config h).methods).subset ?_
  intro m hm
  exact mem_methods_after_iff.mpr (.inr hm)

theorem methodCount_eq (config : Config) (h : List Event) : (after config h).methodCount
    = {m | 1 ≤ (after config h).idleCount m}.ncard + {m | Stranded config h m}.ncard := by
  have hfinite := List.finite_toSet (after config h).methods
  have hdisjoint : Disjoint {m | 1 ≤ (after config h).idleCount m}
      {m | Stranded config h m} := by
    rw [Set.disjoint_left]
    intro m hm hstranded
    have hidle := (idle?_after_eq_nil_iff config h m).mpr hstranded
    change 1 ≤ (after config h).idleCount m at hm
    rw [idleCount_of_idle? hidle] at hm
    cases hm
  rw [← length_methods, ← ncard_setOf_mem (bounded_after config h).nodup]
  rw [setOf_mem_methods] at hfinite ⊢
  exact Set.ncard_union_eq hdisjoint (hfinite.subset Set.subset_union_left)
    (finite_stranded config h)

theorem idleCount_put_of_not_mem (hm : m ∉ p.methods) (b : Buffer) :
    (p.put m b).idleCount m = 1 ↔
      b.capacity ≤ p.config.maxRetainedCapacity ∧ 0 < p.config.buffersPerMethod ∧
        p.methodCount < p.config.maxPooledMethods := by
  have hidle := idle?_eq_none_iff.mpr hm
  have hzero : p.idleCount m = 0 := by
    rw [idleCount, hidle]
    rfl
  have hkept : (p.put m b).idleCount m = 1 ↔ p.Keeps m b := by
    by_cases hkeeps : p.Keeps m b
    · refine iff_of_true ?_ hkeeps
      rw [idleCount, idle?_put_of_keeps hkeeps, if_pos rfl, hidle]
      rfl
    · refine iff_of_false ?_ hkeeps
      rw [put_of_not_keeps hkeeps, hzero]
      exact Nat.zero_ne_one
  rw [hkept, Keeps, hzero, or_iff_right hm]

/-- The methods that are counted are those with idle buffers and those that are
stranded, and both sorts take up places: a method that is neither gets a buffer
kept only while the two together leave room. -/
theorem methodCount_after (config : Config) (h : List Event) :
    let p := after config h
    let holding := {m | 1 ≤ p.idleCount m}
    let stranded := {m | Stranded config h m}
    p.methodCount = holding.ncard + stranded.ncard ∧
    (p.methodCount = holding.ncard ↔ ∀ m, ¬ Stranded config h m) ∧
    ∀ m b, m ∉ holding → m ∉ stranded →
      ((p.put m b).idleCount m = 1 ↔
        b.capacity ≤ config.maxRetainedCapacity ∧ 0 < config.buffersPerMethod ∧
          holding.ncard + stranded.ncard < config.maxPooledMethods) := by
  intro p holding stranded
  have hcount : p.methodCount = holding.ncard + stranded.ncard := methodCount_eq config h
  refine ⟨hcount, ?_, ?_⟩
  · rw [hcount, Nat.add_eq_left, Set.ncard_eq_zero (finite_stranded config h)]
    exact Set.eq_empty_iff_forall_notMem
  · intro m b hholding hstranded
    have hm : m ∉ p.methods := by
      rw [mem_methods_after_iff]
      exact not_or_intro hholding hstranded
    have hconfig : p.config = config := (bounded_after config h).config_eq
    rw [idleCount_put_of_not_mem hm, hconfig, hcount]

/-- Room for one method, and for buffers of four octets.  A buffer of one method
comes back as it was lent, is lent again and comes back too large: no method has
an idle buffer, one is counted, and no other method gets a buffer kept. -/
theorem methodCount_after_large :
    let p := ((Staging.new ⟨1, 1, 1, 4, 4⟩ .standard).run
      [.lend "m" [0x78] [], .lend "m" [0x68, 0x65, 0x6C, 0x6C, 0x6F] []]).2.buffers
    p.methodCount = 1 ∧ (∀ m, p.idleCount m = 0) ∧ ∀ b, (p.put "n" b).idleCount "n" ≠ 1 := by
  intro p
  let h : List Event :=
    [.lent "m", .returned "m" ⟨[0x78], 4⟩,
      .lent "m", .returned "m" ⟨[0x68, 0x65, 0x6C, 0x6C, 0x6F], 5⟩]
  have hp : p = after ⟨1, 1, 1, 4, 4⟩ h := rfl
  have hidle (m : String) : p.idleCount m = 0 := by
    have hentries : p = ⟨⟨1, 1, 1, 4, 4⟩, [("m", [])]⟩ := rfl
    rw [idleCount, hentries, idle?_cons]
    split <;> rfl
  have hstranded : ¬ Stranded ⟨1, 1, 1, 4, 4⟩ h "n" := by
    rintro ⟨h₁, h₂, heq, -⟩
    have hmem : Event.lent "n" ∈ h := heq ▸ List.mem_append_right h₁ List.mem_cons_self
    simp [h] at hmem
  obtain ⟨hcount, -, hplace⟩ := methodCount_after ⟨1, 1, 1, 4, 4⟩ h
  rw [← hp] at hcount hplace
  have hone : p.methodCount = 1 := rfl
  refine ⟨hone, hidle, ?_⟩
  intro b hb
  have hholding : "n" ∉ {m | 1 ≤ p.idleCount m} := by
    intro hn
    change 1 ≤ p.idleCount "n" at hn
    rw [hidle "n"] at hn
    cases hn
  obtain ⟨-, -, hroom⟩ := (hplace "n" b hholding hstranded).mp hb
  rw [← hcount, hone] at hroom
  exact Nat.lt_irrefl 1 hroom

end BufferPool

end XmlRpc
