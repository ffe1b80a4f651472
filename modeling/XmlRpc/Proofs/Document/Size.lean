/-
# What is read is no larger than its document

How much a value, a call or a response holds is counted on it alone:

    bulk     one for every value, and the octets of all texts, names and payloads
    depth    how many values stand in one another

The tokens of a source take no more octets than there are, and a document of
these tokens holds no more than they take: the start tag of a value pays for
the value, and a text for the octets that are kept of it.  So nothing that can
be written in a document, references, sections and declarations included, makes
what is read larger than the source (`bulk_le_length`).
-/
import Mathlib.Data.List.Flatten
import XmlRpc.Proofs.Base64
import XmlRpc.Proofs.Document.Completeness
import XmlRpc.Proofs.Markup.Advance

namespace XmlRpc

/-! ## How much there is -/

namespace Value

mutual

/-- How much a value holds: one for it and for every value in it, and the
octets of its texts, of the names of its members and of its payloads. -/
def bulk : Value → Nat
  | .string s => 1 + (Utf8.encodeString s).length
  | .base64 o => 1 + o.length
  | .array items => 1 + bulkItems items
  | .struct members => 1 + bulkMembers members
  | _ => 1
termination_by structural v => v

def bulkItems : List Value → Nat
  | [] => 0
  | v :: vs => bulk v + bulkItems vs
termination_by structural vs => vs

def bulkMembers : List Member → Nat
  | [] => 0
  | ⟨name, v⟩ :: ms => (Utf8.encodeString name).length + bulk v + bulkMembers ms
termination_by structural ms => ms

end

mutual

/-- How many values stand in one another, at most. -/
def depth : Value → Nat
  | .array items => 1 + depthItems items
  | .struct members => 1 + depthMembers members
  | _ => 1
termination_by structural v => v

def depthItems : List Value → Nat
  | [] => 0
  | v :: vs => max (depth v) (depthItems vs)
termination_by structural vs => vs

def depthMembers : List Member → Nat
  | [] => 0
  | ⟨_, v⟩ :: ms => max (depth v) (depthMembers ms)
termination_by structural ms => ms

end

mutual

theorem depth_le_bulk (v : Value) : v.depth ≤ v.bulk := by
  cases v with
  | array items =>
      have hitems := depthItems_le_bulk items
      rw [depth, bulk]
      omega
  | struct members =>
      have hmembers := depthMembers_le_bulk members
      rw [depth, bulk]
      omega
  | string s => exact Nat.le_add_right 1 _
  | base64 o => exact Nat.le_add_right 1 _
  | _ => exact Nat.le_refl 1

theorem depthItems_le_bulk (vs : List Value) : depthItems vs ≤ bulkItems vs := by
  cases vs with
  | nil => exact Nat.le_refl 0
  | cons v vs =>
      have hfirst := depth_le_bulk v
      have hrest := depthItems_le_bulk vs
      rw [depthItems, bulkItems]
      omega

theorem depthMembers_le_bulk (ms : List Member) : depthMembers ms ≤ bulkMembers ms := by
  cases ms with
  | nil => exact Nat.le_refl 0
  | cons m ms =>
      cases m with
      | mk name v =>
          have hfirst := depth_le_bulk v
          have hrest := depthMembers_le_bulk ms
          rw [depthMembers, bulkMembers]
          omega

end

end Value

def Call.bulk (c : Call) : Nat := (Utf8.encodeString c.method).length + Value.bulkItems c.params

def Call.depth (c : Call) : Nat := Value.depthItems c.params

/-- How much a response holds: its parameters and what is in its fault slot,
also where that is nil. -/
def Response.bulk (r : Response) : Nat := Value.bulkItems r.params + r.fault.bulk

/-- The deepest parameter, or the fault. -/
def Response.depth (r : Response) : Nat := max (Value.depthItems r.params) r.fault.depth

theorem Call.depth_le_bulk (c : Call) : c.depth ≤ c.bulk :=
  Nat.le_trans (Value.depthItems_le_bulk c.params) (Nat.le_add_left _ _)

theorem Response.depth_le_bulk (r : Response) : r.depth ≤ r.bulk := by
  have hparams := Value.depthItems_le_bulk r.params
  have hfault := r.fault.depth_le_bulk
  rw [depth, bulk]
  omega

namespace Document

open Markup (Token TokenReader cost cost_append cost_cons cost_nil)

/-! ## Texts -/

/-- The octets of a payload are no more than those of the text that stands for
them, which has four letters for every three. -/
theorem length_octets_le {text : String} {o : Octets} (h : octets text = .ok o) :
    o.length ≤ (Utf8.encodeString text).length :=
  Nat.le_trans (Base64.length_decode_le h) (List.filter_sublist.flatMap _).length_le

theorem bulk_scalar_le {tag : Tag} {text : String} {v : Value} (h : scalar tag text = .ok v) :
    v.bulk ≤ 1 + (Utf8.encodeString text).length := by
  have hone : 1 ≤ 1 + (Utf8.encodeString text).length := Nat.le_add_right 1 _
  unfold scalar at h
  split at h
  · cases h
    exact Nat.le_refl _
  · split at h <;> cases h
    exact hone
  · split at h <;> cases h
    exact hone
  · split at h <;> cases h
    exact hone
  · split at h <;> cases h
    exact hone
  · split at h <;> cases h
    rename_i ho
    exact Nat.add_le_add_left (length_octets_le ho) 1
  · cases h
    exact hone
  · cases h

theorem OptionalText.length_le {ts : List Token} {s : String} (h : OptionalText ts s) :
    (Utf8.encodeString s).length ≤ cost ts := by
  cases h with
  | none => exact Nat.zero_le _
  | text s => exact Nat.le_add_right_of_le (Nat.le_max_right _ _)

/-! ## Documents -/

@[simp] theorem cost_startOf (tag : Tag) : (startOf tag).cost = 1 := rfl

@[simp] theorem cost_endOf (tag : Tag) : (endOf tag).cost = 1 := rfl

@[simp] theorem cost_text (s : String) :
    (Token.text s).cost = max 1 (Utf8.encodeString s).length := rfl

mutual

theorem ValueForm.bulk_le {ts : List Token} {v : Value} : ValueForm ts v → v.bulk ≤ cost ts
  | .nil => Nat.le_succ 1
  | .text s => by
      simp only [Value.bulk, cost_cons, cost_nil, cost_startOf, cost_endOf, cost_text]
      omega
  | .typed _ htyped _ => by
      have hbulk := htyped.bulk_le
      simp only [cost_cons, cost_append, cost_nil, cost_startOf, cost_endOf]
      omega

theorem TypedForm.bulk_le {ts : List Token} {v : Value} : TypedForm ts v → v.bulk ≤ cost ts
  | .scalar _ htext hscalar => by
      have hbulk := bulk_scalar_le hscalar
      have hlength := htext.length_le
      simp only [cost_cons, cost_append, cost_nil, cost_startOf, cost_endOf]
      omega
  | .array _ hitems _ _ => by
      have hbulk := hitems.bulk_le
      simp only [Value.bulk, cost_cons, cost_append, cost_nil, cost_startOf, cost_endOf]
      omega
  | .struct hmembers _ => by
      have hbulk := hmembers.bulk_le
      simp only [Value.bulk, cost_cons, cost_append, cost_nil, cost_startOf, cost_endOf]
      omega

theorem ItemsForm.bulk_le {ts : List Token} {vs : List Value} :
    ItemsForm ts vs → Value.bulkItems vs ≤ cost ts
  | .nil => Nat.le_refl 0
  | .cons _ hv hvs => by
      have hfirst := hv.bulk_le
      have hrest := hvs.bulk_le
      simp only [Value.bulkItems, cost_append]
      omega

theorem MembersForm.bulk_le {ts : List Token} {ms : List Member} :
    MembersForm ts ms → Value.bulkMembers ms ≤ cost ts
  | .nil => Nat.le_refl 0
  | .cons _ _ _ hv _ hms => by
      have hfirst := hv.bulk_le
      have hrest := hms.bulk_le
      simp only [Value.bulkMembers, cost_append, cost_cons, cost_startOf, cost_endOf, cost_text]
      omega

end

theorem ParamListForm.bulk_le {ts : List Token} {vs : Params} (h : ParamListForm ts vs) :
    Value.bulkItems vs ≤ cost ts := by
  induction h with
  | nil => exact Nat.le_refl 0
  | cons _ _ hv _ _ ih =>
      have hfirst := hv.bulk_le
      simp only [Value.bulkItems, cost_append, cost_cons, cost_startOf, cost_endOf]
      omega

theorem ParamsForm.bulk_le {ts : List Token} {vs : Params} (h : ParamsForm ts vs) :
    Value.bulkItems vs ≤ cost ts := by
  cases h with
  | mk hlist _ =>
      have hbulk := hlist.bulk_le
      simp only [cost_append, cost_cons, cost_nil, cost_startOf, cost_endOf]
      omega

theorem OptionalParams.bulk_le {ts : List Token} {vs : Params} (h : OptionalParams ts vs) :
    Value.bulkItems vs ≤ cost ts := by
  cases h with
  | none => exact Nat.le_refl 0
  | params _ hparams =>
      have hbulk := hparams.bulk_le
      rw [cost_append]
      omega

theorem CallForm.bulk_le {ts : List Token} {c : Call} (h : CallForm ts c) : c.bulk ≤ cost ts := by
  cases h with
  | mk _ hmethod hparams _ =>
      have hname := hmethod.length_le
      have hbulk := hparams.bulk_le
      simp only [Call.bulk, cost_append, cost_cons, cost_nil, cost_startOf, cost_endOf]
      omega

/-- The tags of a response pay for the nil that is in the fault slot of one with
parameters. -/
theorem ResponseForm.bulk_le {ts : List Token} {a : Response} (h : ResponseForm ts a) :
    a.bulk ≤ cost ts := by
  cases h with
  | params _ hparams _ =>
      have hbulk := hparams.bulk_le
      simp only [Response.bulk, Value.bulk, cost_append, cost_cons, cost_nil, cost_startOf,
        cost_endOf]
      omega
  | fault _ _ hv _ _ _ =>
      have hbulk := hv.bulk_le
      simp only [Response.bulk, Value.bulkItems, cost_append, cost_cons, cost_nil, cost_startOf,
        cost_endOf]
      omega

/-! ## Sources -/

theorem cost_le_length {α : Type} {Root : List Token → α → Prop} {bulk : α → Nat} {s : Source}
    {a : α}
    (h : ∃ ts, ts <+: (TokenReader.ofSource s).tokens.1 ∧ DocumentForm Root ts a)
    (hroot : ∀ {ts a}, Root ts a → bulk a ≤ cost ts) : bulk a ≤ s.octets.length := by
  obtain ⟨_, ⟨rest, hrest⟩, hdocument⟩ := h
  have hall := Markup.cost_tokens_ofSource s
  cases hdocument with
  | mk _ hform =>
      have hbulk := hroot hform
      rw [← hrest, cost_append, cost_append] at hall
      omega

/-- What is read from a source of `n` octets holds no more than `n` values and
octets of texts, names and payloads together, and no more than `n` values stand
in one another. -/
theorem bulk_le_length (s : Source) :
    (∀ v, Value.ofSource s = .ok v → v.bulk ≤ s.octets.length ∧ v.depth ≤ s.octets.length) ∧
    (∀ c, Call.ofSource s = .ok c → c.bulk ≤ s.octets.length ∧ c.depth ≤ s.octets.length) ∧
    ∀ r, Response.ofSource s = .ok r → r.bulk ≤ s.octets.length ∧ r.depth ≤ s.octets.length := by
  refine ⟨?_, ?_, ?_⟩
  · intro v h
    have hbulk := cost_le_length (value_iff.mp h) ValueForm.bulk_le
    exact ⟨hbulk, Nat.le_trans v.depth_le_bulk hbulk⟩
  · intro c h
    have hbulk := cost_le_length (call_iff.mp h) CallForm.bulk_le
    exact ⟨hbulk, Nat.le_trans c.depth_le_bulk hbulk⟩
  · intro r h
    have hbulk := cost_le_length (response_iff.mp h) ResponseForm.bulk_le
    exact ⟨hbulk, Nat.le_trans r.depth_le_bulk hbulk⟩

/-- A call with a reference, a section and a payload: four values and six
octets besides, in a source of many more. -/
theorem bulk_le_length_mixed :
    let source := Source.ofOctets (Utf8.encode ("<?xml?><methodCall>".toList ++
      "<methodName>f</methodName><params><param><value><array><data>".toList ++
      "<value>&#x20AC;<![CDATA[<]]></value><value><base64>Q Q==</base64></value><value/>".toList ++
      "</data></array></value></param></params></methodCall>".toList))
    let c : Call := ⟨"f", [.array [.string "€<", .base64 [0x41], .nil]]⟩
    Call.ofSource source = .ok c ∧ c.bulk = 10 ∧ c.depth = 2 ∧
      c.bulk ≤ source.octets.length ∧ c.depth ≤ source.octets.length := by
  intro source c
  let items : List Token :=
    [startOf .value, .text "€<", endOf .value,
      startOf .value, startOf .base64, .text "Q Q==", endOf .base64, endOf .value,
      startOf .value, endOf .value]
  let tokens : List Token := .declaration :: startOf .methodCall ::
    startOf .methodName :: .text "f" :: endOf .methodName ::
    startOf .params :: startOf .param :: startOf .value :: startOf .array :: startOf .data ::
      (items ++ [endOf .data, endOf .array, endOf .value, endOf .param, endOf .params,
        endOf .methodCall])
  have hsource : (TokenReader.ofSource source).tokens = (tokens, none) := by decide +kernel
  have hpayload : scalar .base64 "Q Q==" = .ok (.base64 [0x41]) := rfl
  have hitems : ItemsForm items [.string "€<", .base64 [0x41], .nil] :=
    .cons .none (.text _) (.cons .none
      (.typed .none (.scalar (by decide) (.text _) hpayload) .none) (.cons .none .nil .nil))
  have hvalue := ValueForm.typed .none (.array .none hitems .none .none) .none
  have hcall := CallForm.mk .none (.text "f")
    (.params .none (.mk (.cons .none .none hvalue .none .nil) .none)) .none
  have hform : DocumentForm CallForm tokens c := .mk (.declared .none .none) hcall
  have hread : Call.ofSource source = .ok c :=
    call_iff.mpr ⟨tokens, hsource ▸ List.prefix_refl _, hform⟩
  exact ⟨hread, by decide +kernel, by decide +kernel, (bulk_le_length source).2.1 c hread⟩

end Document

end XmlRpc
