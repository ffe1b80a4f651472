/-
# Doubles read back

A double is written with six places and read as the double nearest to its text:

    from 2³³ on      itself
    below            one no farther from it than a millionth

Its sign is kept, that of zero too, and so is its text.  So what is received and
sent on is sent as the same octets again (`ofSource_double`).
-/
import XmlRpc.Proofs.Binary.Settling
import XmlRpc.Proofs.Document.Relay

namespace XmlRpc

namespace Document

open Binary (number)

/-- A finite double that is written is read back as a finite double of its sign, no
farther from it than a millionth, which is written as the same octets; and as itself,
if it is 2³³ at least. -/
theorem ofSource_double (s : Bool) (code : Fin Format.double.infinityCode) :
    ∃ back : Fin Format.double.infinityCode,
      let x : Double := .finite s code
      let y : Double := .finite s back
      scalar .double (String.ofList x.toText) = .ok (.double y) ∧
      Value.ofSource (.ofOctets (Value.document (.double x))) = .ok (.double y) ∧
      |number .double s back - number .double s code| ≤ 1 / 10 ^ 6 ∧
      y.toText = x.toText ∧
      Value.document (.double y) = Value.document (.double x) ∧
      (2 ^ 33 ≤ |number .double s code| → back = code) := by
  obtain ⟨back, hback, hoff, htext⟩ := Binary.reread_finite s code
  have hnamed : (Value.double (.finite s code)).Named := trivial
  have hscalar := scalar_double (.finite s code)
  have hread := ofSource_of_named hnamed
  have hdocument := document_reread (v := .double (.finite s code)) trivial
  rw [Value.reread, Value.replace, hback] at hread hdocument
  rw [hback] at hscalar
  refine ⟨back, hscalar, hread, ?_, htext, hdocument, ?_⟩
  · rw [Binary.abs_number_sub]
    have hplaces : ((Binary.placesScale : Nat) : ℚ) = 10 ^ 6 := Nat.cast_pow 10 6
    exact hplaces ▸ hoff
  · intro h
    rw [Binary.abs_number] at h
    cases hback.symm.trans (Binary.reread_of_le_magnitude s h)
    rfl

end Document

end XmlRpc
