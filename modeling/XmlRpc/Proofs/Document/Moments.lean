/-
# Moments read back

A moment is written as its clock shows it, and read as a moment of UTC.  So what
is read back is the instant that was written only where the clock showed UTC and
four digits hold the year (`ofSource_dateTime`):

    offset not 0       ahead or behind by the offset
    any other year     the epoch, since no layout fits the text
-/
import XmlRpc.Proofs.Calendar.Instant
import XmlRpc.Proofs.Document.RoundTrip

namespace XmlRpc

open Calendar (compactText)

namespace DateTime

variable {d : DateTime}

theorem reread_of_inFourDigits (h : d.InFourDigits) : d.reread = d.localAsUtc.asShown := by
  rw [reread, Document.moment, String.toList_ofList, Calendar.read?_compactText_local h]

theorem reread_of_not_inFourDigits (h : ¬ d.InFourDigits) : d.reread = .epoch := by
  rw [reread, Document.moment, String.toList_ofList, Calendar.read?_compactText_signed h]

theorem isCompact_reread (d : DateTime) : d.reread.IsCompact := by
  by_cases h : d.InFourDigits
  · rw [reread_of_inFourDigits h]
    exact ⟨rfl, h⟩
  · rw [reread_of_not_inFourDigits h]
    exact ⟨rfl, by decide, by decide⟩

theorem reread_reread (d : DateTime) : d.reread.reread = d.reread := by
  rw [Document.reread_of_isCompact d.isCompact_reread]
  by_cases h : d.InFourDigits
  · rw [reread_of_inFourDigits h, asShown_asShown]
  · rw [reread_of_not_inFourDigits h]
    rfl

theorem compactText_reread (h : d.InFourDigits) : compactText d.reread = compactText d := by
  rw [reread_of_inFourDigits h]
  exact Calendar.compactText_asShown d.localAsUtc

theorem sameInstant_reread_iff : d.reread.sameInstant d.asShown = true ↔ d.IsCompact := by
  by_cases h : d.InFourDigits
  · have hlocal : d.localAsUtc.asShown = d.asShown.localAsUtc := rfl
    rw [reread_of_inFourDigits h, hlocal, sameInstant_localAsUtc_iff]
    exact (and_iff_left h).symm
  · have hlost : epoch.sameInstant d.asShown = false :=
      sameInstant_epoch_of_not_inFourDigits h
    rw [reread_of_not_inFourDigits h, hlost]
    exact iff_of_false Bool.false_ne_true fun hd => h hd.2

end DateTime

namespace Document

/-- What is read back of a moment is what its clock showed, as a moment of UTC,
or the epoch where four digits do not hold the year. -/
theorem ofSource_dateTime (d : DateTime) :
    ∃ back, Value.ofSource (.ofOctets (Value.document (.dateTime d))) = .ok (.dateTime back) ∧
      (d.InFourDigits → back = d.localAsUtc.asShown) ∧
      (¬ d.InFourDigits → Calendar.read? (compactText d) = none ∧ back = .epoch) ∧
      (back.sameInstant d.asShown = true ↔ d.IsCompact) := by
  have hnamed : (Value.dateTime d).Named := trivial
  refine ⟨d.reread, ofSource_of_named hnamed, DateTime.reread_of_inFourDigits, ?_,
    DateTime.sameInstant_reread_iff⟩
  intro h
  exact ⟨Calendar.read?_compactText_signed h, DateTime.reread_of_not_inFourDigits h⟩

/-- Half past two on a clock ahead of UTC by two hours, received and sent on, is
half past two in UTC; the first day of the year 10000 is the epoch. -/
theorem ofSource_dateTime_shifted :
    let ahead := moment "2004-01-01T14:30:10+02:00"
    let far := moment "+10000-01-01T00:00:00"
    (∃ back, Value.ofSource (.ofOctets (Value.document (.dateTime ahead))) = .ok (.dateTime back) ∧
      back = moment "20040101T14:30:10" ∧ back.sameInstant ahead = false) ∧
    far ≠ .epoch ∧
    Value.ofSource (.ofOctets (Value.document (.dateTime far))) = .ok (.dateTime .epoch) := by
  intro ahead far
  refine ⟨?_, by decide, ?_⟩
  · obtain ⟨back, hread, hlocal, -⟩ := ofSource_dateTime ahead
    have hback := hlocal ⟨by decide, by decide⟩
    subst hback
    exact ⟨_, hread, by decide, by decide⟩
  · obtain ⟨back, hread, -, hepoch, -⟩ := ofSource_dateTime far
    obtain ⟨-, rfl⟩ := hepoch (fun h => absurd h.2 (by decide))
    exact hread

end Document

end XmlRpc
