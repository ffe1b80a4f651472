/-
# Dates in documents

Figures of a year, a month, a day, an hour, a minute and a second that are a day
and a time are read, in each of the four texts that a layout has for them, as
exactly that day and that time, with the offset that the text shows.  Figures
that are not are read in none of them, and a document that holds such a text
denotes the epoch.
-/
import XmlRpc.Proofs.Calendar.Validity
import XmlRpc.Proofs.Document.Scalars

namespace XmlRpc

namespace Document

open Calendar (Figures Offset Layout)

variable {source : Source} {cs : List Char}

theorem ofSource_of_read?_eq_none (h : Calendar.read? cs = none)
    (hs : HoldsScalar source .dateTime (String.ofList cs)) :
    Value.ofSource source = .ok (.dateTime .epoch) := by
  have hmoment : moment (String.ofList cs) = .epoch := by
    rw [moment, String.toList_ofList, h]
  rw [ofSource_of_holdsScalar (by decide) hs, scalar, hmoment]

/-- Figures with two digits each, and four of a year, are read as what they say
if they are a day and a time, and in no layout otherwise. -/
theorem figures_read (f : Figures) (o : Offset) :
    (f.Valid → ∃ (date : Date) (time : Time), f.Say date time ∧
      Calendar.read? f.compact = some (.compact, .utc date time) ∧
      Calendar.read? (f.stamp 'T' []) = some (.hyphenatedLocal, .utc date time) ∧
      Calendar.read? (f.stamp 'T' ['Z']) = some (.rfc3339, .utc date time) ∧
      Calendar.read? (f.stamp 'T' o.text)
        = some (.rfc3339, ⟨date, time, o.seconds, o.seconds_ok⟩)) ∧
    (¬ f.Valid →
      ∀ cs ∈ [f.compact, f.stamp 'T' [], f.stamp 'T' ['Z'], f.stamp 'T' o.text],
        (∀ l : Layout, l.read? cs = none) ∧
        ∀ source, HoldsScalar source .dateTime (String.ofList cs) →
          Value.ofSource source = .ok (.dateTime .epoch)) := by
  constructor
  · intro h
    obtain ⟨date, time, hsay⟩ := h.say
    have hutc : f.moment? 0 0 = some (.utc date time) := Figures.moment?_of_say hsay (by decide)
    have hoffset := Figures.moment?_of_say hsay o.seconds_ok
    refine ⟨date, time, hsay, ?_, ?_, ?_, ?_⟩
    · rw [Calendar.read?_compact, hutc]
      rfl
    · rw [Calendar.read?_stamp, hutc]
      rfl
    · rw [Calendar.read?_stamp_utc, hutc]
      rfl
    · rw [Calendar.read?_stamp_offset, hoffset]
      rfl
  · intro h
    have hnone := Figures.moment?_of_not_valid h
    have hread : ∀ cs ∈ [f.compact, f.stamp 'T' [], f.stamp 'T' ['Z'], f.stamp 'T' o.text],
        Calendar.read? cs = none := by
      simp [Calendar.read?_compact, Calendar.read?_stamp, Calendar.read?_stamp_utc,
        Calendar.read?_stamp_offset, hnone]
    intro cs hcs
    refine ⟨Calendar.read?_eq_none_iff.mp (hread cs hcs), ?_⟩
    intro source
    exact ofSource_of_read?_eq_none (hread cs hcs)

/-- The leap second of a 29 February, on a clock behind UTC by almost a day; and
the year 1900, which has no such day. -/
theorem figures_read_leap :
    let leap : Figures := ⟨2000, 2, 29, 23, 59, 60, by decide, by decide, by decide, by decide,
      by decide, by decide⟩
    let common : Figures := { leap with year := 1900, year_ok := by decide }
    let o : Offset := ⟨'-', 23, 59, .inr (.inl rfl), by decide, by decide⟩
    leap.stamp 'T' o.text = "2000-02-29T23:59:60-23:59".toList ∧
    (∃ (date : Date) (time : Time), time.second = 59 ∧ time.nanosecond = 1000000000 ∧
      Calendar.read? (leap.stamp 'T' o.text)
        = some (.rfc3339, ⟨date, time, o.seconds, o.seconds_ok⟩)) ∧
    Value.ofSource (.ofOctets (render [.element .value [.text .dateTime common.compact]]))
      = .ok (.dateTime .epoch) := by
  intro leap common o
  refine ⟨by decide, ?_, ?_⟩
  · obtain ⟨date, time, hsay, -, -, -, hread⟩ := (figures_read leap o).1 (by decide)
    have hsecond := hsay.second
    rw [if_pos rfl] at hsecond
    exact ⟨date, time, hsecond.1, hsecond.2, hread⟩
  · have hholds := holdsScalar_render .dateTime (String.ofList common.compact)
    rw [String.toList_ofList] at hholds
    exact ((figures_read common o).2 (by decide) _ List.mem_cons_self).2 _ hholds

end Document

end XmlRpc
