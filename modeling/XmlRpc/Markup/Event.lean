/-
# Events of markup

A scanner takes a document apart into events.  What begins at an octet is
decided there:

    <?  …  ?>                    instruction
    <!--  …  -->                 comment
    <![CDATA[  …  ]]>            cdata
    <!DOCTYPE  …  >              doctype, `<` and `>` inside it balanced
    </  …  >                     end tag; blanks after the name do not count
    <  …  >                      start tag; the name ends at the first blank
    <  …  />                     start tag and end tag, or one empty element
    &  …  ;                      reference
    all up to the next < or &    text

The `>` of a tag stands outside quotes.  An end tag closes the innermost open
element, also one of another name, which is a problem.  A byte order mark is
dropped at the very beginning.

Whether an empty element is expanded into two tags is a setting of the scanner,
which stays what it is.  The scanner of a source expands (`ofSource`).

The octets of an event are put into a buffer, which it is read from
(`nextInto`); in an empty buffer nothing else stands (`nextInto_clear`).

`size` counts what is left to scan; `next_size_lt` says that every event
makes it smaller.
-/
import XmlRpc.Buffer
import XmlRpc.Markup.Source
import XmlRpc.Text.Blank

namespace XmlRpc

namespace Markup

inductive Event where
  | text (o : Octets)
  | cdata (o : Octets)
  | reference (o : Octets)
  | startTag (name : Octets)
  | endTag (name : Octets)
  | emptyTag (name : Octets)
  | instruction
  | comment
  | doctype
  | endOfInput
  deriving DecidableEq

/-- Where a scanner stands: at the beginning, between events, between the two
events of an empty element, or at the end. -/
inductive Place where
  | start
  | content
  | selfClosed (name : Octets)
  | finished
  deriving DecidableEq

/-- A document in part scanned: where the scanner stands, what is left, the
names of the open elements, the innermost first, and whether empty elements are
expanded. -/
structure Scanner where
  place : Place
  rest : Octets
  ending : Ending
  openNames : List Octets
  expandsEmpty : Bool

/-- What one step of a scanner gives: an event or a problem, and the scanner
that goes on. -/
abbrev Scanned := Except Problem Event × Scanner

/-! ## Cutting -/

/-- Cuts a list at the first place where a pattern begins: what is before
the pattern, and what is behind it. -/
def cut (pattern : Octets) : Octets → Option (Octets × Octets)
  | [] => none
  | b :: r =>
    if pattern.isPrefixOf (b :: r) then some ([], (b :: r).drop pattern.length)
    else (cut pattern r).map fun (before, after) => (b :: before, after)

/-- Whether an octet stands inside a quoted text, and in which quotes. -/
inductive Quote where
  | outside
  | single
  | double
  deriving DecidableEq

/-- Where the octet after `b` stands. -/
def Quote.after (b : UInt8) : Quote → Quote
  | .outside => if b = 0x27 then .single else if b = 0x22 then .double else .outside
  | .single => if b = 0x27 then .outside else .single
  | .double => if b = 0x22 then .outside else .double

/-- Cuts at the first `>` outside quotes. -/
def cutTag (q : Quote) : Octets → Option (Octets × Octets)
  | [] => none
  | b :: r =>
    if q = .outside ∧ b = 0x3E then some ([], r)
    else (cutTag (q.after b) r).map fun (before, after) => (b :: before, after)

/-- Cuts at the `>` that balances the one before the list; `depth` counts the
`<` still without a `>`. -/
def cutBalanced (depth : Nat) : Octets → Option (Octets × Octets)
  | [] => none
  | b :: r =>
    if b = 0x3E ∧ depth = 0 then some ([], r)
    else
      let depth := if b = 0x3C then depth + 1 else if b = 0x3E then depth - 1 else depth
      (cutBalanced depth r).map fun (before, after) => (b :: before, after)

theorem length_cut {pattern o before after : Octets}
    (h : cut pattern o = some (before, after)) :
    before.length + after.length ≤ o.length := by
  induction o generalizing before after with
  | nil => simp [cut] at h
  | cons b r ih =>
    simp only [cut] at h
    split at h
    · simp only [Option.some.injEq, Prod.mk.injEq] at h
      obtain ⟨rfl, rfl⟩ := h
      simp only [List.length_nil, List.length_drop]
      omega
    · simp only [Option.map_eq_some_iff, Prod.exists, Prod.mk.injEq] at h
      obtain ⟨x, y, hxy, rfl, rfl⟩ := h
      have := ih hxy
      simp only [List.length_cons]
      omega

theorem length_cutTag {q : Quote} {o before after : Octets}
    (h : cutTag q o = some (before, after)) :
    before.length + after.length + 1 = o.length := by
  induction o generalizing q before after with
  | nil => simp [cutTag] at h
  | cons b r ih =>
    simp only [cutTag] at h
    split at h
    · simp only [Option.some.injEq, Prod.mk.injEq] at h
      obtain ⟨rfl, rfl⟩ := h
      simp
    · simp only [Option.map_eq_some_iff, Prod.exists, Prod.mk.injEq] at h
      obtain ⟨x, y, hxy, rfl, rfl⟩ := h
      have := ih hxy
      simp only [List.length_cons]
      omega

theorem length_cutBalanced {depth : Nat} {o before after : Octets}
    (h : cutBalanced depth o = some (before, after)) :
    before.length + after.length + 1 = o.length := by
  induction o generalizing depth before after with
  | nil => simp [cutBalanced] at h
  | cons b r ih =>
    simp only [cutBalanced] at h
    split at h
    · simp only [Option.some.injEq, Prod.mk.injEq] at h
      obtain ⟨rfl, rfl⟩ := h
      simp
    · simp only [Option.map_eq_some_iff, Prod.exists, Prod.mk.injEq] at h
      obtain ⟨x, y, hxy, rfl, rfl⟩ := h
      have := ih hxy
      simp only [List.length_cons]
      omega

/-! ## Names -/

/-- The name at the beginning of a tag: all up to the first blank. -/
def tagName (o : Octets) : Octets := o.takeWhile (!Blank.isXml ·)

/-- The name of an end tag: all but the blanks at its end.  Blanks alone are
a name too. -/
def endName (o : Octets) : Octets :=
  match (o.reverse.dropWhile Blank.isXml).reverse with
  | [] => o
  | name => name

/-- The part of a name behind its first colon; the whole name if it has
none. -/
def localName (o : Octets) : Octets :=
  match o.dropWhile (· != 0x3A) with
  | [] => o
  | _ :: r => r

/-- A name for a message; nothing where it is not UTF-8. -/
def shownName (o : Octets) : String := String.ofList (Utf8.decodeOrEmpty o)

namespace Scanner

def ofSource (s : Source) : Scanner := ⟨.start, s.octets, s.ending, [], true⟩

/-! ## Steps -/

/-- Goes on between events, with `rest` left. -/
def goOn (s : Scanner) (rest : Octets) : Scanner := { s with place := .content, rest }

/-- Stops for good. -/
def finish (s : Scanner) : Scanner := { s with place := .finished, rest := [] }

/-- The octets end inside a piece of markup: a problem of the stream if that
broke, and otherwise of the markup. -/
def unfinished (s : Scanner) (p : Problem) : Scanned :=
  match s.ending with
  | .endOfInput => (.error p, s.finish)
  | .broken message => (.error (.stream message), s.finish)

def startTag (s : Scanner) (content after : Octets) : Scanned :=
  if content.getLast? = some 0x2F then
    let name := tagName content.dropLast
    if s.expandsEmpty then
      (.ok (.startTag name), { s with place := .selfClosed name, rest := after })
    else (.ok (.emptyTag name), s.goOn after)
  else
    let name := tagName content
    (.ok (.startTag name),
      { s with place := .content, rest := after, openNames := name :: s.openNames })

def endTag (s : Scanner) (content after : Octets) : Scanned :=
  let name := endName content
  match s.openNames with
  | [] => (.error (.unmatchedEnd (shownName name)), s.goOn after)
  | opened :: names =>
    let s := { s with openNames := names }
    if name = opened then (.ok (.endTag name), s.goOn after)
    else (.error (.mismatchedEnd (shownName opened) (shownName name)), s.goOn after)

/-- What begins with `<!`. -/
def bang (s : Scanner) (r : Octets) : Scanned :=
  match r with
  | [] => s.unfinished .unknownMarkup
  | b :: _ =>
    if b = 0x5B then
      match cut [0x5D, 0x5D, 0x3E] r with
      | none => s.unfinished .unclosedCdata
      | some (before, after) =>
        if [0x5B, 0x43, 0x44, 0x41, 0x54, 0x41, 0x5B].isPrefixOf before then
          (.ok (.cdata (before.drop 7)), s.goOn after)
        else (.error .unclosedCdata, s.finish)
    else if b = 0x2D then
      match cut [0x2D, 0x2D, 0x3E] (r.drop 2) with
      | none => s.unfinished .unclosedComment
      | some (_, after) =>
        if [0x2D, 0x2D].isPrefixOf r then (.ok .comment, s.goOn after)
        else (.error .unclosedComment, s.finish)
    else if b = 0x44 ∨ b = 0x64 then
      match cutBalanced 0 r with
      | none => s.unfinished .unclosedDoctype
      | some (before, after) =>
        let upper := (before.take 7).map fun c => if 0x61 ≤ c ∧ c ≤ 0x7A then c - 0x20 else c
        if upper = [0x44, 0x4F, 0x43, 0x54, 0x59, 0x50, 0x45] then
          if (before.drop 7).all Blank.isXml then (.error .namelessDoctype, s.goOn after)
          else (.ok .doctype, s.goOn after)
        else (.error .unclosedDoctype, s.finish)
    else (.error .unknownMarkup, s.finish)

/-- What begins with `<`. -/
def markup (s : Scanner) (r : Octets) : Scanned :=
  match r with
  | [] => s.unfinished .unclosedTag
  | b :: r' =>
    if b = 0x21 then s.bang r'
    else if b = 0x2F then
      match cutTag .outside r' with
      | none => s.unfinished .unclosedTag
      | some (content, after) => s.endTag content after
    else if b = 0x3F then
      match cut [0x3F, 0x3E] r with
      | none => s.unfinished .unclosedInstruction
      | some (before, after) =>
        if before = [] then (.error .unclosedInstruction, s.finish)
        else (.ok .instruction, s.goOn after)
    else
      match cutTag .outside r with
      | none => s.unfinished .unclosedTag
      | some (content, after) => s.startTag content after

/-- What begins with `&`.  A reference that meets `<` or `&` before its `;`
is a problem, and reading goes on with that octet. -/
def reference (s : Scanner) (r : Octets) : Scanned :=
  match r.dropWhile fun b => b != 0x3B && b != 0x26 && b != 0x3C with
  | [] => s.unfinished .unclosedReference
  | b :: after =>
    if b = 0x3B then
      (.ok (.reference (r.takeWhile fun b => b != 0x3B && b != 0x26 && b != 0x3C)),
        s.goOn after)
    else (.error .unclosedReference, s.goOn (b :: after))

/-- A run of text, which needs the octet behind it or the end of the input.
The first octet belongs to it. -/
def text (s : Scanner) (first : UInt8) (r : Octets) : Scanned :=
  let run := first :: r.takeWhile fun b => b != 0x3C && b != 0x26
  match r.dropWhile fun b => b != 0x3C && b != 0x26 with
  | [] =>
    match s.ending with
    | .endOfInput => (.ok (.text run), s.finish)
    | .broken message => (.error (.stream message), s.finish)
  | after => (.ok (.text run), s.goOn after)

/-- The next event between events. -/
def content (s : Scanner) (rest : Octets) : Scanned :=
  match rest with
  | [] =>
    match s.ending with
    | .endOfInput => (.ok .endOfInput, s.finish)
    | .broken message => (.error (.stream message), s.finish)
  | b :: r =>
    if b = 0x3C then s.markup r
    else if b = 0x26 then s.reference r
    else s.text b r

/-- Octets without a byte order mark. -/
def dropMark : Octets → Octets
  | 0xEF :: 0xBB :: 0xBF :: r => r
  | r => r

/-- The next event.  A stream that breaks before its first octet has not
begun, and every further read meets the same failure. -/
def next (s : Scanner) : Scanned :=
  match s.place with
  | .finished => (.ok .endOfInput, s)
  | .selfClosed name => (.ok (.endTag name), { s with place := .content })
  | .content => s.content s.rest
  | .start =>
    match s.rest, s.ending with
    | [], .broken message => (.error (.stream message), s)
    | _, _ => s.content (dropMark s.rest)

/-! ## Events in a buffer -/

end Scanner

def Event.octets : Event → Octets
  | .text o | .cdata o | .reference o | .startTag o | .endTag o | .emptyTag o => o
  | .instruction | .comment | .doctype | .endOfInput => []

/-- The event of the same sort that carries those octets. -/
def Event.carrying (o : Octets) : Event → Event
  | .text _ => .text o
  | .cdata _ => .cdata o
  | .reference _ => .reference o
  | .startTag _ => .startTag o
  | .endTag _ => .endTag o
  | .emptyTag _ => .emptyTag o
  | e => e

theorem Event.carrying_octets (e : Event) : e.carrying e.octets = e := by
  cases e <;> rfl

namespace Scanner

/-- The next event.  Its octets are added to a buffer, and it is read from
there.  An event that cannot be read leaves what there was of it. -/
def nextInto (s : Scanner) (b : Buffer) : Scanned × Buffer :=
  match s.next with
  | (.error p, s') =>
    ((.error p, s'), b.append 0 (s.rest.take (s.rest.length - s'.rest.length)))
  | (.ok e, s') =>
    let b := b.append 0 e.octets
    ((.ok (e.carrying b.content), s'), b)

/-- What is read from a buffer that was empty is the event itself. -/
theorem nextInto_clear (s : Scanner) (b : Buffer) : (s.nextInto b.clear).1 = s.next := by
  unfold nextInto
  match s.next with
  | (.error p, s') => rfl
  | (.ok e, s') =>
      show (Except.ok (e.carrying ([] ++ e.octets)), s') = _
      rw [List.nil_append, e.carrying_octets]

/-! ## Progress -/

/-- How much is left to scan. -/
def size (s : Scanner) : Nat :=
  2 * s.rest.length +
    match s.place with
    | .start => 1
    | .content => 1
    | .selfClosed _ => 2
    | .finished => 0

@[simp] theorem size_goOn (s : Scanner) (rest : Octets) :
    (s.goOn rest).size = 2 * rest.length + 1 := rfl

@[simp] theorem size_finish (s : Scanner) : s.finish.size = 0 := rfl

theorem size_unfinished (s : Scanner) (p : Problem) : (s.unfinished p).2.size = 0 := by
  unfold unfinished
  split <;> rfl

theorem size_startTag (s : Scanner) (content after : Octets) :
    (s.startTag content after).2.size ≤ 2 * after.length + 2 := by
  unfold startTag
  split
  · dsimp only
    split <;> simp [size, goOn]
  · simp [size]

theorem size_endTag (s : Scanner) (content after : Octets) :
    (s.endTag content after).2.size = 2 * after.length + 1 := by
  unfold endTag
  split
  · rfl
  · dsimp only
    split <;> rfl

theorem size_bang (s : Scanner) (r : Octets) : (s.bang r).2.size ≤ 2 * r.length + 1 := by
  unfold bang
  split
  · simp [size_unfinished]
  · split
    · split
      · simp [size_unfinished]
      · rename_i h
        have := length_cut h
        split <;> simp only [size_goOn, size_finish] <;> omega
    · split
      · split
        · simp [size_unfinished]
        · rename_i h
          have := length_cut h
          rw [List.length_drop] at this
          split <;> simp only [size_goOn, size_finish] <;> omega
      · split
        · split
          · simp [size_unfinished]
          · rename_i h
            have := length_cutBalanced h
            dsimp only
            split
            · split <;> simp only [size_goOn] <;> omega
            · simp only [size_finish]; omega
        · simp only [size_finish]; omega

theorem size_markup (s : Scanner) (r : Octets) : (s.markup r).2.size ≤ 2 * r.length + 1 := by
  unfold markup
  split
  · simp [size_unfinished]
  · rename_i b r'
    split
    · have := size_bang s r'
      simp only [List.length_cons]; omega
    · split
      · split
        · simp [size_unfinished]
        · rename_i content after h
          have := length_cutTag h
          rw [size_endTag]
          simp only [List.length_cons]; omega
      · split
        · split
          · simp [size_unfinished]
          · rename_i h
            have := length_cut h
            split <;> simp only [size_goOn, size_finish] <;> omega
        · split
          · simp [size_unfinished]
          · rename_i content after h
            have := length_cutTag h
            have := size_startTag s content after
            omega

theorem length_dropWhile_le (p : UInt8 → Bool) (o : Octets) :
    (o.dropWhile p).length ≤ o.length :=
  (List.dropWhile_sublist p).length_le

theorem size_reference (s : Scanner) (r : Octets) :
    (s.reference r).2.size ≤ 2 * r.length + 1 := by
  unfold reference
  split
  · simp [size_unfinished]
  · rename_i b after h
    have := length_dropWhile_le (fun b => b != 0x3B && b != 0x26 && b != 0x3C) r
    rw [h] at this
    simp only [List.length_cons] at this
    split <;> simp only [size_goOn, List.length_cons] <;> omega

theorem size_text (s : Scanner) (b : UInt8) (r : Octets) :
    (s.text b r).2.size ≤ 2 * r.length + 1 := by
  unfold text
  dsimp only
  split
  · split <;> simp only [size_finish] <;> omega
  · have := length_dropWhile_le (fun b => b != 0x3C && b != 0x26) r
    simp only [size_goOn]; omega

theorem size_content (s : Scanner) (b : UInt8) (r : Octets) :
    (s.content (b :: r)).2.size ≤ 2 * r.length + 1 := by
  unfold content
  split
  · simp_all
  · rename_i h
    obtain ⟨rfl, rfl⟩ := List.cons.inj h
    split
    · exact size_markup s _
    · split
      · exact size_reference s _
      · exact size_text s _ _

theorem length_dropMark (o : Octets) : (dropMark o).length ≤ o.length := by
  unfold dropMark
  split
  · simp only [List.length_cons]; omega
  · exact Nat.le_refl _

theorem size_content_le (s : Scanner) (o : Octets) :
    (s.content o).2.size ≤ 2 * o.length := by
  cases o with
  | nil =>
    unfold content
    dsimp only
    split <;> simp
  | cons b r =>
    have := size_content s b r
    simp only [List.length_cons]; omega

theorem next_size_le (s : Scanner) : s.next.2.size ≤ s.size := by
  cases hp : s.place with
  | finished => simp only [next, hp]; exact Nat.le_refl _
  | selfClosed name => simp only [next, size, hp]; omega
  | content =>
    have := size_content_le s s.rest
    have hs : s.size = 2 * s.rest.length + 1 := by simp only [size, hp]
    simp only [next, hp]
    omega
  | start =>
    have := size_content_le s (dropMark s.rest)
    have := length_dropMark s.rest
    have hs : s.size = 2 * s.rest.length + 1 := by simp only [size, hp]
    simp only [next, hp]
    split
    · exact Nat.le_refl _
    · omega

theorem next_size_lt {s : Scanner} {e : Event} (h : s.next.1 = .ok e)
    (he : e ≠ .endOfInput) : s.next.2.size < s.size := by
  cases hp : s.place with
  | finished =>
    simp only [next, hp, Except.ok.injEq] at h
    exact absurd h.symm he
  | selfClosed name => simp only [next, size, hp]; omega
  | content =>
    have := size_content_le s s.rest
    have hs : s.size = 2 * s.rest.length + 1 := by simp only [size, hp]
    simp only [next, hp]
    omega
  | start =>
    have := size_content_le s (dropMark s.rest)
    have := length_dropMark s.rest
    have hs : s.size = 2 * s.rest.length + 1 := by simp only [size, hp]
    simp only [next, hp] at h ⊢
    split at h
    · cases h
    · omega

end Scanner

end Markup

end XmlRpc
