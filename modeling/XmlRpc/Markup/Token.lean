/-
# Tokens

A lexer turns events into tokens: tags with their local names, texts with
their references resolved, and declarations.  A text is as long as it can be:
runs, CDATA sections and references that follow one another make one token.
Comments and document types are refused.

A token reader is a cursor on the tokens.  The token just read can be pushed
back, one at a time; `trim` moves over blank texts.

A problem loses the text gathered before it.  Whether reading can go on
behind it is the scanner's matter.
-/
import XmlRpc.Markup.Event
import XmlRpc.Text.Reference

namespace XmlRpc

namespace Markup

inductive Token where
  | startTag (name : String)
  | endTag (name : String)
  | text (s : String)
  | declaration
  deriving DecidableEq

def Token.isBlank : Token → Bool
  | .text s => Blank.isBlank s.toList
  | _ => false

/-! ## What events contribute -/

/-- What an event adds to the tokens: characters of a text, a token of its
own, or the end. -/
inductive Piece where
  | chars (cs : List Char)
  | token (t : Token)
  | stop

def decodeText (o : Octets) : Except Problem (List Char) :=
  match Utf8.decode o with
  | .ok cs => .ok cs
  | .error p => .error (.undecodable p)

/-- The local name in a tag. -/
def decodeName (o : Octets) : Except Problem String :=
  match Utf8.decode (localName o) with
  | .ok cs => .ok (String.ofList cs)
  | .error p => .error (.badName p)

def resolve (o : Octets) : Except Problem (List Char) := do
  let name ← decodeText o
  match Reference.resolve? name with
  | some c => return [c]
  | none => throw (.unknownReference (String.ofList name))

/-- What an event adds to the tokens.  Empty elements are expected to have been
expanded. -/
def Event.piece : Event → Except Problem Piece
  | .text o => (decodeText o).map .chars
  | .cdata o => (decodeText o).map .chars
  | .reference o => (resolve o).map .chars
  | .startTag o => (decodeName o).map fun name => .token (.startTag name)
  | .endTag o => (decodeName o).map fun name => .token (.endTag name)
  | .emptyTag o => .error (.unexpectedEmpty (String.ofList (Utf8.decodeLossy (localName o))))
  | .instruction => .ok (.token .declaration)
  | .comment => .error .forbiddenMarkup
  | .doctype => .error .forbiddenMarkup
  | .endOfInput => .ok .stop

theorem Event.ne_endOfInput_of_chars {e : Event} {cs : List Char}
    (h : e.piece = .ok (.chars cs)) : e ≠ .endOfInput := by
  rintro rfl
  cases h

theorem Event.ne_endOfInput_of_token {e : Event} {t : Token}
    (h : e.piece = .ok (.token t)) : e ≠ .endOfInput := by
  rintro rfl
  cases h

/-! ## The lexer -/

/-- A scanner, the token whose markup ended the last text, and the buffer that
events are read from. -/
structure Lexer where
  scanner : Scanner
  pending : Option Token
  scratch : Buffer

/-- What reading gives: a token, or none at the end of the input, or a
problem. -/
abbrev Delivery := Except Problem (Option Token)

namespace Lexer

/-- The lexer at the beginning of a source, with a buffer that it may use. -/
def withBuffer (s : Source) (b : Buffer) : Lexer := ⟨Scanner.ofSource s, none, b.clear⟩

/-- Scans on to the next token.  `acc` holds the text gathered so far, if a
text has begun; the token that ends it is kept for the next time. -/
def gather (acc : Option (List Char)) (s : Scanner) (b : Buffer) : Delivery × Lexer :=
  match h : s.nextInto b.clear with
  | ((.error p, s'), b') => (.error p, ⟨s', none, b'⟩)
  | ((.ok e, s'), b') =>
    match hp : e.piece with
    | .error p => (.error p, ⟨s', none, b'⟩)
    | .ok (.chars cs) =>
      have : s'.size < s.size := by
        have hn := (s.nextInto_clear b).symm.trans (congrArg Prod.fst h)
        have hlt := s.next_size_lt (congrArg Prod.fst hn) (Event.ne_endOfInput_of_chars hp)
        rwa [hn] at hlt
      gather (some (acc.getD [] ++ cs)) s' b'
    | .ok (.token t) =>
      match acc with
      | none => (.ok (some t), ⟨s', none, b'⟩)
      | some cs => (.ok (some (.text (String.ofList cs))), ⟨s', some t, b'⟩)
    | .ok .stop =>
      match acc with
      | none => (.ok none, ⟨s', none, b'⟩)
      | some cs => (.ok (some (.text (String.ofList cs))), ⟨s', none, b'⟩)
termination_by s.size

def next (l : Lexer) : Delivery × Lexer :=
  match l.pending with
  | some t => (.ok (some t), { l with pending := none })
  | none => gather none l.scanner l.scratch

def size (l : Lexer) : Nat := l.scanner.size + l.pending.toList.length

theorem gather_size (acc : Option (List Char)) (s : Scanner) (b : Buffer) (t : Token)
    (h : (gather acc s b).1 = .ok (some t)) :
    (gather acc s b).2.size + 1 ≤ s.size + acc.toList.length := by
  fun_induction gather acc s b with
  | case1 => cases h
  | case2 => cases h
  | case3 acc s b e s' b' hn cs hp hlt ih =>
    have := ih h
    simp only [Option.toList_some, List.length_cons, List.length_nil] at this
    omega
  | case4 s b e s' b' hn t' hp =>
    have hn := (s.nextInto_clear b).symm.trans (congrArg Prod.fst hn)
    have hlt := s.next_size_lt (congrArg Prod.fst hn) (Event.ne_endOfInput_of_token hp)
    rw [hn] at hlt
    dsimp only at hlt
    simp only [size, Option.toList_none, List.length_nil]
    omega
  | case5 s b e s' b' hn t' hp cs =>
    have hn := (s.nextInto_clear b).symm.trans (congrArg Prod.fst hn)
    have hlt := s.next_size_lt (congrArg Prod.fst hn) (Event.ne_endOfInput_of_token hp)
    rw [hn] at hlt
    dsimp only at hlt
    simp only [size, Option.toList_some, List.length_cons, List.length_nil]
    omega
  | case6 => cases h
  | case7 s b e s' b' hn hp cs =>
    have hn := (s.nextInto_clear b).symm.trans (congrArg Prod.fst hn)
    have hle := s.next_size_le
    rw [hn] at hle
    dsimp only at hle
    simp only [size, Option.toList_some, Option.toList_none, List.length_cons, List.length_nil]
    omega

theorem next_size_lt {l : Lexer} {t : Token} (h : l.next.1 = .ok (some t)) :
    l.next.2.size < l.size := by
  unfold next at h ⊢
  split at h
  · rename_i hp
    simp [size, hp]
  · rename_i hp
    have := gather_size none l.scanner l.scratch t h
    simp only [size, hp, Option.toList_none, List.length_nil] at this ⊢
    omega

end Lexer

/-! ## The cursor -/

/-- A cursor on the tokens of a source, with room for one token pushed
back. -/
structure TokenReader where
  lexer : Lexer
  pushedBack : Option Token

namespace TokenReader

/-- The cursor before the first token of a source, with a buffer that it may
use. -/
def withBuffer (s : Source) (b : Buffer) : TokenReader := ⟨Lexer.withBuffer s b, none⟩

def ofSource (s : Source) : TokenReader := withBuffer s (.new 0)

def buffer (r : TokenReader) : Buffer := r.lexer.scratch

def read (r : TokenReader) : Delivery × TokenReader :=
  match r.pushedBack with
  | some t => (.ok (some t), { r with pushedBack := none })
  | none =>
    let (d, l) := r.lexer.next
    (d, ⟨l, none⟩)

/-- Pushes a token back, so that it is read next. -/
def unread (r : TokenReader) (t : Token) : Except Problem TokenReader :=
  match r.pushedBack with
  | some _ => .error .pushedBackTwice
  | none => .ok { r with pushedBack := some t }

def size (r : TokenReader) : Nat := r.lexer.size + r.pushedBack.toList.length

theorem read_size_lt {r : TokenReader} {t : Token} (h : r.read.1 = .ok (some t)) :
    r.read.2.size < r.size := by
  unfold read at h ⊢
  split at h
  · rename_i hp
    simp [size, hp]
  · rename_i hp
    have := Lexer.next_size_lt h
    simpa [size, hp] using this

def trim (r : TokenReader) : Except Problem Unit × TokenReader :=
  match h : r.read with
  | (.error p, r') => (.error p, r')
  | (.ok none, r') => (.ok (), r')
  | (.ok (some t), r') =>
    if t.isBlank then
      have : r'.size < r.size := by
        have hlt := read_size_lt (congrArg Prod.fst h)
        rwa [h] at hlt
      trim r'
    else
      match r'.unread t with
      | .ok r'' => (.ok (), r'')
      | .error p => (.error p, r')
termination_by r.size

/-- All tokens up to the end of the input or the first problem. -/
def tokens (r : TokenReader) : List Token × Option Problem :=
  match h : r.read with
  | (.error p, _) => ([], some p)
  | (.ok none, _) => ([], none)
  | (.ok (some t), r') =>
    have : r'.size < r.size := by
      have hlt := read_size_lt (congrArg Prod.fst h)
      rwa [h] at hlt
    let (ts, stop) := tokens r'
    (t :: ts, stop)
termination_by r.size

end TokenReader

end Markup

end XmlRpc
