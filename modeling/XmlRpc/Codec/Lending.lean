/-
# Pools of codecs in use

A pool and the codecs on loan, each under the name of its holder:

    acquire   takes a codec; what the holder had goes back afterwards
    release   puts the holder's codec back
    use       does an operation with the holder's codec
    lend      does an operation with a codec that goes back at once
    abandon   takes a codec that goes back unused
    within    takes a codec that goes back when other things have been done,
              also where they are broken off
-/
import XmlRpc.Codec.Pool

namespace XmlRpc

open Native (Schema)

/-- A pool in use: the pool, and the codecs on loan by their holders' names. -/
structure Lending where
  pool : CodecPool
  loans : List (String × PooledCodec)

namespace Lending

inductive Request where
  | acquire (holder : String)
  | release (holder : String)
  | use (holder : String) (o : Operation)
  | lend (o : Operation)
  | abandon
  | within (holder : String) (body : List Request)

/-- How a request ends.  A holder without a codec can neither put one back nor
use it. -/
inductive Outcome where
  | done
  | noLoan
  | answered (a : Answer)
  | within (body : List Outcome)

def new (config : Config) : Lending := ⟨CodecPool.new config, []⟩

/-- The codec that a holder has. -/
def loan? (l : Lending) (holder : String) : Option PooledCodec :=
  (l.loans.find? (·.1 == holder)).map (·.2)

/-- Puts a holder's codec back, if there is one. -/
def settle (l : Lending) (holder : String) : Lending :=
  match l.loan? holder with
  | some c => ⟨l.pool.release c, l.loans.filter (·.1 != holder)⟩
  | none => l

/-- Takes a codec, and only then puts the holder's former one back. -/
def acquire (l : Lending) (holder : String) : Lending :=
  let (c, pool) := l.pool.acquire
  let l := settle { l with pool } holder
  { l with loans := (holder, c) :: l.loans }

/-- Does an operation with a holder's codec. -/
def use (Γ : Schema) (l : Lending) (holder : String) (o : Operation) : Outcome × Lending :=
  match l.loan? holder with
  | none => (.noLoan, l)
  | some c =>
    let (a, codec) := c.codec.run Γ o
    let loans := l.loans.map fun (h, d) => (h, if h = holder then { d with codec } else d)
    (.answered a, { l with loans })

/-- Does an operation with a codec that goes back at once. -/
def lend (Γ : Schema) (l : Lending) (o : Operation) : Answer × Lending :=
  let (a, pool) := l.pool.withCodec fun c p =>
    let (a, c) := c.run Γ o
    (a, c, p)
  (a, { l with pool })

mutual

def step (Γ : Schema) (l : Lending) : Request → Outcome × Lending
  | .acquire holder => (.done, l.acquire holder)
  | .release holder =>
      (if (l.loan? holder).isSome then .done else .noLoan, l.settle holder)
  | .use holder o => l.use Γ holder o
  | .lend o =>
      let (a, l) := l.lend Γ o
      (.answered a, l)
  | .abandon =>
      let ((), pool) := l.pool.withCodec fun c p => ((), c, p)
      (.done, { l with pool })
  | .within holder body =>
      let (outcomes, l) := run Γ (l.acquire holder) body
      (.within outcomes, l.settle holder)
termination_by structural r => r

def run (Γ : Schema) (l : Lending) : List Request → List Outcome × Lending
  | [] => ([], l)
  | r :: rs =>
      let (o, l) := step Γ l r
      let (os, l) := run Γ l rs
      (o :: os, l)
termination_by structural rs => rs

end

end Lending

end XmlRpc
