import XmlRpc.Text.Blank
import XmlRpc.Text.Reference
import XmlRpc.Base64
import XmlRpc.Binary.Decimal
import XmlRpc.Calendar.Basic
import XmlRpc.Calendar.Layout
import XmlRpc.Buffer
import XmlRpc.Fault
import XmlRpc.Message
import XmlRpc.Markup.Event
import XmlRpc.Markup.Token
import XmlRpc.Document.Reader
import XmlRpc.Document.Sink
import XmlRpc.Document.Writer
import XmlRpc.Native.Basic
import XmlRpc.Native.Projection
import XmlRpc.Codec.Basic
import XmlRpc.Codec.Buffers
import XmlRpc.Codec.Lending
import XmlRpc.Codec.Staging
import XmlRpc.Proofs.Text.Utf8
import XmlRpc.Proofs.Text.Numeral
import XmlRpc.Proofs.Text.Digits
import XmlRpc.Proofs.Text.Escaping
import XmlRpc.Proofs.Base64
import XmlRpc.Proofs.Base64.Canonical
import XmlRpc.Proofs.Binary
import XmlRpc.Proofs.Binary.Exact
import XmlRpc.Proofs.Binary.Nearest
import XmlRpc.Proofs.Binary.Settling
import XmlRpc.Proofs.Binary.Places
import XmlRpc.Proofs.Calendar
import XmlRpc.Proofs.Calendar.Figures
import XmlRpc.Proofs.Calendar.Agreement
import XmlRpc.Proofs.Calendar.Validity
import XmlRpc.Proofs.Calendar.Instant
import XmlRpc.Proofs.Value
import XmlRpc.Proofs.Markup.Scratch
import XmlRpc.Proofs.Markup.Stream
import XmlRpc.Proofs.Markup.Advance
import XmlRpc.Proofs.Markup.Cursor
import XmlRpc.Proofs.Markup.Delimiter
import XmlRpc.Proofs.Markup.Rendering
import XmlRpc.Proofs.Markup.Cut
import XmlRpc.Proofs.Markup.EmptyText
import XmlRpc.Proofs.Markup.Nesting
import XmlRpc.Proofs.Markup.References
import XmlRpc.Proofs.Document.Grammar
import XmlRpc.Proofs.Document.Steps
import XmlRpc.Proofs.Document.Scratch
import XmlRpc.Proofs.Document.Completeness
import XmlRpc.Proofs.Document.Writing
import XmlRpc.Proofs.Document.Escaping
import XmlRpc.Proofs.Document.Sinks
import XmlRpc.Proofs.Document.RoundTrip
import XmlRpc.Proofs.Document.Scalars
import XmlRpc.Proofs.Document.Octets
import XmlRpc.Proofs.Document.Dates
import XmlRpc.Proofs.Document.Envelope
import XmlRpc.Proofs.Document.Moments
import XmlRpc.Proofs.Document.Doubles
import XmlRpc.Proofs.Document.Relay
import XmlRpc.Proofs.Document.Truncation
import XmlRpc.Proofs.Document.Compound
import XmlRpc.Proofs.Document.Rounds
import XmlRpc.Proofs.Document.Transcript
import XmlRpc.Proofs.Document.Progress
import XmlRpc.Proofs.Document.Size
import XmlRpc.Proofs.Document.Failures
import XmlRpc.Proofs.Document.References
import XmlRpc.Proofs.Native.Typing
import XmlRpc.Proofs.Native.RoundTrip
import XmlRpc.Proofs.Native.Integers
import XmlRpc.Proofs.Native.Slots
import XmlRpc.Proofs.Native.Fits
import XmlRpc.Proofs.Native.Return
import XmlRpc.Proofs.Native.Lists
import XmlRpc.Proofs.Native.Maps
import XmlRpc.Proofs.Native.Records
import XmlRpc.Proofs.Codec.Exchange
import XmlRpc.Proofs.Codec.Faults
import XmlRpc.Proofs.Codec.Isolation
import XmlRpc.Proofs.Codec.Accounting
import XmlRpc.Proofs.Codec.Refusal
import XmlRpc.Proofs.Codec.Buffers
import XmlRpc.Proofs.Codec.Stranded
