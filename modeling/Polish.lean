import Polish.Json
import Polish.Text
import Polish.Total
import Polish.Cursor
import Polish.Token
import Polish.Token.Scan
import Polish.Kind
import Polish.Vocabulary
import Polish.Source
import Polish.Source.Read
import Polish.Source.Json
import Polish.Source.Visitor
import Polish.Target
import Polish.Target.Json
import Polish.Untyped
import Polish.Untyped.Json
import Polish.Untyped.Walk
import Polish.Render
import Polish.Fallible
import Polish.Walk
import Polish.Walk.EventLog
import Polish.Walk.Recorder
import Polish.Slots
import Polish.Lowering
import Polish.Stage
import Polish.Trace
import Polish.Compile
import Polish.Batch
import Polish.Proofs.Place
import Polish.Proofs.Readings
import Polish.Proofs.Lexeme
import Polish.Proofs.Scanning
import Polish.Proofs.Turns
import Polish.Proofs.Separated
import Polish.Proofs.JsonText
import Polish.Proofs.Layout
import Polish.Proofs.Forest
import Polish.Proofs.Linear
import Polish.Proofs.Viable
import Polish.Proofs.Nesting
import Polish.Proofs.Itinerary
import Polish.Proofs.Outline
import Polish.Proofs.Bracketing
import Polish.Proofs.Addresses
import Polish.Proofs.Census
import Polish.Proofs.Lowering
import Polish.Proofs.Assembly
import Polish.Proofs.SlotInvariant
import Polish.Proofs.Raising
import Polish.Proofs.Wrapping
import Polish.Proofs.Description
import Polish.Proofs.Rendering
import Polish.Proofs.Defects
import Polish.Proofs.RoundTrip
import Polish.Proofs.Resemblance
import Polish.Proofs.Stages
import Polish.Proofs.Grammar
import Polish.Proofs.Decoding
import Polish.Proofs.Quotation
import Polish.Proofs.Punctuation
import Polish.Proofs.Rescanning
import Polish.Proofs.Concatenation
import Polish.Proofs.Unknown
import Polish.Proofs.WritingOrder
import Polish.Proofs.Recompiling
import Polish.Proofs.Tracing
