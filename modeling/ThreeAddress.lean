import ThreeAddress.Code.Lowering
import ThreeAddress.Code.Verify
import ThreeAddress.Command.Run
import ThreeAddress.Compile.Journal
import ThreeAddress.Files.Disk
import ThreeAddress.Main
import ThreeAddress.Program.Parser
import ThreeAddress.Program.Printer
import ThreeAddress.Token.Lexer
import ThreeAddress.Wire
import ThreeAddress.Proofs.Code.Parts
import ThreeAddress.Proofs.Lowering.Emission
import ThreeAddress.Proofs.Semantics.Execution
import ThreeAddress.Proofs.Lowering.Freshness
import ThreeAddress.Proofs.Semantics.Meaning
import ThreeAddress.Proofs.Semantics.Preservation
import ThreeAddress.Proofs.Grammar.Basic
import ThreeAddress.Proofs.Grammar.Outcomes
import ThreeAddress.Proofs.Program.Erasure
import ThreeAddress.Proofs.Grammar.Follows
import ThreeAddress.Proofs.Grammar.Descent
import ThreeAddress.Proofs.Grammar.Completeness
import ThreeAddress.Proofs.Program.WellFormed
import ThreeAddress.Proofs.Lexing.Lexemes
import ThreeAddress.Proofs.Lexing.Lines
import ThreeAddress.Proofs.Lexing.Reading
import ThreeAddress.Proofs.Format.Writing
import ThreeAddress.Proofs.Format.Adding
import ThreeAddress.Proofs.Format.Printing
import ThreeAddress.Proofs.Grammar.Image
import ThreeAddress.Proofs.Bitmap
import ThreeAddress.Proofs.Format.RoundTrip
import ThreeAddress.Proofs.Code.Acceptance
import ThreeAddress.Proofs.Lowering.Verified
import ThreeAddress.Proofs.Code.Exactness
import ThreeAddress.Proofs.Compile.Formatting
import ThreeAddress.Proofs.Grammar.Blame
import ThreeAddress.Proofs.Compile.Outcome
import ThreeAddress.Proofs.Code.Listing
import ThreeAddress.Proofs.Lowering.Raising
import ThreeAddress.Proofs.Compile.Recovery
import ThreeAddress.Proofs.Code.Flow
import ThreeAddress.Proofs.Lexing.Decoding
import ThreeAddress.Proofs.Lexing.Longest
import ThreeAddress.Proofs.Lexing.Layout
import ThreeAddress.Proofs.Lowering.Options
import ThreeAddress.Proofs.Lowering.Lifetimes
import ThreeAddress.Proofs.Lowering.Numbering
import ThreeAddress.Proofs.Lowering.Labels
import ThreeAddress.Proofs.Program.Faults
import ThreeAddress.Proofs.Lexing.Separation
import ThreeAddress.Proofs.Lexing.Blanking
import ThreeAddress.Proofs.Format.Shortest
import ThreeAddress.Proofs.Bitmap.Calls
import ThreeAddress.Proofs.Lowering.Jumps
import ThreeAddress.Proofs.Grammar.Placement
import ThreeAddress.Proofs.Grammar.Anchors
import ThreeAddress.Proofs.Wire.Reading
import ThreeAddress.Proofs.Wire.Values
import ThreeAddress.Proofs.Code.Offences
import ThreeAddress.Proofs.Files.Laws
import ThreeAddress.Proofs.Command.AllOrNothing
import ThreeAddress.Proofs.Lowering.Literals
import ThreeAddress.Proofs.Lexing.Calls
import ThreeAddress.Proofs.Grammar.Safety
