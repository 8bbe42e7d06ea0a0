import Stack256.Proofs.CodeBuffer.Session
import Stack256.Proofs.Listing.Assembly
import Stack256.Proofs.Listing.Concatenation
import Stack256.Proofs.Listing.Room
import Stack256.Proofs.Listing.Session
import Stack256.Proofs.Listing.Spelling
import Stack256.Proofs.Processor.Report
import Stack256.Proofs.Program.ShortestPush
import Stack256.Proofs.Semantics.Refinement
import Stack256.Proofs.State.Bounds
import Stack256.Proofs.State.Capacity
import Stack256.Proofs.State.Deletion
import Stack256.Proofs.State.Frame
import Stack256.Proofs.State.Session
import Stack256.Proofs.State.Stepping
import Stack256.Proofs.Word.Block
import Stack256.Proofs.Word.Power
import Stack256.Proofs.Word.Residues
import Stack256.Proofs.Word.SignExtension
import Stack256.Proofs.Word.SignedDivision
import Stack256.Proofs.Word.WrappedSum

/-!
# Stack256 — a stack machine over 256-bit words, its code builder and its assembler

`Word` holds the arithmetic, `State.run` the machine and `Processor` the same machine step by step
in place, `CodeBuffer` the builder, and `Assembly.ofSourceIn` the assembler.  What is proved of each
of them stands in the modules under `Proofs`.
-/
