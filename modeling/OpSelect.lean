import OpSelect.Main
import OpSelect.Proofs.Symbol.WellFormed
import OpSelect.Proofs.Symbol.Growth
import OpSelect.Proofs.Symbol.Temporary
import OpSelect.Proofs.Symbol.History
import OpSelect.Proofs.Selector.Expansion
import OpSelect.Proofs.Selector.Meaning
import OpSelect.Proofs.Lowering.Operand
import OpSelect.Proofs.Selector.Refusal
import OpSelect.Proofs.Lowering.Statement
import OpSelect.Proofs.Lowering.Hygiene
import OpSelect.Proofs.Catalog.Naming
import OpSelect.Proofs.Catalog.Extension
import OpSelect.Proofs.Selector.WriteBack
import OpSelect.Proofs.Selector.Justified
import OpSelect.Proofs.Selector.Session
import OpSelect.Proofs.Lowering.Arity
import OpSelect.Proofs.Lowering.Reference
import OpSelect.Proofs.Lowering.Label
import OpSelect.Proofs.Selector.Built
import OpSelect.Proofs.Selector.Coverage
import OpSelect.Proofs.Selector.Widening
import OpSelect.Proofs.Selector.Decoding
import OpSelect.Proofs.Selector.Rendering
import OpSelect.Proofs.Lowering.Operation
import OpSelect.Proofs.Token.Language
import OpSelect.Proofs.Lowering.Target
import OpSelect.Proofs.Token.Payload
import OpSelect.Proofs.Token.Munch
import OpSelect.Proofs.Program.Phrase
import OpSelect.Proofs.Program.Spelling
import OpSelect.Proofs.Token.Chunk
import OpSelect.Proofs.Token.Quoting
import OpSelect.Proofs.Listing.Text
import OpSelect.Proofs.Program.Outcome
import OpSelect.Proofs.Program.Lines
import OpSelect.Proofs.Program.Choice
import OpSelect.Proofs.Listing.Reading
import OpSelect.Proofs.Lowering.Naming
import OpSelect.Proofs.Listing.Legible
import OpSelect.Proofs.Listing.Replay
import OpSelect.Proofs.Listing.Recompile
import OpSelect.Proofs.Lowering.Simulation
import OpSelect.Proofs.Lowering.Conservative
import OpSelect.Proofs.Program.Completeness
import OpSelect.Proofs.Token.Row
import OpSelect.Proofs.Program.Placement
import OpSelect.Proofs.Program.Recovery
import OpSelect.Proofs.Lowering.Blame
import OpSelect.Proofs.Listing.Visible
import OpSelect.Proofs.Checked.Selector
import OpSelect.Proofs.Checked.Lowering
import OpSelect.Proofs.Selector.Indexed
import OpSelect.Proofs.Token.Respelling
import OpSelect.Proofs.Lowering.Unplaced
import OpSelect.Proofs.Symbol.Rollback
import OpSelect.Proofs.Source.Position
import OpSelect.Proofs.Selector.Alias
import OpSelect.Proofs.Program.Origin
import OpSelect.Proofs.Program.Numeral
import OpSelect.Proofs.Symbol.Search
