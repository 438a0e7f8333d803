import Monkey.Program.Text
import Monkey.Main
import Monkey.Proofs.Scope
import Monkey.Proofs.Encoding
import Monkey.Proofs.Resolution
import Monkey.Proofs.Scoped
import Monkey.Proofs.Structured
import Monkey.Proofs.Generation
import Monkey.Proofs.Compiled
import Monkey.Proofs.Decoding
import Monkey.Proofs.Inventory
import Monkey.Proofs.WellFormed
import Monkey.Proofs.Termination
import Monkey.Proofs.Correctness
import Monkey.Proofs.Depth
import Monkey.Proofs.Recursion
import Monkey.Proofs.Sessions
import Monkey.Proofs.Grammar
import Monkey.Proofs.Reading
import Monkey.Proofs.Scanning
import Monkey.Proofs.Parsed
import Monkey.Proofs.Writing
import Monkey.Proofs.Reread
import Monkey.Proofs.Bindings
import Monkey.Proofs.Recall
import Monkey.Proofs.Batch
import Monkey.Proofs.Robust
import Monkey.Proofs.Resources
import Monkey.Proofs.Isolation
import Monkey.Proofs.Relocation
import Monkey.Proofs.Places
import Monkey.Proofs.Nesting
import Monkey.Proofs.Blame
import Monkey.Proofs.Boundaries
import Monkey.Proofs.FreshLocals
import Monkey.Proofs.Coverage
import Monkey.Proofs.Respacing
import Monkey.Proofs.Labels
import Monkey.Proofs.Reprinting
import Monkey.Proofs.Streams
import Monkey.Proofs.Compilable
import Monkey.Proofs.Faults
import Monkey.Proofs.Legible
import Monkey.Proofs.Braces
import Monkey.Proofs.Grouping
import Monkey.Proofs.Hashes
import Monkey.Proofs.Equality
import Monkey.Proofs.Levels
import Monkey.Proofs.Restarts
