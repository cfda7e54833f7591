import Lisp.Directory
import Lisp.Main
import Lisp.Value.Digest
import Lisp.Proofs.Equivalence
import Lisp.Proofs.FloatText
import Lisp.Proofs.Maps
import Lisp.Proofs.Digests
import Lisp.Proofs.Building
import Lisp.Proofs.Parsing
import Lisp.Proofs.Scanning
import Lisp.Proofs.Lexing
import Lisp.Proofs.RoundTrip
import Lisp.Proofs.Grammar
import Lisp.Proofs.Actions
import Lisp.Proofs.Semantics
import Lisp.Proofs.Turns
import Lisp.Proofs.Soundness
import Lisp.Proofs.Adequacy
import Lisp.Proofs.Behavior
import Lisp.Proofs.Template
import Lisp.Proofs.Captures
import Lisp.Proofs.Evolution
import Lisp.Proofs.Changes
import Lisp.Proofs.Expansion
import Lisp.Proofs.Swapping
import Lisp.Proofs.Moments
import Lisp.Proofs.Prelude
import Lisp.Proofs.Confinement
import Lisp.Proofs.Wrapping
import Lisp.Proofs.Steps
import Lisp.Proofs.Locality
import Lisp.Proofs.Splitting
import Lisp.Proofs.Composition
import Lisp.Proofs.Layout
import Lisp.Proofs.Blame
import Lisp.Proofs.Scripts
import Lisp.Proofs.MapLiterals
import Lisp.Proofs.Data
import Lisp.Proofs.Renaming
import Lisp.Proofs.Insertion
import Lisp.Proofs.Calling
import Lisp.Proofs.Conditional
import Lisp.Proofs.Nesting
import Lisp.Proofs.Carrying
import Lisp.Proofs.Loading
import Lisp.Proofs.Accesses
import Lisp.Proofs.Descent
import Lisp.Proofs.Progress
import Lisp.Proofs.Indexed
import Lisp.Proofs.Faultless
import Lisp.Proofs.Arithmetic
import Lisp.Proofs.Atoms
import Lisp.Proofs.Trimming
import Lisp.Proofs.Conversations
import Lisp.Proofs.Heredity
import Lisp.Proofs.Invariance
import Lisp.Proofs.Parameters
import Lisp.Proofs.Forest
import Lisp.Proofs.TailCalls
import Lisp.Proofs.Journal
import Lisp.Proofs.Passages
import Lisp.Proofs.Operations
