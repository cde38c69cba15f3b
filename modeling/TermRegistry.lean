import TermRegistry.Cache
import TermRegistry.Context.Derived
import TermRegistry.Main
import TermRegistry.CommandLine.Directory
import TermRegistry.Proofs.Grammar
import TermRegistry.Proofs.Parsing.Outcome
import TermRegistry.Proofs.Parsing.Complete
import TermRegistry.Proofs.Parsing.Sound
import TermRegistry.Proofs.Parsing
import TermRegistry.Proofs.Spelling
import TermRegistry.Proofs.WellFormed
import TermRegistry.Proofs.RoundTrip
import TermRegistry.Proofs.Registry
import TermRegistry.Proofs.Growth
import TermRegistry.Proofs.Building
import TermRegistry.Proofs.Construction
import TermRegistry.Proofs.Operations
import TermRegistry.Proofs.Reachable
import TermRegistry.Proofs.Atomicity
import TermRegistry.Proofs.Alike
import TermRegistry.Proofs.Blindness
import TermRegistry.Proofs.Legible
import TermRegistry.Proofs.Cloning
import TermRegistry.Proofs.Integrity
import TermRegistry.Proofs.Matching.Parts
import TermRegistry.Proofs.Matching.Depth
import TermRegistry.Proofs.Matching.Relation
import TermRegistry.Proofs.Matching.Correctness
import TermRegistry.Proofs.Matching.Expansion
import TermRegistry.Proofs.Matching.Reordering
import TermRegistry.Proofs.Dedup.Resolution
import TermRegistry.Proofs.Dedup.Written
import TermRegistry.Proofs.Dedup.Grounded
import TermRegistry.Proofs.Dedup
import TermRegistry.Proofs.Matching.Reflexivity
import TermRegistry.Proofs.Grammar.Derivation
import TermRegistry.Proofs.Parsing.Documented
import TermRegistry.Proofs.Composition
import TermRegistry.Proofs.Relabelling
import TermRegistry.Proofs.Relabelling.Closure
import TermRegistry.Proofs.Matching.Termination
import TermRegistry.Proofs.References
import TermRegistry.Proofs.Dedup.Internal
import TermRegistry.Proofs.Matching.Preorder
import TermRegistry.Proofs.Rendering
import TermRegistry.Proofs.Reporting
import TermRegistry.Proofs.Matching.Locality
import TermRegistry.Proofs.Naming.Minting
import TermRegistry.Proofs.Naming.Sparing
import TermRegistry.Proofs.Naming.Renaming
import TermRegistry.Proofs.Naming.Parallel
import TermRegistry.Proofs.Naming
import TermRegistry.Proofs.Matching.Equivalence
import TermRegistry.Proofs.Dedup.Exact
import TermRegistry.Proofs.Matching.Order
import TermRegistry.Proofs.Captures
import TermRegistry.Proofs.Dedup.Positional
import TermRegistry.Proofs.Application.Filling
import TermRegistry.Proofs.Application.Substitution
import TermRegistry.Proofs.Application.Instance
import TermRegistry.Proofs.Application.Successor
import TermRegistry.Proofs.Matching.Opening
import TermRegistry.Proofs.Matching.Endless
import TermRegistry.Proofs.Matching.Unbounded
import TermRegistry.Proofs.Matching.Descent
import TermRegistry.Proofs.Matching.Following
import TermRegistry.Proofs.Dedup.Arguments
import TermRegistry.Proofs.RuleSet.Writing
import TermRegistry.Proofs.RuleSet.Independence
import TermRegistry.Proofs.Families.Bracketing
import TermRegistry.Proofs.Naming.Tracing
import TermRegistry.Proofs.Naming.Lineage
import TermRegistry.Proofs.Application.Writing
import TermRegistry.Proofs.Lexing.Slice
import TermRegistry.Proofs.Lexing.Place
import TermRegistry.Proofs.Lexing.Partition
import TermRegistry.Proofs.Lexing.Quoting
import TermRegistry.Proofs.Parsing.Places
import TermRegistry.Proofs.Protocol
import TermRegistry.Proofs.CommandLine.Derived
import TermRegistry.Proofs.Caching
import TermRegistry.Proofs.Uniformity.Assembly
