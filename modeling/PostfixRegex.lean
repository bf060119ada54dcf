import PostfixRegex.Regex
import PostfixRegex.Sampling.Expression
import PostfixRegex.Seed
import PostfixRegex.Builder.InPlace
import PostfixRegex.Determinization.Worklist
import PostfixRegex.Automaton.Acceptance
import PostfixRegex.Automaton.Metrics
import PostfixRegex.Proofs.Determinization.Language
import PostfixRegex.Proofs.Determinization.Provenance
import PostfixRegex.Proofs.Expression
import PostfixRegex.Proofs.Fragment.Shape
import PostfixRegex.Proofs.Fragment.Language
import PostfixRegex.Proofs.Builder.Ownership
import PostfixRegex.Proofs.Builder.Language
import PostfixRegex.Proofs.Compilation
import PostfixRegex.Proofs.Regex
import PostfixRegex.Proofs.Fragment.Coaccessible
import PostfixRegex.Proofs.Builder.Run
import PostfixRegex.Proofs.Builder.InPlace
import PostfixRegex.Proofs.Search.Rounds
import PostfixRegex.Proofs.Search.Queue
import PostfixRegex.Proofs.Closure
import PostfixRegex.Proofs.Verdict
import PostfixRegex.Proofs.Viability
import PostfixRegex.Proofs.Renaming
import PostfixRegex.Proofs.Determinization.Mirror
import PostfixRegex.Proofs.Determinization.Renaming
import PostfixRegex.Proofs.Determinization.Twice
import PostfixRegex.Proofs.Supply
import PostfixRegex.Proofs.Compilation.Renaming
import PostfixRegex.Proofs.Relabelling
import PostfixRegex.Proofs.Acceptance
import PostfixRegex.Proofs.Determinization.Complete
import PostfixRegex.Proofs.Determinization.LeastWord
import PostfixRegex.Proofs.Fragment.Labels
import PostfixRegex.Proofs.Accounting
import PostfixRegex.Proofs.Determinization.Size
import PostfixRegex.Proofs.Determinization.Worklist
import PostfixRegex.Proofs.Reachability
import PostfixRegex.Proofs.Fragment.Accessible
import PostfixRegex.Proofs.Trim
import PostfixRegex.Proofs.Determinization.Pruning
import PostfixRegex.Proofs.Builder.Absorption
import PostfixRegex.Proofs.Compilation.Subexpression
import PostfixRegex.Proofs.Compilation.Associativity
import PostfixRegex.Sampling.Draft
import PostfixRegex.Proofs.Sampling.Completeness
import PostfixRegex.Proofs.Search.Stack
import PostfixRegex.Proofs.Table.Merging
import PostfixRegex.Proofs.Set
import PostfixRegex.Proofs.Signature
import PostfixRegex.Proofs.Stage

