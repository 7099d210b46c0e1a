import PathQuery.Automaton.Reach
import PathQuery.BoolMatrix.Shaped
import PathQuery.Proofs.Machine.Grammar
import PathQuery.Proofs.Query.Basic
import PathQuery.Query.Basic
import PathQuery.Proofs.Machine.Patterns
import PathQuery.Proofs.Query.Patterns
import PathQuery.Proofs.Regex.Denotation
import PathQuery.Proofs.Regex.Parse
import PathQuery.Proofs.Automaton.Reach
import PathQuery.Proofs.Automaton.Build
import PathQuery.Proofs.Query.Regular
import PathQuery.Proofs.Nfa.Partition
import PathQuery.Proofs.Nfa.Shape
import PathQuery.Proofs.Nfa.Minimal
import PathQuery.Proofs.Regex.Grammar
import PathQuery.Proofs.Regex.Sound
import PathQuery.Proofs.Regex.Complete
import PathQuery.Proofs.BoolMatrix.Shaped
import PathQuery.Proofs.Automaton.Guarded
import PathQuery.Proofs.Query.Outcome
import PathQuery.Proofs.Grammar.Spans
import PathQuery.Proofs.Nfa.Subsets
import PathQuery.Proofs.Nfa.Accessible
import PathQuery.Proofs.Automaton.Intersection
import PathQuery.Proofs.BoolMatrix.Least
import PathQuery.Proofs.Engine.Bounds
import PathQuery.Proofs.Grammar.Trimmed
import PathQuery.Proofs.Grammar.Stable
import PathQuery.Proofs.Nfa.Canonical
import PathQuery.Proofs.Nfa.Idempotent
import PathQuery.Proofs.Machine.Settled
import PathQuery.Proofs.Automaton.Empty
import PathQuery.Proofs.BoolMatrix.Kronecker
import PathQuery.Proofs.BoolMatrix.Pool
import PathQuery.Proofs.Nfa.SubsetTable
import PathQuery.Proofs.Automaton.Layout
import PathQuery.Proofs.Regex.Agreement
import PathQuery.Proofs.Regex.Position
import PathQuery.Proofs.StateTable
