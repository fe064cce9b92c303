import WeightedAutomata.Automaton.Evaluation
import WeightedAutomata.Automaton.Projection
import WeightedAutomata.Automaton.Subset
import WeightedAutomata.Context.Series
import WeightedAutomata.Dot.Reader
import WeightedAutomata.Dot.Writer
import WeightedAutomata.Report
import WeightedAutomata.Proofs.Automaton.Derivation
import WeightedAutomata.Proofs.Automaton.Proper
import WeightedAutomata.Proofs.Expression.RoundTrip
import WeightedAutomata.Proofs.Automaton.Histories
import WeightedAutomata.Proofs.Automaton.Validity
import WeightedAutomata.Proofs.Automaton.Visits
import WeightedAutomata.Proofs.Automaton.Isomorphism
import WeightedAutomata.Proofs.Automaton.Mirror
import WeightedAutomata.Proofs.Automaton.Renumbering
import WeightedAutomata.Proofs.Automaton.Steady
import WeightedAutomata.Proofs.Expression.Rational
import WeightedAutomata.Proofs.Automaton.Rewiring
import WeightedAutomata.Proofs.Automaton.Pieces
import WeightedAutomata.Proofs.Automaton.Joins
import WeightedAutomata.Proofs.Automaton.Loops
import WeightedAutomata.Proofs.Automaton.Standard
import WeightedAutomata.Proofs.Automaton.Edges
import WeightedAutomata.Proofs.Automaton.Reach
import WeightedAutomata.Proofs.Automaton.Subset
import WeightedAutomata.Proofs.Automaton.Complement
import WeightedAutomata.Proofs.Series.Tapes
import WeightedAutomata.Proofs.Expansion.Splitting
import WeightedAutomata.Proofs.Expression.Joint
import WeightedAutomata.Proofs.Expansion.Tuples
import WeightedAutomata.Proofs.Automaton.Moves
import WeightedAutomata.Proofs.Automaton.Runs
import WeightedAutomata.Proofs.Automaton.Tapes
import WeightedAutomata.Proofs.Automaton.Delays
import WeightedAutomata.Proofs.Automaton.Buffers
import WeightedAutomata.Proofs.Automaton.Synchronizing
import WeightedAutomata.Proofs.Automaton.Worklist
import WeightedAutomata.Proofs.Automaton.Synchronize
import WeightedAutomata.Proofs.Weights.Order
import WeightedAutomata.Proofs.Weights.Stars
import WeightedAutomata.Proofs.Expression.TotalOrder
import WeightedAutomata.Proofs.Expression.Searching
import WeightedAutomata.Proofs.Expression.Factors
import WeightedAutomata.Proofs.Expression.NormalForm
import WeightedAutomata.Proofs.Expression.Span
import WeightedAutomata.Proofs.Expression.Multiplication
import WeightedAutomata.Proofs.Expression.Closure
import WeightedAutomata.Proofs.Expression.Distributive
import WeightedAutomata.Proofs.Expression.Idempotence
import WeightedAutomata.Proofs.Expression.Residues
import WeightedAutomata.Proofs.Expansion.Finiteness
import WeightedAutomata.Proofs.Automaton.Finiteness
import WeightedAutomata.Proofs.Letter.Alphabet
import WeightedAutomata.Proofs.Label.Text
import WeightedAutomata.Proofs.Label.RoundTrip
import WeightedAutomata.Proofs.Context.Descriptor
import WeightedAutomata.Proofs.Dot.Token
import WeightedAutomata.Proofs.Dot.Graph
import WeightedAutomata.Proofs.Dot.Writer
import WeightedAutomata.Proofs.Dot.Entries
import WeightedAutomata.Proofs.Dot.Drawing
import WeightedAutomata.Proofs.Dot.Transitions
import WeightedAutomata.Proofs.Dot.RoundTrip
import WeightedAutomata.Proofs.Context.Order
import WeightedAutomata.Proofs.Context.RoundTrip
import WeightedAutomata.Proofs.Expansion.Identity
import WeightedAutomata.Proofs.Expansion.Development
import WeightedAutomata.Proofs.Expression.CanonicalSums
import WeightedAutomata.Proofs.Graph.Termination
import WeightedAutomata.Proofs.Automaton.Cycles
import WeightedAutomata.Proofs.Label.Free
import WeightedAutomata.Proofs.Automaton.Pairs
import WeightedAutomata.Proofs.Automaton.Ambiguity
import WeightedAutomata.Proofs.Automaton.AmbiguousCycles
import WeightedAutomata.Proofs.Polynomial.CommonDivisors
import WeightedAutomata.Proofs.Automaton.Spontaneous
import WeightedAutomata.Proofs.Automaton.Acyclicity
import WeightedAutomata.Proofs.Automaton.Parts
import WeightedAutomata.Proofs.Automaton.Trimming
import WeightedAutomata.Proofs.Automaton.Reweighing
import WeightedAutomata.Proofs.Context.Casting
import WeightedAutomata.Proofs.Automaton.Projection
import WeightedAutomata.Proofs.Expression.Dialects
import WeightedAutomata.Proofs.Polynomial.RoundTrip
import WeightedAutomata.Proofs.Expression.Members
import WeightedAutomata.Proofs.Context.Embedding
import WeightedAutomata.Proofs.Expression.Classes
import WeightedAutomata.Proofs.Context.TotalOrder
import WeightedAutomata.Proofs.Polynomial.Semiring
