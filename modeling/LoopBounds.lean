import LoopBounds.Expr.Degree
import LoopBounds.Order
import LoopBounds.Problem.Meaning
import LoopBounds.Text.Derivation
import LoopBounds.Text.Layout
import LoopBounds.Text.Reading
import LoopBounds.WellNamed
import LoopBounds.Proofs.Text.Acceptance
import LoopBounds.Proofs.Text.RoundTrip
import LoopBounds.Proofs.Problem.Meaning
import LoopBounds.Proofs.Problem.History
import LoopBounds.Proofs.Problem.Moves
import LoopBounds.Proofs.Problem.Irredundant
import LoopBounds.Proofs.Problem.Replay
import LoopBounds.Proofs.Problem.Reordering
import LoopBounds.Proofs.Text.Rendering
import LoopBounds.Proofs.Problem.Dump
import LoopBounds.Proofs.Text.ConstraintRoundTrip
import LoopBounds.Proofs.Text.Splitting
import LoopBounds.Proofs.Text.Machine
import LoopBounds.Proofs.Text.Sides
import LoopBounds.Proofs.Text.Place
import LoopBounds.Proofs.Text.Diagnosis
import LoopBounds.Proofs.Text.Joining
import LoopBounds.Proofs.Text.Composition
import LoopBounds.Proofs.Text.Agreement
import LoopBounds.Proofs.Expr.Linear
import LoopBounds.Proofs.Text.Operands
import LoopBounds.Proofs.Text.OutOfRange
import LoopBounds.Proofs.Problem.Reload
import LoopBounds.Proofs.Expr.Monomial
import LoopBounds.Proofs.Order.Ascending
import LoopBounds.Proofs.Problem.Origin
import LoopBounds.Proofs.Problem.Accounts
