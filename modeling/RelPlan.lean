import RelPlan.Config.Text
import RelPlan.Plan.Construct
import RelPlan.Plan.Eval
import RelPlan.Program.Eval
import RelPlan.Program.Json
import RelPlan.Rewrite.Rewriter
import RelPlan.Proofs.Program.Memo
import RelPlan.Proofs.Program.Accepted
import RelPlan.Proofs.Program.Placement
import RelPlan.Proofs.Program.Composition
import RelPlan.Proofs.Program.Associativity
import RelPlan.Proofs.Plan.Graph
import RelPlan.Proofs.Plan.Traversal
import RelPlan.Proofs.Program.FromNode
import RelPlan.Proofs.Plan.Redirect
import RelPlan.Proofs.Plan.History
import RelPlan.Proofs.Plan.Rows
import RelPlan.Proofs.Plan.Evaluation
import RelPlan.Proofs.Plan.Soundness
import RelPlan.Proofs.Plan.Edits
import RelPlan.Proofs.Plan.Chronicle
import RelPlan.Proofs.Plan.Replacement
import RelPlan.Proofs.Plan.Congruence
import RelPlan.Proofs.Plan.Joins
import RelPlan.Proofs.Plan.Meaning
import RelPlan.Proofs.Plan.Forwarding
import RelPlan.Proofs.Plan.PostOrder
import RelPlan.Proofs.Rewrite.Step
import RelPlan.Proofs.Rewrite.Firing
import RelPlan.Proofs.Rewrite.Run
import RelPlan.Proofs.Rewrite.Refiring
import RelPlan.Proofs.Rewrite.Results
import RelPlan.Proofs.Rewrite.Settling
import RelPlan.Proofs.Rewrite.NormalForm
import RelPlan.Proofs.Rewrite.Safety
import RelPlan.Proofs.Rewrite.FieldNames
import RelPlan.Proofs.Rewrite.Fixpoint
import RelPlan.Proofs.Rewrite.Termination
import RelPlan.Proofs.Rewrite.Dispatch
import RelPlan.Proofs.Rewrite.Choice
import RelPlan.Proofs.Rewrite.Counting
import RelPlan.Proofs.Rewrite.Proposals
import RelPlan.Proofs.Number.Numerals
import RelPlan.Proofs.Value.Text
import RelPlan.Proofs.Value.Integers
import RelPlan.Proofs.Expr.Text
import RelPlan.Proofs.Json.RoundTrip
import RelPlan.Proofs.Program.Saving
import RelPlan.Proofs.Number.Rounding
import RelPlan.Proofs.Number.Intervals
import RelPlan.Proofs.Program.BuilderHistory
import RelPlan.Proofs.Program.Demands
import RelPlan.Proofs.Rewrite.Bystanders
import RelPlan.Proofs.Rewrite.Locality
import RelPlan.Proofs.Config.Saving
import RelPlan.Proofs.Program.Conditions
import RelPlan.Proofs.Program.Checks
import RelPlan.Proofs.Program.Canonical
import RelPlan.Proofs.Plan.Atomicity
import RelPlan.Proofs.Rewrite.Exactness
import RelPlan.Proofs.Rewrite.Feasible
