import TreeRules.Main
import TreeRules.Proofs.Forest.Plant
import TreeRules.Proofs.Rule.Once
import TreeRules.Proofs.Matching.Find
import TreeRules.Rule.Recipe
import TreeRules.StockPredicates
import TreeRules.Proofs.Forest.Operation
import TreeRules.Proofs.Rule.Simultaneous
import TreeRules.Proofs.Rule.Reachable
import TreeRules.Proofs.Rule.Repeat
import TreeRules.Proofs.Rule.Cycle
import TreeRules.Proofs.Rule.Refusal
import TreeRules.Proofs.Rule.Alone
import TreeRules.Proofs.Rule.Failure
import TreeRules.Proofs.Rule.Callback
import TreeRules.Proofs.ValueTree.Grammar
import TreeRules.Proofs.ValueTree.Literal
import TreeRules.Proofs.ValueTree.Parenthesised
import TreeRules.Proofs.ValueTree.Indented
import TreeRules.Proofs.Pattern.Grammar
import TreeRules.Proofs.Pattern.Pieces
import TreeRules.Proofs.Pattern.Derivable
import TreeRules.Proofs.Pattern.Unambiguous
import TreeRules.Proofs.Pattern.Derived
import TreeRules.Proofs.Template.Grammar
import TreeRules.Proofs.Pattern.Accepts
import TreeRules.Proofs.Pattern.Cut
import TreeRules.Proofs.Pattern.Kinds
import TreeRules.Proofs.Template.Written
import TreeRules.Proofs.Forest.Preorder
import TreeRules.Proofs.Forest.Counterpart
import TreeRules.Proofs.Forest.Records
import TreeRules.Proofs.Template.Moved
import TreeRules.Proofs.Rule.Placed
import TreeRules.Proofs.Rule.Reuse
import TreeRules.Proofs.Template.Use
import TreeRules.Proofs.Pattern.Append
import TreeRules.Proofs.Pattern.Relocate
import TreeRules.Proofs.Rule.Arrow
import TreeRules.Proofs.Rule.Unplaced
import TreeRules.Proofs.Matching.Captured
import TreeRules.Proofs.Pattern.Reordered
import TreeRules.Proofs.Pattern.Scope
import TreeRules.Proofs.Matching.Reordered
import TreeRules.Proofs.Matching.Unrolled
import TreeRules.Proofs.Matching.Mirrored
import TreeRules.Proofs.Matching.Local
import TreeRules.Proofs.Matching.Anchored
import TreeRules.Proofs.Rule.Completed
import TreeRules.Proofs.Rule.Identity
import TreeRules.Proofs.Rule.Deletion
import TreeRules.Proofs.ValueTree.Nearest
import TreeRules.Proofs.Text.Position
import TreeRules.Proofs.Traversal
import TreeRules.Proofs.ValueTree.Lines
import TreeRules.Proofs.Rule.Lines
import TreeRules.Proofs.Pattern.Located
import TreeRules.Proofs.ValueTree.Located
import TreeRules.Proofs.ErrorPosition
import TreeRules.Proofs.Pattern.Parts
import TreeRules.Proofs.Pattern.Counted
import TreeRules.Proofs.Pattern.Accounts
import TreeRules.Proofs.Pattern.Validated
import TreeRules.Proofs.Forest.Moved
import TreeRules.Proofs.Matching.Fetched
import TreeRules.Proofs.Forest.DocumentOrder
import TreeRules.Proofs.Forest.Clone
import TreeRules.Proofs.Pattern.Slots
import TreeRules.Proofs.Template.References
