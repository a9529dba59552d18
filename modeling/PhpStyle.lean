import PhpStyle.Main
import PhpStyle.Rule.Script
import PhpStyle.Proofs.CommentSearch
import PhpStyle.Proofs.Cursor
import PhpStyle.Proofs.GuardedRuns
import PhpStyle.Proofs.LineDeletion
import PhpStyle.Proofs.MarkReading
import PhpStyle.Proofs.ModifierRuns
import PhpStyle.Proofs.PatchReading
import PhpStyle.Proofs.ReferenceReturns
import PhpStyle.Proofs.Regions
import PhpStyle.Proofs.Resumption
import PhpStyle.Proofs.ReturnTagRuns
import PhpStyle.Proofs.RuleSelection
import PhpStyle.Proofs.ScopeQueries
import PhpStyle.Proofs.TrailingCommas
import PhpStyle.Proofs.Trivia
