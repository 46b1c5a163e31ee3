import DeclStyle.Config.Search
import DeclStyle.Declaration.Build
import DeclStyle.Declaration.Exchange
import DeclStyle.LogFile
import DeclStyle.Traversal.Rules
import DeclStyle.Traversal.Visit
import DeclStyle.Proofs.StyleRule.Comments
import DeclStyle.Proofs.StyleRule.UnsafeContext
import DeclStyle.Proofs.Stretch.Removal
import DeclStyle.Proofs.Edit.Comments
import DeclStyle.Proofs.Edit.Insertion
import DeclStyle.Proofs.Edit.Keywords
import DeclStyle.Proofs.Order.Sorted
import DeclStyle.Proofs.Order.Stability
import DeclStyle.Proofs.Traversal.Listing
import DeclStyle.Proofs.StyleRule.Satisfied
import DeclStyle.Proofs.StyleRule.Composition
import DeclStyle.Proofs.StyleRule.ModifierOrder
import DeclStyle.Proofs.StyleRule.Idempotence
import DeclStyle.Proofs.Edit.Gaps
import DeclStyle.Proofs.Lexical.Safety
import DeclStyle.Proofs.Lexical.Session
import DeclStyle.Proofs.Edit.Commutation
import DeclStyle.Proofs.Order.Incremental
import DeclStyle.Proofs.StyleRule.Assembly
import DeclStyle.Proofs.Edit.Reversal
import DeclStyle.Proofs.Stretch.Failure
import DeclStyle.Proofs.Edit.Failure
import DeclStyle.Proofs.StyleRule.Failure
import DeclStyle.Proofs.Order.Collation
import DeclStyle.Proofs.Edit.Frame
import DeclStyle.Proofs.StyleRule.Frame
import DeclStyle.Proofs.StyleRule.Record
import DeclStyle.Proofs.Json.RoundTrip
import DeclStyle.Proofs.Json.Exchange
import DeclStyle.Proofs.Json.Tolerance
import DeclStyle.Proofs.Edit.Turns
import DeclStyle.Proofs.Edit.Unranked
import DeclStyle.Proofs.StyleRule.Completeness
import DeclStyle.Proofs.Lexical.Separation
import DeclStyle.Proofs.Lexical.LineComments
import DeclStyle.Proofs.StyleRule.Separation
import DeclStyle.Proofs.Edit.Facades
import DeclStyle.Proofs.StyleRule.MemberOrder
import DeclStyle.Proofs.Edit.Together
import DeclStyle.Proofs.StyleRule.InPlace
import DeclStyle.Proofs.StyleRule.StaticMembers
import DeclStyle.Proofs.StyleRule.Visibility
import DeclStyle.Proofs.Stretch.OneByOne
import DeclStyle.Proofs.Order.Agreement
import DeclStyle.Proofs.Edit.Accessibility
import DeclStyle.Proofs.Traversal.Calls
import DeclStyle.Proofs.Traversal.Visits
import DeclStyle.Proofs.Order.Unsorted
import DeclStyle.Proofs.Edit.AnyOrder
import DeclStyle.Proofs.Config.Selection
