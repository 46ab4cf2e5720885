import QueryTree.Main
import QueryTree.Proofs.Checked.Safety
import QueryTree.Proofs.Edit.Agreement
import QueryTree.Proofs.Edit.AnyOrder
import QueryTree.Proofs.Edit.Iteration
import QueryTree.Proofs.Exchange.Strings
import QueryTree.Proofs.Injection.Sides
import QueryTree.Proofs.Keywords.Clause
import QueryTree.Proofs.LetterCase.Outcome
import QueryTree.Proofs.Links.Session
import QueryTree.Proofs.Nesting.Depth
import QueryTree.Proofs.Outline.Faithful
import QueryTree.Proofs.Roles.Command
import QueryTree.Proofs.Template.Insert
import QueryTree.Proofs.Template.Select
import QueryTree.Proofs.Value.Typed
import QueryTree.Proofs.Value.Uuid
import QueryTree.Proofs.Walk.Order
