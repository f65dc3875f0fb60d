import Outline.Forest.Copy
import Outline.Guard
import Outline.Main
import Outline.Proofs.Forest.Walk
import Outline.Proofs.Forest.WellFormed
import Outline.Proofs.Forest.Descendants
import Outline.Proofs.Forest.Siblings
import Outline.Proofs.Forest.Preorder
import Outline.Proofs.Forest.Preceding
import Outline.Proofs.Path.Closest
import Outline.Proofs.Path.Resume
import Outline.Proofs.Path.Rotation
import Outline.Proofs.Forest.Edit
import Outline.Proofs.Document.Steps
import Outline.Proofs.Forest.Reachable
import Outline.Proofs.Path.Guard
import Outline.Proofs.Text.Quote
import Outline.Proofs.Token.Line
import Outline.Proofs.Document.Grove
import Outline.Proofs.Forest.Growth
import Outline.Proofs.Document.Reads
import Outline.Proofs.Document.Builds
import Outline.Proofs.Document.RoundTrip
import Outline.Proofs.Number.Decimal
import Outline.Proofs.Document.Accepted
import Outline.Proofs.Document.Canonical
import Outline.Proofs.Path.Text
import Outline.Proofs.Token.Grammar
import Outline.Proofs.Forest.Routes
import Outline.Proofs.Forest.Spine
import Outline.Proofs.Document.Layout
import Outline.Proofs.Document.Tidy
import Outline.Proofs.Document.Indentation
import Outline.Proofs.Document.Unbounded
import Outline.Proofs.Document.Reached
import Outline.Proofs.Document.JsonRoundTrip
import Outline.Proofs.Forest.Listing
import Outline.Proofs.Document.Planting
import Outline.Proofs.Document.Uniform
import Outline.Proofs.Document.Comments
import Outline.Proofs.Text.Lines
import Outline.Proofs.Text.Comment
import Outline.Proofs.Token.Written
import Outline.Proofs.Token.Comment
import Outline.Proofs.Document.CommentRoundTrip
import Outline.Proofs.Text.Restyled
import Outline.Proofs.Token.Restyled
import Outline.Proofs.Document.Appending
import Outline.Proofs.Path.Copy
import Outline.Proofs.Forest.Moves
import Outline.Proofs.Document.Clones
import Outline.Proofs.Value.Follow
import Outline.Proofs.Time.Canonical
import Outline.Proofs.Path.Confined
import Outline.Proofs.Text.Literal
import Outline.Proofs.Value.Integers
import Outline.Proofs.Document.Bytes
import Outline.Proofs.Document.Place
import Outline.Proofs.Path.Evaluator
import Outline.Proofs.Token.Quote
import Outline.Proofs.Token.Position
