import BraceScript.Main
import BraceScript.Tree.Outline
import BraceScript.Proofs.Discipline
import BraceScript.Proofs.Effects
import BraceScript.Proofs.Chain
import BraceScript.Proofs.Isolation
import BraceScript.Proofs.WellFormed
import BraceScript.Proofs.Session
import BraceScript.Proofs.Sink
import BraceScript.Proofs.Vocabulary
import BraceScript.Proofs.Feed
import BraceScript.Proofs.Token.Cut
import BraceScript.Proofs.Token.Pattern
import BraceScript.Proofs.Token.Row
import BraceScript.Proofs.Token.Munch
import BraceScript.Proofs.Token.Literal
import BraceScript.Proofs.Token.Comment
import BraceScript.Proofs.Token.Spacing
import BraceScript.Proofs.Placed
import BraceScript.Proofs.Lookahead
import BraceScript.Proofs.Grammar
import BraceScript.Proofs.Grammar.Sound
import BraceScript.Proofs.Grammar.Complete
import BraceScript.Proofs.Grammar.Exact
import BraceScript.Proofs.Grammar.Lookahead
import BraceScript.Proofs.Grammar.Viable
import BraceScript.Proofs.Grammar.Leftmost
import BraceScript.Proofs.Grammar.Anchors
import BraceScript.Proofs.Layout
import BraceScript.Proofs.Blame
import BraceScript.Proofs.Excerpt
import BraceScript.Proofs.Log
import BraceScript.Proofs.Token.Render
import BraceScript.Proofs.Grammar.Descent
import BraceScript.Proofs.Grammar.Pushback
import BraceScript.Proofs.Grammar.Extent
import BraceScript.Proofs.Grammar.Reread
import BraceScript.Proofs.Binders
import BraceScript.Proofs.Resolution
import BraceScript.Proofs.Callee
import BraceScript.Proofs.Kinds
import BraceScript.Proofs.Integers
import BraceScript.Proofs.Doubles
import BraceScript.Proofs.Aggregates
import BraceScript.Proofs.ByteOrder
import BraceScript.Proofs.Frame
