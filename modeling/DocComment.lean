import DocComment.Corpus.Resolved
import DocComment.Line.DefinitionTag
import DocComment.Line.Tokenizer
import DocComment.Text.Cursor
import DocComment.Proofs.Block.Depth
import DocComment.Proofs.Corpus.GroupWalk
import DocComment.Proofs.Corpus.Membership
import DocComment.Proofs.Reference.Complete
import DocComment.Proofs.Reference.Stable
import DocComment.Proofs.Section.RoundTrip
import DocComment.Proofs.Inline.Lexed
import DocComment.Proofs.Line.Stream
import DocComment.Proofs.Inline.RoundTrip
import DocComment.Proofs.Inline.Crossing
import DocComment.Proofs.Block.Fenced
import DocComment.Proofs.Corpus.Declarations
import DocComment.Proofs.Corpus.Unreadable
import DocComment.Proofs.Reference.Copied
import DocComment.Proofs.Reference.Reported
import DocComment.Proofs.Corpus.Growth
import DocComment.Proofs.Corpus.Integrity
import DocComment.Proofs.Corpus.Hidden
import DocComment.Proofs.Line.Spelled
import DocComment.Proofs.Block.Collected
import DocComment.Proofs.Table.Rectangular
import DocComment.Proofs.Table.RowSpan
import DocComment.Proofs.Table.Rows
import DocComment.Proofs.Block.Located
import DocComment.Proofs.List.Levels
import DocComment.Proofs.List.Nesting
import DocComment.Proofs.Inline.Tagged
import DocComment.Proofs.Inline.Argument
import DocComment.Proofs.Reference.AnchorNames
import DocComment.Proofs.Block.Quoted
import DocComment.Proofs.Corpus.ParentRequests
import DocComment.Proofs.Section.Delivered
import DocComment.Proofs.Corpus.Gathered
import DocComment.Proofs.Corpus.Scopes
import DocComment.Proofs.Block.Behind
import DocComment.Proofs.Block.Indented
import DocComment.Proofs.Inline.Separated
import DocComment.Proofs.Inline.Maximal
import DocComment.Proofs.Comment.Written
import DocComment.Proofs.Corpus.Bound
import DocComment.Proofs.Inline.Progress
import DocComment.Proofs.Corpus.Includes
import DocComment.Proofs.Reference.Names
import DocComment.Proofs.Section.BriefRule
import DocComment.Proofs.Line.Replay
import DocComment.Proofs.Block.Accepted
import DocComment.Proofs.Section.Parameters
import DocComment.Proofs.Bytewise
import DocComment.Proofs.Bytewise.CommandPlaces
import DocComment.Proofs.Bytewise.EndTag
import DocComment.Proofs.Table.Escaped
import DocComment.Proofs.Markup.Visited
