import ErbLayout.Main
import ErbLayout.Proofs.Placeholder.Entries
import ErbLayout.Proofs.Markup.Cut
import ErbLayout.Proofs.Template.Balance
import ErbLayout.Proofs.Erb.Kind
import ErbLayout.Proofs.Layout.Sheet
import ErbLayout.Proofs.Markup.Attributes
import ErbLayout.Proofs.Placeholder.Fresh
import ErbLayout.Proofs.Placeholder.Seams
import ErbLayout.Proofs.Ruby.Fragment
import ErbLayout.Proofs.Template.Content
import ErbLayout.Proofs.Template.Spacing
import ErbLayout.Proofs.Template.Standing
import ErbLayout.Proofs.Template.Printing
import ErbLayout.Proofs.Template.Drawn
import ErbLayout.Proofs.Template.Indentation
import ErbLayout.Proofs.Placeholder.Inverse
import ErbLayout.Proofs.Template.Kinds
import ErbLayout.Proofs.Template.Tags
import ErbLayout.Proofs.Template.Width
import ErbLayout.Proofs.Template.Verbatim
import ErbLayout.Proofs.Template.Faults
import ErbLayout.Proofs.Placeholder.Renamed
import ErbLayout.Proofs.Markup.Renamed
import ErbLayout.Proofs.Layout.Renamed
import ErbLayout.Proofs.Layout.Follows
import ErbLayout.Proofs.Template.Abreast
import ErbLayout.Proofs.Template.Replay
import ErbLayout.Proofs.Template.Parts
import ErbLayout.Proofs.Template.Beside
import ErbLayout.Proofs.Template.Joint
import ErbLayout.Proofs.Template.Outline
import ErbLayout.Proofs.Template.Local
import ErbLayout.Proofs.Template.Independence
import ErbLayout.Proofs.CommandLine.Listing
import ErbLayout.Proofs.CommandLine.Atomic
import ErbLayout.Proofs.Discovery.Exclusion
import ErbLayout.Proofs.Discovery.Union
import ErbLayout.Proofs.Layout.Fewest
import ErbLayout.Proofs.Markup.Reread
import ErbLayout.Proofs.Layout.Laid
import ErbLayout.Proofs.Template.Rewrap
import ErbLayout.Proofs.Template.Pairing
import ErbLayout.Proofs.Template.Literal
import ErbLayout.Proofs.Template.Respaced
import ErbLayout.Proofs.Ruby.Comment
import ErbLayout.Proofs.Template.Inert
import ErbLayout.Proofs.Ruby.Lexeme
import ErbLayout.Proofs.Ruby.TrailingRead
import ErbLayout.Proofs.Ruby.Frames
import ErbLayout.Proofs.Grammar.Drawn
import ErbLayout.Proofs.Ruby.Commented
import ErbLayout.Proofs.Ruby.Role
import ErbLayout.Proofs.Ruby.Closers
import ErbLayout.Proofs.Erb.Reindent
import ErbLayout.Proofs.Command.BestEffort
import ErbLayout.Proofs.Settings.Nearest
import ErbLayout.Proofs.CommandLine.Precedence
import ErbLayout.Proofs.Layout.Record
import ErbLayout.Proofs.Template.Stable
