import Varlet.Main
import Varlet.Program.Compact
import Varlet.Program.Indexed
import Varlet.Proofs.Lexing.Blanking
import Varlet.Proofs.Lexing.Borders
import Varlet.Proofs.Lexing.CommentContent
import Varlet.Proofs.Lexing.CommentPlaces
import Varlet.Proofs.Lexing.Comments
import Varlet.Proofs.Lexing.Cut
import Varlet.Proofs.Lexing.Insertion
import Varlet.Proofs.Lexing.Leftovers
import Varlet.Proofs.Lexing.MaximalMunch
import Varlet.Proofs.Lexing.Places
import Varlet.Proofs.Lexing.Scanning
import Varlet.Proofs.Lexing.Slices
import Varlet.Proofs.Lexing.Spaced
import Varlet.Proofs.Lexing.Stepping
import Varlet.Proofs.Lexing.Tiling
import Varlet.Proofs.Lexing.Trimming
import Varlet.Proofs.Lexing.Words
import Varlet.Proofs.Numbers.Pattern
import Varlet.Proofs.Numbers.Whole
import Varlet.Proofs.Numbers.Written
import Varlet.Proofs.Parsing.Acceptance
import Varlet.Proofs.Parsing.Completeness
import Varlet.Proofs.Parsing.EarliestError
import Varlet.Proofs.Parsing.Grammar
import Varlet.Proofs.Parsing.Height
import Varlet.Proofs.Parsing.Indexing
import Varlet.Proofs.Parsing.Lookahead
import Varlet.Proofs.Parsing.Names
import Varlet.Proofs.Parsing.Reading
import Varlet.Proofs.Parsing.Relocation
import Varlet.Proofs.Parsing.Reuse
import Varlet.Proofs.Parsing.RoundTrip
import Varlet.Proofs.Parsing.Soundness
import Varlet.Proofs.Parsing.Spelling
import Varlet.Proofs.Running.Agreement
import Varlet.Proofs.Running.Display
import Varlet.Proofs.Running.Echoing
import Varlet.Proofs.Running.Input
import Varlet.Proofs.Running.Joining
import Varlet.Proofs.Running.Names
import Varlet.Proofs.Running.Noninterference
import Varlet.Proofs.Running.Statements
import Varlet.Proofs.Scoping.Changes
import Varlet.Proofs.Scoping.Constants
import Varlet.Proofs.Scoping.Flattening
import Varlet.Proofs.Scoping.Footprint
import Varlet.Proofs.Scoping.Frame
import Varlet.Proofs.Scoping.History
import Varlet.Proofs.Scoping.Independence
import Varlet.Proofs.Scoping.Keeping
import Varlet.Proofs.Scoping.Literals
import Varlet.Proofs.Scoping.Nearest
import Varlet.Proofs.Scoping.Overwriting
import Varlet.Proofs.Scoping.Resolution
import Varlet.Proofs.Scoping.Restoring
import Varlet.Proofs.Values.Distinct
import Varlet.Proofs.Values.FiniteMaps
import Varlet.Scope.Forest
import Varlet.Text.Slice
import Varlet.Token.Scanner
