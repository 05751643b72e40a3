import Lintel.Main
import Lintel.Version.Coerce
import Lintel.Proofs.Session.Calls
import Lintel.Proofs.Selection.Reference
import Lintel.Proofs.Version.Meaning
import Lintel.Proofs.Version.Grammar
import Lintel.Proofs.Selection.Existing
import Lintel.Proofs.Glob.Groups
import Lintel.Proofs.Glob.Pruned
import Lintel.Proofs.Report.RoundTrip
import Lintel.Proofs.Linter.Blank
import Lintel.Proofs.Linter.Completed
import Lintel.Proofs.Selection.Members
import Lintel.Proofs.Linter.Records
import Lintel.Proofs.Report.Ending
import Lintel.Proofs.Session.Completed
import Lintel.Proofs.Session.Reordered
import Lintel.Proofs.Session.Verdict
import Lintel.Proofs.Session.Written
import Lintel.Proofs.Version.Runs
import Lintel.Proofs.Linter.Normalized
import Lintel.Proofs.Selection.Again
import Lintel.Proofs.Session.Blocks
import Lintel.Proofs.Version.Streams
import Lintel.Proofs.Version.Hyphens
import Lintel.Proofs.Version.Unions
import Lintel.Proofs.Linter.Order
import Lintel.Proofs.Glob.Detected
import Lintel.Proofs.Glob.Refused
import Lintel.Proofs.Glob.Candidates
import Lintel.Proofs.Glob.Characters
import Lintel.Proofs.Glob.Singles
import Lintel.Proofs.Ignore.Appended
import Lintel.Proofs.Ignore.Excluded
import Lintel.Proofs.Ignore.Kept
import Lintel.Proofs.Ignore.Respelled
import Lintel.Proofs.Path.Stacked
import Lintel.Proofs.Glob.Rooted
import Lintel.Proofs.Selection.Dotted
import Lintel.Proofs.Linter.Plain
import Lintel.Proofs.Report.Columns
import Lintel.Proofs.Report.Colours
import Lintel.Proofs.Glob.Missteps
import Lintel.Proofs.Glob.Replaced
import Lintel.Proofs.Path.Collected
import Lintel.Proofs.Version.Displayed
