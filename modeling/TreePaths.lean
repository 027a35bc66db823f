import TreePaths.Text.Blank
import TreePaths.Text.Lines
import TreePaths.Text.Quoted
import TreePaths.Text.Digit
import TreePaths.Text.Fold
import TreePaths.Text.LowerCase
import TreePaths.Number.Shortest
import TreePaths.Value.Key
import TreePaths.Value.Tree
import TreePaths.Path.Written
import TreePaths.Path.Checked
import TreePaths.Json.Reader
import TreePaths.Json.Writer
import TreePaths.Extraction.Builder
import TreePaths.Extraction.Workshop
import TreePaths.Yaml.Token.Scalar
import TreePaths.Yaml.Token.Lexer
import TreePaths.Yaml.Implicit
import TreePaths.Yaml.Load
import TreePaths.Document.Format
import TreePaths.Settings.File
import TreePaths.Pipeline.Run
import TreePaths.Command.Execute
import TreePaths.Main
import TreePaths.Proofs.Extraction.Action
import TreePaths.Proofs.Cursor
import TreePaths.Proofs.Extraction.Selection
import TreePaths.Proofs.Extraction.Tour
import TreePaths.Proofs.Extraction.Account
import TreePaths.Proofs.Extraction.Calls
import TreePaths.Proofs.Path.Derivation
import TreePaths.Proofs.Text.Digit
import TreePaths.Proofs.Path.Written
import TreePaths.Proofs.Path.RoundTrip
import TreePaths.Proofs.Extraction.Nesting
import TreePaths.Proofs.Extraction.Roaming
import TreePaths.Proofs.Extraction.Permutation
import TreePaths.Proofs.Cursor.Following
import TreePaths.Proofs.Extraction.CaseFold
import TreePaths.Proofs.Extraction.Subdocument
import TreePaths.Proofs.Pipeline.Matches
import TreePaths.Proofs.Json.RoundTrip
import TreePaths.Proofs.Pipeline.Output
import TreePaths.Proofs.Extraction.Visits
import TreePaths.Proofs.Yaml.Merging
import TreePaths.Proofs.Yaml.Telling
import TreePaths.Proofs.Yaml.Plan
import TreePaths.Proofs.Yaml.Built
import TreePaths.Proofs.Yaml.Drawing
import TreePaths.Proofs.Yaml.Building
import TreePaths.Proofs.Yaml.Making
import TreePaths.Proofs.Yaml.Filling
import TreePaths.Proofs.Yaml.Meaning
import TreePaths.Proofs.Yaml.Relating
import TreePaths.Proofs.Yaml.Annotations
import TreePaths.Proofs.Yaml.Readings
import TreePaths.Proofs.Cursor.Bracket
import TreePaths.Proofs.Extraction.Refusal
import TreePaths.Proofs.Pipeline.Location
import TreePaths.Proofs.Document.Lines
import TreePaths.Proofs.Value.Normal
import TreePaths.Proofs.Extraction.Workshop
import TreePaths.Proofs.Path.Failure
import TreePaths.Proofs.Json.Limit
import TreePaths.Proofs.Yaml.Scanning
import TreePaths.Proofs.Yaml.Lexing
import TreePaths.Proofs.Yaml.Composing
import TreePaths.Proofs.Yaml.Flattening
import TreePaths.Proofs.Yaml.Unfit
import TreePaths.Proofs.Yaml.Owners
import TreePaths.Proofs.Document.Failure
import TreePaths.Proofs.Settings.Normal
import TreePaths.Proofs.Command.Section
import TreePaths.Proofs.Pipeline.Job
import TreePaths.Proofs.Extraction.Candidates
import TreePaths.Proofs.Extraction.Unwinding
import TreePaths.Proofs.Path.Tiling
