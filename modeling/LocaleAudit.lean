import LocaleAudit.Cli
import LocaleAudit.Main
import LocaleAudit.Proofs.Key.Diff
import LocaleAudit.Proofs.Key.Link
import LocaleAudit.Proofs.Key.Path
import LocaleAudit.Proofs.Key.Set
import LocaleAudit.Proofs.Key.Repair
import LocaleAudit.Proofs.Json.Grammar
import LocaleAudit.Proofs.Json.Token
import LocaleAudit.Proofs.Json.Literal
import LocaleAudit.Proofs.Json.Parser
import LocaleAudit.Proofs.Json.Locate
import LocaleAudit.Proofs.Json.Place
import LocaleAudit.Proofs.Json.Value
import LocaleAudit.Proofs.Text.Position
import LocaleAudit.Proofs.Locale.Finding
import LocaleAudit.Proofs.Locale.Attribution
import LocaleAudit.Proofs.Locale.Layout
import LocaleAudit.Proofs.Locale.Expected
import LocaleAudit.Proofs.Rule.Missing
import LocaleAudit.Proofs.Rule.Declared
import LocaleAudit.Proofs.Rule.Unused
import LocaleAudit.Proofs.Rule.Shown
import LocaleAudit.Proofs.Rule.Spared
import LocaleAudit.Proofs.Run
import LocaleAudit.Proofs.Text.Part
import LocaleAudit.Proofs.Json.Span
import LocaleAudit.Proofs.Session
import LocaleAudit.Proofs.Rule.Separate
import LocaleAudit.Proofs.FileTree.Entry
import LocaleAudit.Proofs.FileTree.Place
import LocaleAudit.Proofs.FileTree.Removal
import LocaleAudit.Proofs.Glob.Expand
import LocaleAudit.Proofs.Path
import LocaleAudit.Proofs.Locale.Load
import LocaleAudit.Proofs.Locale.Files
import LocaleAudit.Proofs.Locale.Repeated
import LocaleAudit.Proofs.Locale.Moved
import LocaleAudit.Proofs.Config.Load
import LocaleAudit.Proofs.Source.Scan
import LocaleAudit.Proofs.Script.Keys
import LocaleAudit.Proofs.Rule.Isolated
import LocaleAudit.Proofs.Issue
import LocaleAudit.Proofs.Report
import LocaleAudit.Proofs.Report.Record
import LocaleAudit.Proofs.Report.Text
import LocaleAudit.Proofs.Rule.Selection
import LocaleAudit.Proofs.Json.RoundTrip
import LocaleAudit.Proofs.Glob.Resolve
import LocaleAudit.Proofs.Glob.Pattern
import LocaleAudit.Proofs.Glob.Moved
import LocaleAudit.Proofs.Path.Parent
import LocaleAudit.Proofs.Json.Preorder
import LocaleAudit.Proofs.Config.Search
import LocaleAudit.Proofs.Config.Token
import LocaleAudit.Proofs.Config.Reader
import LocaleAudit.Proofs.Config.Parser
import LocaleAudit.Proofs.Config.Sources
import LocaleAudit.Proofs.Config.Pretty
import LocaleAudit.Proofs.Config.RoundTrip
import LocaleAudit.Proofs.Json.Decoded
import LocaleAudit.Proofs.Json.Viable
import LocaleAudit.Proofs.Text.LineIndex
import LocaleAudit.Proofs.Component.Comment
import LocaleAudit.Proofs.Component.Snippet
import LocaleAudit.Proofs.Component.Padding
import LocaleAudit.Proofs.Component.Place
import LocaleAudit.Proofs.Component.Blanking
import LocaleAudit.Proofs.Component.Scripts
import LocaleAudit.Proofs.Component.Quoted
import LocaleAudit.Proofs.Component.Tag
import LocaleAudit.Proofs.Component.Loop
import LocaleAudit.Proofs.Key.Written
import LocaleAudit.Proofs.Script.Preorder
import LocaleAudit.Proofs.Path.Order
import LocaleAudit.Proofs.Path.Display
import LocaleAudit.Proofs.FileTree.Descendants
import LocaleAudit.Proofs.Source.Exact
