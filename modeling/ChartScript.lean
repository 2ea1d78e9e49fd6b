import ChartScript.Conversion.Report
import ChartScript.Main
import ChartScript.Proofs.Command.Batch
import ChartScript.Proofs.Conversion.Accounted
import ChartScript.Proofs.Conversion.Guards
import ChartScript.Proofs.Conversion.Indicators
import ChartScript.Proofs.Expr.Literals
import ChartScript.Proofs.Expr.RoundTrip
import ChartScript.Proofs.Lowering.Defaults
import ChartScript.Proofs.Lowering.Histories
import ChartScript.Proofs.Lowering.Interchange
import ChartScript.Proofs.Lowering.NestedCalls
import ChartScript.Proofs.Lowering.Parts
import ChartScript.Proofs.Lowering.PastedDefaults
import ChartScript.Proofs.Lowering.Persistence
import ChartScript.Proofs.Module.Titles
import ChartScript.Proofs.Script.Appended
import ChartScript.Proofs.Script.BlankLines
import ChartScript.Proofs.Script.Blocks
import ChartScript.Proofs.Script.DeclarationLine
import ChartScript.Proofs.Script.Ranges
import ChartScript.Proofs.Script.Substrings
import ChartScript.Proofs.Series.Gaps
import ChartScript.Proofs.Series.Lengths
import ChartScript.Proofs.Token.LineEndings
import ChartScript.Series.Output
