import Gatework.Command.Run
import Gatework.Diagnostic.Render
import Gatework.Golden
import Gatework.Hdl.Parser.File
import Gatework.Hdl.TreeJson
import Gatework.Lowering.Circuit
import Gatework.Main
import Gatework.Output
import Gatework.Pass
import Gatework.Stmt.Exec
import Gatework.View.Overlay
import Gatework.View.Text
import Gatework.Proofs.Diagram.Canonical
import Gatework.Proofs.Diagram.Session
import Gatework.Proofs.Expr.PrimitiveForm
import Gatework.Proofs.Flatten.Correctness
import Gatework.Proofs.Lowering.WellTyped
import Gatework.Proofs.Output
import Gatework.Proofs.Stmt.Simplify
import Gatework.Proofs.Stmt.Selection
import Gatework.Proofs.Stmt.Reshape
import Gatework.Proofs.Expr.KnownBits
import Gatework.Proofs.Stmt.Collapse
import Gatework.Proofs.Stmt.NestedIfs
import Gatework.Proofs.Lowering.Drivers
import Gatework.Proofs.Reshaping
import Gatework.Proofs.Stmt.Order
import Gatework.Proofs.Lowering.Settled
import Gatework.Proofs.Hdl.Digits
import Gatework.Proofs.Hdl.Lexer
import Gatework.Proofs.Hdl.Printed
import Gatework.Proofs.Hdl.Takes
import Gatework.Proofs.Hdl.ReadBack
import Gatework.Proofs.Lowering.ReadBack
import Gatework.Proofs.Stmt.CaseValue
import Gatework.Proofs.Stmt.MustWrites
import Gatework.Proofs.Cycle
import Gatework.Proofs.Resolution
import Gatework.Proofs.Diagram.Existence
import Gatework.Proofs.Stmt.Reads
import Gatework.Proofs.Hdl.Steps
import Gatework.Proofs.Hdl.Finishes
import Gatework.Proofs.Hdl.Precedence
import Gatework.Proofs.Expr.Later
import Gatework.Proofs.Flatten.Later
import Gatework.Proofs.Lowering.InStep
import Gatework.Proofs.Lowering.Portions
import Gatework.Proofs.Lowering.Shares
import Gatework.Proofs.Lowering.Merging
import Gatework.Proofs.Lowering.Malformed
import Gatework.Proofs.Lowering.LiteralValue
import Gatework.Proofs.Lowering.Ranges
import Gatework.Proofs.Expr.NormalForm
import Gatework.Proofs.Expr.Construction
import Gatework.Proofs.Expr.Key
import Gatework.Proofs.Expr.Words
import Gatework.Proofs.Lowering.Strictness
import Gatework.Proofs.Stmt.WrittenValues
import Gatework.Proofs.Expr.Gates
import Gatework.Proofs.Records
import Gatework.Proofs.Hdl.Tiling
import Gatework.Proofs.Source.Lines
