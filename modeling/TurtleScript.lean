import TurtleScript.Numeral.Decimal
import TurtleScript.Text.Identifier
import TurtleScript.Text.Quoted
import TurtleScript.Text.Utf8
import TurtleScript.Types.Ty
import TurtleScript.Types.Catalogue
import TurtleScript.Tree.Program
import TurtleScript.Tree.Construct
import TurtleScript.Tree.Document
import TurtleScript.Bytecode.Listing
import TurtleScript.Host
import TurtleScript.Diagnostic
import TurtleScript.Scope.Build
import TurtleScript.Typing.Resolve
import TurtleScript.Compile
import TurtleScript.Settings
import TurtleScript.Image.Reader
import TurtleScript.Image.Writer
import TurtleScript.Machine.Run
import TurtleScript.Turtle
import TurtleScript.Main
import TurtleScript.Proofs.Text.Utf8
import TurtleScript.Proofs.Image.Canonical
import TurtleScript.Proofs.Image.Truncation
import TurtleScript.Proofs.Tree.Document
import TurtleScript.Proofs.Bytecode.Pool
import TurtleScript.Proofs.Code.Agreement
import TurtleScript.Proofs.Code.Balance
import TurtleScript.Proofs.Code.Closed
import TurtleScript.Proofs.Code.Folding
import TurtleScript.Proofs.Code.Hoisting
import TurtleScript.Proofs.Code.Linking
import TurtleScript.Proofs.Code.Lowering
import TurtleScript.Proofs.Code.Operands
import TurtleScript.Proofs.Code.Returning
import TurtleScript.Proofs.Code.Runs
import TurtleScript.Proofs.Code.Walk
import TurtleScript.Proofs.Machine.Calls
import TurtleScript.Proofs.Machine.Compiled
import TurtleScript.Proofs.Machine.Control
import TurtleScript.Proofs.Machine.Crashes
import TurtleScript.Proofs.Machine.Effects
import TurtleScript.Proofs.Machine.Elements
import TurtleScript.Proofs.Machine.Framing
import TurtleScript.Proofs.Machine.Preservation
import TurtleScript.Proofs.Machine.Transparency
import TurtleScript.Proofs.Scope.Building
import TurtleScript.Proofs.Scope.Built
import TurtleScript.Proofs.Scope.Representation
import TurtleScript.Proofs.Typing.Judgement
import TurtleScript.Proofs.Typing.Resolution
import TurtleScript.Proofs.Typing.Stability
import TurtleScript.Proofs.Machine.Stops
import TurtleScript.Proofs.Image.Safety
import TurtleScript.Proofs.Machine.Budget
import TurtleScript.Proofs.Scope.Entering
import TurtleScript.Proofs.Typing.Filling
