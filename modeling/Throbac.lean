import Throbac.Command.Version
import Throbac.Inspect.Networks
import Throbac.Inspect.Prediction
import Throbac.Inspect.Tokens
import Throbac.Main
import Throbac.Parsing.Interpreter
import Throbac.Tree.Edit
import Throbac.Workload.Measures
import Throbac.Proofs.Program.Truth
import Throbac.Proofs.Lexing.Positions
import Throbac.Proofs.Stream.Listing
import Throbac.Proofs.Stack.Union
import Throbac.Proofs.C.Memory
import Throbac.Proofs.Program.Decimals
import Throbac.Proofs.Program.Indentation
import Throbac.Proofs.Tree.Paths
import Throbac.Proofs.Edits.Deletions
import Throbac.Proofs.Edits.Insertions
import Throbac.Proofs.Tree.Patterns
import Throbac.Proofs.Lookahead.Expected
