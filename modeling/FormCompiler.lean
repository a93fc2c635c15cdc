import FormCompiler.Attributes
import FormCompiler.Exchange.Algebra
import FormCompiler.Exchange.Compile
import FormCompiler.Expr.Equality
import FormCompiler.Expr.Rename
import FormCompiler.Proofs.BasisStore
import FormCompiler.Proofs.Contraction
import FormCompiler.Proofs.Folding
import FormCompiler.Proofs.FreeIndices
import FormCompiler.Proofs.Memoisation
import FormCompiler.Proofs.NormalForm
import FormCompiler.Proofs.LoopVariables
import FormCompiler.Proofs.Repetition
import FormCompiler.Proofs.Selecting
import FormCompiler.Proofs.TailSums
import FormCompiler.Scope
