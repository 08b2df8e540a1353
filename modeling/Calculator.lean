import Calculator.Main
import Calculator.Proofs.Arithmetic.Reduction
import Calculator.Proofs.Expr.Errors
import Calculator.Proofs.Expr.Grouping
import Calculator.Proofs.Expr.Joining
import Calculator.Proofs.Expr.Normalized
import Calculator.Proofs.Expr.Quotation
import Calculator.Proofs.Expr.Quotients
import Calculator.Proofs.Grammar.Conventional
import Calculator.Proofs.Grammar.Height
import Calculator.Proofs.Grammar.Unmatched
import Calculator.Proofs.Text.Normalization
import Calculator.Proofs.Token.Pieces
import Calculator.Proofs.Grammar.Nesting
import Calculator.Proofs.Grammar.Outline
import Calculator.Proofs.Arithmetic.WholePower
import Calculator.Proofs.Script.Messages
import Calculator.Proofs.Grammar.Locality
import Calculator.Proofs.Arithmetic.EvenRoot
