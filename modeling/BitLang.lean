import BitLang.Main
import BitLang.Proofs.Eval.Checked
import BitLang.Proofs.Eval.Limit
import BitLang.Proofs.Eval.Returning
import BitLang.Proofs.Expr.Completion
import BitLang.Proofs.Expr.Derivation
import BitLang.Proofs.Program
import BitLang.Proofs.BitSeq.Key
import BitLang.Proofs.Bindings.History
import BitLang.Proofs.Bindings.Merge
import BitLang.Proofs.BitSeq.Refinement
import BitLang.Proofs.BitSeq.Integer
import BitLang.Proofs.BitSeq.KeyReading
import BitLang.Proofs.Cbor.Limits
import BitLang.Proofs.Value.RoundTrip
import BitLang.Proofs.Value.Decoding
import BitLang.Proofs.Eval.Scopes
import BitLang.Proofs.Position
import BitLang.Proofs.Session
import BitLang.Proofs.Token.Layout
import BitLang.Proofs.Token.Cursor
import BitLang.Proofs.Token.Tiling
import BitLang.Proofs.Token.Respacing
import BitLang.Proofs.Token.Denotation
import BitLang.Proofs.Editor.Interleaving
import BitLang.Proofs.Editor.TokenAt
import BitLang.Proofs.ResultStore
import BitLang.Proofs.Editor.Lines
import BitLang.Proofs.Expr.Positions
import BitLang.Proofs.Eval.Positions
import BitLang.Proofs.Eval.Chains
import BitLang.Proofs.Eval.Windows
import BitLang.Proofs.Eval.Enumeration
import BitLang.Proofs.Eval.Folds
import BitLang.Proofs.Expr.Unambiguous
import BitLang.Proofs.Expr.Reading
import BitLang.Proofs.Editor.Diagnostic
import BitLang.Proofs.Expr.Patterns
import BitLang.Proofs.Expr.Leaves
import BitLang.Proofs.Editor.TokenRange
import BitLang.Proofs.Expr.Standing
import BitLang.Proofs.Expr.Nesting
import BitLang.Proofs.Editor.TokenEnds
import BitLang.Proofs.Eval.Blame
import BitLang.Proofs.Expr.Advancing
import BitLang.Proofs.FileTree
import BitLang.Proofs.Settings
