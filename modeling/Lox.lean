import Lox.CommandLine
import Lox.Syntax.Uses
import Lox.Arena.Statement
import Lox.Proofs.Grammar.Program
import Lox.Proofs.Scope.Lexical
import Lox.Proofs.Token.Tiling
import Lox.Proofs.Session.Assignment
import Lox.Proofs.Session.Initializer
import Lox.Proofs.Session.Cut
import Lox.Proofs.Session.Reject
import Lox.Proofs.Session.Termination
import Lox.Proofs.Session.Identity
import Lox.Proofs.Session.Return
import Lox.Proofs.Session.Hierarchy
import Lox.Proofs.Session.Property
import Lox.Proofs.Session.Rename
import Lox.Proofs.Token.Printing
import Lox.Proofs.Store.Laws
import Lox.Proofs.Session.Spelling
import Lox.Proofs.Token.Restart
import Lox.Proofs.Rereading.Prefix
import Lox.Proofs.Session.Layout
import Lox.Proofs.Parallel.Tree
import Lox.Proofs.Parallel.Value
import Lox.Proofs.Eval.Loop
import Lox.Proofs.Parallel.Clauses
import Lox.Proofs.Parallel.World
import Lox.Proofs.Session.Loop
import Lox.Proofs.Text.Line
import Lox.Proofs.Session.Citation
import Lox.Proofs.Scope.Pass
import Lox.Proofs.Session.Names
