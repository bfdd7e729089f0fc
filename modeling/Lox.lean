import Lox.Command
import Lox.Main
import Lox.Proofs.Lines.Join
import Lox.Proofs.Scope.Resolve
import Lox.Proofs.Scope.Restore
import Lox.Proofs.Session.Gate
import Lox.Proofs.Eval.Adequate
import Lox.Proofs.Parse.Blame
import Lox.Proofs.Parse.Cascade
import Lox.Proofs.Write.RoundTrip
import Lox.Proofs.Scope.Simulation
import Lox.Proofs.Scope.Rename
import Lox.Proofs.Lines.Read
import Lox.Proofs.Scope.Footprint
import Lox.Proofs.Lines.Ignore
import Lox.Proofs.Scope.Answers
import Lox.Proofs.Scope.Linked
import Lox.Proofs.Prompt.Conversation
import Lox.Proofs.Descent.Programs
import Lox.Proofs.Source.Longest
import Lox.Proofs.Source.Nesting
import Lox.Proofs.Source.Rescan
import Lox.Proofs.Scope.Bare
import Lox.Proofs.Parse.Drawn
import Lox.Proofs.Parse.Infix
import Lox.Proofs.Eval.Origin
import Lox.Proofs.Write.Identify
import Lox.Proofs.Session.Reports
import Lox.Proofs.Eval.Prints
import Lox.Proofs.Parse.Blocks
import Lox.Proofs.Parse.Contexts
import Lox.Proofs.Descent.Recovery
import Lox.Proofs.Descent.FirstEnd
