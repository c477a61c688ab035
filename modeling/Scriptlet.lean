import Scriptlet.Main
import Scriptlet.Proofs.Layout
import Scriptlet.Proofs.Coverage
import Scriptlet.Proofs.Spelling
import Scriptlet.Proofs.Printing
import Scriptlet.Proofs.Window
import Scriptlet.Proofs.Rounds
import Scriptlet.Proofs.Walk
import Scriptlet.Proofs.Limit
import Scriptlet.Proofs.Grammar
import Scriptlet.Proofs.Alike
import Scriptlet.Proofs.Seam
import Scriptlet.Proofs.Budget
import Scriptlet.Proofs.Stream
import Scriptlet.Proofs.Operations
import Scriptlet.Proofs.Accounting
import Scriptlet.Proofs.Reprint
import Scriptlet.Proofs.Transcript
import Scriptlet.Proofs.FrontEnds
import Scriptlet.Proofs.Normal
import Scriptlet.Proofs.Lockstep
import Scriptlet.Proofs.Dump
import Scriptlet.Proofs.Strictness
import Scriptlet.Proofs.Evidence
import Scriptlet.Proofs.Writing
import Scriptlet.Proofs.Place
import Scriptlet.Proofs.Conclusion
import Scriptlet.Proofs.Lookahead
import Scriptlet.Proofs.Report
import Scriptlet.Proofs.Terminator
import Scriptlet.Proofs.Pulls
import Scriptlet.Proofs.TokenPlace
import Scriptlet.Proofs.Answers
import Scriptlet.Proofs.Scanning
import Scriptlet.Proofs.Skipping
import Scriptlet.Proofs.Legible
