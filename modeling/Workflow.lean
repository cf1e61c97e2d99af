import Workflow.Main
import Workflow.CommandLine.Memory
import Workflow.Session.Submit
import Workflow.Proofs.Definition.Closure
import Workflow.Proofs.Script.Template
import Workflow.Proofs.Script.Spelling
import Workflow.Proofs.Script.Reading
import Workflow.Proofs.Script.Bracket
import Workflow.Proofs.Script.Spans
import Workflow.Proofs.Script.Marks
import Workflow.Proofs.Script.Written
import Workflow.Proofs.Script.Rereading
import Workflow.Proofs.Script.Pairs
import Workflow.Proofs.Script.Lines
import Workflow.Proofs.Script.Substitution
import Workflow.Proofs.Script.Grammar
import Workflow.Proofs.Script.Lexeme
import Workflow.Proofs.Script.TypeExtent
import Workflow.Proofs.Script.Progress
import Workflow.Proofs.Script.MemberName
import Workflow.Proofs.Script.Inert
import Workflow.Proofs.Script.Phrase
import Workflow.Proofs.Script.TypePhrase
import Workflow.Proofs.Script.Outline
import Workflow.Proofs.Script.ExprPhrase
import Workflow.Proofs.Script.Stage
import Workflow.Proofs.Script.Statement
import Workflow.Proofs.Script.MarkedText
import Workflow.Proofs.Script.TypedStatement
import Workflow.Proofs.Script.UntypedStatement
import Workflow.Proofs.Script.ClassBody
import Workflow.Proofs.Script.ClassHeading
import Workflow.Proofs.Script.TypedClass
import Workflow.Proofs.Script.SwitchGrammar
import Workflow.Proofs.Script.PlainPhrase
import Workflow.Proofs.Script.ReadAsType
import Workflow.Proofs.Script.CaseLabel
import Workflow.Proofs.Script.Switch
import Workflow.Proofs.Script.SwitchFunction
import Workflow.Proofs.Script.ConditionalType
import Workflow.Proofs.Script.TypeArguments
import Workflow.Proofs.Script.NonNull
import Workflow.Proofs.Script.MemberRenaming
import Workflow.Proofs.Graph.Assembly
import Workflow.Proofs.Graph.Removal
import Workflow.Proofs.Graph.Patching
import Workflow.Proofs.Snapshot.Import
import Workflow.Proofs.Snapshot.NormalForm
import Workflow.Proofs.Snapshot.Reopening
import Workflow.Proofs.Script.StatementEnd
import Workflow.Proofs.Validation.Violations
import Workflow.Proofs.Validation.Superseding
import Workflow.Proofs.Session.Freshness
import Workflow.Proofs.Session.ScriptHistory
import Workflow.Proofs.Inference.Acceptance
import Workflow.Proofs.Inference.DeclaredNames
import Workflow.Proofs.Inference.Closed
import Workflow.Proofs.Definition.Renaming
import Workflow.Proofs.Session.Submissions
import Workflow.Proofs.Definition.Rereading
import Workflow.Proofs.Script.InterchangeRun
import Workflow.Proofs.Script.MemberReading
import Workflow.Proofs.Json.TypedText
import Workflow.Proofs.Validation.Grouping
import Workflow.Proofs.Graph.ParamOrder
import Workflow.Proofs.Session.Replacing
import Workflow.Proofs.Script.Nesting
import Workflow.Proofs.Script.Partition
import Workflow.Proofs.Script.TypeSyntax
import Workflow.Proofs.Script.Safety
