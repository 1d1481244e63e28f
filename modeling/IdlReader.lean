import IdlReader.Document
import IdlReader.Proofs.Constant.Arithmetic
import IdlReader.Proofs.Document.Name
import IdlReader.Proofs.Document.Values
import IdlReader.Proofs.Expression.Grammar
import IdlReader.Proofs.Constant.Agenda
import IdlReader.Proofs.Constant.Cause
import IdlReader.Proofs.Constant.Statement
import IdlReader.Proofs.Document.Constants
import IdlReader.Proofs.Document.Inheritance
import IdlReader.Proofs.Document.References
import IdlReader.Proofs.Mirror.Layout
import IdlReader.Proofs.Document.Section
import IdlReader.Proofs.Document.Inclusion
import IdlReader.Proofs.Token.Tiling
import IdlReader.Proofs.Grammar.Attribution
import IdlReader.Proofs.Source.Nesting
import IdlReader.Proofs.Document.Fingerprint
import IdlReader.Proofs.Bracket.Content
import IdlReader.Proofs.Document.Repetition
import IdlReader.Proofs.Constant.Cast
import IdlReader.Proofs.Macro.Argument
import IdlReader.Proofs.Macro.Operator
import IdlReader.Proofs.Suited.Content
import IdlReader.Proofs.Constant.Numeral
import IdlReader.Proofs.Document.Distinct
import IdlReader.Proofs.Document.WrittenType
import IdlReader.Proofs.Tree.Announcement
import IdlReader.Proofs.Tree.Particulars
import IdlReader.Proofs.Text.ValueList
import IdlReader.Proofs.Text.Path
import IdlReader.Proofs.Document.MemberValue
import IdlReader.Proofs.Constant.Array
import IdlReader.Proofs.Document.ArrayValue
import IdlReader.Proofs.Document.OperandValue
import IdlReader.Proofs.Constant.Integer
import IdlReader.Proofs.Constant.Quoted
import IdlReader.Proofs.Macro.Separation
import IdlReader.Proofs.Token.Joining
import IdlReader.Proofs.Comment.Flags
import IdlReader.Proofs.Comment.LineEnd
import IdlReader.Proofs.Comment.Slice
import IdlReader.Proofs.Document.Verbatim
import IdlReader.Proofs.Document.MemberType
import IdlReader.Proofs.Document.GeneratedName
import IdlReader.Proofs.Token.LogicalLine
