import Outline.Main
import Outline.Proofs.Text.Alike
import Outline.Proofs.Text.Boundary
import Outline.Proofs.Text.Line
import Outline.Proofs.Text.Lower
import Outline.Proofs.Text.Position
import Outline.Proofs.Text.Utf8
import Outline.Proofs.Text.Word
import Outline.Proofs.Pattern.Anchor
import Outline.Proofs.Pattern.Choice
import Outline.Proofs.Pattern.Complete
import Outline.Proofs.Pattern.First
import Outline.Proofs.Pattern.Found
import Outline.Proofs.Pattern.Matches
import Outline.Proofs.Pattern.Replaced
import Outline.Proofs.Pattern.Separate
import Outline.Proofs.Pattern.Shape
import Outline.Proofs.Pattern.Sweep
import Outline.Proofs.Source.Backward
import Outline.Proofs.Source.Balanced
import Outline.Proofs.Source.Blanking
import Outline.Proofs.Source.Brace
import Outline.Proofs.Source.Bytes
import Outline.Proofs.Source.Closing
import Outline.Proofs.Source.Column
import Outline.Proofs.Source.CommentText
import Outline.Proofs.Source.CppToken
import Outline.Proofs.Source.Delimiter
import Outline.Proofs.Source.InStep
import Outline.Proofs.Source.Inserted
import Outline.Proofs.Source.JavaToken
import Outline.Proofs.Source.Lexing
import Outline.Proofs.Source.LineStart
import Outline.Proofs.Source.Lower
import Outline.Proofs.Source.Pairing
import Outline.Proofs.Source.Reread
import Outline.Proofs.Source.Returns
import Outline.Proofs.Source.Stretch
import Outline.Proofs.Source.Tint
import Outline.Proofs.Declaration.Alike
import Outline.Proofs.Declaration.AlikeName
import Outline.Proofs.Declaration.Complexity
import Outline.Proofs.Declaration.Dependency
import Outline.Proofs.Declaration.DocBlock
import Outline.Proofs.Declaration.DocLines
import Outline.Proofs.Declaration.LeftOpen
import Outline.Proofs.Declaration.LineCheck
import Outline.Proofs.Declaration.Lower
import Outline.Proofs.Declaration.NamePattern
import Outline.Proofs.Declaration.Paired
import Outline.Proofs.Declaration.Parameter
import Outline.Proofs.Declaration.Parens
import Outline.Proofs.Declaration.Recover
import Outline.Proofs.Declaration.Spacing
import Outline.Proofs.Declaration.Split
import Outline.Proofs.Declaration.Tidy
import Outline.Proofs.Declaration.TestName
import Outline.Proofs.Declaration.TypeText
import Outline.Proofs.Entry.NameSet
import Outline.Proofs.Entry.RoundTrip
import Outline.Proofs.Entry.Sorting
import Outline.Proofs.Files.Batch
import Outline.Proofs.Files.Walk
import Outline.Proofs.Files.Path
import Outline.Proofs.Extraction.Agree
import Outline.Proofs.Extraction.Aspect
import Outline.Proofs.Extraction.Assembly
import Outline.Proofs.Extraction.Between
import Outline.Proofs.Extraction.BodyOpen
import Outline.Proofs.Extraction.Containment
import Outline.Proofs.Extraction.Contribution
import Outline.Proofs.Extraction.Cpp.Include
import Outline.Proofs.Extraction.Cpp.Initializer
import Outline.Proofs.Extraction.Cpp.Label
import Outline.Proofs.Extraction.Cpp.Moved
import Outline.Proofs.Extraction.Cpp.Namespace
import Outline.Proofs.Extraction.Cpp.NamespaceMatch
import Outline.Proofs.Extraction.Cpp.Nested
import Outline.Proofs.Extraction.Cpp.Qualified
import Outline.Proofs.Extraction.Cpp.Trailer
import Outline.Proofs.Extraction.Cpp.Rule
import Outline.Proofs.Extraction.Cpp.Section
import Outline.Proofs.Extraction.Cpp.TrailingMatch
import Outline.Proofs.Extraction.Cpp.TrailingReturn
import Outline.Proofs.Extraction.Cpp.TrailingText
import Outline.Proofs.Extraction.Cpp.Twin
import Outline.Proofs.Extraction.Declarator
import Outline.Proofs.Extraction.Scan
import Outline.Proofs.Extraction.Fresh
import Outline.Proofs.Extraction.Growth
import Outline.Proofs.Extraction.Import
import Outline.Proofs.Extraction.Invariance
import Outline.Proofs.Extraction.Inserted
import Outline.Proofs.Extraction.Java.Annotated
import Outline.Proofs.Extraction.Java.AnnotatedMember
import Outline.Proofs.Extraction.Java.AnnotatedMethod
import Outline.Proofs.Extraction.Java.ClassFront
import Outline.Proofs.Extraction.Java.ClassMatches
import Outline.Proofs.Extraction.Java.ClassScan
import Outline.Proofs.Extraction.Java.Clause
import Outline.Proofs.Extraction.Java.Constant
import Outline.Proofs.Extraction.Java.Documented
import Outline.Proofs.Extraction.Java.Element
import Outline.Proofs.Extraction.Java.ElementMatch
import Outline.Proofs.Extraction.Java.Enum
import Outline.Proofs.Extraction.Java.EnumClass
import Outline.Proofs.Extraction.Java.Front
import Outline.Proofs.Extraction.Java.Head
import Outline.Proofs.Extraction.Java.Header
import Outline.Proofs.Extraction.Java.HeaderScan
import Outline.Proofs.Extraction.Java.Import
import Outline.Proofs.Extraction.Java.Inserted
import Outline.Proofs.Extraction.Java.Reading
import Outline.Proofs.Extraction.Java.Rule
import Outline.Proofs.Extraction.Java.Twin
import Outline.Proofs.Extraction.Kind
import Outline.Proofs.Extraction.Language
import Outline.Proofs.Extraction.Literal
import Outline.Proofs.Extraction.Lookup
import Outline.Proofs.Extraction.Moved
import Outline.Proofs.Extraction.Outcome
import Outline.Proofs.Extraction.PropertyLine
import Outline.Proofs.Extraction.Recorded
import Outline.Proofs.Extraction.Registry
import Outline.Proofs.Extraction.Spelling
import Outline.Proofs.Extraction.Statement
import Outline.Proofs.Extraction.StatementEnd
import Outline.Proofs.Extraction.Subject
import Outline.Proofs.Extraction.Trace
import Outline.Proofs.Extraction.Twin
import Outline.Proofs.Extraction.Unbalanced
import Outline.Proofs.Report.OneLine
import Outline.Proofs.Report.Totals
