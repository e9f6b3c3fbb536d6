import Sharpen.CSharp.Class
import Sharpen.CSharp.Expression
import Sharpen.CSharp.File
import Sharpen.CSharp.Interface
import Sharpen.CSharp.Layout
import Sharpen.CSharp.Member
import Sharpen.CSharp.Method
import Sharpen.CSharp.Writer
import Sharpen.Code.Bracket
import Sharpen.Code.Line
import Sharpen.Code.Mask
import Sharpen.Code.Page
import Sharpen.CommandLine.Options
import Sharpen.CommandLine.Request
import Sharpen.CommandLine.Run
import Sharpen.Decimal.Double
import Sharpen.Decimal.Shortest
import Sharpen.Decl.Basic
import Sharpen.Decl.Comment
import Sharpen.Decl.Constant
import Sharpen.Decl.Initializer
import Sharpen.Decl.Owner
import Sharpen.Decl.ParameterBlock
import Sharpen.Decl.ParameterList
import Sharpen.Decl.TypeKey
import Sharpen.FileTree.Access
import Sharpen.FileTree.Exclude
import Sharpen.FileTree.Folder
import Sharpen.FileTree.Glob
import Sharpen.FileTree.Path
import Sharpen.FileTree.Scan
import Sharpen.Header.Basic
import Sharpen.Header.MemberDecl
import Sharpen.Header.MethodDecl
import Sharpen.Header.Scan
import Sharpen.Header.TypeHead
import Sharpen.Log
import Sharpen.Log.Output
import Sharpen.Main
import Sharpen.Plan.Basic
import Sharpen.Plan.Files
import Sharpen.Plan.Merge
import Sharpen.Plan.Reconcile
import Sharpen.Plan.Texts
import Sharpen.Proofs.CSharp.CommentOrder
import Sharpen.Proofs.CSharp.Interface
import Sharpen.Proofs.Decl.WiderGap
import Sharpen.Proofs.Header.Order
import Sharpen.Proofs.Plan.Accounting
import Sharpen.Proofs.Plan.Declared
import Sharpen.Proofs.Plan.Embedded
import Sharpen.Proofs.Plan.MethodOrder
import Sharpen.Proofs.Plan.Overloads
import Sharpen.Proofs.Plan.Pairing
import Sharpen.Proofs.Plan.Parts
import Sharpen.Proofs.Plan.Progress
import Sharpen.Proofs.Plan.Registry
import Sharpen.Proofs.Plan.Sections
import Sharpen.Proofs.Plan.Task
import Sharpen.Proofs.Source.Bodies
import Sharpen.Proofs.Source.Order
import Sharpen.Proofs.Source.Readings
import Sharpen.Proofs.TypeKey.Exact
import Sharpen.Proofs.TypeKey.Spacing
import Sharpen.Proofs.TypeKey.Tokens
import Sharpen.Session.Basic
import Sharpen.Session.Convert
import Sharpen.Settings.Basic
import Sharpen.Settings.Load
import Sharpen.Source.Basic
import Sharpen.Source.Construct
import Sharpen.Source.Scan
import Sharpen.Text.Basic
import Sharpen.Text.Blank
import Sharpen.Text.Bytes
import Sharpen.Text.Digit
import Sharpen.Text.Lower
import Sharpen.Text.Quoted
import Sharpen.Text.Reader
import Sharpen.Text.Utf8
import Sharpen.Text.Word
import Sharpen.Yaml.Document
import Sharpen.Yaml.Place
import Sharpen.Yaml.Quoted
import Sharpen.Yaml.Scalar
import Sharpen.Yaml.Value
import Sharpen.Proofs.CSharp.FileNames
import Sharpen.Proofs.Plan.InlineBodies
import Sharpen.Proofs.Header.Readings
import Sharpen.Proofs.Plan.Namespace
import Sharpen.Proofs.Plan.Shown
import Sharpen.Proofs.Source.Marks
import Sharpen.Proofs.Plan.LocalOwner
import Sharpen.Proofs.Plan.Locals
import Sharpen.Proofs.CSharp.NamespaceForms
import Sharpen.Proofs.Header.Places
import Sharpen.Proofs.Header.Advance
import Sharpen.Proofs.Header.Masked
import Sharpen.Proofs.Header.NextCode
import Sharpen.Proofs.Header.Outline
import Sharpen.Proofs.Header.SameMask
import Sharpen.Proofs.TypeKey.Spelling
import Sharpen.Proofs.Decl.Closed
import Sharpen.Proofs.Decl.PlainParameter
import Sharpen.Proofs.Decl.RoundTrip
import Sharpen.Proofs.Source.Regions
import Sharpen.Proofs.Header.Growth
import Sharpen.Proofs.Header.PureVirtual
import Sharpen.Proofs.Text.LineBreaks
import Sharpen.Proofs.Text.Order
import Sharpen.Proofs.Text.Results
import Sharpen.Proofs.Decl.Tidy
import Sharpen.Proofs.Header.Tidy
import Sharpen.Proofs.Source.Tidy
import Sharpen.Proofs.Plan.Tidy
import Sharpen.Proofs.CSharp.Lines
import Sharpen.Proofs.CSharp.Signatures
import Sharpen.Proofs.CSharp.LineEndings
import Sharpen.Proofs.Code.Nested
import Sharpen.Proofs.Code.StringLiteral
import Sharpen.Proofs.Decl.Separator
import Sharpen.Proofs.Decl.InitializerList
import Sharpen.Proofs.Decl.ConstructorText
import Sharpen.Proofs.Header.OneClass
import Sharpen.Proofs.Header.Constructor
import Sharpen.Proofs.Header.Initializers
import Sharpen.Proofs.FileTree.Search
import Sharpen.Proofs.Header.ConstantOwner
import Sharpen.Proofs.Source.Reads
import Sharpen.Proofs.Source.StaticInits
import Sharpen.Proofs.Plan.StaticMembers
import Sharpen.Proofs.Source.Kept
import Sharpen.Proofs.Source.Constructor
import Sharpen.Proofs.Source.ConstructorSplit
import Sharpen.Proofs.Header.LiteralMember
import Sharpen.Proofs.Text.Solid
import Sharpen.Proofs.Decl.Conserved
import Sharpen.Proofs.TypeKey.Gathered
import Sharpen.Proofs.TypeKey.Respacing
import Sharpen.Proofs.Decl.BaseType
import Sharpen.Proofs.Decl.ArrayKey
import Sharpen.Proofs.Decl.Flags
import Sharpen.Proofs.Decl.Climbing
import Sharpen.Proofs.Decl.TakenOnce
import Sharpen.Proofs.CSharp.ParameterNames
import Sharpen.Proofs.Code.Zones
import Sharpen.Proofs.Decl.CommentCode
import Sharpen.Proofs.Header.Persistence
import Sharpen.Proofs.Header.TrailingComments
import Sharpen.Proofs.Code.BlockLines
import Sharpen.Proofs.CSharp.Reindent
import Sharpen.Proofs.Code.Reading
import Sharpen.Proofs.Decl.EndComment
import Sharpen.Proofs.Code.Pieces
import Sharpen.Proofs.CSharp.TextMacros
import Sharpen.Proofs.CSharp.ConvertedCode
import Sharpen.Proofs.CSharp.Literals
import Sharpen.Proofs.Code.TopLevel
import Sharpen.Proofs.Code.Matching
import Sharpen.Proofs.Decl.InitializerPairs
import Sharpen.Proofs.Decl.ConstantForm
import Sharpen.Proofs.Source.Depth
