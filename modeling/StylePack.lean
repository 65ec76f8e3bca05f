import StylePack.Alias
import StylePack.Build
import StylePack.ClassName
import StylePack.Command
import StylePack.Command.Arguments
import StylePack.Command.Form
import StylePack.Command.Help
import StylePack.Command.Run
import StylePack.Console
import StylePack.Console.Paint
import StylePack.Console.Size
import StylePack.Css.Declaration
import StylePack.Css.Sheet
import StylePack.Css.Sheet.Edit
import StylePack.Css.Sheet.Text
import StylePack.Css.Token
import StylePack.Css.Token.Address
import StylePack.Css.Token.Lexer
import StylePack.Css.Token.Name
import StylePack.Css.Token.Number
import StylePack.Css.Token.Quoted
import StylePack.Css.Tree
import StylePack.Css.Tree.Printer
import StylePack.Css.Tree.Reader
import StylePack.Diagnostic
import StylePack.Directive
import StylePack.Disk
import StylePack.Disk.Access
import StylePack.Disk.Refusal
import StylePack.Disk.Walk
import StylePack.Download
import StylePack.Download.Address
import StylePack.Download.Charset
import StylePack.Extract
import StylePack.Failure
import StylePack.Generate
import StylePack.Json.Numeral
import StylePack.Json.Quoted
import StylePack.Json.Token
import StylePack.Json.Value
import StylePack.OrderedMap
import StylePack.Package.Descriptor
import StylePack.Package.Json
import StylePack.Package.Name
import StylePack.Package.Table
import StylePack.Path
import StylePack.Rounding
import StylePack.Session
import StylePack.Store
import StylePack.Store.Upkeep
import StylePack.Text.AsciiCase
import StylePack.Text.Blank
import StylePack.Transform
import StylePack.Main
import StylePack.Proofs.Text.Trimmed
import StylePack.Proofs.Text.Occurs
import StylePack.Proofs.Css.Scan
import StylePack.Proofs.Css.Plain
import StylePack.Proofs.Css.Slice
import StylePack.Proofs.Css.Readable
import StylePack.Proofs.Css.Reading
import StylePack.Proofs.Css.Declared
import StylePack.Proofs.Css.Whole
import StylePack.Proofs.Css.Tidy
import StylePack.Proofs.Css.Lines
import StylePack.Proofs.Css.RoundTrip
import StylePack.Proofs.Tree
import StylePack.Proofs.Sheet.Linked
import StylePack.Proofs.Sheet.Descent
import StylePack.Proofs.Sheet.Order
import StylePack.Proofs.Sheet.Coherent
import StylePack.Proofs.Sheet.Local
import StylePack.Proofs.Sheet.Numbered
import StylePack.Proofs.Sheet.Refused
import StylePack.Proofs.Css.Nested
import StylePack.Proofs.Css.Parsed
import StylePack.Proofs.Sheet.Contents
import StylePack.Proofs.Sheet.Rewriting
import StylePack.Proofs.Sheet.Sweep
import StylePack.Proofs.Sheet.Exposed
import StylePack.Proofs.Transform.Expanded
import StylePack.Proofs.Transform.Step
import StylePack.Proofs.Transform.Registered
import StylePack.Proofs.Transform.Used
import StylePack.Proofs.Transform.Sites
import StylePack.Proofs.Transform.Injected
import StylePack.Proofs.Transform.Contents
import StylePack.Proofs.Transform.Totals
import StylePack.Proofs.Transform.Report
import StylePack.Proofs.Transform.Moved
import StylePack.Proofs.Transform.Comments
import StylePack.Proofs.Transform.Settled
import StylePack.Proofs.Extract
import StylePack.Proofs.Session
import StylePack.Proofs.Transform.Call
import StylePack.Proofs.Transform.Calls
import StylePack.Proofs.OrderedMap
import StylePack.Proofs.Text.Cut
import StylePack.Proofs.Disk.Folders
import StylePack.Proofs.Json.Escapes
import StylePack.Proofs.Json.Printed
import StylePack.Proofs.Text.ByteOrder
import StylePack.Proofs.Store.Stocked
import StylePack.Proofs.Store.Shelf
import StylePack.Proofs.Disk.Files
import StylePack.Proofs.Transform.Alone
import StylePack.Proofs.Generate
import StylePack.Proofs.Generate.Collected
import StylePack.Proofs.Failure
import StylePack.Proofs.Transform.Mentioned
import StylePack.Proofs.OrderedMap.Collapse
import StylePack.Proofs.Extract.Pairs
import StylePack.Proofs.Store.Accepted
import StylePack.Proofs.Store.Loaded
import StylePack.Proofs.Json.Readers
import StylePack.Proofs.ClassName
import StylePack.Proofs.ClassName.Matches
import StylePack.Proofs.Path
import StylePack.Proofs.Disk.Changes
import StylePack.Proofs.Store.Confined
import StylePack.Proofs.Css.Words
import StylePack.Proofs.Css.Params
