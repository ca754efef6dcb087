import VariableImport.Text.Quoted
import VariableImport.Text.Lines
import VariableImport.Json.Printer
import VariableImport.Json.Reader
import VariableImport.Path.Basic
import VariableImport.Pattern.Reader
import VariableImport.Expression.Template
import VariableImport.Error
import VariableImport.Script.Parse
import VariableImport.Path.Plain
import VariableImport.FileSystem
import VariableImport.Glob.Basic
import VariableImport.Glob.Normal
import VariableImport.Glob.Search
import VariableImport.Script.ImportCall
import VariableImport.Enumeration
import VariableImport.DispatchTable.Script
import VariableImport.Config.File
import VariableImport.CallSite.Batch
import VariableImport.CommandLine.Options
import VariableImport.CommandLine.Request
import VariableImport.CommandLine.Outcome
import VariableImport.CommandLine.Run
import VariableImport.Main
import VariableImport.Proofs.Expression.Value
import VariableImport.Proofs.FileSystem.Named
import VariableImport.Proofs.Glob.Search
import VariableImport.Proofs.CallSite.StaticHead
import VariableImport.Proofs.Glob.Braces
import VariableImport.Proofs.CallSite.RoundTrip
import VariableImport.Proofs.Script.Scanner
import VariableImport.Proofs.Script.ImportArgument
import VariableImport.Proofs.Glob.Normal
import VariableImport.Proofs.CallSite.Loose
import VariableImport.Proofs.CallSite.Redirect
import VariableImport.Proofs.CallSite.Replacement
import VariableImport.Proofs.Alias.Exchange
import VariableImport.Proofs.Alias.Target
import VariableImport.Proofs.Alias.Return
import VariableImport.Proofs.CallSite.Batch
import VariableImport.Proofs.CallSite.Comment
import VariableImport.Proofs.DispatchTable.Registration
import VariableImport.Proofs.Script.Escape
import VariableImport.Proofs.DispatchTable.Script
import VariableImport.Proofs.CallSite.Halting
import VariableImport.Proofs.CommandLine.Globs
import VariableImport.Proofs.CallSite.Consulted
import VariableImport.Proofs.Script.Grammatical
import VariableImport.Proofs.Alias.Package
import VariableImport.Proofs.Glob.Importable
import VariableImport.Proofs.CallSite.Anchored
import VariableImport.Proofs.DispatchTable.FullName
import VariableImport.Proofs.Glob.FixedPoint
import VariableImport.Proofs.Script.Template
import VariableImport.Proofs.Expression.Fault
import VariableImport.Proofs.FileSystem.Enumeration
import VariableImport.Proofs.Glob.Alternation
import VariableImport.Proofs.Script.LineEnd
import VariableImport.Proofs.Script.Rejection
