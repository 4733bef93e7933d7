import Ram.Text
import Ram.Numeral
import Ram.Source.Span
import Ram.Source.Line
import Ram.Instruction
import Ram.Labels
import Ram.Program
import Ram.Assembly.Error
import Ram.Assembly.Basic
import Ram.Registers
import Ram.Machine.Fault
import Ram.Machine.Basic
import Ram.Settings
import Ram.Diagnostic
import Ram.CommandLine.Arguments
import Ram.CommandLine.Session
import Ram.Main
import Ram.Proofs.Word
import Ram.Proofs.Numeral
import Ram.Proofs.Machine.Step
import Ram.Proofs.Machine.Ideal
import Ram.Proofs.Machine.Run
import Ram.Proofs.Machine.Limit
import Ram.Proofs.Text.Ascii
import Ram.Proofs.Machine.Output
import Ram.Proofs.Machine.Truncation
import Ram.Proofs.Machine.Calls
import Ram.Proofs.Machine.Failure
import Ram.Proofs.Machine.Jumps
import Ram.Proofs.Machine.Unresolved
import Ram.Proofs.Program
import Ram.Proofs.Machine.Places
import Ram.Proofs.Labels
import Ram.Proofs.Source.Shift
import Ram.Proofs.Assembly.Concat
import Ram.Proofs.Assembly.Grammar
import Ram.Proofs.Source.Layout
import Ram.Proofs.Source.Slice
import Ram.Proofs.Source.Fields
import Ram.Proofs.Assembly.Layout
import Ram.Proofs.Assembly.Written
import Ram.Proofs.Assembly.Assembled
import Ram.Proofs.Assembly.Pass
import Ram.Proofs.Assembly.Blame
import Ram.Proofs.Assembly.Sites
import Ram.Proofs.Machine.Bounds
import Ram.Proofs.Assembly.Listing
import Ram.Proofs.Literal
import Ram.Proofs.Source.Tokens
import Ram.Proofs.Source.Join
import Ram.Proofs.Registers.History
import Ram.Proofs.Registers.Layout
import Ram.Proofs.Registers.Arguments
import Ram.Proofs.Labels.Declarations
import Ram.Proofs.Assembly.Binding
import Ram.Proofs.CommandLine.Job
import Ram.Proofs.CommandLine.Presentation
import Ram.Proofs.Machine.Termination
import Ram.Proofs.Machine.Residues
import Ram.Proofs.Assembly.Printable
import Ram.Proofs.Settings.History
