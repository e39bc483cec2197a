import Jvm.Text.Utf16
import Jvm.Text.ModifiedUtf8
import Jvm.Text.Blank
import Jvm.Text.Hex
import Jvm.Decimal.Layout
import Jvm.Arithmetic
import Jvm.Stack
import Jvm.Value
import Jvm.Fault
import Jvm.ClassFile.References
import Jvm.Bytecode.Decode
import Jvm.Bytecode.Listing
import Jvm.Assembly.Reading
import Jvm.Heap.Collect
import Jvm.Heap.Barrier
import Jvm.Heap.Reading
import Jvm.CoreClasses
import Jvm.Linking.Verification
import Jvm.Linking.Table
import Jvm.Linking.Loading
import Jvm.Linking.Resolution
import Jvm.Linking.Initialization
import Jvm.Linking.Reading
import Jvm.Linking.Files
import Jvm.Execution.Calculation
import Jvm.Execution.Strings
import Jvm.Execution.Throwing
import Jvm.Execution.Natives.Basic
import Jvm.Execution.Natives.Objects
import Jvm.Execution.Natives.ArrayCopy
import Jvm.Execution.Natives.Printing
import Jvm.Execution.Natives.Host
import Jvm.Execution.Natives.Reading
import Jvm.Execution.Calls
import Jvm.Execution.Fields
import Jvm.Execution.Creation
import Jvm.Execution.Instructions
import Jvm.Execution.Run
import Jvm.Execution.Threads
import Jvm.CommandLine.Launch
import Jvm.Main
import Jvm.Proofs.Heap.Emptied
import Jvm.Proofs.Heap.Budget
import Jvm.Proofs.Bytecode.Decoding
import Jvm.Proofs.Assembly.Agreement
import Jvm.Proofs.Linking.Hierarchy
import Jvm.Proofs.Linking.Loaded
import Jvm.Proofs.Linking.Loads
import Jvm.Proofs.Linking.MethodTables
import Jvm.Proofs.Execution.Dispatch
import Jvm.Proofs.Linking.Building
import Jvm.Proofs.Linking.Entering
import Jvm.Proofs.Linking.Selection
import Jvm.Proofs.Linking.Specificity
import Jvm.Proofs.Execution.FieldValues
import Jvm.Proofs.Execution.Interning
import Jvm.Proofs.Linking.Termination
import Jvm.Proofs.Linking.FieldLookup
import Jvm.Proofs.Linking.Delegation
import Jvm.Proofs.ClassFile.RoundTrip
import Jvm.Proofs.ClassFile.Accepted
import Jvm.Proofs.Assembly.Described
import Jvm.Proofs.Assembly.Counts
import Jvm.Proofs.Execution.Selecting
import Jvm.Proofs.Execution.Underway
import Jvm.Proofs.Execution.Words
import Jvm.Proofs.Linking.FinalMethods
import Jvm.Proofs.Linking.Transparency
import Jvm.Proofs.Text.Groups
import Jvm.Proofs.Execution.ArrayCopies
import Jvm.Proofs.Execution.NestedArrays
import Jvm.Proofs.ClassFile.Prefixes
import Jvm.Proofs.ClassFile.Scanning
import Jvm.Proofs.ClassFile.Cursors
import Jvm.Proofs.Heap.Monitors
import Jvm.Proofs.CommandLine.Spellings
import Jvm.Proofs.Assembly.Sharing
import Jvm.Proofs.Execution.Balance
