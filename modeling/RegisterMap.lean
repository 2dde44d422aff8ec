import RegisterMap.Code.Cursor
import RegisterMap.Code.Trace
import RegisterMap.Command.Directory
import RegisterMap.Description.Trace
import RegisterMap.Main
import RegisterMap.Proofs.Code.Growing
import RegisterMap.Proofs.Code.Rewriting
import RegisterMap.Proofs.Code.Reducing
import RegisterMap.Proofs.Code.Wrapping
import RegisterMap.Proofs.Code.Publishing
import RegisterMap.Proofs.Exec.Meaning
import RegisterMap.Proofs.Exec.Finishing
import RegisterMap.Proofs.Exec.Program
import RegisterMap.Proofs.Exec.Counting
import RegisterMap.Proofs.Exec.Stepping
import RegisterMap.Proofs.Peripheral.Window
import RegisterMap.Proofs.Peripheral.Access
import RegisterMap.Proofs.Peripheral.Property
import RegisterMap.Proofs.Exec.Calling
import RegisterMap.Proofs.Peripheral.FieldAccess
import RegisterMap.Proofs.Exec.Words
import RegisterMap.Proofs.Peripheral.DoubleWord
import RegisterMap.Proofs.Peripheral.RegisterReads
import RegisterMap.Proofs.Peripheral.RegisterWrites
import RegisterMap.Proofs.Peripheral.HolderCode
import RegisterMap.Proofs.Peripheral.RegisterAccess
import RegisterMap.Proofs.Code.Grafting
import RegisterMap.Proofs.Register.Resets
import RegisterMap.Proofs.Exec.Acting
import RegisterMap.Proofs.Peripheral.ContainerCode
import RegisterMap.Proofs.Peripheral.ArrayWords
import RegisterMap.Proofs.Peripheral.Creating
import RegisterMap.Proofs.Peripheral.ArrayAccess
import RegisterMap.Proofs.Code.RowEdits
import RegisterMap.Proofs.Syntax.Parentheses
import RegisterMap.Proofs.Peripheral.BusAccess
import RegisterMap.Proofs.Code.Ending
import RegisterMap.Proofs.Code.Subtrees
import RegisterMap.Proofs.Code.Outcome
import RegisterMap.Proofs.Code.Settling
import RegisterMap.Proofs.Exec.Agreement
import RegisterMap.Proofs.Exec.Sense
import RegisterMap.Proofs.Exec.Neutral
import RegisterMap.Proofs.Code.Holes
import RegisterMap.Proofs.Peripheral.Filled
import RegisterMap.Proofs.Code.Nesting
import RegisterMap.Proofs.Code.Writing
import RegisterMap.Proofs.Peripheral.Refusing
import RegisterMap.Proofs.Peripheral.Generating
import RegisterMap.Proofs.Register.Scanning
import RegisterMap.Proofs.Register.Recording
import RegisterMap.Proofs.Peripheral.MemberNames
import RegisterMap.Proofs.Register.Conflicts
import RegisterMap.Proofs.Peripheral.Resetting
import RegisterMap.Proofs.Code.Joining
import RegisterMap.Proofs.Code.Declaring
import RegisterMap.Proofs.Exec.Regrouping
import RegisterMap.Proofs.Syntax.Grouping
import RegisterMap.Proofs.Code.Detecting
import RegisterMap.Proofs.Code.Headings
import RegisterMap.Proofs.Syntax.Remarks
import RegisterMap.Proofs.Peripheral.ByteMasks
import RegisterMap.Proofs.Syntax.StringLiterals
import RegisterMap.Proofs.Code.Iterating
import RegisterMap.Proofs.Description.Touring
import RegisterMap.Proofs.Description.Walking
