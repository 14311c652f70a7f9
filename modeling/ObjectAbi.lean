import ObjectAbi.Emission.Instruction
import ObjectAbi.EntryPoints
import ObjectAbi.Layout.Object
import ObjectAbi.Nesting
import ObjectAbi.Session.Basic
import ObjectAbi.Tree.Equality
import ObjectAbi.UnitOptions
import ObjectAbi.Proofs.ClassTable.Members
import ObjectAbi.Proofs.ClassTable.Records
import ObjectAbi.Proofs.ClassTable.Hierarchy
import ObjectAbi.Proofs.ClassTable.KnownTypes
import ObjectAbi.Proofs.Layout.Remembered
import ObjectAbi.Proofs.Layout.PlainRecursion
import ObjectAbi.Proofs.Layout.FieldStability
import ObjectAbi.Proofs.Layout.SlotStability
import ObjectAbi.Proofs.Layout.SlotSignatures
import ObjectAbi.Proofs.Layout.SlotLookup
import ObjectAbi.Proofs.Symbol.Decoding
import ObjectAbi.Proofs.Symbol.Signature
import ObjectAbi.Proofs.Symbol.Constructors
import ObjectAbi.Proofs.ClassTable.Walks
import ObjectAbi.Proofs.Layout.FieldPartition
import ObjectAbi.Proofs.Layout.Correspondence
import ObjectAbi.Proofs.Layout.FieldNames
import ObjectAbi.Proofs.ClassTable.ErasedTables
import ObjectAbi.Proofs.Layout.ErasedTypes
import ObjectAbi.Proofs.ClassTable.Growth
import ObjectAbi.Proofs.Symbol.ClassNames
import ObjectAbi.Proofs.Layout.Frame
import ObjectAbi.Proofs.Symbol.Globals
import ObjectAbi.Proofs.Layout.BoundedWalks
import ObjectAbi.Proofs.Session.ClosedTables
import ObjectAbi.Proofs.Session.Replies
import ObjectAbi.Proofs.ClassTable.Runs
import ObjectAbi.Proofs.Layout.Interleaving
import ObjectAbi.Proofs.ClassTable.SubclassOrder
import ObjectAbi.Proofs.Layout.FieldPositions
import ObjectAbi.Proofs.Layout.VirtualDispatch
import ObjectAbi.Proofs.Layout.FieldListLog
import ObjectAbi.Proofs.DebugScopes
import ObjectAbi.Proofs.Layout.RuntimeClasses
import ObjectAbi.Proofs.Layout.PlainFields
import ObjectAbi.Proofs.Layout.BuiltinClasses
import ObjectAbi.Proofs.Layout.SlotNumbers
import ObjectAbi.Proofs.EntryPoints
