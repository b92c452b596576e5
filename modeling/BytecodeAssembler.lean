import BytecodeAssembler.Assembler.Call
import BytecodeAssembler.Assembler.Emission
import BytecodeAssembler.Assembler.Jumps
import BytecodeAssembler.Assembler.State
import BytecodeAssembler.AssemblyError
import BytecodeAssembler.BigEndian
import BytecodeAssembler.Disassembly
import BytecodeAssembler.Encoding
import BytecodeAssembler.Instruction
import BytecodeAssembler.InstructionError
import BytecodeAssembler.Json.Document
import BytecodeAssembler.Json.Form
import BytecodeAssembler.Json.Literal
import BytecodeAssembler.Json.Reader
import BytecodeAssembler.Json.Token
import BytecodeAssembler.Opcode
import BytecodeAssembler.OpcodeTable
import BytecodeAssembler.OpcodeTable.Standard
import BytecodeAssembler.Operand
import BytecodeAssembler.Proofs.Assembler.Acceptance
import BytecodeAssembler.Proofs.Assembler.Atomicity
import BytecodeAssembler.Proofs.Assembler.Binding
import BytecodeAssembler.Proofs.Assembler.Bounds
import BytecodeAssembler.Proofs.Assembler.ControlFlow
import BytecodeAssembler.Proofs.Assembler.DeadLoads
import BytecodeAssembler.Proofs.Assembler.Detours
import BytecodeAssembler.Proofs.Assembler.Effect
import BytecodeAssembler.Proofs.Assembler.Elision
import BytecodeAssembler.Proofs.Assembler.Emission
import BytecodeAssembler.Proofs.Assembler.Growth
import BytecodeAssembler.Proofs.Assembler.Image
import BytecodeAssembler.Proofs.Assembler.Journal
import BytecodeAssembler.Proofs.Assembler.JumpCount
import BytecodeAssembler.Proofs.Assembler.Labels
import BytecodeAssembler.Proofs.Assembler.Lineage
import BytecodeAssembler.Proofs.Assembler.LongCode
import BytecodeAssembler.Proofs.Assembler.LoopDistance
import BytecodeAssembler.Proofs.Assembler.Muting
import BytecodeAssembler.Proofs.Assembler.Positions
import BytecodeAssembler.Proofs.Assembler.ReadBack
import BytecodeAssembler.Proofs.Assembler.Relocation
import BytecodeAssembler.Proofs.Assembler.Resolution
import BytecodeAssembler.Proofs.Assembler.Segments
import BytecodeAssembler.Proofs.Assembler.Spelling
import BytecodeAssembler.Proofs.Assembler.Verdict
import BytecodeAssembler.Proofs.Assembler.Waiting
import BytecodeAssembler.Proofs.Disassembly
import BytecodeAssembler.Proofs.Encoding
import BytecodeAssembler.Proofs.Json.Documents
import BytecodeAssembler.Proofs.Json.Forms
import BytecodeAssembler.Proofs.Json.Literals
import BytecodeAssembler.Proofs.Json.Tokens
import BytecodeAssembler.Proofs.OpcodeTable
import BytecodeAssembler.Proofs.OpcodeTable.Admission
import BytecodeAssembler.Proofs.OperandRanges
import BytecodeAssembler.Proofs.RegisterPool.Checking
import BytecodeAssembler.Proofs.RegisterPool.Classes
import BytecodeAssembler.Proofs.RegisterPool.CyclicLists
import BytecodeAssembler.Proofs.RegisterPool.FreshClasses
import BytecodeAssembler.Proofs.RegisterPool.Lookups
import BytecodeAssembler.Proofs.RegisterPool.Representatives
import BytecodeAssembler.Proofs.RegisterPool.Rings
import BytecodeAssembler.Proofs.RegisterPool.Slots
import BytecodeAssembler.Proofs.RegisterPool.Soundness
import BytecodeAssembler.Proofs.RegisterPool.StaleHandles
import BytecodeAssembler.Proofs.RegisterPool.Storage
import BytecodeAssembler.Proofs.RegisterPool.Traversal
import BytecodeAssembler.Proofs.RegisterPool.Updates
import BytecodeAssembler.Proofs.SourceMap
import BytecodeAssembler.RegisterPool.Check
import BytecodeAssembler.RegisterPool.Operations
import BytecodeAssembler.RegisterPool.Ring
import BytecodeAssembler.RegisterPool.State
import BytecodeAssembler.SourceMap
