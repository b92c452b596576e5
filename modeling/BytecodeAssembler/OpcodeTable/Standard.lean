import BytecodeAssembler.OpcodeTable

/-! # The standard table

One declaration for every opcode of the instruction set.
-/
namespace BytecodeAssembler.OpcodeTable

def standardDescriptors : List Descriptor :=
  [⟨.wide, .none, []⟩, ⟨.extraWide, .none, []⟩, ⟨.debugger, .none, []⟩, ⟨.nop, .none, []⟩,
   ⟨.ldaZero, .write, []⟩, ⟨.ldaSmi, .write, [.imm]⟩, ⟨.ldaUndefined, .write, []⟩,
   ⟨.ldaNull, .write, []⟩, ⟨.ldaTheHole, .write, []⟩, ⟨.ldaTrue, .write, []⟩,
   ⟨.ldaFalse, .write, []⟩, ⟨.ldaConstant, .write, [.idx]⟩,
   ⟨.ldaCurrentContextSlot, .write, [.idx]⟩, ⟨.ldar, .write, [.reg]⟩, ⟨.star, .read, [.regOut]⟩,
   ⟨.mov, .none, [.reg, .regOut]⟩, ⟨.ldaGlobal, .write, [.idx, .idx]⟩,
   ⟨.staGlobal, .read, [.idx, .idx]⟩, ⟨.add, .readWrite, [.reg, .idx]⟩,
   ⟨.sub, .readWrite, [.reg, .idx]⟩, ⟨.mul, .readWrite, [.reg, .idx]⟩,
   ⟨.testEqual, .readWrite, [.reg, .idx]⟩, ⟨.testLessThan, .readWrite, [.reg, .idx]⟩,
   ⟨.logicalNot, .readWrite, []⟩, ⟨.typeOf, .readWrite, []⟩,
   ⟨.callProperty, .write, [.reg, .regList, .regCount, .idx]⟩,
   ⟨.callRuntime, .write, [.runtimeId, .regList, .regCount]⟩, ⟨.jump, .none, [.uimm]⟩,
   ⟨.jumpConstant, .none, [.idx]⟩, ⟨.jumpIfTrue, .read, [.uimm]⟩, ⟨.jumpIfFalse, .read, [.uimm]⟩,
   ⟨.jumpLoop, .none, [.uimm, .imm]⟩, ⟨.ret, .read, []⟩, ⟨.throw, .read, []⟩,
   ⟨.rethrow, .read, []⟩, ⟨.abort, .none, [.flag8]⟩,
   ⟨.suspendGenerator, .read, [.reg, .regList, .regCount, .uimm]⟩,
   ⟨.resumeGenerator, .write, [.reg, .regOut, .regCount]⟩, ⟨.illegal, .none, []⟩]

def standard : OpcodeTable := ⟨standardDescriptors, by decide⟩

instance : Inhabited OpcodeTable := ⟨standard⟩

end BytecodeAssembler.OpcodeTable
