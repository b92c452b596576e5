import BytecodeAssembler.Assembler.Jumps

/-! # Runs of calls

What a client asks of an assembler, and the answers to a sequence of requests. A request that fails
does not end the sequence.
-/
namespace BytecodeAssembler

namespace Assembler

inductive Call
  | write (i : Instruction)
  | jump (i : Instruction) (label : Nat)
  | loop (i : Instruction) (header : Nat)
  | newLabel
  | bind (label : Nat)
  | startBlock
  deriving DecidableEq

inductive Reply
  | done
  | label (index : Nat)
  deriving DecidableEq

def Call.perform : Call → Assembly Reply
  | .write i => do Assembly.write i; return .done
  | .jump i label => do Assembly.writeJump i label; return .done
  | .loop i header => do Assembly.writeLoop i header; return .done
  | .newLabel => do
    let index := (← get).labels.size
    modify (·.addLabel)
    return .label index
  | .bind label => do Assembly.bindLabel label; return .done
  | .startBlock => do modify (·.startBlock); return .done

def step (a : Assembler) (c : Call) : Except AssemblyError Reply × Assembler :=
  match c.perform.run a with
  | .ok r a => (.ok r, a)
  | .error e a => (.error e, a)

def run (a : Assembler) : List Call → List (Except AssemblyError Reply) × Assembler
  | [] => ([], a)
  | c :: cs =>
    let (r, a) := a.step c
    let (rs, a) := run a cs
    (r :: rs, a)

end Assembler
end BytecodeAssembler
