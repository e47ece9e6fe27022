import MicroAsm.Program.Basic
/-!
Control flow between the instructions of a program. An unconditional jump leaves only for its
target; any other instruction goes on to the next one, if there is one, and may have a target too.
-/
namespace MicroAsm

inductive EdgeKind where
  | fallthrough | branch | condBranch
  deriving DecidableEq, Repr

def EdgeKind.name : EdgeKind → Text
  | fallthrough => "Fallthrough".toList
  | branch => "Branch".toList
  | condBranch => "CondBranch".toList

structure Edge where
  source : Address
  target : Address
  kind : EdgeKind
  deriving DecidableEq, Repr

def Instruction.jumps (i : Instruction) : Bool := i.j == 1

/-- The edges that leave an address, with or without an instruction after it. -/
def Instruction.edges (i : Instruction) (pc : Address) (hasNext : Bool) : List Edge :=
  (i.jumpTarget?.map fun target =>
    (⟨pc, target, if i.jumps then .branch else .condBranch⟩ : Edge)).toList ++
  if !i.jumps && hasNext then [⟨pc, pc + 1, .fallthrough⟩] else []

def Program.edges (p : Program) : List Edge :=
  p.addressed.flatMap fun (i, pc) => i.edges (UInt8.ofNat pc) (pc + 1 < p.size)

/-- The addresses that a branch leads to, in ascending order. -/
def branchTargets (edges : List Edge) : List Address :=
  ((List.range 256).map UInt8.ofNat).filter fun pc =>
    edges.any fun e => e.kind != .fallthrough && e.target == pc

end MicroAsm
