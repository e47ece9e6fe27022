import MicroAsm.Instruction.Basic
import MicroAsm.Source.Outline
/-!
A program is a list of instructions, one for each address from zero on.
-/
namespace MicroAsm

structure Program where
  instructions : List Instruction := []
  deriving DecidableEq, Repr

namespace Program

def size (p : Program) : Nat := p.instructions.length

def isEmpty (p : Program) : Bool := p.instructions.isEmpty

/-- What a push reports, and the program that it leaves behind. -/
def push (p : Program) (i : Instruction) (line : Nat) : Except Diagnostic Unit × Program :=
  if maxInstructions ≤ p.size then (.error ⟨some line, .programTooLarge maxInstructions⟩, p)
  else (.ok (), ⟨p.instructions ++ [i]⟩)

def finish (p : Program) : Except Diagnostic Program :=
  if p.isEmpty then .error ⟨none, .emptyProgram⟩ else .ok p

/-- The instructions with their addresses. -/
def addressed (p : Program) : List (Instruction × Nat) := p.instructions.zipIdx

theorem push_eq_ok_iff {p q : Program} {i : Instruction} {line : Nat} :
    p.push i line = (.ok (), q) ↔ p.size < maxInstructions ∧ q = ⟨p.instructions ++ [i]⟩ := by
  unfold push
  split
  · simp only [Prod.mk.injEq, reduceCtorEq, false_and, false_iff]
    omega
  · rename_i hroom
    simp only [Prod.mk.injEq, true_and, Nat.lt_of_not_le hroom]
    exact eq_comm

theorem push_eq_error_iff {p q : Program} {i : Instruction} {line : Nat} {d : Diagnostic} :
    p.push i line = (.error d, q) ↔
      maxInstructions ≤ p.size ∧ d = ⟨some line, .programTooLarge maxInstructions⟩ ∧ q = p := by
  unfold push
  split
  · simp_all [eq_comm]
  · simp only [Prod.mk.injEq, reduceCtorEq, false_and, false_iff]
    omega

end Program
end MicroAsm
