import MicroAsm.Instruction.Basic
import MicroAsm.Line.State
/-!
Laying out the settled state of a line as an instruction. Both ports of a line have to be the same,
and a test without an operation of its own needs one from another token.
-/
namespace MicroAsm.LineState

def inPort? (s : LineState) : Option Nat :=
  match s.selectors.a with
  | 3 => some 0
  | 4 => some 1
  | _ => none

def outPort? (s : LineState) : Option Nat :=
  match s.selectors.o with
  | 1 => some 0
  | 2 => some 1
  | _ => none

def portsAgree (s : LineState) : Bool :=
  match s.inPort?, s.outPort? with
  | some i, some o => i == o
  | _, _ => true

/-- A literal and a target that differ are split over the value field. -/
def split (s : LineState) : Bool :=
  match s.target, s.literal with
  | some target, some literal => target.toNat != literal
  | _, _ => false

/-- The halves of a split value, shifted into their places in a machine integer. -/
def halves (target : Address) (literal : Int) : Int :=
  (BitVec.ofInt 32 literal <<< 6 ||| BitVec.ofNat 32 target.toNat).toInt

def value (s : LineState) : Int :=
  match s.target, s.literal with
  | some target, some literal =>
    if target.toNat = literal then literal else halves target literal
  | some target, none => target.toNat
  | none, some literal => literal
  | none, none => 0

def layOut (s : LineState) : Instruction :=
  { s.selectors with
    a := min s.selectors.a 3
    o := min s.selectors.o 1
    alu := s.alu.elim 0 AluOp.index
    io := (s.inPort?.or s.outPort?).getD 0
    twoConstants := s.split
    value := valueField s.value }

/-- Halves that fit their places do not overlap. -/
theorem halves_eq {target : Address} {literal : Int} (h : fitsSplit target literal = true) :
    halves target literal = literal * 64 + target.toNat := by
  obtain ⟨ht, hlow, hhigh⟩ := fitsSplit_iff.1 h
  have hdisjoint : BitVec.ofInt 32 literal <<< 6 &&& BitVec.ofNat 32 target.toNat = 0#32 := by
    apply BitVec.eq_of_getLsbD_eq
    intro i hi
    by_cases hi6 : i < 6
    · simp [hi6]
    · have hbit : target.toNat.testBit i = false := by
        apply Nat.testBit_lt_two_pow
        have hpow : 2 ^ 6 ≤ 2 ^ i := Nat.pow_le_pow_right (by omega) (by omega)
        omega
      simp [hbit, BitVec.getLsbD_ofNat]
  rw [halves, ← BitVec.add_eq_or_of_and_eq_zero _ _ hdisjoint, BitVec.toInt_eq_toNat_bmod]
  simp only [BitVec.toNat_add, BitVec.toNat_shiftLeft, BitVec.toNat_ofInt, BitVec.toNat_ofNat,
    Nat.shiftLeft_eq, Int.bmod_def]
  omega

def pack (s : LineState) : Except Fault Instruction :=
  if s.needsAlu && s.alu.isNone then .error .missingAlu
  else if !s.portsAgree then .error .portMismatch
  else .ok s.layOut

end MicroAsm.LineState
