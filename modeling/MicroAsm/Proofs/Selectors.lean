import MicroAsm.Instruction.Basic
import MicroAsm.Proofs.Grammar
/-!
Selectors and the resources that they stand for. The selector of a unit tells which of the shared
resources the unit uses, in an instruction as well as in the reading of a token.
-/
namespace MicroAsm

namespace FuncUnit

/-- The largest selector of a unit in a line. -/
def lastSelector : FuncUnit → Nat
  | a => 4
  | d => 1
  | o => 2
  | _ => 3

/-- The largest selector of a unit in an instruction, in which both ports have the same one. -/
def limit : FuncUnit → Nat
  | d | o => 1
  | _ => 3

def usesAlu (u : FuncUnit) (n : Nat) : Bool :=
  match u with
  | a | b | w => n == 2
  | c => n == 1
  | f => n != 0
  | _ => false

def usesLiteral (u : FuncUnit) (n : Nat) : Bool :=
  match u with
  | b | w => n == 3
  | _ => false

def usesTarget (u : FuncUnit) (n : Nat) : Bool :=
  match u with
  | c => n == 3
  | j => n != 0
  | _ => false

/-- The port of a selector, if the unit is driven from or to a port. -/
def port? : FuncUnit → Nat → Option Nat
  | a, 3 | o, 1 => some 0
  | a, 4 | o, 2 => some 1
  | _, _ => none

theorem port?_le {u : FuncUnit} {n k : Nat} (h : u.port? n = some k) : k ≤ 1 := by
  unfold port? at h
  split at h
  · cases h
    decide
  · cases h
    decide
  · cases h
    decide
  · cases h
    decide
  · contradiction

@[simp] theorem port?_zero (u : FuncUnit) : u.port? 0 = none := by cases u <;> rfl

@[simp] theorem usesAlu_zero (u : FuncUnit) : u.usesAlu 0 = false := by cases u <;> rfl

@[simp] theorem usesLiteral_zero (u : FuncUnit) : u.usesLiteral 0 = false := by cases u <;> rfl

@[simp] theorem usesTarget_zero (u : FuncUnit) : u.usesTarget 0 = false := by cases u <;> rfl

theorem uses_min {u : FuncUnit} {n : Nat} (h : n ≤ u.lastSelector) :
    u.usesAlu (min n u.limit) = u.usesAlu n ∧ u.usesLiteral (min n u.limit) = u.usesLiteral n ∧
      u.usesTarget (min n u.limit) = u.usesTarget n := by
  revert n
  cases u <;> decide

end FuncUnit

namespace Instruction

theorem readsAlu_eq_any (i : Instruction) :
    i.readsAlu = FuncUnit.all.any fun u => u.usesAlu (i.get u) := by
  simp [readsAlu, FuncUnit.all, FuncUnit.usesAlu, Selectors.get, Bool.or_assoc]

theorem readsLiteral_eq_any (i : Instruction) :
    i.readsLiteral = FuncUnit.all.any fun u => u.usesLiteral (i.get u) := by
  simp [readsLiteral, FuncUnit.all, FuncUnit.usesLiteral, Selectors.get]

theorem branches_eq_any (i : Instruction) :
    i.branches = FuncUnit.all.any fun u => u.usesTarget (i.get u) := by
  simp [branches, FuncUnit.all, FuncUnit.usesTarget, Selectors.get, Bool.or_comm]

end Instruction

/-- The selector of a sense shows what the sense takes from the line. -/
structure Sense.Fits (u : FuncUnit) (e : Sense) : Prop where
  selector : e.selector ≤ u.lastSelector
  alu : u.usesAlu e.selector = (e.alu?.isSome || e.implicitAlu)
  literal : u.usesLiteral e.selector = e.literal?.isSome
  target : u.usesTarget e.selector = e.target?.isSome

theorem ReadsAs.fits {labels : LabelTable} {token : Text} {u : FuncUnit} {e : Sense}
    (h : ReadsAs labels token u e) : e.Fits u := by
  have hplain : ∀ x ∈ plainTokens, x.2.1 ≤ x.1.lastSelector ∧ x.1.usesAlu x.2.1 = false ∧
      x.1.usesLiteral x.2.1 = false ∧ x.1.usesTarget x.2.1 = false := by decide
  have htest : ∀ x ∈ testTokens, x.1 ≤ 3 ∧ FuncUnit.f.usesAlu x.1 = true := by decide
  have hop : ∀ x ∈ operationPrefixes, x.2.1 ≤ x.1.lastSelector ∧ x.1.usesAlu x.2.1 = true ∧
      x.1.usesLiteral x.2.1 = false ∧ x.1.usesTarget x.2.1 = false := by decide
  have hconst : ∀ x ∈ constantPrefixes, 3 ≤ x.1.lastSelector ∧ x.1.usesAlu 3 = false ∧
      x.1.usesLiteral 3 = true ∧ x.1.usesTarget 3 = false := by decide
  have hbranch : ∀ x ∈ branchPrefixes, x.2.1 ≤ x.1.lastSelector ∧ x.1.usesAlu x.2.1 = false ∧
      x.1.usesLiteral x.2.1 = false ∧ x.1.usesTarget x.2.1 = true := by decide
  cases h with
  | plain h =>
    obtain ⟨hs, ha, hl, ht⟩ := hplain _ h
    exact ⟨hs, ha, hl, ht⟩
  | test h =>
    obtain ⟨hs, ha⟩ := htest _ h
    exact ⟨hs, ha, rfl, rfl⟩
  | operation h =>
    obtain ⟨hs, ha, hl, ht⟩ := hop _ h
    exact ⟨hs, ha, hl, ht⟩
  | constant h =>
    obtain ⟨hs, ha, hl, ht⟩ := hconst _ h
    exact ⟨hs, ha, hl, ht⟩
  | branch h =>
    obtain ⟨hs, ha, hl, ht⟩ := hbranch _ h
    exact ⟨hs, ha, hl, ht⟩

end MicroAsm
