import Mathlib.Data.List.Perm.Basic
import MicroAsm.Line.State
import MicroAsm.Line.Reading
import MicroAsm.Proofs.Failure
/-!
What the tokens of a line say, apart from how they are spelled. A clause is a unit with a meaning,
and accepting clauses one after another is reading a line. Only the operand `0` of B and W has two
readings; which of them it takes depends on the operation that the line has at that point.
-/
namespace MicroAsm

/-- One way of reading an assignment. -/
inductive Sense where
  | plain (selector : Nat)
  | operation (selector : Nat) (op : AluOp)
  | constant (value : Int)
  | branch (selector : Nat) (target : Address)
  /-- A test of the operation that another token names. -/
  | test (selector : Nat)
  deriving DecidableEq, Repr

namespace Sense

def selector : Sense → Nat
  | plain n | operation n _ | branch n _ | test n => n
  | constant _ => 3

def alu? : Sense → Option AluOp
  | operation _ op => some op
  | _ => none

def literal? : Sense → Option Int
  | constant value => some value
  | _ => none

def target? : Sense → Option Address
  | branch _ target => some target
  | _ => none

def implicitAlu : Sense → Bool
  | test _ => true
  | _ => false

theorem alu?_eq_some_iff {e : Sense} {op : AluOp} :
    e.alu? = some op ↔ ∃ n, e = operation n op := by
  cases e <;> simp [alu?]

theorem literal?_eq_some_iff {e : Sense} {v : Int} : e.literal? = some v ↔ e = constant v := by
  cases e <;> simp [literal?]

theorem target?_eq_some_iff {e : Sense} {t : Address} :
    e.target? = some t ↔ ∃ n, e = branch n t := by
  cases e <;> simp [target?]

end Sense

inductive Meaning where
  | definite (sense : Sense)
  /-- The operand `0` of B or W. -/
  | zero
  deriving DecidableEq, Repr

namespace Meaning

/-- Zero is an operation unless the line has another one, and a constant otherwise. -/
def sense (alu : Option AluOp) : Meaning → Sense
  | definite e => e
  | zero => if alu.all (· == .zero) then .operation 2 .zero else .constant 0

@[simp] theorem sense_definite (alu : Option AluOp) (e : Sense) : (definite e).sense alu = e := rfl

theorem sense_zero_of_all {alu : Option AluOp} (h : alu.all (· == .zero) = true) :
    zero.sense alu = .operation 2 .zero := if_pos h

theorem sense_zero_of_not_all {alu : Option AluOp} (h : alu.all (· == .zero) = false) :
    zero.sense alu = .constant 0 := by simp [sense, h]

end Meaning

structure Clause where
  unit : FuncUnit
  meaning : Meaning
  deriving DecidableEq, Repr

namespace Clause

def senseIn (c : Clause) (s : LineState) : Sense := c.meaning.sense s.alu

/-- The operation that a clause names in every line. -/
def op? (c : Clause) : Option AluOp :=
  match c.meaning with
  | .definite e => e.alu?
  | .zero => none

def target? (c : Clause) : Option Address :=
  match c.meaning with
  | .definite e => e.target?
  | .zero => none

/-- However it is read, the clause leaves its unit busy. -/
def Drives (c : Clause) : Prop := ∀ alu, (c.meaning.sense alu).selector ≠ 0

theorem senseIn_definite {c : Clause} {e : Sense} (h : c.meaning = .definite e) (s : LineState) :
    c.senseIn s = e := by
  rw [senseIn, h, Meaning.sense_definite]

theorem op?_eq_some_iff {c : Clause} {op : AluOp} :
    c.op? = some op ↔ ∃ n, c.meaning = .definite (.operation n op) := by
  unfold op?
  cases c.meaning with
  | definite e => simpa using Sense.alu?_eq_some_iff
  | zero => simp

theorem target?_senseIn (c : Clause) (s : LineState) : (c.senseIn s).target? = c.target? := by
  unfold senseIn target?
  cases c.meaning with
  | definite e => rfl
  | zero =>
    simp only [Meaning.sense]
    split <;> rfl

end Clause

/-- Two claims to a resource that can both be met. -/
def Compatible {α : Type} (x y : Option α) : Prop := ∀ a ∈ x, ∀ b ∈ y, a = b

/-- A claim that another one includes. -/
def Within {α : Type} (x y : Option α) : Prop := ∀ a, x = some a → y = some a

def Shares (target : Option Address) (literal : Option Int) : Prop :=
  ∀ t ∈ target, ∀ v ∈ literal, shareField t v = true

instance {α : Type} [DecidableEq α] (x y : Option α) : Decidable (Compatible x y) :=
  inferInstanceAs (Decidable (∀ a ∈ x, ∀ b ∈ y, a = b))

instance (target : Option Address) (literal : Option Int) : Decidable (Shares target literal) :=
  inferInstanceAs (Decidable (∀ t ∈ target, ∀ v ∈ literal, shareField t v = true))

section Compatible
variable {α : Type} {x y z : Option α} {a : α}

@[simp] theorem compatible_none_left : Compatible none y := by simp [Compatible]

@[simp] theorem compatible_none_right : Compatible x none := by simp [Compatible]

theorem compatible_some_left : Compatible (some a) y ↔ ∀ b, y = some b → a = b := by
  simp [Compatible]

theorem compatible_some_left_iff_all [BEq α] [LawfulBEq α] :
    Compatible (some a) y ↔ y.all (· == a) = true := by
  rw [compatible_some_left]
  cases y with
  | none => simp
  | some b => exact ⟨fun h => by simp [h b rfl], fun h c hc => by simp_all⟩

theorem Compatible.symm (h : Compatible x y) : Compatible y x := by
  intro b hb a ha
  exact (h a ha b hb).symm

theorem Compatible.or_eq_some_iff (h : Compatible x y) :
    x.or y = some a ↔ x = some a ∨ y = some a := by
  cases x with
  | none => simp
  | some b =>
    rw [compatible_some_left] at h
    constructor
    · intro he
      exact Or.inl he
    · rintro (he | he)
      · exact he
      · rw [h a he]
        rfl

theorem Compatible.or_left (hx : Compatible x z) (hy : Compatible y z) :
    Compatible (x.or y) z := by
  cases x with
  | none => exact hy
  | some a => exact hx

theorem shareField_iff {t : Address} {v : Int} :
    shareField t v = true ↔ v = t.toNat ∨ t.toNat < 64 ∧ -32 ≤ v ∧ v ≤ 31 := by
  simp only [shareField, Bool.or_eq_true, beq_iff_eq, fitsSplit_iff]
  exact or_congr_left eq_comm

theorem shares_some_left {t : Address} {v : Option Int} :
    Shares (some t) v ↔ v.all (shareField t) = true := by
  cases v <;> simp [Shares]

theorem shares_some_right {t : Option Address} {v : Int} :
    Shares t (some v) ↔ t.all (shareField · v) = true := by
  cases t <;> simp [Shares]

theorem within_none : Within none y := by simp [Within]

theorem Within.compatible (hx : Within x z) (hy : Within y z) : Compatible x y := by
  intro a ha b hb
  have h := (hx a ha).symm.trans (hy b hb)
  exact Option.some.inj h

theorem Within.or (hx : Within x z) (hy : Within y z) : Within (x.or y) z := by
  intro a h
  rcases Option.or_eq_some_iff.1 h with h | ⟨-, h⟩
  · exact hx a h
  · exact hy a h

theorem Within.or_eq (hx : Within x z) (h : y = z) : x.or y = z := by
  cases x with
  | none => exact h
  | some a => exact (hx a rfl).symm

end Compatible

namespace LineState

/-- The state with an assignment added, whether or not it was free to be added. -/
def join (s : LineState) (u : FuncUnit) (e : Sense) : LineState where
  selectors := s.selectors.set u e.selector
  alu := e.alu?.or s.alu
  literal := e.literal?.or s.literal
  target := e.target?.or s.target
  needsAlu := s.needsAlu || e.implicitAlu

/-- The shared resources are free for a sense, apart from its branch target. -/
structure Accepts (s : LineState) (e : Sense) : Prop where
  alu : Compatible e.alu? s.alu
  literal : Compatible e.literal? s.literal
  newLiteral : Shares s.target e.literal?
  newTarget : Shares e.target? s.literal

instance (s : LineState) (e : Sense) : Decidable (s.Accepts e) :=
  decidable_of_iff
    (Compatible e.alu? s.alu ∧ Compatible e.literal? s.literal ∧ Shares s.target e.literal? ∧
      Shares e.target? s.literal)
    ⟨fun ⟨h₁, h₂, h₃, h₄⟩ => ⟨h₁, h₂, h₃, h₄⟩, fun ⟨h₁, h₂, h₃, h₄⟩ => ⟨h₁, h₂, h₃, h₄⟩⟩

def accept (s : LineState) (c : Clause) : Except Refusal LineState :=
  if s.taken c.unit then .error (.hard (.unitUsedTwice c.unit))
  else if ¬Compatible (c.senseIn s).target? s.target then .error (.hard .conflictingTargets)
  else if s.Accepts (c.senseIn s) then .ok (s.join c.unit (c.senseIn s))
  else .error .inconsistent

def acceptAll (s : LineState) (cs : List Clause) : Except Refusal LineState := cs.foldlM accept s

@[simp] theorem acceptAll_nil (s : LineState) : s.acceptAll [] = .ok s := rfl

theorem acceptAll_cons (s : LineState) (c : Clause) (cs : List Clause) :
    s.acceptAll (c :: cs) = (s.accept c).bind fun t => t.acceptAll cs := rfl

theorem acceptAll_cons_eq_ok_iff {s t : LineState} {c : Clause} {cs : List Clause} :
    s.acceptAll (c :: cs) = .ok t ↔ ∃ r, s.accept c = .ok r ∧ r.acceptAll cs = .ok t :=
  bind_eq_ok_iff

theorem accept_eq_ok_iff {s t : LineState} {c : Clause} :
    s.accept c = .ok t ↔ s.taken c.unit = false ∧ Compatible (c.senseIn s).target? s.target ∧
      s.Accepts (c.senseIn s) ∧ t = s.join c.unit (c.senseIn s) := by
  unfold accept
  split_ifs with ht hc ha
  · simp only [ht, Bool.true_eq_false, false_and]
  · have hf : s.taken c.unit = false := by simpa using ht
    simp only [Except.ok.injEq, hf, hc, ha, true_and]
    exact eq_comm
  · simp only [ha, false_and, and_false]
  · simp only [hc, false_and, and_false]

theorem accept_eq_error_iff {s : LineState} {c : Clause} {refusal : Refusal} :
    s.accept c = .error refusal ↔
      (s.taken c.unit = true ∧ refusal = .hard (.unitUsedTwice c.unit)) ∨
      (s.taken c.unit = false ∧ ¬Compatible (c.senseIn s).target? s.target ∧
        refusal = .hard .conflictingTargets) ∨
      (s.taken c.unit = false ∧ Compatible (c.senseIn s).target? s.target ∧
        ¬s.Accepts (c.senseIn s) ∧ refusal = .inconsistent) := by
  unfold accept
  split_ifs with ht hc ha
  · simp only [ht, Except.error.injEq, Bool.true_eq_false, true_and, false_and, or_false]
    exact eq_comm
  · have hf : s.taken c.unit = false := by simpa using ht
    simp [hf, hc, ha]
  · have hf : s.taken c.unit = false := by simpa using ht
    simp only [hf, hc, ha, Except.error.injEq, Bool.false_eq_true, not_true_eq_false,
      not_false_eq_true, true_and, false_and, false_or]
    exact eq_comm
  · have hf : s.taken c.unit = false := by simpa using ht
    simp only [hf, hc, Except.error.injEq, Bool.false_eq_true, not_false_eq_true, true_and,
      false_and, false_or, or_false]
    exact eq_comm

theorem taken_join (s : LineState) (u v : FuncUnit) (e : Sense) :
    (s.join u e).taken v = if v = u then e.selector != 0 else s.taken v :=
  taken_drive s u v e.selector

/-- Reading zero settles how zero is read. -/
theorem senseIn_join (s : LineState) (u : FuncUnit) (c : Clause) :
    c.senseIn (s.join u (c.senseIn s)) = c.senseIn s := by
  unfold Clause.senseIn
  cases c.meaning with
  | definite e => rfl
  | zero =>
    cases h : s.alu.all (· == .zero) with
    | true => simp [join, Meaning.sense, h, Sense.alu?]
    | false => simp [join, Meaning.sense, h, Sense.alu?]

end LineState
end MicroAsm
