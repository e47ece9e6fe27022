import MicroAsm.Text.Basic
/-!
The thirteen operations of the arithmetic unit, in the order of their indices in an instruction,
with their spellings. An operand of a test carries the closing parenthesis of the test.
-/
namespace MicroAsm

inductive AluOp where
  | zero | negA | b | c | shiftRightA | add | sub | addFlag | subFlag | or | and | xor | notA
  deriving DecidableEq, Repr

namespace AluOp

def all : List AluOp :=
  [zero, negA, b, c, shiftRightA, add, sub, addFlag, subFlag, or, and, xor, notA]

theorem mem_all (op : AluOp) : op ∈ all := by cases op <;> decide

def spelling : AluOp → Text
  | zero => "0".toList
  | negA => "-A".toList
  | b => "B".toList
  | c => "C".toList
  | shiftRightA => "A>>1".toList
  | add => "A+B".toList
  | sub => "B-A".toList
  | addFlag => "A+B+F".toList
  | subFlag => "B-A-F".toList
  | or => "A|B".toList
  | and => "A&B".toList
  | xor => "A^B".toList
  | notA => "~A".toList

def index : AluOp → Nat
  | zero => 0
  | negA => 1
  | b => 2
  | c => 3
  | shiftRightA => 4
  | add => 5
  | sub => 6
  | addFlag => 7
  | subFlag => 8
  | or => 9
  | and => 10
  | xor => 11
  | notA => 12

def ofIndex? (n : Nat) : Option AluOp := all[n]?

def ofSpelling? (s : Text) : Option AluOp := all.find? fun op => op.spelling == s

def ofTestOperand? (s : Text) : Option AluOp :=
  if s.getLast? = some ')' then ofSpelling? s.dropLast else none

@[simp] theorem ofIndex?_index (op : AluOp) : ofIndex? op.index = some op := by
  cases op <;> rfl

theorem index_of_ofIndex? {n : Nat} {op : AluOp} (h : ofIndex? n = some op) : op.index = n := by
  have hcat : ∀ n < 13, ∀ op ∈ all, ofIndex? n = some op → op.index = n := by decide
  obtain ⟨hn, -⟩ := List.getElem?_eq_some_iff.1 h
  exact hcat n hn op op.mem_all h

theorem spelling_injective {p q : AluOp} (h : p.spelling = q.spelling) : p = q := by
  revert h
  cases p <;> cases q <;> decide

theorem ofSpelling?_eq_some_iff {s : Text} {op : AluOp} :
    ofSpelling? s = some op ↔ op.spelling = s := by
  constructor
  · intro h
    simpa using List.find?_some h
  · rintro rfl
    cases op <;> decide

end AluOp
end MicroAsm
