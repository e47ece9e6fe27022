import MicroAsm.Fault
/-!
Integer constants: an optional minus sign, an optional dollar sign for base sixteen, and digits.
A constant has to fit twelve bits, signed if it is decimal or negative and unsigned otherwise.
-/
namespace MicroAsm
open Text

/-- The value of a digit up to base thirty-six; any other character has no smaller one. -/
def digitValue (c : Char) : Nat :=
  if '0' ≤ c ∧ c ≤ '9' then c.toNat - 48
  else if 'A' ≤ c ∧ c ≤ 'Z' then c.toNat - 55
  else if 'a' ≤ c ∧ c ≤ 'z' then c.toNat - 87
  else 36

def isDigit (base : Nat) (c : Char) : Bool := digitValue c < base

def ofDigits (base : Nat) (digits : Text) : Nat :=
  digits.foldl (fun n c => n * base + digitValue c) 0

/-- A text cut into the parts of a constant. -/
structure Numeral where
  negative : Bool
  hex : Bool
  digits : Text
  rest : Text
  deriving DecidableEq, Repr

namespace Numeral

def base (n : Numeral) : Nat := if n.hex then 16 else 10

def afterDollar (negative : Bool) : Text → Numeral
  | '$' :: s => ⟨negative, true, s.takeWhile (isDigit 16), s.dropWhile (isDigit 16)⟩
  | s => ⟨negative, false, s.takeWhile (isDigit 10), s.dropWhile (isDigit 10)⟩

def cut : Text → Numeral
  | '-' :: s => afterDollar true s
  | s => afterDollar false s

/-- The largest magnitude that is told apart; larger ones are reported as this one. -/
def magnitudeLimit : Nat := 0x7FFFFFFFFFFFFFFF

def value (n : Numeral) : Int :=
  let magnitude := min (ofDigits n.base n.digits) magnitudeLimit
  if n.negative then -(magnitude : Int) else magnitude

/-- What twelve bits keep of the value. -/
def kept (n : Numeral) : Int :=
  if n.hex && !n.negative then n.value % 4096 else n.value.bmod 4096

end Numeral

/-- Reads a constant that may be followed by blanks and a comment. A text without digits in the
place of digits is no constant, which is not yet a fault. -/
def readLiteral (text : Text) : Except Fault (Option Int) :=
  let n := Numeral.cut text
  if n.digits.isEmpty then .ok none
  else if n.kept ≠ n.value then
    .error (.constantRange n.value (if n.hex then n.value % 4096 else n.kept) n.hex)
  else
    match trimLeft n.rest with
    | [] => .ok (some n.value)
    | ';' :: _ => .ok (some n.value)
    | _ => .error (.trailingCharacters n.value)

/-- A constant is refused for its size or for what follows it. -/
theorem fault_of_readLiteral {text : Text} {fault : Fault} (h : readLiteral text = .error fault) :
    (∃ value truncated hex, fault = .constantRange value truncated hex) ∨
      ∃ value, fault = .trailingCharacters value := by
  unfold readLiteral at h
  simp only at h
  split at h
  · contradiction
  · split at h
    · exact Or.inl ⟨_, _, _, (Except.error.inj h).symm⟩
    · split at h
      · contradiction
      · contradiction
      · exact Or.inr ⟨_, (Except.error.inj h).symm⟩

end MicroAsm
