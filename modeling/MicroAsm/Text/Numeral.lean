import MicroAsm.Text.Basic
/-!
Numbers as text: decimal and hexadecimal numerals without leading zeros, signed numerals, numerals
of a fixed number of digits, and padding to a width.
-/
namespace MicroAsm.Text

def decimal (n : Nat) : Text := Nat.toDigits 10 n

def upperHex (n : Nat) : Text := (Nat.toDigits 16 n).map Char.toUpper

/-- A minus sign stands in front of a negative number, before whatever marks the base. -/
def signed (numeral : Nat → Text) (z : Int) : Text :=
  if z < 0 then '-' :: numeral z.natAbs else numeral z.natAbs

def integer (z : Int) : Text := signed decimal z

/-- The last `width` digits of a number in a base up to sixteen, most significant first. -/
def fixed (base : Nat) : Nat → Nat → Text
  | 0, _ => []
  | width + 1, n => fixed base width (n / base) ++ [Nat.digitChar (n % base)]

@[simp] theorem length_fixed (base width n : Nat) : (fixed base width n).length = width := by
  induction width generalizing n with
  | zero => rfl
  | succ width ih => simp [fixed, ih]

def padLeft (width : Nat) (s : Text) : Text := List.replicate (width - s.length) ' ' ++ s

def padRight (width : Nat) (s : Text) : Text := s ++ List.replicate (width - s.length) ' '

end MicroAsm.Text
