import MicroAsm.Instruction.Basic
/-!
The 32-bit word of an instruction, most significant field first:

    31..28 alu  27..26 A  25..24 B  23..22 C  21 D  20..19 W  18..17 F  16..15 J
    14 O  13 port  12 one constant  11..0 value

In A, B and W the word numbers the selectors 1 and 2 the other way round. A field keeps the low
bits of a number that is too large for it.
-/
namespace MicroAsm

abbrev Word := UInt32

/-- Selectors 1 and 2 change places. -/
def exchange : Nat → Nat
  | 1 => 2
  | 2 => 1
  | n => n

@[simp] theorem exchange_exchange (n : Nat) : exchange (exchange n) = n := by
  match n with
  | 0 | 1 | 2 | _ + 3 => rfl

namespace Instruction

def encode (i : Instruction) : Word :=
  UInt32.ofNat <|
    i.alu % 16 * 0x10000000 + exchange i.a % 4 * 0x4000000 + exchange i.b % 4 * 0x1000000 +
    i.c % 4 * 0x400000 + i.d % 2 * 0x200000 + exchange i.w % 4 * 0x80000 + i.f % 4 * 0x20000 +
    i.j % 4 * 0x8000 + i.o % 2 * 0x4000 + i.io % 2 * 0x2000 +
    (if i.twoConstants then 0 else 0x1000) + (i.value % 4096).toNat

def decode (w : Word) : Instruction :=
  let n := w.toNat
  { a := exchange (n / 0x4000000 % 4)
    b := exchange (n / 0x1000000 % 4)
    c := n / 0x400000 % 4
    d := n / 0x200000 % 2
    w := exchange (n / 0x80000 % 4)
    o := n / 0x4000 % 2
    f := n / 0x20000 % 4
    j := n / 0x8000 % 4
    alu := n / 0x10000000 % 16
    io := n / 0x2000 % 2
    twoConstants := n / 0x1000 % 2 == 0
    value := valueField (n % 4096 : Nat) }

end Instruction
end MicroAsm
