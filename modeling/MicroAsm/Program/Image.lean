import MicroAsm.Instruction.Word
import MicroAsm.Program.Basic
import MicroAsm.Text.Numeral
import MicroAsm.Text.Utf8
/-!
The binary image of a program: the words of its instructions, least significant byte first. An
image holds at least one word and no more than a program may.
-/
namespace MicroAsm
open Text

def Word.toBytes (w : Word) : Bytes :=
  let n := w.toNat
  [UInt8.ofNat n, UInt8.ofNat (n / 0x100), UInt8.ofNat (n / 0x10000), UInt8.ofNat (n / 0x1000000)]

def Word.ofBytes (b₀ b₁ b₂ b₃ : UInt8) : Word :=
  UInt32.ofNat (b₀.toNat + b₁.toNat * 0x100 + b₂.toNat * 0x10000 + b₃.toNat * 0x1000000)

/-- The whole words at the front of a byte sequence. -/
def wordsOfBytes : Bytes → List Word
  | b₀ :: b₁ :: b₂ :: b₃ :: bytes => Word.ofBytes b₀ b₁ b₂ b₃ :: wordsOfBytes bytes
  | _ => []

inductive ImageFault where
  | misaligned (bytes : Nat)
  | empty
  | tooLarge (words : Nat)
  deriving DecidableEq, Repr

def ImageFault.message : ImageFault → Text
  | misaligned n => "image length ".toList ++ decimal n ++ " is not a multiple of 4".toList
  | empty => "image is empty".toList
  | tooLarge n => "image holds ".toList ++ decimal n ++ " instructions, at most 255 fit".toList

namespace Program

def words (p : Program) : List Word := p.instructions.map Instruction.encode

def toBytes (p : Program) : Bytes := p.words.flatMap Word.toBytes

def ofBytes (bytes : Bytes) : Except ImageFault Program :=
  let count := bytes.length / 4
  if bytes.length % 4 ≠ 0 then .error (.misaligned bytes.length)
  else if count = 0 then .error .empty
  else if maxInstructions < count then .error (.tooLarge count)
  else .ok ⟨(wordsOfBytes bytes).map Instruction.decode⟩

end Program
end MicroAsm
