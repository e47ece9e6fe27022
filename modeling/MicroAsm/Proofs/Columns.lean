import MicroAsm.Instruction.Mnemonic
import MicroAsm.Proofs.Canonical
import MicroAsm.Proofs.Digits
/-!
The columns of the text of an instruction. A column is written or left out, and the first letters
of a part tell which column it is, so the text tells what stands in every column, and with that
all that the instruction does.
-/
namespace MicroAsm
open Text

/-- How the text has a unit with a selector of a line, in which the ports have selectors of their
own. -/
def FuncUnit.mnemonic? : FuncUnit → Nat → Option Text
  | a, 1 => some "A=D".toList
  | a, 2 => some "A=M".toList
  | a, 3 => some "A=IN1".toList
  | a, 4 => some "A=IN2".toList
  | b, 1 => some "B=A".toList
  | b, 2 => some "B=M".toList
  | b, 3 => some "B=K".toList
  | c, 1 => some "C=M".toList
  | c, 2 => some "DEC".toList
  | c, 3 => some "DECNZ".toList
  | d, 1 => some "D=A".toList
  | w, 1 => some "W=A".toList
  | w, 2 => some "W=M".toList
  | w, 3 => some "W=K".toList
  | o, 1 => some "OUT1=W".toList
  | o, 2 => some "OUT2=W".toList
  | f, 1 => some "F=Z(M)".toList
  | f, 2 => some "F=N(M)".toList
  | f, 3 => some "F=P(M)".toList
  | j, 1 => some "JMP".toList
  | j, 2 => some "JMPT".toList
  | j, 3 => some "JMPF".toList
  | _, _ => none

inductive Column where
  | unit (u : FuncUnit)
  | alu | literal | target
  deriving DecidableEq, Repr

namespace Column

def all : List Column := FuncUnit.all.map unit ++ [alu, literal, target]

theorem mem_all (col : Column) : col ∈ all := by
  cases col with
  | unit u => exact List.mem_append_left _ (List.mem_map_of_mem u.mem_all)
  | _ => decide

/-- What an instruction shows in a column, if branch targets have no names. -/
def text (i : Instruction) : Column → Option Text
  | unit u => u.mnemonic? (i.unpack.selectors.get u)
  | alu => i.aluPart
  | literal => i.literalPart
  | target => i.targetPart fun _ => none

/-- The column of a part, by its first letters. -/
def ofPart? : Text → Option Column
  | 'A' :: _ => some (unit .a)
  | 'B' :: _ => some (unit .b)
  | 'C' :: _ => some (unit .c)
  | 'D' :: 'E' :: _ => some (unit .c)
  | 'D' :: _ => some (unit .d)
  | 'W' :: _ => some (unit .w)
  | 'O' :: _ => some (unit .o)
  | 'F' :: _ => some (unit .f)
  | 'J' :: _ => some (unit .j)
  | 'M' :: _ => some alu
  | 'K' :: _ => some literal
  | 'L' :: _ => some target
  | _ => none

end Column

/-- A text that is one line, if a line feed comes behind it. -/
def OneLine (t : Text) : Prop := '\n' ∉ t ∧ t.getLast? ≠ some '\r'

instance : DecidablePred OneLine :=
  fun t => inferInstanceAs (Decidable ('\n' ∉ t ∧ t.getLast? ≠ some '\r'))

/-- Nothing in the text would end a part, or the line that it stands on. -/
def OnePart (t : Text) : Prop := ',' ∉ t ∧ OneLine t

instance : DecidablePred OnePart := fun t => inferInstanceAs (Decidable (',' ∉ t ∧ OneLine t))

def Instruction.mnemonic? (i : Instruction) : FuncUnit → Option Text
  | .a => i.aMnemonic
  | .b => i.bMnemonic
  | .c => i.cMnemonic
  | .d => i.dMnemonic
  | .w => i.wMnemonic
  | .o => i.oMnemonic
  | .f => i.fMnemonic
  | .j => i.jMnemonic

section Single
variable {s t : Text}

theorem oneLine_of_notMem (hn : '\n' ∉ s) (hr : '\r' ∉ s) : OneLine s :=
  ⟨hn, fun h => hr (List.mem_of_getLast? h)⟩

/-- Only the end of a text has to be looked at for a carriage return. -/
theorem OneLine.append_left (ht : OneLine t) (hne : t ≠ []) (hs : '\n' ∉ s) :
    OneLine (s ++ t) := by
  refine ⟨?_, ?_⟩
  · simp [hs, ht.1]
  · rw [List.getLast?_append_of_ne_nil s hne]
    exact ht.2

theorem OneLine.append (hs : OneLine s) (ht : OneLine t) : OneLine (s ++ t) := by
  by_cases hne : t = []
  · simpa [hne] using hs
  · exact ht.append_left hne hs.1

theorem oneLine_decimal (n : Nat) : OneLine (decimal n) :=
  oneLine_of_notMem (notMem_decimal (by decide) n) (notMem_decimal (by decide) n)

theorem OnePart.append (hs : OnePart s) (ht : OnePart t) : OnePart (s ++ t) := by
  refine ⟨?_, hs.2.append ht.2⟩
  rw [List.mem_append, not_or]
  exact ⟨hs.1, ht.1⟩

theorem onePart_decimal (n : Nat) : OnePart (decimal n) :=
  ⟨notMem_decimal (by decide) n, oneLine_decimal n⟩

theorem onePart_integer (z : Int) : OnePart (integer z) := by
  refine ⟨notMem_integer (by decide) (by decide) z, oneLine_of_notMem ?_ ?_⟩
  · exact notMem_integer (by decide) (by decide) z
  · exact notMem_integer (by decide) (by decide) z

end Single

section Parts
variable {i k : Instruction} {u : FuncUnit} {t : Text}

theorem FuncUnit.mnemonic?_isSome {n : Nat} (h : n ≤ u.lastSelector) :
    (u.mnemonic? n).isSome = (n != 0) := by
  revert n
  cases u <;> decide

/-- A unit has different mnemonics for different selectors. -/
theorem FuncUnit.mnemonic?_injective {m n : Nat} (hm : m ≤ u.lastSelector)
    (hn : n ≤ u.lastSelector) (h : u.mnemonic? m = u.mnemonic? n) : m = n := by
  have hall : ∀ m ≤ u.lastSelector, ∀ n ≤ u.lastSelector,
      u.mnemonic? m = u.mnemonic? n → m = n := by
    cases u <;> decide
  exact hall m hm n hn h

theorem FuncUnit.ofPart?_mnemonic {n : Nat} (hn : n ≤ u.lastSelector)
    (h : u.mnemonic? n = some t) :
    Column.ofPart? t = some (.unit u) ∧ OnePart t := by
  have hall : ∀ n ≤ u.lastSelector, ∀ t ∈ u.mnemonic? n,
      Column.ofPart? t = some (.unit u) ∧ OnePart t := by
    cases u <;> decide
  exact hall n hn t h

/-- What an instruction shows of a unit, with the port bit told apart in the selector. -/
theorem mnemonic?_unpack (h : i.InRange) (u : FuncUnit) :
    i.mnemonic? u = u.mnemonic? (i.unpack.selectors.get u) := by
  cases u with
  | a =>
    have hcat : ∀ n ≤ 3, ∀ io ≤ 1, Instruction.aMnemonic { a := n, io } =
        FuncUnit.a.mnemonic? (if n = 3 then 3 + io else n) := by decide
    exact hcat _ (h.selector .a) _ h.io
  | b =>
    have hcat : ∀ n ≤ 3, Instruction.bMnemonic { b := n } = FuncUnit.b.mnemonic? n := by decide
    exact hcat _ (h.selector .b)
  | c =>
    have hcat : ∀ n ≤ 3, Instruction.cMnemonic { c := n } = FuncUnit.c.mnemonic? n := by decide
    exact hcat _ (h.selector .c)
  | d =>
    have hcat : ∀ n ≤ 1, Instruction.dMnemonic { d := n } = FuncUnit.d.mnemonic? n := by decide
    exact hcat _ (h.selector .d)
  | w =>
    have hcat : ∀ n ≤ 3, Instruction.wMnemonic { w := n } = FuncUnit.w.mnemonic? n := by decide
    exact hcat _ (h.selector .w)
  | o =>
    have hcat : ∀ n ≤ 1, ∀ io ≤ 1, Instruction.oMnemonic { o := n, io } =
        FuncUnit.o.mnemonic? (if n = 1 then 1 + io else n) := by decide
    exact hcat _ (h.selector .o) _ h.io
  | f =>
    have hcat : ∀ n ≤ 3, Instruction.fMnemonic { f := n } = FuncUnit.f.mnemonic? n := by decide
    exact hcat _ (h.selector .f)
  | j =>
    have hcat : ∀ n ≤ 3, Instruction.jMnemonic { j := n } = FuncUnit.j.mnemonic? n := by decide
    exact hcat _ (h.selector .j)

theorem mnemonics_eq (h : i.InRange) :
    i.mnemonics = FuncUnit.all.filterMap fun u => u.mnemonic? (i.unpack.selectors.get u) := by
  have hshown : i.mnemonics = FuncUnit.all.filterMap i.mnemonic? := rfl
  rw [hshown, funext (mnemonic?_unpack h)]

theorem parts_eq (h : i.InRange) :
    i.parts (fun _ => none) = Column.all.filterMap (Column.text i) := by
  rw [Instruction.parts, mnemonics_eq h, Column.all, List.filterMap_append, List.filterMap_map]
  rfl

theorem textWith_of_parts {name : Address → Option Text} (h : i.parts name ≠ []) :
    i.textWith name = ", ".toList.intercalate (i.parts name) := by
  unfold Instruction.textWith
  split
  · contradiction
  · rfl

theorem text_of_parts (h : (i.parts fun _ => none) ≠ []) :
    i.text = ", ".toList.intercalate (i.parts fun _ => none) :=
  textWith_of_parts h

theorem ofPart?_text (h : i.InRange) {col : Column} (ht : col.text i = some t) :
    Column.ofPart? t = some col ∧ OnePart t := by
  cases col with
  | unit u => exact FuncUnit.ofPart?_mnemonic (Instruction.selector_unpack_le h.selector h.io u) ht
  | alu =>
    have hmark : OnePart "M:?".toList ∧ OnePart "M:".toList := by decide
    have hop : ∀ op ∈ AluOp.all, OnePart op.spelling := by decide
    simp only [Column.text, Instruction.aluPart] at ht
    split at ht
    · split at ht
      · rename_i op _
        obtain rfl := Option.some.inj ht
        exact ⟨rfl, hmark.2.append (hop op op.mem_all)⟩
      · obtain rfl := Option.some.inj ht
        exact ⟨rfl, hmark.1.append (onePart_decimal _)⟩
    · contradiction
  | literal =>
    have hmark : OnePart "K=".toList := by decide
    simp only [Column.text, Instruction.literalPart] at ht
    split at ht
    · obtain rfl := Option.some.inj ht
      exact ⟨rfl, hmark.append (onePart_integer _)⟩
    · contradiction
  | target =>
    have hmark : OnePart "L=".toList := by decide
    obtain ⟨a, -, rfl⟩ := Option.map_eq_some_iff.1 ht
    exact ⟨rfl, hmark.append (onePart_decimal _)⟩

/-- What stands in a column is found again among the parts. -/
theorem find?_parts (h : i.InRange) (col : Column) :
    ((i.parts fun _ => none).find? fun t => Column.ofPart? t == some col) = col.text i := by
  rw [parts_eq h]
  cases hc : col.text i with
  | none =>
    rw [List.find?_eq_none]
    intro t ht heq
    obtain ⟨col', -, ht'⟩ := List.mem_filterMap.1 ht
    rw [(ofPart?_text h ht').1, beq_iff_eq, Option.some.injEq] at heq
    rw [← heq, ht'] at hc
    contradiction
  | some t =>
    have hmem : t ∈ Column.all.filterMap (Column.text i) :=
      List.mem_filterMap.2 ⟨col, col.mem_all, hc⟩
    cases hf : (Column.all.filterMap (Column.text i)).find?
        fun t => Column.ofPart? t == some col with
    | none =>
      have hne := List.find?_eq_none.1 hf t hmem
      rw [(ofPart?_text h hc).1, beq_self_eq_true] at hne
      contradiction
    | some t' =>
      obtain ⟨col', -, ht'⟩ := List.mem_filterMap.1 (List.mem_of_find?_eq_some hf)
      have heq := List.find?_some hf
      rw [(ofPart?_text h ht').1, beq_iff_eq, Option.some.injEq] at heq
      rw [← hc, ← ht', heq]

theorem parts_eq_iff (hi : i.InRange) (hk : k.InRange) :
    (i.parts fun _ => none) = (k.parts fun _ => none) ↔
      ∀ col : Column, col.text i = col.text k := by
  constructor
  · intro h col
    rw [← find?_parts hi, ← find?_parts hk, h]
  · intro h
    rw [parts_eq hi, parts_eq hk, funext h]

end Parts

end MicroAsm
