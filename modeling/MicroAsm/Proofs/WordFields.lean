import MicroAsm.Instruction.Word
import MicroAsm.Proofs.Selectors
/-!
Fields and words. Each field of an instruction has its own bits in the word, so that a field which
fits them can be read back; every word is made of fields that fit.
-/
namespace MicroAsm

theorem exchange_le {n : Nat} (h : n ≤ 3) : exchange n ≤ 3 := by
  revert n
  decide

theorem valueField_eq {z : Int} (h : -2048 ≤ z ∧ z ≤ 2047) : valueField z = z := by
  unfold valueField
  rw [Int.bmod_def]
  split <;> omega

theorem valueField_range (z : Int) : -2048 ≤ valueField z ∧ valueField z ≤ 2047 := by
  unfold valueField
  rw [Int.bmod_def]
  split <;> omega

theorem valueField_emod (z : Int) : valueField (z % 4096) = valueField z := Int.emod_bmod ..

theorem emod_valueField (z : Int) : valueField z % 4096 = z % 4096 := by
  unfold valueField
  rw [Int.bmod_def]
  split <;> omega

namespace Instruction

/-- Every field fits its bits of the word. -/
structure InRange (i : Instruction) : Prop where
  selector : ∀ u, i.get u ≤ u.limit
  alu : i.alu ≤ 15
  io : i.io ≤ 1
  value : -2048 ≤ i.value ∧ i.value ≤ 2047

/-- Nothing of a field that fits is lost in the word. -/
theorem toNat_encode {i : Instruction} (h : i.InRange) :
    i.encode.toNat = i.alu * 0x10000000 + exchange i.a * 0x4000000 + exchange i.b * 0x1000000 +
      i.c * 0x400000 + i.d * 0x200000 + exchange i.w * 0x80000 + i.f * 0x20000 + i.j * 0x8000 +
      i.o * 0x4000 + i.io * 0x2000 + (if i.twoConstants then 0 else 0x1000) +
      (i.value % 4096).toNat := by
  have ha : exchange i.a ≤ 3 := exchange_le (h.selector .a)
  have hb : exchange i.b ≤ 3 := exchange_le (h.selector .b)
  have hc : i.c ≤ 3 := h.selector .c
  have hd : i.d ≤ 1 := h.selector .d
  have hw : exchange i.w ≤ 3 := exchange_le (h.selector .w)
  have ho : i.o ≤ 1 := h.selector .o
  have hf : i.f ≤ 3 := h.selector .f
  have hj : i.j ≤ 3 := h.selector .j
  have halu := h.alu
  have hio := h.io
  have hone : (if i.twoConstants then 0 else 0x1000) ≤ 0x1000 := by
    split <;> omega
  have hvalue : (i.value % 4096).toNat < 4096 := by omega
  have hmod {n k : Nat} (hn : n ≤ k) : n % (k + 1) = n := Nat.mod_eq_of_lt (by omega)
  unfold encode
  rw [UInt32.toNat_ofNat', hmod halu, hmod ha, hmod hb, hmod hc, hmod hd, hmod hw, hmod hf,
    hmod hj, hmod ho, hmod hio]
  apply Nat.mod_eq_of_lt
  generalize (if i.twoConstants then 0 else 0x1000) = one at hone
  generalize (i.value % 4096).toNat = value at hvalue
  omega

section Digits
variable {n alu a b c d w f j o io one value : Nat}

/-- A sum of fields at their places determines each of them. -/
theorem fields_of_sum (hn : n = alu * 0x10000000 + a * 0x4000000 + b * 0x1000000 + c * 0x400000 +
      d * 0x200000 + w * 0x80000 + f * 0x20000 + j * 0x8000 + o * 0x4000 + io * 0x2000 +
      one * 0x1000 + value)
    (halu : alu ≤ 15) (ha : a ≤ 3) (hb : b ≤ 3) (hc : c ≤ 3) (hd : d ≤ 1) (hw : w ≤ 3)
    (hf : f ≤ 3) (hj : j ≤ 3) (ho : o ≤ 1) (hio : io ≤ 1) (hone : one ≤ 1)
    (hvalue : value < 4096) :
    (n / 0x10000000 % 16 = alu ∧ n / 0x4000000 % 4 = a ∧ n / 0x1000000 % 4 = b ∧
      n / 0x400000 % 4 = c ∧ n / 0x200000 % 2 = d ∧ n / 0x80000 % 4 = w) ∧
    n / 0x20000 % 4 = f ∧ n / 0x8000 % 4 = j ∧ n / 0x4000 % 2 = o ∧ n / 0x2000 % 2 = io ∧
      n / 0x1000 % 2 = one ∧ n % 4096 = value := by
  refine ⟨⟨?_, ?_, ?_, ?_, ?_, ?_⟩, ?_, ?_, ?_, ?_, ?_, ?_⟩
  all_goals omega

end Digits

theorem decode_encode {i : Instruction} (h : i.InRange) : decode i.encode = i := by
  obtain ⟨one, hone, hflag, htwo⟩ : ∃ one ≤ 1,
      (if i.twoConstants then 0 else 0x1000) = one * 0x1000 ∧ (one == 0) = i.twoConstants := by
    cases i.twoConstants with
    | true => exact ⟨0, by decide, rfl, rfl⟩
    | false => exact ⟨1, by decide, rfl, rfl⟩
  have hn := toNat_encode h
  rw [hflag] at hn
  have hlow : (i.value % 4096).toNat < 4096 := by omega
  have hvalue : (((i.value % 4096).toNat : Nat) : Int) = i.value % 4096 := by omega
  obtain ⟨⟨ealu, ea, eb, ec, ed, ew⟩, ef, ej, eo, eio, eone, evalue⟩ :=
    fields_of_sum hn h.alu (exchange_le (h.selector .a)) (exchange_le (h.selector .b))
      (h.selector .c) (h.selector .d) (exchange_le (h.selector .w)) (h.selector .f)
      (h.selector .j) (h.selector .o) h.io hone hlow
  simp only [decode, ealu, ea, eb, ec, ed, ew, ef, ej, eo, eio, eone, evalue, hvalue, htwo,
    exchange_exchange, valueField_emod, valueField_eq h.value]

theorem inRange_decode (w : Word) : (decode w).InRange where
  selector u := by
    have hpair (k : Nat) : w.toNat / k % 4 ≤ 3 := by omega
    have hbit (k : Nat) : w.toNat / k % 2 ≤ 1 := by omega
    cases u with
    | a | b | w => exact exchange_le (hpair _)
    | d | o => exact hbit _
    | c | f | j => exact hpair _
  alu := show w.toNat / 0x10000000 % 16 ≤ 15 by omega
  io := show w.toNat / 0x2000 % 2 ≤ 1 by omega
  value := by
    simp only [decode]
    exact valueField_range _

/-- A number of 32 bits is the sum of its fields. -/
theorem sum_of_fields {n : Nat} (h : n < 0x100000000) :
    n / 0x10000000 % 16 * 0x10000000 + n / 0x4000000 % 4 * 0x4000000 +
      n / 0x1000000 % 4 * 0x1000000 + n / 0x400000 % 4 * 0x400000 + n / 0x200000 % 2 * 0x200000 +
      n / 0x80000 % 4 * 0x80000 + n / 0x20000 % 4 * 0x20000 + n / 0x8000 % 4 * 0x8000 +
      n / 0x4000 % 2 * 0x4000 + n / 0x2000 % 2 * 0x2000 + n / 0x1000 % 2 * 0x1000 + n % 0x1000 =
    n := by
  have hfield (a b : Nat) : n / a % b * a + n % a = n % (a * b) := by
    rw [Nat.mod_mul, Nat.mul_comm, Nat.add_comm]
  simp only [Nat.add_assoc]
  rw [hfield 0x1000 2, hfield 0x2000 2, hfield 0x4000 2, hfield 0x8000 4, hfield 0x20000 4,
    hfield 0x80000 4, hfield 0x200000 2, hfield 0x400000 4, hfield 0x1000000 4,
    hfield 0x4000000 4, hfield 0x10000000 16]
  exact Nat.mod_eq_of_lt h

/-- Every word is the word of the instruction that it is decoded as. -/
theorem encode_decode (w : Word) : (decode w).encode = w := by
  apply UInt32.toNat_inj.1
  have hone : (if (decode w).twoConstants then 0 else 0x1000) = w.toNat / 0x1000 % 2 * 0x1000 := by
    simp only [decode, beq_iff_eq]
    split <;> omega
  have hvalue : ((decode w).value % 4096).toNat = w.toNat % 0x1000 := by
    simp only [decode, emod_valueField]
    omega
  rw [toNat_encode (inRange_decode w), hone, hvalue]
  simp only [decode, exchange_exchange]
  exact sum_of_fields w.toNat_lt

end Instruction
end MicroAsm
