import MicroAsm.Proofs.Coherent
/-!
Canonical instructions. In a canonical instruction a field that no driven unit uses is zero, and
two equal constants are not split; it is packed from a coherent state.
-/
namespace MicroAsm
open LineState

namespace Instruction

/-- What the value field holds, given that a literal is read or not and a target is or is not. -/
def ValueFits (i : Instruction) : Prop :=
  match i.readsLiteral, i.jumpTarget?.isSome with
  | false, false => i.value = 0 ∧ i.twoConstants = false
  | true, false => (-2048 ≤ i.value ∧ i.value ≤ 2047) ∧ i.twoConstants = false
  | false, true => (0 ≤ i.value ∧ i.value ≤ 255) ∧ i.twoConstants = false
  | true, true =>
    (0 ≤ i.value ∧ i.value ≤ 255) ∧ i.twoConstants = false ∨
      (-2048 ≤ i.value ∧ i.value ≤ 2047) ∧ i.twoConstants = true ∧ i.value / 64 ≠ i.value % 64

/-- Every field is in its range, some unit is driven, and unused fields are zero. -/
structure Canonical (i : Instruction) : Prop where
  selector : ∀ u, i.get u ≤ u.limit
  driven : ∃ u, i.get u ≠ 0
  alu : i.alu ≤ 12
  aluUnused : i.readsAlu = false → i.alu = 0
  io : i.io ≤ 1
  ioUnused : i.a ≠ 3 → i.o ≠ 1 → i.io = 0
  value : i.ValueFits

theorem jumpTarget?_isSome (i : Instruction) : i.jumpTarget?.isSome = i.branches := by
  unfold jumpTarget?
  cases i.branches <;> rfl

theorem ext_fields {i k : Instruction} (hs : i.toSelectors = k.toSelectors) (ha : i.alu = k.alu)
    (hio : i.io = k.io) (htwo : i.twoConstants = k.twoConstants) (hv : i.value = k.value) :
    i = k := by
  cases i
  cases k
  simp_all

/-- The state of a line for an instruction, in which both port selectors are told apart again. -/
def unpack (i : Instruction) : LineState where
  selectors :=
    { i.toSelectors with
      a := if i.a = 3 then 3 + i.io else i.a
      o := if i.o = 1 then 1 + i.io else i.o }
  alu := if i.readsAlu then i.aluOp? else none
  literal := if i.readsLiteral then some i.literal else none
  target := i.jumpTarget?

theorem uses_unpack (i : Instruction) (u : FuncUnit) :
    u.usesAlu (i.unpack.selectors.get u) = u.usesAlu (i.get u) ∧
      u.usesLiteral (i.unpack.selectors.get u) = u.usesLiteral (i.get u) ∧
      u.usesTarget (i.unpack.selectors.get u) = u.usesTarget (i.get u) := by
  have ha : FuncUnit.a.usesAlu (i.unpack.selectors.get .a) = FuncUnit.a.usesAlu (i.get .a) := by
    simp only [FuncUnit.usesAlu, Selectors.get, unpack]
    split
    · rename_i h
      rw [h, Bool.eq_iff_iff, beq_iff_eq, beq_iff_eq]
      omega
    · rfl
  cases u with
  | a => exact ⟨ha, rfl, rfl⟩
  | _ => exact ⟨rfl, rfl, rfl⟩

theorem selector_unpack_le {i : Instruction} (hsel : ∀ u, i.get u ≤ u.limit) (hio : i.io ≤ 1)
    (u : FuncUnit) : i.unpack.selectors.get u ≤ u.lastSelector := by
  have hu := hsel u
  cases u with
  | a =>
    have ha : i.a ≤ 3 := hu
    show (if i.a = 3 then 3 + i.io else i.a) ≤ 4
    split <;> omega
  | o =>
    have ho : i.o ≤ 1 := hu
    show (if i.o = 1 then 1 + i.io else i.o) ≤ 2
    split <;> omega
  | _ => exact hu

theorem alu_unpack_isSome {i : Instruction} (h : i.alu ≤ 12) :
    i.unpack.alu.isSome = i.readsAlu := by
  have hop : i.aluOp?.isSome = true := by
    have hlt : i.alu < AluOp.all.length := Nat.lt_succ_of_le h
    rw [aluOp?, AluOp.ofIndex?, List.getElem?_eq_getElem hlt]
    rfl
  unfold unpack
  cases i.readsAlu with
  | true => exact hop
  | false => rfl

theorem literal_unpack_isSome (i : Instruction) : i.unpack.literal.isSome = i.readsLiteral := by
  unfold unpack
  cases i.readsLiteral <;> rfl

theorem literal_eq_of_unpack {i : Instruction} {v : Int} (h : i.unpack.literal = some v) :
    i.readsLiteral = true ∧ i.literal = v := by
  unfold unpack at h
  cases hl : i.readsLiteral with
  | true => simpa [hl] using h
  | false => simp [hl] at h

theorem target_eq_of_unpack {i : Instruction} {t : Address} (h : i.unpack.target = some t) :
    i.jumpTarget?.isSome = true ∧ i.branchTarget = t := by
  have hj : i.jumpTarget? = some t := h
  unfold jumpTarget? at hj ⊢
  split at hj
  · rename_i hb
    rw [if_pos hb]
    exact ⟨rfl, Option.some.inj hj⟩
  · contradiction

theorem toNat_branchTarget_whole {i : Instruction} (hv : 0 ≤ i.value ∧ i.value ≤ 255)
    (htwo : i.twoConstants = false) : (i.branchTarget.toNat : Int) = i.value := by
  have hlt : (i.value % 256).toNat < 256 := by omega
  simp only [branchTarget, htwo, Bool.false_eq_true, if_false, UInt8.toNat_ofNat_of_lt' hlt]
  omega

theorem toNat_branchTarget_half {i : Instruction} (htwo : i.twoConstants = true) :
    (i.branchTarget.toNat : Int) = i.value % 64 := by
  have hlt : (i.value % 64).toNat < 256 := by omega
  simp only [branchTarget, htwo, if_true, UInt8.toNat_ofNat_of_lt' hlt]
  omega

theorem literal_whole {i : Instruction} (h : i.twoConstants = false) : i.literal = i.value := by
  simp [literal, h]

theorem literal_half {i : Instruction} (h : i.twoConstants = true) :
    i.literal = i.value / 64 := by
  simp [literal, h]

namespace Canonical
variable {i : Instruction}

theorem shares_unpack (h : i.Canonical) : Shares i.unpack.target i.unpack.literal := by
  intro t ht v hv
  obtain ⟨hL, rfl⟩ := target_eq_of_unpack ht
  obtain ⟨hK, rfl⟩ := literal_eq_of_unpack hv
  have hvalue := h.value
  rw [ValueFits, hK, hL] at hvalue
  rw [shareField_iff]
  rcases hvalue with ⟨hrange, htwo⟩ | ⟨hrange, htwo, -⟩
  · left
    rw [literal_whole htwo, toNat_branchTarget_whole hrange htwo]
  · right
    have hhalf := toNat_branchTarget_half htwo
    rw [literal_half htwo]
    omega

theorem range_literal (h : i.Canonical) (hK : i.readsLiteral = true) :
    -2048 ≤ i.literal ∧ i.literal ≤ 2047 := by
  have hvalue := h.value
  rw [ValueFits, hK] at hvalue
  cases hL : i.jumpTarget?.isSome with
  | false =>
    rw [hL] at hvalue
    rw [literal_whole hvalue.2]
    exact hvalue.1
  | true =>
    rw [hL] at hvalue
    rcases hvalue with ⟨hrange, htwo⟩ | ⟨hrange, htwo, -⟩
    · rw [literal_whole htwo]
      omega
    · rw [literal_half htwo]
      omega

theorem coherent_unpack (h : i.Canonical) : i.unpack.Coherent where
  selector := selector_unpack_le h.selector h.io
  alu := by
    simp only [alu_unpack_isSome h.alu, readsAlu_eq_any, (uses_unpack i _).1]
  literal := by
    simp only [literal_unpack_isSome, readsLiteral_eq_any, (uses_unpack i _).2.1]
  target := by
    show i.jumpTarget?.isSome = _
    simp only [jumpTarget?_isSome, branches_eq_any, (uses_unpack i _).2.2]
  needsAlu := rfl
  shared := h.shares_unpack
  range v hv := by
    obtain ⟨hK, rfl⟩ := literal_eq_of_unpack hv
    exact h.range_literal hK

theorem inPort?_unpack (h : i.Canonical) :
    i.unpack.inPort? = if i.a = 3 then some i.io else none := by
  have ha : i.a ≤ 3 := h.selector .a
  have hio := h.io
  have hcat : ∀ a ≤ 3, ∀ io ≤ 1, FuncUnit.a.port? (if a = 3 then 3 + io else a) =
      if a = 3 then some io else none := by decide
  rw [inPort?_eq]
  exact hcat _ ha _ hio

theorem outPort?_unpack (h : i.Canonical) :
    i.unpack.outPort? = if i.o = 1 then some i.io else none := by
  have ho : i.o ≤ 1 := h.selector .o
  have hio := h.io
  have hcat : ∀ o ≤ 1, ∀ io ≤ 1, FuncUnit.o.port? (if o = 1 then 1 + io else o) =
      if o = 1 then some io else none := by decide
  rw [outPort?_eq]
  exact hcat _ ho _ hio

theorem portsAgree_unpack (h : i.Canonical) : i.unpack.portsAgree = true := by
  rw [portsAgree_iff, h.inPort?_unpack, h.outPort?_unpack]
  split
  · split
    · simp [Compatible]
    · exact compatible_none_right
  · exact compatible_none_left

theorem io_unpack (h : i.Canonical) : i.unpack.layOut.io = i.io := by
  show (i.unpack.inPort?.or i.unpack.outPort?).getD 0 = i.io
  rw [h.inPort?_unpack, h.outPort?_unpack]
  by_cases ha : i.a = 3
  · rw [if_pos ha]
    rfl
  · by_cases ho : i.o = 1
    · rw [if_neg ha, if_pos ho]
      rfl
    · rw [if_neg ha, if_neg ho, h.ioUnused ha ho]
      rfl

theorem selectors_unpack (h : i.Canonical) : i.unpack.layOut.toSelectors = i.toSelectors := by
  have ha : i.a ≤ 3 := h.selector .a
  have ho : i.o ≤ 1 := h.selector .o
  have hmin : min (if i.a = 3 then 3 + i.io else i.a) 3 = i.a := by
    split <;> omega
  have hmin' : min (if i.o = 1 then 1 + i.io else i.o) 1 = i.o := by
    split <;> omega
  ext
  · exact hmin
  · rfl
  · rfl
  · rfl
  · rfl
  · exact hmin'
  · rfl
  · rfl

theorem alu_unpack (h : i.Canonical) : i.unpack.layOut.alu = i.alu := by
  show i.unpack.alu.elim 0 AluOp.index = i.alu
  cases hr : i.readsAlu with
  | false => simp [unpack, hr, h.aluUnused hr]
  | true =>
    have hsome : i.unpack.alu.isSome = true := by rw [alu_unpack_isSome h.alu, hr]
    obtain ⟨op, hop⟩ := Option.isSome_iff_exists.1 hsome
    have hindex : i.aluOp? = some op := by simpa [unpack, hr] using hop
    rw [hop]
    exact AluOp.index_of_ofIndex? hindex

theorem value_unpack (h : i.Canonical) :
    i.unpack.layOut.value = i.value ∧ i.unpack.layOut.twoConstants = i.twoConstants := by
  have hvalue := h.value
  unfold ValueFits at hvalue
  have hlit := literal_unpack_isSome i
  have htgt : i.unpack.target.isSome = i.jumpTarget?.isSome := rfl
  rw [← hlit, ← htgt] at hvalue
  cases hv : i.unpack.literal with
  | none =>
    cases ht : i.unpack.target with
    | none =>
      rw [hv, ht] at hvalue
      rw [hvalue.1, hvalue.2]
      exact value_layOut_of_none hv ht
    | some t =>
      rw [hv, ht] at hvalue
      obtain ⟨-, rfl⟩ := target_eq_of_unpack ht
      rw [hvalue.2, ← toNat_branchTarget_whole hvalue.1 hvalue.2]
      exact value_layOut_of_target hv ht
  | some v =>
    obtain ⟨-, rfl⟩ := literal_eq_of_unpack hv
    cases ht : i.unpack.target with
    | none =>
      rw [hv, ht] at hvalue
      have hfield := value_layOut_of_literal hv ht
      rwa [literal_whole hvalue.2, valueField_eq hvalue.1, ← hvalue.2] at hfield
    | some t =>
      rw [hv, ht] at hvalue
      obtain ⟨-, rfl⟩ := target_eq_of_unpack ht
      rcases hvalue with ⟨hrange, htwo⟩ | ⟨hrange, htwo, hne⟩
      · have hwhole := toNat_branchTarget_whole hrange htwo
        rw [htwo, ← hwhole]
        exact value_layOut_of_equal hv ht (by rw [literal_whole htwo, hwhole])
      · have hhalf := toNat_branchTarget_half htwo
        have hsplit := value_layOut_of_split h.shares_unpack hv ht
          (by rwa [literal_half htwo, hhalf])
        rw [hsplit.1, hsplit.2.1, htwo, literal_half htwo, hhalf]
        exact ⟨by omega, rfl⟩

theorem pack_unpack (h : i.Canonical) : i.unpack.pack = .ok i := by
  rw [pack_eq_ok_iff]
  refine ⟨?_, h.portsAgree_unpack, ?_⟩
  · intro hn
    contradiction
  · obtain ⟨hv, htwo⟩ := h.value_unpack
    exact ext_fields h.selectors_unpack h.alu_unpack h.io_unpack htwo hv

end Canonical

end Instruction

end MicroAsm
