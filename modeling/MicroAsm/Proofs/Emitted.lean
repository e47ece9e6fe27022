import MicroAsm.Proofs.Canonical
import MicroAsm.Proofs.Writing
/-!
The instructions that solving can give. They are the canonical ones, and each of them has a line.
-/
namespace MicroAsm
open LineState

section Lines
variable {labels : LabelTable} {tokens : List Text} {cs : List Clause} {s : LineState}
  (hm : List.Forall₂ (Means labels) tokens cs) (h : Settled cs s)
include hm h

theorem Settled.valueFits_layOut : s.layOut.ValueFits := by
  unfold Instruction.ValueFits
  rw [Instruction.jumpTarget?_isSome, h.readsLiteral_layOut hm, h.branches_layOut hm]
  cases hl : s.literal with
  | none =>
    cases ht : s.target with
    | none => exact value_layOut_of_none hl ht
    | some t =>
      obtain ⟨hv, htwo⟩ := value_layOut_of_target hl ht
      have hlt := t.toNat_lt
      exact ⟨by omega, htwo⟩
  | some v =>
    cases ht : s.target with
    | none => exact ⟨value_layOut_range s, (value_layOut_of_literal hl ht).2⟩
    | some t =>
      by_cases he : v = t.toNat
      · obtain ⟨hv, htwo⟩ := value_layOut_of_equal hl ht he
        have hlt := t.toNat_lt
        exact Or.inl ⟨by omega, htwo⟩
      · obtain ⟨hv, htwo, hlt, hlow, hhigh⟩ := value_layOut_of_split h.shared hl ht he
        exact Or.inr ⟨value_layOut_range s, htwo, by omega⟩

theorem Settled.io_layOut (ha : s.layOut.a ≠ 3) (ho : s.layOut.o ≠ 1) : s.layOut.io = 0 := by
  have hport : ∀ n ≤ 4, min n 3 ≠ 3 → FuncUnit.a.port? n = none := by decide
  have hport' : ∀ n ≤ 2, min n 1 ≠ 1 → FuncUnit.o.port? n = none := by decide
  apply io_layOut_of_none
  · rw [inPort?_eq]
    exact hport _ (h.selector_le hm .a) ha
  · rw [outPort?_eq]
    exact hport' _ (h.selector_le hm .o) ho

theorem Settled.canonical_layOut (hne : cs ≠ []) : s.layOut.Canonical where
  selector := h.get_layOut_le hm
  driven := by
    obtain ⟨c, hc⟩ := List.exists_mem_of_ne_nil cs hne
    exact ⟨c.unit, (h.get_layOut_ne_zero_iff hm c.unit).2 (List.mem_map_of_mem hc)⟩
  alu := index_layOut_le s
  aluUnused hr := by
    rw [h.readsAlu_layOut hm, Bool.or_eq_false_iff] at hr
    have ha : s.alu = none := by simpa using hr.1
    simp [layOut, ha]
  io := io_layOut_le s
  ioUnused := h.io_layOut hm
  value := h.valueFits_layOut hm

end Lines

theorem canonical_of_solve {labels : LabelTable} {tokens : List Text} {line : Nat}
    {i : Instruction} (h : solve labels tokens line = .ok i) : i.Canonical := by
  obtain ⟨hne, cs, s, hm, hset, rfl⟩ := exists_settled_of_solve h
  apply hset.canonical_layOut hm
  intro hn
  subst hn
  exact hne (List.forall₂_nil_right_iff.1 hm)

/-- A canonical instruction has a line of bare tokens. -/
theorem Instruction.Canonical.exists_line {i : Instruction} (h : i.Canonical) :
    ∃ tokens, (∀ token ∈ tokens, isBare token = true) ∧ tokens ≠ [] ∧
      ∀ line, solve i.unpack.label tokens line = .ok i := by
  have hdriven : ∃ u, i.unpack.selectors.get u ≠ 0 := by
    obtain ⟨u, hu⟩ := h.driven
    refine ⟨u, ?_⟩
    intro hz
    have hget : i.unpack.layOut.get u = 0 := by
      cases u with
      | a => exact Nat.min_eq_zero_iff.2 (Or.inl hz)
      | o => exact Nat.min_eq_zero_iff.2 (Or.inl hz)
      | _ => exact hz
    rw [h.selectors_unpack] at hget
    exact hu hget
  obtain ⟨tokens, hbare, hne, hset⟩ := h.coherent_unpack.exists_line hdriven
  refine ⟨tokens, hbare, hne, ?_⟩
  intro line
  rw [solve_of_settle hset, h.pack_unpack]
  rfl

/-- Solving gives the canonical instructions and no others. Each of them can be had from tokens,
and just as well from a source of one line. -/
theorem solve_eq_ok_iff_canonical (i : Instruction) :
    ((∃ labels tokens line, solve labels tokens line = .ok i) ↔ i.Canonical) ∧
    ((∃ labels source l, codeLines source = [l] ∧
      ∀ line, solve labels (tokenize l.body) line = .ok i) ↔ i.Canonical) := by
  constructor
  · constructor
    · intro hex
      obtain ⟨labels, tokens, line, h⟩ := hex
      exact canonical_of_solve h
    · intro h
      obtain ⟨tokens, -, -, hsolve⟩ := h.exists_line
      exact ⟨_, tokens, 1, hsolve 1⟩
  · constructor
    · intro hex
      obtain ⟨labels, source, l, -, h⟩ := hex
      exact canonical_of_solve (h 1)
    · intro h
      obtain ⟨tokens, hbare, hne, hsolve⟩ := h.exists_line
      obtain ⟨l, hlines, hbody⟩ := codeLines_of_bare hbare hne
      refine ⟨i.unpack.label, _, l, hlines, ?_⟩
      rw [hbody, tokenize_intercalate hbare hne]
      exact hsolve

end MicroAsm
