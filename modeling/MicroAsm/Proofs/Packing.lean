import MicroAsm.Proofs.Rotation
import MicroAsm.Proofs.WordFields
/-!
What an instruction shows of the line that it was packed from: the operation, the constant, the
target and the port of the line can be read back from it.
-/
namespace MicroAsm
open LineState

namespace LineState
variable {s : LineState}

theorem inPort?_eq (s : LineState) : s.inPort? = FuncUnit.a.port? s.selectors.a := by
  unfold inPort? FuncUnit.port?
  split <;> simp_all

theorem outPort?_eq (s : LineState) : s.outPort? = FuncUnit.o.port? s.selectors.o := by
  unfold outPort? FuncUnit.port?
  split <;> simp_all

theorem portsAgree_iff : s.portsAgree = true ↔ Compatible s.inPort? s.outPort? := by
  unfold portsAgree
  cases s.inPort? <;> cases s.outPort? <;> simp [Compatible]

theorem io_layOut_of_inPort {k : Nat} (h : s.inPort? = some k) : s.layOut.io = k := by
  simp [layOut, h]

theorem io_layOut_of_outPort {k : Nat} (hp : s.portsAgree = true) (h : s.outPort? = some k) :
    s.layOut.io = k := by
  have hor := (portsAgree_iff.1 hp).or_eq_some_iff.2 (Or.inr h)
  simp [layOut, hor]

theorem io_layOut_of_none (hi : s.inPort? = none) (ho : s.outPort? = none) : s.layOut.io = 0 := by
  simp [layOut, hi, ho]

theorem io_layOut_le (s : LineState) : s.layOut.io ≤ 1 := by
  cases hi : s.inPort? with
  | some k =>
    rw [io_layOut_of_inPort hi]
    rw [inPort?_eq] at hi
    exact FuncUnit.port?_le hi
  | none =>
    cases ho : s.outPort? with
    | some k =>
      have hk : k ≤ 1 := by
        rw [outPort?_eq] at ho
        exact FuncUnit.port?_le ho
      simpa [layOut, hi, ho] using hk
    | none => simp [io_layOut_of_none hi ho]

theorem index_layOut_le (s : LineState) : s.layOut.alu ≤ 12 := by
  have hop (op : AluOp) : op.index ≤ 12 := by cases op <;> decide
  unfold layOut
  cases s.alu with
  | none => exact Nat.zero_le 12
  | some op => exact hop op

theorem aluOp?_layOut {op : AluOp} (h : s.alu = some op) : s.layOut.aluOp? = some op := by
  simp [Instruction.aluOp?, layOut, h]

theorem valueField_toNat (t : Address) : valueField t.toNat = t.toNat := by
  have ht := t.toNat_lt
  exact valueField_eq (show -2048 ≤ (t.toNat : Int) ∧ (t.toNat : Int) ≤ 2047 by omega)

theorem value_layOut_of_none (hl : s.literal = none) (ht : s.target = none) :
    s.layOut.value = 0 ∧ s.layOut.twoConstants = false := by
  simp [layOut, value, split, hl, ht, valueField]

theorem value_layOut_of_literal {v : Int} (hl : s.literal = some v) (ht : s.target = none) :
    s.layOut.value = valueField v ∧ s.layOut.twoConstants = false := by
  simp [layOut, value, split, hl, ht]

theorem value_layOut_of_target {t : Address} (hl : s.literal = none) (ht : s.target = some t) :
    s.layOut.value = t.toNat ∧ s.layOut.twoConstants = false := by
  simp [layOut, value, split, hl, ht, valueField_toNat]

theorem value_layOut_of_equal {v : Int} {t : Address} (hl : s.literal = some v)
    (ht : s.target = some t) (he : v = t.toNat) :
    s.layOut.value = t.toNat ∧ s.layOut.twoConstants = false := by
  simp [layOut, value, split, hl, ht, he, valueField_toNat]

/-- A literal and a target that differ are halves of the value field. -/
theorem value_layOut_of_split {v : Int} {t : Address} (hs : Shares s.target s.literal)
    (hl : s.literal = some v) (ht : s.target = some t) (hne : v ≠ t.toNat) :
    s.layOut.value = v * 64 + t.toNat ∧ s.layOut.twoConstants = true ∧ t.toNat < 64 ∧
      -32 ≤ v ∧ v ≤ 31 := by
  have hshare := hs t ht v hl
  rw [shareField_iff] at hshare
  have hfit := hshare.resolve_left hne
  have hval : valueField (v * 64 + t.toNat) = v * 64 + t.toNat := by
    apply valueField_eq
    omega
  refine ⟨?_, ?_, hfit⟩
  · simp [layOut, value, hl, ht, Ne.symm hne, halves_eq (fitsSplit_iff.2 hfit), hval]
  · simp [layOut, split, hl, ht, Ne.symm hne]

theorem literal_layOut {v : Int} (hs : Shares s.target s.literal) (hl : s.literal = some v) :
    s.layOut.literal = valueField v := by
  unfold Instruction.literal
  cases ht : s.target with
  | none =>
    obtain ⟨hv, htwo⟩ := value_layOut_of_literal hl ht
    simp [hv, htwo]
  | some t =>
    by_cases he : v = t.toNat
    · obtain ⟨hv, htwo⟩ := value_layOut_of_equal hl ht he
      simp [hv, htwo, he, valueField_toNat]
    · obtain ⟨hv, htwo, htl, hlow, hhigh⟩ := value_layOut_of_split hs hl ht he
      have hhalf : (v * 64 + t.toNat) / 64 = v := by omega
      rw [hv, htwo, if_pos rfl, hhalf, valueField_eq (show -2048 ≤ v ∧ v ≤ 2047 by omega)]

theorem branchTarget_layOut {t : Address} (hs : Shares s.target s.literal)
    (ht : s.target = some t) : s.layOut.branchTarget = t := by
  have hlt := t.toNat_lt
  have hwhole (h : s.layOut.value = t.toNat ∧ s.layOut.twoConstants = false) :
      s.layOut.branchTarget = t := by
    have hmod : ((t.toNat : Int) % 256).toNat = t.toNat := by omega
    simp [Instruction.branchTarget, h.1, h.2, hmod]
  cases hl : s.literal with
  | none => exact hwhole (value_layOut_of_target hl ht)
  | some v =>
    by_cases he : v = t.toNat
    · exact hwhole (value_layOut_of_equal hl ht he)
    · obtain ⟨hv, htwo, htl, -⟩ := value_layOut_of_split hs hl ht he
      have hmod : ((v * 64 + t.toNat) % 64).toNat = t.toNat := by omega
      simp only [Instruction.branchTarget, hv, htwo, if_true, hmod, UInt8.ofNat_toNat]

theorem value_layOut_range (s : LineState) : -2048 ≤ s.layOut.value ∧ s.layOut.value ≤ 2047 :=
  valueField_range s.value

theorem pack_eq_ok_iff {i : Instruction} : s.pack = .ok i ↔
    (s.needsAlu = true → s.alu.isSome = true) ∧ s.portsAgree = true ∧ s.layOut = i := by
  unfold pack
  cases hn : s.needsAlu <;> cases ha : s.alu <;> cases hp : s.portsAgree <;> simp

end LineState

section Lines
variable {labels : LabelTable} {tokens : List Text} {cs : List Clause} {s : LineState}

/-- A solved line has settled, and its state is laid out as the instruction. -/
theorem exists_settled_of_solve {line : Nat} {i : Instruction}
    (h : solve labels tokens line = .ok i) : tokens ≠ [] ∧
      ∃ cs s, List.Forall₂ (Means labels) tokens cs ∧ Settled cs s ∧ s.layOut = i := by
  obtain ⟨s, hs, hpack⟩ := solve_eq_ok_iff.1 h
  obtain ⟨hne, cs, hm, hset⟩ := settle_eq_ok_iff.1 hs
  obtain ⟨-, -, hi⟩ := pack_eq_ok_iff.1 hpack
  exact ⟨hne, cs, s, hm, hset, hi⟩

theorem Settled.fits (hm : List.Forall₂ (Means labels) tokens cs) {c : Clause} (hc : c ∈ cs) :
    (c.senseIn s).Fits c.unit := by
  obtain ⟨token, -, hmeans⟩ := (mem_clauses_iff hm).1 hc
  exact (hmeans.readsAs s).fits

/-- What selectors have in common with the senses that they stand for, they tell of the line. -/
theorem Settled.any_selector (h : Settled cs s) {p : FuncUnit → Nat → Bool} {q : Sense → Bool}
    (hp : ∀ u, p u 0 = false)
    (hq : ∀ c ∈ cs, p c.unit (c.senseIn s).selector = q (c.senseIn s)) :
    (FuncUnit.all.any fun u => p u (s.selectors.get u)) = cs.any fun c => q (c.senseIn s) := by
  rw [Bool.eq_iff_iff, List.any_eq_true, List.any_eq_true]
  constructor
  · intro hex
    obtain ⟨u, -, hu⟩ := hex
    by_cases hm : u ∈ cs.map Clause.unit
    · obtain ⟨c, hc, rfl⟩ := List.mem_map.1 hm
      rw [h.selector c hc, hq c hc] at hu
      exact ⟨c, hc, hu⟩
    · rw [h.idle u hm, hp] at hu
      contradiction
  · intro hex
    obtain ⟨c, hc, hu⟩ := hex
    refine ⟨c.unit, c.unit.mem_all, ?_⟩
    rw [h.selector c hc, hq c hc, hu]

theorem any_or {α : Type} (l : List α) (p q : α → Bool) :
    (l.any fun a => p a || q a) = (l.any p || l.any q) := by
  induction l with
  | nil => rfl
  | cons a l ih => simp only [List.any_cons, ih, Bool.or_assoc, Bool.or_left_comm]

theorem any_isSome_eq {α : Type} {o : Option α} {f : Clause → Option α}
    (ho : ∀ a, o = some a ↔ ∃ c ∈ cs, f c = some a) :
    (cs.any fun c => (f c).isSome) = o.isSome := by
  rw [Bool.eq_iff_iff, List.any_eq_true, Option.isSome_iff_exists]
  constructor
  · intro hex
    obtain ⟨c, hc, hsome⟩ := hex
    obtain ⟨a, ha⟩ := Option.isSome_iff_exists.1 hsome
    exact ⟨a, (ho a).2 ⟨c, hc, ha⟩⟩
  · intro hex
    obtain ⟨a, ha⟩ := hex
    obtain ⟨c, hc, hca⟩ := (ho a).1 ha
    exact ⟨c, hc, Option.isSome_iff_exists.2 ⟨a, hca⟩⟩

variable (hm : List.Forall₂ (Means labels) tokens cs) (h : Settled cs s)
include hm h

theorem Settled.selector_le (u : FuncUnit) : s.selectors.get u ≤ u.lastSelector := by
  by_cases hu : u ∈ cs.map Clause.unit
  · obtain ⟨c, hc, rfl⟩ := List.mem_map.1 hu
    rw [h.selector c hc]
    exact (Settled.fits hm hc).selector
  · rw [h.idle u hu]
    exact Nat.zero_le _

theorem Settled.get_layOut (u : FuncUnit) : s.layOut.get u = min (s.selectors.get u) u.limit := by
  have hle := h.selector_le hm u
  cases u with
  | a => rfl
  | o => rfl
  | _ => exact (Nat.min_eq_left hle).symm

theorem Settled.readsAlu_layOut : s.layOut.readsAlu = (s.alu.isSome || s.needsAlu) := by
  have hany := h.any_selector (q := fun e => e.alu?.isSome || e.implicitAlu)
    FuncUnit.usesAlu_zero fun c hc => (Settled.fits hm hc).alu
  have huse (u : FuncUnit) : u.usesAlu (s.layOut.get u) = u.usesAlu (s.selectors.get u) := by
    rw [h.get_layOut hm, (FuncUnit.uses_min (h.selector_le hm u)).1]
  have hneed : (cs.any fun c => (c.senseIn s).implicitAlu) = s.needsAlu := by
    rw [Bool.eq_iff_iff, List.any_eq_true, h.needsAlu]
  simp only [Instruction.readsAlu_eq_any, huse]
  rw [hany, ← any_isSome_eq h.alu, ← hneed]
  exact any_or cs _ _

theorem Settled.readsLiteral_layOut : s.layOut.readsLiteral = s.literal.isSome := by
  have hany := h.any_selector (q := fun e => e.literal?.isSome)
    FuncUnit.usesLiteral_zero fun c hc => (Settled.fits hm hc).literal
  have huse (u : FuncUnit) :
      u.usesLiteral (s.layOut.get u) = u.usesLiteral (s.selectors.get u) := by
    rw [h.get_layOut hm, (FuncUnit.uses_min (h.selector_le hm u)).2.1]
  simp only [Instruction.readsLiteral_eq_any, huse]
  rw [hany, any_isSome_eq h.literal]

theorem Settled.branches_layOut : s.layOut.branches = s.target.isSome := by
  have hany := h.any_selector (q := fun e => e.target?.isSome)
    FuncUnit.usesTarget_zero fun c hc => (Settled.fits hm hc).target
  have huse (u : FuncUnit) :
      u.usesTarget (s.layOut.get u) = u.usesTarget (s.selectors.get u) := by
    rw [h.get_layOut hm, (FuncUnit.uses_min (h.selector_le hm u)).2.2]
  simp only [Instruction.branches_eq_any, huse]
  rw [hany, any_isSome_eq h.target]

theorem Settled.get_layOut_le (u : FuncUnit) : s.layOut.get u ≤ u.limit := by
  rw [h.get_layOut hm]
  exact Nat.min_le_right _ _

theorem Settled.get_layOut_ne_zero_iff (u : FuncUnit) :
    s.layOut.get u ≠ 0 ↔ u ∈ cs.map Clause.unit := by
  have hlim : 0 < u.limit := by cases u <;> decide
  rw [h.get_layOut hm]
  by_cases hu : u ∈ cs.map Clause.unit
  · obtain ⟨c, hc, rfl⟩ := List.mem_map.1 hu
    have hsel : s.selectors.get c.unit ≠ 0 := by
      rw [h.selector c hc]
      exact drives_of_forall₂ hm c hc s.alu
    simp only [hu, iff_true]
    omega
  · simp [h.idle u hu, hu]

theorem Settled.inRange_layOut : s.layOut.InRange where
  selector := h.get_layOut_le hm
  alu := Nat.le_trans (index_layOut_le s) (by decide)
  io := io_layOut_le s
  value := value_layOut_range s

end Lines
end MicroAsm
