import MicroAsm.Proofs.Packing
/-!
States in which selectors and resources belong together. Such a state tells every unit the sense in
which it has it, and a line of clauses in these senses settles in the state.
-/
namespace MicroAsm
open LineState

namespace LineState

/-- The selectors and the resources of a state belong together, and no test is left without an
operation of its own. -/
structure Coherent (s : LineState) : Prop where
  selector : ∀ u, s.selectors.get u ≤ u.lastSelector
  alu : s.alu.isSome = FuncUnit.all.any fun u => u.usesAlu (s.selectors.get u)
  literal : s.literal.isSome = FuncUnit.all.any fun u => u.usesLiteral (s.selectors.get u)
  target : s.target.isSome = FuncUnit.all.any fun u => u.usesTarget (s.selectors.get u)
  needsAlu : s.needsAlu = false
  shared : Shares s.target s.literal
  range : ∀ v, s.literal = some v → -2048 ≤ v ∧ v ≤ 2047

/-- The sense in which a state has a unit. -/
def senseAt (s : LineState) (u : FuncUnit) : Sense :=
  if u.usesAlu (s.selectors.get u) then .operation (s.selectors.get u) (s.alu.getD .zero)
  else if u.usesLiteral (s.selectors.get u) then .constant (s.literal.getD 0)
  else if u.usesTarget (s.selectors.get u) then .branch (s.selectors.get u) (s.target.getD 0)
  else .plain (s.selectors.get u)

/-- The units of a state that are not idle. -/
def busy (s : LineState) : List FuncUnit := FuncUnit.all.filter s.taken

/-- One label is enough for a line. -/
def label (s : LineState) : LabelTable := ⟨[("X".toList, s.target.getD 0)]⟩

end LineState

section Coherent
variable {s : LineState} {u : FuncUnit} {cs : List Clause}

theorem mem_busy : u ∈ s.busy ↔ s.selectors.get u ≠ 0 := by
  simp [busy, taken, u.mem_all]

/-- Every selector of the catalog has a form, which needs what the selector uses. -/
theorem exists_form {n : Nat} (hn : n ≤ u.lastSelector) (h0 : n ≠ 0) :
    if u.usesAlu n then ∃ x ∈ operationPrefixes, x.1 = u ∧ x.2.1 = n
    else if u.usesLiteral n then n = 3 ∧ ∃ x ∈ constantPrefixes, x.1 = u
    else if u.usesTarget n then ∃ x ∈ branchPrefixes, x.1 = u ∧ x.2.1 = n
    else ∃ x ∈ plainTokens, x.1 = u ∧ x.2.1 = n := by
  revert n
  cases u <;> decide

theorem selector_senseAt (hn : s.selectors.get u ≤ u.lastSelector) (h0 : s.selectors.get u ≠ 0) :
    (s.senseAt u).selector = s.selectors.get u := by
  have hform := exists_form hn h0
  unfold senseAt
  split_ifs at hform ⊢ with ha hl
  · rfl
  · exact hform.1.symm
  · rfl
  · rfl

theorem senseAt_operation (h : u.usesAlu (s.selectors.get u) = true) :
    s.senseAt u = .operation (s.selectors.get u) (s.alu.getD .zero) := if_pos h

theorem senseAt_constant (ha : ¬u.usesAlu (s.selectors.get u) = true)
    (h : u.usesLiteral (s.selectors.get u) = true) :
    s.senseAt u = .constant (s.literal.getD 0) := by
  simp only [senseAt, ha, h, if_true, if_false, Bool.false_eq_true]

theorem senseAt_branch (ha : ¬u.usesAlu (s.selectors.get u) = true)
    (hl : ¬u.usesLiteral (s.selectors.get u) = true)
    (h : u.usesTarget (s.selectors.get u) = true) :
    s.senseAt u = .branch (s.selectors.get u) (s.target.getD 0) := by
  simp only [senseAt, ha, hl, h, if_true, if_false, Bool.false_eq_true]

theorem senseAt_plain (ha : ¬u.usesAlu (s.selectors.get u) = true)
    (hl : ¬u.usesLiteral (s.selectors.get u) = true)
    (ht : ¬u.usesTarget (s.selectors.get u) = true) :
    s.senseAt u = .plain (s.selectors.get u) := by
  simp only [senseAt, ha, hl, ht, if_false, Bool.false_eq_true]

theorem uses_exclusive (u : FuncUnit) (n : Nat) :
    (u.usesLiteral n = true → ¬u.usesAlu n = true) ∧
      (u.usesTarget n = true → ¬u.usesAlu n = true ∧ ¬u.usesLiteral n = true) := by
  cases u <;> simp [FuncUnit.usesAlu, FuncUnit.usesLiteral, FuncUnit.usesTarget] <;> omega

theorem LineState.alu?_senseAt (s : LineState) (u : FuncUnit) : (s.senseAt u).alu? =
    if u.usesAlu (s.selectors.get u) then some (s.alu.getD .zero) else none := by
  unfold senseAt
  split_ifs <;> rfl

theorem LineState.literal?_senseAt (s : LineState) (u : FuncUnit) : (s.senseAt u).literal? =
    if u.usesLiteral (s.selectors.get u) then some (s.literal.getD 0) else none := by
  have hex := uses_exclusive u (s.selectors.get u)
  unfold senseAt
  split_ifs with ha hl
  · exact absurd ha (hex.1 hl)
  · rfl
  · rfl
  · rfl
  · rfl

theorem LineState.target?_senseAt (s : LineState) (u : FuncUnit) : (s.senseAt u).target? =
    if u.usesTarget (s.selectors.get u) then some (s.target.getD 0) else none := by
  have hex := uses_exclusive u (s.selectors.get u)
  unfold senseAt
  split_ifs with ha ht hl ht
  · exact absurd ha (hex.2 ht).1
  · rfl
  · exact absurd hl (hex.2 ht).2
  · rfl
  · rfl
  · rfl

theorem LineState.implicitAlu_senseAt (s : LineState) (u : FuncUnit) :
    (s.senseAt u).implicitAlu = false := by
  unfold senseAt
  split_ifs <;> rfl

/-- A resource that some unit uses is there. -/
theorem some_getD_of_any {α : Type} {o : Option α} {p : FuncUnit → Bool} (d : α)
    (ho : o.isSome = FuncUnit.all.any p) (hp : p u = true) : some (o.getD d) = o := by
  apply Option.getD_of_ne_none
  rw [← Option.isSome_iff_ne_none, ho, List.any_eq_true]
  exact ⟨u, u.mem_all, hp⟩

/-- A resource of a coherent state is what the units that use it say. -/
theorem eq_some_iff_senseAt {α : Type} {o : Option α} {d a : α} {f : Sense → Option α}
    {uses : FuncUnit → Nat → Bool} (h0 : ∀ u, uses u 0 = false)
    (ho : o.isSome = FuncUnit.all.any fun u => uses u (s.selectors.get u))
    (hf : ∀ u, f (s.senseAt u) = if uses u (s.selectors.get u) then some (o.getD d) else none) :
    o = some a ↔ ∃ u, s.selectors.get u ≠ 0 ∧ f (s.senseAt u) = some a := by
  constructor
  · rintro rfl
    obtain ⟨u, -, hu⟩ := List.any_eq_true.1 (ho.symm.trans rfl)
    refine ⟨u, ?_, ?_⟩
    · intro hz
      rw [hz, h0] at hu
      contradiction
    · rw [hf, if_pos hu]
      rfl
  · intro hex
    obtain ⟨u, -, hu⟩ := hex
    rw [hf] at hu
    split at hu
    · rename_i huse
      rw [← some_getD_of_any d ho huse, hu]
    · contradiction

theorem exists_clause_iff {p : Sense → Prop} (hunits : cs.map Clause.unit = s.busy)
    (hsense : ∀ c ∈ cs, c.senseIn s = s.senseAt c.unit) :
    (∃ c ∈ cs, p (c.senseIn s)) ↔ ∃ u, s.selectors.get u ≠ 0 ∧ p (s.senseAt u) := by
  constructor
  · intro hex
    obtain ⟨c, hc, hp⟩ := hex
    have hbusy : c.unit ∈ s.busy := hunits ▸ List.mem_map_of_mem hc
    exact ⟨c.unit, mem_busy.1 hbusy, hsense c hc ▸ hp⟩
  · intro hex
    obtain ⟨u, hu, hp⟩ := hex
    have hmem : u ∈ cs.map Clause.unit := hunits ▸ mem_busy.2 hu
    obtain ⟨c, hc, rfl⟩ := List.mem_map.1 hmem
    exact ⟨c, hc, (hsense c hc).symm ▸ hp⟩

/-- Clauses that tell a coherent state unit by unit settle in it. -/
theorem LineState.Coherent.settled (h : s.Coherent) (hunits : cs.map Clause.unit = s.busy)
    (hsense : ∀ c ∈ cs, c.senseIn s = s.senseAt c.unit) : Settled cs s where
  units := by
    rw [hunits]
    exact List.Nodup.filter _ (show FuncUnit.all.Nodup by decide)
  selector c hc := by
    have hbusy : c.unit ∈ s.busy := hunits ▸ List.mem_map_of_mem hc
    rw [hsense c hc, selector_senseAt (h.selector c.unit) (mem_busy.1 hbusy)]
  idle u hu := by
    rw [hunits, mem_busy, not_not] at hu
    exact hu
  alu op := by
    rw [exists_clause_iff (p := fun e => e.alu? = some op) hunits hsense]
    exact eq_some_iff_senseAt FuncUnit.usesAlu_zero h.alu s.alu?_senseAt
  literal v := by
    rw [exists_clause_iff (p := fun e => e.literal? = some v) hunits hsense]
    exact eq_some_iff_senseAt FuncUnit.usesLiteral_zero h.literal s.literal?_senseAt
  target t := by
    rw [exists_clause_iff (p := fun e => e.target? = some t) hunits hsense]
    exact eq_some_iff_senseAt FuncUnit.usesTarget_zero h.target s.target?_senseAt
  needsAlu := by
    rw [exists_clause_iff (p := fun e => e.implicitAlu = true) hunits hsense, h.needsAlu]
    simp [implicitAlu_senseAt]
  shared := h.shared

end Coherent

end MicroAsm
