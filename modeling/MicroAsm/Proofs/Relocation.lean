import MicroAsm.Proofs.Retargeting
/-!
Instructions that move to higher addresses. The branches among them move along, as far as the
constants beside them allow, and nothing else of the instructions changes.
-/
namespace MicroAsm
open LineState

/-- The address after so many further instructions. -/
def moved (n : Nat) (t : Address) : Address := UInt8.ofNat (t.toNat + n)

theorem toNat_moved {n : Nat} {t : Address} (h : t.toNat + n ≤ 255) :
    (moved n t).toNat = t.toNat + n := UInt8.toNat_ofNat_of_lt' (Nat.lt_succ_of_le h)

namespace Instruction

/-- A constant of the instruction shares the value field with the target, also when that moves. -/
def Movable (n : Nat) (i : Instruction) : Prop :=
  ∀ t ∈ i.jumpTarget?, i.readsLiteral = true →
    i.literal = t.toNat + n ∨ t.toNat + n < 64 ∧ -32 ≤ i.literal ∧ i.literal ≤ 31

instance (n : Nat) (i : Instruction) : Decidable (i.Movable n) :=
  inferInstanceAs (Decidable (∀ t ∈ i.jumpTarget?, i.readsLiteral = true →
    i.literal = t.toNat + n ∨ t.toNat + n < 64 ∧ -32 ≤ i.literal ∧ i.literal ≤ 31))

/-- The same instruction, with its branch going so many addresses further. -/
structure Moved (n : Nat) (i j : Instruction) : Prop where
  selectors : j.toSelectors = i.toSelectors
  alu : j.alu = i.alu
  io : j.io = i.io
  literal : i.readsLiteral = true → j.literal = i.literal
  target : ∀ t, i.jumpTarget? = some t → ∃ t', j.jumpTarget? = some t' ∧ t'.toNat = t.toNat + n
  still : i.jumpTarget? = none → j = i

end Instruction

section Lines
variable {labels labels' : LabelTable} {tokens : List Text} {cs : List Clause} {s : LineState}
  {n line : Nat} {i : Instruction}

theorem Settled.jumpTarget?_layOut (hm : List.Forall₂ (Means labels) tokens cs)
    (h : Settled cs s) : s.layOut.jumpTarget? = s.target := by
  unfold Instruction.jumpTarget?
  rw [h.branches_layOut hm]
  cases ht : s.target with
  | none => rfl
  | some t => simp only [Option.isSome_some, if_true, branchTarget_layOut h.shared ht]

theorem Settled.movable_layOut_iff (hm : List.Forall₂ (Means labels) tokens cs)
    (h : Settled cs s) (hn : ∀ t, s.target = some t → t.toNat + n ≤ 255) :
    s.layOut.Movable n ↔ Shares (s.target.map (moved n)) s.literal := by
  unfold Instruction.Movable
  rw [h.jumpTarget?_layOut hm, h.readsLiteral_layOut hm]
  cases ht : s.target with
  | none => simp [Shares]
  | some t =>
    cases hl : s.literal with
    | none => simp [Shares]
    | some v =>
      have hshare := shareField_iff.1 (h.shared t ht v hl)
      have hlt := t.toNat_lt
      have hv : s.layOut.literal = v := by
        rw [literal_layOut h.shared hl, valueField_eq (by omega)]
      simp only [Option.mem_some_iff, forall_eq', Option.isSome_some, true_implies, hv,
        Option.map_some, Shares, shareField_iff, toNat_moved (hn t ht)]
      norm_cast

theorem Settled.moved_layOut (hl : Relocates (moved n) labels labels')
    (hm : List.Forall₂ (Means labels) tokens cs) (h : Settled cs s)
    (hn : ∀ t, s.target = some t → t.toNat + n ≤ 255)
    (hs : Shares (s.target.map (moved n)) s.literal) :
    s.layOut.Moved n (s.retarget (moved n)).layOut where
  selectors := rfl
  alu := rfl
  io := rfl
  literal hreads := by
    rw [h.readsLiteral_layOut hm, Option.isSome_iff_exists] at hreads
    obtain ⟨v, hv⟩ := hreads
    rw [literal_layOut h.shared hv]
    exact literal_layOut hs hv
  target t ht := by
    rw [h.jumpTarget?_layOut hm] at ht
    refine ⟨moved n t, ?_, toNat_moved (hn t ht)⟩
    rw [(h.retarget hs).jumpTarget?_layOut (forall₂_means_retarget hl hm), target_retarget, ht]
    rfl
  still ht := by
    rw [h.jumpTarget?_layOut hm] at ht
    unfold LineState.retarget
    rw [ht, Option.map_none, ← ht]

/-- Labels that keep their addresses keep the instructions of all lines. -/
theorem solve_of_relocates_id (hl : Relocates id labels labels')
    (h : solve labels tokens line = .ok i) (line' : Nat) :
    solve labels' tokens line' = .ok i := by
  obtain ⟨s, hs, hpack⟩ := solve_eq_ok_iff.1 h
  obtain ⟨-, cs, -, hset⟩ := settle_eq_ok_iff.1 hs
  refine solve_eq_ok_iff.2 ⟨s, ?_, hpack⟩
  have hsame : s.retarget id = s := by
    unfold LineState.retarget
    rw [Option.map_id_fun, id_eq]
  have hshare : Shares (s.target.map id) s.literal := by
    rw [Option.map_id_fun, id_eq]
    exact hset.shared
  rw [settle_retarget hl hs, if_pos hshare, hsame]

/-- When the labels of a solved line move, its instruction moves with them or not at all. -/
theorem solve_of_relocates_moved (hl : Relocates (moved n) labels labels')
    (hn : ∀ name t, labels.get? name = some t → t.toNat + n ≤ 255)
    (h : solve labels tokens line = .ok i) (line' : Nat) :
    (i.Movable n → ∃ j, solve labels' tokens line' = .ok j ∧ i.Moved n j) ∧
    (¬i.Movable n → solve labels' tokens line' = .error ⟨some line', .unsatisfiable⟩) := by
  obtain ⟨s, hs, hpack⟩ := solve_eq_ok_iff.1 h
  obtain ⟨-, cs, hm, hset⟩ := settle_eq_ok_iff.1 hs
  obtain ⟨-, -, rfl⟩ := pack_eq_ok_iff.1 hpack
  have hbound (t : Address) (ht : s.target = some t) : t.toNat + n ≤ 255 := by
    obtain ⟨name, hname⟩ := hset.exists_label hm ht
    exact hn name t hname
  rw [hset.movable_layOut_iff hm hbound]
  have hsettle := settle_retarget hl hs
  constructor
  · intro hshare
    rw [if_pos hshare] at hsettle
    exact ⟨_, solve_eq_ok_iff.2 ⟨_, hsettle, pack_retarget hpack⟩,
      hset.moved_layOut hl hm hbound hshare⟩
  · intro hshare
    rw [if_neg hshare] at hsettle
    rw [solve, hsettle]
    rfl

end Lines

end MicroAsm
