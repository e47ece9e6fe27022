import MicroAsm.Proofs.Constraint
import MicroAsm.Proofs.Packing
/-!
A line whose labels come to stand for other addresses. Its tokens keep their senses except for the
targets of branches, so the line settles as before if its constant still shares the value field
with the new target, and is unsatisfiable if not.
-/
namespace MicroAsm
open LineState

/-- Every name of a table has a new address in another one. -/
def Relocates (f : Address → Address) (labels labels' : LabelTable) : Prop :=
  ∀ name t, labels.get? name = some t → labels'.get? name = some (f t)

section Retarget
variable (f : Address → Address)

def LabelTable.retarget (table : LabelTable) : LabelTable :=
  ⟨table.entries.map (Prod.map id f)⟩

def Sense.retarget : Sense → Sense
  | .branch n t => .branch n (f t)
  | e => e

def Meaning.retarget : Meaning → Meaning
  | .definite e => .definite (e.retarget f)
  | .zero => .zero

def Clause.retarget (c : Clause) : Clause := ⟨c.unit, c.meaning.retarget f⟩

def LineState.retarget (s : LineState) : LineState := { s with target := s.target.map f }

namespace LineState
variable (s : LineState)

@[simp] theorem alu_retarget : (s.retarget f).alu = s.alu := rfl

@[simp] theorem literal_retarget : (s.retarget f).literal = s.literal := rfl

@[simp] theorem target_retarget : (s.retarget f).target = s.target.map f := rfl

@[simp] theorem needsAlu_retarget : (s.retarget f).needsAlu = s.needsAlu := rfl

end LineState

theorem LabelTable.get?_retarget (table : LabelTable) (name : Text) :
    (table.retarget f).get? name = (table.get? name).map f := by
  unfold get? retarget
  rw [List.find?_map, Option.map_map, Option.map_map]
  rfl

namespace Sense
variable (e : Sense)

@[simp] theorem selector_retarget : (e.retarget f).selector = e.selector := by cases e <;> rfl

@[simp] theorem alu?_retarget : (e.retarget f).alu? = e.alu? := by cases e <;> rfl

@[simp] theorem literal?_retarget : (e.retarget f).literal? = e.literal? := by cases e <;> rfl

@[simp] theorem target?_retarget : (e.retarget f).target? = e.target?.map f := by cases e <;> rfl

@[simp] theorem implicitAlu_retarget : (e.retarget f).implicitAlu = e.implicitAlu := by
  cases e <;> rfl

end Sense

theorem Meaning.sense_retarget (m : Meaning) (alu : Option AluOp) :
    (m.retarget f).sense alu = (m.sense alu).retarget f := by
  cases m with
  | definite e => rfl
  | zero =>
    simp only [retarget, sense]
    split <;> rfl

theorem Clause.senseIn_retarget (c : Clause) (s : LineState) :
    (c.retarget f).senseIn (s.retarget f) = (c.senseIn s).retarget f :=
  c.meaning.sense_retarget f s.alu

@[simp] theorem Clause.op?_retarget (c : Clause) : (c.retarget f).op? = c.op? := by
  obtain ⟨u, m⟩ := c
  cases m with
  | definite e => exact e.alu?_retarget f
  | zero => rfl

@[simp] theorem Clause.target?_retarget (c : Clause) :
    (c.retarget f).target? = c.target?.map f := by
  obtain ⟨u, m⟩ := c
  cases m with
  | definite e => exact e.target?_retarget f
  | zero => rfl

theorem contested_retarget (cs : List Clause) :
    Contested (cs.map (Clause.retarget f)) ↔ Contested cs := by
  simp [Contested]

theorem map_unit_retarget (cs : List Clause) :
    (cs.map (Clause.retarget f)).map Clause.unit = cs.map Clause.unit := by
  rw [List.map_map]
  rfl

end Retarget

section Grammar
variable {f : Address → Address} {labels labels' : LabelTable} {token : Text}

theorem ReadsAs.retarget (hl : Relocates f labels labels') {u : FuncUnit} {e : Sense}
    (h : ReadsAs labels token u e) : ReadsAs labels' token u (e.retarget f) := by
  cases h with
  | plain h => exact .plain h
  | test h => exact .test h
  | operation h ho => exact .operation h ho
  | constant h hv => exact .constant h hv
  | branch h ht => exact .branch h (hl _ _ ht)

theorem Means.retarget (hl : Relocates f labels labels') {c : Clause} (h : Means labels token c) :
    Means labels' token (c.retarget f) := by
  cases h with
  | zero h => exact .zero h
  | definite h hz => exact .definite (h.retarget hl) hz

theorem forall₂_means_retarget (hl : Relocates f labels labels') {tokens : List Text}
    {cs : List Clause} (hm : List.Forall₂ (Means labels) tokens cs) :
    List.Forall₂ (Means labels') tokens (cs.map (Clause.retarget f)) := by
  rw [List.forall₂_map_right_iff]
  exact hm.imp fun _ _ h => h.retarget hl

/-- A branch goes to the address of a label. -/
theorem Settled.exists_label {tokens : List Text} {cs : List Clause} {s : LineState}
    (hm : List.Forall₂ (Means labels) tokens cs) (h : Settled cs s) {t : Address}
    (ht : s.target = some t) : ∃ name, labels.get? name = some t := by
  obtain ⟨c, hc, hct⟩ := (h.target t).1 ht
  obtain ⟨n, hbranch⟩ := Sense.target?_eq_some_iff.1 hct
  obtain ⟨token, -, hmeans⟩ := (mem_clauses_iff hm).1 hc
  have hr := hmeans.readsAs s
  rw [hbranch] at hr
  generalize c.unit = u at hr
  cases hr with
  | branch _ hget => exact ⟨_, hget⟩

end Grammar

section Settled
variable {f : Address → Address} {cs : List Clause} {s s' : LineState}

theorem exists_mem_retarget {p : Sense → Prop} :
    (∃ c ∈ cs.map (Clause.retarget f), p (c.senseIn (s.retarget f))) ↔
      ∃ c ∈ cs, p ((c.senseIn s).retarget f) := by
  simp only [List.mem_map, exists_exists_and_eq_and, Clause.senseIn_retarget]

theorem Settled.retarget (h : Settled cs s) (hs : Shares (s.target.map f) s.literal) :
    Settled (cs.map (Clause.retarget f)) (s.retarget f) where
  units := by
    rw [map_unit_retarget]
    exact h.units
  selector := by
    rw [List.forall_mem_map]
    intro c hc
    rw [Clause.senseIn_retarget, Sense.selector_retarget]
    exact h.selector c hc
  idle := by
    rw [map_unit_retarget]
    exact h.idle
  alu op := by
    rw [exists_mem_retarget (p := fun e => e.alu? = some op)]
    simpa only [alu_retarget, Sense.alu?_retarget] using h.alu op
  literal v := by
    rw [exists_mem_retarget (p := fun e => e.literal? = some v)]
    simpa only [literal_retarget, Sense.literal?_retarget] using h.literal v
  target t := by
    rw [exists_mem_retarget (p := fun e => e.target? = some t)]
    simp only [target_retarget, Sense.target?_retarget, Option.map_eq_some_iff, h.target]
    constructor
    · rintro ⟨a, ⟨c, hc, ha⟩, rfl⟩
      exact ⟨c, hc, a, ha, rfl⟩
    · rintro ⟨c, hc, a, ha, rfl⟩
      exact ⟨a, ⟨c, hc, ha⟩, rfl⟩
  needsAlu := by
    rw [exists_mem_retarget (p := fun e => e.implicitAlu = true)]
    simpa only [needsAlu_retarget, Sense.implicitAlu_retarget] using h.needsAlu
  shared := hs

/-- Whatever state the line with new targets settles in, it has the constant of the old one. -/
theorem Settled.shares_of_retarget (h : Settled cs s)
    (h' : Settled (cs.map (Clause.retarget f)) s') : Shares (s.target.map f) s.literal := by
  have hall : s'.alu.all (· == .zero) = s.alu.all (· == .zero) := by
    rw [Bool.eq_iff_iff, h'.all_zero_iff, h.all_zero_iff, contested_retarget]
  have hsense (c : Clause) : (c.retarget f).senseIn s' = (c.senseIn s).retarget f := by
    rw [← c.senseIn_retarget f s]
    unfold Clause.senseIn
    cases (c.retarget f).meaning with
    | definite e => rfl
    | zero => exact if_congr (by rw [hall]; rfl) rfl rfl
  intro t ht v hv
  apply h'.shared
  · obtain ⟨a, ha, rfl⟩ := Option.map_eq_some_iff.1 ht
    obtain ⟨c, hc, hca⟩ := (h.target a).1 ha
    refine (h'.target (f a)).2 ⟨_, List.mem_map_of_mem hc, ?_⟩
    rw [hsense, Sense.target?_retarget, hca]
    rfl
  · obtain ⟨c, hc, hcv⟩ := (h.literal v).1 hv
    refine (h'.literal v).2 ⟨_, List.mem_map_of_mem hc, ?_⟩
    rw [hsense, Sense.literal?_retarget, hcv]

theorem Clean.retarget (h : Clean cs) : Clean (cs.map (Clause.retarget f)) where
  units := by
    rw [map_unit_retarget]
    exact h.units
  targets := by
    simp only [List.forall_mem_map, Clause.target?_retarget]
    intro c hc d hd _ hx _ hy
    obtain ⟨a, ha, rfl⟩ := Option.map_eq_some_iff.1 hx
    obtain ⟨b, hb, rfl⟩ := Option.map_eq_some_iff.1 hy
    rw [h.targets c hc d hd a ha b hb]

/-- A settled line settles again when its labels get new addresses, or becomes unsatisfiable. -/
theorem settle_retarget {labels labels' : LabelTable} {tokens : List Text}
    (hl : Relocates f labels labels') (h : settle labels tokens = .ok s) :
    settle labels' tokens =
      if Shares (s.target.map f) s.literal then .ok (s.retarget f) else .error .unsatisfiable := by
  obtain ⟨hne, cs, hm, hset⟩ := settle_eq_ok_iff.1 h
  have hm' := forall₂_means_retarget hl hm
  split
  · rename_i hs
    exact settle_eq_ok_of_settled hm' (hset.retarget hs) hne
  · rename_i hs
    apply settle_eq_unsatisfiable hm' hset.clean.retarget
    intro hex
    obtain ⟨s', hs'⟩ := hex
    exact hs (hset.shares_of_retarget hs')

theorem pack_retarget {i : Instruction} (h : s.pack = .ok i) :
    (s.retarget f).pack = .ok (s.retarget f).layOut := by
  obtain ⟨hneed, hports, -⟩ := pack_eq_ok_iff.1 h
  exact pack_eq_ok_iff.2 ⟨hneed, hports, rfl⟩

end Settled

end MicroAsm
