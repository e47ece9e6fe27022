import Mathlib.Data.List.Nodup
import MicroAsm.Proofs.Clause
/-!
The state in which an accepted line settles, described by the set of its clauses. Every accepted
order leads to this state, and there is at most one.
-/
namespace MicroAsm
open LineState

/-- Every part of the state comes from a clause, and every clause has its part in the state. -/
structure Settled (cs : List Clause) (s : LineState) : Prop where
  units : (cs.map Clause.unit).Nodup
  selector : ∀ c ∈ cs, s.selectors.get c.unit = (c.senseIn s).selector
  idle : ∀ u, u ∉ cs.map Clause.unit → s.selectors.get u = 0
  alu : ∀ op, s.alu = some op ↔ ∃ c ∈ cs, (c.senseIn s).alu? = some op
  literal : ∀ v, s.literal = some v ↔ ∃ c ∈ cs, (c.senseIn s).literal? = some v
  target : ∀ t, s.target = some t ↔ ∃ c ∈ cs, (c.senseIn s).target? = some t
  needsAlu : s.needsAlu = true ↔ ∃ c ∈ cs, (c.senseIn s).implicitAlu = true
  shared : Shares s.target s.literal

/-- Some clause leaves zero no room as an operation. -/
def Contested (cs : List Clause) : Prop := ∃ c ∈ cs, ∃ op, c.op? = some op ∧ op ≠ .zero

namespace Settled
variable {cs ds : List Clause} {s t : LineState} {c : Clause}

theorem nil : Settled [] {} where
  units := List.nodup_nil
  selector := by simp
  idle := by
    intro u _
    cases u <;> rfl
  alu := by simp
  literal := by simp
  target := by simp
  needsAlu := by simp
  shared := by simp [Shares]

theorem perm (h : Settled cs s) (hp : cs.Perm ds) : Settled ds s where
  units := (hp.map Clause.unit).nodup_iff.1 h.units
  selector c hc := h.selector c (hp.mem_iff.2 hc)
  idle u hu := h.idle u (fun hm => hu ((hp.map Clause.unit).mem_iff.1 hm))
  alu op := by simpa only [hp.mem_iff] using h.alu op
  literal v := by simpa only [hp.mem_iff] using h.literal v
  target t := by simpa only [hp.mem_iff] using h.target t
  needsAlu := by simpa only [hp.mem_iff] using h.needsAlu
  shared := h.shared

theorem alu_of_op (h : Settled cs s) (hc : c ∈ cs) {op : AluOp} (ho : c.op? = some op) :
    s.alu = some op := by
  obtain ⟨n, hm⟩ := Clause.op?_eq_some_iff.1 ho
  rw [h.alu]
  exact ⟨c, hc, by rw [Clause.senseIn_definite hm]; rfl⟩

/-- A line with a zero has an operation: zero itself, or the one that zero gave way to. -/
theorem alu_ne_none_of_zero (h : Settled cs s) (hc : c ∈ cs) (hz : c.meaning = .zero) :
    s.alu ≠ none := by
  intro hn
  have he : (c.senseIn s).alu? = some .zero := by
    rw [Clause.senseIn, hz, hn]
    rfl
  have hs := (h.alu .zero).2 ⟨c, hc, he⟩
  rw [hn] at hs
  contradiction

theorem all_zero_iff (h : Settled cs s) : s.alu.all (· == .zero) = true ↔ ¬Contested cs := by
  constructor
  · rintro ha ⟨c, hc, op, ho, hne⟩
    rw [h.alu_of_op hc ho] at ha
    exact hne (by simpa using ha)
  · intro hn
    cases ha : s.alu with
    | none => rfl
    | some op =>
      obtain ⟨c, hc, he⟩ := (h.alu op).1 ha
      have hz : op = .zero := by
        by_contra hne
        apply hn
        refine ⟨c, hc, op, ?_, hne⟩
        unfold Clause.op?
        unfold Clause.senseIn at he
        cases hm : c.meaning with
        | definite e => simpa [hm] using he
        | zero =>
          have hf : s.alu.all (· == .zero) = false := by simpa [ha] using hne
          rw [hm, Meaning.sense_zero_of_not_all hf] at he
          contradiction
      simp [hz]

/-- How the clauses are read in the end depends on the clauses only. -/
theorem senseIn_eq (hs : Settled cs s) (ht : Settled cs t) (c : Clause) :
    c.senseIn s = c.senseIn t := by
  unfold Clause.senseIn
  cases c.meaning with
  | definite e => rfl
  | zero =>
    have h : s.alu.all (· == .zero) = t.alu.all (· == .zero) := by
      rw [Bool.eq_iff_iff, hs.all_zero_iff, ht.all_zero_iff]
    simp only [Meaning.sense, h]

theorem unique (hs : Settled cs s) (ht : Settled cs t) : s = t := by
  have he := hs.senseIn_eq ht
  have hsel : s.selectors = t.selectors := by
    apply Selectors.ext_get
    intro u
    by_cases hu : u ∈ cs.map Clause.unit
    · obtain ⟨c, hc, rfl⟩ := List.mem_map.1 hu
      rw [hs.selector c hc, ht.selector c hc, he]
    · rw [hs.idle u hu, ht.idle u hu]
  have halu : s.alu = t.alu := by
    ext op
    rw [hs.alu, ht.alu]
    simp only [he]
  have hlit : s.literal = t.literal := by
    ext v
    rw [hs.literal, ht.literal]
    simp only [he]
  have htgt : s.target = t.target := by
    ext a
    rw [hs.target, ht.target]
    simp only [he]
  have hneed : s.needsAlu = t.needsAlu := by
    rw [Bool.eq_iff_iff, hs.needsAlu, ht.needsAlu]
    simp only [he]
  cases s
  cases t
  simp_all

/-- A further clause does not change how the earlier ones are read. -/
theorem senseIn_join (h : Settled cs s) (hc : c ∈ cs) {u : FuncUnit} {e : Sense}
    (he : Compatible e.alu? s.alu) : c.senseIn (s.join u e) = c.senseIn s := by
  unfold Clause.senseIn
  cases hm : c.meaning with
  | definite e => rfl
  | zero =>
    obtain ⟨op, ho⟩ := Option.ne_none_iff_exists'.1 (h.alu_ne_none_of_zero hc hm)
    have hj : (s.join u e).alu = some op := (he.or_eq_some_iff).2 (Or.inr ho)
    rw [hj, ho]

theorem exists_snoc_iff {p : Sense → Prop} (h : Settled cs s)
    (ha : Compatible (c.senseIn s).alu? s.alu) :
    (∃ d ∈ cs ++ [c], p (d.senseIn (s.join c.unit (c.senseIn s)))) ↔
      p (c.senseIn s) ∨ ∃ d ∈ cs, p (d.senseIn s) := by
  constructor
  · intro hex
    obtain ⟨d, hd, hp⟩ := hex
    rcases List.mem_append.1 hd with hd | hd
    · rw [h.senseIn_join hd ha] at hp
      exact Or.inr ⟨d, hd, hp⟩
    · rw [List.mem_singleton.1 hd, LineState.senseIn_join] at hp
      exact Or.inl hp
  · rintro (hp | ⟨d, hd, hp⟩)
    · exact ⟨c, by simp, by rwa [LineState.senseIn_join]⟩
    · exact ⟨d, by simp [hd], by rwa [h.senseIn_join hd ha]⟩

theorem shares_join (h : Settled cs s) {u : FuncUnit} {e : Sense} (ha : s.Accepts e) :
    Shares (s.join u e).target (s.join u e).literal := by
  cases e with
  | constant v => exact ha.newLiteral
  | branch n a => exact ha.newTarget
  | _ => exact h.shared

/-- The units that are driven are those of the clauses. -/
theorem taken_iff (h : Settled cs s) (hd : ∀ d ∈ cs, d.Drives) {u : FuncUnit} :
    s.taken u = true ↔ u ∈ cs.map Clause.unit := by
  have hsel : s.taken u = true ↔ s.selectors.get u ≠ 0 := by simp [taken]
  rw [hsel]
  constructor
  · intro hne
    by_contra hu
    exact hne (h.idle u hu)
  · intro hu
    obtain ⟨d, hdm, rfl⟩ := List.mem_map.1 hu
    rw [h.selector d hdm]
    exact hd d hdm s.alu

theorem units_snoc (h : Settled cs s) (hnew : c.unit ∉ cs.map Clause.unit) :
    ((cs ++ [c]).map Clause.unit).Nodup := by
  rw [List.map_append, List.map_singleton, List.nodup_append]
  refine ⟨h.units, List.nodup_singleton _, ?_⟩
  rintro u hu v hv rfl
  rw [List.mem_singleton.1 hv] at hu
  exact hnew hu

/-- One step: accepting a clause settles the line with that clause. -/
theorem snoc (h : Settled cs s) (hd : ∀ d ∈ cs, d.Drives) (ha : s.accept c = .ok t) :
    Settled (cs ++ [c]) t := by
  obtain ⟨hfree, htgt, hacc, rfl⟩ := accept_eq_ok_iff.1 ha
  have hnew : c.unit ∉ cs.map Clause.unit := by
    rw [← h.taken_iff hd, hfree]
    simp
  have hget (v : FuncUnit) : (s.join c.unit (c.senseIn s)).selectors.get v =
      if v = c.unit then (c.senseIn s).selector else s.selectors.get v :=
    Selectors.get_set ..
  refine ⟨h.units_snoc hnew, ?_, ?_, ?_, ?_, ?_, ?_, h.shares_join hacc⟩
  · intro d hdm
    rw [hget]
    rcases List.mem_append.1 hdm with hdm | hdm
    · have hne : d.unit ≠ c.unit := fun hu => hnew (hu ▸ List.mem_map_of_mem hdm)
      rw [if_neg hne, h.selector d hdm, h.senseIn_join hdm hacc.alu]
    · rw [List.mem_singleton.1 hdm, if_pos rfl, LineState.senseIn_join]
  · intro u hu
    rw [List.map_append, List.mem_append, not_or] at hu
    have hne : u ≠ c.unit := by simpa using hu.2
    rw [hget, if_neg hne, h.idle u hu.1]
  · intro op
    rw [h.exists_snoc_iff (p := fun e => e.alu? = some op) hacc.alu, ← h.alu]
    exact hacc.alu.or_eq_some_iff
  · intro v
    rw [h.exists_snoc_iff (p := fun e => e.literal? = some v) hacc.alu, ← h.literal]
    exact hacc.literal.or_eq_some_iff
  · intro a
    rw [h.exists_snoc_iff (p := fun e => e.target? = some a) hacc.alu, ← h.target]
    exact htgt.or_eq_some_iff
  · rw [h.exists_snoc_iff (p := fun e => e.implicitAlu = true) hacc.alu, ← h.needsAlu]
    simp only [join, Bool.or_eq_true]
    exact or_comm

/-- A whole run: accepting clauses one after another settles the line with all of them. -/
theorem append (h : Settled cs s) (hd : ∀ d ∈ cs ++ ds, d.Drives) (ha : s.acceptAll ds = .ok t) :
    Settled (cs ++ ds) t := by
  induction ds generalizing cs s with
  | nil =>
    obtain rfl : s = t := by simpa using ha
    simpa using h
  | cons d ds ih =>
    obtain ⟨r, hr, ht⟩ := acceptAll_cons_eq_ok_iff.1 ha
    have hd' : ∀ c ∈ cs, c.Drives := fun c hc => hd c (List.mem_append_left _ hc)
    have happ : cs ++ d :: ds = (cs ++ [d]) ++ ds := by simp
    rw [happ] at hd ⊢
    exact ih (h.snoc hd' hr) hd ht

theorem of_acceptAll (hd : ∀ c ∈ cs, c.Drives) (h : LineState.acceptAll {} cs = .ok s) :
    Settled cs s := nil.append hd h

end Settled

end MicroAsm
