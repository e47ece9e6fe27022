import MicroAsm.Proofs.Settlement
/-!
Orders that are accepted. If some state has room for all clauses of a line, then they are accepted
in any order that does not read zero too early, and a line without a fault meets none in any order.
-/
namespace MicroAsm
open LineState

/-- What is bound in one state is bound alike in another. -/
structure Below (s b : LineState) : Prop where
  alu : Within s.alu b.alu
  literal : Within s.literal b.literal
  target : Within s.target b.target

/-- A state with room for a sense binds everything that the sense binds. -/
structure HasRoom (b : LineState) (e : Sense) : Prop where
  alu : Within e.alu? b.alu
  literal : Within e.literal? b.literal
  target : Within e.target? b.target

section Room
variable {s b : LineState} {c : Clause} {e : Sense} {cs : List Clause}

theorem below_empty (b : LineState) : Below {} b where
  alu := within_none
  literal := within_none
  target := within_none

theorem Below.join (hs : Below s b) (he : HasRoom b e) (u : FuncUnit) : Below (s.join u e) b where
  alu := he.alu.or hs.alu
  literal := he.literal.or hs.literal
  target := he.target.or hs.target

theorem Below.accepts (hs : Below s b) (he : HasRoom b e) (hb : Shares b.target b.literal) :
    s.Accepts e where
  alu := he.alu.compatible hs.alu
  literal := he.literal.compatible hs.literal
  newLiteral t ht v hv := hb t (hs.target t ht) v (he.literal v hv)
  newTarget t ht v hv := hb t (he.target t ht) v (hs.literal v hv)

/-- Zero is read as in the larger state, unless that state has an operation against it which the
smaller one does not have yet. -/
theorem Below.senseIn_eq (hs : Below s b) (hz : b.alu.all (· == .zero) = true ∨ s.alu = b.alu)
    (c : Clause) : c.senseIn s = c.senseIn b := by
  unfold Clause.senseIn
  rcases hz with hz | hz
  · have ha : s.alu.all (· == .zero) = true := by
      cases h : s.alu with
      | none => rfl
      | some op =>
        rw [hs.alu op h] at hz
        exact hz
    cases c.meaning with
    | definite e => rfl
    | zero => rw [Meaning.sense_zero_of_all ha, Meaning.sense_zero_of_all hz]
  · rw [hz]

/-- The other clauses of a line still find their units idle. -/
theorem taken_join_of_nodup (hn : ((c :: cs).map Clause.unit).Nodup)
    (hf : ∀ d ∈ c :: cs, s.taken d.unit = false) (e : Sense) :
    ∀ d ∈ cs, (s.join c.unit e).taken d.unit = false := by
  intro d hd
  rw [List.map_cons, List.nodup_cons] at hn
  have hne : d.unit ≠ c.unit := fun h => hn.1 (h ▸ List.mem_map_of_mem hd)
  rw [taken_join, if_neg hne]
  exact hf d (List.mem_cons_of_mem c hd)

theorem Below.accept (hs : Below s b) (hb : Shares b.target b.literal)
    (hr : HasRoom b (c.senseIn s)) (hf : s.taken c.unit = false) :
    s.accept c = .ok (s.join c.unit (c.senseIn s)) :=
  accept_eq_ok_iff.2 ⟨hf, hr.target.compatible hs.target, hs.accepts hr hb, rfl⟩

/-- If a state has room for all clauses, they are accepted in any order in which zero is read as
in that state. -/
theorem Below.acceptAll (hs : Below s b) (hb : Shares b.target b.literal)
    (hz : b.alu.all (· == .zero) = true ∨ s.alu = b.alu) (hc : ∀ c ∈ cs, HasRoom b (c.senseIn b))
    (hn : (cs.map Clause.unit).Nodup) (hf : ∀ c ∈ cs, s.taken c.unit = false) :
    ∃ t, s.acceptAll cs = .ok t := by
  induction cs generalizing s with
  | nil => exact ⟨s, rfl⟩
  | cons c cs ih =>
    have hr : HasRoom b (c.senseIn s) := hs.senseIn_eq hz c ▸ hc c List.mem_cons_self
    have hstep := hs.accept hb hr (hf c List.mem_cons_self)
    have hz' : b.alu.all (· == .zero) = true ∨ (s.join c.unit (c.senseIn s)).alu = b.alu :=
      hz.imp_right fun h => hr.alu.or_eq h
    have hc' : ∀ d ∈ cs, HasRoom b (d.senseIn b) := fun d hd => hc d (List.mem_cons_of_mem _ hd)
    obtain ⟨t, ht⟩ := ih (hs.join hr c.unit) hz' hc' (List.nodup_cons.1 hn).2
      (taken_join_of_nodup hn hf _)
    exact ⟨t, acceptAll_cons_eq_ok_iff.2 ⟨_, hstep, ht⟩⟩

/-- Zero is read as it should be after the operation that it has to give way to. -/
theorem Below.acceptAll_of_op (hs : Below s b) (hb : Shares b.target b.literal)
    (ho : c.op? = b.alu) (hne : b.alu ≠ none) (hc : ∀ d ∈ c :: cs, HasRoom b (d.senseIn b))
    (hn : ((c :: cs).map Clause.unit).Nodup) (hf : ∀ d ∈ c :: cs, s.taken d.unit = false) :
    ∃ t, s.acceptAll (c :: cs) = .ok t := by
  obtain ⟨op, hop⟩ := Option.ne_none_iff_exists'.1 hne
  obtain ⟨n, hm⟩ := Clause.op?_eq_some_iff.1 (ho.trans hop)
  have hr : HasRoom b (c.senseIn s) := by
    rw [Clause.senseIn_definite hm, ← Clause.senseIn_definite hm b]
    exact hc c List.mem_cons_self
  have hstep := hs.accept hb hr (hf c List.mem_cons_self)
  have hz : (s.join c.unit (c.senseIn s)).alu = b.alu := by
    rw [Clause.senseIn_definite hm, hop]
    rfl
  have hc' : ∀ d ∈ cs, HasRoom b (d.senseIn b) := fun d hd => hc d (List.mem_cons_of_mem _ hd)
  obtain ⟨t, ht⟩ := (hs.join hr c.unit).acceptAll hb (Or.inr hz) hc' (List.nodup_cons.1 hn).2
    (taken_join_of_nodup hn hf _)
  exact ⟨t, acceptAll_cons_eq_ok_iff.2 ⟨_, hstep, ht⟩⟩

theorem Settled.hasRoom (h : Settled cs s) (hc : c ∈ cs) : HasRoom s (c.senseIn s) where
  alu op ho := (h.alu op).2 ⟨c, hc, ho⟩
  literal v hv := (h.literal v).2 ⟨c, hc, hv⟩
  target t ht := (h.target t).2 ⟨c, hc, ht⟩

end Room

/-- Nothing in the line is wrong in every order. -/
structure Clean (cs : List Clause) : Prop where
  units : (cs.map Clause.unit).Nodup
  targets : ∀ c ∈ cs, ∀ d ∈ cs, Compatible c.target? d.target?

theorem Clean.perm {cs ds : List Clause} (h : Clean cs) (hp : cs.Perm ds) : Clean ds where
  units := (hp.map Clause.unit).nodup_iff.1 h.units
  targets c hc d hd := h.targets c (hp.mem_iff.2 hc) d (hp.mem_iff.2 hd)

theorem Settled.clean {cs : List Clause} {s : LineState} (h : Settled cs s) : Clean cs where
  units := h.units
  targets c hc d hd := by
    rw [← c.target?_senseIn s, ← d.target?_senseIn s]
    exact (h.hasRoom hc).target.compatible (h.hasRoom hd).target

theorem accept_of_clean {s : LineState} {c : Clause} {f : Fault} (hf : s.taken c.unit = false)
    (ht : Compatible c.target? s.target) : s.accept c ≠ .error (.hard f) := by
  intro h
  rcases accept_eq_error_iff.1 h with ⟨htaken, -⟩ | ⟨-, hne, -⟩ | ⟨-, -, -, he⟩
  · simp [hf] at htaken
  · rw [c.target?_senseIn s] at hne
    exact hne ht
  · contradiction

theorem Clean.acceptAll_ne_hard {cs : List Clause} {s : LineState} {f : Fault} (h : Clean cs)
    (hf : ∀ c ∈ cs, s.taken c.unit = false) (ht : ∀ c ∈ cs, Compatible c.target? s.target) :
    s.acceptAll cs ≠ .error (.hard f) := by
  induction cs generalizing s with
  | nil => simp
  | cons c cs ih =>
    rw [acceptAll_cons]
    cases hs : s.accept c with
    | error r =>
      have hne := accept_of_clean (f := f) (hf c List.mem_cons_self) (ht c List.mem_cons_self)
      rw [hs] at hne
      simpa [Except.bind] using hne
    | ok t =>
      obtain ⟨-, -, -, rfl⟩ := accept_eq_ok_iff.1 hs
      apply ih
      · exact ⟨(List.nodup_cons.1 h.units).2, fun d hd e he =>
          h.targets d (List.mem_cons_of_mem _ hd) e (List.mem_cons_of_mem _ he)⟩
      · exact taken_join_of_nodup h.units hf _
      · intro d hd
        have hd' := List.mem_cons_of_mem c hd
        have hcd := h.targets c List.mem_cons_self d hd'
        rw [← c.target?_senseIn s] at hcd
        exact (Compatible.or_left hcd (ht d hd').symm).symm

end MicroAsm
