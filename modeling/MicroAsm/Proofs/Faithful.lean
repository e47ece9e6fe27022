import MicroAsm.Proofs.Packing
/-!
Nothing is lost between a line and the word of its instruction, and nothing is made up: every token
is read as an assignment to a unit of its own, and the fields of the word say what the tokens say.
-/
namespace MicroAsm
open LineState

/-- What an instruction says of a unit that is read in a sense. Both input ports of A have the
selector three in an instruction, and both output ports of O the selector one. -/
structure Shows (i : Instruction) (u : FuncUnit) (e : Sense) : Prop where
  selector : i.get u = min e.selector u.limit
  port : ∀ k, u.port? e.selector = some k → i.io = k
  alu : ∀ op, e.alu? = some op → i.aluOp? = some op
  literal : ∀ v, e.literal? = some v → i.literal = valueField v
  target : ∀ t, e.target? = some t → i.branchTarget = t

section Lines
variable {labels : LabelTable} {tokens : List Text} {cs : List Clause} {s : LineState} {c : Clause}

theorem length_le_of_nodup {units : List FuncUnit} (h : units.Nodup) : units.length ≤ 8 :=
  (List.subperm_of_subset h fun u _ => u.mem_all).length_le

theorem eq_none_of_clauses {α : Type} {o : Option α} {f : Clause → Option α}
    (ho : ∀ a, o = some a ↔ ∃ c ∈ cs, f c = some a) (hn : ∀ c ∈ cs, f c = none) : o = none := by
  rw [Option.eq_none_iff_forall_ne_some]
  intro a ha
  obtain ⟨c, hc, hca⟩ := (ho a).1 ha
  rw [hn c hc] at hca
  contradiction

theorem Settled.port?_eq_none (h : Settled cs s)
    (hp : ∀ c ∈ cs, c.unit.port? (c.senseIn s).selector = none) (u : FuncUnit) :
    u.port? (s.selectors.get u) = none := by
  by_cases hu : u ∈ cs.map Clause.unit
  · obtain ⟨c, hc, rfl⟩ := List.mem_map.1 hu
    rw [h.selector c hc]
    exact hp c hc
  · rw [h.idle u hu, FuncUnit.port?_zero]

/-- Every clause of a settled line shows in the instruction. -/
theorem Settled.shows (hm : List.Forall₂ (Means labels) tokens cs) (h : Settled cs s)
    (hp : s.portsAgree = true) (hc : c ∈ cs) : Shows s.layOut c.unit (c.senseIn s) where
  selector := by rw [h.get_layOut hm, h.selector c hc]
  port k hk := by
    rw [← h.selector c hc] at hk
    cases hu : c.unit with
    | a =>
      rw [hu] at hk
      exact io_layOut_of_inPort ((inPort?_eq s).trans hk)
    | o =>
      rw [hu] at hk
      exact io_layOut_of_outPort hp ((outPort?_eq s).trans hk)
    | _ =>
      rw [hu] at hk
      contradiction
  alu op ho := aluOp?_layOut ((h.alu op).2 ⟨c, hc, ho⟩)
  literal v hv := literal_layOut h.shared ((h.literal v).2 ⟨c, hc, hv⟩)
  target t ht := branchTarget_layOut h.shared ((h.target t).2 ⟨c, hc, ht⟩)

end Lines

/-- If a line is solved, its tokens are read one by one as assignments to different units; these
are the units that the instruction drives, its word shows every reading, a test without an
operation has one from another unit, and fields that no reading determines are zero. -/
theorem solve_shows_every_token {labels : LabelTable} {tokens : List Text} {line : Nat}
    {i : Instruction} (h : solve labels tokens line = .ok i) :
    1 ≤ tokens.length ∧ tokens.length ≤ 8 ∧ Instruction.decode i.encode = i ∧
    ∃ readings : List (FuncUnit × Sense),
      (readings.map Prod.fst).Nodup ∧
      (∀ u, i.get u ≠ 0 ↔ u ∈ readings.map Prod.fst) ∧
      List.Forall₂ (fun token r => ReadsAs labels token r.1 r.2 ∧ Shows i r.1 r.2)
        tokens readings ∧
      (∀ r ∈ readings, r.2.implicitAlu = true → ∃ r' ∈ readings, r'.1 ≠ r.1 ∧
        ∃ op, r'.2.alu? = some op ∧ i.aluOp? = some op) ∧
      ((∀ r ∈ readings, r.2.alu? = none) → i.alu = 0) ∧
      ((∀ r ∈ readings, r.1.port? r.2.selector = none) → i.io = 0) ∧
      ((∀ r ∈ readings, r.2.literal? = none ∧ r.2.target? = none) →
        i.value = 0 ∧ i.twoConstants = false) := by
  obtain ⟨s, hs, hpack⟩ := solve_eq_ok_iff.1 h
  obtain ⟨hne, cs, hm, hset⟩ := settle_eq_ok_iff.1 hs
  obtain ⟨hneed, hports, rfl⟩ := pack_eq_ok_iff.1 hpack
  have hlen : tokens.length = (cs.map Clause.unit).length := by
    rw [List.length_map, hm.length_eq]
  have hfst : (cs.map fun c => (c.unit, c.senseIn s)).map Prod.fst = cs.map Clause.unit := by
    rw [List.map_map]
    rfl
  refine ⟨List.length_pos_iff.2 hne, hlen ▸ length_le_of_nodup hset.units,
    Instruction.decode_encode (hset.inRange_layOut hm),
    cs.map fun c => (c.unit, c.senseIn s), ?_, ?_, ?_, ?_, ?_, ?_, ?_⟩
  · rw [hfst]
    exact hset.units
  · intro u
    rw [hfst]
    exact hset.get_layOut_ne_zero_iff hm u
  · rw [List.forall₂_map_right_iff, List.forall₂_iff_zip]
    refine ⟨hm.length_eq, ?_⟩
    intro token c hz
    have hmeans := (List.forall₂_iff_zip.1 hm).2 hz
    exact ⟨hmeans.readsAs s, hset.shows hm hports (List.of_mem_zip hz).2⟩
  · intro r hr hi
    obtain ⟨c, hc, rfl⟩ := List.mem_map.1 hr
    obtain ⟨op, ho⟩ := Option.isSome_iff_exists.1 (hneed (hset.needsAlu.2 ⟨c, hc, hi⟩))
    obtain ⟨d, hd, hop⟩ := (hset.alu op).1 ho
    refine ⟨_, List.mem_map_of_mem hd, ?_, op, hop, aluOp?_layOut ho⟩
    intro hu
    obtain rfl := List.inj_on_of_nodup_map hset.units hd hc hu
    simp only at hi hop
    generalize d.senseIn s = e at hi hop
    cases e <;> contradiction
  · intro hn
    have ha := eq_none_of_clauses hset.alu fun c hc => hn _ (List.mem_map_of_mem hc)
    simp [layOut, ha]
  · intro hn
    have hport := hset.port?_eq_none fun c hc => hn _ (List.mem_map_of_mem hc)
    exact io_layOut_of_none ((inPort?_eq s).trans (hport .a)) ((outPort?_eq s).trans (hport .o))
  · intro hn
    apply value_layOut_of_none
    · exact eq_none_of_clauses hset.literal fun c hc => (hn _ (List.mem_map_of_mem hc)).1
    · exact eq_none_of_clauses hset.target fun c hc => (hn _ (List.mem_map_of_mem hc)).2

/-- Six units share an operation, a port and a value field that is split. -/
theorem six_tokens_shown :
    solve ⟨[("X".toList, 9)]⟩ ["A=IN2".toList, "OUT2=W".toList, "B=A+B".toList, "F=ZERO()".toList,
        "W=-5".toList, "JMP X".toList] 1 =
      .ok { a := 3, b := 2, w := 3, o := 1, f := 1, j := 1, alu := 5, io := 1,
            twoConstants := true, value := -311 } ∧
    ∃ readings : List (FuncUnit × Sense), List.Forall₂
      (fun token r => ReadsAs ⟨[("X".toList, 9)]⟩ token r.1 r.2 ∧
        Shows { a := 3, b := 2, w := 3, o := 1, f := 1, j := 1, alu := 5, io := 1,
                twoConstants := true, value := -311 } r.1 r.2)
      ["A=IN2".toList, "OUT2=W".toList, "B=A+B".toList, "F=ZERO()".toList, "W=-5".toList,
        "JMP X".toList] readings := by
  have h : solve ⟨[("X".toList, 9)]⟩ ["A=IN2".toList, "OUT2=W".toList, "B=A+B".toList,
      "F=ZERO()".toList, "W=-5".toList, "JMP X".toList] 1 =
      .ok { a := 3, b := 2, w := 3, o := 1, f := 1, j := 1, alu := 5, io := 1,
            twoConstants := true, value := -311 } := by
    decide +kernel
  obtain ⟨-, -, -, readings, -, -, hr, -⟩ := solve_shows_every_token h
  exact ⟨h, readings, hr⟩

end MicroAsm
