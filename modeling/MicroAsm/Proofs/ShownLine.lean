import MicroAsm.Proofs.Coherent
import MicroAsm.Proofs.Columns
import MicroAsm.Proofs.Relocation
/-!
What the text of a solved line shows. Its mnemonics are those of the tokens, and its other parts are
the operation, the constant and the target that the tokens have bound.
-/
namespace MicroAsm
open LineState Text

namespace LineState

def mnemonics (s : LineState) : List Text :=
  FuncUnit.all.filterMap fun u => u.mnemonic? (s.selectors.get u)

/-- A part for each resource that is bound. A constant shows as far as it fits its field. -/
def resourceParts (s : LineState) : List Text :=
  [s.alu.map fun op => "M:".toList ++ op.spelling,
    s.literal.map fun v => "K=".toList ++ integer (valueField v),
    s.target.map fun t => "L=".toList ++ decimal t.toNat].filterMap id

end LineState

/-- A token without an operand is its own mnemonic, with the number of its port if it has one. -/
theorem mnemonic?_of_plain {labels : LabelTable} {token : Text} {u : FuncUnit} {n : Nat}
    (h : ReadsAs labels token u (.plain n)) : u.mnemonic? n = some token := by
  have hcat : ∀ x ∈ plainTokens, x.1.mnemonic? x.2.1 = some x.2.2 := by decide
  cases h with
  | plain h => exact hcat _ h

theorem map_some_filterMap {α β : Type} (f : α → Option β) (l : List α) :
    (l.filterMap f).map some = (l.filter fun a => (f a).isSome).map f := by
  induction l with
  | nil => rfl
  | cons a l ih => cases ha : f a <;> simp [ha, ih]

section Lines
variable {labels : LabelTable} {tokens : List Text} {cs : List Clause} {s : LineState}
  (hm : List.Forall₂ (Means labels) tokens cs) (h : Settled cs s)
include hm h

/-- The port bit tells the selectors of the ports apart again. -/
theorem Settled.unpack_layOut (hp : s.portsAgree = true) :
    s.layOut.unpack.selectors = s.selectors := by
  have ha : s.selectors.a ≤ 4 := h.selector_le hm .a
  have ho : s.selectors.o ≤ 2 := h.selector_le hm .o
  have hin : ∀ n ≤ 4, min n 3 = 3 → (FuncUnit.a.port? n).map (3 + ·) = some n := by decide
  have hout : ∀ n ≤ 2, min n 1 = 1 → (FuncUnit.o.port? n).map (1 + ·) = some n := by decide
  apply Selectors.ext_get
  intro u
  cases u with
  | a =>
    show (if min s.selectors.a 3 = 3 then 3 + s.layOut.io else min s.selectors.a 3) = s.selectors.a
    split
    · rename_i h3
      obtain ⟨k, hk, hn⟩ := Option.map_eq_some_iff.1 (hin _ ha h3)
      rw [io_layOut_of_inPort ((inPort?_eq s).trans hk), hn]
    · omega
  | o =>
    show (if min s.selectors.o 1 = 1 then 1 + s.layOut.io else min s.selectors.o 1) = s.selectors.o
    split
    · rename_i h1
      obtain ⟨k, hk, hn⟩ := Option.map_eq_some_iff.1 (hout _ ho h1)
      rw [io_layOut_of_outPort hp ((outPort?_eq s).trans hk), hn]
    · omega
  | _ => rfl

theorem Settled.mnemonics_layOut (hp : s.portsAgree = true) :
    s.layOut.mnemonics = s.mnemonics := by
  rw [mnemonics_eq (h.inRange_layOut hm), h.unpack_layOut hm hp]
  rfl

theorem Settled.readsAlu_layOut_of_ready (hn : s.needsAlu = true → s.alu.isSome = true) :
    s.layOut.readsAlu = s.alu.isSome := by
  rw [h.readsAlu_layOut hm]
  cases ha : s.alu.isSome with
  | true => rfl
  | false =>
    cases hneed : s.needsAlu with
    | true => exact absurd (hn hneed) (by simp [ha])
    | false => rfl

theorem Settled.parts_layOut (hp : s.portsAgree = true)
    (hn : s.needsAlu = true → s.alu.isSome = true) :
    (s.layOut.parts fun _ => none) = s.mnemonics ++ s.resourceParts := by
  have halu : s.layOut.aluPart = s.alu.map fun op => "M:".toList ++ op.spelling := by
    unfold Instruction.aluPart
    rw [h.readsAlu_layOut_of_ready hm hn]
    cases ha : s.alu with
    | none => rfl
    | some op =>
      rw [aluOp?_layOut ha]
      rfl
  have hliteral : s.layOut.literalPart =
      s.literal.map fun v => "K=".toList ++ integer (valueField v) := by
    unfold Instruction.literalPart
    rw [h.readsLiteral_layOut hm]
    cases hl : s.literal with
    | none => rfl
    | some v =>
      rw [literal_layOut h.shared hl]
      rfl
  have htarget : s.layOut.targetPart (fun _ => none) =
      s.target.map fun t => "L=".toList ++ decimal t.toNat := by
    unfold Instruction.targetPart
    rw [h.jumpTarget?_layOut hm]
    rfl
  unfold Instruction.parts resourceParts
  rw [h.mnemonics_layOut hm hp, halu, hliteral, htarget]

/-- Every clause has its mnemonic, and there are no others. -/
theorem Settled.mnemonics_perm :
    (s.mnemonics.map some).Perm (cs.map fun c => c.unit.mnemonic? (c.senseIn s).selector) := by
  have hbusy : s.mnemonics.map some = s.busy.map fun u => u.mnemonic? (s.selectors.get u) := by
    have htaken : s.taken = fun u => (u.mnemonic? (s.selectors.get u)).isSome :=
      funext fun u => (FuncUnit.mnemonic?_isSome (h.selector_le hm u)).symm
    rw [mnemonics, map_some_filterMap, busy, htaken]
  have hunits : s.busy.Perm (cs.map Clause.unit) := by
    have hnodup : s.busy.Nodup := List.Nodup.filter _ (show FuncUnit.all.Nodup by decide)
    rw [List.perm_ext_iff_of_nodup hnodup h.units]
    intro u
    rw [busy, List.mem_filter, h.taken_iff (drives_of_forall₂ hm)]
    exact and_iff_right u.mem_all
  have hclauses : (cs.map Clause.unit).map (fun u => u.mnemonic? (s.selectors.get u)) =
      cs.map fun c => c.unit.mnemonic? (c.senseIn s).selector := by
    rw [List.map_map]
    apply List.map_congr_left
    intro c hc
    rw [Function.comp_apply, h.selector c hc]
  rw [hbusy, ← hclauses]
  exact hunits.map _

theorem Settled.text_layOut (hne : tokens ≠ []) (hp : s.portsAgree = true)
    (hn : s.needsAlu = true → s.alu.isSome = true) :
    s.layOut.text = ", ".toList.intercalate (s.mnemonics ++ s.resourceParts) := by
  have hlen := (h.mnemonics_perm hm).length_eq
  rw [List.length_map, List.length_map, ← hm.length_eq] at hlen
  have hparts : (s.layOut.parts fun _ => none) ≠ [] := by
    intro hnil
    rw [h.parts_layOut hm hp hn] at hnil
    obtain ⟨hmn, -⟩ := List.append_eq_nil_iff.1 hnil
    rw [hmn] at hlen
    exact hne (List.length_eq_zero_iff.1 hlen.symm)
  rw [text_of_parts hparts, h.parts_layOut hm hp hn]

end Lines

/-- If some rotation of a line reads it and the line is solved, the instruction uses the operation,
the constant and the target if and only if the reading has bound them, and has them as they were
bound. Its text has one mnemonic for every token and then a part for every bound resource. -/
theorem solved_shows_bound {labels : LabelTable} {tokens : List Text} {start line : Nat}
    {s : LineState} {i : Instruction} (hs : readRotation labels tokens start = .ok s)
    (hi : solve labels tokens line = .ok i) :
    (i.readsAlu = true ↔ s.alu.isSome = true) ∧ (i.readsAlu = true → i.aluOp? = s.alu) ∧
    (i.readsLiteral = true ↔ s.literal.isSome = true) ∧
    (∀ v, s.literal = some v → i.literal = valueField v) ∧ i.jumpTarget? = s.target ∧
    i.text = ", ".toList.intercalate (s.mnemonics ++ s.resourceParts) ∧
    ∃ readings : List (FuncUnit × Sense),
      List.Forall₂ (fun token r => ReadsAs labels token r.1 r.2 ∧
        ∀ n, r.2 = .plain n → r.1.mnemonic? n = some token) tokens readings ∧
      (s.mnemonics.map some).Perm (readings.map fun r => r.1.mnemonic? r.2.selector) := by
  obtain ⟨t, ht, hpack⟩ := solve_eq_ok_iff.1 hi
  obtain ⟨hne, cs, hm, hset⟩ := settle_eq_ok_iff.1 ht
  obtain rfl : t = s := by
    obtain ⟨ds, hds, hset'⟩ := settled_of_readRotation (.refl tokens) hs
    obtain rfl := forall₂_means_unique hm hds
    exact hset.unique hset'
  obtain ⟨hneed, hports, rfl⟩ := pack_eq_ok_iff.1 hpack
  have hreads := hset.readsAlu_layOut_of_ready hm hneed
  refine ⟨by rw [hreads], ?_, by rw [hset.readsLiteral_layOut hm],
    fun v hv => literal_layOut hset.shared hv, hset.jumpTarget?_layOut hm,
    hset.text_layOut hm hne hports hneed, cs.map fun c => (c.unit, c.senseIn t), ?_, ?_⟩
  · intro hr
    obtain ⟨op, ho⟩ := Option.isSome_iff_exists.1 (hreads ▸ hr)
    rw [aluOp?_layOut ho, ho]
  · rw [List.forall₂_map_right_iff]
    refine hm.imp fun token c hc => ⟨hc.readsAs t, fun n hn => ?_⟩
    change c.senseIn t = .plain n at hn
    exact mnemonic?_of_plain (hn ▸ hc.readsAs t)
  · rw [List.map_map]
    exact hset.mnemonics_perm hm

/-- Every resource is bound, the constants are split, and zero is read as a constant. -/
theorem seven_tokens_listed : ∃ s i,
    readRotation ⟨[("X".toList, 9)]⟩ ["B=0".toList, "A=IN2".toList, "OUT2=W".toList, "C=A+B".toList,
      "F=NEG()".toList, "W=A".toList, "JMPT X".toList] 2 = .ok s ∧
    solve ⟨[("X".toList, 9)]⟩ ["B=0".toList, "A=IN2".toList, "OUT2=W".toList, "C=A+B".toList,
      "F=NEG()".toList, "W=A".toList, "JMPT X".toList] 1 = .ok i ∧ i.aluOp? = some .add ∧
    i.literal = 0 ∧ i.jumpTarget? = some 9 ∧
    i.text = "A=IN2, B=K, C=M, W=A, OUT2=W, F=N(M), JMPT, M:A+B, K=0, L=9".toList := by
  have hs : readRotation ⟨[("X".toList, 9)]⟩ ["B=0".toList, "A=IN2".toList, "OUT2=W".toList,
      "C=A+B".toList, "F=NEG()".toList, "W=A".toList, "JMPT X".toList] 2 =
      .ok { selectors := { a := 4, b := 3, c := 1, w := 1, o := 2, f := 2, j := 2 },
            alu := some .add, literal := some 0, target := some 9, needsAlu := true } := by
    decide +kernel
  have hi : solve ⟨[("X".toList, 9)]⟩ ["B=0".toList, "A=IN2".toList, "OUT2=W".toList,
      "C=A+B".toList, "F=NEG()".toList, "W=A".toList, "JMPT X".toList] 1 =
      .ok { a := 3, b := 3, c := 1, w := 1, o := 1, f := 2, j := 2, alu := 5, io := 1,
            twoConstants := true, value := 9 } := by
    decide +kernel
  obtain ⟨halu, hop, -, hliteral, htarget, htext, -⟩ := solved_shows_bound hs hi
  refine ⟨_, _, hs, hi, hop (halu.2 rfl), hliteral 0 rfl, htarget, htext.trans ?_⟩
  decide +kernel

end MicroAsm
