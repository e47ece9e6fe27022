import MicroAsm.Proofs.ControlFlow
/-!
The reserved address. A program counter has one value more than a program can have instructions,
and a label gets it if and only if it stands below 255 of them.
-/
namespace MicroAsm
open LineState

/-- A name for the address behind the last instruction. -/
def EndLabel (ls : List CodeLine) (name : Text) : Prop :=
  ∃ above l below, ls = above ++ l :: below ∧ l.definesLabel = true ∧ l.labelName = name ∧
    ∀ m ∈ l :: below, m.bears = false

section Labels
variable {ls : List CodeLine} {name : Text}

theorem endLabel_iff : EndLabel ls name ↔ (name, ls.countP CodeLine.bears) ∈ labelsOf ls := by
  have hcount (above below : List CodeLine) :
      above.countP CodeLine.bears = (above ++ below).countP CodeLine.bears ↔
        ∀ m ∈ below, m.bears = false := by
    rw [List.countP_append, eq_comm, Nat.add_eq_left, List.countP_eq_zero]
    simp only [Bool.not_eq_true]
  rw [mem_labelsOf_iff]
  constructor
  · rintro ⟨above, l, below, rfl, hlabel, hname, hidle⟩
    exact ⟨above, l, below, rfl, hlabel, hname, (hcount above (l :: below)).2 hidle⟩
  · rintro ⟨above, l, below, rfl, hlabel, hname, hn⟩
    exact ⟨above, l, below, rfl, hlabel, hname, (hcount above (l :: below)).1 hn⟩

/-- Labels with the reserved address are the names behind a program that is full. -/
theorem reserved_mem_tableOf_iff (h : Lawful ls) : (name, 255) ∈ (tableOf ls).entries ↔
    ls.countP CodeLine.bears = 255 ∧ EndLabel ls name := by
  have hsize : ls.countP CodeLine.bears ≤ 255 := h.size
  have hnat : (name, 255) ∈ (tableOf ls).entries ↔ (name, 255) ∈ labelsOf ls := by
    rw [← toNat_tableOf h, List.mem_map]
    constructor
    · exact fun hm => ⟨_, hm, rfl⟩
    · rintro ⟨⟨other, pc⟩, hm, heq⟩
      obtain ⟨rfl, hpc⟩ := Prod.mk.inj heq
      obtain rfl : pc = 255 := UInt8.toNat_inj.1 hpc
      exact hm
  rw [hnat]
  constructor
  · intro hm
    have hfull : ls.countP CodeLine.bears = 255 :=
      Nat.le_antisymm hsize (le_of_mem_labelsOf ls hm)
    exact ⟨hfull, endLabel_iff.2 (hfull.symm ▸ hm)⟩
  · rintro ⟨hfull, hend⟩
    exact hfull ▸ endLabel_iff.1 hend

end Labels

/-- The target of an instruction is the address of a label that its line branches to. -/
theorem SolvesLine.jumpTarget?_eq_some_iff {labels : LabelTable} {l : CodeLine} {i : Instruction}
    {t : Address} (h : SolvesLine labels l i) : i.jumpTarget? = some t ↔
      ∃ x ∈ branchPrefixes, ∃ name, HasBranch (tokenize l.body) x.2.2 name ∧
        labels.get? name = some t := by
  rw [l.body_eq, tokenize_trim]
  obtain ⟨-, cs, s, hm, hset, rfl⟩ := exists_settled_of_solve h
  rw [hset.jumpTarget?_layOut hm]
  constructor
  · intro ht
    obtain ⟨x, hx, name, hb⟩ := hset.exists_hasBranch hm ht
    obtain ⟨t', hget, ht', -⟩ := hset.of_hasBranch hm hx hb
    exact ⟨x, hx, name, hb, by rw [hget, ← ht', ht]⟩
  · rintro ⟨x, hx, name, hb, hget⟩
    obtain ⟨t', hget', ht', -⟩ := hset.of_hasBranch hm hx hb
    rw [ht', ← hget', hget]

/-- A label has the reserved address if and only if the program has 255 instructions and the label
stands below the last of them, and an instruction branches there if and only if its line names such
a label. In all other programs the addresses of labels are below 255, and so are the targets. -/
theorem reserved_address_behind_full_program {source : Text} {a : Assembly}
    (h : assemble source = .ok a) :
    (∀ name, (name, 255) ∈ a.labels.entries ↔
      a.program.size = 255 ∧ EndLabel (codeLines source) name) ∧
    List.Forall₂ (fun l i => i.jumpTarget? = some 255 ↔ a.program.size = 255 ∧
        ∃ x ∈ branchPrefixes, ∃ name, HasBranch (tokenize l.body) x.2.2 name ∧
          EndLabel (codeLines source) name)
      ((codeLines source).filter CodeLine.bears) a.program.instructions ∧
    (¬(a.program.size = 255 ∧ ∃ name, EndLabel (codeLines source) name) →
      (∀ e ∈ a.labels.entries, e.2.toNat ≤ 254) ∧
      ∀ i ∈ a.program.instructions, i.jumpTarget? ≠ some 255) := by
  obtain ⟨hlaw, -, hlabels, his⟩ := assemble_eq_ok_iff.1 h
  have hreserved (name : Text) : (name, 255) ∈ a.labels.entries ↔
      a.program.size = 255 ∧ EndLabel (codeLines source) name := by
    rw [hlabels, size_of_assemble h]
    exact reserved_mem_tableOf_iff hlaw
  have htargets : List.Forall₂ (fun l i => i.jumpTarget? = some 255 ↔ a.program.size = 255 ∧
      ∃ x ∈ branchPrefixes, ∃ name, HasBranch (tokenize l.body) x.2.2 name ∧
        EndLabel (codeLines source) name)
      ((codeLines source).filter CodeLine.bears) a.program.instructions := by
    have hget (name : Text) : (tableOf (codeLines source)).get? name = some 255 ↔
        a.program.size = 255 ∧ EndLabel (codeLines source) name := by
      rw [get?_tableOf_eq_some_iff _ hlaw.names, ← hlabels, hreserved]
    refine his.imp fun l i hl => ?_
    rw [hl.jumpTarget?_eq_some_iff]
    simp only [hget]
    constructor
    · rintro ⟨x, hx, name, hb, hfull, hend⟩
      exact ⟨hfull, x, hx, name, hb, hend⟩
    · rintro ⟨hfull, x, hx, name, hb, hend⟩
      exact ⟨x, hx, name, hb, hfull, hend⟩
  refine ⟨hreserved, htargets, fun hno => ⟨?_, ?_⟩⟩
  · rintro ⟨name, pc⟩ hm
    have hne : pc ≠ 255 := by
      rintro rfl
      obtain ⟨hfull, hend⟩ := (hreserved name).1 hm
      exact hno ⟨hfull, name, hend⟩
    have hnat : pc.toNat ≠ 255 := fun heq => hne (UInt8.toNat_inj.1 heq)
    have hlt := pc.toNat_lt
    show pc.toNat ≤ 254
    omega
  · intro i hi ht
    obtain ⟨l, hl⟩ := exists_forall₂_iff.1 ⟨_, htargets.flip⟩ i hi
    obtain ⟨hfull, x, hx, name, -, hend⟩ := hl.1 ht
    exact hno ⟨hfull, name, hend⟩

/-- As many instructions as there can be, and a label below them. -/
def fullProgram : Text :=
  (List.replicate 254 "  DEC\n".toList).flatten ++ "  JMP end\nend:\n".toList

theorem assemble_fullProgram : assemble fullProgram = .ok ⟨⟨[("END".toList, 255)]⟩,
    ⟨List.replicate 254 { c := 2 } ++ [{ j := 1, value := 255 }]⟩⟩ := by
  decide +kernel

/-- The label of a full program stands behind it. -/
theorem end_of_fullProgram : assemble fullProgram = .ok ⟨⟨[("END".toList, 255)]⟩,
    ⟨List.replicate 254 { c := 2 } ++ [{ j := 1, value := 255 }]⟩⟩ ∧
    EndLabel (codeLines fullProgram) "END".toList := by
  obtain ⟨hreserved, -⟩ := reserved_address_behind_full_program assemble_fullProgram
  exact ⟨assemble_fullProgram, ((hreserved "END".toList).1 (List.mem_singleton_self _)).2⟩

/-- The reserved address is given to a label, and an instruction branches there. -/
theorem reserved_address_in_use : ∃ a, assemble fullProgram = .ok a ∧
    ¬(∀ e ∈ a.labels.entries, e.2.toNat ≤ 254) ∧
    ¬∀ i ∈ a.program.instructions, i.jumpTarget? ≠ some 255 := by
  refine ⟨_, assemble_fullProgram, ?_, ?_⟩
  · intro h
    exact absurd (h _ (List.mem_singleton_self _)) (by decide)
  · intro h
    exact h _ (List.mem_append_right _ (List.mem_singleton_self _)) rfl

end MicroAsm
