import MicroAsm.Proofs.Relocation
import MicroAsm.Proofs.Renumbering
/-!
One source below another. The label table of both together has the labels of the upper source as
they are and those of the lower source moved by the number of instructions above them, so that the
lines are solved as in their own sources, apart from the branches of the lower one.
-/
namespace MicroAsm
open Text

/-- The line below so many others. -/
def CodeLine.below (n : Nat) (l : CodeLine) : CodeLine := { l with number := l.number + n }

theorem CodeLine.below_eq_renumber (n : Nat) : CodeLine.below n = CodeLine.renumber (· + n) := rfl

theorem filter_bears_below (n : Nat) (ls : List CodeLine) :
    (ls.map (CodeLine.below n)).filter CodeLine.bears =
      (ls.filter CodeLine.bears).map (CodeLine.below n) := by
  rw [CodeLine.below_eq_renumber, filter_bears_renumber]

theorem codeLines_append {s₁ : Text} (h : s₁.getLast? = some '\n') (s₂ : Text) :
    codeLines (s₁ ++ s₂) =
      codeLines s₁ ++ (codeLines s₂).map (CodeLine.below (lines s₁).length) := by
  obtain ⟨s, rfl⟩ := List.getLast?_eq_some_iff.1 h
  unfold codeLines
  rw [List.append_assoc, List.singleton_append, lines_append, List.zipIdx_append, List.map_append,
    Nat.add_comm 1, ← List.map_snd_add_zipIdx_eq_zipIdx, List.map_map, List.map_map]
  rfl

section Append
variable {ls ms : List CodeLine} {k : Nat}

theorem Lawful.append_below (hl : Lawful ls) (hm : Lawful ms)
    (hd : (definedNames ls).Disjoint (definedNames ms))
    (hsize : ls.countP CodeLine.bears + ms.countP CodeLine.bears ≤ maxInstructions) :
    Lawful (ls ++ ms.map (CodeLine.below k)) where
  colon := by
    rw [List.forall_mem_append, List.forall_mem_map]
    exact ⟨hl.colon, hm.colon⟩
  names := by
    rw [definedNames_append, CodeLine.below_eq_renumber, definedNames_renumber]
    exact hl.names.append hm.names hd
  size := by
    rw [List.countP_append, CodeLine.below_eq_renumber, countP_bears_renumber]
    exact hsize

theorem tableOf_append : tableOf (ls ++ ms) =
    (tableOf ls).append ((tableOf ms).retarget (moved (ls.countP CodeLine.bears))) := by
  have hmoved (n k : Nat) : UInt8.ofNat (n + k) = moved n (UInt8.ofNat k) := by
    apply UInt8.toNat_inj.1
    simp only [moved, UInt8.toNat_ofNat']
    omega
  unfold tableOf LabelTable.append LabelTable.retarget
  rw [labelsOf_append, List.map_append, List.map_map, List.map_map]
  congr 2
  apply List.map_congr_left
  rintro ⟨name, k⟩ -
  simp only [Function.comp_apply, Prod.map, id_eq, hmoved]

theorem relocates_above : Relocates id (tableOf ls) (tableOf (ls ++ ms)) := by
  intro name t h
  rw [tableOf_append, LabelTable.get?_append, h]
  rfl

theorem relocates_below (hd : (definedNames ls).Disjoint (definedNames ms)) :
    Relocates (moved (ls.countP CodeLine.bears)) (tableOf ms)
      (tableOf (ls ++ ms.map (CodeLine.below k))) := by
  intro name t h
  have hm : name ∈ definedNames ms := by
    by_contra hn
    rw [(get?_tableOf_eq_none_iff ms).2 hn] at h
    contradiction
  have hl : (tableOf ls).get? name = none :=
    (get?_tableOf_eq_none_iff ls).2 fun hn => hd hn hm
  rw [tableOf_append, LabelTable.get?_append, hl, CodeLine.below_eq_renumber, tableOf_renumber,
    LabelTable.get?_retarget, h]
  rfl

theorem toNat_tableOf_append (hl : Lawful ls) (hm : Lawful ms)
    (h : Lawful (ls ++ ms.map (CodeLine.below k))) :
    (tableOf (ls ++ ms.map (CodeLine.below k))).entries.map (fun e => (e.1, e.2.toNat)) =
      (tableOf ls).entries.map (fun e => (e.1, e.2.toNat)) ++
        (tableOf ms).entries.map (fun e => (e.1, e.2.toNat + ls.countP CodeLine.bears)) := by
  rw [toNat_tableOf h, labelsOf_append, CodeLine.below_eq_renumber, labelsOf_renumber,
    toNat_tableOf hl, ← toNat_tableOf hm, List.map_map]
  congr 1
  apply List.map_congr_left
  intro e _
  simp only [Function.comp_apply, Prod.map, id_eq, Nat.add_comm]

theorem toNat_le_of_get?_tableOf {name : Text} {t : Address}
    (h : (tableOf ms).get? name = some t) : t.toNat ≤ ms.countP CodeLine.bears := by
  obtain ⟨e, he, rfl⟩ := Option.map_eq_some_iff.1 h
  obtain ⟨d, hd, rfl⟩ := List.mem_map.1 (List.mem_of_find?_eq_some he)
  have hle := le_of_mem_labelsOf ms hd
  have hmod : (UInt8.ofNat d.2).toNat = d.2 % 256 := UInt8.toNat_ofNat'
  rw [hmod]
  omega

end Append

theorem solves_above (ms : List CodeLine) {ls : List CodeLine} {is : List Instruction}
    (his : List.Forall₂ (SolvesLine (tableOf ls)) (ls.filter CodeLine.bears) is) :
    List.Forall₂ (SolvesLine (tableOf (ls ++ ms))) (ls.filter CodeLine.bears) is :=
  his.imp fun l _ h => solve_of_relocates_id relocates_above h l.number

section Solving
variable {labels labels' : LabelTable} {ls : List CodeLine} {is : List Instruction} {n k : Nat}

theorem exists_solves_moved (hl : Relocates (moved n) labels labels')
    (hn : ∀ name t, labels.get? name = some t → t.toNat + n ≤ 255)
    (his : List.Forall₂ (SolvesLine labels) ls is) (hmov : ∀ i ∈ is, i.Movable n) :
    ∃ js, List.Forall₂ (SolvesLine labels') (ls.map (CodeLine.below k)) js ∧
      List.Forall₂ (Instruction.Moved n) is js := by
  induction his with
  | nil => exact ⟨[], .nil, .nil⟩
  | cons h _ ih =>
    rw [List.forall_mem_cons] at hmov
    obtain ⟨j, hj, hmoved⟩ := (solve_of_relocates_moved hl hn h _).1 hmov.1
    obtain ⟨js, hjs, hall⟩ := ih hmov.2
    exact ⟨j :: js, .cons hj hjs, .cons hmoved hall⟩

/-- Of instructions that cannot all be moved, one is the first. -/
theorem exists_first_immovable {R : CodeLine → Instruction → Prop} (his : List.Forall₂ R ls is)
    (h : ¬∀ i ∈ is, i.Movable n) : ∃ ls₁ l ls₂ is₁ i is₂, ls = ls₁ ++ l :: ls₂ ∧
      is = is₁ ++ i :: is₂ ∧ List.Forall₂ R ls₁ is₁ ∧ R l i ∧ (∀ j ∈ is₁, j.Movable n) ∧
      ¬i.Movable n := by
  induction his with
  | nil => simp at h
  | @cons l i ls is hl hls ih =>
    by_cases hi : i.Movable n
    · rw [List.forall_mem_cons, and_iff_right hi] at h
      obtain ⟨ls₁, m, ls₂, is₁, j, is₂, rfl, rfl, hrel, hj, hmov, hnot⟩ := ih h
      exact ⟨l :: ls₁, m, ls₂, i :: is₁, j, is₂, rfl, rfl, .cons hl hrel, hj,
        List.forall_mem_cons.2 ⟨hi, hmov⟩, hnot⟩
    · exact ⟨[], l, ls, [], i, is, rfl, rfl, .nil, hl, by simp, hi⟩

end Solving

/-- A source below another one, which ends in a line feed and shares no label with it: the labels
and branches of the lower source move by the number of instructions above. Everything else stays as
it is, unless a target comes to be where it cannot share the value field with the constant of its
instruction; the first such line is reported. -/
theorem assemble_append {s₁ s₂ : Text} {a₁ a₂ : Assembly} (h₁ : assemble s₁ = .ok a₁)
    (h₂ : assemble s₂ = .ok a₂) (hend : s₁.getLast? = some '\n')
    (hnames : (a₁.labels.entries.map Prod.fst).Disjoint (a₂.labels.entries.map Prod.fst))
    (hsize : a₁.program.size + a₂.program.size ≤ 255) :
    ((∀ i ∈ a₂.program.instructions, i.Movable a₁.program.size) →
      ∃ a js, assemble (s₁ ++ s₂) = .ok a ∧
        a.labels.entries.map (fun e => (e.1, e.2.toNat)) =
          a₁.labels.entries.map (fun e => (e.1, e.2.toNat)) ++
            a₂.labels.entries.map (fun e => (e.1, e.2.toNat + a₁.program.size)) ∧
        a.program.instructions = a₁.program.instructions ++ js ∧
        List.Forall₂ (Instruction.Moved a₁.program.size) a₂.program.instructions js) ∧
    (¬(∀ i ∈ a₂.program.instructions, i.Movable a₁.program.size) →
      ∃ before i after l, a₂.program.instructions = before ++ i :: after ∧
        (∀ j ∈ before, j.Movable a₁.program.size) ∧ ¬i.Movable a₁.program.size ∧
        ((codeLines s₂).filter CodeLine.bears)[before.length]? = some l ∧
        assemble (s₁ ++ s₂) =
          .error ⟨some (l.number + (lines s₁).length), .unsatisfiable⟩) := by
  obtain ⟨hlaw₁, hne₁, hlabels₁, his₁⟩ := assemble_eq_ok_iff.1 h₁
  obtain ⟨hlaw₂, -, hlabels₂, his₂⟩ := assemble_eq_ok_iff.1 h₂
  have hsize₁ := size_of_assemble h₁
  have hsize₂ := size_of_assemble h₂
  have hlines := codeLines_append hend s₂
  generalize (lines s₁).length = k at hlines ⊢
  generalize codeLines s₁ = ls at *
  generalize codeLines s₂ = ms at *
  have hd : (definedNames ls).Disjoint (definedNames ms) := by
    rw [← map_fst_tableOf, ← map_fst_tableOf, ← hlabels₁, ← hlabels₂]
    exact hnames
  have hlaw : Lawful (codeLines (s₁ ++ s₂)) := by
    rw [hlines]
    apply hlaw₁.append_below hlaw₂ hd
    rw [← hsize₁, ← hsize₂]
    exact hsize
  have habove := solves_above (ms.map (CodeLine.below k)) his₁
  have hmoved := relocates_below (k := k) hd
  rw [← hsize₁] at hmoved
  have hbound (name : Text) (t : Address) (ht : (tableOf ms).get? name = some t) :
      t.toNat + a₁.program.size ≤ 255 := by
    have hle := toNat_le_of_get?_tableOf ht
    omega
  have hbears : (codeLines (s₁ ++ s₂)).filter CodeLine.bears =
      ls.filter CodeLine.bears ++ (ms.filter CodeLine.bears).map (CodeLine.below k) := by
    rw [hlines, List.filter_append, filter_bears_below]
  constructor
  · intro hmov
    obtain ⟨js, hjs, hall⟩ := exists_solves_moved (k := k) hmoved hbound his₂ hmov
    refine ⟨⟨tableOf (codeLines (s₁ ++ s₂)), ⟨a₁.program.instructions ++ js⟩⟩, js, ?_, ?_, rfl,
      hall⟩
    · refine assemble_eq_ok_iff.2 ⟨hlaw, ?_, rfl, ?_⟩
      · rw [hbears]
        exact List.append_ne_nil_of_left_ne_nil hne₁ _
      · rw [hbears, hlines]
        exact List.rel_append habove hjs
    · rw [hlines] at hlaw ⊢
      rw [hlabels₁, hlabels₂, hsize₁]
      exact toNat_tableOf_append hlaw₁ hlaw₂ hlaw
  · intro hnot
    obtain ⟨ls₁, l, ls₂, is₁, i, is₂, hsplit, his, hrel, hl, hmov, himm⟩ :=
      exists_first_immovable his₂ hnot
    obtain ⟨js, hjs, -⟩ := exists_solves_moved (k := k) hmoved hbound hrel hmov
    refine ⟨is₁, i, is₂, l, his, hmov, himm, ?_, ?_⟩
    · rw [hsplit, ← hrel.length_eq]
      simp
    · rw [hsplit, List.map_append, List.map_cons, ← List.append_assoc] at hbears
      have hfirst : List.Forall₂ (SolvesLine (tableOf (codeLines (s₁ ++ s₂))))
          (ls.filter CodeLine.bears ++ ls₁.map (CodeLine.below k))
          (a₁.program.instructions ++ js) := by
        rw [hlines]
        exact List.rel_append habove hjs
      apply assemble_of_error hlaw hbears hfirst
      rw [hlines]
      exact (solve_of_relocates_moved hmoved hbound hl _).2 himm

/-- Below one instruction, a branch that goes to 0 goes to 1. Below 64 of them, its target leaves
the constant beside it no room. -/
theorem branch_moved_or_unsatisfiable :
    (∃ a, assemble ("  DEC\n".toList ++ "x: B=3,JMP x\n".toList) = .ok a ∧
      a.labels.entries.map (fun e => (e.1, e.2.toNat)) = [("X".toList, 1)]) ∧
    assemble ((List.replicate 64 "  DEC\n".toList).flatten ++ "x: B=3,JMP x\n".toList) =
      .error ⟨some 65, .unsatisfiable⟩ := by
  have hone : assemble "  DEC\n".toList = .ok ⟨{}, ⟨[{ c := 2 }]⟩⟩ := by decide +kernel
  have hmany : assemble (List.replicate 64 "  DEC\n".toList).flatten =
      .ok ⟨{}, ⟨List.replicate 64 { c := 2 }⟩⟩ := by
    decide +kernel
  have hbelow : assemble "x: B=3,JMP x\n".toList =
      .ok ⟨⟨[("X".toList, 0)]⟩, ⟨[{ b := 3, j := 1, twoConstants := true, value := 192 }]⟩⟩ := by
    decide +kernel
  constructor
  · obtain ⟨a, js, ha, hlabels, -⟩ :=
      (assemble_append hone hbelow rfl (by simp) (by decide)).1 (by decide +kernel)
    exact ⟨a, ha, hlabels⟩
  · obtain ⟨before, i, after, l, hsplit, -, -, hl, herr⟩ := (assemble_append hmany hbelow
      (by decide +kernel) (by simp) (by decide)).2 (by decide +kernel)
    have hfirst : ((codeLines "x: B=3,JMP x\n".toList).filter CodeLine.bears)[0]? =
        some ⟨1, "X: B=3,JMP X".toList⟩ := by
      decide +kernel
    have hcount : (lines (List.replicate 64 "  DEC\n".toList).flatten).length = 64 := by
      decide +kernel
    rcases List.append_eq_singleton_iff.1 hsplit.symm with ⟨rfl, -⟩ | ⟨-, hnil⟩
    · obtain rfl := Option.some.inj (hl.symm.trans hfirst)
      rw [herr, hcount]
    · exact absurd hnil (List.cons_ne_nil i after)

end MicroAsm
