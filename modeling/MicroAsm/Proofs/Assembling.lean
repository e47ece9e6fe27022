import Mathlib.Data.List.Forall2
import MicroAsm.Assembly
import MicroAsm.Proofs.Rotation
import MicroAsm.Proofs.SourceOutline
import MicroAsm.Proofs.Trimming
/-!
What assembling a source amounts to. Every line with an instruction is solved on its own against
the labels of the whole source, and the program is the list of these solutions.
-/
namespace MicroAsm
open Text

section Statements
variable {labels : LabelTable} {p q : Program} {s : Statement} {ss ts : List Statement}
  {is : List Instruction} {d : Diagnostic}

/-- A statement with the instruction that it is solved to. -/
def Solves (labels : LabelTable) (s : Statement) (i : Instruction) : Prop :=
  solve labels (tokenize s.body) s.line = .ok i

theorem addStatement_eq_ok_iff : p.addStatement labels s = .ok q ↔
    ∃ i, Solves labels s i ∧ p.size < maxInstructions ∧ q = ⟨p.instructions ++ [i]⟩ := by
  unfold Program.addStatement
  rw [bind_eq_ok_iff]
  refine exists_congr fun i => and_congr_right fun _ => ?_
  have hok : p.push i s.line = (.ok (), q) ↔
      p.size < maxInstructions ∧ q = ⟨p.instructions ++ [i]⟩ :=
    Program.push_eq_ok_iff
  rw [← hok]
  rcases p.push i s.line with ⟨_ | ⟨⟩, r⟩ <;> simp [pure, Except.pure]

/-- As long as the program has room for all statements, only their solutions count. -/
theorem foldlM_addStatement_eq_ok_iff (hsize : p.size + ss.length ≤ maxInstructions) :
    ss.foldlM (Program.addStatement labels) p = .ok q ↔
      ∃ is, List.Forall₂ (Solves labels) ss is ∧ q = ⟨p.instructions ++ is⟩ := by
  induction ss generalizing p with
  | nil =>
    simp only [List.foldlM_nil, List.forall₂_nil_left_iff, exists_eq_left, List.append_nil]
    exact ⟨fun h => (Except.ok.inj h).symm, fun h => congrArg Except.ok h.symm⟩
  | cons s ss ih =>
    rw [List.length_cons] at hsize
    have hroom : p.size < maxInstructions := by omega
    have hrest (i : Instruction) :
        (⟨p.instructions ++ [i]⟩ : Program).size + ss.length ≤ maxInstructions := by
      simp only [Program.size, List.length_append, List.length_singleton] at hsize ⊢
      omega
    rw [List.foldlM_cons, bind_eq_ok_iff]
    simp only [addStatement_eq_ok_iff, hroom, true_and]
    constructor
    · rintro ⟨_, ⟨i, hi, rfl⟩, h⟩
      obtain ⟨is, his, rfl⟩ := (ih (hrest i)).1 h
      exact ⟨i :: is, .cons hi his, by simp⟩
    · rintro ⟨_, h, rfl⟩
      obtain ⟨i, is, hi, his, rfl⟩ := List.forall₂_cons_left_iff.1 h
      exact ⟨_, ⟨i, hi, rfl⟩, (ih (hrest i)).2 ⟨is, his, by simp⟩⟩

theorem addStatement_of_error (h : solve labels (tokenize s.body) s.line = .error d) :
    p.addStatement labels s = .error d := by
  unfold Program.addStatement
  rw [h]
  rfl

/-- The first statement without a solution ends the pass. -/
theorem foldlM_addStatement_of_error (hsize : ss.length ≤ maxInstructions)
    (hs : List.Forall₂ (Solves labels) ss is)
    (h : solve labels (tokenize s.body) s.line = .error d) :
    (ss ++ s :: ts).foldlM (Program.addStatement labels) {} = .error d := by
  have hfirst : ss.foldlM (Program.addStatement labels) {} = .ok ⟨is⟩ :=
    (foldlM_addStatement_eq_ok_iff (by simpa [Program.size] using hsize)).2 ⟨is, hs, by simp⟩
  exact foldlM_eq_error_iff.2 ⟨ss, s, ts, _, rfl, hfirst, addStatement_of_error h⟩

theorem finish_eq_ok_iff : p.finish = .ok q ↔ p.instructions ≠ [] ∧ q = p := by
  unfold Program.finish Program.isEmpty
  cases p.instructions with
  | nil => simp
  | cons i is =>
    simp only [List.isEmpty_cons, Bool.false_eq_true, if_false, Except.ok.injEq, ne_eq,
      reduceCtorEq, not_false_eq_true, true_and]
    exact eq_comm

theorem outline_assemble_eq_ok_iff {o : Outline} {a : Assembly}
    (hsize : o.statements.length ≤ maxInstructions) :
    o.assemble = .ok a ↔ o.statements ≠ [] ∧ a.labels = o.labels ∧
      List.Forall₂ (Solves o.labels) o.statements a.program.instructions := by
  have hroom : Program.size {} + o.statements.length ≤ maxInstructions := by
    simpa [Program.size] using hsize
  unfold Outline.assemble
  simp only [bind_eq_ok_iff, foldlM_addStatement_eq_ok_iff hroom, finish_eq_ok_iff]
  constructor
  · rintro ⟨_, ⟨is, his, rfl⟩, _, ⟨hne, rfl⟩, h⟩
    obtain rfl := Except.ok.inj h
    refine ⟨?_, rfl, his⟩
    intro hnil
    rw [hnil, List.forall₂_nil_left_iff] at his
    exact hne his
  · rintro ⟨hne, hl, his⟩
    refine ⟨_, ⟨_, his, rfl⟩, a.program, ⟨?_, rfl⟩, ?_⟩
    · intro hnil
      simp only [List.nil_append] at hnil
      rw [hnil, List.forall₂_nil_right_iff] at his
      exact hne his
    · rw [← hl]
      rfl

end Statements

/-- What follows the label of a line, with the blanks around it; the whole code without a label. -/
def CodeLine.afterLabel (l : CodeLine) : Text :=
  if l.definesLabel then (l.code.dropWhile (· != ':')).drop 1 else l.code

theorem CodeLine.body_eq (l : CodeLine) : l.body = trim l.afterLabel := rfl

/-- A line with the instruction that it is solved to. -/
def SolvesLine (labels : LabelTable) (l : CodeLine) (i : Instruction) : Prop :=
  solve labels (tokenize l.afterLabel) l.number = .ok i

section Sources
variable {labels : LabelTable} {ls : List CodeLine} {is : List Instruction} {source : Text}
  {a : Assembly}

theorem forall₂_statements : List.Forall₂ (Solves labels)
    (ls.zipIdx.map fun (l, k) => ⟨l.number, UInt8.ofNat k, l.body⟩) is ↔
    List.Forall₂ (SolvesLine labels) ls is := by
  have hbody (l : CodeLine) (i : Instruction) (pc : Address) :
      Solves labels ⟨l.number, pc, l.body⟩ i ↔ SolvesLine labels l i := by
    simp only [Solves, SolvesLine, l.body_eq, tokenize_trim]
  conv_rhs => rw [← List.zipIdx_map_fst 0 ls, List.forall₂_map_left_iff]
  simp only [List.forall₂_map_left_iff, hbody]

/-- What assembling does with the lines of a source. -/
def assembleLines (ls : List CodeLine) : Except Diagnostic Assembly := do
  (← Outline.ofLines ls).assemble

theorem assembleLines_eq_ok_iff : assembleLines ls = .ok a ↔ Lawful ls ∧
    ls.filter CodeLine.bears ≠ [] ∧ a.labels = tableOf ls ∧
    List.Forall₂ (SolvesLine (tableOf ls)) (ls.filter CodeLine.bears) a.program.instructions := by
  have hne : statementsOf ls ≠ [] ↔ ls.filter CodeLine.bears ≠ [] := by
    simp [statementsOf]
  have hpass (hlaw : Lawful ls) := outline_assemble_eq_ok_iff (a := a) (o := outlineOf ls)
    (by simpa [outlineOf, length_statementsOf] using hlaw.size)
  unfold assembleLines
  simp only [bind_eq_ok_iff, ofLines_eq_ok_iff]
  constructor
  · rintro ⟨_, ⟨hlaw, rfl⟩, h⟩
    obtain ⟨hn, hl, his⟩ := (hpass hlaw).1 h
    exact ⟨hlaw, hne.1 hn, hl, forall₂_statements.1 his⟩
  · rintro ⟨hlaw, hn, hl, his⟩
    exact ⟨_, ⟨hlaw, rfl⟩, (hpass hlaw).2 ⟨hne.2 hn, hl, forall₂_statements.2 his⟩⟩

theorem assemble_eq_ok_iff : assemble source = .ok a ↔ Lawful (codeLines source) ∧
    (codeLines source).filter CodeLine.bears ≠ [] ∧ a.labels = tableOf (codeLines source) ∧
    List.Forall₂ (SolvesLine (tableOf (codeLines source)))
      ((codeLines source).filter CodeLine.bears) a.program.instructions :=
  assembleLines_eq_ok_iff

/-- The first line without a solution ends the assembly. -/
theorem assemble_of_error {l : CodeLine} {ms : List CodeLine} {d : Diagnostic}
    (hlaw : Lawful (codeLines source))
    (hsplit : (codeLines source).filter CodeLine.bears = ls ++ l :: ms)
    (his : List.Forall₂ (SolvesLine (tableOf (codeLines source))) ls is)
    (h : solve (tableOf (codeLines source)) (tokenize l.afterLabel) l.number = .error d) :
    assemble source = .error d := by
  have hsize : ls.length ≤ maxInstructions := by
    have hlen := congrArg List.length hsplit
    have hle := hlaw.size
    rw [List.countP_eq_length_filter] at hle
    simp only [List.length_append] at hlen
    omega
  have hpass : (outlineOf (codeLines source)).assemble = .error d := by
    unfold Outline.assemble outlineOf statementsOf
    rw [hsplit, List.zipIdx_append, List.map_append, List.zipIdx_cons, List.map_cons]
    rw [foldlM_addStatement_of_error (by simpa using hsize) (forall₂_statements.2 his)]
    · rfl
    · simpa only [l.body_eq, tokenize_trim] using h
  unfold assemble Outline.ofSource
  rw [ofLines_eq_ok_iff.2 ⟨hlaw, rfl⟩]
  exact hpass

theorem size_of_assemble (h : assemble source = .ok a) :
    a.program.size = (codeLines source).countP CodeLine.bears := by
  obtain ⟨-, -, -, his⟩ := assemble_eq_ok_iff.1 h
  rw [List.countP_eq_length_filter]
  exact his.length_eq.symm

/-- With no more instructions than a program may have, no address is cut to eight bits. -/
theorem toNat_tableOf (h : Lawful ls) :
    (tableOf ls).entries.map (fun e => (e.1, e.2.toNat)) = labelsOf ls := by
  have hlt : ∀ e ∈ labelsOf ls, e.2 < 256 := by
    intro e he
    have hle := le_of_mem_labelsOf ls he
    have hsize := h.size
    unfold maxInstructions at hsize
    omega
  rw [tableOf, List.map_map]
  conv_rhs => rw [← List.map_id (labelsOf ls)]
  apply List.map_congr_left
  intro e he
  simp [UInt8.toNat_ofNat_of_lt' (hlt e he)]

end Sources

/-- A source assembles if and only if its label lines have colons, no name is defined twice, it has
one to 255 instructions, and each of them is solved against all labels. The program then consists
of these solutions in the order of the lines, and a label stands for the number of instructions
above its line. -/
theorem assemble_iff_lines_solve (source : Text) :
    ((∃ a, assemble source = .ok a) ↔
      (∀ l ∈ codeLines source, l.definesLabel = true → l.hasColon = true) ∧
      (definedNames (codeLines source)).Nodup ∧
      (1 ≤ (codeLines source).countP CodeLine.bears ∧
        (codeLines source).countP CodeLine.bears ≤ 255) ∧
      ∀ l ∈ (codeLines source).filter CodeLine.bears,
        ∃ i, SolvesLine (tableOf (codeLines source)) l i) ∧
    ∀ a, assemble source = .ok a →
      List.Forall₂ (SolvesLine a.labels) ((codeLines source).filter CodeLine.bears)
        a.program.instructions ∧
      a.labels.entries.map (fun e => (e.1, e.2.toNat)) = labelsOf (codeLines source) := by
  have hpos (ls : List CodeLine) :
      ls.filter CodeLine.bears ≠ [] ↔ 1 ≤ ls.countP CodeLine.bears := by
    rw [List.countP_eq_length_filter]
    exact List.length_pos_iff.symm
  constructor
  · rw [← exists_forall₂_iff]
    simp only [assemble_eq_ok_iff, hpos]
    constructor
    · rintro ⟨a, hlaw, hone, -, his⟩
      exact ⟨hlaw.colon, hlaw.names, ⟨hone, hlaw.size⟩, _, his⟩
    · rintro ⟨hcolon, hnames, ⟨hone, hsize⟩, is, his⟩
      exact ⟨⟨_, ⟨is⟩⟩, ⟨hcolon, hnames, hsize⟩, hone, rfl, his⟩
  · intro a h
    obtain ⟨hlaw, -, hl, his⟩ := assemble_eq_ok_iff.1 h
    rw [hl]
    exact ⟨his, toNat_tableOf hlaw⟩

/-- The second instruction jumps to a label that is still to come, the third one back. -/
theorem jumps_forward_and_back : ∃ a,
    assemble "top: A=IN1\n  W=A,JMP end ; out\nend: JMP top\n".toList = .ok a ∧
    a.labels.entries.map (fun e => (e.1, e.2.toNat)) = [("TOP".toList, 0), ("END".toList, 2)] ∧
    a.program.instructions.map Instruction.branchTarget = [0, 2, 0] := by
  have h : assemble "top: A=IN1\n  W=A,JMP end ; out\nend: JMP top\n".toList =
      .ok ⟨⟨[("TOP".toList, 0), ("END".toList, 2)]⟩,
        ⟨[{ a := 3 }, { w := 1, j := 1, value := 2 }, { j := 1 }]⟩⟩ := by
    decide +kernel
  refine ⟨_, h, ?_, by decide⟩
  rw [((assemble_iff_lines_solve _).2 _ h).2]
  decide +kernel

end MicroAsm
