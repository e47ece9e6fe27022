import MicroAsm.Proofs.Assembling
/-!
Lines under other numbers. The number of a line matters to the diagnostics about it and to nothing
else: renumbered lines have the same labels and the same program, or the same fault, which is
reported for the new number of its line.
-/
namespace MicroAsm

section Renumber
variable (f : Nat → Nat)

def CodeLine.renumber (l : CodeLine) : CodeLine := { l with number := f l.number }

def Statement.renumber (s : Statement) : Statement := { s with line := f s.line }

def Outline.renumber (o : Outline) : Outline :=
  { o with statements := o.statements.map (Statement.renumber f) }

def Diagnostic.renumber (d : Diagnostic) : Diagnostic := { d with line := d.line.map f }

section Fields
variable (l : CodeLine) (o : Outline)

@[simp] theorem CodeLine.definesLabel_renumber :
    (l.renumber f).definesLabel = l.definesLabel := rfl

@[simp] theorem CodeLine.hasColon_renumber : (l.renumber f).hasColon = l.hasColon := rfl

@[simp] theorem CodeLine.labelName_renumber : (l.renumber f).labelName = l.labelName := rfl

@[simp] theorem CodeLine.body_renumber : (l.renumber f).body = l.body := rfl

@[simp] theorem Outline.labels_renumber : (o.renumber f).labels = o.labels := rfl

@[simp] theorem Outline.length_statements_renumber :
    (o.renumber f).statements.length = o.statements.length := List.length_map _

@[simp] theorem Outline.next_renumber : (o.renumber f).next = o.next := by
  rw [Outline.next, Outline.length_statements_renumber]
  rfl

end Fields

section Lines
variable (ls : List CodeLine)

theorem labelsOf_renumber : labelsOf (ls.map (CodeLine.renumber f)) = labelsOf ls := by
  unfold labelsOf
  rw [List.zipIdx_map, List.filterMap_map]
  apply List.filterMap_congr
  rintro ⟨l, k⟩ -
  simp only [Function.comp_apply, Prod.map, id_eq, ← List.map_take, List.countP_map]
  rfl

theorem tableOf_renumber : tableOf (ls.map (CodeLine.renumber f)) = tableOf ls := by
  rw [tableOf, labelsOf_renumber]
  rfl

theorem filter_bears_renumber : (ls.map (CodeLine.renumber f)).filter CodeLine.bears =
    (ls.filter CodeLine.bears).map (CodeLine.renumber f) := by
  rw [List.filter_map]
  rfl

theorem definedNames_renumber :
    definedNames (ls.map (CodeLine.renumber f)) = definedNames ls := by
  unfold definedNames
  rw [List.filter_map, List.map_map]
  rfl

theorem countP_bears_renumber :
    (ls.map (CodeLine.renumber f)).countP CodeLine.bears = ls.countP CodeLine.bears := by
  rw [List.countP_map]
  rfl

end Lines

theorem atLine_renumber {α : Type} (x : Except Fault α) (line : Nat) :
    atLine (f line) x = (atLine line x).mapError (Diagnostic.renumber f) := by
  cases x <;> rfl

namespace Outline

theorem addLabel_renumber (o : Outline) (l : CodeLine) :
    (o.renumber f).addLabel (l.renumber f) = (o.addLabel l).map (Outline.renumber f) := by
  simp only [addLabel, CodeLine.definesLabel_renumber, CodeLine.hasColon_renumber,
    CodeLine.labelName_renumber, labels_renumber, next_renumber]
  split
  · split
    · cases o.labels.define l.labelName o.next <;> rfl
    · rfl
  · rfl

theorem addBody_renumber (o : Outline) (l : CodeLine) :
    (o.renumber f).addBody (l.renumber f) = (o.addBody l).map (Outline.renumber f) := by
  simp only [addBody, CodeLine.body_renumber, length_statements_renumber, next_renumber]
  split
  · rfl
  · split
    · rfl
    · simp only [Except.map, renumber, List.map_append]
      rfl

/-- One line. -/
theorem addLine_renumber (o : Outline) (l : CodeLine) : (o.renumber f).addLine (l.renumber f) =
    ((o.addLine l).map (Outline.renumber f)).mapError (Diagnostic.renumber f) := by
  have hstep : ((o.renumber f).addLabel (l.renumber f) >>= fun o => o.addBody (l.renumber f)) =
      (o.addLabel l >>= fun o => o.addBody l).map (Outline.renumber f) := by
    rw [addLabel_renumber]
    cases o.addLabel l with
    | error fault => rfl
    | ok o => exact addBody_renumber f o l
  change atLine (f l.number) _ = _
  rw [hstep, atLine_renumber]
  unfold addLine
  cases o.addLabel l >>= fun o => o.addBody l <;> rfl

/-- The first pass. -/
theorem ofLines_renumber (ls : List CodeLine) : ofLines (ls.map (CodeLine.renumber f)) =
    ((ofLines ls).map (Outline.renumber f)).mapError (Diagnostic.renumber f) :=
  foldlM_map_mapError (addLine_renumber f) ls {}

end Outline

theorem Program.addStatement_renumber (labels : LabelTable) (p : Program) (s : Statement) :
    p.addStatement labels (s.renumber f) =
      (p.addStatement labels s).mapError (Diagnostic.renumber f) := by
  have hsolve : solve labels (tokenize s.body) (f s.line) =
      (solve labels (tokenize s.body) s.line).mapError (Diagnostic.renumber f) :=
    atLine_renumber f _ s.line
  unfold Program.addStatement
  rw [mapError_bind, ← hsolve]
  refine congrArg _ (funext fun i => ?_)
  unfold Program.push
  by_cases hfull : maxInstructions ≤ p.size
  · simp only [hfull, if_true]
    rfl
  · simp only [hfull, if_false]
    rfl

/-- The second pass. -/
theorem Outline.assemble_renumber (o : Outline) :
    (o.renumber f).assemble = o.assemble.mapError (Diagnostic.renumber f) := by
  have hstep (p : Program) (s : Statement) : p.addStatement o.labels (s.renumber f) =
      ((p.addStatement o.labels s).map id).mapError (Diagnostic.renumber f) := by
    rw [Except.map_id]
    exact Program.addStatement_renumber f o.labels p s
  have hrun : (o.statements.map (Statement.renumber f)).foldlM (Program.addStatement o.labels) {} =
      ((o.statements.foldlM (Program.addStatement o.labels) {}).map id).mapError
        (Diagnostic.renumber f) := foldlM_map_mapError hstep o.statements {}
  rw [Except.map_id, id_eq] at hrun
  have hfinish (p : Program) : p.finish.mapError (Diagnostic.renumber f) = p.finish := by
    unfold Program.finish
    split <;> rfl
  unfold assemble
  simp only [mapError_bind, hfinish]
  exact congrArg (· >>= _) hrun

end Renumber

/-- Renumbered lines assemble alike, apart from the number of the line with a fault. -/
theorem assembleLines_renumber (f : Nat → Nat) (ls : List CodeLine) :
    assembleLines (ls.map (CodeLine.renumber f)) =
      (assembleLines ls).mapError (Diagnostic.renumber f) := by
  unfold assembleLines
  rw [Outline.ofLines_renumber, mapError_bind]
  simp only [← Outline.assemble_renumber]
  cases Outline.ofLines ls <;> rfl

end MicroAsm
