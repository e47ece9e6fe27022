import MicroAsm.Line.Solution
import MicroAsm.Proofs.SourceOutline
/-!
The faults of a single instruction. Reading and packing a line find no others, so a diagnostic of
the solver never speaks of label definitions or of the size of the program.
-/
namespace MicroAsm
open LineState

/-- Faults that are found in the tokens of one line. -/
def Fault.ofInstruction : Fault → Bool
  | .duplicateLabel _ | .malformedLabel | .programTooLarge _ | .emptyProgram => false
  | _ => true

section Reading
variable {labels : LabelTable} {s t : LineState} {u : FuncUnit} {token : Text} {fault : Fault}

theorem ofInstruction_of_readLiteral {text : Text} (h : readLiteral text = .error fault) :
    fault.ofInstruction = true := by
  rcases fault_of_readLiteral h with ⟨_, _, _, rfl⟩ | ⟨_, rfl⟩
  · rfl
  · rfl

theorem ofInstruction_of_literalCandidate {n : Nat} {operand : Text}
    (h : literalCandidate n operand = .faulty fault) : fault.ofInstruction = true := by
  unfold literalCandidate at h
  split at h
  · contradiction
  · contradiction
  · rename_i fault' hread
    obtain rfl := Candidate.faulty.inj h
    exact ofInstruction_of_readLiteral hread

theorem ofInstruction_of_labelCandidate {n : Nat} {operand : Text}
    (h : labelCandidate labels u n operand = .faulty fault) : fault.ofInstruction = true := by
  unfold labelCandidate at h
  split at h
  · contradiction
  · obtain rfl := Candidate.faulty.inj h
    rfl

theorem aluCandidate_ne_faulty {n : Nat} {operand : Text} :
    aluCandidate u n operand ≠ .faulty fault := by
  unfold aluCandidate
  split <;> simp

theorem ofInstruction_of_candidate (h : .faulty fault ∈ candidates labels token u) :
    fault.ofInstruction = true := by
  obtain ⟨form, -, hread⟩ := List.mem_filterMap.1 h
  unfold Form.read at hread
  split at hread
  · split at hread <;> simp at hread
  · obtain ⟨rest, -, halu⟩ := Option.map_eq_some_iff.1 hread
    exact absurd halu aluCandidate_ne_faulty
  · obtain ⟨rest, -, hliteral⟩ := Option.map_eq_some_iff.1 hread
    exact ofInstruction_of_literalCandidate hliteral
  · obtain ⟨rest, -, hlabel⟩ := Option.map_eq_some_iff.1 hread
    exact ofInstruction_of_labelCandidate hlabel

theorem ofInstruction_of_bindLabel {address : Address}
    (h : (s.bindLabel address).1 = .error fault) : fault.ofInstruction = true := by
  unfold bindLabel at h
  split at h
  · split at h <;> contradiction
  · obtain rfl := Except.error.inj h
    rfl

theorem ofInstruction_of_refusal {tried : Tried} (h : tried.refusal u token = .hard fault) :
    fault.ofInstruction = true := by
  unfold Tried.refusal at h
  split at h
  · contradiction
  · obtain rfl := Refusal.hard.inj h
    rfl

theorem ofInstruction_of_choose {tried : Tried} {cs : List Candidate}
    (hcs : ∀ fault, .faulty fault ∈ cs → fault.ofInstruction = true)
    (h : (s.choose u token tried cs).1 = .error (.hard fault)) : fault.ofInstruction = true := by
  induction cs generalizing tried with
  | nil => exact ofInstruction_of_refusal (Except.error.inj h)
  | cons c cs ih =>
    have hrest (fault : Fault) (hf : .faulty fault ∈ cs) : fault.ofInstruction = true :=
      hcs fault (List.mem_cons_of_mem c hf)
    cases c with
    | plain n => contradiction
    | noAlu => exact ih hrest h
    | noLiteral => exact ih hrest h
    | faulty fault' =>
      obtain rfl := Refusal.hard.inj (Except.error.inj h)
      exact hcs _ List.mem_cons_self
    | alu n op =>
      rw [choose] at h
      split at h
      · contradiction
      · rename_i t ht
        obtain rfl : t = s := by
          have hb := @bindAlu_refused s op
          rw [ht] at hb
          exact hb rfl
        exact ih hrest h
    | literal n value =>
      rw [choose] at h
      split at h <;> simp at h
    | label n address =>
      rw [choose] at h
      split at h
      · contradiction
      · simp at h
      · rename_i fault' t ht
        obtain rfl := Refusal.hard.inj (Except.error.inj h)
        exact ofInstruction_of_bindLabel (congrArg Prod.fst ht)

/-- One step. -/
theorem ofInstruction_of_assign (h : s.assign labels token = .error (.hard fault)) :
    fault.ofInstruction = true := by
  have hread := assign_eq_error_iff.1 h
  unfold LineState.read at hread
  split at hread
  · obtain rfl := Refusal.hard.inj (Except.error.inj hread)
    rfl
  · split at hread
    · obtain rfl := Refusal.hard.inj (Except.error.inj hread)
      rfl
    · exact ofInstruction_of_choose (fun fault hf => ofInstruction_of_candidate hf) hread

/-- A whole line. -/
theorem ofInstruction_of_readTokens {tokens : List Text}
    (h : tokens.foldlM (assign labels) s = .error (.hard fault)) : fault.ofInstruction = true := by
  obtain ⟨-, token, -, t, -, -, ht⟩ := foldlM_eq_error_iff.1 h
  exact ofInstruction_of_assign ht

end Reading

section Solving
variable {labels : LabelTable} {s : LineState} {tokens : List Text} {fault : Fault}

theorem ofInstruction_of_firstConsistent {attempt : Nat → Except Refusal LineState}
    {starts : List Nat}
    (hattempt : ∀ start fault, attempt start = .error (.hard fault) → fault.ofInstruction = true)
    (h : firstConsistent attempt starts = .error fault) : fault.ofInstruction = true := by
  induction starts with
  | nil =>
    obtain rfl := Except.error.inj h
    rfl
  | cons start starts ih =>
    rw [firstConsistent] at h
    split at h
    · contradiction
    · rename_i fault' hfault
      obtain rfl := Except.error.inj h
      exact hattempt start _ hfault
    · exact ih h

theorem ofInstruction_of_settle (h : settle labels tokens = .error fault) :
    fault.ofInstruction = true :=
  ofInstruction_of_firstConsistent (fun _ _ => ofInstruction_of_readTokens) h

theorem ofInstruction_of_pack (h : s.pack = .error fault) : fault.ofInstruction = true := by
  unfold pack at h
  split at h
  · obtain rfl := Except.error.inj h
    rfl
  · split at h
    · obtain rfl := Except.error.inj h
      rfl
    · contradiction

/-- A line that is not solved has a fault of its own, reported with its number. -/
theorem diagnostic_of_solve {line : Nat} {d : Diagnostic}
    (h : solve labels tokens line = .error d) :
    d.line = some line ∧ d.fault.ofInstruction = true := by
  obtain ⟨fault, hfault, rfl⟩ := atLine_eq_error_iff.1 h
  refine ⟨rfl, ?_⟩
  rcases bind_eq_error_iff.1 hfault with hs | ⟨s, -, hp⟩
  · exact ofInstruction_of_settle hs
  · exact ofInstruction_of_pack hp

end Solving
end MicroAsm
