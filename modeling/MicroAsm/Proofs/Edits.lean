import MicroAsm.Program.Export
import MicroAsm.Proofs.ImageFormat
/-!
Programs under edits. Instructions are pushed at the end, and the program is loaded again from its
own image. A word keeps of an instruction what fits its bits, so that loading changes a program
once at most and its image never.
-/
namespace MicroAsm

/-- What the word of an instruction keeps of it. -/
def Instruction.kept (i : Instruction) : Instruction := decode i.encode

theorem Instruction.encode_kept (i : Instruction) : i.kept.encode = i.encode :=
  encode_decode i.encode

/-- A word keeps all of an instruction if and only if its fields fit. -/
theorem Instruction.kept_eq_self_iff {i : Instruction} : i.kept = i ↔ i.InRange := by
  constructor
  · intro h
    rw [← h]
    exact inRange_decode i.encode
  · exact decode_encode

namespace Program

def kept (p : Program) : Program := ⟨p.instructions.map Instruction.kept⟩

/-- The program that is loaded from its image. -/
def reload (p : Program) : Except ImageFault Program := ofBytes p.toBytes

/-- What can happen to a program. The line is the one that the instruction comes from. -/
inductive Edit where
  | push (i : Instruction) (line : Nat)
  | reload
  deriving DecidableEq, Repr

/-- The program that an edit leaves behind. One that cannot be loaded is not replaced. -/
def edit (p : Program) : Edit → Program
  | .push i line => (p.push i line).2
  | .reload =>
    match p.reload with
    | .ok q => q
    | .error _ => p

def editAll (p : Program) (edits : List Edit) : Program := edits.foldl edit p

def Reachable (p : Program) : Prop := ∃ edits, p = editAll {} edits

variable {p q : Program}

theorem size_kept (p : Program) : p.kept.size = p.size := List.length_map _

theorem words_kept (p : Program) : p.kept.words = p.words := by
  unfold words kept
  rw [List.map_map]
  exact List.map_congr_left fun i _ => i.encode_kept

theorem toBytes_kept (p : Program) : p.kept.toBytes = p.toBytes := by
  rw [toBytes, words_kept, toBytes]

theorem toVerilog_kept (p : Program) : p.kept.toVerilog = p.toVerilog := by
  rw [toVerilog, words_kept, toVerilog]

theorem kept_eq_self_iff : p.kept = p ↔ ∀ i ∈ p.instructions, i.InRange := by
  have hmap : p.kept = p ↔ p.instructions.map Instruction.kept = p.instructions.map id := by
    rw [List.map_id]
    exact ⟨congrArg instructions, congrArg Program.mk⟩
  rw [hmap, List.map_inj_left]
  exact forall₂_congr fun i _ => Instruction.kept_eq_self_iff

/-- A program of legal size is loaded unless it is empty, as what its words keep of it. -/
theorem reload_eq_ok_iff (hsize : p.size ≤ maxInstructions) :
    p.reload = .ok q ↔ p.instructions ≠ [] ∧ q = p.kept := by
  have hlen : p.toBytes.length = 4 * p.size := length_toBytes p
  have hnil : p.instructions ≠ [] ↔ 1 ≤ p.size := List.length_pos_iff.symm
  have hkept : (wordsOfBytes p.toBytes).map Instruction.decode = p.kept.instructions := by
    rw [toBytes, wordsOfBytes_flatMap, words, List.map_map]
    rfl
  unfold maxInstructions at hsize
  rw [reload, ofBytes_eq_ok_iff_decode, hkept, hnil, hlen]
  refine and_congr_left' ?_
  omega

theorem reload_eq_error_iff (hsize : p.size ≤ maxInstructions) :
    (∃ fault, p.reload = .error fault) ↔ p.instructions = [] := by
  have hok := reload_eq_ok_iff (q := p.kept) hsize
  cases hr : p.reload with
  | ok q =>
    have hne := ((reload_eq_ok_iff hsize).1 hr).1
    simp [hne]
  | error fault =>
    have hnil : p.instructions = [] := by simpa [hr] using hok
    simp [hnil]

/-- A program that was loaded is loaded from its image unchanged. -/
theorem reload_of_reload (hsize : p.size ≤ maxInstructions) (h : p.reload = .ok q) :
    q.reload = .ok q := by
  obtain ⟨hne, rfl⟩ := (reload_eq_ok_iff hsize).1 h
  rw [reload, toBytes_kept]
  exact h

theorem finish_eq_error_iff {d : Diagnostic} :
    p.finish = .error d ↔ p.instructions = [] ∧ d = ⟨none, .emptyProgram⟩ := by
  unfold finish isEmpty
  cases p.instructions with
  | nil =>
    simp only [List.isEmpty_nil, if_true, Except.error.injEq, true_and]
    exact eq_comm
  | cons i is => simp

/-- One edit: no program gets larger than it may. -/
theorem size_edit_le (h : p.size ≤ maxInstructions) (e : Edit) :
    (p.edit e).size ≤ maxInstructions := by
  cases e with
  | push i line =>
    show (p.push i line).2.size ≤ maxInstructions
    cases hp : p.push i line with
    | mk report q =>
      cases report with
      | ok =>
        obtain ⟨hroom, rfl⟩ := push_eq_ok_iff.1 hp
        have hlen : (p.instructions ++ [i]).length = p.size + 1 := List.length_append
        exact hlen.trans_le hroom
      | error d =>
        obtain ⟨-, -, rfl⟩ := push_eq_error_iff.1 hp
        exact h
  | reload =>
    cases hr : p.reload with
    | ok q =>
      obtain ⟨-, rfl⟩ := (reload_eq_ok_iff h).1 hr
      simpa [edit, hr] using (size_kept p).trans_le h
    | error fault => simpa [edit, hr] using h

/-- All edits, one after another. -/
theorem size_editAll_le (h : p.size ≤ maxInstructions) (edits : List Edit) :
    (p.editAll edits).size ≤ maxInstructions := by
  induction edits generalizing p with
  | nil => exact h
  | cons e edits ih => exact ih (size_edit_le h e)

theorem Reachable.size_le (h : p.Reachable) : p.size ≤ maxInstructions := by
  obtain ⟨edits, rfl⟩ := h
  exact size_editAll_le (Nat.zero_le _) edits

end Program

/-- Whatever is pushed, and whenever the program is loaded again, it has no more than 255
instructions; pushing fails with 255 of them and changes nothing then, while finishing and loading
fail without any. A program that is loaded again keeps its size and its image; it is the same one if
and only if all fields fit their bits, and from then on it stays the same. -/
theorem edited_program_reloads {p : Program} (h : p.Reachable) :
    p.size ≤ 255 ∧
    (∀ i line, ((∃ d, (p.push i line).1 = .error d) ↔ p.size = 255) ∧
      (∀ d, (p.push i line).1 = .error d →
        d = ⟨some line, .programTooLarge 255⟩ ∧ (p.push i line).2 = p) ∧
      (p.size ≠ 255 → p.push i line = (.ok (), ⟨p.instructions ++ [i]⟩))) ∧
    ((∃ d, p.finish = .error d) ↔ p.instructions = []) ∧
    ((∃ fault, p.reload = .error fault) ↔ p.instructions = []) ∧
    ∀ q, p.reload = .ok q →
      q.size = p.size ∧ q.toBytes = p.toBytes ∧ q.toVerilog = p.toVerilog ∧
      (q = p ↔ ∀ i ∈ p.instructions, i.InRange) ∧ q.reload = .ok q := by
  have hsize : p.size ≤ 255 := h.size_le
  refine ⟨hsize, fun i line => ⟨?_, ?_, ?_⟩, ?_, Program.reload_eq_error_iff hsize, ?_⟩
  · have hfull : (∃ d, (p.push i line).1 = .error d) ↔ maxInstructions ≤ p.size := by
      constructor
      · rintro ⟨d, hd⟩
        exact (Program.push_eq_error_iff.1 (Prod.ext hd rfl)).1
      · intro hfull
        exact ⟨_, congrArg Prod.fst (Program.push_eq_error_iff.2 ⟨hfull, rfl, rfl⟩)⟩
    rw [hfull]
    exact ⟨Nat.le_antisymm hsize, Eq.ge⟩
  · intro d hd
    exact (Program.push_eq_error_iff.1 (Prod.ext hd rfl)).2
  · intro hroom
    exact Program.push_eq_ok_iff.2 ⟨lt_of_le_of_ne hsize hroom, rfl⟩
  · simp only [Program.finish_eq_error_iff, exists_and_left, exists_eq, and_true]
  · intro q hq
    have hagain := Program.reload_of_reload hsize hq
    obtain ⟨-, rfl⟩ := (Program.reload_eq_ok_iff hsize).1 hq
    exact ⟨p.size_kept, p.toBytes_kept, p.toVerilog_kept, Program.kept_eq_self_iff, hagain⟩

/-- A selector and a value that are too large for their bits come back smaller. Loading once more
changes nothing. -/
theorem wide_fields_reloaded_once :
    Program.Reachable ⟨[{ a := 6, value := 5000 }]⟩ ∧
    Program.reload ⟨[{ a := 6, value := 5000 }]⟩ = .ok ⟨[{ a := 1, value := 904 }]⟩ ∧
    Program.reload ⟨[{ a := 1, value := 904 }]⟩ = .ok ⟨[{ a := 1, value := 904 }]⟩ := by
  have hreach : Program.Reachable ⟨[{ a := 6, value := 5000 }]⟩ :=
    ⟨[.reload, .push { a := 6, value := 5000 } 1], rfl⟩
  have hload : Program.reload ⟨[{ a := 6, value := 5000 }]⟩ = .ok ⟨[{ a := 1, value := 904 }]⟩ := by
    decide +kernel
  obtain ⟨-, -, -, -, hkeeps⟩ := edited_program_reloads hreach
  obtain ⟨-, -, -, -, hagain⟩ := hkeeps _ hload
  exact ⟨hreach, hload, hagain⟩

end MicroAsm
