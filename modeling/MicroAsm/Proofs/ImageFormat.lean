import MicroAsm.Program.Image
import MicroAsm.Proofs.Assembling
import MicroAsm.Proofs.Packing
import MicroAsm.Proofs.WordFields
/-!
Images and programs. Bytes and words determine each other, and so do words and instructions with
fields in range; hence an image of whole words is the image of exactly one program.
-/
namespace MicroAsm
open Text LineState

theorem Word.toBytes_ofBytes (b₀ b₁ b₂ b₃ : UInt8) :
    (Word.ofBytes b₀ b₁ b₂ b₃).toBytes = [b₀, b₁, b₂, b₃] := by
  have h₀ := b₀.toNat_lt
  have h₁ := b₁.toNat_lt
  have h₂ := b₂.toNat_lt
  have h₃ := b₃.toNat_lt
  have hw : (Word.ofBytes b₀ b₁ b₂ b₃).toNat =
      b₀.toNat + b₁.toNat * 0x100 + b₂.toNat * 0x10000 + b₃.toNat * 0x1000000 := by
    rw [Word.ofBytes, UInt32.toNat_ofNat']
    omega
  have hbyte {n : Nat} {b : UInt8} (h : n % 256 = b.toNat) : UInt8.ofNat n = b := by
    apply UInt8.toNat_inj.1
    rw [UInt8.toNat_ofNat', ← h]
  simp only [Word.toBytes, hw, List.cons.injEq, and_true]
  exact ⟨hbyte (by omega), hbyte (by omega), hbyte (by omega), hbyte (by omega)⟩

theorem wordsOfBytes_toBytes_append (w : Word) (bytes : Bytes) :
    wordsOfBytes (w.toBytes ++ bytes) = w :: wordsOfBytes bytes := by
  have hw := w.toNat_lt
  simp only [Word.toBytes, List.cons_append, List.nil_append, wordsOfBytes, List.cons.injEq,
    and_true]
  apply UInt32.toNat_inj.1
  simp only [Word.ofBytes, UInt8.toNat_ofNat', UInt32.toNat_ofNat']
  omega

theorem wordsOfBytes_flatMap (ws : List Word) : wordsOfBytes (ws.flatMap Word.toBytes) = ws := by
  induction ws with
  | nil => rfl
  | cons w ws ih => rw [List.flatMap_cons, wordsOfBytes_toBytes_append, ih]

/-- Whole words are all that there is in a sequence of a multiple of four bytes. -/
theorem flatMap_wordsOfBytes {bytes : Bytes} (h : bytes.length % 4 = 0) :
    (wordsOfBytes bytes).flatMap Word.toBytes = bytes := by
  induction bytes using wordsOfBytes.induct with
  | case1 b₀ b₁ b₂ b₃ bytes ih =>
    simp only [List.length_cons] at h
    rw [wordsOfBytes, List.flatMap_cons, Word.toBytes_ofBytes, ih (by omega)]
    rfl
  | case2 bytes hshort =>
    match bytes with
    | [] => rfl
    | [_] | [_, _] | [_, _, _] => simp at h
    | b₀ :: b₁ :: b₂ :: b₃ :: bytes => exact absurd rfl (hshort b₀ b₁ b₂ b₃ bytes)

theorem length_flatMap_toBytes (ws : List Word) :
    (ws.flatMap Word.toBytes).length = 4 * ws.length := by
  induction ws with
  | nil => rfl
  | cons w ws ih =>
    rw [List.flatMap_cons, List.length_append, ih, List.length_cons]
    simp only [Word.toBytes, List.length_cons, List.length_nil]
    omega

namespace Program
variable {p : Program} {bytes : Bytes}

/-- A program that an image can hold. -/
structure Fits (p : Program) : Prop where
  size : 1 ≤ p.size ∧ p.size ≤ 255
  inRange : ∀ i ∈ p.instructions, i.InRange

theorem length_toBytes (p : Program) : p.toBytes.length = 4 * p.size := by
  rw [toBytes, length_flatMap_toBytes, words, List.length_map]
  rfl

/-- What becomes of a byte sequence is told by its length. -/
theorem ofBytes_eq (bytes : Bytes) : ofBytes bytes =
    if bytes.length % 4 ≠ 0 then .error (.misaligned bytes.length)
    else if bytes.length = 0 then .error .empty
    else if 255 < bytes.length / 4 then .error (.tooLarge (bytes.length / 4))
    else .ok ⟨(wordsOfBytes bytes).map Instruction.decode⟩ := by
  unfold ofBytes maxInstructions
  split
  · rfl
  · have hnone : bytes.length / 4 = 0 ↔ bytes.length = 0 := by omega
    simp only [hnone]

theorem ofBytes_eq_ok_iff_decode : ofBytes bytes = .ok p ↔
    (bytes.length % 4 = 0 ∧ 1 ≤ bytes.length / 4 ∧ bytes.length / 4 ≤ 255) ∧
      p = ⟨(wordsOfBytes bytes).map Instruction.decode⟩ := by
  rw [ofBytes_eq]
  split_ifs with halign hnone hlarge
  · simp [halign]
  · simp [hnone]
  · simp only [false_iff]
    omega
  · have hsize : bytes.length % 4 = 0 ∧ 1 ≤ bytes.length / 4 ∧ bytes.length / 4 ≤ 255 := by omega
    simp only [hsize, and_self, true_and, Except.ok.injEq]
    exact eq_comm

/-- Loading an image and writing a program that fits undo each other. -/
theorem ofBytes_eq_ok_iff : ofBytes bytes = .ok p ↔ p.Fits ∧ p.toBytes = bytes := by
  rw [ofBytes_eq_ok_iff_decode]
  constructor
  · rintro ⟨⟨halign, hsize⟩, rfl⟩
    have hwords : Program.words ⟨(wordsOfBytes bytes).map Instruction.decode⟩ =
        wordsOfBytes bytes := by
      rw [words, List.map_map]
      exact List.map_id'' Instruction.encode_decode _
    have hbytes : Program.toBytes ⟨(wordsOfBytes bytes).map Instruction.decode⟩ = bytes := by
      rw [toBytes, hwords, flatMap_wordsOfBytes halign]
    refine ⟨⟨?_, ?_⟩, hbytes⟩
    · have hlen := length_toBytes ⟨(wordsOfBytes bytes).map Instruction.decode⟩
      rw [hbytes] at hlen
      omega
    · rw [List.forall_mem_map]
      exact fun w _ => Instruction.inRange_decode w
  · rintro ⟨⟨hsize, hrange⟩, rfl⟩
    have hlen := length_toBytes p
    refine ⟨by omega, ?_⟩
    rw [toBytes, wordsOfBytes_flatMap, words, List.map_map]
    have hid : p.instructions.map (Instruction.decode ∘ Instruction.encode) = p.instructions := by
      conv_rhs => rw [← List.map_id p.instructions]
      exact List.map_congr_left fun i hi => Instruction.decode_encode (hrange i hi)
    rw [hid]

end Program

theorem inRange_of_solve {labels : LabelTable} {tokens : List Text} {line : Nat} {i : Instruction}
    (h : solve labels tokens line = .ok i) : i.InRange := by
  obtain ⟨-, cs, s, hm, hset, rfl⟩ := exists_settled_of_solve h
  exact hset.inRange_layOut hm

theorem fits_of_assemble {source : Text} {a : Assembly} (h : assemble source = .ok a) :
    a.program.Fits := by
  obtain ⟨hlaw, hne, -, his⟩ := assemble_eq_ok_iff.1 h
  refine ⟨⟨?_, ?_⟩, ?_⟩
  · rw [size_of_assemble h, List.countP_eq_length_filter]
    exact List.length_pos_iff.2 hne
  · rw [size_of_assemble h]
    exact hlaw.size
  · intro i hi
    obtain ⟨l, hl⟩ := exists_forall₂_iff.1 ⟨_, his.flip⟩ i hi
    exact inRange_of_solve hl

/-- Images and programs correspond one to one. A byte sequence is an image if and only if it has one
to 255 whole words, and it is then the image of the program that is loaded from it; a program with
as many instructions and fields in range is loaded from its own image, as is every assembled one. -/
theorem images_are_programs :
    (∀ bytes : Bytes,
      ((∃ p, Program.ofBytes bytes = .ok p) ↔
        bytes.length % 4 = 0 ∧ 1 ≤ bytes.length / 4 ∧ bytes.length / 4 ≤ 255) ∧
      (bytes.length % 4 ≠ 0 → Program.ofBytes bytes = .error (.misaligned bytes.length)) ∧
      (bytes.length = 0 → Program.ofBytes bytes = .error .empty) ∧
      (bytes.length % 4 = 0 → 255 < bytes.length / 4 →
        Program.ofBytes bytes = .error (.tooLarge (bytes.length / 4))) ∧
      ∀ p, Program.ofBytes bytes = .ok p → p.Fits ∧ p.toBytes = bytes) ∧
    (∀ p : Program, p.Fits → Program.ofBytes p.toBytes = .ok p) ∧
    ∀ (source : Text) (a : Assembly), assemble source = .ok a →
      Program.ofBytes a.program.toBytes = .ok a.program := by
  have hload (p : Program) (hp : p.Fits) : Program.ofBytes p.toBytes = .ok p :=
    Program.ofBytes_eq_ok_iff.2 ⟨hp, rfl⟩
  refine ⟨fun bytes => ⟨?_, ?_, ?_, ?_, fun p => Program.ofBytes_eq_ok_iff.1⟩, hload, ?_⟩
  · simp only [Program.ofBytes_eq_ok_iff_decode, exists_and_left, exists_eq, and_true]
  · intro halign
    rw [Program.ofBytes_eq, if_pos halign]
  · intro hnone
    rw [Program.ofBytes_eq, if_neg (by omega), if_pos hnone]
  · intro halign hlarge
    rw [Program.ofBytes_eq, if_neg (by omega), if_neg (by omega), if_pos hlarge]
  · intro source a h
    exact hload _ (fits_of_assemble h)

/-- Two instructions, the first of which has a split value, and images of three bytes, of no byte
and of 256 words, none of which is loaded. -/
theorem eight_bytes_reloaded :
    (∃ p : Program, p.size = 2 ∧ Program.ofBytes [193, 174, 0, 15, 0, 112, 128, 0] = .ok p ∧
      p.toBytes = [193, 174, 0, 15, 0, 112, 128, 0] ∧ Program.ofBytes p.toBytes = .ok p) ∧
    Program.ofBytes [0, 0, 0] = .error (.misaligned 3) ∧
    Program.ofBytes [] = .error .empty ∧
    Program.ofBytes (List.replicate 1024 0) = .error (.tooLarge 256) := by
  obtain ⟨himage, hfits, hassembled⟩ := images_are_programs
  have hsource : assemble "  A=IN2,B=-5,JMP x\nx: OUT2=W,DEC\n".toList =
      .ok ⟨⟨[("X".toList, 1)]⟩,
        ⟨[{ a := 3, b := 3, j := 1, io := 1, twoConstants := true, value := -319 },
          { c := 2, o := 1, io := 1 }]⟩⟩ := by
    decide +kernel
  have hload := hassembled _ _ hsource
  have hlen : (List.replicate 1024 (0 : UInt8)).length = 1024 := List.length_replicate
  refine ⟨⟨_, rfl, hload, ?_⟩, (himage _).2.1 (by decide), (himage _).2.2.1 rfl, ?_⟩
  · obtain ⟨hp, hbytes⟩ := (himage _).2.2.2.2 _ hload
    exact ⟨hbytes, hfits _ hp⟩
  · rw [(himage _).2.2.2.1 (by rw [hlen]) (by rw [hlen]; decide), hlen]

end MicroAsm
