import MicroAsm.CommandLine.Assembler
import MicroAsm.Proofs.ImageFormat
import MicroAsm.Proofs.InsertedLines
import MicroAsm.Proofs.JsonText
/-!
Exports. The image of a program, the rows of its case statement and the records of its instructions
hold the same words in the same order, so that the image can be restored from any of them. Of the
writer of JSON documents only this is used, that a reader finds every document again.
-/
namespace MicroAsm
open Text

/-- A number of so many digits, and the text after it. -/
def readFixed (base width : Nat) (s : Text) : Option (Nat × Text) :=
  let digits := s.take width
  if digits.length = width ∧ digits.all (isDigit base) then
    some (ofDigits base digits, s.drop width)
  else none

/-- The address and the word of a row. -/
def readRow? (row : Text) : Option (Nat × Word) := do
  let s ← "8'h".toList.isPrefixOf? row
  let (pc, s) ← readFixed 16 2 s
  let s ← ":   data = 32'b".toList.isPrefixOf? s
  let (n, s) ← readFixed 2 32 s
  if s = [';'] then some (pc, UInt32.ofNat n) else none

def readRows? (bytes : Bytes) : Option (List (Nat × Word)) := do
  (lines (← ofUtf8? bytes)).mapM readRow?

section Rows
variable {base : Nat} {ws : List Word} {first : Nat}

theorem readFixed_append (hpos : 0 < base) (hle : base ≤ 16) (width n : Nat) (s : Text) :
    readFixed base width (fixed base width n ++ s) = some (n % base ^ width, s) := by
  have hdigits : (fixed base width n).all (isDigit base) = true :=
    List.all_eq_true.2 fun c hc => isDigit_fixed hpos hle hc
  have hlen := length_fixed base width n
  unfold readFixed
  simp only [List.take_left' hlen, List.drop_left' hlen]
  rw [if_pos ⟨hlen, hdigits⟩, ofDigits_fixed hpos hle]

/-- The row without its line feed. -/
def rowText (pc : Nat) (w : Word) : Text :=
  "8'h".toList ++ fixed 16 2 pc ++ ":   data = 32'b".toList ++ fixed 2 32 w.toNat ++ [';']

theorem romRow_eq (pc : Nat) (w : Word) : romRow pc w = rowText pc w ++ ['\n'] :=
  (List.append_assoc _ [';'] ['\n']).symm

theorem readRow?_rowText {pc : Nat} (h : pc < 256) (w : Word) :
    readRow? (rowText pc w) = some (pc, w) := by
  have hpc : pc % 16 ^ 2 = pc := Nat.mod_eq_of_lt h
  have hw : w.toNat % 2 ^ 32 = w.toNat := Nat.mod_eq_of_lt w.toNat_lt
  have hprefix (p s : Text) : p.isPrefixOf? (p ++ s) = some s := isPrefixOf?_eq_some_iff.2 rfl
  unfold readRow? rowText
  simp only [List.append_assoc, hprefix, Option.bind_eq_bind, Option.bind_some,
    readFixed_append (show 0 < 16 by decide) (Nat.le_refl 16),
    readFixed_append (show 0 < 2 by decide) (show 2 ≤ 16 by decide), hpc, hw, if_true,
    UInt32.ofNat_toNat]

theorem feed_notMem_rowText (pc : Nat) (w : Word) : '\n' ∉ rowText pc w := by
  have hdigit : ∀ d < 16, Nat.digitChar d ≠ '\n' := by decide
  have hpc := notMem_fixed (show 0 < 16 by decide) (Nat.le_refl 16) hdigit 2 pc
  have hword := notMem_fixed (show 0 < 2 by decide) (show 2 ≤ 16 by decide) hdigit 32 w.toNat
  unfold rowText
  simp only [List.mem_append, not_or]
  exact ⟨⟨⟨⟨by decide, hpc⟩, by decide⟩, hword⟩, by decide⟩

theorem lines_romRow_append (pc : Nat) (w : Word) (s : Text) :
    lines (romRow pc w ++ s) = rowText pc w :: lines s := by
  have hlast : (rowText pc w).getLast? = some ';' := by
    unfold rowText
    rw [List.getLast?_concat]
  rw [romRow_eq, List.append_assoc, List.singleton_append]
  exact lines_append_feed (feed_notMem_rowText pc w) (by simp [hlast]) s

/-- Words at consecutive addresses have a row each. -/
theorem mapM_readRow?_flatMap (h : first + ws.length ≤ 256) :
    (lines ((ws.zipIdx first).flatMap fun (w, pc) => romRow pc w)).mapM readRow? =
      some ((ws.zipIdx first).map Prod.swap) := by
  induction ws generalizing first with
  | nil => rfl
  | cons w ws ih =>
    rw [List.length_cons] at h
    rw [List.zipIdx_cons, List.flatMap_cons, lines_romRow_append, List.mapM_cons,
      readRow?_rowText (by omega), ih (by omega)]
    rfl

end Rows

namespace Json

def items? : Json → Option (List Json)
  | arr items => some items
  | _ => none

def member? (key : String) : Json → Option Json
  | obj members => (members.find? fun m => m.1 == key.toList).map (·.2)
  | _ => none

def bool? : Json → Option Bool
  | bool b => some b
  | _ => none

def int? : Json → Option Int
  | int z => some z
  | _ => none

def nat? (document : Json) : Option Nat := document.int?.bind Int.toNat?

end Json

/-- The instruction with the fields of a record, which go by their names. -/
def Instruction.ofRecord? (record : Json) : Option Instruction := do
  let number (key : String) : Option Nat := (record.member? key).bind Json.nat?
  return {
    a := ← number "a"
    b := ← number "b"
    c := ← number "c"
    d := ← number "d"
    w := ← number "w"
    o := ← number "o"
    f := ← number "f"
    j := ← number "j"
    alu := ← number "alu"
    io := ← number "io"
    twoConstants := ← (record.member? "two_constants").bind Json.bool?
    value := ← (record.member? "value").bind Json.int? }

def readRecords? (document : Json) : Option (List Instruction) :=
  document.items?.bind (List.mapM Instruction.ofRecord?)

def readDocument? (readJson : Text → Option Json) (bytes : Bytes) : Option Json := do
  readJson (← ofUtf8? bytes)

theorem Instruction.ofRecord?_fields (i : Instruction) : ofRecord? (.obj i.fields) = some i := rfl

/-- Items that are read from what is written of them are read all together. -/
theorem mapM_map_eq_some {α β : Type} {read : β → Option α} {write : α → β}
    (h : ∀ a, read (write a) = some a) (as : List α) : (as.map write).mapM read = some as := by
  induction as with
  | nil => rfl
  | cons a as ih =>
    rw [List.map_cons, List.mapM_cons, h, ih]
    rfl

theorem readRecords?_toJson (p : Program) : readRecords? p.toJson = some p.instructions := by
  show (p.instructions.map fun i => Json.obj i.fields).mapM Instruction.ofRecord? = _
  exact mapM_map_eq_some Instruction.ofRecord?_fields p.instructions

/-- The image of rows that are in the order of their addresses, from zero on. -/
def imageOfRows? (rows : List (Nat × Word)) : Option Bytes :=
  if rows.map Prod.fst = List.range rows.length then some ((rows.map Prod.snd).flatMap Word.toBytes)
  else none

namespace Assembler

/-- The image that an export describes. -/
def Format.image? (format : Format) (readJson : Text → Option Json) (bytes : Bytes) :
    Option Bytes :=
  match format with
  | .bin => some bytes
  | .verilog => (readRows? bytes).bind imageOfRows?
  | .json =>
    ((readDocument? readJson bytes).bind readRecords?).map fun is => Program.toBytes ⟨is⟩

section Render
variable {p : Program} {writeJson : Json → Text} {readJson : Text → Option Json}

theorem readRows?_render (h : p.size ≤ 255) :
    readRows? (Format.verilog.render writeJson p) = some (p.words.zipIdx.map Prod.swap) := by
  have hlen : p.words.length = p.size := List.length_map _
  rw [readRows?, Format.render, ofUtf8?_toUtf8]
  exact mapM_readRow?_flatMap (by omega)

theorem toJson_of_fits (h : p.Fits) :
    p.toJson = .arr (p.words.map fun w => .obj (Instruction.decode w).fields) := by
  rw [Program.toJson, Program.words, List.map_map]
  congr 1
  apply List.map_congr_left
  intro i hi
  rw [Function.comp_apply, Instruction.decode_encode (h.inRange i hi)]

variable (hjson : ∀ p : Program, p.Fits → readJson (writeJson p.toJson) = some p.toJson)
include hjson

theorem readDocument?_render (h : p.Fits) :
    readDocument? readJson (Format.json.render writeJson p) = some p.toJson := by
  rw [readDocument?, Format.render, ofUtf8?_toUtf8]
  exact hjson p h

/-- Each format has the whole image. -/
theorem image?_render (h : p.Fits) (format : Format) :
    format.image? readJson (format.render writeJson p) = some p.toBytes := by
  cases format with
  | bin => rfl
  | verilog =>
    have hpcs : (p.words.zipIdx.map Prod.swap).map Prod.fst =
        List.range (p.words.zipIdx.map Prod.swap).length := by
      rw [List.map_map, List.length_map, List.length_zipIdx, List.range_eq_range']
      exact List.zipIdx_map_snd 0 p.words
    have hwords : (p.words.zipIdx.map Prod.swap).map Prod.snd = p.words := by
      rw [List.map_map]
      exact List.zipIdx_map_fst 0 p.words
    rw [Format.image?, readRows?_render h.size.2, Option.bind_some, imageOfRows?, if_pos hpcs,
      hwords]
    rfl
  | json =>
    rw [Format.image?, readDocument?_render hjson h, Option.bind_some, readRecords?_toJson]
    rfl

end Render

/-- The exports of an assembled program describe the same image, with any writer of JSON documents
and a reader that gives the records of programs back. The words of the image, least significant byte
first, are those of the rows, which have the addresses from zero on in order, and the records are
what these words decode to, field by field. Each export has the whole image. -/
theorem exports_describe_image {writeJson : Json → Text} {readJson : Text → Option Json}
    (hjson : ∀ p : Program, p.Fits → readJson (writeJson p.toJson) = some p.toJson)
    {source : Text} {a : Assembly} (h : assemble source = .ok a) :
    wordsOfBytes (Format.bin.render writeJson a.program) = a.program.words ∧
    readRows? (Format.verilog.render writeJson a.program) =
      some (a.program.words.zipIdx.map Prod.swap) ∧
    readDocument? readJson (Format.json.render writeJson a.program) =
      some (.arr (a.program.words.map fun w => .obj (Instruction.decode w).fields)) ∧
    ∀ format : Format,
      format.image? readJson (format.render writeJson a.program) = some a.program.toBytes := by
  have hfits := fits_of_assemble h
  refine ⟨wordsOfBytes_flatMap _, readRows?_render hfits.size.2, ?_, image?_render hjson hfits⟩
  rw [readDocument?_render hjson hfits, toJson_of_fits hfits]

/-- A split value and an idle instruction, with one layout of JSON documents and its reader. -/
theorem exports_of_two_words : ∃ a,
    assemble "  A=IN2,B=-5,JMP x
x: OUT2=W,DEC
".toList = .ok a ∧
    wordsOfBytes (Format.bin.render Json.pretty a.program) = [0x0F00AEC1, 0x00807000] ∧
    readRows? (Format.verilog.render Json.pretty a.program) =
      some [(0, 0x0F00AEC1), (1, 0x00807000)] ∧
    Format.json.image? Json.read? (Format.json.render Json.pretty a.program) =
      some [193, 174, 0, 15, 0, 112, 128, 0] := by
  have hsource : assemble "  A=IN2,B=-5,JMP x
x: OUT2=W,DEC
".toList =
      .ok ⟨⟨[("X".toList, 1)]⟩,
        ⟨[{ a := 3, b := 3, j := 1, io := 1, twoConstants := true, value := -319 },
          { c := 2, o := 1, io := 1 }]⟩⟩ := by
    decide +kernel
  obtain ⟨hbin, hrows, -, himage⟩ :=
    exports_describe_image (fun p _ => Json.read?_pretty p.toJson) hsource
  refine ⟨_, hsource, hbin.trans ?_, hrows.trans ?_, (himage .json).trans ?_⟩
  all_goals decide +kernel

end Assembler
end MicroAsm
