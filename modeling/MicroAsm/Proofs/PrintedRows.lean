import MicroAsm.Proofs.ImportedNames
import MicroAsm.Proofs.LabelReferences
import MicroAsm.Proofs.TextFields
/-!
Printed rows. The listing of an assembly and that of a disassembly have a line for each instruction,
with its address, its word and its text, and with the name of its address on the same line or on one
above. For a source and the image that it assembles to, both have the same in all these columns.
-/
namespace MicroAsm
open Text

/-- The eight digits of a word are read back. -/
theorem ofDigits_word (w : Word) : ofDigits 16 (fixed 16 8 w.toNat) = w.toNat := by
  rw [ofDigits_fixed (by decide) (by decide)]
  exact Nat.mod_eq_of_lt w.toNat_lt

/-- The line of a name above a row. -/
def labelLines (label : Option Text) : List Text := label.elim [] fun name => [name ++ [':']]

/-- A row of a disassembly: the address, the word in eight digits and the text. -/
def Instruction.rowLine (i : Instruction) (pc : Nat) (text : Text) : Text :=
  "  ".toList ++ padLeft 3 (decimal pc) ++ ": ".toList ++ fixed 16 8 i.encode.toNat ++
    "  ".toList ++ text

/-- A row of a listing: the address, its label, the word in eight digits and the text. -/
def Instruction.listingLine (i : Instruction) (pc : Nat) (label : Option Text) (text : Text) :
    Text :=
  padLeft 3 (decimal pc) ++ "  ".toList ++ padRight 8 (label.elim [] (· ++ [':'])) ++
    " ".toList ++ fixed 16 8 i.encode.toNat ++ "  ".toList ++ text

section Lines
variable {s : Text} {ss : List Text} {α : Type}

theorem oneLine_replicate (n : Nat) : OneLine (List.replicate n ' ') := by
  apply oneLine_of_notMem
  · simp
  · simp

theorem oneLine_padLeft (width : Nat) (h : OneLine s) : OneLine (padLeft width s) :=
  (oneLine_replicate _).append h

theorem oneLine_padRight (width : Nat) (h : OneLine s) : OneLine (padRight width s) :=
  h.append (oneLine_replicate _)

theorem oneLine_fixed (width n : Nat) : OneLine (fixed 16 width n) := by
  have hpos : 0 < 16 := by decide
  apply oneLine_of_notMem
  · exact notMem_fixed hpos (Nat.le_refl 16) (by decide) width n
  · exact notMem_fixed hpos (Nat.le_refl 16) (by decide) width n

theorem oneLine_intercalate (hs : OneLine s) (hss : ∀ t ∈ ss, OneLine t) :
    OneLine (s.intercalate ss) := by
  induction ss with
  | nil => exact oneLine_of_notMem List.not_mem_nil List.not_mem_nil
  | cons t ss ih =>
    rw [List.forall_mem_cons] at hss
    cases ss with
    | nil => simpa using hss.1
    | cons t' ss =>
      rw [List.intercalate_cons_cons]
      exact (hss.1.append hs).append (ih hss.2)

/-- Texts of one line each are the lines of what is written of them. -/
theorem lines_flatMap_feed (h : ∀ s ∈ ss, OneLine s) :
    lines (ss.flatMap fun s => s ++ ['\n']) = ss := by
  induction ss with
  | nil => rfl
  | cons s ss ih =>
    rw [List.forall_mem_cons] at h
    rw [List.flatMap_cons, List.append_assoc, List.singleton_append,
      lines_append_feed h.1.1 h.1.2, ih h.2]

/-- Items that are printed on lines of their own are printed on these lines together. -/
theorem lines_flatMap {print : α → Text} {shown : α → List Text} {as : List α}
    (hprint : ∀ a ∈ as, print a = (shown a).flatMap fun s => s ++ ['\n'])
    (hline : ∀ a ∈ as, ∀ s ∈ shown a, OneLine s) : lines (as.flatMap print) = as.flatMap shown := by
  have htext : as.flatMap print = (as.flatMap shown).flatMap fun s => s ++ ['\n'] := by
    rw [List.flatMap_assoc]
    exact List.flatMap_congr hprint
  rw [htext]
  refine lines_flatMap_feed fun s hs => ?_
  obtain ⟨a, ha, hs⟩ := List.mem_flatMap.1 hs
  exact hline a ha s hs

end Lines

section Texts
variable {i : Instruction} {t : Address} {name : Address → Option Text}

theorem textWith_of_no_target (h : i.jumpTarget? = none) (name : Address → Option Text) :
    i.textWith name = i.text := by
  simp only [Instruction.text, Instruction.textWith, Instruction.parts, Instruction.targetPart, h,
    Option.map_none]

/-- An instruction that branches shows the unit that does. -/
theorem mnemonics_ne_nil (h : i.InRange) (ht : i.jumpTarget? = some t) : i.mnemonics ≠ [] := by
  have hbranches : i.branches = true := by
    rw [← Instruction.jumpTarget?_isSome, ht]
    rfl
  have hunit : ∃ u, i.unpack.selectors.get u ≠ 0 := by
    simp only [Instruction.branches, Bool.or_eq_true, bne_iff_ne, beq_iff_eq] at hbranches
    rcases hbranches with hj | hc
    · exact ⟨.j, hj⟩
    · refine ⟨.c, ?_⟩
      show i.c ≠ 0
      omega
  obtain ⟨u, hu⟩ := hunit
  have hshown : (u.mnemonic? (i.unpack.selectors.get u)).isSome = true := by
    rw [FuncUnit.mnemonic?_isSome (Instruction.selector_unpack_le h.selector h.io u)]
    simpa using hu
  obtain ⟨text, htext⟩ := Option.isSome_iff_exists.1 hshown
  rw [mnemonics_eq h]
  exact List.ne_nil_of_mem (List.mem_filterMap.2 ⟨u, u.mem_all, htext⟩)

theorem intercalate_concat {sep : Text} {ps : List Text} (h : ps ≠ []) (p : Text) :
    sep.intercalate (ps ++ [p]) = sep.intercalate ps ++ sep ++ p := by
  induction ps with
  | nil => contradiction
  | cons q ps ih =>
    cases ps with
    | nil => simp
    | cons q' ps =>
      rw [List.cons_append, List.cons_append, List.intercalate_cons_cons, ← List.cons_append,
        ih (List.cons_ne_nil _ _), List.intercalate_cons_cons]
      simp only [List.append_assoc]

/-- A branch target is the last part of a text, and never the only one. -/
theorem exists_textWith_eq (h : i.InRange) (ht : i.jumpTarget? = some t) :
    ∃ front, ∀ name : Address → Option Text,
      i.textWith name = front ++ ", L=".toList ++ (name t).getD (decimal t.toNat) := by
  have hne : i.mnemonics ++ [i.aluPart, i.literalPart].filterMap id ≠ [] := by
    simp [mnemonics_ne_nil h ht]
  refine ⟨", ".toList.intercalate (i.mnemonics ++ [i.aluPart, i.literalPart].filterMap id), ?_⟩
  intro name
  have hparts : i.parts name = i.mnemonics ++ [i.aluPart, i.literalPart].filterMap id ++
      ["L=".toList ++ (name t).getD (decimal t.toNat)] := by
    have hlast : [i.aluPart, i.literalPart, i.targetPart name] =
        [i.aluPart, i.literalPart] ++ [i.targetPart name] := rfl
    rw [Instruction.parts, hlast, List.filterMap_append, List.append_assoc,
      Instruction.targetPart, ht]
    rfl
  have hsome : i.parts name ≠ [] := by
    rw [hparts]
    exact List.append_ne_nil_of_right_ne_nil _ (List.cons_ne_nil _ _)
  rw [textWith_of_parts hsome, hparts, intercalate_concat hne]
  simp only [List.append_assoc]
  rfl

theorem oneLine_text (h : i.InRange) : OneLine i.text := by
  obtain ⟨ps, htext, -, hparts, -⟩ := exists_text_eq h
  rw [htext]
  exact oneLine_intercalate (by decide) fun p hp => (hparts p hp).2

theorem oneLine_textWith (h : i.InRange) (hname : ∀ pc l, name pc = some l → OneLine l) :
    OneLine (i.textWith name) := by
  have hplain := oneLine_text h
  cases ht : i.jumpTarget? with
  | none => rwa [textWith_of_no_target ht]
  | some t =>
    obtain ⟨front, hfront⟩ := exists_textWith_eq h ht
    have hnone : i.text = front ++ ", L=".toList ++ decimal t.toNat := hfront fun _ => none
    have hfeed : '\n' ∉ front := by
      rw [hnone, List.append_assoc] at hplain
      exact fun hm => hplain.1 (List.mem_append_left _ hm)
    have hshown : OneLine ((name t).getD (decimal t.toNat)) := by
      cases hl : name t with
      | none => exact oneLine_decimal t.toNat
      | some l => exact hname t l hl
    have hmark : OneLine ", L=".toList := by decide
    rw [hfront, List.append_assoc]
    exact (hmark.append hshown).append_left (by simp) hfeed

end Texts

section Rows
variable {p : Program} {name : Address → Option Text} {i : Instruction} {pc : Nat}

theorem oneLine_rowLine {text : Text} (h : OneLine text) : OneLine (i.rowLine pc text) := by
  have hindent : OneLine "  ".toList := by decide
  have hcolon : OneLine ": ".toList := by decide
  have haddress := oneLine_padLeft 3 (oneLine_decimal pc)
  exact ((((hindent.append haddress).append hcolon).append (oneLine_fixed 8 _)).append
    hindent).append h

theorem oneLine_of_mem_labelLines {label : Option Text} (h : ∀ l, label = some l → OneLine l)
    {s : Text} (hs : s ∈ labelLines label) : OneLine s := by
  cases label with
  | none => contradiction
  | some l =>
    obtain rfl := List.mem_singleton.1 hs
    exact (h l rfl).append (by decide)

theorem oneLine_listingLine {label : Option Text} {text : Text}
    (hlabel : ∀ l, label = some l → OneLine l) (h : OneLine text) :
    OneLine (i.listingLine pc label text) := by
  have hgap : OneLine "  ".toList := by decide
  have hblank : OneLine " ".toList := by decide
  have haddress := oneLine_padLeft 3 (oneLine_decimal pc)
  have hcolumn : OneLine (label.elim [] (· ++ [':'])) := by
    cases label with
    | none => exact oneLine_of_notMem List.not_mem_nil List.not_mem_nil
    | some l => exact (hlabel l rfl).append (by decide)
  exact (((((haddress.append hgap).append (oneLine_padRight 8 hcolumn)).append hblank).append
    (oneLine_fixed 8 _)).append hgap).append h

variable (hfits : p.Fits) (hname : ∀ pc l, name pc = some l → OneLine l)
include hfits hname

/-- The lines of a disassembly. -/
theorem lines_rows : lines ((p.rows name).flatMap Image.listingRow) =
    p.instructions.zipIdx.flatMap fun (i, pc) =>
      labelLines (name (UInt8.ofNat pc)) ++ [i.rowLine pc (i.textWith name)] := by
  rw [Program.rows, List.flatMap_map]
  refine lines_flatMap ?_ ?_
  · intro x _
    cases hl : name (UInt8.ofNat x.2) <;>
      simp [Image.listingRow, Row.word, labelLines, Instruction.rowLine, hl]
  · intro x hx s hs
    rcases List.mem_append.1 hs with hs | hs
    · exact oneLine_of_mem_labelLines (hname _) hs
    · obtain rfl := List.mem_singleton.1 hs
      have hi : x.1 ∈ p.instructions := List.fst_mem_of_mem_zipIdx hx
      exact oneLine_rowLine (oneLine_textWith (hfits.inRange x.1 hi) hname)

/-- The lines of a listing. -/
theorem lines_listingRows : lines ((p.rows name).flatMap Assembly.listingRow) =
    p.instructions.zipIdx.map fun (i, pc) =>
      i.listingLine pc (name (UInt8.ofNat pc)) (i.textWith name) := by
  rw [Program.rows, List.flatMap_map, List.map_eq_flatMap]
  refine lines_flatMap ?_ ?_
  · intro x _
    simp [Assembly.listingRow, Row.word, Instruction.listingLine]
  · intro x hx s hs
    obtain rfl := List.mem_singleton.1 hs
    have hi : x.1 ∈ p.instructions := List.fst_mem_of_mem_zipIdx hx
    exact oneLine_listingLine (hname _) (oneLine_textWith (hfits.inRange x.1 hi) hname)

end Rows

section Labels
variable {source : Text} {a : Assembly}

/-- A label is a part of a line, without blanks at the end. -/
theorem oneLine_of_label (h : assemble source = .ok a) {name : Text} {pc : Address}
    (hlabel : (name, pc) ∈ a.labels.entries) : OneLine name := by
  obtain ⟨-, -, htable, -⟩ := assemble_eq_ok_iff.1 h
  rw [htable] at hlabel
  obtain ⟨⟨_, n⟩, hmem, heq⟩ := List.mem_map.1 hlabel
  obtain ⟨rfl, -⟩ := Prod.mk.inj heq
  obtain ⟨above, l, below, hsplit, -, rfl, -⟩ := (mem_labelsOf_iff _).1 hmem
  have hl : l ∈ codeLines source := by simp [hsplit]
  obtain ⟨⟨line, number⟩, hline, rfl⟩ := List.mem_map.1 hl
  have hfeed : '\n' ∉ line :=
    feed_notMem_of_mem_lines line (List.fst_mem_of_mem_zipIdx hline)
  have hcode : '\n' ∉ codeOf line := by
    rw [codeOf, mem_upper_iff (by decide)]
    exact notMem_trimRight fun hm => hfeed ((List.takeWhile_sublist _).mem hm)
  refine ⟨notMem_trimRight fun hm => hcode ((List.takeWhile_sublist _).mem hm), ?_⟩
  intro hlast
  have hne : trimRight ((codeOf line).takeWhile (· != ':')) ≠ [] := by
    intro hnil
    simp [CodeLine.labelName, hnil] at hlast
  have hblank := last_trimRight hne
  rw [← CodeLine.labelName.eq_def ⟨number, codeOf line⟩, hlast] at hblank
  contradiction

theorem oneLine_of_nameAt? (h : assemble source = .ok a) (pc : Address) (name : Text)
    (hname : a.labels.nameAt? pc = some name) : OneLine name := by
  obtain ⟨earlier, later, hentries, -⟩ := LabelTable.nameAt?_eq_some_iff.1 hname
  have hmem : (name, pc) ∈ a.labels.entries := by simp [hentries]
  exact oneLine_of_label h hmem

end Labels

theorem length_rows (p : Program) (name : Address → Option Text) :
    (p.rows name).length = p.size := by
  rw [Program.rows, List.length_map, Program.addressed, List.length_zipIdx]
  rfl

theorem getElem?_rows {p : Program} {pc : Nat} {i : Instruction} (h : p.instructions[pc]? = some i)
    (name : Address → Option Text) :
    (p.rows name)[pc]? = some ⟨pc, name (UInt8.ofNat pc), i, i.textWith name⟩ := by
  rw [Program.rows, List.getElem?_map, Program.addressed, List.getElem?_zipIdx, h]
  simp

namespace Image
variable {source : Text} {a : Assembly}

theorem ofBytes_own (h : assemble source = .ok a) :
    Image.ofBytes a.program.toBytes = .ok { program := a.program } :=
  ofBytes_eq_ok_iff.2 ⟨Program.ofBytes_eq_ok_iff.2 ⟨fits_of_assemble h, rfl⟩, rfl⟩

theorem importSource_own (h : assemble source = .ok a) :
    Image.importSource { program := a.program } source =
      (.ok true, ⟨a.program, .offerLabels {} a.labels⟩) := by
  rw [importSource_of_ok h, beq_self_eq_true]

/-- The first offer to an address is the first label that the table has for it. -/
theorem get?_own (labels : LabelTable) :
    (AddressNames.offerLabels {} labels).get? = labels.nameAt? := by
  funext pc
  exact AddressNames.get?_offerLabels {} pc labels

theorem rows_own (a : Assembly) : Image.rows ⟨a.program, .offerLabels {} a.labels⟩ = a.rows := by
  rw [Image.rows, get?_own]
  rfl

end Image

/-- The listing of a source and the disassembly of its image, with the names of the same source,
have a row for each instruction, which shows the same address, the same word in eight digits and the
same text. The name of an address stands in a column of the listing, and on a line above the row of
the disassembly; a branch target goes by its name in both, or by its number if it has none. -/
theorem rows_of_own_source {source : Text} {a : Assembly} (h : assemble source = .ok a) :
    ∃ image named, Image.ofBytes a.program.toBytes = .ok image ∧
      image.importSource source = (.ok true, named) ∧
      (∀ pc, named.labels.get? pc = a.labels.nameAt? pc) ∧
      named.rows = a.rows ∧ named.rows.length = a.program.size ∧
      (∀ (pc : Nat) (i : Instruction), a.program.instructions[pc]? = some i → named.rows[pc]? =
        some ⟨pc, a.labels.nameAt? (UInt8.ofNat pc), i, i.textWith a.labels.nameAt?⟩) ∧
      lines a.listing = a.program.instructions.zipIdx.map (fun (i, pc) =>
        padLeft 3 (decimal pc) ++ "  ".toList ++
          padRight 8 ((a.labels.nameAt? (UInt8.ofNat pc)).elim [] (· ++ [':'])) ++ " ".toList ++
          fixed 16 8 i.encode.toNat ++ "  ".toList ++ i.textWith a.labels.nameAt?) ∧
      lines named.listing = a.program.instructions.zipIdx.flatMap (fun (i, pc) =>
        (a.labels.nameAt? (UInt8.ofNat pc)).elim [] (fun name => [name ++ [':']]) ++
          ["  ".toList ++ padLeft 3 (decimal pc) ++ ": ".toList ++ fixed 16 8 i.encode.toNat ++
            "  ".toList ++ i.textWith a.labels.nameAt?]) ∧
      ∀ i ∈ a.program.instructions,
        (fixed 16 8 i.encode.toNat).length = 8 ∧
        ofDigits 16 (fixed 16 8 i.encode.toNat) = i.encode.toNat ∧
        (i.jumpTarget? = none → i.textWith a.labels.nameAt? = i.text) ∧
        ∀ t, i.jumpTarget? = some t → ∃ front,
          i.text = front ++ ", L=".toList ++ decimal t.toNat ∧
          i.textWith a.labels.nameAt? =
            front ++ ", L=".toList ++ (a.labels.nameAt? t).getD (decimal t.toNat) := by
  have hrows := Image.rows_own a
  have hfits := fits_of_assemble h
  have hname := oneLine_of_nameAt? h
  refine ⟨_, _, Image.ofBytes_own h, Image.importSource_own h, congrFun (Image.get?_own a.labels),
    hrows, ?_, ?_, lines_listingRows hfits hname, ?_, ?_⟩
  · rw [hrows]
    exact length_rows _ _
  · intro pc i hi
    rw [hrows]
    exact getElem?_rows hi _
  · rw [Image.listing, hrows]
    exact lines_rows hfits hname
  · intro i hi
    refine ⟨length_fixed 16 8 _, ofDigits_word _, fun ht => textWith_of_no_target ht _, ?_⟩
    intro t ht
    obtain ⟨front, hfront⟩ := exists_textWith_eq (hfits.inRange i hi) ht
    exact ⟨front, hfront fun _ => none, hfront _⟩

/-- Two labels at the first address, and two behind the last instruction. -/
theorem shared_and_final_labels : ∃ a image named,
    assemble "top:\nloop: DEC,JMP end\n  JMP loop\nend:\nfin:\n".toList = .ok a ∧
    Image.ofBytes a.program.toBytes = .ok image ∧
    image.importSource "top:\nloop: DEC,JMP end\n  JMP loop\nend:\nfin:\n".toList =
      (.ok true, named) ∧
    lines a.listing = ["  0  TOP:     00809002  DEC, JMP, L=END".toList,
      "  1           00009000  JMP, L=TOP".toList] ∧
    lines named.listing = ["TOP:".toList, "    0: 00809002  DEC, JMP, L=END".toList,
      "    1: 00009000  JMP, L=TOP".toList] := by
  have hsource : assemble "top:\nloop: DEC,JMP end\n  JMP loop\nend:\nfin:\n".toList =
      .ok ⟨⟨[("TOP".toList, 0), ("LOOP".toList, 0), ("END".toList, 2), ("FIN".toList, 2)]⟩,
        ⟨[{ c := 2, j := 1, value := 2 }, { j := 1 }]⟩⟩ := by
    decide +kernel
  obtain ⟨image, named, hload, himport, -, -, -, -, hlisting, hdisassembly, -⟩ :=
    rows_of_own_source hsource
  refine ⟨_, image, named, hsource, hload, himport, hlisting.trans ?_, hdisassembly.trans ?_⟩
  · decide +kernel
  · decide +kernel

end MicroAsm
