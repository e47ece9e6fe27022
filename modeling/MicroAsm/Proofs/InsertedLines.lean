import Mathlib.Data.List.InsertIdx
import MicroAsm.Proofs.Relocation
import MicroAsm.Proofs.Renumbering
import MicroAsm.Proofs.SourceLine
/-!
One more line in a source. A line without code changes the numbers of the lines below it and nothing
else. A line that only defines a label adds this label to the table, which makes no difference to
the lines that were solved without it.
-/
namespace MicroAsm
open Text

/-- The source with a line put in before one of its lines, which are counted from zero, or at its
end. -/
def insertLine (line : Text) : Nat → Text → Text
  | 0, source => line ++ '\n' :: source
  | k + 1, source => source.takeWhile (· != '\n') ++
      '\n' :: insertLine line k ((source.dropWhile (· != '\n')).drop 1)

/-- Whatever is done about the ends of the lines, the code of a line comes in among the others. -/
structure Inserted (line : Text) (k : Nat) (source source' : Text) : Prop where
  le : k ≤ (lines source).length
  codes : (lines source').map codeOf = ((lines source).map codeOf).insertIdx k (codeOf line)

/-- A line with blanks and a comment at most. -/
def Inert (line : Text) : Prop := ∃ w, Blank w ∧ (line = w ∨ ∃ comment, line = w ++ ';' :: comment)

structure CodeLine.OnlyLabel (l : CodeLine) (name : Text) : Prop where
  label : l.definesLabel = true
  colon : l.hasColon = true
  idle : l.bears = false
  name : l.labelName = name

/-- The number of a line after another one has come in below the first so many. -/
def pushedDown (k n : Nat) : Nat := if n ≤ k then n else n + 1

section Texts
variable {line source u : Text} {k : Nat}

/-- What a line has before its comment, without blanks at the end. -/
def written (line : Text) : Text := trimRight (line.takeWhile (· != ';'))

theorem written_append_blank {w : Text} (hw : Blank w) (u : Text) :
    written (u ++ w) = written u := by
  have hkept : Blank (w.takeWhile (· != ';')) :=
    fun c hc => hw c ((List.takeWhile_sublist _).mem hc)
  unfold written
  rw [List.takeWhile_append]
  split
  · rename_i hlen
    have hall : u.takeWhile (· != ';') = u := (List.takeWhile_prefix _).eq_of_length hlen
    rw [hall, trimRight_append_blank hkept]
  · rfl

theorem written_append_comment (u comment : Text) : written (u ++ ';' :: comment) = written u := by
  unfold written
  rw [List.takeWhile_append]
  split
  · rename_i hlen
    have hall : u.takeWhile (· != ';') = u := (List.takeWhile_prefix _).eq_of_length hlen
    rw [hall, List.takeWhile_cons_of_neg (by decide), List.append_nil]
  · rfl

theorem codeOf_append_cr (u : Text) : codeOf (u ++ ['\r']) = codeOf u := by
  have hblank : Blank ['\r'] := by
    intro c hc
    rw [List.mem_singleton.1 hc]
    decide
  exact congrArg upper (written_append_blank hblank u)

/-- A line feed ends a line, and takes a carriage return along. -/
theorem exists_lines_eq (hu : '\n' ∉ u) :
    ∃ v, lines (u ++ ['\n']) = [v] ∧ (u = v ∨ u = v ++ ['\r']) := by
  induction u with
  | nil => exact ⟨[], rfl, .inl rfl⟩
  | cons c u ih =>
    have hc : c ≠ '\n' := fun he => hu (he ▸ List.mem_cons_self)
    obtain ⟨v, hv, hcut⟩ := ih fun hm => hu (List.mem_cons_of_mem c hm)
    by_cases hr : c = '\r' ∧ u = []
    · obtain ⟨rfl, rfl⟩ := hr
      exact ⟨[], rfl, .inr rfl⟩
    · have hhead : c = '\r' → (u ++ ['\n']).head? ≠ some '\n' := by
        intro he hn
        cases u with
        | nil => exact hr ⟨he, rfl⟩
        | cons d u =>
          obtain rfl : d = '\n' := Option.some.inj hn
          exact hu (List.mem_cons_of_mem c List.mem_cons_self)
      refine ⟨c :: v, ?_, ?_⟩
      · rw [List.cons_append, lines_cons hc hhead, hv]
        rfl
      · rcases hcut with rfl | rfl
        · exact .inl rfl
        · exact .inr rfl

/-- A line is read as it is written, unless it ends in a carriage return. -/
theorem lines_append_feed (hu : '\n' ∉ u) (hcr : u.getLast? ≠ some '\r') (t : Text) :
    lines (u ++ '\n' :: t) = u :: lines t := by
  obtain ⟨v, hv, rfl | rfl⟩ := exists_lines_eq hu
  · rw [lines_append, hv, List.singleton_append]
  · simp at hcr

/-- The code of the first line, and that of the others. -/
theorem codes_append (hu : '\n' ∉ u) (t : Text) :
    (lines (u ++ '\n' :: t)).map codeOf = codeOf u :: (lines t).map codeOf := by
  obtain ⟨v, hv, hcut⟩ := exists_lines_eq hu
  have hcode : codeOf v = codeOf u := by
    rcases hcut with rfl | rfl
    · rfl
    · exact (codeOf_append_cr v).symm
  rw [lines_append, hv, List.singleton_append, List.map_cons, hcode]

theorem feed_notMem_takeWhile (source : Text) : '\n' ∉ source.takeWhile (· != '\n') := by
  intro hm
  simpa using List.mem_takeWhile_imp hm

theorem codes_of_ne_nil (h : source ≠ []) : (lines source).map codeOf =
    codeOf (source.takeWhile (· != '\n')) ::
      (lines ((source.dropWhile (· != '\n')).drop 1)).map codeOf := by
  have hfeed := feed_notMem_takeWhile source
  have hsource : source.takeWhile (· != '\n') ++ source.dropWhile (· != '\n') = source :=
    List.takeWhile_append_dropWhile
  cases hd : source.dropWhile (· != '\n') with
  | nil =>
    rw [hd, List.append_nil] at hsource
    rw [hsource] at hfeed ⊢
    rw [lines_of_one h hfeed]
    rfl
  | cons c t =>
    have hc : c = '\n' := by
      have hhead := List.head?_dropWhile_not (· != '\n') source
      simpa [hd] using hhead
    rw [hd, hc] at hsource
    conv_lhs => rw [← hsource, codes_append hfeed]
    rfl

/-- Every place between the lines of a source can take another line. -/
theorem inserted_insertLine (hline : '\n' ∉ line) (hk : k ≤ (lines source).length) :
    Inserted line k source (insertLine line k source) where
  le := hk
  codes := by
    induction k generalizing source with
    | zero => exact codes_append hline source
    | succ k ih =>
      have hne : source ≠ [] := by
        rintro rfl
        exact Nat.not_succ_le_zero k hk
      have hcodes := codes_of_ne_nil hne
      have hlen := congrArg List.length hcodes
      simp only [List.length_map, List.length_cons] at hlen
      rw [insertLine, codes_append (feed_notMem_takeWhile source), hcodes, List.insertIdx_succ_cons,
        ih (by omega)]

end Texts

section Numbers
variable {cs ds : List Text} {n k : Nat}

/-- Lines with these codes, numbered one after another. -/
def numbered (n : Nat) (codes : List Text) : List CodeLine :=
  (codes.zipIdx n).map fun (code, number) => ⟨number, code⟩

theorem codeLines_eq_numbered (source : Text) :
    codeLines source = numbered 1 ((lines source).map codeOf) := by
  unfold codeLines numbered
  rw [List.zipIdx_map, List.map_map]
  rfl

theorem numbered_append : numbered n (cs ++ ds) = numbered n cs ++ numbered (n + cs.length) ds := by
  unfold numbered
  rw [List.zipIdx_append, List.map_append]

theorem length_numbered : (numbered n cs).length = cs.length := by simp [numbered]

/-- The lines above the place keep their numbers. -/
theorem pushedDown_above (h : n + cs.length ≤ k + 1) :
    (numbered n cs).map (CodeLine.renumber (pushedDown k)) = numbered n cs := by
  unfold numbered
  rw [List.map_map]
  apply List.map_congr_left
  rintro ⟨code, number⟩ hm
  have hlt := (List.mem_zipIdx hm).2.1
  have hle : number ≤ k := by omega
  simp only [Function.comp_apply, CodeLine.renumber, pushedDown, if_pos hle]

/-- The lines below it get the next ones. -/
theorem pushedDown_below (h : k < n) :
    (numbered n ds).map (CodeLine.renumber (pushedDown k)) = numbered (n + 1) ds := by
  unfold numbered
  rw [List.zipIdx_succ, List.map_map, List.map_map]
  apply List.map_congr_left
  rintro ⟨code, number⟩ hm
  have hle := (List.mem_zipIdx hm).1
  have hlt : ¬number ≤ k := by omega
  simp only [Function.comp_apply, CodeLine.renumber, pushedDown, if_neg hlt]

theorem Inserted.exists_split {line source source' : Text} (h : Inserted line k source source') :
    ∃ above below, codeLines source = above ++ below ∧ above.length = k ∧
      codeLines source' = above.map (CodeLine.renumber (pushedDown k)) ++
        ⟨k + 1, codeOf line⟩ :: below.map (CodeLine.renumber (pushedDown k)) := by
  obtain ⟨hk, hcodes⟩ := h
  have hlen : k ≤ ((lines source).map codeOf).length := by rwa [List.length_map]
  obtain ⟨cs, ds, hsplit, rfl, hinsert⟩ :
      ∃ cs ds, (lines source).map codeOf = cs ++ ds ∧ cs.length = k ∧
        ((lines source).map codeOf).insertIdx k (codeOf line) = cs ++ codeOf line :: ds :=
    List.exists_of_modifyTailIdx (List.cons (codeOf line)) hlen
  refine ⟨numbered 1 cs, numbered (1 + cs.length) ds, ?_, length_numbered, ?_⟩
  · rw [codeLines_eq_numbered, hsplit, numbered_append]
  · rw [codeLines_eq_numbered, hcodes, hinsert, numbered_append,
      pushedDown_above (Nat.add_comm 1 cs.length).le, pushedDown_below (by omega),
      Nat.add_comm 1 cs.length]
    rfl

end Numbers

section Inert
variable {line source source' : Text} {k : Nat}

theorem codeOf_of_inert (h : Inert line) : codeOf line = [] := by
  have hwritten : written line = [] := by
    obtain ⟨w, hw, hline⟩ := h
    have hblank : written w = [] := written_append_blank hw []
    rcases hline with rfl | ⟨comment, rfl⟩
    · exact hblank
    · rw [written_append_comment, hblank]
  exact congrArg upper hwritten

theorem assembleLines_insert_nil (above below : List CodeLine) (number : Nat) :
    assembleLines (above ++ ⟨number, []⟩ :: below) = assembleLines (above ++ below) := by
  unfold assembleLines Outline.ofLines
  rw [List.foldlM_append, List.foldlM_append]
  rfl

/-- Lines without code are only seen in the numbers of lines with faults. -/
theorem Inserted.assemble_of_inert (h : Inserted line k source source') (hline : Inert line) :
    assemble source' = (assemble source).mapError (Diagnostic.renumber (pushedDown k)) := by
  obtain ⟨above, below, hsource, -, hsource'⟩ := h.exists_split
  calc assemble source'
      = assembleLines (codeLines source') := rfl
    _ = assembleLines ((above ++ below).map (CodeLine.renumber (pushedDown k))) := by
      rw [hsource', codeOf_of_inert hline, assembleLines_insert_nil, List.map_append]
    _ = (assemble source).mapError (Diagnostic.renumber (pushedDown k)) := by
      rw [assembleLines_renumber, ← hsource]
      rfl

end Inert

section Label
variable {above below : List CodeLine} {l : CodeLine} {name : Text} {a : Assembly}

/-- A table with one entry more among its own. -/
structure LabelTable.Extends (table : LabelTable) (name : Text) (pc : Address)
    (table' : LabelTable) : Prop where
  entries : ∃ upper lower, table.entries = upper ++ lower ∧
    table'.entries = upper ++ (name, pc) :: lower
  kept : ∀ other t, table.get? other = some t → table'.get? other = some t

theorem LabelTable.extends_of_new {upper lower : List (Text × Address)} {pc : Address}
    (hnew : LabelTable.get? ⟨upper ++ lower⟩ name = none) :
    LabelTable.Extends ⟨upper ++ lower⟩ name pc ⟨upper ++ (name, pc) :: lower⟩ where
  entries := ⟨upper, lower, rfl, rfl⟩
  kept other t h := by
    have hne : name ≠ other := by
      rintro rfl
      rw [hnew] at h
      contradiction
    have hone : LabelTable.get? ⟨[(name, pc)]⟩ other = none :=
      LabelTable.get?_eq_none_iff.2 (List.forall_mem_singleton.2 hne)
    change (LabelTable.append ⟨upper⟩ ⟨lower⟩).get? other = some t at h
    change (LabelTable.append ⟨upper⟩
      (LabelTable.append ⟨[(name, pc)]⟩ ⟨lower⟩)).get? other = some t
    rw [LabelTable.get?_append] at h
    rwa [LabelTable.get?_append, LabelTable.get?_append, hone, Option.none_or]

theorem extends_tableOf (hl : l.OnlyLabel name) (hnew : name ∉ definedNames (above ++ below)) :
    (tableOf (above ++ below)).Extends name (UInt8.ofNat (above.countP CodeLine.bears))
      (tableOf (above ++ l :: below)) := by
  have hlabels : labelsOf (l :: below) = (name, 0) :: labelsOf below := by
    have hsame : Prod.map id (0 + ·) = (id : Text × Nat → Text × Nat) := by
      funext e
      exact Prod.ext rfl (Nat.zero_add e.2)
    have hcount : [l].countP CodeLine.bears = 0 := by simp [hl.idle]
    rw [← List.singleton_append, labelsOf_append, labelsOf_singleton, if_pos hl.label, hl.name,
      hcount, hsame, List.map_id]
    rfl
  have hget := (get?_tableOf_eq_none_iff (above ++ below)).2 hnew
  unfold tableOf at hget ⊢
  rw [labelsOf_append, List.map_append] at hget ⊢
  rw [labelsOf_append, hlabels, List.map_append]
  exact LabelTable.extends_of_new hget

theorem lawful_insert (h : Lawful (above ++ below)) (hl : l.OnlyLabel name)
    (hnew : name ∉ definedNames (above ++ below)) : Lawful (above ++ l :: below) where
  colon := by
    have hcolon := h.colon
    rw [List.forall_mem_append] at hcolon ⊢
    exact ⟨hcolon.1, List.forall_mem_cons.2 ⟨fun _ => hl.colon, hcolon.2⟩⟩
  names := by
    have hnames : definedNames (above ++ l :: below) =
        definedNames above ++ name :: definedNames below := by
      rw [definedNames_append]
      simp [definedNames, hl.label, hl.name]
    rw [hnames, List.nodup_middle, ← definedNames_append, List.nodup_cons]
    exact ⟨hnew, h.names⟩
  size := by
    have hsize := h.size
    simpa [hl.idle] using hsize

/-- The labels of the other lines stay, and so do the solutions of all lines. -/
theorem assembleLines_insert_label (h : assembleLines (above ++ below) = .ok a)
    (hl : l.OnlyLabel name) (hnew : name ∉ definedNames (above ++ below)) :
    ∃ labels, assembleLines (above ++ l :: below) = .ok ⟨labels, a.program⟩ ∧
      a.labels.Extends name (UInt8.ofNat (above.countP CodeLine.bears)) labels := by
  obtain ⟨hlaw, hne, hlabels, his⟩ := assembleLines_eq_ok_iff.1 h
  have hextends := extends_tableOf hl hnew
  have hbears : (above ++ l :: below).filter CodeLine.bears =
      (above ++ below).filter CodeLine.bears := by
    simp [hl.idle]
  refine ⟨tableOf (above ++ l :: below), ?_, hlabels ▸ hextends⟩
  refine assembleLines_eq_ok_iff.2 ⟨lawful_insert hlaw hl hnew, ?_, rfl, ?_⟩
  · rwa [hbears]
  · rw [hbears]
    exact his.imp fun m _ hm => solve_of_relocates_id hextends.kept hm m.number

/-- A label that is new to a source leaves its program and its other labels as they are. -/
theorem Inserted.assemble_of_label {line source source' : Text} {k : Nat}
    (h : Inserted line k source source') (hl : CodeLine.OnlyLabel ⟨k + 1, codeOf line⟩ name)
    (hnew : name ∉ definedNames (codeLines source)) (ha : assemble source = .ok a) :
    ∃ labels, assemble source' = .ok ⟨labels, a.program⟩ ∧ a.labels.Extends name
      (UInt8.ofNat (((codeLines source).take k).countP CodeLine.bears)) labels := by
  obtain ⟨above, below, hsource, hk, hsource'⟩ := h.exists_split
  have hrenumbered : assembleLines ((above ++ below).map (CodeLine.renumber (pushedDown k))) =
      .ok a := by
    rw [assembleLines_renumber, ← hsource]
    exact mapError_eq_ok_iff.2 ha
  rw [hsource, ← definedNames_renumber (pushedDown k), List.map_append] at hnew
  rw [List.map_append] at hrenumbered
  obtain ⟨labels, hlabels, hextends⟩ := assembleLines_insert_label hrenumbered hl hnew
  refine ⟨labels, ?_, ?_⟩
  · rw [← hlabels, ← hsource']
    rfl
  · rw [hsource, ← hk, List.take_left]
    rwa [countP_bears_renumber] at hextends

end Label

/-- Any line can come in at any place of a source. A line without code leaves what is assembled as
it is, or the fault, of which only the line number changes, and only from this place on. A line
that only defines a new label leaves the program and all other labels of an assembled source as
they are; for more labels never change a line that is solved. -/
theorem inserted_lines_keep_code :
    (∀ line k source, '\n' ∉ line → k ≤ (lines source).length →
      Inserted line k source (insertLine line k source)) ∧
    (∀ line k source source', Inserted line k source source' → Inert line →
      assemble source' = (assemble source).mapError (Diagnostic.renumber (pushedDown k))) ∧
    (∀ line k source source' name a, Inserted line k source source' →
      CodeLine.OnlyLabel ⟨k + 1, codeOf line⟩ name → name ∉ definedNames (codeLines source) →
      assemble source = .ok a →
      ∃ labels, assemble source' = .ok ⟨labels, a.program⟩ ∧ a.labels.Extends name
        (UInt8.ofNat (((codeLines source).take k).countP CodeLine.bears)) labels) ∧
    ∀ (labels labels' : LabelTable) tokens line i,
      (∀ name t, labels.get? name = some t → labels'.get? name = some t) →
      solve labels tokens line = .ok i → solve labels' tokens line = .ok i := by
  refine ⟨?_, ?_, ?_, ?_⟩
  · intro line k source hline hk
    exact inserted_insertLine hline hk
  · intro line k source source' h hline
    exact h.assemble_of_inert hline
  · intro line k source source' name a h hl hnew ha
    exact h.assemble_of_label hl hnew ha
  · intro labels labels' tokens line i hkept h
    exact solve_of_relocates_id hkept h line

/-- A comment and a label between two instructions, and a blank line above a fault, which is then
one line further down. -/
theorem comment_label_and_blank_inserted :
    assemble (insertLine " ; out".toList 1 "a: DEC\n  JMP a\n".toList) =
      .ok ⟨⟨[("A".toList, 0)]⟩, ⟨[{ c := 2 }, { j := 1 }]⟩⟩ ∧
    (∃ labels, assemble (insertLine "b: ; here".toList 1 "a: DEC\n  JMP a\n".toList) =
      .ok ⟨labels, ⟨[{ c := 2 }, { j := 1 }]⟩⟩ ∧ labels.get? "A".toList = some 0) ∧
    assemble (insertLine [] 1 "  DEC\n  FOO\n".toList) =
      .error ⟨some 3, .unrecognized "FOO".toList .opcode⟩ ∧
    solve ⟨[("A".toList, 0), ("B".toList, 1)]⟩ ["JMP A".toList] 2 = .ok { j := 1 } := by
  obtain ⟨hplace, hinert, hlabel, hmore⟩ := inserted_lines_keep_code
  have hsource : assemble "a: DEC\n  JMP a\n".toList =
      .ok ⟨⟨[("A".toList, 0)]⟩, ⟨[{ c := 2 }, { j := 1 }]⟩⟩ := by decide +kernel
  have hfault : assemble "  DEC\n  FOO\n".toList =
      .error ⟨some 2, .unrecognized "FOO".toList .opcode⟩ := by decide +kernel
  have hcomment : Inert " ; out".toList :=
    ⟨[' '], by simp [Blank, isBlank, blankRanges], .inr ⟨" out".toList, by decide⟩⟩
  have hblank : Inert [] := ⟨[], by simp [Blank], .inl rfl⟩
  refine ⟨?_, ?_, ?_, ?_⟩
  · have hin := hplace " ; out".toList 1 "a: DEC\n  JMP a\n".toList (by decide) (by decide)
    rw [hinert _ _ _ _ hin hcomment, hsource]
    rfl
  · have hin := hplace "b: ; here".toList 1 "a: DEC\n  JMP a\n".toList (by decide) (by decide)
    have honly : CodeLine.OnlyLabel ⟨1 + 1, codeOf "b: ; here".toList⟩ "B".toList :=
      ⟨by decide +kernel, by decide +kernel, by decide +kernel, by decide +kernel⟩
    obtain ⟨labels, hassembled, hextends⟩ :=
      hlabel _ _ _ _ _ _ hin honly (by decide +kernel) hsource
    exact ⟨labels, hassembled, hextends.kept _ _ rfl⟩
  · have hin := hplace [] 1 "  DEC\n  FOO\n".toList (by decide) (by decide)
    rw [hinert _ _ _ _ hin hblank, hfault]
    rfl
  · refine hmore ⟨[("A".toList, 0)]⟩ _ _ _ _ ?_ (by decide +kernel)
    intro name t h
    have happ := LabelTable.get?_append ⟨[("A".toList, 0)]⟩ ⟨[("B".toList, 1)]⟩ name
    rw [h] at happ
    exact happ

end MicroAsm
