import MicroAsm.Proofs.Assembling
import MicroAsm.Proofs.LineFaults
/-!
Which fault of a source is reported. The rules of the outline come before everything else, then
the lines that cannot be solved, each kind in the order of the lines; only a source that keeps all
rules and has no instruction is reported without a line.
-/
namespace MicroAsm
open Text

/-- The rule of an outline that a line breaks below other lines. A line is asked for its label
before its instruction. -/
inductive Breaks (above : List CodeLine) (l : CodeLine) : Fault → Prop where
  | noColon (hd : l.definesLabel = true) (hc : l.hasColon = false) : Breaks above l .malformedLabel
  | sameName (hd : l.definesLabel = true) (hc : l.hasColon = true)
      (hn : l.labelName ∈ definedNames above) : Breaks above l (.duplicateLabel l.labelName)
  | noRoom (hl : l.definesLabel = true → l.hasColon = true ∧ l.labelName ∉ definedNames above)
      (hb : l.bears = true) (hs : 255 ≤ above.countP CodeLine.bears) :
      Breaks above l (.programTooLarge 255)

/-- No line breaks a rule below the lines above it. -/
def Unbroken (ls : List CodeLine) : Prop :=
  ∀ above l below, ls = above ++ l :: below → ∀ fault, ¬Breaks above l fault

/-- The first line that breaks a rule. -/
structure FirstBroken (ls above : List CodeLine) (l : CodeLine) (fault : Fault) : Prop where
  split : ∃ below, ls = above ++ l :: below
  kept : Unbroken above
  broken : Breaks above l fault

/-- The first line with an instruction that cannot be solved. -/
structure FirstUnsolved (labels : LabelTable) (ls above : List CodeLine) (l : CodeLine)
    (d : Diagnostic) : Prop where
  split : ∃ below, ls = above ++ l :: below
  solved : ∀ m ∈ above, m.bears = true → ∃ i, SolvesLine labels m i
  bears : l.bears = true
  unsolved : solve labels (tokenize l.body) l.number = .error d

section Rules
variable {ls above below : List CodeLine} {l : CodeLine} {fault : Fault}

theorem lawful_snoc_iff_forall_not_breaks (h : Lawful ls) :
    Lawful (ls ++ [l]) ↔ ∀ fault, ¬Breaks ls l fault := by
  rw [lawful_snoc_iff, and_iff_right h]
  constructor
  · rintro ⟨hlabel, hroom⟩ fault hbreaks
    cases hbreaks with
    | noColon hd hc => simp [(hlabel hd).1] at hc
    | sameName hd _ hn => exact (hlabel hd).2 hn
    | noRoom _ hb hs => exact Nat.not_lt_of_le hs (hroom hb)
  · intro hnone
    have hlabel (hd : l.definesLabel = true) :
        l.hasColon = true ∧ l.labelName ∉ definedNames ls := by
      cases hc : l.hasColon with
      | false => exact absurd (.noColon hd hc) (hnone _)
      | true => exact ⟨rfl, fun hn => hnone _ (.sameName hd hc hn)⟩
    refine ⟨hlabel, ?_⟩
    intro hb
    by_contra hs
    exact hnone _ (.noRoom hlabel hb (Nat.le_of_not_lt hs))

theorem lawful_nil : Lawful [] := ⟨by simp, List.nodup_nil, by simp⟩

theorem unbroken_snoc_iff : Unbroken (ls ++ [l]) ↔ Unbroken ls ∧ ∀ fault, ¬Breaks ls l fault := by
  constructor
  · intro h
    refine ⟨?_, h ls l [] rfl⟩
    intro above m below hsplit
    exact h above m (below ++ [l]) (by simp [hsplit])
  · rintro ⟨hls, hl⟩ above m below hsplit
    rcases List.eq_nil_or_concat' below with rfl | ⟨below, x, rfl⟩
    · obtain ⟨rfl, hm⟩ := List.append_inj' hsplit rfl
      obtain rfl := List.singleton_inj.1 hm
      exact hl
    · rw [← List.cons_append, ← List.append_assoc] at hsplit
      exact hls above m below (List.append_inj' hsplit rfl).1

/-- Line by line, the rules of an outline are kept if and only if none is broken. -/
theorem unbroken_iff_lawful : Unbroken ls ↔ Lawful ls := by
  induction ls using List.reverseRecOn with
  | nil => exact iff_of_true (fun above l below h => by simp at h) lawful_nil
  | append_singleton ls l ih =>
    rw [unbroken_snoc_iff, ih]
    constructor
    · rintro ⟨hls, hl⟩
      exact (lawful_snoc_iff_forall_not_breaks hls).2 hl
    · intro h
      have hls := (lawful_snoc_iff.1 h).1
      exact ⟨hls, (lawful_snoc_iff_forall_not_breaks hls).1 h⟩

theorem exists_firstBroken (h : ¬Unbroken ls) : ∃ above l fault, FirstBroken ls above l fault := by
  induction ls using List.reverseRecOn with
  | nil => exact absurd (unbroken_iff_lawful.2 lawful_nil) h
  | append_singleton ls l ih =>
    by_cases hls : Unbroken ls
    · rw [unbroken_snoc_iff, and_iff_right hls] at h
      simp only [not_forall, not_not] at h
      obtain ⟨fault, hfault⟩ := h
      exact ⟨ls, l, fault, ⟨[], rfl⟩, hls, hfault⟩
    · obtain ⟨above, m, fault, ⟨below, hsplit⟩, hkept, hbroken⟩ := ih hls
      exact ⟨above, m, fault, ⟨below ++ [l], by simp [hsplit]⟩, hkept, hbroken⟩

/-- One step: a line that breaks a rule is not added to the outline of those above it. -/
theorem addLine_of_breaks (h : Breaks ls l fault) :
    (outlineOf ls).addLine l = .error ⟨some l.number, fault⟩ := by
  unfold Outline.addLine
  refine atLine_eq_error_iff.2 ⟨fault, ?_, rfl⟩
  cases h with
  | noColon hd hc =>
    refine bind_eq_error_iff.2 (.inl ?_)
    simp [Outline.addLabel, hd, hc]
  | sameName hd hc hn =>
    refine bind_eq_error_iff.2 (.inl ?_)
    have hget : ((outlineOf ls).labels.get? l.labelName).isSome = true := by
      rw [Option.isSome_iff_ne_none]
      exact fun hnone => (get?_tableOf_eq_none_iff ls).1 hnone hn
    simp [Outline.addLabel, hd, hc, LabelTable.define, hget, Except.map]
  | noRoom hl hb hs =>
    refine bind_eq_error_iff.2 (.inr ⟨_, addLabel_eq_ok_iff.2 ⟨?_, rfl⟩, ?_⟩)
    · intro hd
      exact ⟨(hl hd).1, (get?_tableOf_eq_none_iff ls).2 (hl hd).2⟩
    · have hfull : maxInstructions ≤ (outlineOf ls).statements.length := by
        rw [outlineOf, length_statementsOf]
        exact hs
      have hbody : l.body.isEmpty = false := by simpa [CodeLine.bears] using hb
      simp only [Outline.addBody, hbody, hfull, if_true, Bool.false_eq_true, if_false]
      rfl

theorem FirstBroken.ofLines (h : FirstBroken ls above l fault) :
    Outline.ofLines ls = .error ⟨some l.number, fault⟩ := by
  obtain ⟨⟨below, rfl⟩, hkept, hbroken⟩ := h
  have habove : Outline.ofLines above = .ok (outlineOf above) :=
    ofLines_eq_ok_iff.2 ⟨unbroken_iff_lawful.1 hkept, rfl⟩
  exact foldlM_eq_error_iff.2 ⟨above, l, below, _, rfl, habove, addLine_of_breaks hbroken⟩

end Rules

section Source
variable {source other : Text} {above below : List CodeLine} {l : CodeLine} {fault : Fault}
  {d : Diagnostic}

theorem getElem?_codeLines (source : Text) (k : Nat) :
    (codeLines source)[k]? = (lines source)[k]?.map fun line => ⟨k + 1, codeOf line⟩ := by
  unfold codeLines
  rw [List.getElem?_map, List.getElem?_zipIdx, Option.map_map, Nat.add_comm]
  rfl

/-- The number of a line tells its place. -/
theorem number_of_split (h : codeLines source = above ++ l :: below) :
    l.number = above.length + 1 ∧ above.length + 1 ≤ (lines source).length := by
  have hl : (codeLines source)[above.length]? = some l := by simp [h]
  rw [getElem?_codeLines, Option.map_eq_some_iff] at hl
  obtain ⟨line, hline, rfl⟩ := hl
  exact ⟨rfl, (List.getElem?_eq_some_iff.1 hline).1⟩

/-- Sources with the same first lines have the same code there. -/
theorem exists_split_of_take {n : Nat} (hn : n = above.length + 1)
    (h : codeLines source = above ++ l :: below)
    (htake : (lines other).take n = (lines source).take n) :
    ∃ below, codeLines other = above ++ l :: below := by
  have hsame : (codeLines other).take n = (codeLines source).take n := by
    apply List.ext_getElem?
    intro k
    by_cases hk : k < n
    · rw [List.getElem?_take_of_lt hk, List.getElem?_take_of_lt hk, getElem?_codeLines,
        getElem?_codeLines, ← List.getElem?_take_of_lt hk, htake, List.getElem?_take_of_lt hk]
    · rw [List.getElem?_take_eq_none (Nat.le_of_not_lt hk),
        List.getElem?_take_eq_none (Nat.le_of_not_lt hk)]
  have hfirst : (codeLines other).take n = above ++ [l] := by
    rw [hsame, h, ← List.singleton_append, ← List.append_assoc]
    exact List.take_left' (by simp [hn])
  refine ⟨(codeLines other).drop n, ?_⟩
  rw [← List.singleton_append, ← List.append_assoc, ← hfirst, List.take_append_drop]

theorem FirstBroken.assemble (h : FirstBroken (codeLines source) above l fault) :
    assemble source = .error ⟨some (above.length + 1), fault⟩ := by
  obtain ⟨below, hsplit⟩ := h.split
  unfold MicroAsm.assemble Outline.ofSource
  rw [h.ofLines, (number_of_split hsplit).1]
  rfl

/-- What stands below the first broken line does not matter. -/
theorem FirstBroken.of_take (h : FirstBroken (codeLines source) above l fault)
    (htake : (lines other).take (above.length + 1) = (lines source).take (above.length + 1)) :
    FirstBroken (codeLines other) above l fault := by
  obtain ⟨below, hsplit⟩ := h.split
  exact ⟨exists_split_of_take rfl hsplit htake, h.kept, h.broken⟩

theorem FirstUnsolved.assemble (hls : Unbroken (codeLines source))
    (h : FirstUnsolved (tableOf (codeLines source)) (codeLines source) above l d) :
    assemble source = .error d := by
  obtain ⟨⟨below, hsplit⟩, hsolved, hbears, hunsolved⟩ := h
  have hfilter : (codeLines source).filter CodeLine.bears =
      above.filter CodeLine.bears ++ l :: below.filter CodeLine.bears := by
    rw [hsplit, List.filter_append, List.filter_cons_of_pos hbears]
  obtain ⟨is, his⟩ := exists_forall₂_iff.2 fun m hm =>
    hsolved m (List.mem_filter.1 hm).1 (List.mem_filter.1 hm).2
  apply assemble_of_error (unbroken_iff_lawful.1 hls) hfilter his
  rwa [← tokenize_trim]

theorem exists_firstUnsolved {labels : LabelTable} {ls : List CodeLine}
    (h : ¬∀ l ∈ ls, l.bears = true → ∃ i, SolvesLine labels l i) :
    ∃ above l d, FirstUnsolved labels ls above l d := by
  induction ls with
  | nil => simp at h
  | cons m ls ih =>
    by_cases hm : m.bears = true → ∃ i, SolvesLine labels m i
    · rw [List.forall_mem_cons, and_iff_right hm] at h
      obtain ⟨above, l, d, ⟨below, rfl⟩, hsolved, hbears, hunsolved⟩ := ih h
      exact ⟨m :: above, l, d, ⟨below, rfl⟩, List.forall_mem_cons.2 ⟨hm, hsolved⟩, hbears,
        hunsolved⟩
    · rw [Classical.not_imp, not_exists] at hm
      obtain ⟨hbears, hnot⟩ := hm
      cases hs : solve labels (tokenize m.body) m.number with
      | ok i =>
        rw [m.body_eq, tokenize_trim] at hs
        exact absurd hs (hnot i)
      | error d => exact ⟨[], m, d, ⟨ls, rfl⟩, by simp, hbears, hs⟩

theorem assemble_of_no_instruction (hls : Unbroken (codeLines source))
    (h : ∀ l ∈ codeLines source, l.bears = false) :
    assemble source = .error ⟨none, .emptyProgram⟩ := by
  have hnone : (codeLines source).filter CodeLine.bears = [] := by
    rw [List.filter_eq_nil_iff]
    intro l hl
    simp [h l hl]
  unfold MicroAsm.assemble Outline.ofSource
  rw [ofLines_eq_ok_iff.2 ⟨unbroken_iff_lawful.1 hls, rfl⟩]
  show (outlineOf (codeLines source)).assemble = _
  unfold Outline.assemble outlineOf statementsOf
  rw [hnone]
  rfl

theorem exists_assemble (hlaw : Lawful (codeLines source))
    (hsolved : ∀ l ∈ codeLines source, l.bears = true →
      ∃ i, SolvesLine (tableOf (codeLines source)) l i)
    (hsome : ∃ l ∈ codeLines source, l.bears = true) : ∃ a, assemble source = .ok a := by
  obtain ⟨is, his⟩ := exists_forall₂_iff.2 fun l hl =>
    hsolved l (List.mem_filter.1 hl).1 (List.mem_filter.1 hl).2
  obtain ⟨l, hl, hb⟩ := hsome
  refine ⟨⟨_, ⟨is⟩⟩, assemble_eq_ok_iff.2 ⟨hlaw, ?_, rfl, his⟩⟩
  exact List.ne_nil_of_mem (List.mem_filter.2 ⟨hl, hb⟩)

/-- A failed assembly reports the first line that breaks a rule of the outline; if there is none,
the first line that is not solved; and if there is none either, that there is no instruction. -/
theorem assemble_eq_error_iff : assemble source = .error d ↔
    (∃ above l fault, FirstBroken (codeLines source) above l fault ∧
      d = ⟨some (above.length + 1), fault⟩) ∨
    Unbroken (codeLines source) ∧
      ((∃ above l, FirstUnsolved (tableOf (codeLines source)) (codeLines source) above l d) ∨
        (∀ l ∈ codeLines source, l.bears = false) ∧ d = ⟨none, .emptyProgram⟩) := by
  constructor
  · intro h
    by_cases hls : Unbroken (codeLines source)
    · refine .inr ⟨hls, ?_⟩
      by_cases hsolved : ∀ l ∈ codeLines source, l.bears = true →
          ∃ i, SolvesLine (tableOf (codeLines source)) l i
      · right
        have hnone : ∀ l ∈ codeLines source, l.bears = false := by
          intro l hl
          by_contra hb
          obtain ⟨a, ha⟩ := exists_assemble (unbroken_iff_lawful.1 hls) hsolved
            ⟨l, hl, by simpa using hb⟩
          rw [ha] at h
          contradiction
        rw [assemble_of_no_instruction hls hnone] at h
        exact ⟨hnone, (Except.error.inj h).symm⟩
      · left
        obtain ⟨above, l, d', hfirst⟩ := exists_firstUnsolved hsolved
        obtain rfl := Except.error.inj ((hfirst.assemble hls).symm.trans h)
        exact ⟨above, l, hfirst⟩
    · left
      obtain ⟨above, l, fault, hfirst⟩ := exists_firstBroken hls
      exact ⟨above, l, fault, hfirst, Except.error.inj (h.symm.trans hfirst.assemble)⟩
  · rintro (⟨above, l, fault, hfirst, rfl⟩ | ⟨hls, ⟨above, l, hfirst⟩ | ⟨hnone, rfl⟩⟩)
    · exact hfirst.assemble
    · exact hfirst.assemble hls
    · exact assemble_of_no_instruction hls hnone

theorem FirstUnsolved.ofInstruction {labels : LabelTable}
    (h : FirstUnsolved labels (codeLines source) above l d) :
    d.line = some (above.length + 1) ∧ d.fault.ofInstruction = true := by
  obtain ⟨below, hsplit⟩ := h.split
  rw [← (number_of_split hsplit).1]
  exact diagnostic_of_solve h.unsolved

/-- When the lines keep the rules of the outline, the size of the program is no longer a fault. -/
theorem outline_assemble_ne_tooLarge {o : Outline} (ho : Outline.ofSource source = .ok o)
    (line : Option Nat) (limit : Nat) : o.assemble ≠ .error ⟨line, .programTooLarge limit⟩ := by
  intro h
  have herr : assemble source = .error ⟨line, .programTooLarge limit⟩ := by
    unfold assemble
    rw [ho]
    exact h
  have hls : Unbroken (codeLines source) := unbroken_iff_lawful.2 (ofLines_eq_ok_iff.1 ho).1
  rcases assemble_eq_error_iff.1 herr with
    ⟨above, l, fault, hfirst, -⟩ | ⟨-, ⟨above, l, hfirst⟩ | ⟨-, hempty⟩⟩
  · obtain ⟨below, hsplit⟩ := hfirst.split
    exact hls above l below hsplit fault hfirst.broken
  · have hfault := hfirst.ofInstruction.2
    contradiction
  · exact absurd (congrArg Diagnostic.fault hempty) (by simp)

end Source

/-- Which error a failed assembly reports. The first line that breaks a rule of the outline comes
before all instructions, whatever they are and whatever stands below it; then comes the first line
that is not solved; the last case is a source without instructions. The second pass never finds
the program too large, and every other error has the number of a line of the source. -/
theorem first_fault_reported {source : Text} {d : Diagnostic} (h : assemble source = .error d) :
    ((∃ above l fault, FirstBroken (codeLines source) above l fault ∧
        d = ⟨some (above.length + 1), fault⟩ ∧
        ∀ other, (lines other).take (above.length + 1) = (lines source).take (above.length + 1) →
          assemble other = .error d) ∨
      Unbroken (codeLines source) ∧
        ((∃ above l, FirstUnsolved (tableOf (codeLines source)) (codeLines source) above l d ∧
            d.line = some (above.length + 1)) ∨
          (∀ l ∈ codeLines source, l.bears = false) ∧ d = ⟨none, .emptyProgram⟩)) ∧
    (∀ o, Outline.ofSource source = .ok o →
      ∀ line limit, o.assemble ≠ .error ⟨line, .programTooLarge limit⟩) ∧
    (d.fault ≠ .emptyProgram → ∃ n, d.line = some n ∧ 1 ≤ n ∧ n ≤ (lines source).length) := by
  have hcases := assemble_eq_error_iff.1 h
  refine ⟨?_, fun o => outline_assemble_ne_tooLarge, ?_⟩
  · rcases hcases with ⟨above, l, fault, hfirst, rfl⟩ | ⟨hls, ⟨above, l, hfirst⟩ | hnone⟩
    · exact .inl ⟨above, l, fault, hfirst, rfl, fun other htake => (hfirst.of_take htake).assemble⟩
    · exact .inr ⟨hls, .inl ⟨above, l, hfirst, hfirst.ofInstruction.1⟩⟩
    · exact .inr ⟨hls, .inr hnone⟩
  · intro hsome
    have hplace {above : List CodeLine} {l : CodeLine}
        (hsplit : ∃ below, codeLines source = above ++ l :: below) :
        above.length + 1 ≤ (lines source).length := by
      obtain ⟨below, hsplit⟩ := hsplit
      exact (number_of_split hsplit).2
    rcases hcases with ⟨above, l, fault, hfirst, rfl⟩ | ⟨-, ⟨above, l, hfirst⟩ | ⟨-, rfl⟩⟩
    · exact ⟨_, rfl, Nat.succ_pos _, hplace hfirst.split⟩
    · exact ⟨_, hfirst.ofInstruction.1, Nat.succ_pos _, hplace hfirst.split⟩
    · exact absurd rfl hsome

/-- The name that is defined again comes before the constant that does not fit, and before what
stands below. -/
theorem duplicate_before_constant :
    assemble "  B=9999\nx: DEC\nX : B=A\nno colon\n".toList =
      .error ⟨some 3, .duplicateLabel "X".toList⟩ := by
  have hsource : assemble "  B=9999\nx: DEC\nX : B=A\n".toList =
      .error ⟨some 3, .duplicateLabel "X".toList⟩ := by
    decide +kernel
  rcases (first_fault_reported hsource).1 with ⟨above, l, fault, -, hd, hother⟩ | ⟨hls, -⟩
  · have hlen : above.length + 1 = 3 := by
      simpa using (congrArg Diagnostic.line hd).symm
    apply hother
    rw [hlen]
    decide +kernel
  · exact absurd (unbroken_iff_lawful.1 hls).names (by decide +kernel)

end MicroAsm
