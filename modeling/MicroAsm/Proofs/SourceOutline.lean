import Mathlib.Data.List.Basic
import Mathlib.Data.List.Nodup
import Mathlib.Data.List.Induction
import MicroAsm.Proofs.Failure
import MicroAsm.Source.Outline
/-!
What the lines of a source declare, told without running through them: a label has the number of
instructions above its line for an address, and the lines with an instruction are its statements.
The outline of lines that keep the rules is exactly this.
-/
namespace MicroAsm

/-- A line with an instruction, which takes one address. -/
def CodeLine.bears (l : CodeLine) : Bool := !l.body.isEmpty

/-- The names that lines define, each with the number of instructions above its own line. -/
def labelsOf (ls : List CodeLine) : List (Text × Nat) :=
  ls.zipIdx.filterMap fun (l, k) =>
    if l.definesLabel then some (l.labelName, (ls.take k).countP CodeLine.bears) else none

def tableOf (ls : List CodeLine) : LabelTable :=
  ⟨(labelsOf ls).map fun (name, n) => (name, UInt8.ofNat n)⟩

def statementsOf (ls : List CodeLine) : List Statement :=
  (ls.filter CodeLine.bears).zipIdx.map fun (l, k) => ⟨l.number, UInt8.ofNat k, l.body⟩

def outlineOf (ls : List CodeLine) : Outline := ⟨tableOf ls, statementsOf ls⟩

def definedNames (ls : List CodeLine) : List Text :=
  (ls.filter CodeLine.definesLabel).map CodeLine.labelName

/-- The rules of an outline. -/
structure Lawful (ls : List CodeLine) : Prop where
  colon : ∀ l ∈ ls, l.definesLabel = true → l.hasColon = true
  names : (definedNames ls).Nodup
  size : ls.countP CodeLine.bears ≤ maxInstructions

section Append
variable (ls ms : List CodeLine)

/-- The instructions of earlier lines stand above all later labels. -/
theorem labelsOf_append : labelsOf (ls ++ ms) =
    labelsOf ls ++ (labelsOf ms).map (Prod.map id (ls.countP CodeLine.bears + ·)) := by
  unfold labelsOf
  rw [List.zipIdx_append, List.filterMap_append, Nat.zero_add]
  congr 1
  · apply List.filterMap_congr
    rintro ⟨l, k⟩ h
    have hk : k ≤ ls.length := by
      have hlt := (List.mem_zipIdx h).2.1
      omega
    simp only [List.take_append_of_le_length hk]
  · rw [List.zipIdx_eq_map_add, List.filterMap_map, List.map_filterMap]
    apply List.filterMap_congr
    rintro ⟨l, k⟩ -
    simp only [Function.comp_apply, List.take_length_add_append, List.countP_append]
    split <;> rfl

theorem statementsOf_append : statementsOf (ls ++ ms) =
    statementsOf ls ++ (ms.filter CodeLine.bears).zipIdx.map fun (l, k) =>
      ⟨l.number, UInt8.ofNat (ls.countP CodeLine.bears + k), l.body⟩ := by
  unfold statementsOf
  rw [List.filter_append, List.zipIdx_append, List.map_append, Nat.zero_add,
    List.zipIdx_eq_map_add (l := ms.filter CodeLine.bears), List.map_map,
    ← List.countP_eq_length_filter]
  rfl

theorem definedNames_append : definedNames (ls ++ ms) = definedNames ls ++ definedNames ms := by
  simp [definedNames]

theorem length_statementsOf : (statementsOf ls).length = ls.countP CodeLine.bears := by
  simp [statementsOf, List.countP_eq_length_filter]

theorem labelsOf_singleton (l : CodeLine) :
    labelsOf [l] = if l.definesLabel then [(l.labelName, 0)] else [] := by
  simp only [labelsOf, List.zipIdx_singleton, List.filterMap_cons, List.filterMap_nil]
  cases l.definesLabel <;> rfl

theorem definedNames_singleton (l : CodeLine) :
    definedNames [l] = if l.definesLabel then [l.labelName] else [] := by
  unfold definedNames
  cases h : l.definesLabel <;> simp [h]

theorem map_fst_labelsOf : (labelsOf ls).map Prod.fst = definedNames ls := by
  induction ls using List.reverseRecOn with
  | nil => rfl
  | append_singleton ls l ih =>
    rw [labelsOf_append, definedNames_append, List.map_append, ih, List.map_map,
      labelsOf_singleton, definedNames_singleton]
    split <;> rfl

/-- A label stands below no more instructions than there are. -/
theorem le_of_mem_labelsOf {e : Text × Nat} (h : e ∈ labelsOf ls) :
    e.2 ≤ ls.countP CodeLine.bears := by
  obtain ⟨⟨l, k⟩, -, hk⟩ := List.mem_filterMap.1 h
  simp only at hk
  split at hk
  · obtain rfl := Option.some.inj hk
    exact (List.take_sublist k ls).countP_le
  · contradiction

/-- A label is a line that the others stand above and below. -/
theorem mem_labelsOf_iff {name : Text} {n : Nat} : (name, n) ∈ labelsOf ls ↔
    ∃ above l below, ls = above ++ l :: below ∧ l.definesLabel = true ∧ l.labelName = name ∧
      above.countP CodeLine.bears = n := by
  constructor
  · intro h
    obtain ⟨⟨l, k⟩, hl, hk⟩ := List.mem_filterMap.1 h
    obtain ⟨hlt, hget⟩ := List.getElem?_eq_some_iff.1 (List.mk_mem_zipIdx_iff_getElem?.1 hl)
    have hsplit : ls = ls.take k ++ l :: ls.drop (k + 1) := by
      rw [← hget, ← List.drop_eq_getElem_cons hlt, List.take_append_drop]
    simp only at hk
    split at hk
    · rename_i hlabel
      obtain ⟨hname, hcount⟩ := Prod.mk.inj (Option.some.inj hk)
      exact ⟨_, l, _, hsplit, hlabel, hname, hcount⟩
    · contradiction
  · rintro ⟨above, l, below, rfl, hlabel, rfl, rfl⟩
    have hone : (l.labelName, 0) ∈ labelsOf (l :: below) := by
      rw [← List.singleton_append, labelsOf_append, labelsOf_singleton, if_pos hlabel]
      exact List.mem_cons_self
    rw [labelsOf_append]
    exact List.mem_append_right _ (List.mem_map.2 ⟨_, hone, rfl⟩)

theorem map_fst_tableOf : (tableOf ls).entries.map Prod.fst = definedNames ls := by
  rw [← map_fst_labelsOf, tableOf, List.map_map]
  rfl

theorem get?_tableOf_eq_none_iff {name : Text} :
    (tableOf ls).get? name = none ↔ name ∉ definedNames ls := by
  rw [LabelTable.get?_eq_none_iff, ← map_fst_tableOf, List.mem_map]
  simp only [not_exists, not_and]

/-- Where no name is defined twice, the table has the address of each label. -/
theorem LabelTable.get?_eq_some_iff {table : LabelTable} (h : (table.entries.map Prod.fst).Nodup)
    {name : Text} {pc : Address} : table.get? name = some pc ↔ (name, pc) ∈ table.entries := by
  unfold LabelTable.get?
  rw [Option.map_eq_some_iff]
  constructor
  · rintro ⟨e, he, rfl⟩
    obtain rfl : e.1 = name := by simpa using List.find?_some he
    exact List.mem_of_find?_eq_some he
  · intro hm
    obtain ⟨e, he⟩ : ∃ e, table.entries.find? (fun e => e.1 == name) = some e :=
      Option.isSome_iff_exists.1 (List.find?_isSome.2 ⟨_, hm, beq_self_eq_true name⟩)
    have hname : e.1 = name := by simpa using List.find?_some he
    obtain rfl := List.inj_on_of_nodup_map h (List.mem_of_find?_eq_some he) hm hname
    exact ⟨_, he, rfl⟩

theorem get?_tableOf_eq_some_iff (h : (definedNames ls).Nodup) {name : Text} {pc : Address} :
    (tableOf ls).get? name = some pc ↔ (name, pc) ∈ (tableOf ls).entries := by
  rw [← map_fst_tableOf] at h
  exact LabelTable.get?_eq_some_iff h

end Append

section Snoc
variable {ls : List CodeLine} {l : CodeLine} {o o' : Outline}

theorem lawful_snoc_iff : Lawful (ls ++ [l]) ↔ Lawful ls ∧
    (l.definesLabel = true → l.hasColon = true ∧ l.labelName ∉ definedNames ls) ∧
    (l.bears = true → ls.countP CodeLine.bears < maxInstructions) := by
  have hcolon : (∀ m ∈ ls ++ [l], m.definesLabel = true → m.hasColon = true) ↔
      (∀ m ∈ ls, m.definesLabel = true → m.hasColon = true) ∧
        (l.definesLabel = true → l.hasColon = true) := by
    rw [List.forall_mem_append, List.forall_mem_singleton]
  have hnames : (definedNames (ls ++ [l])).Nodup ↔
      (definedNames ls).Nodup ∧ (l.definesLabel = true → l.labelName ∉ definedNames ls) := by
    rw [definedNames_append, definedNames_singleton]
    cases l.definesLabel with
    | true =>
      rw [if_pos rfl, List.nodup_append_comm, List.singleton_append, List.nodup_cons]
      simp [and_comm]
    | false => simp
  have hsize : (ls ++ [l]).countP CodeLine.bears ≤ maxInstructions ↔
      ls.countP CodeLine.bears ≤ maxInstructions ∧
        (l.bears = true → ls.countP CodeLine.bears < maxInstructions) := by
    rw [List.countP_append, List.countP_singleton]
    cases l.bears with
    | true =>
      simp only [if_true, true_implies]
      omega
    | false => simp
  constructor
  · rintro ⟨hc, hn, hs⟩
    rw [hcolon] at hc
    rw [hnames] at hn
    rw [hsize] at hs
    exact ⟨⟨hc.1, hn.1, hs.1⟩, fun hl => ⟨hc.2 hl, hn.2 hl⟩, hs.2⟩
  · rintro ⟨⟨hc, hn, hs⟩, hl, hb⟩
    exact ⟨hcolon.2 ⟨hc, fun h => (hl h).1⟩, hnames.2 ⟨hn, fun h => (hl h).2⟩, hsize.2 ⟨hs, hb⟩⟩

/-- The outline that a line turns an outline into, if the line keeps the rules. -/
def Outline.add (o : Outline) (l : CodeLine) : Outline where
  labels := o.labels.append ⟨if l.definesLabel then [(l.labelName, o.next)] else []⟩
  statements := o.statements ++ if l.bears then [⟨l.number, o.next, l.body⟩] else []

theorem addLabel_eq_ok_iff : o.addLabel l = .ok o' ↔
    (l.definesLabel = true → l.hasColon = true ∧ o.labels.get? l.labelName = none) ∧
    o' = { o with labels := (o.add l).labels } := by
  unfold Outline.addLabel Outline.add
  cases l.definesLabel with
  | false =>
    simp only [LabelTable.append, Bool.false_eq_true, if_false, List.append_nil, Except.ok.injEq,
      false_implies, true_and]
    exact eq_comm
  | true =>
    cases l.hasColon with
    | false => simp
    | true =>
      cases hg : o.labels.get? l.labelName with
      | none =>
        simp only [LabelTable.define, hg, LabelTable.append, Except.map, if_true,
          Option.isSome_none, Bool.false_eq_true, if_false, Except.ok.injEq, true_implies, true_and]
        exact eq_comm
      | some a => simp [LabelTable.define, hg, Except.map]

theorem addBody_eq_ok_iff : o.addBody l = .ok o' ↔
    (l.bears = true → o.statements.length < maxInstructions) ∧
    o' = { o with statements := (o.add l).statements } := by
  unfold Outline.addBody Outline.add CodeLine.bears
  cases l.body.isEmpty with
  | true =>
    simp only [if_true, Except.ok.injEq, Bool.not_true, Bool.false_eq_true, if_false,
      List.append_nil, false_implies, true_and]
    exact eq_comm
  | false =>
    by_cases hs : maxInstructions ≤ o.statements.length
    · simp [hs, Nat.not_lt_of_le hs]
    · simp only [hs, Nat.lt_of_not_le hs, Bool.false_eq_true, if_false, Bool.not_false, if_true,
        Except.ok.injEq, true_implies, true_and]
      exact eq_comm

/-- One step: a line that keeps the rules is added to the outline. -/
theorem addLine_eq_ok_iff : o.addLine l = .ok o' ↔
    (l.definesLabel = true → l.hasColon = true ∧ o.labels.get? l.labelName = none) ∧
    (l.bears = true → o.statements.length < maxInstructions) ∧ o' = o.add l := by
  unfold Outline.addLine
  rw [atLine_eq_ok_iff, bind_eq_ok_iff]
  simp only [addLabel_eq_ok_iff, addBody_eq_ok_iff]
  constructor
  · rintro ⟨_, ⟨hl, rfl⟩, hb, rfl⟩
    exact ⟨hl, hb, rfl⟩
  · rintro ⟨hl, hb, rfl⟩
    exact ⟨_, ⟨hl, rfl⟩, hb, rfl⟩

theorem next_outlineOf (ls : List CodeLine) :
    (outlineOf ls).next = UInt8.ofNat (ls.countP CodeLine.bears) := by
  rw [Outline.next, outlineOf, length_statementsOf]

theorem outlineOf_snoc : outlineOf (ls ++ [l]) = (outlineOf ls).add l := by
  unfold Outline.add
  rw [next_outlineOf]
  unfold outlineOf tableOf LabelTable.append
  rw [labelsOf_append, labelsOf_singleton, statementsOf_append, List.map_append]
  congr 2
  · cases l.definesLabel <;> rfl
  · cases h : l.bears <;> simp [h]

end Snoc

/-- A whole run: the outline of lines is the declared one, if and only if they keep the rules. -/
theorem ofLines_eq_ok_iff {ls : List CodeLine} {o : Outline} :
    Outline.ofLines ls = .ok o ↔ Lawful ls ∧ o = outlineOf ls := by
  induction ls using List.reverseRecOn generalizing o with
  | nil =>
    have hl : Lawful [] := ⟨by simp, List.nodup_nil, by simp⟩
    simp only [hl, true_and]
    exact ⟨fun h => (Except.ok.inj h).symm, fun h => congrArg Except.ok h.symm⟩
  | append_singleton ls l ih =>
    have hrun : Outline.ofLines (ls ++ [l]) = Outline.ofLines ls >>= fun o => o.addLine l := by
      simp [Outline.ofLines, List.foldlM_append]
    have hget : (outlineOf ls).labels.get? l.labelName = none ↔ l.labelName ∉ definedNames ls :=
      get?_tableOf_eq_none_iff ls
    have hlen : (outlineOf ls).statements.length = ls.countP CodeLine.bears :=
      length_statementsOf ls
    rw [hrun, bind_eq_ok_iff, lawful_snoc_iff, outlineOf_snoc, ← hget, ← hlen]
    simp only [ih, addLine_eq_ok_iff]
    constructor
    · rintro ⟨_, ⟨hls, rfl⟩, hl, hb, rfl⟩
      exact ⟨⟨hls, hl, hb⟩, rfl⟩
    · rintro ⟨⟨hls, hl, hb⟩, rfl⟩
      exact ⟨_, ⟨hls, rfl⟩, hl, hb, rfl⟩

end MicroAsm
