import MicroAsm.Proofs.SourceOutline
import MicroAsm.Proofs.Trimming
/-!
Looking labels up. A table may keep an index of its names beside the list of its definitions, which
answers for the addresses. Whatever lines a source has, the two stay in step, and the outline that
they belong to is the same as without an index.
-/
namespace MicroAsm
open Text

/-- Names are hashed as strings. -/
instance : Hashable Text := ⟨fun name => hash (String.ofList name)⟩

/-- A label table in two representations, of which the first one is asked for names and the second
one for addresses. -/
structure IndexedTable where
  byName : Std.HashMap Text Address := {}
  order : List (Text × Address) := []

/-- An outline with an index of its labels. -/
structure IndexedOutline where
  table : IndexedTable := {}
  statements : List Statement := []

namespace IndexedTable

def define (t : IndexedTable) (name : Text) (pc : Address) : Except Fault IndexedTable :=
  if t.byName.contains name then .error (.duplicateLabel name)
  else .ok ⟨t.byName.insert name pc, t.order ++ [(name, pc)]⟩

def plain (t : IndexedTable) : LabelTable := ⟨t.order⟩

/-- The index has every definition once, and nothing else. -/
structure InStep (t : IndexedTable) : Prop where
  names : (t.order.map Prod.fst).Nodup
  get : ∀ name pc, t.byName[name]? = some pc ↔ (name, pc) ∈ t.order

end IndexedTable

namespace IndexedOutline

def plain (i : IndexedOutline) : Outline := ⟨i.table.plain, i.statements⟩

def addLabel (i : IndexedOutline) (l : CodeLine) : Except Fault IndexedOutline :=
  if l.definesLabel then
    if l.hasColon then
      (i.table.define l.labelName i.plain.next).map fun table => { i with table }
    else .error .malformedLabel
  else .ok i

def addBody (i : IndexedOutline) (l : CodeLine) : Except Fault IndexedOutline :=
  (i.plain.addBody l).map fun o => { i with statements := o.statements }

def addLine (i : IndexedOutline) (l : CodeLine) : Except Diagnostic IndexedOutline :=
  atLine l.number do (← i.addLabel l).addBody l

def ofLines (ls : List CodeLine) : Except Diagnostic IndexedOutline := ls.foldlM addLine {}

end IndexedOutline

/-- What the lines of a source leave behind, and any number of them from the top. -/
structure Outline.Ordered (o : Outline) : Prop where
  names : (o.labels.entries.map Prod.fst).Nodup
  ascending : o.labels.entries.Pairwise fun e f => e.2.toNat ≤ f.2.toNat
  bounded : ∀ e ∈ o.labels.entries, e.2.toNat ≤ o.statements.length
  next : o.next.toNat = o.statements.length
  addresses : ∀ (k : Nat) (s : Statement), o.statements[k]? = some s → s.pc.toNat = k
  bodies : ∀ s ∈ o.statements, s.body ≠ [] ∧ trim s.body = s.body
  lines : (o.statements.map Statement.line).Pairwise (· < ·)

namespace IndexedTable
variable {t t' : IndexedTable} {name : Text} {pc : Address}

theorem inStep_empty : InStep {} where
  names := List.nodup_nil
  get name pc := by simp

/-- The list alone would answer the same. -/
theorem InStep.get?_plain (h : t.InStep) (name : Text) : t.plain.get? name = t.byName[name]? := by
  ext pc
  rw [h.get]
  exact LabelTable.get?_eq_some_iff h.names

theorem define_eq_ok_iff : t.define name pc = .ok t' ↔
    t.byName[name]? = none ∧ t' = ⟨t.byName.insert name pc, t.order ++ [(name, pc)]⟩ := by
  unfold define
  rw [Std.HashMap.contains_eq_isSome_getElem?]
  cases t.byName[name]? with
  | none => simp [eq_comm]
  | some old => simp

/-- One step: a name that the index does not have is new to the list as well. -/
theorem InStep.define (h : t.InStep) (hd : t.define name pc = .ok t') : t'.InStep := by
  obtain ⟨hnone, rfl⟩ := define_eq_ok_iff.1 hd
  have hnew : ∀ old, (name, old) ∉ t.order := by
    intro old hm
    rw [(h.get name old).2 hm] at hnone
    contradiction
  constructor
  · have hfresh : name ∉ t.order.map Prod.fst := by
      intro hm
      obtain ⟨⟨_, old⟩, hdefined, rfl⟩ := List.mem_map.1 hm
      exact hnew old hdefined
    rw [List.map_append, List.map_singleton, List.nodup_append_comm, List.singleton_append,
      List.nodup_cons]
    exact ⟨hfresh, h.names⟩
  · intro other address
    rw [Std.HashMap.getElem?_insert, List.mem_append, List.mem_singleton]
    by_cases hname : name = other
    · subst hname
      simp [hnew, eq_comm]
    · simp [hname, h.get, Ne.symm hname]

theorem InStep.map_plain_define (h : t.InStep) (name : Text) (pc : Address) :
    (t.define name pc).map plain = t.plain.define name pc := by
  unfold IndexedTable.define LabelTable.define
  rw [h.get?_plain, Std.HashMap.contains_eq_isSome_getElem?]
  split <;> rfl

end IndexedTable

namespace IndexedOutline
variable {i i' : IndexedOutline} {l : CodeLine} {ls : List CodeLine}

/-- One step: a line leaves both representations in step, whatever kind of line it is. -/
theorem inStep_addLine (h : i.table.InStep) (hl : i.addLine l = .ok i') : i'.table.InStep := by
  rw [addLine, atLine_eq_ok_iff, bind_eq_ok_iff] at hl
  obtain ⟨j, hlabel, hbody⟩ := hl
  have hj : j.table.InStep := by
    unfold addLabel at hlabel
    split at hlabel
    · split at hlabel
      · cases hd : i.table.define l.labelName i.plain.next with
        | error fault => simp [hd, Except.map] at hlabel
        | ok table =>
          rw [hd] at hlabel
          obtain rfl := Except.ok.inj hlabel
          exact h.define hd
      · contradiction
    · obtain rfl := Except.ok.inj hlabel
      exact h
  unfold addBody at hbody
  cases hb : j.plain.addBody l with
  | error fault => simp [hb, Except.map] at hbody
  | ok o =>
    rw [hb] at hbody
    obtain rfl := Except.ok.inj hbody
    exact hj

/-- A line does the same to the outline with an index and to the one without. -/
theorem map_plain_addLine (h : i.table.InStep) (l : CodeLine) :
    (i.addLine l).map plain = i.plain.addLine l := by
  have hlabel : (i.addLabel l).map plain = i.plain.addLabel l := by
    unfold addLabel Outline.addLabel
    split
    · split
      · show _ = (i.table.plain.define l.labelName i.plain.next).map _
        rw [← h.map_plain_define]
        cases i.table.define l.labelName i.plain.next <;> rfl
      · rfl
    · rfl
  have hbody (j : IndexedOutline) : (j.addBody l).map plain = j.plain.addBody l := by
    unfold addBody
    cases hb : j.plain.addBody l with
    | error fault => rfl
    | ok o =>
      obtain ⟨-, rfl⟩ := addBody_eq_ok_iff.1 hb
      rfl
  unfold addLine Outline.addLine
  rw [← hlabel]
  cases i.addLabel l with
  | error fault => rfl
  | ok j =>
    show (atLine l.number (j.addBody l)).map plain = atLine l.number (j.plain.addBody l)
    rw [← hbody]
    cases j.addBody l <;> rfl

/-- A whole run. -/
theorem foldlM_addLine (h : i.table.InStep) (ls : List CodeLine) :
    (ls.foldlM addLine i).map plain = ls.foldlM Outline.addLine i.plain ∧
      ∀ i', ls.foldlM addLine i = .ok i' → i'.table.InStep := by
  induction ls generalizing i with
  | nil =>
    refine ⟨rfl, fun i' hrun => ?_⟩
    obtain rfl := Except.ok.inj hrun
    exact h
  | cons l ls ih =>
    rw [List.foldlM_cons, List.foldlM_cons, ← map_plain_addLine h]
    cases hl : i.addLine l with
    | error d => exact ⟨rfl, nofun⟩
    | ok j => exact ih (inStep_addLine h hl)

/-- The index makes no difference to the outline, nor to what is wrong with the lines. -/
theorem map_plain_ofLines (ls : List CodeLine) : (ofLines ls).map plain = Outline.ofLines ls :=
  (foldlM_addLine IndexedTable.inStep_empty ls).1

theorem inStep_ofLines (h : ofLines ls = .ok i) : i.table.InStep :=
  (foldlM_addLine IndexedTable.inStep_empty ls).2 i h

end IndexedOutline

namespace Outline.Ordered
variable {o o' : Outline} {l : CodeLine} {ls : List CodeLine}

theorem empty : Ordered {} := by
  constructor <;> simp [Outline.next]

theorem addLabel (h : o.Ordered) (hl : o.addLabel l = .ok o') : o'.Ordered := by
  obtain ⟨hlabel, rfl⟩ := addLabel_eq_ok_iff.1 hl
  cases hd : l.definesLabel with
  | false =>
    have hsame : (o.add l).labels = o.labels := by simp [Outline.add, LabelTable.append, hd]
    rw [hsame]
    exact h
  | true =>
    have hentries : (o.add l).labels.entries = o.labels.entries ++ [(l.labelName, o.next)] := by
      simp [Outline.add, LabelTable.append, hd]
    have hnew : l.labelName ∉ o.labels.entries.map Prod.fst := by
      rw [List.mem_map]
      rintro ⟨e, he, hname⟩
      exact LabelTable.get?_eq_none_iff.1 (hlabel hd).2 e he hname
    refine ⟨?_, ?_, ?_, h.next, h.addresses, h.bodies, h.lines⟩
    · rw [hentries, List.map_append, List.map_singleton, List.nodup_append_comm,
        List.singleton_append, List.nodup_cons]
      exact ⟨hnew, h.names⟩
    · rw [hentries, List.pairwise_append]
      refine ⟨h.ascending, List.pairwise_singleton _ _, ?_⟩
      rintro e he f hf
      rw [List.mem_singleton.1 hf, h.next]
      exact h.bounded e he
    · rw [hentries]
      simp only [List.forall_mem_append, List.forall_mem_singleton, h.next, le_refl, and_true]
      exact h.bounded

/-- A statement comes in at the next address. -/
theorem append_statement {s : Statement} (h : o.Ordered) (hroom : o.statements.length < 255)
    (hpc : s.pc = o.next) (hbody : s.body ≠ [] ∧ trim s.body = s.body)
    (hline : ∀ t ∈ o.statements, t.line < s.line) :
    Ordered { o with statements := o.statements ++ [s] } := by
  have hlength : (o.statements ++ [s]).length = o.statements.length + 1 := List.length_append
  refine ⟨h.names, h.ascending, ?_, ?_, ?_, ?_, ?_⟩
  · intro e he
    exact (h.bounded e he).trans (hlength ▸ Nat.le_succ _)
  · simp only [Outline.next, hlength]
    exact UInt8.toNat_ofNat_of_lt' (Nat.succ_lt_succ hroom)
  · intro k t hk
    rw [List.getElem?_append] at hk
    split at hk
    · exact h.addresses k t hk
    · rw [List.getElem?_singleton] at hk
      split at hk
      · obtain rfl := Option.some.inj hk
        rw [hpc, h.next]
        omega
      · contradiction
  · rw [List.forall_mem_append, List.forall_mem_singleton]
    exact ⟨h.bodies, hbody⟩
  · rw [List.map_append, List.map_singleton, List.pairwise_append]
    refine ⟨h.lines, List.pairwise_singleton _ _, ?_⟩
    intro m hm n hn
    obtain ⟨t, ht, rfl⟩ := List.mem_map.1 hm
    rw [List.mem_singleton.1 hn]
    exact hline t ht

theorem addBody (h : o.Ordered) (hline : ∀ s ∈ o.statements, s.line < l.number)
    (hl : o.addBody l = .ok o') : o'.Ordered := by
  obtain ⟨hroom, rfl⟩ := addBody_eq_ok_iff.1 hl
  cases hb : l.bears with
  | false =>
    have hsame : (o.add l).statements = o.statements := by simp [Outline.add, hb]
    rw [hsame]
    exact h
  | true =>
    have hstatements : (o.add l).statements = o.statements ++ [⟨l.number, o.next, l.body⟩] := by
      simp [Outline.add, hb]
    have hbody : l.body ≠ [] := by simpa [CodeLine.bears] using hb
    rw [hstatements]
    exact h.append_statement (hroom hb) rfl ⟨hbody, trim_trim _⟩ hline

/-- One step: a line adds a label, a statement or both behind all others. -/
theorem addLine (h : o.Ordered) (hline : ∀ s ∈ o.statements, s.line < l.number)
    (hl : o.addLine l = .ok o') : o'.Ordered := by
  rw [Outline.addLine, atLine_eq_ok_iff, bind_eq_ok_iff] at hl
  obtain ⟨p, hlabel, hbody⟩ := hl
  refine (h.addLabel hlabel).addBody ?_ hbody
  obtain ⟨-, rfl⟩ := addLabel_eq_ok_iff.1 hlabel
  exact hline

/-- A whole run over lines in the order of their numbers. -/
theorem foldlM_addLine (h : o.Ordered) (hasc : (ls.map CodeLine.number).Pairwise (· < ·))
    (hline : ∀ s ∈ o.statements, ∀ l ∈ ls, s.line < l.number)
    (hrun : ls.foldlM Outline.addLine o = .ok o') : o'.Ordered := by
  induction ls generalizing o with
  | nil =>
    obtain rfl := Except.ok.inj hrun
    exact h
  | cons l ls ih =>
    rw [List.foldlM_cons, bind_eq_ok_iff] at hrun
    obtain ⟨p, hl, hrun⟩ := hrun
    rw [List.map_cons, List.pairwise_cons, List.forall_mem_map] at hasc
    refine ih (h.addLine (fun s hs => hline s hs l List.mem_cons_self) hl) hasc.2 ?_ hrun
    obtain ⟨-, -, rfl⟩ := addLine_eq_ok_iff.1 hl
    intro s hs m hm
    rcases List.mem_append.1 hs with hs | hs
    · exact hline s hs m (List.mem_cons_of_mem l hm)
    · split at hs
      · rw [List.mem_singleton.1 hs]
        exact hasc.1 m hm
      · contradiction

end Outline.Ordered

theorem ascending_codeLines (source : Text) :
    ((codeLines source).map CodeLine.number).Pairwise (· < ·) := by
  have hnumbers : (codeLines source).map CodeLine.number =
      List.range' 1 (lines source).length := by
    rw [codeLines, List.map_map]
    exact List.zipIdx_map_snd 1 (lines source)
  rw [hnumbers]
  exact List.pairwise_lt_range'

/-- The index is updated beside the list, with every line, and every line leaves behind an ordered
outline: no name is defined twice, the addresses of the labels do not decrease and do not exceed
the number of statements, which is not cut to eight bits, and the statements have the addresses from
zero on, trimmed bodies and ascending lines. In the end a name is found with its address in either
representation, and an address with the first of its names. -/
theorem lookups_in_step {source : Text} {o : Outline} (h : Outline.ofSource source = .ok o) :
    (∀ above below, codeLines source = above ++ below →
      ∃ i, IndexedOutline.ofLines above = .ok i ∧ i.table.InStep ∧
        Outline.ofLines above = .ok i.plain ∧ i.plain.Ordered) ∧
    o.Ordered ∧
    (∀ name pc, o.labels.get? name = some pc ↔ (name, pc) ∈ o.labels.entries) ∧
    (∀ pc name, o.labels.nameAt? pc = some name ↔ ∃ earlier later,
      o.labels.entries = earlier ++ (name, pc) :: later ∧ ∀ e ∈ earlier, e.2 ≠ pc) ∧
    ∀ pc, o.labels.nameAt? pc = none ↔ ∀ e ∈ o.labels.entries, e.2 ≠ pc := by
  have hsteps : ∀ above below, codeLines source = above ++ below →
      ∃ i, IndexedOutline.ofLines above = .ok i ∧ i.table.InStep ∧
        Outline.ofLines above = .ok i.plain ∧ i.plain.Ordered := by
    intro above below hsplit
    have hrun : (above ++ below).foldlM Outline.addLine {} = .ok o := hsplit ▸ h
    rw [List.foldlM_append, bind_eq_ok_iff] at hrun
    obtain ⟨p, hp, -⟩ := hrun
    have hasc := ascending_codeLines source
    rw [hsplit, List.map_append, List.pairwise_append] at hasc
    have hordered := Outline.Ordered.empty.foldlM_addLine hasc.1 (by simp) hp
    obtain ⟨i, hi, rfl⟩ := map_eq_ok_iff.1 ((IndexedOutline.map_plain_ofLines above).trans hp)
    exact ⟨i, hi, IndexedOutline.inStep_ofLines hi, hp, hordered⟩
  have hordered : o.Ordered := by
    obtain ⟨i, -, -, hi, hordered⟩ := hsteps _ [] (List.append_nil _).symm
    obtain rfl := Except.ok.inj (h.symm.trans hi)
    exact hordered
  refine ⟨hsteps, hordered, ?_, ?_, ?_⟩
  · intro name pc
    exact LabelTable.get?_eq_some_iff hordered.names
  · intro pc name
    exact LabelTable.nameAt?_eq_some_iff
  · intro pc
    simp [LabelTable.nameAt?]

/-- Two labels share an address, and an empty line stands between. -/
theorem labels_share_next_address : ∃ o,
    Outline.ofSource "start:\n  A=D\nloop:\nnext : B=A\n\n  DEC\n".toList = .ok o ∧
    o.Ordered ∧ o.labels.get? "NEXT".toList = some 1 ∧ o.labels.nameAt? 1 = some "LOOP".toList ∧
    o.labels.nameAt? 2 = none := by
  have hsource : Outline.ofSource "start:\n  A=D\nloop:\nnext : B=A\n\n  DEC\n".toList =
      .ok ⟨⟨[("START".toList, 0), ("LOOP".toList, 1), ("NEXT".toList, 1)]⟩,
        [⟨2, 0, "A=D".toList⟩, ⟨4, 1, "B=A".toList⟩, ⟨6, 2, "DEC".toList⟩]⟩ := by
    decide +kernel
  obtain ⟨-, hordered, hget, hname, hnone⟩ := lookups_in_step hsource
  refine ⟨_, hsource, hordered, (hget _ _).2 (by decide), (hname _ _).2 ?_, (hnone _).2 ?_⟩
  · exact ⟨[("START".toList, 0)], [("NEXT".toList, 1)], rfl, by decide⟩
  · decide

end MicroAsm
