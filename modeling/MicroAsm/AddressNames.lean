import MicroAsm.Source.LabelTable
/-!
Names of addresses, in ascending order and one for each address. A name is offered to an address,
which keeps the one that it has, or put in the place of any other.
-/
namespace MicroAsm

/-- Names an address, at its place in an ascending list, after the name that it has there. -/
def renameAt (pc : Address) (rename : Option Text → Text) :
    List (Address × Text) → List (Address × Text)
  | [] => [(pc, rename none)]
  | (next, old) :: rest =>
    if pc < next then (pc, rename none) :: (next, old) :: rest
    else if pc = next then (pc, rename (some old)) :: rest
    else (next, old) :: renameAt pc rename rest

section RenameAt
variable {pc : Address} {rename : Option Text → Text} {es : List (Address × Text)}

theorem mem_renameAt {e : Address × Text} (h : e ∈ renameAt pc rename es) : e.1 = pc ∨ e ∈ es := by
  induction es with
  | nil =>
    rw [List.mem_singleton.1 h]
    exact .inl rfl
  | cons d es ih =>
    rw [renameAt] at h
    split at h
    · exact (List.mem_cons.1 h).imp_left (congrArg Prod.fst)
    · split at h
      · exact (List.mem_cons.1 h).imp (congrArg Prod.fst) (List.mem_cons_of_mem d)
      · rcases List.mem_cons.1 h with rfl | h
        · exact .inr List.mem_cons_self
        · exact (ih h).imp_right (List.mem_cons_of_mem d)

theorem lt_of_lt_head {d : Address × Text} (h : (d :: es).Pairwise fun e f => e.1 < f.1)
    (hlt : pc < d.1) : ∀ e ∈ d :: es, pc < e.1 := by
  intro e he
  rcases List.mem_cons.1 he with rfl | he
  · exact hlt
  · exact UInt8.lt_trans hlt ((List.pairwise_cons.1 h).1 e he)

theorem ascending_renameAt (h : es.Pairwise fun e f => e.1 < f.1) :
    (renameAt pc rename es).Pairwise fun e f => e.1 < f.1 := by
  induction es with
  | nil => exact List.pairwise_singleton _ _
  | cons d es ih =>
    obtain ⟨hd, hes⟩ := List.pairwise_cons.1 h
    rw [renameAt]
    split
    · rename_i hlt
      exact List.pairwise_cons.2 ⟨lt_of_lt_head h hlt, h⟩
    · split
      · rename_i heq
        subst heq
        exact List.pairwise_cons.2 ⟨hd, hes⟩
      · rename_i hge hne
        refine List.pairwise_cons.2 ⟨?_, ih hes⟩
        intro e he
        rcases mem_renameAt he with hpc | he
        · rw [hpc]
          exact UInt8.lt_of_le_of_ne (UInt8.not_lt.1 hge) (Ne.symm hne)
        · exact hd e he

theorem lookup_cons_address (e : Address × Text) (pc : Address) :
    (e :: es).lookup pc = if pc = e.1 then some e.2 else es.lookup pc := by
  rw [List.lookup_cons]
  cases h : pc == e.1 with
  | true => rw [if_pos (eq_of_beq h)]
  | false => rw [if_neg (ne_of_beq_false h)]

/-- An address that an ascending list has passed has no name further on. -/
theorem lookup_renameAt (h : es.Pairwise fun e f => e.1 < f.1) (other : Address) :
    (renameAt pc rename es).lookup other =
      if other = pc then some (rename (es.lookup pc)) else es.lookup other := by
  induction es with
  | nil => rw [renameAt, lookup_cons_address, List.lookup_nil, List.lookup_nil]
  | cons d es ih =>
    obtain ⟨hd, hes⟩ := List.pairwise_cons.1 h
    rw [renameAt]
    split
    · rename_i hlt
      have hnone : (d :: es).lookup pc = none := by
        rw [List.lookup_eq_none_iff]
        intro e he
        exact bne_iff_ne.2 (UInt8.ne_of_lt (lt_of_lt_head h hlt e he))
      rw [lookup_cons_address, hnone]
    · split
      · rename_i heq
        subst heq
        simp only [lookup_cons_address, if_true]
        split <;> rfl
      · rename_i hge hne
        simp only [lookup_cons_address, ih hes, hne, if_false]
        split
        · rename_i hother
          rw [if_neg fun hpc => hne (hpc.symm.trans hother)]
        · rfl

end RenameAt

structure AddressNames where
  shown : List (Address × Text) := []
  ascending : shown.Pairwise fun e f => e.1 < f.1 := by exact .nil
  deriving DecidableEq, Repr

namespace AddressNames

def get? (names : AddressNames) (pc : Address) : Option Text := names.shown.lookup pc

def rename (names : AddressNames) (pc : Address) (f : Option Text → Text) : AddressNames :=
  ⟨renameAt pc f names.shown, ascending_renameAt names.ascending⟩

/-- An address without a name takes this one. -/
def offer (names : AddressNames) (pc : Address) (name : Text) : AddressNames :=
  names.rename pc fun old => old.getD name

def put (names : AddressNames) (pc : Address) (name : Text) : AddressNames :=
  names.rename pc fun _ => name

/-- Offers the labels of a table in the order of their definition. -/
def offerLabels (names : AddressNames) (table : LabelTable) : AddressNames :=
  table.entries.foldl (fun names e => names.offer e.2 e.1) names

theorem mem_shown_iff {names : AddressNames} {pc : Address} {name : Text} :
    (pc, name) ∈ names.shown ↔ names.get? pc = some name := by
  rw [get?, List.lookup_eq_some_iff]
  constructor
  · intro h
    obtain ⟨below, above, hsplit⟩ := List.append_of_mem h
    refine ⟨below, above, hsplit, ?_⟩
    intro e he
    have hlt : e.1 < pc := by
      have hasc := names.ascending
      rw [hsplit, List.pairwise_append] at hasc
      exact hasc.2.2 e he _ List.mem_cons_self
    exact bne_iff_ne.2 (UInt8.ne_of_lt hlt).symm
  · rintro ⟨below, above, hsplit, -⟩
    rw [hsplit]
    exact List.mem_append_right below List.mem_cons_self

section Lookup
variable (names : AddressNames) (pc other : Address) (name : Text)

theorem get?_rename (f : Option Text → Text) : (names.rename pc f).get? other =
    if other = pc then some (f (names.get? pc)) else names.get? other :=
  lookup_renameAt names.ascending other

theorem get?_offer : (names.offer pc name).get? other =
    (names.get? other).or (if other = pc then some name else none) := by
  rw [offer, get?_rename]
  split
  · rename_i h
    subst h
    cases names.get? other <;> rfl
  · rw [Option.or_none]

theorem get?_put : (names.put pc name).get? other =
    if other = pc then some name else names.get? other :=
  get?_rename names pc other _

/-- An address without a name takes the first one of the table. -/
theorem get?_offerLabels (table : LabelTable) :
    (names.offerLabels table).get? pc = (names.get? pc).or (table.nameAt? pc) := by
  obtain ⟨es⟩ := table
  induction es generalizing names with
  | nil => exact (Option.or_none).symm
  | cons e es ih =>
    have hfirst : LabelTable.nameAt? ⟨[e]⟩ pc = if pc = e.2 then some e.1 else none := by
      unfold LabelTable.nameAt?
      by_cases h : pc = e.2
      · simp [h]
      · simp [h, Ne.symm h]
    change ((names.offer e.2 e.1).offerLabels ⟨es⟩).get? pc =
      (names.get? pc).or (LabelTable.nameAt? (.append ⟨[e]⟩ ⟨es⟩) pc)
    rw [ih, get?_offer, LabelTable.nameAt?_append, hfirst, Option.or_assoc]

end Lookup

end AddressNames
end MicroAsm
