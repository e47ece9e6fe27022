import MicroAsm.Fault
/-!
Labels in the order of their definition. A name has one address; an address may have several
names, of which the first one is shown.
-/
namespace MicroAsm

abbrev Address := UInt8

structure LabelTable where
  entries : List (Text × Address) := []
  deriving DecidableEq, Repr

namespace LabelTable

def get? (table : LabelTable) (name : Text) : Option Address :=
  (table.entries.find? fun e => e.1 == name).map (·.2)

def nameAt? (table : LabelTable) (pc : Address) : Option Text :=
  (table.entries.find? fun e => e.2 == pc).map (·.1)

def define (table : LabelTable) (name : Text) (pc : Address) : Except Fault LabelTable :=
  if (table.get? name).isSome then .error (.duplicateLabel name)
  else .ok ⟨table.entries ++ [(name, pc)]⟩

/-- Adds the labels of another table after its own. -/
def append (table other : LabelTable) : LabelTable := ⟨table.entries ++ other.entries⟩

theorem get?_eq_none_iff {table : LabelTable} {name : Text} :
    table.get? name = none ↔ ∀ e ∈ table.entries, e.1 ≠ name := by
  simp [get?]

theorem get?_append (table other : LabelTable) (name : Text) :
    (table.append other).get? name = (table.get? name).or (other.get? name) := by
  simp [get?, append, List.find?_append, Option.map_or]

/-- A name that is new goes to the end. -/
theorem define_eq_ok_iff {table new : LabelTable} {name : Text} {pc : Address} :
    table.define name pc = .ok new ↔
      table.get? name = none ∧ new = table.append ⟨[(name, pc)]⟩ := by
  cases h : table.get? name with
  | none => simp [define, h, append, eq_comm]
  | some old => simp [define, h]

theorem nameAt?_append (table other : LabelTable) (pc : Address) :
    (table.append other).nameAt? pc = (table.nameAt? pc).or (other.nameAt? pc) := by
  simp [nameAt?, append, List.find?_append, Option.map_or]

/-- An address shows the name that was defined first. -/
theorem nameAt?_eq_some_iff {table : LabelTable} {pc : Address} {name : Text} :
    table.nameAt? pc = some name ↔ ∃ earlier later,
      table.entries = earlier ++ (name, pc) :: later ∧ ∀ e ∈ earlier, e.2 ≠ pc := by
  unfold nameAt?
  rw [Option.map_eq_some_iff]
  simp only [List.find?_eq_some_iff_append, beq_iff_eq, Bool.not_eq_true', beq_eq_false_iff_ne]
  constructor
  · rintro ⟨⟨_, _⟩, ⟨rfl, hfirst⟩, rfl⟩
    exact hfirst
  · intro hfirst
    exact ⟨(name, pc), ⟨rfl, hfirst⟩, rfl⟩

end LabelTable
end MicroAsm
