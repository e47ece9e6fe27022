import MicroAsm.AluOp
import MicroAsm.Source.LabelTable
/-!
The state of a line while its tokens are read: the selectors of the units driven so far, and the
resources that all units of an instruction share. A resource takes one value; binding it again
succeeds with the same value only, and a refused binding leaves the state as it was.
-/
namespace MicroAsm

structure LineState where
  selectors : Selectors := {}
  alu : Option AluOp := none
  literal : Option Int := none
  target : Option Address := none
  needsAlu : Bool := false
  deriving DecidableEq, Repr

/-- A literal and a target share the value field as two halves of six bits. -/
def fitsSplit (target : Address) (literal : Int) : Bool :=
  target.toNat < 64 && -32 ≤ literal && literal ≤ 31

theorem fitsSplit_iff {target : Address} {literal : Int} : fitsSplit target literal = true ↔
    target.toNat < 64 ∧ -32 ≤ literal ∧ literal ≤ 31 := by
  simp [fitsSplit, and_assoc]

/-- Equal constants share the whole value field. -/
def shareField (target : Address) (literal : Int) : Bool :=
  target.toNat == literal || fitsSplit target literal

namespace LineState

def taken (s : LineState) (u : FuncUnit) : Bool := s.selectors.get u != 0

def bindAlu (s : LineState) (op : AluOp) : Bool × LineState :=
  if s.alu.all (· == op) then (true, { s with alu := some op }) else (false, s)

def bindLiteral (s : LineState) (value : Int) : Bool × LineState :=
  if s.literal.all (· == value) && s.target.all (shareField · value) then
    (true, { s with literal := some value })
  else (false, s)

/-- Two branch targets in a line are a fault whatever the order of the tokens. -/
def bindLabel (s : LineState) (address : Address) : Except Fault Bool × LineState :=
  if s.target.all (· == address) then
    if s.literal.all (shareField address) then (.ok true, { s with target := some address })
    else (.ok false, s)
  else (.error .conflictingTargets, s)

def drive (s : LineState) (u : FuncUnit) (selector : Nat) : LineState :=
  { s with selectors := s.selectors.set u selector }

theorem bindAlu_refused {s : LineState} {op : AluOp} (h : (s.bindAlu op).1 = false) :
    (s.bindAlu op).2 = s := by
  unfold bindAlu at h ⊢
  split at h
  · simp at h
  · rename_i hs
    simp [hs]

theorem bindLiteral_refused {s : LineState} {value : Int} (h : (s.bindLiteral value).1 = false) :
    (s.bindLiteral value).2 = s := by
  unfold bindLiteral at h ⊢
  split at h
  · simp at h
  · rename_i hs
    simp only [hs, if_false, Bool.false_eq_true]

theorem bindLabel_refused {s : LineState} {address : Address}
    (h : (s.bindLabel address).1 ≠ .ok true) : (s.bindLabel address).2 = s := by
  unfold bindLabel at h ⊢
  split
  · split
    · simp_all
    · rfl
  · rfl

theorem taken_drive (s : LineState) (u v : FuncUnit) (selector : Nat) :
    (s.drive u selector).taken v = if v = u then selector != 0 else s.taken v := by
  unfold taken drive
  rw [Selectors.get_set]
  split <;> rfl

end LineState
end MicroAsm
