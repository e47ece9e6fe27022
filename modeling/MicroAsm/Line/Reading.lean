import MicroAsm.Catalog
import MicroAsm.Line.State
import MicroAsm.Literal
/-!
Reading a token in a line. The unit of a token is the first one with a form that the token has;
the forms of that unit are tried in catalog order, and the first one whose operand can be bound to
the resources of the line is the reading of the token.
-/
namespace MicroAsm

/-- What one form makes of a token. -/
inductive Candidate where
  | plain (selector : Nat)
  | alu (selector : Nat) (op : AluOp)
  | literal (selector : Nat) (value : Int)
  | label (selector : Nat) (address : Address)
  | noAlu
  | noLiteral
  | faulty (fault : Fault)
  deriving DecidableEq, Repr

def aluCandidate (u : FuncUnit) (selector : Nat) (operand : Text) : Candidate :=
  match if u = .f then AluOp.ofTestOperand? operand else AluOp.ofSpelling? operand with
  | some op => .alu selector op
  | none => .noAlu

def literalCandidate (selector : Nat) (operand : Text) : Candidate :=
  match readLiteral operand with
  | .ok (some value) => .literal selector value
  | .ok none => .noLiteral
  | .error fault => .faulty fault

def labelCandidate (labels : LabelTable) (u : FuncUnit) (selector : Nat) (operand : Text) :
    Candidate :=
  match labels.get? operand with
  | some address => .label selector address
  | none => .faulty (.undefinedLabel operand u)

def Form.read (form : Form) (labels : LabelTable) (u : FuncUnit) (token : Text) :
    Option Candidate :=
  match form.operand with
  | .none => if token = form.text then some (.plain form.selector) else none
  | .alu => (form.text.isPrefixOf? token).map fun rest =>
      aluCandidate u form.selector (Text.trimLeft rest)
  | .literal => (form.text.isPrefixOf? token).map fun rest =>
      literalCandidate form.selector (Text.trimLeft rest)
  | .label => (form.text.isPrefixOf? token).map fun rest =>
      labelCandidate labels u form.selector (Text.trimLeft rest)

def candidates (labels : LabelTable) (token : Text) (u : FuncUnit) : List Candidate :=
  u.forms.filterMap fun form => form.read labels u token

structure Reading where
  unit : FuncUnit
  selector : Nat
  /-- A test that leaves the ALU operation to another token. -/
  implicitAlu : Bool
  deriving DecidableEq, Repr

/-- Why a token cannot be read. Only an inconsistency may go away in another order of tokens. -/
inductive Refusal where
  | inconsistent
  | hard (fault : Fault)
  deriving DecidableEq, Repr

/-- What the candidates refused so far have shown. -/
structure Tried where
  noAlu : Bool := false
  noLiteral : Bool := false
  aluConflict : Bool := false
  deriving DecidableEq, Repr

def Tried.refusal (tried : Tried) (u : FuncUnit) (token : Text) : Refusal :=
  if tried.aluConflict then .inconsistent
  else
    .hard <| .unrecognized token <|
      match tried.noAlu, tried.noLiteral with
      | true, true => .aluOrLiteral u
      | true, false => .alu u
      | false, true => .literal u
      | false, false => .opcode

namespace LineState

/-- Takes the first candidate that can be bound. An operation in conflict with the one of the line
gives way to a later candidate; a literal or a label in conflict does not. -/
def choose (s : LineState) (u : FuncUnit) (token : Text) (tried : Tried) :
    List Candidate → Except Refusal Reading × LineState
  | [] => (.error (tried.refusal u token), s)
  | .plain selector :: _ => (.ok ⟨u, selector, u == .f⟩, s)
  | .alu selector op :: rest =>
    match s.bindAlu op with
    | (true, s) => (.ok ⟨u, selector, false⟩, s)
    | (false, s) => s.choose u token { tried with aluConflict := true } rest
  | .literal selector value :: _ =>
    match s.bindLiteral value with
    | (true, s) => (.ok ⟨u, selector, false⟩, s)
    | (false, s) => (.error .inconsistent, s)
  | .label selector address :: _ =>
    match s.bindLabel address with
    | (.ok true, s) => (.ok ⟨u, selector, false⟩, s)
    | (.ok false, s) => (.error .inconsistent, s)
    | (.error fault, s) => (.error (.hard fault), s)
  | .noAlu :: rest => s.choose u token { tried with noAlu := true } rest
  | .noLiteral :: rest => s.choose u token { tried with noLiteral := true } rest
  | .faulty fault :: _ => (.error (.hard fault), s)

/-- A unit that is already driven is a fault before the operand is looked at. -/
def read (s : LineState) (labels : LabelTable) (token : Text) :
    Except Refusal Reading × LineState :=
  match FuncUnit.all.find? fun u => !(candidates labels token u).isEmpty with
  | none => (.error (.hard (.unrecognized token .opcode)), s)
  | some u =>
    if s.taken u then (.error (.hard (.unitUsedTwice u)), s)
    else s.choose u token {} (candidates labels token u)

def record (s : LineState) (r : Reading) : LineState :=
  { s.drive r.unit r.selector with needsAlu := s.needsAlu || r.implicitAlu }

/-- Reads a token and drives its unit. -/
def assign (labels : LabelTable) (s : LineState) (token : Text) : Except Refusal LineState :=
  match s.read labels token with
  | (.ok r, s) => .ok (s.record r)
  | (.error refusal, _) => .error refusal

theorem assign_eq_error_iff {labels : LabelTable} {s : LineState} {token : Text}
    {refusal : Refusal} :
    s.assign labels token = .error refusal ↔ (s.read labels token).1 = .error refusal := by
  unfold assign
  split
  · rename_i r t ht
    simp [ht]
  · rename_i e t ht
    simp [ht]

theorem choose_refused {s : LineState} {u : FuncUnit} {token : Text} {tried : Tried}
    {refusal : Refusal} {cs : List Candidate}
    (h : (s.choose u token tried cs).1 = .error refusal) : (s.choose u token tried cs).2 = s := by
  induction cs generalizing tried with
  | nil => rfl
  | cons c cs ih =>
    cases c with
    | plain selector => rfl
    | faulty fault => rfl
    | noAlu => exact ih h
    | noLiteral => exact ih h
    | alu selector op =>
      have hb := @bindAlu_refused s op
      rw [choose] at h ⊢
      split at h
      · simp at h
      · rename_i t ht
        rw [ht] at hb
        obtain rfl : t = s := hb rfl
        exact ih h
    | literal selector value =>
      have hb := @bindLiteral_refused s value
      rw [choose] at h ⊢
      split at h
      · simp at h
      · rename_i t ht
        rw [ht] at hb
        simpa only [ht] using hb rfl
    | label selector address =>
      have hb := @bindLabel_refused s address
      rw [choose] at h ⊢
      split at h
      · simp at h
      · rename_i t ht
        rw [ht] at hb
        simpa only [ht] using hb (by simp)
      · rename_i fault t ht
        rw [ht] at hb
        simpa only [ht] using hb (by simp)

/-- A refused token leaves no trace. -/
theorem read_refused {s : LineState} {labels : LabelTable} {token : Text} {refusal : Refusal}
    (h : (s.read labels token).1 = .error refusal) : (s.read labels token).2 = s := by
  unfold read at h ⊢
  split at h
  · rfl
  · split at h
    · rename_i ht
      simp only [ht, if_true]
    · rename_i ht
      simp only [ht, if_false, Bool.false_eq_true]
      exact choose_refused h

end LineState
end MicroAsm
