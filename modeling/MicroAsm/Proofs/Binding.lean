import MicroAsm.Proofs.Clause
/-!
What reading a token does to the state of its line: it binds one resource that was free, or none,
and touches nothing else.
-/
namespace MicroAsm.LineState

/-- A state that has one resource more than before, or none, and is otherwise the same. A new
literal or target shares the value field with what is there. -/
inductive Gains (s : LineState) : LineState → Prop where
  | nothing : Gains s s
  | alu (op : AluOp) (free : s.alu = none) : Gains s { s with alu := some op }
  | literal (v : Int) (free : s.literal = none) (room : Shares s.target (some v)) :
    Gains s { s with literal := some v }
  | target (t : Address) (free : s.target = none) (room : Shares (some t) s.literal) :
    Gains s { s with target := some t }

namespace Gains
variable {s t : LineState}

theorem selectors (h : Gains s t) : t.selectors = s.selectors := by cases h <;> rfl

theorem needsAlu (h : Gains s t) : t.needsAlu = s.needsAlu := by cases h <;> rfl

theorem shares (h : Gains s t) (hs : Shares s.target s.literal) : Shares t.target t.literal := by
  cases h with
  | nothing => exact hs
  | alu => exact hs
  | literal v free room => exact room
  | target t free room => exact room

end Gains

/-- A resource that has a value is bound to the same value only, and nothing changes. -/
theorem bindAlu_gains (s : LineState) (op : AluOp) : Gains s (s.bindAlu op).2 := by
  unfold bindAlu
  split
  · rename_i hc
    cases ha : s.alu with
    | none => exact .alu op ha
    | some old =>
      have he : old = op := by simpa [ha] using hc
      subst he
      simpa [← ha] using Gains.nothing (s := s)
  · exact .nothing

theorem bindLiteral_gains (s : LineState) (v : Int) : Gains s (s.bindLiteral v).2 := by
  unfold bindLiteral
  split
  · rename_i hc
    rw [Bool.and_eq_true] at hc
    cases hl : s.literal with
    | none => exact .literal v hl (shares_some_right.2 hc.2)
    | some old =>
      have he : old = v := by simpa [hl] using hc.1
      subst he
      simpa [← hl] using Gains.nothing (s := s)
  · exact .nothing

theorem bindLabel_gains (s : LineState) (a : Address) : Gains s (s.bindLabel a).2 := by
  unfold bindLabel
  split
  · rename_i hc
    split
    · rename_i hl
      cases ht : s.target with
      | none => exact .target a ht (shares_some_left.2 hl)
      | some old =>
        have he : old = a := by simpa [ht] using hc
        subst he
        simpa [← ht] using Gains.nothing (s := s)
    · exact .nothing
  · exact .nothing

theorem choose_gains (s : LineState) (u : FuncUnit) (token : Text) (tried : Tried)
    (cs : List Candidate) : Gains s (s.choose u token tried cs).2 := by
  induction cs generalizing tried with
  | nil => exact .nothing
  | cons c cs ih =>
    cases c with
    | plain n => exact .nothing
    | faulty f => exact .nothing
    | noAlu => exact ih _
    | noLiteral => exact ih _
    | alu n op =>
      have h := s.bindAlu_gains op
      have hr := @bindAlu_refused s op
      rw [choose]
      split
      · rename_i t ht
        rwa [ht] at h
      · rename_i t ht
        rw [ht] at hr
        rw [show t = s from hr rfl]
        exact ih _
    | literal n v =>
      have h := s.bindLiteral_gains v
      rw [choose]
      split
      · rename_i t ht
        rwa [ht] at h
      · rename_i t ht
        rwa [ht] at h
    | label n a =>
      have h := s.bindLabel_gains a
      rw [choose]
      split
      · rename_i t ht
        rwa [ht] at h
      · rename_i t ht
        rwa [ht] at h
      · rename_i f t ht
        rwa [ht] at h

theorem read_gains (s : LineState) (labels : LabelTable) (token : Text) :
    Gains s (s.read labels token).2 := by
  unfold read
  split
  · exact .nothing
  · split
    · exact .nothing
    · exact s.choose_gains _ _ _ _

end MicroAsm.LineState
