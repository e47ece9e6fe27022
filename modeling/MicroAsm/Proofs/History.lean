import MicroAsm.Proofs.Packing
/-!
Histories of a line. Tokens are read, resources bound and units driven in any order and with any
success; what has been bound stays bound, and a literal and a target always fit the value field.
-/
namespace MicroAsm
open LineState

theorem Within.refl {α : Type} (x : Option α) : Within x x := fun _ h => h

theorem Within.trans {α : Type} {x y z : Option α} (h : Within x y) (h' : Within y z) :
    Within x z := fun a ha => h' a (h a ha)

section Below
variable {s t r : LineState}

theorem Below.refl (s : LineState) : Below s s where
  alu := .refl s.alu
  literal := .refl s.literal
  target := .refl s.target

theorem Below.trans (h : Below s t) (h' : Below t r) : Below s r where
  alu := h.alu.trans h'.alu
  literal := h.literal.trans h'.literal
  target := h.target.trans h'.target

theorem LineState.Gains.below (h : s.Gains t) : Below s t := by
  have hs := Below.refl s
  cases h with
  | nothing => exact hs
  | alu op free => exact ⟨free ▸ within_none, hs.literal, hs.target⟩
  | literal v free => exact ⟨hs.alu, free ▸ within_none, hs.target⟩
  | target a free => exact ⟨hs.alu, hs.literal, free ▸ within_none⟩

end Below

namespace LineState

/-- What can happen to the state of a line. Reading alone does not drive the unit of a token. -/
inductive Action where
  | read (labels : LabelTable) (token : Text)
  | bindAlu (op : AluOp)
  | bindLiteral (v : Int)
  | bindLabel (a : Address)
  | drive (u : FuncUnit) (selector : Nat)
  | setNeedsAlu (needsAlu : Bool)
  deriving DecidableEq, Repr

def act (s : LineState) : Action → LineState
  | .read labels token => (s.read labels token).2
  | .bindAlu op => (s.bindAlu op).2
  | .bindLiteral v => (s.bindLiteral v).2
  | .bindLabel a => (s.bindLabel a).2
  | .drive u selector => s.drive u selector
  | .setNeedsAlu needsAlu => { s with needsAlu }

def actAll (s : LineState) (actions : List Action) : LineState := actions.foldl act s

def Reachable (s : LineState) : Prop := ∃ actions, s = actAll {} actions

variable {s : LineState}

/-- One step: no resource changes, or one that was free is bound. -/
theorem exists_gains_act (s : LineState) (a : Action) :
    ∃ t, s.Gains t ∧ (s.act a).alu = t.alu ∧ (s.act a).literal = t.literal ∧
      (s.act a).target = t.target := by
  cases a with
  | read labels token => exact ⟨_, s.read_gains labels token, rfl, rfl, rfl⟩
  | bindAlu op => exact ⟨_, s.bindAlu_gains op, rfl, rfl, rfl⟩
  | bindLiteral v => exact ⟨_, s.bindLiteral_gains v, rfl, rfl, rfl⟩
  | bindLabel a => exact ⟨_, s.bindLabel_gains a, rfl, rfl, rfl⟩
  | drive u selector => exact ⟨s, .nothing, rfl, rfl, rfl⟩
  | setNeedsAlu needsAlu => exact ⟨s, .nothing, rfl, rfl, rfl⟩

theorem below_act (s : LineState) (a : Action) : Below s (s.act a) := by
  obtain ⟨t, ht, halu, hlit, htgt⟩ := s.exists_gains_act a
  have h := ht.below
  exact ⟨halu ▸ h.alu, hlit ▸ h.literal, htgt ▸ h.target⟩

theorem shares_act (h : Shares s.target s.literal) (a : Action) :
    Shares (s.act a).target (s.act a).literal := by
  obtain ⟨t, ht, -, hlit, htgt⟩ := s.exists_gains_act a
  rw [hlit, htgt]
  exact ht.shares h

/-- A whole run: what is bound stays bound. -/
theorem below_actAll (s : LineState) (actions : List Action) : Below s (s.actAll actions) := by
  induction actions generalizing s with
  | nil => exact .refl s
  | cons a actions ih => exact (s.below_act a).trans (ih (s.act a))

theorem shares_actAll (h : Shares s.target s.literal) (actions : List Action) :
    Shares (s.actAll actions).target (s.actAll actions).literal := by
  induction actions generalizing s with
  | nil => exact h
  | cons a actions ih => exact ih (shares_act h a)

theorem Reachable.shares (h : s.Reachable) : Shares s.target s.literal := by
  obtain ⟨actions, rfl⟩ := h
  exact shares_actAll (by simp [Shares]) actions

/-- A state that reads tokens is reached from the one before by reading, driving and setting. -/
theorem exists_actions_of_assign {labels : LabelTable} {token : Text} {t : LineState}
    (h : s.assign labels token = .ok t) : ∃ actions, t = s.actAll actions := by
  unfold assign at h
  split at h
  · rename_i r s' hr
    obtain rfl : s'.record r = t := Except.ok.inj h
    refine ⟨[.read labels token, .drive r.unit r.selector,
      .setNeedsAlu (s'.needsAlu || r.implicitAlu)], ?_⟩
    simp only [actAll, List.foldl_cons, List.foldl_nil, act, hr]
    rfl
  · contradiction

theorem exists_actions_of_foldlM {labels : LabelTable} {tokens : List Text} {t : LineState}
    (h : tokens.foldlM (assign labels) s = .ok t) : ∃ actions, t = s.actAll actions := by
  induction tokens generalizing s with
  | nil =>
    obtain rfl : s = t := Except.ok.inj h
    exact ⟨[], rfl⟩
  | cons token tokens ih =>
    rw [List.foldlM_cons, bind_eq_ok_iff] at h
    obtain ⟨r, hs, hr⟩ := h
    obtain ⟨first, rfl⟩ := exists_actions_of_assign hs
    obtain ⟨rest, rfl⟩ := ih hr
    exact ⟨first ++ rest, by simp only [actAll, List.foldl_append]⟩

/-- Every state that a line is packed from is reachable. -/
theorem reachable_of_readTokens {labels : LabelTable} {tokens : List Text}
    (h : readTokens labels tokens = .ok s) : s.Reachable := exists_actions_of_foldlM h

/-- Only a literal and a target that fit their halves are split. -/
theorem split_fits (h : Shares s.target s.literal) (hs : s.split = true) :
    (∃ t v, s.target = some t ∧ s.literal = some v ∧ fitsSplit t v = true) ∧
      -2048 ≤ s.value ∧ s.value ≤ 2047 := by
  unfold split at hs
  split at hs
  · rename_i t v ht hv
    have hne : v ≠ t.toNat := (bne_iff_ne.1 hs).symm
    have hfit := (shareField_iff.1 (h t ht v hv)).resolve_left hne
    have hvalue : s.value = v * 64 + t.toNat := by
      simp [value, ht, hv, Ne.symm hne, halves_eq (fitsSplit_iff.2 hfit)]
    refine ⟨⟨t, v, ht, hv, fitsSplit_iff.2 hfit⟩, ?_⟩
    rw [hvalue]
    omega
  · contradiction

end LineState

/-- In every history of a line, a refused token or binding leaves no trace; a token that is read
binds one free resource at most and nothing else; what is bound stays as it is; and a literal and
a target are equal or fit the halves of the value field, so that only such halves are split. -/
theorem reachable_keeps_bindings {s : LineState} (h : s.Reachable) :
    ((∀ labels token refusal, (s.read labels token).1 = .error refusal →
        (s.read labels token).2 = s) ∧
      (∀ op, (s.bindAlu op).1 = false → (s.bindAlu op).2 = s) ∧
      (∀ v, (s.bindLiteral v).1 = false → (s.bindLiteral v).2 = s) ∧
      ∀ a, (s.bindLabel a).1 ≠ .ok true → (s.bindLabel a).2 = s) ∧
    ((∀ labels token r, (s.read labels token).1 = .ok r → s.Gains (s.read labels token).2) ∧
      ∀ actions, Below s (s.actAll actions)) ∧
    (∀ t v, s.target = some t → s.literal = some v →
      v = t.toNat ∨ t.toNat < 64 ∧ -32 ≤ v ∧ v ≤ 31) ∧
    (s.split = true →
      (∃ t v, s.target = some t ∧ s.literal = some v ∧ fitsSplit t v = true) ∧
        -2048 ≤ s.value ∧ s.value ≤ 2047) := by
  refine ⟨⟨?_, ?_, ?_, ?_⟩, ⟨?_, s.below_actAll⟩, ?_, split_fits h.shares⟩
  · intro labels token refusal hr
    exact read_refused hr
  · intro op hr
    exact bindAlu_refused hr
  · intro v hr
    exact bindLiteral_refused hr
  · intro a hr
    exact bindLabel_refused hr
  · intro labels token r _
    exact s.read_gains labels token
  · intro t v ht hv
    exact shareField_iff.1 (h.shares t ht v hv)

/-- After `W=-3` and `JMP X` with the target 9, the literal and the target are halves. -/
theorem split_after_two_tokens :
    readTokens ⟨[("X".toList, 9)]⟩ ["W=-3".toList, "JMP X".toList] =
      .ok { selectors := { w := 3, j := 1 }, literal := some (-3), target := some 9 } ∧
    fitsSplit 9 (-3) = true := by
  have hr : readTokens ⟨[("X".toList, 9)]⟩ ["W=-3".toList, "JMP X".toList] =
      .ok { selectors := { w := 3, j := 1 }, literal := some (-3), target := some 9 } := by
    decide +kernel
  obtain ⟨⟨t, v, ht, hv, hfit⟩, -⟩ :=
    (reachable_keeps_bindings (reachable_of_readTokens hr)).2.2.2 rfl
  obtain rfl := Option.some.inj ht
  obtain rfl := Option.some.inj hv
  exact ⟨hr, hfit⟩

end MicroAsm
