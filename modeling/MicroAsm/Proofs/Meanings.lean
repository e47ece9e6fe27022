import MicroAsm.Proofs.Binding
import MicroAsm.Proofs.Reading
/-!
The meaning of a token, as far as it is determined: a token has one meaning at most, it has one if
it can be read on its own, and only a zero of B or W has two readings.
-/
namespace MicroAsm
open Text

theorem Sense.eq_of_join {u v : FuncUnit} {e f : Sense} (he : e.selector ≠ 0)
    (h : LineState.join {} u e = LineState.join {} v f) : u = v ∧ e = f := by
  have hsel : (({} : Selectors).set u e.selector).get u =
      (({} : Selectors).set v f.selector).get u := congrArg (fun s => s.selectors.get u) h
  have halu : e.alu?.or none = f.alu?.or none := congrArg LineState.alu h
  have hlit : e.literal?.or none = f.literal?.or none := congrArg LineState.literal h
  have htgt : e.target?.or none = f.target?.or none := congrArg LineState.target h
  have himp : (false || e.implicitAlu) = (false || f.implicitAlu) := congrArg LineState.needsAlu h
  have hidle : ({} : Selectors).get u = 0 := by cases u <;> rfl
  rw [Selectors.get_set, Selectors.get_set, if_pos rfl, hidle] at hsel
  by_cases huv : u = v
  · rw [if_pos huv] at hsel
    refine ⟨huv, ?_⟩
    cases e <;> cases f <;>
      simp_all [Sense.selector, Sense.alu?, Sense.literal?, Sense.target?, Sense.implicitAlu]
  · rw [if_neg huv] at hsel
    exact absurd hsel he

theorem LineState.accept_empty (c : Clause) :
    LineState.accept {} c = .ok (LineState.join {} c.unit (c.senseIn {})) := by
  rw [accept_eq_ok_iff]
  refine ⟨?_, compatible_none_right, ⟨compatible_none_right, compatible_none_right, ?_, ?_⟩, rfl⟩
  · cases c.unit <;> rfl
  · simp [Shares]
  · simp [Shares]

/-- Zero gives way to another operation, and the operation zero alone does not. -/
theorem LineState.accept_zero_ne (u : FuncUnit) :
    LineState.accept { alu := some .add } ⟨u, .definite (.operation 2 .zero)⟩ ≠
      LineState.accept { alu := some .add } ⟨u, .zero⟩ := by
  have hfree : LineState.taken { alu := some .add } u = false := by cases u <;> rfl
  have hz : LineState.accept { alu := some .add } ⟨u, .zero⟩ =
      .ok (LineState.join { alu := some .add } u (.constant 0)) :=
    accept_eq_ok_iff.2 ⟨hfree, compatible_none_left,
      accepts_constant.2 ⟨compatible_none_right, shares_some_right.2 rfl⟩, rfl⟩
  intro h
  rw [hz, accept_eq_ok_iff] at h
  have hacc := accepts_operation.1 h.2.2.1
  rw [compatible_some_left] at hacc
  exact absurd (hacc .add rfl) (by decide)

/-- Clauses that are accepted alike are the same. -/
theorem Clause.eq_of_accept {c d : Clause} (hc : c.Drives)
    (h : ∀ s : LineState, s.accept c = s.accept d) : c = d := by
  have h0 := h {}
  rw [LineState.accept_empty, LineState.accept_empty, Except.ok.injEq] at h0
  obtain ⟨hu, he⟩ := Sense.eq_of_join (hc none) h0
  obtain ⟨u, m⟩ := c
  obtain ⟨v, k⟩ := d
  obtain rfl : u = v := hu
  cases m with
  | definite e =>
    cases k with
    | definite f =>
      obtain rfl : e = f := he
      rfl
    | zero =>
      obtain rfl : e = .operation 2 .zero := he
      exact absurd (h _) (LineState.accept_zero_ne u)
  | zero =>
    cases k with
    | definite f =>
      obtain rfl : .operation 2 .zero = f := he
      exact absurd (h _).symm (LineState.accept_zero_ne u)
    | zero => rfl

theorem Means.unique {labels : LabelTable} {token : Text} {c d : Clause}
    (hc : Means labels token c) (hd : Means labels token d) : c = d :=
  Clause.eq_of_accept hc.drives fun s => by
    rw [← LineState.assign_of_means hc, LineState.assign_of_means hd]

theorem Means.read_empty {labels : LabelTable} {token : Text} {c : Clause}
    (h : Means labels token c) :
    ∃ r, (LineState.read {} labels token).1 = .ok r ∧ r.unit = c.unit := by
  have ha := LineState.assign_of_means h {}
  have hsel := (LineState.read_gains {} labels token).selectors
  rw [LineState.accept_empty] at ha
  unfold LineState.assign at ha
  split at ha
  · rename_i r s hr
    rw [hr] at hsel ⊢
    refine ⟨r, rfl, ?_⟩
    have hget := congrArg (fun t => t.selectors.get c.unit) (Except.ok.inj ha)
    change (s.selectors.set r.unit r.selector).get c.unit =
      (({} : Selectors).set c.unit (c.senseIn {}).selector).get c.unit at hget
    have hidle : s.selectors.get c.unit = 0 := by
      rw [show s.selectors = {} from hsel]
      cases c.unit <;> rfl
    rw [Selectors.get_set, Selectors.get_set, if_pos rfl, hidle] at hget
    by_contra hne
    rw [if_neg (Ne.symm hne)] at hget
    exact h.drives none hget.symm
  · contradiction

/-- A token that is read on its own has a meaning. -/
theorem exists_means_of_read {labels : LabelTable} {token : Text} {r : Reading}
    (h : (LineState.read {} labels token).1 = .ok r) : ∃ c, Means labels token c := by
  by_contra hn
  obtain ⟨f, hf⟩ := LineState.assign_of_meaningless (not_exists.1 hn) {}
  unfold LineState.assign at hf
  split at hf
  · contradiction
  · rename_i hr
    rw [hr] at h
    contradiction

/-- However a token is read, the grammar allows it. -/
theorem Means.readsAs {labels : LabelTable} {token : Text} {c : Clause}
    (h : Means labels token c) (s : LineState) : ReadsAs labels token c.unit (c.senseIn s) := by
  cases h with
  | definite h => exact h
  | zero h =>
    obtain ⟨text, rest, hp, rfl, hr⟩ := h
    unfold Clause.senseIn Meaning.sense
    simp only
    split
    · exact .operation (operationPrefix_of_constantPrefix hp)
        (hr.trans (operand_of_constantPrefix hp .zero).symm)
    · refine .constant hp ?_
      rw [hr]
      decide

theorem constantPrefix_unique {u : FuncUnit} {text text' : Text} (h : (u, text) ∈ constantPrefixes)
    (h' : (u, text') ∈ constantPrefixes) : text = text' := by
  have hcat : ∀ x ∈ constantPrefixes, ∀ y ∈ constantPrefixes, x.1 = y.1 → x.2 = y.2 := by decide
  exact hcat _ h _ h' rfl

theorem operationPrefix_of_constant {u : FuncUnit} {n : Nat} {text text' : Text}
    (h : (u, n, text) ∈ operationPrefixes) (h' : (u, text') ∈ constantPrefixes) :
    n = 2 ∧ text = text' := by
  have hcat : ∀ x ∈ operationPrefixes, ∀ y ∈ constantPrefixes, x.1 = y.1 →
      x.2.1 = 2 ∧ x.2.2 = y.2 := by decide
  exact hcat _ h _ h' rfl

/-- A zero of B or W has no readings besides its two. -/
theorem IsZero.sense_eq {labels : LabelTable} {token : Text} {u : FuncUnit} {e : Sense}
    (hz : IsZero token u) (h : ReadsAs labels token u e) :
    e = .operation 2 .zero ∨ e = .constant 0 := by
  cases h with
  | branch h ht => exact absurd hz (not_isZero_of_branch (.branch h ht))
  | plain h =>
    have hcat : ∀ x ∈ plainTokens, ∀ y ∈ constantPrefixes, y.2 <+: x.2.2 →
        trimLeft (x.2.2.drop y.2.length) ≠ ['0'] := by decide
    obtain ⟨text, rest, hp, rfl, hr⟩ := hz
    have hne := hcat _ h _ hp (List.prefix_append text rest)
    rw [List.drop_left] at hne
    exact absurd hr hne
  | test h =>
    obtain ⟨text, rest, hp, -, -⟩ := hz
    exact absurd rfl (ne_f_of_constantPrefix hp)
  | operation h ho =>
    obtain ⟨text, rest, hp, heq, hr⟩ := hz
    obtain ⟨rfl, rfl⟩ := operationPrefix_of_constant h hp
    rw [List.append_cancel_left heq, hr, operand_of_constantPrefix hp] at ho
    exact Or.inl (congrArg _ (AluOp.spelling_injective ho.symm))
  | constant h hv =>
    obtain ⟨text, rest, hp, heq, hr⟩ := hz
    obtain rfl := constantPrefix_unique h hp
    have hzero : readLiteral ['0'] = .ok (some 0) := by decide
    rw [List.append_cancel_left heq, hr, hzero] at hv
    have h0 := Option.some.inj (Except.ok.inj hv)
    exact Or.inr (congrArg _ h0.symm)

/-- A reading comes from a meaning, which a state with the operation of the reading agrees with. -/
theorem exists_means_of_readsAs {labels : LabelTable} {token : Text} {u : FuncUnit} {e : Sense}
    (s : LineState) (h : ReadsAs labels token u e) (ha : ∀ op, e.alu? = some op → s.alu = some op)
    (hl : e.literal? ≠ none → ¬IsZero token u) :
    ∃ c, Means labels token c ∧ c.unit = u ∧ c.senseIn s = e := by
  by_cases hz : IsZero token u
  · refine ⟨_, .zero hz, rfl, ?_⟩
    rcases hz.sense_eq h with rfl | rfl
    · have hall : s.alu.all (· == .zero) = true := by
        rw [ha _ rfl]
        rfl
      exact Meaning.sense_zero_of_all hall
    · exact absurd hz (hl (Option.some_ne_none 0))
  · exact ⟨_, .definite h hz, rfl, rfl⟩

end MicroAsm
