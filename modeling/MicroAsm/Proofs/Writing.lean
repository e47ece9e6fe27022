import MicroAsm.Proofs.Coherent
import MicroAsm.Proofs.Digits
import MicroAsm.Proofs.SourceLine
/-!
Writing a line for a coherent state: there is a token for every unit that is not idle, and a line
of such tokens settles in the state.
-/
namespace MicroAsm
open LineState Text

section Tokens
variable {u : FuncUnit} {text : Text} {v : Int}

theorem mem_fourDigits {c : Char} (h : c ∈ fourDigits v) :
    c = '-' ∨ ∃ d < 10, c = Nat.digitChar d := by
  unfold fourDigits signed at h
  split at h
  · rcases List.mem_cons.1 h with h | h
    · exact Or.inl h
    · exact Or.inr (mem_fixed (show 0 < 10 by decide) h)
  · exact Or.inr (mem_fixed (show 0 < 10 by decide) h)

theorem four_le_length_fourDigits (v : Int) : 4 ≤ (fourDigits v).length := by
  unfold fourDigits signed
  split
  · simp
  · simp

theorem quiet_fourDigits {c : Char} (h : c ∈ fourDigits v) :
    isQuiet c = true ∧ isBlank c = false ∧ c ≠ '=' := by
  have hdigit : ∀ d < 10, isQuiet (Nat.digitChar d) = true ∧ isBlank (Nat.digitChar d) = false ∧
      Nat.digitChar d ≠ '=' := by decide
  rcases mem_fourDigits h with rfl | ⟨d, hd, rfl⟩
  · decide
  · exact hdigit d hd

theorem trimLeft_fourDigits (v : Int) : trimLeft (fourDigits v) = fourDigits v := by
  apply trimLeft_of_head
  cases hs : fourDigits v with
  | nil =>
    have hlen := four_le_length_fourDigits v
    simp [hs] at hlen
  | cons c s =>
    have hc := (quiet_fourDigits (hs ▸ List.mem_cons_self : c ∈ fourDigits v)).2.1
    simp [hc]

theorem isBare_constant (h : (u, text) ∈ constantPrefixes) (v : Int) :
    isBare (text ++ fourDigits v) = true := by
  have hcat : ∀ x ∈ constantPrefixes, x.2.all isQuiet = true ∧ x.2.length = 2 ∧
      x.2.head?.any (!isBlank ·) = true := by decide
  obtain ⟨hquiet, hlen, hhead⟩ := hcat _ h
  simp only at hquiet hlen hhead
  have hne : fourDigits v ≠ [] := by
    intro hn
    have hle := four_le_length_fourDigits v
    simp [hn] at hle
  rw [isBare_iff]
  refine ⟨?_, ?_, ?_, ?_⟩
  · intro c hc
    rcases List.mem_append.1 hc with hc | hc
    · exact List.all_eq_true.1 hquiet c hc
    · exact (quiet_fourDigits hc).1
  · cases text with
    | nil => simp at hlen
    | cons c text => exact hhead
  · rw [List.getLast?_append_of_ne_nil _ hne, List.getLast?_eq_some_getLast hne]
    simpa using (quiet_fourDigits (List.getLast_mem hne)).2.1
  · rw [List.getElem?_append_right (by omega)]
    intro hc
    exact (quiet_fourDigits (List.mem_of_getElem? hc)).2.2 rfl

theorem not_isZero_fourDigits (h : (u, text) ∈ constantPrefixes) (v : Int) :
    ¬IsZero (text ++ fourDigits v) u := by
  intro hex
  obtain ⟨text', rest, hp, heq, hr⟩ := hex
  obtain rfl := constantPrefix_unique h hp
  rw [← List.append_cancel_left heq, trimLeft_fourDigits] at hr
  have hlen := four_le_length_fourDigits v
  simp [hr] at hlen

end Tokens

section Coherent
variable {s : LineState} {u : FuncUnit}

/-- A state that is coherent can be told unit by unit. -/
theorem LineState.Coherent.exists_reading (h : s.Coherent) (hu : s.selectors.get u ≠ 0) :
    ∃ token, ReadsAs s.label token u (s.senseAt u) ∧ isBare token = true ∧
      ((s.senseAt u).literal? ≠ none → ¬IsZero token u) := by
  have hform := exists_form (h.selector u) hu
  by_cases ha : u.usesAlu (s.selectors.get u) = true
  · rw [if_pos ha] at hform
    obtain ⟨⟨u', n, text⟩, hx, rfl, hn⟩ := hform
    have hop : ∀ x ∈ operationPrefixes, ∀ op ∈ AluOp.all, isBare (x.2.2 ++ x.1.operand op) = true ∧
        trimLeft (x.1.operand op) = x.1.operand op := by decide +kernel
    obtain ⟨hbare, htrim⟩ := hop _ hx _ (s.alu.getD .zero).mem_all
    rw [senseAt_operation ha, ← hn]
    exact ⟨_, .operation hx htrim, hbare, fun hl => absurd rfl hl⟩
  rw [if_neg ha] at hform
  by_cases hl : u.usesLiteral (s.selectors.get u) = true
  · rw [if_pos hl] at hform
    obtain ⟨-, ⟨u', text⟩, hx, rfl⟩ := hform
    have hrange := h.range _ (some_getD_of_any 0 h.literal hl).symm
    rw [senseAt_constant ha hl]
    refine ⟨text ++ fourDigits (s.literal.getD 0), .constant hx ?_, isBare_constant hx _,
      fun _ => not_isZero_fourDigits hx _⟩
    rw [trimLeft_fourDigits, readLiteral_fourDigits hrange]
  rw [if_neg hl] at hform
  by_cases ht : u.usesTarget (s.selectors.get u) = true
  · rw [if_pos ht] at hform
    obtain ⟨⟨u', n, text⟩, hx, rfl, hn⟩ := hform
    have hbranch : ∀ x ∈ branchPrefixes, isBare (x.2.2 ++ "X".toList) = true := by decide
    rw [senseAt_branch ha hl ht, ← hn]
    exact ⟨_, .branch hx rfl, hbranch _ hx, fun hl => absurd rfl hl⟩
  · rw [if_neg ht] at hform
    obtain ⟨⟨u', n, text⟩, hx, rfl, hn⟩ := hform
    have hplain : ∀ x ∈ plainTokens, isBare x.2.2 = true := by decide
    rw [senseAt_plain ha hl ht, ← hn]
    exact ⟨_, .plain hx, hplain _ hx, fun hl => absurd rfl hl⟩

theorem LineState.Coherent.exists_token (h : s.Coherent) (hu : s.selectors.get u ≠ 0) :
    ∃ token c, Means s.label token c ∧ c.unit = u ∧ c.senseIn s = s.senseAt u ∧
      isBare token = true := by
  obtain ⟨token, hr, hbare, hz⟩ := h.exists_reading hu
  have ha : ∀ op, (s.senseAt u).alu? = some op → s.alu = some op := by
    intro op ho
    exact (eq_some_iff_senseAt FuncUnit.usesAlu_zero h.alu s.alu?_senseAt).2 ⟨u, hu, ho⟩
  obtain ⟨c, hm, hc, hs⟩ := exists_means_of_readsAs s hr ha hz
  exact ⟨token, c, hm, hc, hs, hbare⟩

theorem LineState.Coherent.exists_tokens (h : s.Coherent) (units : List FuncUnit)
    (hu : ∀ u ∈ units, s.selectors.get u ≠ 0) :
    ∃ tokens cs, List.Forall₂ (Means s.label) tokens cs ∧ cs.map Clause.unit = units ∧
      (∀ c ∈ cs, c.senseIn s = s.senseAt c.unit) ∧ ∀ token ∈ tokens, isBare token = true := by
  induction units with
  | nil => exact ⟨[], [], .nil, rfl, by simp, by simp⟩
  | cons u units ih =>
    obtain ⟨tokens, cs, hm, hunits, hsense, hbare⟩ :=
      ih fun v hv => hu v (List.mem_cons_of_mem u hv)
    obtain ⟨token, c, hc, rfl, hs, hb⟩ := h.exists_token (hu u List.mem_cons_self)
    refine ⟨token :: tokens, c :: cs, .cons hc hm, ?_, ?_, ?_⟩
    · rw [List.map_cons, hunits]
    · exact List.forall_mem_cons.2 ⟨hs, hsense⟩
    · exact List.forall_mem_cons.2 ⟨hb, hbare⟩

/-- A coherent state in which some unit is busy has a line. -/
theorem LineState.Coherent.exists_line (h : s.Coherent) (hne : ∃ u, s.selectors.get u ≠ 0) :
    ∃ tokens, (∀ token ∈ tokens, isBare token = true) ∧ tokens ≠ [] ∧
      settle s.label tokens = .ok s := by
  obtain ⟨tokens, cs, hm, hunits, hsense, hbare⟩ :=
    h.exists_tokens s.busy fun u hu => mem_busy.1 hu
  have htokens : tokens ≠ [] := by
    intro hnil
    subst hnil
    obtain rfl := List.forall₂_nil_left_iff.1 hm
    obtain ⟨u, hu⟩ := hne
    have hbusy := mem_busy.2 hu
    rw [← hunits] at hbusy
    simp at hbusy
  exact ⟨tokens, hbare, htokens, settle_eq_ok_of_settled hm (h.settled hunits hsense) htokens⟩

end Coherent
end MicroAsm
