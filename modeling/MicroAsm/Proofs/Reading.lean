import MicroAsm.Proofs.Candidates
/-!
The grammar of tokens agrees with the reading of candidates: a token that the grammar gives a
meaning is read as that meaning in every state, and any other token is a fault in every state.
-/
namespace MicroAsm
open Text

namespace LineState
variable {s : LineState} {labels : LabelTable} {token : Text} {u : FuncUnit} {tried : Tried}

theorem accepts_operation {n : Nat} {op : AluOp} :
    s.Accepts (.operation n op) ↔ Compatible (some op) s.alu :=
  ⟨fun h => h.alu, fun h => ⟨h, by simp [Sense.literal?], by simp [Shares, Sense.literal?],
    by simp [Shares, Sense.target?]⟩⟩

theorem accepts_constant {value : Int} :
    s.Accepts (.constant value) ↔
      Compatible (some value) s.literal ∧ Shares s.target (some value) :=
  ⟨fun h => ⟨h.literal, h.newLiteral⟩, fun h => ⟨by simp [Sense.alu?], h.1, h.2,
    by simp [Shares, Sense.target?]⟩⟩

theorem accepts_branch {n : Nat} {target : Address} :
    s.Accepts (.branch n target) ↔ Shares (some target) s.literal :=
  ⟨fun h => h.newTarget, fun h => ⟨by simp [Sense.alu?], by simp [Sense.literal?],
    by simp [Shares, Sense.literal?], h⟩⟩

theorem conclude_choose_operation (n : Nat) (op : AluOp) (cs : List Candidate) :
    conclude (s.choose u token tried (.alu n op :: cs)) =
      if s.Accepts (.operation n op) then .ok (s.join u (.operation n op))
      else conclude (s.choose u token { tried with aluConflict := true } cs) := by
  have h : s.alu.all (· == op) = true ↔ s.Accepts (.operation n op) := by
    rw [accepts_operation, compatible_some_left_iff_all]
  simp only [choose, bindAlu, h]
  split_ifs
  · rfl
  · rfl

theorem conclude_choose_constant (value : Int) (cs : List Candidate) :
    conclude (s.choose u token tried (.literal 3 value :: cs)) =
      if s.Accepts (.constant value) then .ok (s.join u (.constant value))
      else .error .inconsistent := by
  have h : (s.literal.all (· == value) && s.target.all (shareField · value)) = true ↔
      s.Accepts (.constant value) := by
    rw [accepts_constant, compatible_some_left_iff_all, shares_some_right, Bool.and_eq_true]
  simp only [choose, bindLiteral, h]
  split_ifs
  · rfl
  · rfl

theorem conclude_choose_branch (n : Nat) (target : Address) (cs : List Candidate) :
    conclude (s.choose u token tried (.label n target :: cs)) =
      if ¬Compatible (some target) s.target then .error (.hard .conflictingTargets)
      else if s.Accepts (.branch n target) then .ok (s.join u (.branch n target))
      else .error .inconsistent := by
  have ht : s.target.all (· == target) = true ↔ Compatible (some target) s.target :=
    compatible_some_left_iff_all.symm
  have h : s.literal.all (shareField target) = true ↔ s.Accepts (.branch n target) := by
    rw [accepts_branch, shares_some_left]
  simp only [choose, bindLabel, ht, h]
  split_ifs
  · rfl
  · rfl
  · rfl

theorem assign_eq_accept {c : Clause} {d : Candidate} (hd : d ∈ candidates labels token c.unit)
    (h : conclude (s.choose c.unit token {} (candidates labels token c.unit)) =
      if ¬Compatible (c.senseIn s).target? s.target then .error (.hard .conflictingTargets)
      else if s.Accepts (c.senseIn s) then .ok (s.join c.unit (c.senseIn s))
      else .error .inconsistent) :
    s.assign labels token = s.accept c := by
  rw [assign_eq_choose hd, h]
  rfl

theorem assign_zero (h : IsZero token u) : s.assign labels token = s.accept ⟨u, .zero⟩ := by
  obtain ⟨text, rest, hp, rfl, hr⟩ := h
  have hv : readLiteral (trimLeft rest) = .ok (some 0) := by
    rw [hr]
    decide
  have hz : aluCandidate u 2 (trimLeft rest) = .alu 2 .zero := by
    have hzero : u.operand .zero = ['0'] := operand_of_constantPrefix hp .zero
    rw [hr, ← hzero, aluCandidate_operand]
  have hcs := candidates_constant labels hp hv
  rw [hz] at hcs
  apply assign_eq_accept (d := .literal 3 0)
  · rw [hcs]
    simp
  · rw [hcs, conclude_choose_operation, conclude_choose_constant]
    unfold Clause.senseIn
    cases ha : s.alu.all (· == .zero) with
    | true =>
      have hacc : s.Accepts (.operation 2 .zero) :=
        accepts_operation.2 (compatible_some_left_iff_all.2 ha)
      rw [Meaning.sense_zero_of_all ha]
      simp [hacc, Sense.target?]
    | false =>
      have hacc : ¬s.Accepts (.operation 2 .zero) := by
        rw [accepts_operation, compatible_some_left_iff_all, ha]
        simp
      rw [Meaning.sense_zero_of_not_all ha]
      simp [hacc, Sense.target?]

theorem assign_plain {form : Form} (hf : form ∈ u.forms) (hk : form.operand = .none) :
    s.assign labels form.text =
      if s.taken u then .error (.hard (.unitUsedTwice u))
      else .ok (s.record ⟨u, form.selector, u == .f⟩) := by
  have hc : .plain form.selector ∈ candidates labels form.text u :=
    mem_candidates.2 ⟨form, hf, by simp [Form.read, hk]⟩
  have h : conclude (s.choose u form.text {} (candidates labels form.text u)) =
      .ok (s.record ⟨u, form.selector, u == .f⟩) := by
    clear hc
    cases u <;> simp only [FuncUnit.forms, List.mem_cons, List.not_mem_nil, or_false] at hf <;>
      rcases hf with rfl | rfl | rfl | rfl | rfl | rfl <;> first | rfl | contradiction
  rw [assign_eq_choose hc, h]

theorem join_resourceless {e : Sense} (ha : e.alu? = none) (hl : e.literal? = none)
    (ht : e.target? = none) : s.join u e = s.record ⟨u, e.selector, e.implicitAlu⟩ := by
  simp [join, record, drive, ha, hl, ht]

theorem accepts_resourceless {e : Sense} (ha : e.alu? = none) (hl : e.literal? = none)
    (ht : e.target? = none) : s.Accepts e where
  alu := by simp [ha]
  literal := by simp [hl]
  newLiteral := by simp [Shares, hl]
  newTarget := by simp [Shares, ht]

theorem assign_resourceless {e : Sense} (hf : ⟨e.selector, token, .none⟩ ∈ u.forms)
    (hi : (u == .f) = e.implicitAlu) (ha : e.alu? = none) (hl : e.literal? = none)
    (ht : e.target? = none) : s.assign labels token = s.accept ⟨u, .definite e⟩ := by
  rw [assign_plain hf rfl, hi, ← join_resourceless ha hl ht]
  simp only [accept, Clause.senseIn, Meaning.sense_definite, ht, compatible_none_left,
    accepts_resourceless ha hl ht, not_true_eq_false, if_false, if_true]

theorem assign_operation {n : Nat} {text rest : Text} {op : AluOp}
    (h : (u, n, text) ∈ operationPrefixes) (ho : trimLeft rest = u.operand op)
    (hz : ¬IsZero (text ++ rest) u) :
    s.assign labels (text ++ rest) = s.accept ⟨u, .definite (.operation n op)⟩ := by
  have hcs := candidates_operation labels h ho
  apply assign_eq_accept (d := .alu n op)
  · rw [hcs]
    exact List.mem_cons_self
  · rw [hcs, conclude_choose_operation]
    simp only [Clause.senseIn, Meaning.sense_definite, Sense.target?, compatible_none_left,
      not_true_eq_false, if_false]
    congr 1
    split
    · rename_i hp
      rw [literalCandidate_operation hp ho hz]
      rfl
    · rfl

theorem assign_constant {text rest : Text} {value : Int} (h : (u, text) ∈ constantPrefixes)
    (hv : readLiteral (trimLeft rest) = .ok (some value)) (hz : ¬IsZero (text ++ rest) u) :
    s.assign labels (text ++ rest) = s.accept ⟨u, .definite (.constant value)⟩ := by
  have hcs := candidates_constant labels h hv
  rw [aluCandidate_constant h hv hz] at hcs
  apply assign_eq_accept (d := .literal 3 value)
  · rw [hcs]
    simp
  · rw [hcs]
    show conclude (s.choose u (text ++ rest) { noAlu := true } [.literal 3 value]) = _
    rw [conclude_choose_constant]
    simp only [Clause.senseIn, Meaning.sense_definite, Sense.target?, compatible_none_left,
      not_true_eq_false, if_false]
    rfl

theorem assign_definite {e : Sense} (h : ReadsAs labels token u e) (hz : ¬IsZero token u) :
    s.assign labels token = s.accept ⟨u, .definite e⟩ := by
  cases h with
  | plain h =>
    obtain ⟨hform, hne⟩ := form_of_plainToken h
    exact assign_resourceless hform hne rfl rfl rfl
  | test h => exact assign_resourceless (form_of_testToken h) rfl rfl rfl rfl
  | operation h ho => exact assign_operation h ho hz
  | constant h hv => exact assign_constant h hv hz
  | branch h ht =>
    have hcs := candidates_branch h ht
    apply assign_eq_accept (d := .label _ _)
    · rw [hcs]
      exact List.mem_singleton_self _
    · rw [hcs, conclude_choose_branch]
      rfl

theorem assign_of_means {c : Clause} (h : Means labels token c) (s : LineState) :
    s.assign labels token = s.accept c := by
  cases h with
  | zero h => exact assign_zero h
  | definite h hz => exact assign_definite h hz

theorem exists_operand {n : Nat} {operand : Text} (h : aluCandidate u n operand ≠ .noAlu) :
    ∃ op, operand = u.operand op := by
  unfold aluCandidate at h
  split at h
  · rename_i op ho
    refine ⟨op, ?_⟩
    unfold FuncUnit.operand
    split_ifs at ho ⊢ with hu
    · unfold AluOp.ofTestOperand? at ho
      split_ifs at ho with hl
      rw [AluOp.ofSpelling?_eq_some_iff.1 ho]
      exact (List.dropLast_append_getLast? _ hl).symm
    · rw [AluOp.ofSpelling?_eq_some_iff.1 ho, List.append_nil]
  · contradiction

/-- Every form of the catalog is in the list of the grammar for its kind of operand. -/
theorem form_listed (u : FuncUnit) : ∀ form ∈ u.forms,
    (form.operand = .none → (u, form.selector, form.text) ∈ plainTokens ∨
      u = .f ∧ (form.selector, form.text) ∈ testTokens) ∧
    (form.operand = .alu → (u, form.selector, form.text) ∈ operationPrefixes) ∧
    (form.operand = .literal → (u, form.text) ∈ constantPrefixes) ∧
    (form.operand = .label → (u, form.selector, form.text) ∈ branchPrefixes) := by
  intro form hf
  refine ⟨?_, ?_, ?_, ?_⟩
  all_goals
    revert form
    cases u <;> decide

/-- A candidate that can be bound comes from a reading. -/
theorem exists_reads_of_candidate {c : Candidate} (hc : c ∈ candidates labels token u)
    (hb : c ≠ .noAlu ∧ c ≠ .noLiteral ∧ ∀ fault, c ≠ .faulty fault) :
    ∃ e, ReadsAs labels token u e := by
  obtain ⟨form, hf, hr⟩ := mem_candidates.1 hc
  obtain ⟨hplain, halu, hlit, hlab⟩ := form_listed u form hf
  unfold Form.read at hr
  cases hk : form.operand with
  | none =>
    simp only [hk] at hr
    split_ifs at hr with ht
    rw [ht]
    rcases hplain hk with h | ⟨rfl, h⟩
    · exact ⟨_, .plain h⟩
    · exact ⟨_, .test h⟩
  | alu =>
    simp only [hk] at hr
    obtain ⟨rest, hrest, rfl⟩ := Option.map_eq_some_iff.1 hr
    obtain ⟨op, ho⟩ := exists_operand hb.1
    rw [isPrefixOf?_eq_some_iff.1 hrest]
    exact ⟨_, .operation (halu hk) ho⟩
  | literal =>
    simp only [hk] at hr
    obtain ⟨rest, hrest, rfl⟩ := Option.map_eq_some_iff.1 hr
    unfold literalCandidate at hb
    rw [isPrefixOf?_eq_some_iff.1 hrest]
    split at hb
    · rename_i value hv
      exact ⟨_, .constant (hlit hk) hv⟩
    · exact absurd rfl hb.2.1
    · exact absurd rfl (hb.2.2 _)
  | label =>
    simp only [hk] at hr
    obtain ⟨rest, hrest, rfl⟩ := Option.map_eq_some_iff.1 hr
    unfold labelCandidate at hb
    rw [isPrefixOf?_eq_some_iff.1 hrest]
    split at hb
    · rename_i target ht
      exact ⟨_, .branch (hlab hk) ht⟩
    · exact absurd rfl (hb.2.2 _)

theorem choose_of_no_candidate {cs : List Candidate}
    (hcs : ∀ c ∈ cs, c = .noAlu ∨ c = .noLiteral ∨ ∃ fault, c = .faulty fault)
    (ht : tried.aluConflict = false) :
    ∃ fault, conclude (s.choose u token tried cs) = .error (.hard fault) := by
  induction cs generalizing tried with
  | nil =>
    simp only [choose, Tried.refusal, ht]
    exact ⟨_, rfl⟩
  | cons c cs ih =>
    have hcs' := fun d hd => hcs d (List.mem_cons_of_mem c hd)
    rcases hcs c List.mem_cons_self with rfl | rfl | ⟨fault, rfl⟩
    · show ∃ fault, conclude (s.choose u token { tried with noAlu := true } cs) = _
      exact ih hcs' ht
    · show ∃ fault, conclude (s.choose u token { tried with noLiteral := true } cs) = _
      exact ih hcs' ht
    · exact ⟨fault, rfl⟩

/-- Candidates that cannot be bound show the same fault in every state. -/
theorem choose_congr_of_no_candidate {t : LineState} {cs : List Candidate}
    (hcs : ∀ c ∈ cs, c = .noAlu ∨ c = .noLiteral ∨ ∃ fault, c = .faulty fault) :
    (s.choose u token tried cs).1 = (t.choose u token tried cs).1 := by
  induction cs generalizing tried with
  | nil => rfl
  | cons c cs ih =>
    have hcs' := fun d hd => hcs d (List.mem_cons_of_mem c hd)
    rcases hcs c List.mem_cons_self with rfl | rfl | ⟨fault, rfl⟩
    · exact ih hcs'
    · exact ih hcs'
    · rfl

theorem candidate_of_meaningless (h : ∀ c, ¬Means labels token c) (u : FuncUnit) :
    ∀ c ∈ candidates labels token u, c = .noAlu ∨ c = .noLiteral ∨ ∃ fault, c = .faulty fault := by
  intro c hc
  by_contra hb
  rw [not_or, not_or, not_exists] at hb
  obtain ⟨e, he⟩ := exists_reads_of_candidate hc hb
  by_cases hz : IsZero token u
  · exact h _ (.zero hz)
  · exact h _ (.definite he hz)

/-- A token that the grammar does not know is a fault in every state. -/
theorem assign_of_meaningless (h : ∀ c, ¬Means labels token c) (s : LineState) :
    ∃ fault, s.assign labels token = .error (.hard fault) := by
  by_cases hu : ∃ u c, c ∈ candidates labels token u
  · obtain ⟨u, c, hc⟩ := hu
    rw [assign_eq_choose hc]
    split_ifs
    · exact ⟨_, rfl⟩
    · exact choose_of_no_candidate (candidate_of_meaningless h u) rfl
  · have hfind : (FuncUnit.all.find? fun v => !(candidates labels token v).isEmpty) = none := by
      rw [List.find?_eq_none]
      intro v _ hv
      obtain ⟨c, hc⟩ := List.exists_mem_of_ne_nil (candidates labels token v) (by simpa using hv)
      exact hu ⟨v, c, hc⟩
    refine ⟨.unrecognized token .opcode, ?_⟩
    simp only [assign, read, hfind]

end LineState

end MicroAsm
