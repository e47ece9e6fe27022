import MicroAsm.Proofs.Grammar
/-!
The candidates of a token. At most one unit has any, and a token that the grammar knows has exactly
the candidates that its readings ask for.
-/
namespace MicroAsm
open Text

theorem forms_separated {u v : FuncUnit} {p q : Form} {token : Text} (hp : p ∈ u.forms)
    (hq : q ∈ v.forms) (hpt : p.text <+: token) (hqt : q.text <+: token) : u = v := by
  have h : ∀ u v : FuncUnit, ∀ p ∈ u.forms, ∀ q ∈ v.forms, p.text <+: q.text → u = v := by
    intro u v
    cases u <;> cases v <;> decide
  rcases List.prefix_or_prefix_of_prefix hpt hqt with hpq | hqp
  · exact h u v p hp q hq hpq
  · exact (h v u q hq p hp hqp).symm

theorem Form.isPrefixOf_read {form : Form} {labels : LabelTable} {u : FuncUnit} {token : Text}
    {c : Candidate} (h : form.read labels u token = some c) : form.text <+: token := by
  have hmap {f : Text → Candidate} (h : (form.text.isPrefixOf? token).map f = some c) :
      form.text <+: token := by
    obtain ⟨rest, hr, -⟩ := Option.map_eq_some_iff.1 h
    exact ⟨rest, (isPrefixOf?_eq_some_iff.1 hr).symm⟩
  unfold Form.read at h
  split at h
  · split at h
    · rename_i ht
      subst ht
      exact List.prefix_rfl
    · contradiction
  · exact hmap h
  · exact hmap h
  · exact hmap h

theorem mem_candidates {labels : LabelTable} {token : Text} {u : FuncUnit} {c : Candidate} :
    c ∈ candidates labels token u ↔ ∃ form ∈ u.forms, form.read labels u token = some c :=
  List.mem_filterMap

theorem unit_eq_of_candidates {labels : LabelTable} {token : Text} {u v : FuncUnit}
    {c d : Candidate} (hc : c ∈ candidates labels token u) (hd : d ∈ candidates labels token v) :
    u = v := by
  obtain ⟨p, hp, hpr⟩ := mem_candidates.1 hc
  obtain ⟨q, hq, hqr⟩ := mem_candidates.1 hd
  exact forms_separated hp hq (Form.isPrefixOf_read hpr) (Form.isPrefixOf_read hqr)

namespace LineState
variable {s : LineState} {labels : LabelTable} {token : Text} {u : FuncUnit}

theorem read_eq_choose {c : Candidate} (hc : c ∈ candidates labels token u) :
    s.read labels token =
      if s.taken u then (.error (.hard (.unitUsedTwice u)), s)
      else s.choose u token {} (candidates labels token u) := by
  have hne (v : FuncUnit) : (!(candidates labels token v).isEmpty) = true ↔
      ∃ d, d ∈ candidates labels token v := by
    cases candidates labels token v <;> simp
  have hfind : (FuncUnit.all.find? fun v => !(candidates labels token v).isEmpty) = some u := by
    cases hf : FuncUnit.all.find? fun v => !(candidates labels token v).isEmpty with
    | none =>
      have hn := List.find?_eq_none.1 hf u u.mem_all
      exact absurd ((hne u).2 ⟨c, hc⟩) hn
    | some v =>
      have hv := List.find?_some hf
      obtain ⟨d, hd⟩ := (hne v).1 hv
      rw [unit_eq_of_candidates hd hc]
  simp only [read, hfind]

/-- What becomes of the state after a reading. -/
def conclude : Except Refusal Reading × LineState → Except Refusal LineState
  | (.ok r, s) => .ok (s.record r)
  | (.error refusal, _) => .error refusal

theorem assign_eq_choose {c : Candidate} (hc : c ∈ candidates labels token u) :
    s.assign labels token =
      if s.taken u then .error (.hard (.unitUsedTwice u))
      else conclude (s.choose u token {} (candidates labels token u)) := by
  have h : s.assign labels token = conclude (s.read labels token) := rfl
  rw [h, read_eq_choose hc]
  split <;> rfl

end LineState

/-- The candidate of a form for an operand that a token brings along. -/
def Form.take (form : Form) (labels : LabelTable) (u : FuncUnit) (operand : Text) : Candidate :=
  match form.operand with
  | .none => .plain form.selector
  | .alu => aluCandidate u form.selector operand
  | .literal => literalCandidate form.selector operand
  | .label => labelCandidate labels u form.selector operand

theorem prefixes_apart {u : FuncUnit} {p q : Form} {rest : Text} (hp : p ∈ u.forms)
    (hq : q ∈ u.forms) (hpk : p.operand ≠ .none) (hqk : q.operand ≠ .none)
    (h : q.text <+: p.text ++ rest) : q.text = p.text := by
  have hcat : ∀ u : FuncUnit, ∀ p ∈ u.forms, ∀ q ∈ u.forms, p.operand ≠ .none →
      q.operand ≠ .none → p.text <+: q.text → p.text = q.text := by
    intro u
    cases u <;> decide
  rcases List.prefix_or_prefix_of_prefix h (List.prefix_append p.text rest) with hqp | hpq
  · exact hcat u q hq p hp hqk hpk hqp
  · exact (hcat u p hp q hq hpk hqk hpq).symm

theorem candidates_prefixed {labels : LabelTable} {u : FuncUnit} {p : Form} {rest : Text}
    (hp : p ∈ u.forms) (hk : p.operand ≠ .none)
    (hne : ∀ q ∈ u.forms, q.operand = .none → p.text ++ rest ≠ q.text) :
    candidates labels (p.text ++ rest) u = u.forms.filterMap fun q =>
      if q.operand ≠ .none ∧ q.text = p.text then some (q.take labels u (trimLeft rest))
      else none := by
  apply List.filterMap_congr
  intro q hq
  by_cases hqk : q.operand = .none
  · simp only [Form.read, hqk, hne q hq hqk, if_false, ne_eq, not_true_eq_false, false_and]
  · have hpre : q.text.isPrefixOf? (p.text ++ rest) =
        if q.text = p.text then some rest else none := by
      split
      · rename_i he
        rw [he]
        exact isPrefixOf?_eq_some_iff.2 rfl
      · rename_i he
        rw [Option.eq_none_iff_forall_ne_some]
        intro r hr
        exact he (prefixes_apart hp hq hk hqk ⟨r, (isPrefixOf?_eq_some_iff.1 hr).symm⟩)
    unfold Form.read Form.take
    cases hqo : q.operand with
    | none => contradiction
    | _ =>
      simp only [hpre]
      split_ifs <;> simp_all

theorem operation_ne_plain {u : FuncUnit} {n : Nat} {text rest : Text} {op : AluOp} {form : Form}
    (h : (u, n, text) ∈ operationPrefixes) (ho : trimLeft rest = u.operand op)
    (hf : form ∈ u.forms) (hk : form.operand = .none) : text ++ rest ≠ form.text := by
  have hcat : ∀ x ∈ operationPrefixes, ∀ p ∈ x.1.forms, p.operand = .none →
      x.2.2 <+: p.text →
      ∀ op ∈ AluOp.all, trimLeft (p.text.drop x.2.2.length) ≠ x.1.operand op := by
    decide
  intro he
  apply hcat (u, n, text) h form hf hk ⟨rest, he⟩ op op.mem_all
  rw [← he, List.drop_left, ho]

@[simp] theorem ofSpelling?_spelling (op : AluOp) : AluOp.ofSpelling? op.spelling = some op :=
  AluOp.ofSpelling?_eq_some_iff.2 rfl

theorem aluCandidate_operand (u : FuncUnit) (n : Nat) (op : AluOp) :
    aluCandidate u n (u.operand op) = .alu n op := by
  unfold aluCandidate FuncUnit.operand
  by_cases hu : u = .f
  · simp [hu, AluOp.ofTestOperand?]
  · simp [hu]

section Forms
variable {u : FuncUnit} {n : Nat} {text : Text}

theorem form_of_plainToken (h : (u, n, text) ∈ plainTokens) :
    ⟨n, text, .none⟩ ∈ u.forms ∧ (u == .f) = false := by
  have hcat : ∀ x ∈ plainTokens, ⟨x.2.1, x.2.2, .none⟩ ∈ x.1.forms ∧ (x.1 == .f) = false := by
    decide
  exact hcat _ h

theorem form_of_testToken (h : (n, text) ∈ testTokens) : ⟨n, text, .none⟩ ∈ FuncUnit.f.forms := by
  have hcat : ∀ x ∈ testTokens, ⟨x.1, x.2, .none⟩ ∈ FuncUnit.f.forms := by decide
  exact hcat _ h

theorem form_of_operationPrefix (h : (u, n, text) ∈ operationPrefixes) :
    ⟨n, text, .alu⟩ ∈ u.forms := by
  have hcat : ∀ x ∈ operationPrefixes, ⟨x.2.1, x.2.2, .alu⟩ ∈ x.1.forms := by decide
  exact hcat _ h

theorem form_of_branchPrefix (h : (u, n, text) ∈ branchPrefixes) :
    ⟨n, text, .label⟩ ∈ u.forms := by
  have hcat : ∀ x ∈ branchPrefixes, ⟨x.2.1, x.2.2, .label⟩ ∈ x.1.forms := by decide
  exact hcat _ h

end Forms

theorem candidates_of_operationPrefix (labels : LabelTable) {u : FuncUnit} {n : Nat}
    {text rest : Text} (h : (u, n, text) ∈ operationPrefixes)
    (hne : ∀ q ∈ u.forms, q.operand = .none → text ++ rest ≠ q.text) :
    candidates labels (text ++ rest) u = aluCandidate u n (trimLeft rest) ::
      if (u, text) ∈ constantPrefixes then [literalCandidate 3 (trimLeft rest)] else [] := by
  rw [candidates_prefixed (form_of_operationPrefix h) (by simp) hne]
  simp only [operationPrefixes, List.mem_cons, Prod.mk.injEq, List.not_mem_nil, or_false] at h
  rcases h with ⟨rfl, rfl, rfl⟩ | ⟨rfl, rfl, rfl⟩ | ⟨rfl, rfl, rfl⟩ | ⟨rfl, rfl, rfl⟩ |
    ⟨rfl, rfl, rfl⟩ | ⟨rfl, rfl, rfl⟩ | ⟨rfl, rfl, rfl⟩ <;> rfl

theorem candidates_operation (labels : LabelTable) {u : FuncUnit} {n : Nat} {text rest : Text}
    {op : AluOp} (h : (u, n, text) ∈ operationPrefixes) (ho : trimLeft rest = u.operand op) :
    candidates labels (text ++ rest) u = .alu n op ::
      if (u, text) ∈ constantPrefixes then [literalCandidate 3 (trimLeft rest)] else [] := by
  rw [candidates_of_operationPrefix labels h fun q hq hk => operation_ne_plain h ho hq hk,
    ← aluCandidate_operand u n op, ← ho]

theorem constant_ne_plain {u : FuncUnit} {text rest : Text} {value : Int} {form : Form}
    (h : (u, text) ∈ constantPrefixes) (hv : readLiteral (trimLeft rest) = .ok (some value))
    (hf : form ∈ u.forms) (hk : form.operand = .none) : text ++ rest ≠ form.text := by
  have hcat : ∀ x ∈ constantPrefixes, ∀ p ∈ x.1.forms, p.operand = .none → x.2 <+: p.text →
      readLiteral (trimLeft (p.text.drop x.2.length)) = .ok none := by
    decide
  intro he
  have hn := hcat (u, text) h form hf hk ⟨rest, he⟩
  rw [← he, List.drop_left, hv] at hn
  simp at hn

theorem operationPrefix_of_constantPrefix {u : FuncUnit} {text : Text}
    (h : (u, text) ∈ constantPrefixes) : (u, 2, text) ∈ operationPrefixes := by
  have hcat : ∀ x ∈ constantPrefixes, (x.1, 2, x.2) ∈ operationPrefixes := by decide
  exact hcat _ h

theorem candidates_of_constantPrefix (labels : LabelTable) {u : FuncUnit} {text rest : Text}
    (h : (u, text) ∈ constantPrefixes)
    (hne : ∀ q ∈ u.forms, q.operand = .none → text ++ rest ≠ q.text) :
    candidates labels (text ++ rest) u =
      [aluCandidate u 2 (trimLeft rest), literalCandidate 3 (trimLeft rest)] := by
  rw [candidates_of_operationPrefix labels (operationPrefix_of_constantPrefix h) hne, if_pos h]

theorem candidates_constant (labels : LabelTable) {u : FuncUnit} {text rest : Text} {value : Int}
    (h : (u, text) ∈ constantPrefixes) (hv : readLiteral (trimLeft rest) = .ok (some value)) :
    candidates labels (text ++ rest) u =
      [aluCandidate u 2 (trimLeft rest), .literal 3 value] := by
  have hlit : literalCandidate 3 (trimLeft rest) = .literal 3 value := by
    simp only [literalCandidate, hv]
  rw [candidates_of_constantPrefix labels h fun q hq hk => constant_ne_plain h hv hq hk, hlit]

theorem candidates_of_branchPrefix (labels : LabelTable) {u : FuncUnit} {n : Nat}
    {text rest : Text} (h : (u, n, text) ∈ branchPrefixes) :
    candidates labels (text ++ rest) u = [labelCandidate labels u n (trimLeft rest)] := by
  have hne : ∀ x ∈ branchPrefixes, ∀ p ∈ x.1.forms, p.operand = .none → ¬x.2.2 <+: p.text := by
    decide
  rw [candidates_prefixed (form_of_branchPrefix h) (by simp)
    fun q hq hk he => hne _ h q hq hk ⟨rest, he⟩]
  simp only [branchPrefixes, List.mem_cons, Prod.mk.injEq, List.not_mem_nil, or_false] at h
  rcases h with ⟨rfl, rfl, rfl⟩ | ⟨rfl, rfl, rfl⟩ | ⟨rfl, rfl, rfl⟩ | ⟨rfl, rfl, rfl⟩ <;> rfl

theorem candidates_branch {labels : LabelTable} {u : FuncUnit} {n : Nat} {text rest : Text}
    {target : Address} (h : (u, n, text) ∈ branchPrefixes)
    (ht : labels.get? (trimLeft rest) = some target) :
    candidates labels (text ++ rest) u = [.label n target] := by
  rw [candidates_of_branchPrefix labels h]
  simp only [labelCandidate, ht]

theorem readLiteral_spelling {op : AluOp} (h : op ≠ .zero) :
    readLiteral op.spelling = .ok none := by
  have hcat : ∀ op ∈ AluOp.all, op ≠ .zero → readLiteral op.spelling = .ok none := by decide
  exact hcat op op.mem_all h

theorem ne_f_of_constantPrefix {u : FuncUnit} {text : Text} (h : (u, text) ∈ constantPrefixes) :
    u ≠ .f := by
  have hcat : ∀ x ∈ constantPrefixes, x.1 ≠ .f := by decide
  exact hcat _ h

theorem operand_of_constantPrefix {u : FuncUnit} {text : Text} (h : (u, text) ∈ constantPrefixes)
    (op : AluOp) : u.operand op = op.spelling := by
  simp [FuncUnit.operand, ne_f_of_constantPrefix h]

/-- Apart from zero, an operation is not spelled like a constant. -/
theorem literalCandidate_operation {u : FuncUnit} {n : Nat} {text rest : Text} {op : AluOp}
    (hp : (u, text) ∈ constantPrefixes) (ho : trimLeft rest = u.operand op)
    (hz : ¬IsZero (text ++ rest) u) : literalCandidate n (trimLeft rest) = .noLiteral := by
  rw [operand_of_constantPrefix hp] at ho
  have hne : op ≠ .zero := by
    rintro rfl
    exact hz ⟨text, rest, hp, rfl, ho⟩
  simp only [literalCandidate, ho, readLiteral_spelling hne]

theorem aluCandidate_constant {u : FuncUnit} {n : Nat} {text rest : Text} {value : Int}
    (hp : (u, text) ∈ constantPrefixes) (hv : readLiteral (trimLeft rest) = .ok (some value))
    (hz : ¬IsZero (text ++ rest) u) : aluCandidate u n (trimLeft rest) = .noAlu := by
  simp only [aluCandidate, ne_f_of_constantPrefix hp, if_false]
  cases hs : AluOp.ofSpelling? (trimLeft rest) with
  | none => rfl
  | some op =>
    have ho := AluOp.ofSpelling?_eq_some_iff.1 hs
    have hne : op ≠ .zero := by
      rintro rfl
      exact hz ⟨text, rest, hp, rfl, ho.symm⟩
    rw [← ho, readLiteral_spelling hne] at hv
    simp at hv

end MicroAsm
