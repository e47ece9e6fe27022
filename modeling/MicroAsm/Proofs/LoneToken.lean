import MicroAsm.Proofs.Meanings
/-!
A token on its own, in a line that has nothing bound yet. The grammar says which tokens are read
and as what; every other token is a fault, which its beginning determines. In any line a token
concerns one unit at most.
-/
namespace MicroAsm
open Text

/-- How a token is read on its own: where its operand is an operation and a constant at once, it is
the operation. -/
structure ReadsAlone (labels : LabelTable) (token : Text) (u : FuncUnit) (e : Sense) : Prop where
  reads : ReadsAs labels token u e
  operationFirst : e.literal? ≠ none → ∀ n op, ¬ReadsAs labels token u (.operation n op)

/-- The fault of a token that is not read. -/
inductive RefusedFor (labels : LabelTable) (token : Text) : Fault → Prop where
  | label {u n text rest} (h : (u, n, text) ∈ branchPrefixes) (ht : token = text ++ rest)
      (hl : labels.get? (trimLeft rest) = none) :
    RefusedFor labels token (.undefinedLabel (trimLeft rest) u)
  | constant {u text rest fault} (h : (u, text) ∈ constantPrefixes) (ht : token = text ++ rest)
      (hv : readLiteral (trimLeft rest) = .error fault) : RefusedFor labels token fault
  | operand {u text rest} (h : (u, text) ∈ constantPrefixes) (ht : token = text ++ rest)
      (hv : ∀ fault, readLiteral (trimLeft rest) ≠ .error fault) :
    RefusedFor labels token (.unrecognized token (.aluOrLiteral u))
  | operation {u n text rest} (h : (u, n, text) ∈ operationPrefixes)
      (hc : (u, text) ∉ constantPrefixes) (ht : token = text ++ rest) :
    RefusedFor labels token (.unrecognized token (.alu u))
  | opcode (ho : ∀ x ∈ operationPrefixes, ¬x.2.2 <+: token)
      (hb : ∀ x ∈ branchPrefixes, ¬x.2.2 <+: token) :
    RefusedFor labels token (.unrecognized token .opcode)

/-- The state of a line that has only what a sense binds. -/
def Sense.bound (e : Sense) : LineState :=
  { alu := e.alu?, literal := e.literal?, target := e.target? }

/-- A form of the unit is the whole token, or begins it if an operand follows. -/
def FuncUnit.Has (u : FuncUnit) (token : Text) : Prop :=
  ∃ form ∈ u.forms, if form.operand = .none then token = form.text else form.text <+: token

section Tokens
variable {labels : LabelTable} {token text rest : Text} {u v : FuncUnit} {n : Nat} {e : Sense}
  {fault : Fault}

theorem FuncUnit.Has.unique (hu : u.Has token) (hv : v.Has token) : u = v := by
  have hbegins {x : FuncUnit} (h : x.Has token) : ∃ form ∈ x.forms, form.text <+: token := by
    obtain ⟨form, hf, hform⟩ := h
    split at hform
    · exact ⟨form, hf, hform ▸ List.prefix_rfl⟩
    · exact ⟨form, hf, hform⟩
  obtain ⟨p, hp, hpt⟩ := hbegins hu
  obtain ⟨q, hq, hqt⟩ := hbegins hv
  exact forms_separated hp hq hpt hqt

/-- A form that has the token makes a candidate of it. -/
theorem has_iff (labels : LabelTable) :
    u.Has token ↔ ∃ c, c ∈ candidates labels token u := by
  have hsome (form : Form) : (∃ c, form.read labels u token = some c) ↔
      if form.operand = .none then token = form.text else form.text <+: token := by
    have hprefix : (∃ rest, form.text.isPrefixOf? token = some rest) ↔ form.text <+: token := by
      simp only [isPrefixOf?_eq_some_iff]
      exact exists_congr fun _ => eq_comm
    unfold Form.read
    cases form.operand with
    | none => simp
    | _ => simpa using hprefix
  simp only [mem_candidates, FuncUnit.Has, ← hsome]
  constructor
  · rintro ⟨form, hf, c, hc⟩
    exact ⟨c, form, hf, hc⟩
  · rintro ⟨c, form, hf, hc⟩
    exact ⟨form, hf, c, hc⟩

theorem read_of_has (h : u.Has token) (s : LineState) : s.read labels token =
    if s.taken u then (.error (.hard (.unitUsedTwice u)), s)
    else s.choose u token {} (candidates labels token u) := by
  obtain ⟨c, hc⟩ := (has_iff labels).1 h
  exact LineState.read_eq_choose hc

theorem read_of_none_has (h : ∀ u : FuncUnit, ¬u.Has token) (s : LineState) :
    s.read labels token = (.error (.hard (.unrecognized token .opcode)), s) := by
  have hfind : (FuncUnit.all.find? fun u => !(candidates labels token u).isEmpty) = none := by
    rw [List.find?_eq_none]
    intro u _ hu
    exact h u ((has_iff labels).2 (List.exists_mem_of_ne_nil _ (by simpa using hu)))
  simp only [LineState.read, hfind]

theorem choose_unit {s : LineState} {tried : Tried} {cs : List Candidate} {r : Reading}
    (h : (s.choose u token tried cs).1 = .ok r) : r.unit = u := by
  induction cs generalizing s tried with
  | nil => contradiction
  | cons c cs ih =>
    cases c with
    | plain => exact congrArg Reading.unit (Except.ok.inj h).symm
    | faulty => contradiction
    | noAlu => exact ih h
    | noLiteral => exact ih h
    | alu =>
      rw [LineState.choose] at h
      split at h
      · exact congrArg Reading.unit (Except.ok.inj h).symm
      · exact ih h
    | literal =>
      rw [LineState.choose] at h
      split at h
      · exact congrArg Reading.unit (Except.ok.inj h).symm
      · contradiction
    | label =>
      rw [LineState.choose] at h
      split at h
      · exact congrArg Reading.unit (Except.ok.inj h).symm
      · contradiction
      · contradiction

theorem read_alone (h : u.Has token) : LineState.read {} labels token =
    LineState.choose {} u token {} (candidates labels token u) := by
  have hfree : LineState.taken {} u = false := by cases u <;> rfl
  rw [read_of_has h, hfree]
  rfl

theorem has_of_form {form : Form} (hf : form ∈ u.forms) (hk : form.operand = .none) :
    u.Has form.text := ⟨form, hf, by rw [if_pos hk]⟩

theorem has_of_prefix {form : Form} (hf : form ∈ u.forms) (hk : form.operand ≠ .none) :
    u.Has (form.text ++ rest) := ⟨form, hf, by
      rw [if_neg hk]
      exact List.prefix_append form.text rest⟩

theorem has_of_operationPrefix (h : (u, n, text) ∈ operationPrefixes) : u.Has (text ++ rest) :=
  has_of_prefix (form_of_operationPrefix h) (by simp)

theorem has_of_branchPrefix (h : (u, n, text) ∈ branchPrefixes) : u.Has (text ++ rest) :=
  has_of_prefix (form_of_branchPrefix h) (by simp)

/-- Before a form without an operand, other forms of its unit may have been tried in vain. -/
theorem read_alone_plain {form : Form} (hf : form ∈ u.forms) (hk : form.operand = .none) :
    LineState.read {} labels form.text = (.ok ⟨u, form.selector, u == .f⟩, {}) := by
  rw [read_alone (has_of_form hf hk)]
  cases u <;> simp only [FuncUnit.forms, List.mem_cons, List.not_mem_nil, or_false] at hf <;>
    rcases hf with rfl | rfl | rfl | rfl | rfl | rfl <;> first | rfl | contradiction

/-- A token that the grammar reads is read, and only its operand is bound. -/
theorem ReadsAlone.read (h : ReadsAlone labels token u e) : LineState.read {} labels token =
    (.ok ⟨u, e.selector, e.implicitAlu⟩, e.bound) := by
  obtain ⟨hreads, hfirst⟩ := h
  cases hreads with
  | plain h =>
    obtain ⟨hform, hne⟩ := form_of_plainToken h
    rw [read_alone_plain hform rfl, hne]
    rfl
  | test h => exact read_alone_plain (form_of_testToken h) rfl
  | operation h ho =>
    rw [read_alone (has_of_operationPrefix h), candidates_operation labels h ho]
    rfl
  | @constant _ text rest v h hv =>
    have hop := operationPrefix_of_constantPrefix h
    have hnone : aluCandidate u 2 (trimLeft rest) = .noAlu := by
      by_contra hne
      obtain ⟨op, ho⟩ := LineState.exists_operand hne
      exact hfirst (Option.some_ne_none _) 2 op (.operation hop ho)
    rw [read_alone (has_of_operationPrefix hop), candidates_constant labels h hv, hnone]
    rfl
  | branch h ht =>
    rw [read_alone (has_of_branchPrefix h), candidates_branch h ht]
    rfl

/-- Every token is read or has a fault. -/
theorem exists_readsAlone_or_refusedFor (labels : LabelTable) (token : Text) :
    (∃ u e, ReadsAlone labels token u e) ∨ ∃ fault, RefusedFor labels token fault := by
  by_cases hb : ∃ x ∈ branchPrefixes, x.2.2 <+: token
  · obtain ⟨⟨u, n, text⟩, h, rest, rfl⟩ := hb
    cases ht : labels.get? (trimLeft rest) with
    | none => exact .inr ⟨_, .label h rfl ht⟩
    | some t => exact .inl ⟨u, .branch n t, .branch h ht, fun hl => absurd rfl hl⟩
  · by_cases hc : ∃ x ∈ constantPrefixes, x.2 <+: token
    · obtain ⟨⟨u, text⟩, h, rest, rfl⟩ := hc
      by_cases hv : ∃ fault, readLiteral (trimLeft rest) = .error fault
      · obtain ⟨fault, hv⟩ := hv
        exact .inr ⟨fault, .constant h rfl hv⟩
      · exact .inr ⟨_, .operand h rfl (not_exists.1 hv)⟩
    · by_cases ho : ∃ x ∈ operationPrefixes, x.2.2 <+: token
      · obtain ⟨⟨u, n, text⟩, h, rest, rfl⟩ := ho
        refine .inr ⟨_, .operation h ?_ rfl⟩
        exact fun hm => hc ⟨_, hm, List.prefix_append text rest⟩
      · refine .inr ⟨_, .opcode ?_ ?_⟩
        · exact fun x hx hp => ho ⟨x, hx, hp⟩
        · exact fun x hx hp => hb ⟨x, hx, hp⟩

section Unread
variable (hun : ∀ u e, ¬ReadsAlone labels token u e)
include hun

theorem ne_plain_of_unread {form : Form} (hf : form ∈ u.forms) (hk : form.operand = .none) :
    token ≠ form.text := by
  rintro rfl
  rcases (LineState.form_listed u form hf).1 hk with h | ⟨rfl, h⟩
  · exact hun _ _ ⟨.plain h, fun hl => absurd rfl hl⟩
  · exact hun _ _ ⟨.test h, fun hl => absurd rfl hl⟩

theorem aluCandidate_of_unread (h : (u, n, text) ∈ operationPrefixes) (ht : token = text ++ rest) :
    aluCandidate u n (trimLeft rest) = .noAlu := by
  by_contra hne
  obtain ⟨op, ho⟩ := LineState.exists_operand hne
  subst ht
  exact hun _ _ ⟨.operation h ho, fun hl => absurd rfl hl⟩

/-- The fault of a token that is not read is the one that its beginning asks for. -/
theorem RefusedFor.read (h : RefusedFor labels token fault) :
    LineState.read {} labels token = (.error (.hard fault), {}) := by
  have hplain {u : FuncUnit} : ∀ form ∈ u.forms, form.operand = .none → token ≠ form.text :=
    fun _ hf hk => ne_plain_of_unread hun hf hk
  cases h with
  | label h ht hl =>
    rw [ht, read_alone (has_of_branchPrefix h), candidates_of_branchPrefix labels h,
      labelCandidate, hl]
    rfl
  | constant h ht hv =>
    have hop := operationPrefix_of_constantPrefix h
    have halu := aluCandidate_of_unread hun hop ht
    subst ht
    rw [read_alone (has_of_operationPrefix hop), candidates_of_constantPrefix labels h hplain, halu,
      literalCandidate, hv]
    rfl
  | @operand u text rest h ht hv =>
    have hop := operationPrefix_of_constantPrefix h
    have halu := aluCandidate_of_unread hun hop ht
    subst ht
    have hliteral : readLiteral (trimLeft rest) = .ok none := by
      cases hr : readLiteral (trimLeft rest) with
      | error fault => exact absurd hr (hv fault)
      | ok o =>
        cases o with
        | none => rfl
        | some v =>
          refine absurd ⟨.constant h hr, fun _ n op ho => ?_⟩ (hun u (.constant v))
          exact hun _ _ ⟨ho, fun hl => absurd rfl hl⟩
    rw [read_alone (has_of_operationPrefix hop), candidates_of_constantPrefix labels h hplain, halu,
      literalCandidate, hliteral]
    rfl
  | operation h hc ht =>
    have halu := aluCandidate_of_unread hun h ht
    subst ht
    rw [read_alone (has_of_operationPrefix h), candidates_of_operationPrefix labels h hplain, halu,
      if_neg hc]
    rfl
  | opcode ho hb =>
    apply read_of_none_has
    rintro u ⟨form, hf, hform⟩
    obtain ⟨-, halu, hliteral, hlabel⟩ := LineState.form_listed u form hf
    cases hk : form.operand with
    | none =>
      rw [if_pos hk] at hform
      exact hplain form hf hk hform
    | alu =>
      rw [if_neg (by simp [hk])] at hform
      exact ho _ (halu hk) hform
    | literal =>
      rw [if_neg (by simp [hk])] at hform
      exact ho _ (operationPrefix_of_constantPrefix (hliteral hk)) hform
    | label =>
      rw [if_neg (by simp [hk])] at hform
      exact hb _ (hlabel hk) hform

end Unread

end Tokens

/-- On its own, a token is read if and only if the grammar reads it, with the selector of the
catalog and its operand bound. Every other token is a fault, which depends on its beginning: an
unknown label, a constant with a fault of its own, an operand that is neither operation nor
constant, or no operation, or an unknown beginning. In any line, at most one unit has a form for
the token, and the forms of that unit alone decide. -/
theorem read_iff_grammar (labels : LabelTable) (token : Text) :
    (∀ r s, LineState.read {} labels token = (.ok r, s) ↔ ∃ e,
      ReadsAlone labels token r.unit e ∧ r = ⟨r.unit, e.selector, e.implicitAlu⟩ ∧
        s = e.bound) ∧
    (∀ refusal s, LineState.read {} labels token = (.error refusal, s) ↔
      (∀ u e, ¬ReadsAlone labels token u e) ∧
        (∃ fault, RefusedFor labels token fault ∧ refusal = .hard fault) ∧ s = {}) ∧
    (∀ u v : FuncUnit, u.Has token → v.Has token → u = v) ∧
    ∀ s : LineState,
      (∀ r, (s.read labels token).1 = .ok r → r.unit.Has token) ∧
      (∀ u : FuncUnit, u.Has token → s.read labels token =
        if s.taken u then (.error (.hard (.unitUsedTwice u)), s)
        else s.choose u token {} (candidates labels token u)) ∧
      ((∀ u : FuncUnit, ¬u.Has token) →
        s.read labels token = (.error (.hard (.unrecognized token .opcode)), s)) := by
  refine ⟨?_, ?_, fun u v => FuncUnit.Has.unique, fun s => ⟨?_, fun u h => read_of_has h s,
    fun h => read_of_none_has h s⟩⟩
  · intro r s
    constructor
    · intro h
      by_cases hun : ∃ u e, ReadsAlone labels token u e
      · obtain ⟨u, e, he⟩ := hun
        rw [he.read] at h
        obtain ⟨hr, rfl⟩ := Prod.mk.inj h
        obtain rfl := Except.ok.inj hr
        exact ⟨e, he, rfl, rfl⟩
      · obtain ⟨fault, hf⟩ := (exists_readsAlone_or_refusedFor labels token).resolve_left hun
        rw [hf.read (by simpa using hun)] at h
        exact absurd (congrArg Prod.fst h) (by simp)
    · rintro ⟨e, he, hr, rfl⟩
      rw [he.read, ← hr]
  · intro refusal s
    constructor
    · intro h
      have hun : ∀ u e, ¬ReadsAlone labels token u e := by
        intro u e he
        rw [he.read] at h
        exact absurd (congrArg Prod.fst h) (by simp)
      obtain ⟨fault, hf⟩ := (exists_readsAlone_or_refusedFor labels token).resolve_left
        (by simpa using hun)
      rw [hf.read hun] at h
      obtain ⟨hr, rfl⟩ := Prod.mk.inj h
      exact ⟨hun, ⟨fault, hf, (Except.error.inj hr).symm⟩, rfl⟩
    · rintro ⟨hun, ⟨fault, hf, rfl⟩, rfl⟩
      exact hf.read hun
  · intro r h
    by_cases hex : ∃ u : FuncUnit, u.Has token
    · obtain ⟨u, hu⟩ := hex
      rw [read_of_has hu] at h
      split at h
      · contradiction
      · rwa [choose_unit h]
    · rw [read_of_none_has (not_exists.1 hex)] at h
      contradiction

/-- A zero, which is an operation rather than a constant, and three faults: an operand that is
neither, a name that is not in the table, and a beginning that no unit has. -/
theorem zero_and_three_faults :
    LineState.read {} {} "B= 0".toList = (.ok ⟨.b, 2, false⟩, { alu := some .zero }) ∧
    LineState.read {} {} "W=A+".toList =
      (.error (.hard (.unrecognized "W=A+".toList (.aluOrLiteral .w))), {}) ∧
    LineState.read {} {} "JMP  X".toList = (.error (.hard (.undefinedLabel "X".toList .j)), {}) ∧
    LineState.read {} {} "NOP".toList =
      (.error (.hard (.unrecognized "NOP".toList .opcode)), {}) := by
  have hunread {token : Text} {refusal : Refusal}
      (h : (LineState.read {} {} token).1 = .error refusal) (u : FuncUnit) (e : Sense) :
      ¬ReadsAlone {} token u e := by
    intro he
    have hok := ((read_iff_grammar {} token).1 ⟨u, e.selector, e.implicitAlu⟩ _).2
      ⟨e, he, rfl, rfl⟩
    rw [hok] at h
    contradiction
  refine ⟨?_, ?_, ?_, ?_⟩
  · refine ((read_iff_grammar {} "B= 0".toList).1 _ _).2 ⟨.operation 2 .zero, ⟨?_, ?_⟩, rfl, rfl⟩
    · exact @ReadsAs.operation {} .b 2 "B=".toList " 0".toList .zero (by decide) (by decide)
    · exact fun hl => absurd rfl hl
  · have hv (fault : Fault) : readLiteral (trimLeft "A+".toList) ≠ .error fault := by
      have hnone : readLiteral (trimLeft "A+".toList) = .ok none := by decide
      rw [hnone]
      simp
    refine ((read_iff_grammar {} "W=A+".toList).2.1 _ _).2 ⟨hunread rfl, ⟨_, ?_, rfl⟩, rfl⟩
    exact @RefusedFor.operand {} _ .w "W=".toList "A+".toList (by decide) rfl hv
  · refine ((read_iff_grammar {} "JMP  X".toList).2.1 _ _).2 ⟨hunread rfl, ⟨_, ?_, rfl⟩, rfl⟩
    exact @RefusedFor.label {} _ .j 1 "JMP ".toList " X".toList (by decide) rfl rfl
  · refine ((read_iff_grammar {} "NOP".toList).2.1 _ _).2 ⟨hunread rfl, ⟨_, ?_, rfl⟩, rfl⟩
    exact .opcode (by decide) (by decide)

end MicroAsm
