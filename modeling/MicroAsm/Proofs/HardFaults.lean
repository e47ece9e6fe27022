import Mathlib.Data.List.Nodup
import MicroAsm.Proofs.Constraint
import MicroAsm.Proofs.Failure
import MicroAsm.Proofs.LoneToken
/-!
Faults that no order of the tokens can mend: a token that is not read even on its own, a unit with
two tokens, branches to different addresses. A token that is not read is always reported, since
some rotation begins with it. A unit with two tokens, or a second target, is reported unless every
rotation ends in a conflict of operands before both tokens have been met.
-/
namespace MicroAsm
open LineState

/-- Faults that reading tokens can find, as opposed to those of a whole line or source. -/
def Fault.isHard : Fault → Bool
  | .undefinedLabel .. | .unitUsedTwice _ | .unrecognized .. | .constantRange ..
  | .trailingCharacters _ | .conflictingTargets => true
  | _ => false

instance (u : FuncUnit) (token : Text) : Decidable (u.Has token) :=
  inferInstanceAs (Decidable (∃ form ∈ u.forms,
    if form.operand = .none then token = form.text else form.text <+: token))

section Line
variable (labels : LabelTable) (tokens : List Text)

def DrivenTwice (u : FuncUnit) : Prop := 2 ≤ tokens.countP fun token => u.Has token

instance (tokens : List Text) (u : FuncUnit) : Decidable (DrivenTwice tokens u) :=
  inferInstanceAs (Decidable (2 ≤ _))

/-- Two tokens of the line are for one unit, or two branches have different targets. -/
def Violated : Prop := (∃ u, DrivenTwice tokens u) ∨ ¬(targets labels tokens).Subsingleton

/-- The faults that the tokens of a line can be blamed for in any order. -/
inductive HardFault : Fault → Prop where
  | unitUsedTwice {u} (h : DrivenTwice tokens u) : HardFault (.unitUsedTwice u)
  | conflictingTargets (h : ¬(targets labels tokens).Subsingleton) : HardFault .conflictingTargets
  | ofToken {token fault} (ht : token ∈ tokens)
    (h : (LineState.read {} labels token).1 = .error (.hard fault)) : HardFault fault

/-- Before two tokens that violate a rule have both been met, the operands are in conflict. -/
def CutShort : Prop :=
  ∃ part, part <+: tokens ∧ ¬Violated labels part ∧
    readTokens labels part = .error .inconsistent

end Line

section Tokens
variable {labels : LabelTable} {s : LineState} {u : FuncUnit} {token : Text} {c : Clause}
  {fault : Fault}

theorem has_of_read {r : Reading} (h : (s.read labels token).1 = .ok r) : r.unit.Has token := by
  by_cases hex : ∃ u : FuncUnit, u.Has token
  · obtain ⟨u, hu⟩ := hex
    rw [read_of_has hu] at h
    split at h
    · contradiction
    · rwa [choose_unit h]
  · rw [read_of_none_has (not_exists.1 hex)] at h
    contradiction

/-- The unit of a token is the one that its meaning drives. -/
theorem Means.has_iff (h : Means labels token c) : u.Has token ↔ u = c.unit := by
  obtain ⟨r, hr, hu⟩ := h.read_empty
  have hc : c.unit.Has token := hu ▸ has_of_read hr
  constructor
  · intro hh
    exact hh.unique hc
  · rintro rfl
    exact hc

theorem isHard_of_read_alone (h : (LineState.read {} labels token).1 = .error (.hard fault)) :
    fault.isHard = true := by
  have hun : ∀ u e, ¬ReadsAlone labels token u e := by
    intro u e he
    rw [he.read] at h
    contradiction
  obtain ⟨fault', hf⟩ := (exists_readsAlone_or_refusedFor labels token).resolve_left
    (by simpa using hun)
  rw [hf.read hun] at h
  obtain rfl := Refusal.hard.inj (Except.error.inj h)
  cases hf with
  | label => rfl
  | constant _ _ hv =>
    rcases fault_of_readLiteral hv with ⟨_, _, _, rfl⟩ | ⟨_, rfl⟩
    · rfl
    · rfl
  | operand => rfl
  | operation => rfl
  | opcode => rfl

/-- A token without a meaning has the same fault in every line, unless its unit is driven. -/
theorem fault_of_meaningless (hn : ∀ c, ¬Means labels token c)
    (h : s.assign labels token = .error (.hard fault)) :
    (∃ u, u.Has token ∧ s.taken u = true ∧ fault = .unitUsedTwice u) ∨
      (LineState.read {} labels token).1 = .error (.hard fault) := by
  rw [assign_eq_error_iff] at h
  by_cases hex : ∃ u : FuncUnit, u.Has token
  · obtain ⟨u, hu⟩ := hex
    rw [read_of_has hu] at h
    split at h
    · rename_i ht
      obtain rfl := Refusal.hard.inj (Except.error.inj h)
      exact Or.inl ⟨u, hu, ht, rfl⟩
    · rw [read_alone hu, ← h]
      exact Or.inr (choose_congr_of_no_candidate (candidate_of_meaningless hn u))
  · rw [read_of_none_has (not_exists.1 hex)] at h ⊢
    exact Or.inr h

theorem readTokens_singleton : readTokens labels [token] = LineState.assign labels {} token := by
  unfold readTokens
  rw [List.foldlM_cons]
  cases LineState.assign labels {} token <;> rfl

/-- A token alone is read or has a fault, but is never in conflict. -/
theorem assign_empty_ne_inconsistent :
    LineState.assign labels {} token ≠ .error .inconsistent := by
  by_cases hm : ∃ c, Means labels token c
  · obtain ⟨c, hc⟩ := hm
    rw [assign_of_means hc, accept_empty]
    simp
  · obtain ⟨f, hf⟩ := assign_of_meaningless (not_exists.1 hm) {}
    rw [hf]
    simp

end Tokens

section Violations
variable {labels : LabelTable} {tokens more : List Text} {cs : List Clause} {c : Clause}
  {s : LineState} {u : FuncUnit} {fault : Fault}

theorem countP_has (hm : List.Forall₂ (Means labels) tokens cs) (u : FuncUnit) :
    (tokens.countP fun token => u.Has token) = (cs.map Clause.unit).count u := by
  induction hm with
  | nil => rfl
  | @cons token c _ _ hd _ ih =>
    have hunit : decide (u.Has token) = (c.unit == u) := by
      rw [Bool.eq_iff_iff, decide_eq_true_iff, hd.has_iff, beq_iff_eq, eq_comm]
    rw [List.countP_cons, List.map_cons, List.count_cons, ih, hunit]

theorem exists_drivenTwice_iff (hm : List.Forall₂ (Means labels) tokens cs) :
    (∃ u, DrivenTwice tokens u) ↔ ¬(cs.map Clause.unit).Nodup := by
  simp only [DrivenTwice, countP_has hm, List.nodup_iff_count_le_one, not_forall, not_le]
  rfl

/-- Where all tokens have a meaning, a line without a violation is one without a fault. -/
theorem violated_iff (hm : List.Forall₂ (Means labels) tokens cs) :
    Violated labels tokens ↔ ¬Clean cs := by
  unfold Violated
  rw [exists_drivenTwice_iff hm, ← not_and_or, not_iff_not]
  constructor
  · rintro ⟨hu, ht⟩
    exact clean_of_targets hm hu ht
  · intro h
    refine ⟨h.units, ?_⟩
    intro t ht t' ht'
    obtain ⟨c, hc, hct⟩ := (mem_targets_iff hm).1 ht
    obtain ⟨d, hd, hdt⟩ := (mem_targets_iff hm).1 ht'
    exact h.targets c hc d hd t hct t' hdt

theorem DrivenTwice.mono (hsub : tokens.Subperm more) (h : DrivenTwice tokens u) :
    DrivenTwice more u := h.trans (hsub.countP_le _)

theorem Violated.mono (hsub : tokens.Subperm more) (h : Violated labels tokens) :
    Violated labels more :=
  h.imp (fun ⟨u, hu⟩ => ⟨u, hu.mono hsub⟩) fun ht hs => ht (hs.anti (targets_mono hsub.subset))

theorem HardFault.mono (hsub : tokens.Subperm more) (h : HardFault labels tokens fault) :
    HardFault labels more fault := by
  cases h with
  | unitUsedTwice h => exact .unitUsedTwice (h.mono hsub)
  | conflictingTargets h =>
    exact .conflictingTargets fun hs => h (hs.anti (targets_mono hsub.subset))
  | ofToken ht h => exact .ofToken (hsub.subset ht) h

theorem HardFault.isHard (h : HardFault labels tokens fault) : fault.isHard = true := by
  cases h with
  | unitUsedTwice => rfl
  | conflictingTargets => rfl
  | ofToken _ h => exact isHard_of_read_alone h

theorem Settled.target_iff (h : Settled cs s) {t : Address} :
    s.target = some t ↔ ∃ c ∈ cs, c.target? = some t := by
  simp only [h.target, Clause.target?_senseIn]

/-- A clause that finds its unit idle and its target free adds no violation. -/
theorem Settled.clean_snoc (h : Settled cs s) (hd : ∀ c ∈ cs, c.Drives)
    (hfree : s.taken c.unit = false) (ht : Compatible c.target? s.target) :
    Clean (cs ++ [c]) where
  units := by
    apply h.units_snoc
    rw [← h.taken_iff hd, hfree]
    simp
  targets := by
    have hold {d : Clause} (hd : d ∈ cs) : Compatible c.target? d.target? :=
      fun t hct t' hdt => ht t hct t' (h.target_iff.2 ⟨d, hd, hdt⟩)
    simp only [List.forall_mem_append, List.forall_mem_singleton]
    refine ⟨fun d hd => ⟨h.clean.targets d hd, (hold hd).symm⟩, fun d hd => hold hd, ?_⟩
    intro t hct t' hct'
    exact Option.some.inj (hct.symm.trans hct')

end Violations

section Reading
variable {labels : LabelTable} {tokens before : List Text} {s : LineState} {token : Text}
  {fault : Fault} {start : Nat}

theorem subperm_of_split (before after : List Text) (token : Text) :
    (before ++ [token]).Subperm (before ++ token :: after) := by
  have hpre : before ++ [token] <+: before ++ token :: after := ⟨after, by simp⟩
  exact hpre.sublist.subperm

/-- One step: the fault that a token ends the reading with is one of the tokens up to it. -/
theorem HardFault.of_assign (hb : readTokens labels before = .ok s)
    (ha : s.assign labels token = .error (.hard fault)) :
    HardFault labels (before ++ [token]) fault := by
  obtain ⟨bs, hm, hs⟩ := settled_of_readTokens (.refl before) hb
  have htwice {u : FuncUnit} (hu : u.Has token) (ht : s.taken u = true) :
      DrivenTwice (before ++ [token]) u := by
    have hmem := (hs.taken_iff (drives_of_forall₂ hm)).1 ht
    have hpos : 0 < before.countP fun t => u.Has t := by
      rw [countP_has hm]
      exact List.count_pos_iff.2 hmem
    rw [DrivenTwice, List.countP_append, List.countP_singleton, if_pos (decide_eq_true hu)]
    omega
  by_cases hmean : ∃ c, Means labels token c
  · obtain ⟨c, hc⟩ := hmean
    have hm' : List.Forall₂ (Means labels) (before ++ [token]) (bs ++ [c]) :=
      List.rel_append hm (.cons hc .nil)
    rw [assign_of_means hc] at ha
    rcases accept_eq_error_iff.1 ha with ⟨ht, he⟩ | ⟨-, htarget, he⟩ | ⟨-, -, -, he⟩
    · obtain rfl := Refusal.hard.inj he
      exact .unitUsedTwice (htwice (hc.has_iff.2 rfl) ht)
    · obtain rfl := Refusal.hard.inj he
      refine .conflictingTargets fun hsub => htarget ?_
      rw [c.target?_senseIn]
      intro t hct t' hst
      obtain ⟨d, hd, hdt⟩ := hs.target_iff.1 hst
      exact hsub ((mem_targets_iff hm').2 ⟨c, by simp, hct⟩)
        ((mem_targets_iff hm').2 ⟨d, by simp [hd], hdt⟩)
    · contradiction
  · rcases fault_of_meaningless (not_exists.1 hmean) ha with ⟨u, hu, ht, rfl⟩ | h
    · exact .unitUsedTwice (htwice hu ht)
    · exact .ofToken (by simp) h

/-- A whole line, in any of its rotations. -/
theorem HardFault.of_readRotation (h : readRotation labels tokens start = .error (.hard fault)) :
    HardFault labels tokens fault := by
  obtain ⟨before, token, after, s, hsplit, hb, ha⟩ := foldlM_eq_error_iff.1 h
  have hsub := subperm_of_split before after token
  rw [← hsplit] at hsub
  exact (HardFault.of_assign hb ha).mono (hsub.trans (rotateLeft_perm tokens start).subperm)

/-- A token that meets a conflict is no violation together with those that were read. -/
theorem not_violated_of_inconsistent (hb : readTokens labels before = .ok s)
    (ha : s.assign labels token = .error .inconsistent) :
    ¬Violated labels (before ++ [token]) := by
  obtain ⟨bs, hm, hs⟩ := settled_of_readTokens (.refl before) hb
  have hmean : ∃ c, Means labels token c := by
    by_contra hn
    obtain ⟨f, hf⟩ := assign_of_meaningless (not_exists.1 hn) s
    cases hf.symm.trans ha
  obtain ⟨c, hc⟩ := hmean
  rw [violated_iff (List.rel_append hm (.cons hc .nil)), not_not]
  rw [assign_of_means hc] at ha
  rcases accept_eq_error_iff.1 ha with ⟨-, he⟩ | ⟨-, -, he⟩ | ⟨hfree, htarget, -⟩
  · contradiction
  · contradiction
  · rw [c.target?_senseIn] at htarget
    exact hs.clean_snoc (drives_of_forall₂ hm) hfree htarget

/-- Only a conflict of operands makes a reading inconsistent, and then early enough. -/
theorem cutShort_iff :
    CutShort labels tokens ↔ readTokens labels tokens = .error .inconsistent := by
  constructor
  · rintro ⟨part, ⟨rest, rfl⟩, -, h⟩
    rw [readTokens] at h ⊢
    rw [List.foldlM_append, h]
    rfl
  · intro h
    obtain ⟨before, token, after, s, rfl, hb, ha⟩ := foldlM_eq_error_iff.1 h
    exact ⟨before ++ [token], ⟨after, by simp⟩, not_violated_of_inconsistent hb ha,
      foldlM_eq_error_iff.2 ⟨before, token, [], s, rfl, hb, ha⟩⟩

theorem not_cutShort_of_neighbours {x y : Text} {rest : List Text}
    (h : Violated labels [x, y]) : ¬CutShort labels (x :: y :: rest) := by
  rintro ⟨part, hpart, hn, hr⟩
  cases part with
  | nil => contradiction
  | cons x' part =>
    obtain ⟨rfl, hrest⟩ := List.cons_prefix_cons.1 hpart
    cases part with
    | nil =>
      rw [readTokens_singleton] at hr
      exact assign_empty_ne_inconsistent hr
    | cons y' part =>
      obtain ⟨rfl, -⟩ := List.cons_prefix_cons.1 hrest
      have hsub : [x', y'] <+: x' :: y' :: part := ⟨part, rfl⟩
      exact hn (h.mono hsub.sublist.subperm)

theorem firstConsistent_eq_hard {attempt : Nat → Except Refusal LineState} {starts : List Nat}
    (hok : ∀ n ∈ starts, ∀ s, attempt n ≠ .ok s)
    (hex : ∃ n ∈ starts, attempt n ≠ .error .inconsistent) :
    ∃ n ∈ starts, ∃ fault, attempt n = .error (.hard fault) ∧
      firstConsistent attempt starts = .error fault := by
  induction starts with
  | nil => simp at hex
  | cons n starts ih =>
    rw [firstConsistent]
    cases hn : attempt n with
    | ok s => exact absurd hn (hok n List.mem_cons_self s)
    | error e =>
      cases e with
      | hard fault => exact ⟨n, List.mem_cons_self, fault, hn, rfl⟩
      | inconsistent =>
        have hex' : ∃ m ∈ starts, attempt m ≠ .error .inconsistent := by
          obtain ⟨m, hm, hne⟩ := hex
          rcases List.mem_cons.1 hm with rfl | hm
          · exact absurd hn hne
          · exact ⟨m, hm, hne⟩
        obtain ⟨m, hm, hfault⟩ := ih (fun m hm => hok m (List.mem_cons_of_mem n hm)) hex'
        exact ⟨m, List.mem_cons_of_mem n hm, hfault⟩

/-- If no rotation is read and not all of them are inconsistent, the search ends with a fault. -/
theorem exists_hardFault_of_solve (hok : ∀ start s, readRotation labels tokens start ≠ .ok s)
    (hex : ∃ start < tokens.length, readRotation labels tokens start ≠ .error .inconsistent)
    (line : Nat) :
    ∃ fault, HardFault labels tokens fault ∧ fault.isHard = true ∧
      solve labels tokens line = .error ⟨some line, fault⟩ := by
  obtain ⟨start, hlt, hne⟩ := hex
  obtain ⟨n, -, fault, hn, hfirst⟩ :=
    firstConsistent_eq_hard (fun n _ => hok n) ⟨start, List.mem_range.2 hlt, hne⟩
  have hfault := HardFault.of_readRotation hn
  refine ⟨fault, hfault, hfault.isHard, ?_⟩
  rw [solve, settle, hfirst]
  rfl

theorem readRotation_ne_ok_of_violated (h : Violated labels tokens) (start : Nat) :
    readRotation labels tokens start ≠ .ok s := by
  intro hr
  obtain ⟨cs, hm, hs⟩ := settled_of_readRotation (.refl tokens) hr
  exact (violated_iff hm).1 h hs.clean

/-- Every token of a line that is read in some order is read on its own. -/
theorem readRotation_ne_ok_of_fault (ht : token ∈ tokens)
    (h : (LineState.read {} labels token).1 = .error (.hard fault)) (start : Nat) :
    readRotation labels tokens start ≠ .ok s := by
  intro hr
  obtain ⟨cs, hm, -⟩ := settled_of_readRotation (.refl tokens) hr
  obtain ⟨c, hc⟩ := exists_forall₂_iff.1 ⟨cs, hm⟩ token ht
  obtain ⟨r, hread, -⟩ := hc.read_empty
  cases hread.symm.trans h

theorem readRotation_of_mem (ht : token ∈ tokens)
    (h : (LineState.read {} labels token).1 = .error (.hard fault)) :
    ∃ start < tokens.length, readRotation labels tokens start = .error (.hard fault) := by
  obtain ⟨l, r, rfl⟩ := List.append_of_mem ht
  refine ⟨l.length, by simp, ?_⟩
  rw [readRotation, rotateLeft_length_append]
  exact foldlM_eq_error_iff.2 ⟨[], token, r ++ l, {}, rfl, rfl, assign_eq_error_iff.2 h⟩

end Reading

/-- A token that is not read on its own has the line end with a fault of its tokens, wherever the
token stands and whatever else the line holds. -/
theorem malformed_token_reported {labels : LabelTable} {tokens : List Text} {token : Text}
    {fault : Fault} (ht : token ∈ tokens)
    (h : (LineState.read {} labels token).1 = .error (.hard fault)) (line : Nat) :
    ∃ fault', HardFault labels tokens fault' ∧ fault'.isHard = true ∧
      solve labels tokens line = .error ⟨some line, fault'⟩ := by
  obtain ⟨start, hlt, hr⟩ := readRotation_of_mem ht h
  refine exists_hardFault_of_solve (fun n s => readRotation_ne_ok_of_fault ht h n)
    ⟨start, hlt, ?_⟩ line
  rw [hr]
  simp

/-- The first rotation ends in a conflict of operands, and the second one comes to the token. -/
theorem malformed_after_conflict :
    HardFault {} ["B=A+B".toList, "C=B-A".toList, "NOP".toList]
      (.unrecognized "NOP".toList .opcode) ∧
    solve {} ["B=A+B".toList, "C=B-A".toList, "NOP".toList] 7 =
      .error ⟨some 7, .unrecognized "NOP".toList .opcode⟩ := by
  have ht : "NOP".toList ∈ ["B=A+B".toList, "C=B-A".toList, "NOP".toList] := by decide
  have hr : (LineState.read {} {} "NOP".toList).1 =
      .error (.hard (.unrecognized "NOP".toList .opcode)) := rfl
  have hs : solve {} ["B=A+B".toList, "C=B-A".toList, "NOP".toList] 7 =
      .error ⟨some 7, .unrecognized "NOP".toList .opcode⟩ := by decide +kernel
  obtain ⟨fault, hfault, -, hsolve⟩ := malformed_token_reported ht hr 7
  rw [hs, Except.error.injEq, Diagnostic.mk.injEq] at hsolve
  obtain ⟨-, rfl⟩ := hsolve
  exact ⟨hfault, hs⟩

/-- A line in which two tokens are for one unit, or two branches have different targets, is never
solved. It is reported as unsatisfiable if every rotation is cut short by a conflict of operands,
and otherwise by a fault of its tokens; two such tokens side by side are always reported. -/
theorem violation_reported_unless_cut_short {labels : LabelTable} {tokens : List Text}
    (h : Violated labels tokens) (line : Nat) :
    ((∀ start < tokens.length, CutShort labels (tokens.rotateLeft start)) →
      solve labels tokens line = .error ⟨some line, .unsatisfiable⟩) ∧
    ((∃ start < tokens.length, ¬CutShort labels (tokens.rotateLeft start)) →
      ∃ fault, HardFault labels tokens fault ∧ fault.isHard = true ∧
        solve labels tokens line = .error ⟨some line, fault⟩) ∧
    ∀ start x y rest, tokens.rotateLeft start = x :: y :: rest → Violated labels [x, y] →
      ¬CutShort labels (tokens.rotateLeft start) := by
  simp only [cutShort_iff]
  refine ⟨?_, ?_, ?_⟩
  · intro hcut
    have hstarts : ∀ n ∈ List.range tokens.length,
        readRotation labels tokens n = .error .inconsistent :=
      fun n hn => hcut n (List.mem_range.1 hn)
    rw [solve, settle, firstConsistent_eq_unsatisfiable hstarts]
    rfl
  · intro hex
    exact exists_hardFault_of_solve (fun n s => readRotation_ne_ok_of_violated h n) hex line
  · intro start x y rest hrot hv
    rw [hrot, ← cutShort_iff]
    exact not_cutShort_of_neighbours hv

/-- The first rotation is cut short. The last one begins with the two tokens for W. -/
theorem second_w_reported :
    Violated {} ["W=A+B".toList, "C=B-A".toList, "W=1".toList] ∧
    HardFault {} ["W=A+B".toList, "C=B-A".toList, "W=1".toList] (.unitUsedTwice .w) ∧
    solve {} ["W=A+B".toList, "C=B-A".toList, "W=1".toList] 1 =
      .error ⟨some 1, .unitUsedTwice .w⟩ := by
  have hv : Violated {} ["W=A+B".toList, "C=B-A".toList, "W=1".toList] :=
    Or.inl ⟨.w, by decide⟩
  have hs : solve {} ["W=A+B".toList, "C=B-A".toList, "W=1".toList] 1 =
      .error ⟨some 1, .unitUsedTwice .w⟩ := by decide +kernel
  obtain ⟨-, hreported, hneighbours⟩ := violation_reported_unless_cut_short hv 1
  have hcut := hneighbours 2 "W=1".toList "W=A+B".toList ["C=B-A".toList] (by decide)
    (Or.inl ⟨.w, by decide⟩)
  obtain ⟨fault, hfault, -, hsolve⟩ := hreported ⟨2, by decide, hcut⟩
  rw [hs, Except.error.injEq, Diagnostic.mk.injEq] at hsolve
  obtain ⟨-, rfl⟩ := hsolve
  exact ⟨hv, hfault, hs⟩

/-- A second token for B, and a second target, that no rotation comes to. -/
theorem violations_hidden_by_conflicts :
    (DrivenTwice ["B=A+B".toList, "C=B-A".toList, "B=A+B".toList, "W=B-A".toList] .b ∧
      solve {} ["B=A+B".toList, "C=B-A".toList, "B=A+B".toList, "W=B-A".toList] 1 =
        .error ⟨some 1, .unsatisfiable⟩) ∧
    ¬(targets ⟨[("X".toList, 70), ("Y".toList, 80)]⟩
      ["JMP X".toList, "W=1".toList, "DECNZ Y".toList, "B=2".toList]).Subsingleton ∧
    solve ⟨[("X".toList, 70), ("Y".toList, 80)]⟩
        ["JMP X".toList, "W=1".toList, "DECNZ Y".toList, "B=2".toList] 1 =
      .error ⟨some 1, .unsatisfiable⟩ := by
  refine ⟨⟨by decide, by decide +kernel⟩, ?_, by decide +kernel⟩
  intro hsub
  have hx : (70 : Address) ∈ targets ⟨[("X".toList, 70), ("Y".toList, 80)]⟩
      ["JMP X".toList, "W=1".toList, "DECNZ Y".toList, "B=2".toList] :=
    ⟨"JMP X".toList, by decide, .j, 1,
      @ReadsAs.branch _ .j 1 "JMP ".toList "X".toList 70 (by decide) rfl⟩
  have hy : (80 : Address) ∈ targets ⟨[("X".toList, 70), ("Y".toList, 80)]⟩
      ["JMP X".toList, "W=1".toList, "DECNZ Y".toList, "B=2".toList] :=
    ⟨"DECNZ Y".toList, by decide, .c, 3,
      @ReadsAs.branch _ .c 3 "DECNZ ".toList "Y".toList 80 (by decide) rfl⟩
  exact absurd (hsub hx hy) (by decide)

end MicroAsm
