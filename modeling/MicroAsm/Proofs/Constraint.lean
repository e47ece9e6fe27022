import Mathlib.Data.Set.Subsingleton
import MicroAsm.Proofs.Rotation
/-!
When a line without a fault is unsatisfiable. The tokens are taken together, in no order: the
operations that they name, the constants that they bring, among them a zero that no longer can be
an operation, and the targets of their branches.
-/
namespace MicroAsm
open LineState

section Sets
variable (labels : LabelTable) (tokens : List Text)

/-- The operations that are named otherwise than by a zero of B or W. -/
def namedOps : Set AluOp :=
  {op | ∃ token ∈ tokens, ∃ u n, ReadsAs labels token u (.operation n op) ∧ ¬IsZero token u}

/-- A zero of B or W counts as a constant if another token names an operation that is not zero. -/
def constants : Set Int :=
  {v | ∃ token ∈ tokens, ∃ u, ReadsAs labels token u (.constant v) ∧ ¬IsZero token u} ∪
  {v | v = 0 ∧ (∃ token ∈ tokens, ∃ u, IsZero token u) ∧ ∃ op ∈ namedOps labels tokens, op ≠ .zero}

def targets : Set Address :=
  {t | ∃ token ∈ tokens, ∃ u n, ReadsAs labels token u (.branch n t)}

inductive Conflict : Prop where
  | operations {op op' : AluOp} (h : op ∈ namedOps labels tokens)
    (h' : op' ∈ namedOps labels tokens) (hne : op ≠ op')
  | constants {v v' : Int} (h : v ∈ constants labels tokens) (h' : v' ∈ constants labels tokens)
    (hne : v ≠ v')
  | field {v : Int} {t : Address} (hv : v ∈ MicroAsm.constants labels tokens)
    (ht : t ∈ targets labels tokens) (hne : v ≠ t.toNat)
    (hsplit : ¬(t.toNat < 64 ∧ -32 ≤ v ∧ v ≤ 31))

end Sets

section Mono
variable {labels : LabelTable} {tokens more : List Text}

theorem namedOps_mono (hsub : tokens ⊆ more) : namedOps labels tokens ⊆ namedOps labels more := by
  rintro op ⟨token, hmem, hr⟩
  exact ⟨token, hsub hmem, hr⟩

theorem targets_mono (hsub : tokens ⊆ more) : targets labels tokens ⊆ targets labels more := by
  rintro t ⟨token, hmem, hr⟩
  exact ⟨token, hsub hmem, hr⟩

/-- A zero that is a constant stays one, since the operation beside it stays. -/
theorem constants_mono (hsub : tokens ⊆ more) :
    constants labels tokens ⊆ constants labels more := by
  rintro v (⟨token, hmem, hr⟩ | ⟨rfl, ⟨token, hmem, hz⟩, op, hop, hne⟩)
  · exact Or.inl ⟨token, hsub hmem, hr⟩
  · exact Or.inr ⟨rfl, ⟨token, hsub hmem, hz⟩, op, namedOps_mono hsub hop, hne⟩

theorem Conflict.mono (hsub : tokens ⊆ more) (h : Conflict labels tokens) :
    Conflict labels more := by
  cases h with
  | operations h h' hne => exact .operations (namedOps_mono hsub h) (namedOps_mono hsub h') hne
  | constants h h' hne => exact .constants (constants_mono hsub h) (constants_mono hsub h') hne
  | field hv ht hne hsplit =>
    exact .field (constants_mono hsub hv) (targets_mono hsub ht) hne hsplit

end Mono

section Clauses
variable {labels : LabelTable} {tokens : List Text} {cs : List Clause} {s : LineState}

theorem mem_namedOps_iff (hm : List.Forall₂ (Means labels) tokens cs) {op : AluOp} :
    op ∈ namedOps labels tokens ↔ ∃ c ∈ cs, c.op? = some op := by
  constructor
  · intro hex
    obtain ⟨token, ht, u, n, hr, hz⟩ := hex
    exact ⟨_, (mem_clauses_iff hm).2 ⟨token, ht, .definite hr hz⟩, rfl⟩
  · intro hex
    obtain ⟨c, hc, ho⟩ := hex
    obtain ⟨token, ht, hmeans⟩ := (mem_clauses_iff hm).1 hc
    obtain ⟨n, hn⟩ := Clause.op?_eq_some_iff.1 ho
    cases hmeans with
    | zero => contradiction
    | definite hr hz =>
      obtain rfl := Meaning.definite.inj hn
      exact ⟨token, ht, _, n, hr, hz⟩

theorem mem_targets_iff (hm : List.Forall₂ (Means labels) tokens cs) {t : Address} :
    t ∈ targets labels tokens ↔ ∃ c ∈ cs, c.target? = some t := by
  constructor
  · intro hex
    obtain ⟨token, hmem, u, n, hr⟩ := hex
    exact ⟨_, (mem_clauses_iff hm).2 ⟨token, hmem, .definite hr (not_isZero_of_branch hr)⟩, rfl⟩
  · intro hex
    obtain ⟨c, hc, ht⟩ := hex
    obtain ⟨token, hmem, hmeans⟩ := (mem_clauses_iff hm).1 hc
    cases hmeans with
    | zero => contradiction
    | definite hr =>
      obtain ⟨n, rfl⟩ := Sense.target?_eq_some_iff.1 ht
      exact ⟨token, hmem, _, n, hr⟩

theorem contested_iff (hm : List.Forall₂ (Means labels) tokens cs) :
    Contested cs ↔ ∃ op ∈ namedOps labels tokens, op ≠ .zero := by
  constructor
  · intro hex
    obtain ⟨c, hc, op, ho, hne⟩ := hex
    exact ⟨op, (mem_namedOps_iff hm).2 ⟨c, hc, ho⟩, hne⟩
  · intro hex
    obtain ⟨op, hop, hne⟩ := hex
    obtain ⟨c, hc, ho⟩ := (mem_namedOps_iff hm).1 hop
    exact ⟨c, hc, op, ho, hne⟩

theorem Settled.alu_of_namedOps (hm : List.Forall₂ (Means labels) tokens cs) (h : Settled cs s)
    {op : AluOp} (hop : op ∈ namedOps labels tokens) : s.alu = some op := by
  obtain ⟨c, hc, ho⟩ := (mem_namedOps_iff hm).1 hop
  exact h.alu_of_op hc ho

/-- The zeros of a line are all read alike. -/
theorem Settled.senseIn_zero (hm : List.Forall₂ (Means labels) tokens cs) (h : Settled cs s)
    (u : FuncUnit) :
    ((∀ op ∈ namedOps labels tokens, op = .zero) →
      (Clause.mk u .zero).senseIn s = .operation 2 .zero) ∧
    ((∃ op ∈ namedOps labels tokens, op ≠ .zero) →
      (Clause.mk u .zero).senseIn s = .constant 0) := by
  constructor
  · intro hz
    apply Meaning.sense_zero_of_all
    rw [h.all_zero_iff, contested_iff hm]
    intro hex
    obtain ⟨op, hop, hne⟩ := hex
    exact hne (hz op hop)
  · intro hn
    apply Meaning.sense_zero_of_not_all
    rw [← Bool.not_eq_true, h.all_zero_iff, contested_iff hm, not_not]
    exact hn

theorem Settled.literal_of_constants (hm : List.Forall₂ (Means labels) tokens cs)
    (h : Settled cs s) {v : Int} (hv : v ∈ constants labels tokens) : s.literal = some v := by
  rw [h.literal]
  rcases hv with ⟨token, ht, u, hr, hz⟩ | ⟨rfl, ⟨token, ht, u, hz⟩, hn⟩
  · exact ⟨_, (mem_clauses_iff hm).2 ⟨token, ht, .definite hr hz⟩, rfl⟩
  · refine ⟨_, (mem_clauses_iff hm).2 ⟨token, ht, .zero hz⟩, ?_⟩
    rw [(h.senseIn_zero hm u).2 hn]
    rfl

theorem Settled.target_of_targets (hm : List.Forall₂ (Means labels) tokens cs)
    (h : Settled cs s) {t : Address} (ht : t ∈ targets labels tokens) : s.target = some t := by
  obtain ⟨c, hc, hct⟩ := (mem_targets_iff hm).1 ht
  rw [h.target]
  exact ⟨c, hc, (c.target?_senseIn s).trans hct⟩

theorem Settled.not_conflict (hm : List.Forall₂ (Means labels) tokens cs) (h : Settled cs s) :
    ¬Conflict labels tokens := by
  rintro (⟨hop, hop', hne⟩ | ⟨hv, hv', hne⟩ | ⟨hv, ht, hne, hsplit⟩)
  · have he := (h.alu_of_namedOps hm hop).symm.trans (h.alu_of_namedOps hm hop')
    exact hne (Option.some.inj he)
  · have he := (h.literal_of_constants hm hv).symm.trans (h.literal_of_constants hm hv')
    exact hne (Option.some.inj he)
  · have hs := h.shared _ (h.target_of_targets hm ht) _ (h.literal_of_constants hm hv)
    rcases shareField_iff.1 hs with he | he
    · exact hne he
    · exact hsplit he

theorem exists_option {α : Type} {p : Set α} (h : p.Subsingleton) :
    ∃ o : Option α, ∀ a, o = some a ↔ a ∈ p := by
  rcases p.eq_empty_or_nonempty with rfl | ⟨a, ha⟩
  · exact ⟨none, by simp⟩
  · refine ⟨some a, ?_⟩
    intro b
    rw [Option.some.injEq]
    constructor
    · rintro rfl
      exact ha
    · intro hb
      exact h ha hb

/-- A state that binds what the tokens ask for. Without a named operation, zero may be one. -/
structure Binds (labels : LabelTable) (tokens : List Text) (b : LineState) : Prop where
  named : ∀ op ∈ namedOps labels tokens, b.alu = some op
  alu : ∃ op, b.alu = some op ∧ (op ≠ .zero → op ∈ namedOps labels tokens)
  literal : ∀ v ∈ constants labels tokens, b.literal = some v
  target : ∀ t ∈ targets labels tokens, b.target = some t
  shared : Shares b.target b.literal

theorem exists_binds (ht : (targets labels tokens).Subsingleton) (hn : ¬Conflict labels tokens) :
    ∃ b, Binds labels tokens b := by
  have hsub : (namedOps labels tokens).Subsingleton := by
    intro op hop op' hop'
    by_contra hne
    exact hn (.operations hop hop' hne)
  have vsub : (constants labels tokens).Subsingleton := by
    intro v hv v' hv'
    by_contra hne
    exact hn (.constants hv hv' hne)
  obtain ⟨op?, hop⟩ := exists_option hsub
  obtain ⟨v?, hv⟩ := exists_option vsub
  obtain ⟨t?, ht⟩ := exists_option ht
  refine ⟨{ alu := op?.or (some .zero), literal := v?, target := t? }, ?_, ?_, ?_, ?_, ?_⟩
  · intro op h
    simp [(hop op).2 h]
  · cases ho : op? with
    | none => exact ⟨.zero, rfl, fun h => absurd rfl h⟩
    | some op => exact ⟨op, rfl, fun _ => (hop op).1 ho⟩
  · intro v h
    exact (hv v).2 h
  · intro t h
    exact (ht t).2 h
  · intro t htt v hvv
    rw [shareField_iff]
    by_contra hns
    rw [not_or] at hns
    exact hn (.field ((hv v).1 hvv) ((ht t).1 htt) hns.1 hns.2)

namespace Binds
variable {b : LineState} (hb : Binds labels tokens b)
include hb

/-- What a state binds for the tokens, it has room for. -/
theorem hasRoom (hm : List.Forall₂ (Means labels) tokens cs) {c : Clause} (hc : c ∈ cs) :
    HasRoom b (c.senseIn b) := by
  obtain ⟨token, hmem, hmeans⟩ := (mem_clauses_iff hm).1 hc
  cases hmeans with
  | zero hz =>
    obtain ⟨op, ho, hnamed⟩ := hb.alu
    by_cases h0 : op = .zero
    · subst h0
      have hall : b.alu.all (· == .zero) = true := by simp [ho]
      rw [Clause.senseIn, Meaning.sense_zero_of_all hall]
      exact ⟨fun op h => ho.trans h, within_none, within_none⟩
    · have hall : b.alu.all (· == .zero) = false := by simpa [ho] using h0
      rw [Clause.senseIn, Meaning.sense_zero_of_not_all hall]
      refine ⟨within_none, ?_, within_none⟩
      intro v h
      obtain rfl : 0 = v := Option.some.inj h
      exact hb.literal 0 (Or.inr ⟨rfl, ⟨token, hmem, _, hz⟩, op, hnamed h0, h0⟩)
  | definite hr hz =>
    refine ⟨?_, ?_, ?_⟩
    · intro op ho
      obtain ⟨n, rfl⟩ := Sense.alu?_eq_some_iff.1 ho
      exact hb.named op ⟨token, hmem, _, n, hr, hz⟩
    · intro v hl
      obtain rfl := Sense.literal?_eq_some_iff.1 hl
      exact hb.literal v (Or.inl ⟨token, hmem, _, hr, hz⟩)
    · intro t hl
      obtain ⟨n, rfl⟩ := Sense.target?_eq_some_iff.1 hl
      exact hb.target t ⟨token, hmem, _, n, hr⟩

/-- An operation that zero has to give way to is named by a clause. -/
theorem exists_op (hm : List.Forall₂ (Means labels) tokens cs)
    (ha : b.alu.all (· == .zero) = false) : ∃ c ∈ cs, c.op? = b.alu := by
  obtain ⟨op, ho, hnamed⟩ := hb.alu
  have hne : op ≠ .zero := by simpa [ho] using ha
  rw [ho]
  exact (mem_namedOps_iff hm).1 (hnamed hne)

end Binds

/-- Only a line with a conflict has no state to settle in. -/
theorem exists_settled_iff (hm : List.Forall₂ (Means labels) tokens cs)
    (hu : (cs.map Clause.unit).Nodup) (ht : (targets labels tokens).Subsingleton) :
    (∃ s, Settled cs s) ↔ ¬Conflict labels tokens := by
  constructor
  · intro hex
    obtain ⟨s, hs⟩ := hex
    exact hs.not_conflict hm
  · intro hn
    obtain ⟨b, hb⟩ := exists_binds ht hn
    by_cases hne : cs = []
    · subst hne
      exact ⟨{}, .nil⟩
    · obtain ⟨start, -, s, hs⟩ := exists_rotation_of_room hb.shared (fun c hc => hb.hasRoom hm hc)
        hu hne (hb.exists_op hm)
      have hp := rotateLeft_perm cs start
      have hd : ∀ c ∈ cs.rotateLeft start, c.Drives :=
        fun c hc => drives_of_forall₂ hm c (hp.mem_iff.1 hc)
      exact ⟨s, (Settled.of_acceptAll hd hs).perm hp⟩

end Clauses

section Lines
variable {labels : LabelTable} {tokens : List Text} {cs : List Clause} {s : LineState}

theorem exists_clauses_of_read
    (h : ∀ token ∈ tokens, ∃ r, (LineState.read {} labels token).1 = .ok r) :
    ∃ cs, List.Forall₂ (Means labels) tokens cs := by
  rw [exists_forall₂_iff]
  intro token ht
  obtain ⟨r, hr⟩ := h token ht
  exact exists_means_of_read hr

theorem units_nodup (hm : List.Forall₂ (Means labels) tokens cs)
    (h : tokens.Pairwise fun x y => ∀ r r', (LineState.read {} labels x).1 = .ok r →
      (LineState.read {} labels y).1 = .ok r' → r.unit ≠ r'.unit) :
    (cs.map Clause.unit).Nodup := by
  induction hm with
  | nil => exact List.nodup_nil
  | cons hc hcs ih =>
    rw [List.pairwise_cons] at h
    rw [List.map_cons, List.nodup_cons]
    refine ⟨?_, ih h.2⟩
    intro hu
    obtain ⟨d, hd, he⟩ := List.mem_map.1 hu
    obtain ⟨y, hy, hyd⟩ := (mem_clauses_iff hcs).1 hd
    obtain ⟨r, hr, hru⟩ := hc.read_empty
    obtain ⟨r', hr', hru'⟩ := hyd.read_empty
    exact h.1 y hy r r' hr hr' (by rw [hru, hru', he])

theorem clean_of_targets (hm : List.Forall₂ (Means labels) tokens cs)
    (hu : (cs.map Clause.unit).Nodup) (ht : (targets labels tokens).Subsingleton) : Clean cs where
  units := hu
  targets c hc d hd _ ha _ hb :=
    ht ((mem_targets_iff hm).2 ⟨c, hc, ha⟩) ((mem_targets_iff hm).2 ⟨d, hd, hb⟩)

theorem firstConsistent_eq_unsatisfiable {attempt : Nat → Except Refusal LineState}
    {starts : List Nat} (h : ∀ n ∈ starts, attempt n = .error .inconsistent) :
    firstConsistent attempt starts = .error .unsatisfiable := by
  induction starts with
  | nil => rfl
  | cons n starts ih =>
    rw [firstConsistent, h n List.mem_cons_self]
    exact ih fun m hm => h m (List.mem_cons_of_mem n hm)

/-- In a line without a fault, the search finds nothing only where there is nothing. -/
theorem settle_eq_unsatisfiable (hm : List.Forall₂ (Means labels) tokens cs) (hc : Clean cs)
    (hn : ¬∃ s, Settled cs s) : settle labels tokens = .error .unsatisfiable := by
  apply firstConsistent_eq_unsatisfiable
  intro n _
  cases hr : readRotation labels tokens n with
  | ok s =>
    obtain ⟨ds, hds, hs⟩ := settled_of_readRotation (.refl tokens) hr
    obtain rfl := forall₂_means_unique hds hm
    exact absurd ⟨s, hs⟩ hn
  | error e =>
    cases e with
    | inconsistent => rfl
    | hard f => exact absurd hr (readRotation_ne_hard hm hc n f)

/-- All zeros of a settled line drive their units alike. -/
theorem Settled.zero_reading (hm : List.Forall₂ (Means labels) tokens cs) (h : Settled cs s)
    {token : Text} (ht : token ∈ tokens) {u : FuncUnit} (hz : IsZero token u) :
    ((∀ op ∈ namedOps labels tokens, op = .zero) →
      s.selectors.get u = 2 ∧ s.alu = some .zero) ∧
    ((∃ op ∈ namedOps labels tokens, op ≠ .zero) →
      s.selectors.get u = 3 ∧ s.literal = some 0) := by
  have hc : ⟨u, .zero⟩ ∈ cs := (mem_clauses_iff hm).2 ⟨token, ht, .zero hz⟩
  have hsel := h.selector _ hc
  have hroom := h.hasRoom hc
  constructor
  · intro hall
    rw [(h.senseIn_zero hm u).1 hall] at hsel hroom
    exact ⟨hsel, hroom.alu _ rfl⟩
  · intro hex
    rw [(h.senseIn_zero hm u).2 hex] at hsel hroom
    exact ⟨hsel, hroom.literal _ rfl⟩

theorem pack_ne_unsatisfiable (s : LineState) (line : Nat) :
    atLine line s.pack ≠ .error ⟨some line, .unsatisfiable⟩ := by
  unfold pack
  split_ifs <;> simp [atLine, Except.mapError]

end Lines

/-- If every token can be read on its own, no two drive the same unit and no two branches differ
in their targets, then conflicting sets of operations, constants and targets are all that makes
the line unsatisfiable. Otherwise the search succeeds, and reads all zeros alike. -/
theorem solve_unsatisfiable_iff_conflict {labels : LabelTable} {tokens : List Text}
    (hne : tokens ≠ [])
    (hread : ∀ token ∈ tokens, ∃ r, (LineState.read {} labels token).1 = .ok r)
    (hunits : tokens.Pairwise fun x y => ∀ r r', (LineState.read {} labels x).1 = .ok r →
      (LineState.read {} labels y).1 = .ok r' → r.unit ≠ r'.unit)
    (htargets : (targets labels tokens).Subsingleton) (line : Nat) :
    (solve labels tokens line = .error ⟨some line, .unsatisfiable⟩ ↔ Conflict labels tokens) ∧
    (¬Conflict labels tokens → ∃ s,
      (∃ start < tokens.length, readRotation labels tokens start = .ok s) ∧
      settle labels tokens = .ok s ∧ solve labels tokens line = atLine line s.pack ∧
      ∀ token ∈ tokens, ∀ u, IsZero token u →
        ((∀ op ∈ namedOps labels tokens, op = .zero) →
          s.selectors.get u = 2 ∧ s.alu = some .zero) ∧
        ((∃ op ∈ namedOps labels tokens, op ≠ .zero) →
          s.selectors.get u = 3 ∧ s.literal = some 0)) := by
  obtain ⟨cs, hm⟩ := exists_clauses_of_read hread
  have hu := units_nodup hm hunits
  have hiff := exists_settled_iff hm hu htargets
  constructor
  · constructor
    · intro hs
      by_contra hn
      obtain ⟨s, hset⟩ := hiff.2 hn
      rw [solve_of_settle (settle_eq_ok_of_settled hm hset hne)] at hs
      exact pack_ne_unsatisfiable s line hs
    · intro hc
      have hns : ¬∃ s, Settled cs s := fun hs => hiff.1 hs hc
      rw [solve, settle_eq_unsatisfiable hm (clean_of_targets hm hu htargets) hns]
      rfl
  · intro hn
    obtain ⟨s, hset⟩ := hiff.2 hn
    have hsettle := settle_eq_ok_of_settled hm hset hne
    obtain ⟨start, hlt, hok⟩ := exists_of_firstConsistent hsettle
    exact ⟨s, ⟨start, List.mem_range.1 hlt, hok⟩, hsettle, solve_of_settle hsettle line,
      fun token ht u hz => hset.zero_reading hm ht hz⟩

/-- `B=0` beside `W=A+B` is a constant, which shares the value field with the target of a branch;
the target 70 leaves no room for it. -/
theorem zero_beside_branch :
    ¬Conflict ⟨[("X".toList, 5)]⟩ ["B=0".toList, "W=A+B".toList, "JMP X".toList] ∧
    Conflict ⟨[("X".toList, 70)]⟩ ["B=0".toList, "W=A+B".toList, "JMP X".toList] := by
  have hb (t : Address) : (LineState.read {} ⟨[("X".toList, t)]⟩ "B=0".toList).1 =
      .ok ⟨.b, 2, false⟩ := rfl
  have hw (t : Address) : (LineState.read {} ⟨[("X".toList, t)]⟩ "W=A+B".toList).1 =
      .ok ⟨.w, 2, false⟩ := rfl
  have hj (t : Address) : (LineState.read {} ⟨[("X".toList, t)]⟩ "JMP X".toList).1 =
      .ok ⟨.j, 1, false⟩ := rfl
  have hread (t : Address) : ∀ token ∈ ["B=0".toList, "W=A+B".toList, "JMP X".toList],
      ∃ r, (LineState.read {} ⟨[("X".toList, t)]⟩ token).1 = .ok r := by
    simp only [List.mem_cons, List.not_mem_nil, or_false, forall_eq_or_imp, forall_eq]
    exact ⟨⟨_, hb t⟩, ⟨_, hw t⟩, ⟨_, hj t⟩⟩
  have hunits (t : Address) : ["B=0".toList, "W=A+B".toList, "JMP X".toList].Pairwise
      fun x y => ∀ r r', (LineState.read {} ⟨[("X".toList, t)]⟩ x).1 = .ok r →
        (LineState.read {} ⟨[("X".toList, t)]⟩ y).1 = .ok r' → r.unit ≠ r'.unit := by
    simp only [List.pairwise_cons, List.mem_cons, List.not_mem_nil, or_false, forall_eq_or_imp,
      forall_eq, hb, hw, hj, Except.ok.injEq]
    refine ⟨⟨?_, ?_⟩, ?_, by simp, .nil⟩
    · rintro r r' rfl rfl
      decide
    · rintro r r' rfl rfl
      decide
    · rintro r r' rfl rfl
      decide
  have htargets (t : Address) : (targets ⟨[("X".toList, t)]⟩
      ["B=0".toList, "W=A+B".toList, "JMP X".toList]).Subsingleton := by
    have ht : ∀ t' ∈ targets ⟨[("X".toList, t)]⟩
        ["B=0".toList, "W=A+B".toList, "JMP X".toList], t' = t := by
      rintro t' ⟨token, -, u, n, hr⟩
      cases hr with
      | branch _ hget =>
        obtain ⟨e, he, rfl⟩ := Option.map_eq_some_iff.1 hget
        have hmem := List.mem_of_find?_eq_some he
        rw [List.mem_singleton.1 hmem]
    intro x hx y hy
    rw [ht x hx, ht y hy]
  have h (t : Address) := (solve_unsatisfiable_iff_conflict (List.cons_ne_nil _ _) (hread t)
    (hunits t) (htargets t) 1).1
  constructor
  · intro hc
    have hs := (h 5).2 hc
    have hok : solve ⟨[("X".toList, 5)]⟩ ["B=0".toList, "W=A+B".toList, "JMP X".toList] 1 =
        .ok { b := 3, w := 2, j := 1, alu := 5, twoConstants := true, value := 5 } := by
      decide +kernel
    cases hok.symm.trans hs
  · apply (h 70).1
    decide +kernel

end MicroAsm
