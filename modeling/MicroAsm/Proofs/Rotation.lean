import MicroAsm.Line.Solution
import MicroAsm.Proofs.Meanings
import MicroAsm.Proofs.Room
/-!
Rotations are enough: if a line that is not empty can be read in any order of its tokens, then one
of its rotations reads it, no rotation reads it differently, and none of them is a fault.
-/
namespace MicroAsm
open LineState

theorem rotateLeft_eq {α : Type} (l : List α) (n : Nat) :
    l.rotateLeft n = l ∨ l.rotateLeft n = l.drop (n % l.length) ++ l.take (n % l.length) :=
  ite_eq_or_eq (l.length ≤ 1) l _

theorem rotateLeft_perm {α : Type} (l : List α) (n : Nat) : (l.rotateLeft n).Perm l := by
  rcases rotateLeft_eq l n with h | h
  · rw [h]
  · rw [h]
    exact List.perm_append_comm.trans (by rw [List.take_append_drop])

theorem rotateLeft_length_append {α : Type} (l r : List α) (a : α) :
    (l ++ a :: r).rotateLeft l.length = a :: r ++ l := by
  by_cases h : (l ++ a :: r).length ≤ 1
  · have hl : l = [] := List.eq_nil_of_length_eq_zero (by simp at h; omega)
    rw [hl, List.length_nil, List.rotateLeft_zero, List.append_nil, List.nil_append]
  · have hlen : l.length < (l ++ a :: r).length := by simp
    simp only [List.rotateLeft]
    rw [if_neg h, Nat.mod_eq_of_lt hlen, List.drop_left, List.take_left]

section Clauses
variable {cs ds : List Clause} {s b : LineState}

theorem taken_empty (u : FuncUnit) : taken {} u = false := by cases u <;> rfl

/-- With room for all clauses, some rotation is accepted: any one, or the one that starts with the
operation that zero has to give way to. -/
theorem exists_rotation_of_room (hb : Shares b.target b.literal)
    (hc : ∀ c ∈ cs, HasRoom b (c.senseIn b)) (hn : (cs.map Clause.unit).Nodup) (hne : cs ≠ [])
    (hz : b.alu.all (· == .zero) = false → ∃ c ∈ cs, c.op? = b.alu) :
    ∃ start < cs.length, ∃ t, acceptAll {} (cs.rotateLeft start) = .ok t := by
  cases ha : b.alu.all (· == .zero) with
  | true =>
    refine ⟨0, List.length_pos_iff.2 hne, ?_⟩
    rw [List.rotateLeft_zero]
    exact (below_empty b).acceptAll hb (Or.inl ha) hc hn fun c _ => taken_empty c.unit
  | false =>
    obtain ⟨c, hm, ho⟩ := hz ha
    obtain ⟨l, r, rfl⟩ := List.append_of_mem hm
    refine ⟨l.length, by simp, ?_⟩
    have hp := rotateLeft_perm (l ++ c :: r) l.length
    rw [rotateLeft_length_append] at hp ⊢
    have hsome : b.alu ≠ none := by
      intro h
      simp [h] at ha
    exact (below_empty b).acceptAll_of_op hb ho hsome (fun d hd => hc d (hp.mem_iff.1 hd))
      ((hp.map Clause.unit).nodup_iff.2 hn) fun d _ => taken_empty d.unit

theorem Settled.exists_rotation (h : Settled cs s) (hd : ∀ c ∈ cs, c.Drives) (hne : cs ≠ []) :
    ∃ start < cs.length, acceptAll {} (cs.rotateLeft start) = .ok s := by
  have hz : s.alu.all (· == .zero) = false → ∃ c ∈ cs, c.op? = s.alu := by
    intro ha
    have hcon : Contested cs := by
      by_contra hn
      rw [h.all_zero_iff.2 hn] at ha
      contradiction
    obtain ⟨c, hc, op, ho, -⟩ := hcon
    exact ⟨c, hc, by rw [ho, h.alu_of_op hc ho]⟩
  obtain ⟨start, hlt, t, ht⟩ :=
    exists_rotation_of_room h.shared (fun c hc => h.hasRoom hc) h.units hne hz
  have hp := rotateLeft_perm cs start
  have hset : Settled cs t :=
    (Settled.of_acceptAll (fun c hc => hd c (hp.mem_iff.1 hc)) ht).perm hp
  rw [hset.unique h] at ht
  exact ⟨start, hlt, ht⟩

end Clauses

theorem exists_forall₂_iff {α β : Type} {R : α → β → Prop} {as : List α} :
    (∃ bs, List.Forall₂ R as bs) ↔ ∀ a ∈ as, ∃ b, R a b := by
  induction as with
  | nil => simp
  | cons a as ih =>
    rw [List.forall_mem_cons, ← ih]
    simp only [List.forall₂_cons_left_iff]
    constructor
    · rintro ⟨_, b, bs, hb, hbs, rfl⟩
      exact ⟨⟨b, hb⟩, bs, hbs⟩
    · rintro ⟨⟨b, hb⟩, bs, hbs⟩
      exact ⟨_, b, bs, hb, hbs, rfl⟩

section Tokens
variable {labels : LabelTable} {tokens tokens' : List Text} {cs : List Clause} {s t : LineState}

theorem foldlM_assign (h : List.Forall₂ (Means labels) tokens cs) (s : LineState) :
    tokens.foldlM (LineState.assign labels) s = s.acceptAll cs := by
  induction h generalizing s with
  | nil => rfl
  | cons hm _ ih =>
    rw [List.foldlM_cons, assign_of_means hm, acceptAll_cons]
    cases s.accept _ with
    | error e => rfl
    | ok r => exact ih r

/-- Tokens that are accepted in some state all have a meaning. -/
theorem exists_clauses (h : tokens.foldlM (LineState.assign labels) s = .ok t) :
    ∃ cs, List.Forall₂ (Means labels) tokens cs := by
  induction tokens generalizing s with
  | nil => exact ⟨[], .nil⟩
  | cons token tokens ih =>
    rw [List.foldlM_cons, bind_eq_ok_iff] at h
    obtain ⟨r, ha, hr⟩ := h
    have hm : ∃ c, Means labels token c := by
      by_contra hn
      obtain ⟨f, hf⟩ := assign_of_meaningless (not_exists.1 hn) s
      cases hf.symm.trans ha
    obtain ⟨c, hc⟩ := hm
    obtain ⟨cs, hcs⟩ := ih hr
    exact ⟨c :: cs, .cons hc hcs⟩

theorem forall₂_rotateLeft {α β : Type} {r : α → β → Prop} {l : List α} {m : List β}
    (h : List.Forall₂ r l m) (n : Nat) : List.Forall₂ r (l.rotateLeft n) (m.rotateLeft n) := by
  have hlen := h.length_eq
  unfold List.rotateLeft
  simp only [hlen]
  split_ifs
  · exact h
  · exact List.rel_append (List.forall₂_drop _ h) (List.forall₂_take _ h)

theorem readRotation_eq (h : List.Forall₂ (Means labels) tokens cs) (start : Nat) :
    readRotation labels tokens start = acceptAll {} (cs.rotateLeft start) :=
  foldlM_assign (forall₂_rotateLeft h start) {}

theorem drives_of_forall₂ (h : List.Forall₂ (Means labels) tokens cs) : ∀ c ∈ cs, c.Drives := by
  induction h with
  | nil => simp
  | cons hm _ ih => exact List.forall_mem_cons.2 ⟨hm.drives, ih⟩

theorem firstConsistent_eq_ok {attempt : Nat → Except Refusal LineState} {starts : List Nat}
    (h : ∀ n ∈ starts, attempt n = .ok s ∨ attempt n = .error .inconsistent)
    (hex : ∃ n ∈ starts, attempt n = .ok s) : firstConsistent attempt starts = .ok s := by
  induction starts with
  | nil => simp at hex
  | cons n starts ih =>
    rw [firstConsistent]
    rcases h n List.mem_cons_self with hn | hn
    · rw [hn]
    · rw [hn]
      apply ih fun m hm => h m (List.mem_cons_of_mem n hm)
      obtain ⟨m, hm, hok⟩ := hex
      rcases List.mem_cons.1 hm with rfl | hm
      · rw [hn] at hok
        contradiction
      · exact ⟨m, hm, hok⟩

theorem exists_of_firstConsistent {attempt : Nat → Except Refusal LineState} {starts : List Nat}
    (h : firstConsistent attempt starts = .ok s) : ∃ n ∈ starts, attempt n = .ok s := by
  induction starts with
  | nil => simp [firstConsistent] at h
  | cons n starts ih =>
    rw [firstConsistent] at h
    split at h
    · rename_i r hr
      obtain rfl : r = s := Except.ok.inj h
      exact ⟨n, List.mem_cons_self, hr⟩
    · contradiction
    · obtain ⟨m, hm, hok⟩ := ih h
      exact ⟨m, List.mem_cons_of_mem n hm, hok⟩

/-- Whatever order of its tokens reads a line, the line settles in the state that is read. -/
theorem settled_of_readTokens (hp : tokens.Perm tokens') (h : readTokens labels tokens' = .ok s) :
    ∃ cs, List.Forall₂ (Means labels) tokens cs ∧ Settled cs s := by
  obtain ⟨ds, hds⟩ := exists_clauses h
  obtain ⟨cs, hcs, hperm⟩ := List.perm_comp_forall₂ hp hds
  have hset : Settled ds s :=
    Settled.of_acceptAll (drives_of_forall₂ hds) ((foldlM_assign hds {}).symm.trans h)
  exact ⟨cs, hcs, hset.perm hperm.symm⟩

theorem settled_of_readRotation (hp : tokens.Perm tokens') {start : Nat}
    (h : readRotation labels tokens' start = .ok s) :
    ∃ cs, List.Forall₂ (Means labels) tokens cs ∧ Settled cs s :=
  settled_of_readTokens (hp.trans (rotateLeft_perm tokens' start).symm) h

theorem forall₂_means_unique {ds : List Clause} (h : List.Forall₂ (Means labels) tokens cs)
    (h' : List.Forall₂ (Means labels) tokens ds) : cs = ds := by
  have hu : Relator.RightUnique (Means labels) := fun _ _ _ hc hd => hc.unique hd
  exact List.right_unique_forall₂' hu h h'

theorem mem_clauses_iff (hm : List.Forall₂ (Means labels) tokens cs) {c : Clause} :
    c ∈ cs ↔ ∃ token ∈ tokens, Means labels token c := by
  induction hm with
  | nil => simp
  | cons hd _ ih =>
    rw [List.mem_cons, ih]
    constructor
    · rintro (rfl | ⟨token, ht, hc⟩)
      · exact ⟨_, List.mem_cons_self, hd⟩
      · exact ⟨token, List.mem_cons_of_mem _ ht, hc⟩
    · intro hex
      obtain ⟨token, ht, hc⟩ := hex
      rcases List.mem_cons.1 ht with rfl | ht
      · exact Or.inl (hc.unique hd)
      · exact Or.inr ⟨token, ht, hc⟩

/-- In a line without a fault, a rotation is inconsistent if it is not accepted. -/
theorem readRotation_ne_hard (hm : List.Forall₂ (Means labels) tokens cs) (h : Clean cs)
    (start : Nat) (f : Fault) : readRotation labels tokens start ≠ .error (.hard f) := by
  rw [readRotation_eq hm]
  exact (h.perm (rotateLeft_perm cs start).symm).acceptAll_ne_hard (fun c _ => taken_empty c.unit)
    fun c _ => compatible_none_right

theorem settle_eq_ok_of_settled (hm : List.Forall₂ (Means labels) tokens cs) (h : Settled cs s)
    (hne : tokens ≠ []) : settle labels tokens = .ok s := by
  have hne' : cs ≠ [] := by
    intro hnil
    subst hnil
    exact hne (List.forall₂_nil_right_iff.1 hm)
  apply firstConsistent_eq_ok
  · intro n _
    cases hr : readRotation labels tokens n with
    | ok t =>
      obtain ⟨ds, hds, ht⟩ := settled_of_readRotation (.refl tokens) hr
      obtain rfl := forall₂_means_unique hds hm
      exact Or.inl (congrArg Except.ok (ht.unique h))
    | error e =>
      cases e with
      | inconsistent => exact Or.inr rfl
      | hard f => exact absurd hr (readRotation_ne_hard hm h.clean n f)
  · obtain ⟨n, hlt, hok⟩ := h.exists_rotation (drives_of_forall₂ hm) hne'
    refine ⟨n, List.mem_range.2 (hm.length_eq ▸ hlt), ?_⟩
    rw [readRotation_eq hm, hok]

/-- A line is settled if and only if its tokens have meanings that a state accounts for. -/
theorem settle_eq_ok_iff : settle labels tokens = .ok s ↔
    tokens ≠ [] ∧ ∃ cs, List.Forall₂ (Means labels) tokens cs ∧ Settled cs s := by
  constructor
  · intro h
    obtain ⟨n, hn, hr⟩ := exists_of_firstConsistent h
    have hne : tokens ≠ [] := by
      intro hnil
      subst hnil
      simp at hn
    exact ⟨hne, settled_of_readRotation (.refl tokens) hr⟩
  · intro hex
    obtain ⟨hne, cs, hm, h⟩ := hex
    exact settle_eq_ok_of_settled hm h hne

theorem solve_of_settle (h : settle labels tokens = .ok s) (line : Nat) :
    solve labels tokens line = atLine line s.pack := by
  unfold solve
  rw [h]
  rfl

theorem solve_eq_ok_iff {line : Nat} {i : Instruction} :
    solve labels tokens line = .ok i ↔ ∃ s, settle labels tokens = .ok s ∧ s.pack = .ok i := by
  cases h : settle labels tokens with
  | error f => simp [solve, h, atLine, Except.mapError, bind, Except.bind]
  | ok s =>
    rw [solve_of_settle h]
    cases hp : s.pack <;> simp [atLine, Except.mapError, hp]

theorem settle_perm (hp : tokens.Perm tokens') :
    settle labels tokens = .ok s ↔ settle labels tokens' = .ok s := by
  have himp {l l' : List Text} (hp : l.Perm l') (h : settle labels l = .ok s) :
      settle labels l' = .ok s := by
    obtain ⟨hne, cs, hm, hs⟩ := settle_eq_ok_iff.1 h
    obtain ⟨ds, hds, hperm⟩ := List.perm_comp_forall₂ hp.symm hm
    have hne' : l' ≠ [] := by
      intro hnil
      subst hnil
      exact hne hp.eq_nil
    exact settle_eq_ok_iff.2 ⟨hne', ds, hds, hs.perm hperm.symm⟩
  exact ⟨himp hp, himp hp.symm⟩

end Tokens

/-- If some order of a line is read from some start, then so is the line itself, by a search that
meets no fault and ends with the same state; all orders that are read agree on that state, and
solving does not depend on the order. -/
theorem solve_of_any_order {labels : LabelTable} {tokens tokens' : List Text}
    (hp : tokens.Perm tokens') :
    (∀ start s, readRotation labels tokens' start = .ok s → tokens ≠ [] →
      (∃ n < tokens.length, readRotation labels tokens n = .ok s) ∧
      (∀ n f, readRotation labels tokens n ≠ .error (.hard f)) ∧
      settle labels tokens = .ok s ∧
      ∀ line, solve labels tokens line = atLine line s.pack) ∧
    (∀ start start' s s', readRotation labels tokens start = .ok s →
      readRotation labels tokens' start' = .ok s' → s = s') ∧
    ∀ line i, solve labels tokens line = .ok i ↔ solve labels tokens' line = .ok i := by
  refine ⟨?_, ?_, ?_⟩
  · intro start s h hne
    obtain ⟨cs, hm, hs⟩ := settled_of_readRotation hp h
    have hset := settle_eq_ok_of_settled hm hs hne
    obtain ⟨n, hn, hok⟩ := exists_of_firstConsistent hset
    exact ⟨⟨n, List.mem_range.1 hn, hok⟩, readRotation_ne_hard hm hs.clean, hset,
      solve_of_settle hset⟩
  · intro start start' s s' h h'
    obtain ⟨cs, hm, hs⟩ := settled_of_readRotation (.refl tokens) h
    obtain ⟨ds, hm', hs'⟩ := settled_of_readRotation hp h'
    obtain rfl := forall₂_means_unique hm hm'
    exact hs.unique hs'
  · intro line i
    simp only [solve_eq_ok_iff, settle_perm hp]

/-- `B=0` cannot be read before `W=A+B` as an operation, but after it as a constant. -/
theorem solve_of_any_order_zero :
    ["B=0".toList, "W=A+B".toList].Perm ["W=A+B".toList, "B=0".toList] ∧
    solve {} ["B=0".toList, "W=A+B".toList] 1 =
      .ok { b := 3, w := 2, alu := 5 } := by
  have hp : ["B=0".toList, "W=A+B".toList].Perm ["W=A+B".toList, "B=0".toList] :=
    .swap _ _ _
  have hr : readRotation {} ["W=A+B".toList, "B=0".toList] 0 =
      .ok { selectors := { b := 3, w := 2 }, alu := some .add, literal := some 0 } := by
    rfl
  obtain ⟨-, -, -, hsolve⟩ := (solve_of_any_order hp).1 0 _ hr (List.cons_ne_nil _ _)
  exact ⟨hp, hsolve 1⟩

/-- The line without tokens is read in its only order, but has no rotation to try. -/
theorem empty_line_unsolved :
    readRotation {} [] 0 = .ok {} ∧ solve {} [] 1 ≠ atLine 1 ({} : LineState).pack := by
  refine ⟨rfl, ?_⟩
  intro h
  have hs : solve {} [] 1 = .error ⟨some 1, .unsatisfiable⟩ := rfl
  rw [hs] at h
  contradiction

end MicroAsm
