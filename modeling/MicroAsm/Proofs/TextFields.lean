import MicroAsm.Proofs.Columns
import MicroAsm.Proofs.Trimming
/-!
Texts tell instructions apart. Two instructions have the same text if and only if they agree in
every column, which is to say in everything that the machine acts on.
-/
namespace MicroAsm
open Text

section Joined
variable {sep : Text} {ps qs : List Text}

/-- Parts without commas can be told from the joined text, if there are any. -/
theorem intercalate_injective (hps : ∀ p ∈ ps, ',' ∉ p) (hqs : ∀ q ∈ qs, ',' ∉ q) (hp : ps ≠ [])
    (hq : qs ≠ []) (h : (',' :: sep).intercalate ps = (',' :: sep).intercalate qs) : ps = qs := by
  induction ps generalizing qs with
  | nil => contradiction
  | cons p ps ih =>
    cases qs with
    | nil => contradiction
    | cons q qs =>
      have hpc : ',' ∉ p := hps p List.mem_cons_self
      have hqc : ',' ∉ q := hqs q List.mem_cons_self
      cases ps with
      | nil =>
        cases qs with
        | nil => simpa using h
        | cons q' qs =>
          rw [List.intercalate_singleton, List.intercalate_cons_cons] at h
          exact absurd (by simp [h]) hpc
      | cons p' ps =>
        cases qs with
        | nil =>
          rw [List.intercalate_singleton, List.intercalate_cons_cons] at h
          exact absurd (by simp [← h]) hqc
        | cons q' qs =>
          rw [List.intercalate_cons_cons, List.intercalate_cons_cons, List.append_assoc,
            List.append_assoc, List.cons_append, List.cons_append] at h
          have hpq := congrArg (List.takeWhile (· != ',')) h
          rw [takeWhile_append_cons hpc, takeWhile_append_cons hqc] at hpq
          subst hpq
          have hrest := List.append_cancel_left (List.cons.inj (List.append_cancel_left h)).2
          rw [ih (fun r hr => hps r (List.mem_cons_of_mem p hr))
            (fun r hr => hqs r (List.mem_cons_of_mem p hr)) (List.cons_ne_nil _ _)
            (List.cons_ne_nil _ _) hrest]

end Joined

section Text
variable {i k : Instruction}

/-- The text joins parts, or stands for having none, and either way the parts can be had from what
is joined. -/
theorem exists_text_eq (h : i.InRange) : ∃ ps, i.text = ", ".toList.intercalate ps ∧ ps ≠ [] ∧
    (∀ p ∈ ps, OnePart p) ∧
      (i.parts fun _ => none) = ps.filter fun p => (Column.ofPart? p).isSome := by
  have hpart : ∀ p ∈ i.parts fun _ => none, ∃ col : Column, col.text i = some p := by
    intro p hp
    rw [parts_eq h] at hp
    obtain ⟨col, -, hcol⟩ := List.mem_filterMap.1 hp
    exact ⟨col, hcol⟩
  by_cases hne : (i.parts fun _ => none) = []
  · refine ⟨["NOP".toList], ?_, List.cons_ne_nil _ _, by decide, ?_⟩
    · unfold Instruction.text Instruction.textWith
      rw [hne]
      rfl
    · rw [hne]
      rfl
  · refine ⟨_, text_of_parts hne, hne, ?_, ?_⟩
    · intro p hp
      obtain ⟨col, hcol⟩ := hpart p hp
      exact (ofPart?_text h hcol).2
    · symm
      rw [List.filter_eq_self]
      intro p hp
      obtain ⟨col, hcol⟩ := hpart p hp
      rw [(ofPart?_text h hcol).1]
      rfl

theorem text_eq_iff_columns (hi : i.InRange) (hk : k.InRange) :
    i.text = k.text ↔ ∀ col : Column, col.text i = col.text k := by
  rw [← parts_eq_iff hi hk]
  constructor
  · intro h
    obtain ⟨ps, hps, hp, hpc, hpi⟩ := exists_text_eq hi
    obtain ⟨qs, hqs, hq, hqc, hqk⟩ := exists_text_eq hk
    rw [hps, hqs] at h
    rw [hpi, hqk, intercalate_injective (fun p hm => (hpc p hm).1) (fun q hm => (hqc q hm).1)
      hp hq h]
  · intro h
    unfold Instruction.text Instruction.textWith
    rw [h]

end Text

/-- Two instructions do the same: their units are driven alike, and so are the port, the operation,
the literal and the branch target, each if it is used. -/
structure Instruction.ActsAlike (i k : Instruction) : Prop where
  selector : ∀ u, i.get u = k.get u
  port : i.a = 3 ∨ i.o ≠ 0 → i.io = k.io
  alu : i.readsAlu = true → i.alu = k.alu
  literal : i.readsLiteral = true → i.literal = k.literal
  target : i.jumpTarget?.isSome = true → i.branchTarget = k.branchTarget

section Fields
variable {i k : Instruction}

theorem unpack_eq_iff (hi : i.InRange) (hk : k.InRange) :
    (∀ u, i.unpack.selectors.get u = k.unpack.selectors.get u) ↔
      (∀ u, i.get u = k.get u) ∧ (i.a = 3 ∨ i.o ≠ 0 → i.io = k.io) := by
  have hia : i.a ≤ 3 := hi.selector .a
  have hka : k.a ≤ 3 := hk.selector .a
  have hio : i.o ≤ 1 := hi.selector .o
  have hko : k.o ≤ 1 := hk.selector .o
  have ha : i.unpack.selectors.get .a = k.unpack.selectors.get .a ↔
      i.a = k.a ∧ (i.a = 3 → i.io = k.io) := by
    show (if i.a = 3 then 3 + i.io else i.a) = (if k.a = 3 then 3 + k.io else k.a) ↔ _
    split <;> split <;> omega
  have ho : i.unpack.selectors.get .o = k.unpack.selectors.get .o ↔
      i.o = k.o ∧ (i.o ≠ 0 → i.io = k.io) := by
    show (if i.o = 1 then 1 + i.io else i.o) = (if k.o = 1 then 1 + k.io else k.o) ↔ _
    split <;> split <;> omega
  constructor
  · intro h
    refine ⟨?_, ?_⟩
    · intro u
      cases u with
      | a => exact (ha.1 (h .a)).1
      | o => exact (ho.1 (h .o)).1
      | b => exact h .b
      | c => exact h .c
      | d => exact h .d
      | w => exact h .w
      | f => exact h .f
      | j => exact h .j
    · rintro (hport | hport)
      · exact (ha.1 (h .a)).2 hport
      · exact (ho.1 (h .o)).2 hport
  · rintro ⟨hsel, hport⟩ u
    cases u with
    | a => exact ha.2 ⟨hsel .a, fun h => hport (Or.inl h)⟩
    | o => exact ho.2 ⟨hsel .o, fun h => hport (Or.inr h)⟩
    | b => exact hsel .b
    | c => exact hsel .c
    | d => exact hsel .d
    | w => exact hsel .w
    | f => exact hsel .f
    | j => exact hsel .j

theorem unit_columns_eq_iff (hi : i.InRange) (hk : k.InRange) :
    (∀ u, (Column.unit u).text i = (Column.unit u).text k) ↔
      ∀ u, i.unpack.selectors.get u = k.unpack.selectors.get u := by
  constructor
  · intro h u
    exact FuncUnit.mnemonic?_injective (Instruction.selector_unpack_le hi.selector hi.io u)
      (Instruction.selector_unpack_le hk.selector hk.io u) (h u)
  · intro h u
    exact congrArg u.mnemonic? (h u)

/-- An index without an operation is marked. -/
theorem operation_ne_marked (op : AluOp) (n : Nat) :
    "M:".toList ++ op.spelling ≠ "M:?".toList ++ decimal n := by
  have hmark : ∀ op ∈ AluOp.all, op.spelling.head? ≠ some '?' := by decide
  intro h
  have hspelling : op.spelling = '?' :: decimal n :=
    List.append_cancel_left (show "M:".toList ++ _ = "M:".toList ++ '?' :: _ from h)
  exact hmark op op.mem_all (by rw [hspelling, List.head?_cons])

theorem aluPart_eq_iff (h : i.readsAlu = k.readsAlu) :
    i.aluPart = k.aluPart ↔ (i.readsAlu = true → i.alu = k.alu) := by
  unfold Instruction.aluPart Instruction.aluOp?
  rw [← h]
  cases i.readsAlu with
  | false => simp
  | true =>
    simp only [if_true, true_implies]
    constructor
    · intro heq
      cases hop : AluOp.ofIndex? i.alu with
      | some p =>
        cases hoq : AluOp.ofIndex? k.alu with
        | some q =>
          simp only [hop, hoq, Option.some.injEq] at heq
          rw [← AluOp.index_of_ofIndex? hop, ← AluOp.index_of_ofIndex? hoq,
            AluOp.spelling_injective (List.append_cancel_left heq)]
        | none =>
          simp only [hop, hoq, Option.some.injEq] at heq
          exact absurd heq (operation_ne_marked p k.alu)
      | none =>
        cases hoq : AluOp.ofIndex? k.alu with
        | some q =>
          simp only [hop, hoq, Option.some.injEq] at heq
          exact absurd heq.symm (operation_ne_marked q i.alu)
        | none =>
          simp only [hop, hoq, Option.some.injEq] at heq
          exact decimal_injective (List.append_cancel_left heq)
    · intro heq
      rw [heq]

theorem literalPart_eq_iff (h : i.readsLiteral = k.readsLiteral) :
    i.literalPart = k.literalPart ↔ (i.readsLiteral = true → i.literal = k.literal) := by
  unfold Instruction.literalPart
  rw [← h]
  cases i.readsLiteral with
  | false => simp
  | true =>
    simp only [if_true, true_implies, Option.some.injEq]
    constructor
    · intro heq
      exact integer_injective (List.append_cancel_left heq)
    · intro heq
      rw [heq]

theorem targetPart_eq_iff (h : i.branches = k.branches) :
    (i.targetPart fun _ => none) = (k.targetPart fun _ => none) ↔
      (i.jumpTarget?.isSome = true → i.branchTarget = k.branchTarget) := by
  unfold Instruction.targetPart Instruction.jumpTarget?
  rw [← h]
  cases i.branches with
  | false => simp
  | true =>
    simp only [if_true, Option.map_some, Option.isSome_some, true_implies, Option.some.injEq]
    constructor
    · intro heq
      exact UInt8.toNat_inj.1 (decimal_injective (List.append_cancel_left heq))
    · intro heq
      rw [heq]

theorem text_eq_iff_actsAlike (hi : i.InRange) (hk : k.InRange) :
    i.text = k.text ↔ i.ActsAlike k := by
  have hreads (h : ∀ u, i.get u = k.get u) : i.readsAlu = k.readsAlu ∧
      i.readsLiteral = k.readsLiteral ∧ i.branches = k.branches := by
    simp only [Instruction.readsAlu_eq_any, Instruction.readsLiteral_eq_any,
      Instruction.branches_eq_any, h, and_self]
  rw [text_eq_iff_columns hi hk]
  constructor
  · intro h
    obtain ⟨hsel, hport⟩ := (unpack_eq_iff hi hk).1
      ((unit_columns_eq_iff hi hk).1 fun u => h (.unit u))
    obtain ⟨halu, hliteral, htarget⟩ := hreads hsel
    exact ⟨hsel, hport, (aluPart_eq_iff halu).1 (h .alu),
      (literalPart_eq_iff hliteral).1 (h .literal), (targetPart_eq_iff htarget).1 (h .target)⟩
  · intro h col
    obtain ⟨halu, hliteral, htarget⟩ := hreads h.selector
    cases col with
    | unit u =>
      exact (unit_columns_eq_iff hi hk).2 ((unpack_eq_iff hi hk).2 ⟨h.selector, h.port⟩) u
    | alu => exact (aluPart_eq_iff halu).2 h.alu
    | literal => exact (literalPart_eq_iff hliteral).2 h.literal
    | target => exact (targetPart_eq_iff htarget).2 h.target

end Fields

/-- Two words have the same text if and only if their instructions do the same. Neither the bits
that no unit uses nor the layout of the value field shows in it. -/
theorem decoded_text_eq_iff (w₁ w₂ : Word) :
    (Instruction.decode w₁).text = (Instruction.decode w₂).text ↔
      (Instruction.decode w₁).ActsAlike (Instruction.decode w₂) :=
  text_eq_iff_actsAlike (Instruction.inRange_decode w₁) (Instruction.inRange_decode w₂)

/-- Equal constants have the same text whether they are split or not. -/
example : (Instruction.decode 0x189005).text = "W=K, JMP, K=5, L=5".toList ∧
    (Instruction.decode 0x188145).text = "W=K, JMP, K=5, L=5".toList := by decide +kernel

end MicroAsm
