import Mathlib.Algebra.Group.Nat.Defs
import Mathlib.Data.List.TakeWhile
import MicroAsm.Literal
import MicroAsm.Text.Numeral
/-!
Numerals that are written are read back: digits of a fixed number give the number again, and so
does a signed constant with four decimal digits.
-/
namespace MicroAsm
open Text

theorem digitValue_digitChar {n : Nat} (h : n < 16) : digitValue (Nat.digitChar n) = n := by
  revert n
  decide

theorem ofDigits_append_singleton (base : Nat) (s : Text) (c : Char) :
    ofDigits base (s ++ [c]) = ofDigits base s * base + digitValue c := by
  simp [ofDigits]

theorem ofDigits_fixed {base : Nat} (hpos : 0 < base) (hle : base ≤ 16) (width n : Nat) :
    ofDigits base (fixed base width n) = n % base ^ width := by
  induction width generalizing n with
  | zero =>
    rw [Nat.pow_zero, Nat.mod_one]
    rfl
  | succ width ih =>
    have hlt : n % base < 16 := Nat.lt_of_lt_of_le (Nat.mod_lt n hpos) hle
    rw [fixed, ofDigits_append_singleton, ih, digitValue_digitChar hlt, Nat.pow_succ',
      Nat.mod_mul, Nat.mul_comm base]
    exact Nat.add_comm _ _

theorem mem_fixed {base width n : Nat} {c : Char} (hpos : 0 < base) (h : c ∈ fixed base width n) :
    ∃ d < base, c = Nat.digitChar d := by
  induction width generalizing n with
  | zero => simp [fixed] at h
  | succ width ih =>
    rw [fixed, List.mem_append, List.mem_singleton] at h
    rcases h with h | h
    · exact ih h
    · exact ⟨n % base, Nat.mod_lt n hpos, h⟩

theorem notMem_fixed {base : Nat} {c : Char} (hpos : 0 < base) (hle : base ≤ 16)
    (h : ∀ d < 16, Nat.digitChar d ≠ c) (width n : Nat) : c ∉ fixed base width n := by
  intro hc
  obtain ⟨d, hd, rfl⟩ := mem_fixed hpos hc
  exact h d (Nat.lt_of_lt_of_le hd hle) rfl

theorem isDigit_fixed {base width n : Nat} {c : Char} (hpos : 0 < base) (hle : base ≤ 16)
    (h : c ∈ fixed base width n) : isDigit base c = true := by
  obtain ⟨d, hd, rfl⟩ := mem_fixed hpos h
  simpa [isDigit, digitValue_digitChar (Nat.lt_of_lt_of_le hd hle)] using hd

theorem isDigit_of_mem_decimal {n : Nat} {c : Char} (h : c ∈ decimal n) : c.isDigit = true :=
  Nat.isDigit_of_mem_toDigits (by decide) (by decide) h

theorem notMem_decimal {c : Char} (h : c.isDigit = false) (n : Nat) : c ∉ decimal n := by
  intro hc
  exact Bool.false_ne_true (h.symm.trans (isDigit_of_mem_decimal hc))

theorem notMem_integer {c : Char} (h : c.isDigit = false) (hminus : c ≠ '-') (z : Int) :
    c ∉ integer z := by
  unfold integer signed
  split
  · rw [List.mem_cons, not_or]
    exact ⟨hminus, notMem_decimal h _⟩
  · exact notMem_decimal h _

theorem decimal_injective {m n : Nat} (h : decimal m = decimal n) : m = n := by
  have hread := congrArg (fun s => Nat.ofDigitChars 10 s 0) h
  simpa [decimal] using hread

theorem integer_injective {y z : Int} (h : integer y = integer z) : y = z := by
  have hminus (n : Nat) (s : Text) : decimal n ≠ '-' :: s := by
    intro hd
    exact notMem_decimal (show '-'.isDigit = false by decide) n (hd ▸ List.mem_cons_self)
  unfold integer signed at h
  split at h
  · split at h
    · have habs := decimal_injective (List.cons.inj h).2
      omega
    · exact absurd h.symm (hminus _ _)
  · split at h
    · exact absurd h (hminus _ _)
    · have habs := decimal_injective h
      omega

/-- A constant with all four of its decimal digits, which is never the operand `0`. -/
def fourDigits (v : Int) : Text := signed (fixed 10 4) v

theorem head_fixed (n : Nat) : ∃ d < 10, ∃ s, fixed 10 4 n = Nat.digitChar d :: s :=
  ⟨n / 10 / 10 / 10 % 10, Nat.mod_lt _ (by decide), _, rfl⟩

theorem afterDollar_fixed (negative : Bool) (n : Nat) :
    Numeral.afterDollar negative (fixed 10 4 n) = ⟨negative, false, fixed 10 4 n, []⟩ := by
  have hall : ∀ c ∈ fixed 10 4 n, isDigit 10 c = true :=
    fun c hc => isDigit_fixed (show 0 < 10 by decide) (show 10 ≤ 16 by decide) hc
  have hdollar : ∀ s, fixed 10 4 n ≠ '$' :: s := by
    have hne : ∀ d < 10, Nat.digitChar d ≠ '$' := by decide
    obtain ⟨d, hd, t, ht⟩ := head_fixed n
    intro s hs
    rw [ht] at hs
    exact hne d hd (List.cons.inj hs).1
  rw [Numeral.afterDollar.eq_2 _ _ hdollar, List.takeWhile_eq_self_iff.2 hall,
    List.dropWhile_eq_nil_iff.2 hall]

theorem cut_fourDigits (v : Int) :
    Numeral.cut (fourDigits v) = ⟨decide (v < 0), false, fixed 10 4 v.natAbs, []⟩ := by
  unfold fourDigits signed
  by_cases hv : v < 0
  · rw [if_pos hv, Numeral.cut, afterDollar_fixed, decide_eq_true hv]
  · have hminus : ∀ s, fixed 10 4 v.natAbs ≠ '-' :: s := by
      have hne : ∀ d < 10, Nat.digitChar d ≠ '-' := by decide
      obtain ⟨d, hd, t, ht⟩ := head_fixed v.natAbs
      intro s hs
      rw [ht] at hs
      exact hne d hd (List.cons.inj hs).1
    rw [if_neg hv, Numeral.cut.eq_2 _ hminus, afterDollar_fixed, decide_eq_false hv]

theorem value_fourDigits {v : Int} (h : -2048 ≤ v ∧ v ≤ 2047) :
    (Numeral.cut (fourDigits v)).value = v := by
  have hmod : v.natAbs % 10 ^ 4 = v.natAbs := Nat.mod_eq_of_lt (by omega)
  have hmin : min v.natAbs Numeral.magnitudeLimit = v.natAbs := by
    unfold Numeral.magnitudeLimit
    omega
  have hdigits : ofDigits 10 (fixed 10 4 v.natAbs) = v.natAbs := by
    rw [ofDigits_fixed (show 0 < 10 by decide) (show 10 ≤ 16 by decide), hmod]
  rw [cut_fourDigits]
  simp only [Numeral.value, Numeral.base, hdigits, hmin, Bool.false_eq_true, if_false,
    decide_eq_true_eq]
  split <;> omega

theorem readLiteral_fourDigits {v : Int} (h : -2048 ≤ v ∧ v ≤ 2047) :
    readLiteral (fourDigits v) = .ok (some v) := by
  have hvalue := value_fourDigits h
  have hkept : (Numeral.cut (fourDigits v)).kept = v := by
    have hbmod : v.bmod 4096 = v := by
      rw [Int.bmod_def]
      split <;> omega
    rw [Numeral.kept, hvalue, hbmod, cut_fourDigits]
    simp
  have hdigits : (Numeral.cut (fourDigits v)).digits.isEmpty = false := by
    rw [cut_fourDigits]
    obtain ⟨d, hd, t, ht⟩ := head_fixed v.natAbs
    simp [ht]
  have hrest : (Numeral.cut (fourDigits v)).rest = [] := by rw [cut_fourDigits]
  unfold readLiteral
  simp only [hdigits, hkept, hvalue, hrest, Bool.false_eq_true, if_false, ne_eq, not_true_eq_false]
  rfl

end MicroAsm
