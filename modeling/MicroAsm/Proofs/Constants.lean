import Mathlib.Data.List.Induction
import Mathlib.Data.Nat.Digits.Defs
import MicroAsm.Proofs.Digits
/-!
The texts that are constants, with their exact values. A constant is cut into an optional minus
sign, an optional dollar sign and the longest run of digits of its base; the number that these
denote has to be in range, however many digits it has.
-/
namespace MicroAsm
open Text

/-- The place of a character among the digits, where a small letter counts as its capital. Other
characters are placed after all digits. -/
def digitPlace (c : Char) : Nat := "0123456789ABCDEF".toList.idxOf c.toUpper

theorem digitPlace_eq (c : Char) : digitPlace c = min (digitValue c) 16 := by
  by_cases h : c.toNat < 128
  · have hascii : ∀ n < 128, digitPlace (Char.ofNat n) = min (digitValue (Char.ofNat n)) 16 := by
      decide +kernel
    rw [← Char.ofNat_toNat c]
    exact hascii c.toNat h
  · have hlarge (d : Char) (hd : d.toNat < 128) : ¬c ≤ d := by
      intro hle
      have hle' : c.toNat ≤ d.toNat := hle
      omega
    have hupper : c.toUpper = c := by
      refine dif_neg ?_
      rintro ⟨-, hz⟩
      exact hlarge 'z' (by decide) hz
    have hvalue : digitValue c = 36 := by
      simp only [digitValue, hlarge '9' (by decide), hlarge 'Z' (by decide),
        hlarge 'z' (by decide), and_false, if_false]
    have hnone : c ∉ "0123456789ABCDEF".toList := by
      have hall : "0123456789ABCDEF".toList.all (·.toNat < 128) = true := by decide
      exact fun hm => h (of_decide_eq_true (List.all_eq_true.1 hall c hm))
    rw [digitPlace, hupper, List.idxOf_eq_length hnone, hvalue]
    rfl

theorem isDigit_iff {base : Nat} (h : base ≤ 16) {c : Char} :
    isDigit base c = true ↔ digitPlace c < base := by
  rw [digitPlace_eq, isDigit, decide_eq_true_eq]
  omega

theorem ofDigits_eq (base : Nat) (s : Text) :
    ofDigits base s = Nat.ofDigits base (s.reverse.map digitValue) := by
  induction s using List.reverseRecOn with
  | nil => rfl
  | append_singleton s c ih =>
    rw [ofDigits_append_singleton, List.reverse_concat, List.map_cons, Nat.ofDigits_cons, ih,
      Nat.mul_comm, Nat.add_comm]

namespace Numeral
variable {n m : Numeral} {text : Text}

theorem base_le (n : Numeral) : n.base ≤ 16 := by
  unfold base
  split <;> decide

/-- The parts that a text is cut into: both signs are taken where they stand, and then as many
digits as there are. -/
structure CutFrom (n : Numeral) (text : Text) : Prop where
  parts : text = (if n.negative then ['-'] else []) ++ ((if n.hex then ['$'] else []) ++
    (n.digits ++ n.rest))
  minus : n.negative = false → text.head? ≠ some '-'
  dollar : n.hex = false → (n.digits ++ n.rest).head? ≠ some '$'
  digits : ∀ c ∈ n.digits, digitPlace c < n.base
  longest : ∀ c ∈ n.rest.head?, n.base ≤ digitPlace c

/-- The number that the digits denote, with its sign. -/
def exact (n : Numeral) : Int :=
  let magnitude := Nat.ofDigits n.base (n.digits.reverse.map digitPlace)
  if n.negative then -(magnitude : Int) else magnitude

/-- Twelve bits hold a number of base sixteen without its sign, or else a signed one. -/
def InRange (n : Numeral) : Prop :=
  if n.hex = true ∧ n.negative = false then 0 ≤ n.exact ∧ n.exact ≤ 4095
  else -2048 ≤ n.exact ∧ n.exact ≤ 2047

/-- The number as far as it is told apart in 64 bits. -/
def clamped (n : Numeral) : Int := max (-(2 ^ 63 - 1)) (min n.exact (2 ^ 63 - 1))

/-- The twelve low bits, which are signed in base ten. -/
def residue (n : Numeral) : Int := if n.hex then n.clamped % 4096 else n.clamped.bmod 4096

/-- Nothing but blanks and a comment comes after the digits. -/
def Ends (n : Numeral) : Prop := ∀ c ∈ (trimLeft n.rest).head?, c = ';'

instance (n : Numeral) : Decidable n.InRange :=
  inferInstanceAs (Decidable (if n.hex = true ∧ n.negative = false then
    0 ≤ n.exact ∧ n.exact ≤ 4095 else -2048 ≤ n.exact ∧ n.exact ≤ 2047))

instance (n : Numeral) : Decidable n.Ends :=
  decidable_of_iff ((trimLeft n.rest).head?.all (· == ';') = true)
    (by simp [Ends, Option.all_eq_true])

theorem digits_cut (p : Char → Bool) {digits rest s : Text} :
    digits = s.takeWhile p ∧ rest = s.dropWhile p ↔
      s = digits ++ rest ∧ (∀ c ∈ digits, p c = true) ∧ ∀ c ∈ rest.head?, p c = false := by
  constructor
  · rintro ⟨rfl, rfl⟩
    refine ⟨List.takeWhile_append_dropWhile.symm, fun c => List.mem_takeWhile_imp, ?_⟩
    intro c hc
    have hstop := List.head?_dropWhile_not p s
    rw [Option.mem_def.1 hc] at hstop
    exact hstop
  · rintro ⟨rfl, hdigits, hrest⟩
    have hstop : rest.takeWhile p = [] ∧ rest.dropWhile p = rest := by
      cases rest with
      | nil => exact ⟨rfl, rfl⟩
      | cons c rest => simp [hrest c rfl]
    rw [List.takeWhile_append_of_pos hdigits, List.dropWhile_append_of_pos hdigits, hstop.1,
      hstop.2, List.append_nil]
    exact ⟨rfl, rfl⟩

theorem digits_cut_isDigit {base : Nat} (hb : base ≤ 16) {digits rest s : Text} :
    digits = s.takeWhile (isDigit base) ∧ rest = s.dropWhile (isDigit base) ↔
      s = digits ++ rest ∧ (∀ c ∈ digits, digitPlace c < base) ∧
        ∀ c ∈ rest.head?, base ≤ digitPlace c := by
  rw [digits_cut]
  simp only [isDigit_iff hb, ← Bool.not_eq_true, Nat.not_lt]

theorem afterDollar_eq_iff {negative : Bool} {s : Text} : n = afterDollar negative s ↔
    n.negative = negative ∧ s = (if n.hex then ['$'] else []) ++ (n.digits ++ n.rest) ∧
      (n.hex = false → (n.digits ++ n.rest).head? ≠ some '$') ∧
      (∀ c ∈ n.digits, digitPlace c < n.base) ∧ ∀ c ∈ n.rest.head?, n.base ≤ digitPlace c := by
  obtain ⟨negative', hex, digits, rest⟩ := n
  unfold base
  by_cases hs : ∃ t, s = '$' :: t
  · obtain ⟨t, rfl⟩ := hs
    rw [afterDollar, mk.injEq, digits_cut_isDigit (by decide)]
    cases hex with
    | true => simp
    | false =>
      simp only [Bool.false_eq_true, false_and, and_false, if_false, List.nil_append, true_implies,
        false_iff, not_and]
      rintro - hparts hdollar
      rw [← hparts] at hdollar
      exact absurd rfl hdollar
  · have hne : ∀ t, s ≠ '$' :: t := not_exists.1 hs
    rw [afterDollar.eq_2 _ _ hne, mk.injEq, digits_cut_isDigit (by decide)]
    cases hex with
    | true =>
      simp only [Bool.true_eq_false, false_and, and_false, if_true, List.singleton_append,
        false_iff, not_and]
      exact fun _ hparts => absurd hparts (hne _)
    | false =>
      have hhead : s = digits ++ rest → (digits ++ rest).head? ≠ some '$' := by
        rintro rfl hhead
        obtain ⟨t, ht⟩ := List.head?_eq_some_iff.1 hhead
        exact hne t ht
      simp only [Bool.false_eq_true, if_false, List.nil_append, true_implies, true_and]
      constructor
      · rintro ⟨rfl, hparts, hdigits⟩
        exact ⟨rfl, hparts, hhead hparts, hdigits⟩
      · rintro ⟨rfl, hparts, -, hdigits⟩
        exact ⟨rfl, hparts, hdigits⟩

/-- A text is cut in one way. -/
theorem cutFrom_iff : n.CutFrom text ↔ n = cut text := by
  by_cases hs : ∃ t, text = '-' :: t
  · obtain ⟨t, rfl⟩ := hs
    rw [cut, afterDollar_eq_iff]
    constructor
    · rintro ⟨hparts, hminus, hdollar, hdigits, hlongest⟩
      cases hn : n.negative with
      | false => exact absurd rfl (hminus hn)
      | true =>
        rw [hn] at hparts
        exact ⟨rfl, (List.cons.inj hparts).2, hdollar, hdigits, hlongest⟩
    · rintro ⟨hn, hparts, hdollar, hdigits, hlongest⟩
      refine ⟨?_, ?_, hdollar, hdigits, hlongest⟩
      · rw [hn, ← hparts]
        rfl
      · rw [hn]
        simp
  · have hne : ∀ t, text ≠ '-' :: t := not_exists.1 hs
    have hhead : text.head? ≠ some '-' := by
      intro hhead
      obtain ⟨t, ht⟩ := List.head?_eq_some_iff.1 hhead
      exact hne t ht
    rw [cut.eq_2 _ hne, afterDollar_eq_iff]
    constructor
    · rintro ⟨hparts, -, hdollar, hdigits, hlongest⟩
      cases hn : n.negative with
      | true =>
        rw [hn] at hparts
        exact absurd hparts (hne _)
      | false =>
        rw [hn] at hparts
        exact ⟨rfl, hparts, hdollar, hdigits, hlongest⟩
    · rintro ⟨hn, hparts, hdollar, hdigits, hlongest⟩
      refine ⟨?_, fun _ => hhead, hdollar, hdigits, hlongest⟩
      rw [hn]
      exact hparts

/-- Saturation keeps the sign of the number and all numbers of 64 bits. -/
theorem CutFrom.value_eq (h : n.CutFrom text) : n.value = n.clamped := by
  have hdigits : n.digits.reverse.map digitValue = n.digits.reverse.map digitPlace := by
    apply List.map_congr_left
    intro c hc
    have hplace := h.digits c (List.mem_reverse.1 hc)
    have hbase := n.base_le
    rw [digitPlace_eq] at hplace ⊢
    omega
  unfold value clamped exact magnitudeLimit
  rw [ofDigits_eq, hdigits]
  generalize Nat.ofDigits n.base (n.digits.reverse.map digitPlace) = magnitude
  cases n.negative with
  | true =>
    simp only [if_true]
    omega
  | false =>
    simp only [Bool.false_eq_true, if_false]
    omega

/-- Twelve bits keep a number in range and change every other one, also one beyond 64 bits. -/
theorem CutFrom.kept_eq_iff (h : n.CutFrom text) : n.kept = n.clamped ↔ n.InRange := by
  unfold kept InRange
  rw [h.value_eq]
  unfold clamped
  generalize n.exact = v
  by_cases hform : n.hex = true ∧ n.negative = false
  · rw [if_pos hform, if_pos (by simp [hform])]
    omega
  · rw [if_neg hform, if_neg (by simpa using hform), Int.bmod_def]
    split <;> omega

theorem CutFrom.residue_eq (h : n.CutFrom text) :
    (if n.hex then n.clamped % 4096 else n.kept) = n.residue := by
  unfold residue kept
  rw [h.value_eq]
  cases n.hex <;> rfl

theorem InRange.clamped_eq (h : n.InRange) : n.clamped = n.exact := by
  unfold InRange at h
  unfold clamped
  split at h <;> omega

theorem CutFrom.readLiteral_eq (h : n.CutFrom text) : readLiteral text =
    if n.digits = [] then .ok none
    else if ¬n.InRange then .error (.constantRange n.clamped n.residue n.hex)
    else if ¬n.Ends then .error (.trailingCharacters n.exact)
    else .ok (some n.exact) := by
  have hkept : n.kept ≠ n.clamped ↔ ¬n.InRange := not_congr h.kept_eq_iff
  have hempty : n.digits.isEmpty = true ↔ n.digits = [] := List.isEmpty_iff
  unfold readLiteral
  rw [← cutFrom_iff.1 h]
  simp only [hempty, h.value_eq, hkept, h.residue_eq]
  by_cases hnone : n.digits = []
  · rw [if_pos hnone, if_pos hnone]
  rw [if_neg hnone, if_neg hnone]
  by_cases hrange : n.InRange
  · rw [if_neg (not_not.2 hrange), if_neg (not_not.2 hrange), hrange.clamped_eq]
    cases hrest : trimLeft n.rest with
    | nil =>
      have hends : n.Ends := by simp [Ends, hrest]
      simp [hends]
    | cons c rest =>
      have hends : n.Ends ↔ c = ';' := by simp [Ends, hrest]
      by_cases hc : c = ';'
      · simp [hends.2 hc, hc]
      · simp [hends, hc]
  · rw [if_pos hrange, if_pos hrange]

end Numeral

/-- A text is cut in one way, and its parts tell what is read. Without digits it is no constant;
otherwise the exact number has to be in range, and then nothing but blanks and a comment may follow
it. No text is read as another number than it denotes. -/
theorem constants_read_exactly (text : Text) : ∃ n : Numeral, n.CutFrom text ∧
    (∀ m : Numeral, m.CutFrom text → m = n) ∧
    (readLiteral text = .ok none ↔ n.digits = []) ∧
    (∀ v, readLiteral text = .ok (some v) ↔ n.digits ≠ [] ∧ n.InRange ∧ n.Ends ∧ v = n.exact) ∧
    ∀ fault, readLiteral text = .error fault ↔ n.digits ≠ [] ∧
      (¬n.InRange ∧ fault = .constantRange n.clamped n.residue n.hex ∨
        n.InRange ∧ ¬n.Ends ∧ fault = .trailingCharacters n.exact) := by
  have hcut := Numeral.cutFrom_iff.2 (rfl : Numeral.cut text = _)
  refine ⟨Numeral.cut text, hcut, fun m hm => Numeral.cutFrom_iff.1 hm, ?_⟩
  rw [hcut.readLiteral_eq]
  generalize Numeral.cut text = n
  by_cases hnone : n.digits = []
  · simp [hnone]
  rw [if_neg hnone]
  by_cases hrange : n.InRange
  · rw [if_neg (not_not.2 hrange)]
    by_cases hends : n.Ends
    · simp [hnone, hrange, hends, eq_comm]
    · simp [hnone, hrange, hends, eq_comm]
  · simp [hnone, hrange, eq_comm]

/-- The least constant with a comment, one more than the largest one, a number of twenty digits, a
number with other characters after it, and a text that is no constant. -/
theorem constants_at_the_limits :
    readLiteral "-$800 ; low".toList = .ok (some (-2048)) ∧
    readLiteral "$1000".toList = .error (.constantRange 4096 0 true) ∧
    readLiteral "99999999999999999999".toList =
      .error (.constantRange 9223372036854775807 (-1) false) ∧
    readLiteral "5X".toList = .error (.trailingCharacters 5) ∧
    readLiteral "-A".toList = .ok none := by
  have hread (text : Text) (n : Numeral) (hn : n = Numeral.cut text) :
      (readLiteral text = .ok none ↔ n.digits = []) ∧
      (∀ v, readLiteral text = .ok (some v) ↔ n.digits ≠ [] ∧ n.InRange ∧ n.Ends ∧ v = n.exact) ∧
      ∀ fault, readLiteral text = .error fault ↔ n.digits ≠ [] ∧
        (¬n.InRange ∧ fault = .constantRange n.clamped n.residue n.hex ∨
          n.InRange ∧ ¬n.Ends ∧ fault = .trailingCharacters n.exact) := by
    obtain ⟨m, -, hunique, hm⟩ := constants_read_exactly text
    rwa [← hunique n (Numeral.cutFrom_iff.2 hn)] at hm
  refine ⟨?_, ?_, ?_, ?_, ?_⟩
  · exact ((hread _ ⟨true, true, "800".toList, " ; low".toList⟩ (by decide)).2.1 _).2
      (by decide +kernel)
  · exact ((hread _ ⟨false, true, "1000".toList, []⟩ (by decide)).2.2 _).2 (by decide +kernel)
  · exact ((hread _ ⟨false, false, "99999999999999999999".toList, []⟩ (by decide)).2.2 _).2
      (by decide +kernel)
  · exact ((hread _ ⟨false, false, "5".toList, "X".toList⟩ (by decide)).2.2 _).2 (by decide +kernel)
  · exact (hread _ ⟨true, false, [], "A".toList⟩ (by decide)).1.2 rfl

end MicroAsm
