import MicroAsm.Proofs.SourceLine
import MicroAsm.Proofs.Surface
/-!
Marks are the characters that a source is cut at: blanks, colons, commas, semicolons and equals
signs. Upper-casing makes no mark of another character, so it commutes with every cut.
-/
namespace MicroAsm
open Text

def isMark (c : Char) : Bool := isBlank c || [':', ',', ';', '='].contains c

section Characters
variable {c d : Char}

theorem isMark_iff : isMark c = true ↔ isBlank c = true ∨ c ∈ [':', ',', ';', '='] := by
  rw [isMark, Bool.or_eq_true, List.contains_iff_mem]

theorem upperChar_of_mark (h : isMark c = true) : upperChar c = [c] := by
  have hpunctuation : [':', ',', ';', '='].map upperChar =
      [':', ',', ';', '='].map fun c => [c] := by
    decide +kernel
  exact (isMark_iff.1 h).elim upperChar_of_blank (List.map_inj_left.1 hpunctuation c)

/-- A code above those of the punctuation marks that is no blank. -/
theorem not_isMark_ofNat {code : Nat} (hlow : 0x40 ≤ code)
    (hblank : ∀ r ∈ blankRanges, code < r.1 ∨ r.2 < code) : isMark (Char.ofNat code) = false := by
  by_cases hv : code.isValidChar
  · have hcode : (Char.ofNat code).toNat = code := by
      rw [Char.ofNat, dif_pos hv]
      rfl
    rw [← Bool.not_eq_true, isMark_iff, not_or]
    constructor
    · intro hb
      obtain ⟨r, hr, hc⟩ := List.any_eq_true.1 hb
      simp only [hcode, Bool.and_eq_true, decide_eq_true_eq] at hc
      have hout := hblank r hr
      omega
    · intro hm
      have hsmall : [':', ',', ';', '='].all (·.toNat < 0x40) = true := by decide
      have hlt := of_decide_eq_true (List.all_eq_true.1 hsmall _ hm)
      omega
  · rw [Char.ofNat, dif_neg hv]
    rfl

/-- No mark comes from another character. -/
theorem eq_of_mem_upperChar (hd : d ∈ upperChar c) (hm : isMark d = true) : d = c := by
  unfold upperChar at hd
  split at hd
  · obtain rfl := List.mem_singleton.1 hd
    have hsmall : smallLetters.map (fun c => isMark c.toUpper) =
        smallLetters.map fun _ => false := by
      decide
    refine (toUpper_eq_or_small c).resolve_right fun hc => ?_
    rw [List.map_inj_left.1 hsmall c hc] at hm
    contradiction
  · obtain ⟨code, hcode, rfl⟩ := List.mem_map.1 hd
    unfold upperCode at hcode
    split at hcode
    · rename_i e he
      have hall : ∀ e ∈ upperExpansions, ∀ code ∈ e.2, isMark (Char.ofNat code) = false := by
        decide +kernel
      rw [hall e (List.mem_of_find?_eq_some he) code hcode] at hm
      contradiction
    · split at hcode
      · rename_i r hr
        have hall : ∀ r ∈ upperRuns, 0x40 ≤ r.target ∧ ∀ b ∈ blankRanges,
            r.target + (r.last - r.first) < b.1 ∨ b.2 < r.target := by decide +kernel
        obtain ⟨hlow, hblank⟩ := hall r (List.mem_of_find?_eq_some hr)
        have hcovers : r.covers c.toNat = true := by simpa using List.find?_some hr
        simp only [UpperRun.covers, Bool.and_eq_true, decide_eq_true_eq] at hcovers
        obtain rfl := List.mem_singleton.1 hcode
        have hout : ∀ b ∈ blankRanges, r.target + (c.toNat - r.first) < b.1 ∨
            b.2 < r.target + (c.toNat - r.first) := by
          intro b hb
          have hb := hblank b hb
          omega
        rw [not_isMark_ofNat (by omega) hout] at hm
        exact absurd hm Bool.false_ne_true
      · obtain rfl := List.mem_singleton.1 hcode
        exact Char.ofNat_toNat c

theorem upperChar_ne_nil (c : Char) : upperChar c ≠ [] := by
  have hall : ∀ e ∈ upperExpansions, e.2 ≠ [] := by decide +kernel
  unfold upperChar
  split
  · exact List.cons_ne_nil _ _
  · rw [Ne, List.map_eq_nil_iff]
    unfold upperCode
    split
    · rename_i e he
      exact hall e (List.mem_of_find?_eq_some he)
    · split <;> exact List.cons_ne_nil _ _

theorem not_blank_of_mem_upperChar (hc : isBlank c = false) (hd : d ∈ upperChar c) :
    isBlank d = false := by
  rw [← Bool.not_eq_true]
  intro hb
  rw [eq_of_mem_upperChar hd (isMark_iff.2 (.inl hb)), hc] at hb
  contradiction

end Characters

section Texts
variable {s t : Text} {c : Char}

/-- A text has the same marks before and after. -/
theorem mem_upper_iff (h : isMark c = true) : c ∈ upper s ↔ c ∈ s := by
  constructor
  · intro hc
    obtain ⟨d, hd, hcd⟩ := List.mem_flatMap.1 hc
    rwa [eq_of_mem_upperChar hcd h]
  · intro hc
    exact List.mem_flatMap.2 ⟨c, hc, by rw [upperChar_of_mark h]; exact List.mem_singleton_self c⟩

theorem mem_iff_of_capitals (h : capitals s = capitals t) (hc : isMark c = true) :
    c ∈ s ↔ c ∈ t := by
  rw [← mem_upper_iff hc, upper_eq_of_capitals h, mem_upper_iff hc]

theorem ne_nil_of_head (h : s.head?.any (!isBlank ·) = true) : s ≠ [] := by
  rintro rfl
  contradiction

theorem head_upper (h : s.head?.any (!isBlank ·) = true) :
    (upper s).head?.any (!isBlank ·) = true := by
  cases s with
  | nil => contradiction
  | cons c s =>
    have hc : isBlank c = false := by simpa using h
    obtain ⟨d, ds, hd⟩ := List.exists_cons_of_ne_nil (upperChar_ne_nil c)
    have hdb := not_blank_of_mem_upperChar hc (hd ▸ List.mem_cons_self : d ∈ upperChar c)
    simp [hd, hdb]

theorem last_upper (h : s.getLast?.any (!isBlank ·) = true) :
    (upper s).getLast?.any (!isBlank ·) = true := by
  cases hl : s.getLast? with
  | none => simp [hl] at h
  | some c =>
    obtain ⟨t, rfl⟩ := List.getLast?_eq_some_iff.1 hl
    have hc : isBlank c = false := by simpa using h
    have hne := upperChar_ne_nil c
    have hlast := not_blank_of_mem_upperChar hc (List.getLast_mem hne)
    rw [upper_append, upper_cons, upper_nil, List.append_nil, List.getLast?_append_of_ne_nil _ hne,
      List.getLast?_eq_some_getLast hne]
    simp [hlast]

theorem head_trimRight (h : s.head?.any (!isBlank ·) = true) :
    (trimRight s).head?.any (!isBlank ·) = true := by
  cases s with
  | nil => contradiction
  | cons c s =>
    have hc : isBlank c = false := by simpa using h
    rw [trimRight_cons hc]
    exact h

theorem last_trimRight (h : trimRight s ≠ []) :
    (trimRight s).getLast?.any (!isBlank ·) = true := by
  unfold trimRight at h ⊢
  rw [List.getLast?_reverse]
  have hhead := List.head?_dropWhile_not isBlank s.reverse
  cases hd : s.reverse.dropWhile isBlank with
  | nil => simp [hd] at h
  | cons c t => simpa [hd] using hhead

/-- Trimming comes to the same before and after. -/
theorem trimRight_upper (s : Text) : trimRight (upper s) = upper (trimRight s) := by
  obtain ⟨w, hw, hs⟩ := exists_trimRight_append s
  have hupper : upper s = upper (trimRight s) ++ w := by
    conv_lhs => rw [hs, upper_append, upper_of_blank hw]
  rw [hupper, trimRight_append_blank hw]
  by_cases hnil : trimRight s = []
  · rw [hnil]
    rfl
  · exact trimRight_of_last (last_upper (last_trimRight hnil))

end Texts
end MicroAsm
