import Mathlib.Data.List.Forall2
import Mathlib.Data.List.TakeWhile
import MicroAsm.Source.Token
/-!
Blanks at the ends of a text. Trimming takes them off, and a body has the same tokens with and
without them. A text is cut where a character stands for the first time.
-/
namespace MicroAsm
open Text

def Blank (s : Text) : Prop := ∀ c ∈ s, isBlank c = true

section Trims
variable {s v w : Text} {c : Char}

theorem Blank.reverse (h : Blank w) : Blank w.reverse := fun c hc => h c (List.mem_reverse.1 hc)

theorem notMem_of_blank (h : Blank w) (hc : isBlank c = false) : c ∉ w := by
  intro hm
  exact Bool.false_ne_true (hc.symm.trans (h c hm))

theorem comma_notMem_of_blank (h : Blank w) : ',' ∉ w := notMem_of_blank h (by decide)

theorem bne_of_notMem (h : c ∉ s) : ∀ d ∈ s, (d != c) = true := by
  intro d hd
  rw [bne_iff_ne]
  rintro rfl
  exact h hd

theorem takeWhile_append_cons (h : c ∉ s) (t : Text) : (s ++ c :: t).takeWhile (· != c) = s := by
  rw [List.takeWhile_append_of_pos (bne_of_notMem h), List.takeWhile_cons_of_neg (by simp),
    List.append_nil]

theorem dropWhile_append_cons (h : c ∉ s) (t : Text) :
    (s ++ c :: t).dropWhile (· != c) = c :: t := by
  rw [List.dropWhile_append_of_pos (bne_of_notMem h), List.dropWhile_cons_of_neg (by simp)]

theorem exists_append_trimLeft (s : Text) : ∃ v, Blank v ∧ s = v ++ trimLeft s :=
  ⟨s.takeWhile isBlank, fun _ hc => List.mem_takeWhile_imp hc,
    List.takeWhile_append_dropWhile.symm⟩

theorem exists_trimRight_append (s : Text) : ∃ w, Blank w ∧ s = trimRight s ++ w := by
  obtain ⟨v, hv, hs⟩ := exists_append_trimLeft s.reverse
  refine ⟨v.reverse, hv.reverse, ?_⟩
  have h := congrArg List.reverse hs
  rwa [List.reverse_reverse, List.reverse_append] at h

theorem notMem_trimRight (h : c ∉ s) : c ∉ trimRight s := by
  obtain ⟨w, -, hw⟩ := exists_trimRight_append s
  intro hc
  exact h (hw ▸ List.mem_append_left w hc)

/-- A text is its trimmed part between blanks. -/
theorem exists_blank_ends (s : Text) : ∃ v w, Blank v ∧ Blank w ∧ s = v ++ (trim s ++ w) := by
  obtain ⟨v, hv, hs⟩ := exists_append_trimLeft s
  obtain ⟨w, hw, ht⟩ := exists_trimRight_append (trimLeft s)
  refine ⟨v, w, hv, hw, ?_⟩
  conv_lhs => rw [hs, ht]
  rfl

theorem trim_blank_append (hv : Blank v) (s : Text) : trim (v ++ s) = trim s := by
  rw [trim, trimLeft, List.dropWhile_append_of_pos hv]
  rfl

theorem trimRight_cons (h : isBlank c = false) (s : Text) :
    trimRight (c :: s) = c :: trimRight s := by
  have hc : [c].dropWhile isBlank = [c] := List.dropWhile_cons_of_neg (by simp [h])
  rw [trimRight, List.reverse_cons, List.dropWhile_append, hc]
  split
  · rename_i hs
    rw [trimRight, List.isEmpty_iff.1 hs]
    rfl
  · rw [List.reverse_append]
    rfl

theorem trimRight_append_blank (hw : Blank w) (s : Text) : trimRight (s ++ w) = trimRight s := by
  rw [trimRight, List.reverse_append, List.dropWhile_append_of_pos hw.reverse]
  rfl

theorem trimRight_append_of_ne_nil (h : trimRight s ≠ []) (v : Text) :
    trimRight (v ++ s) = v ++ trimRight s := by
  have hkept : ¬(s.reverse.dropWhile isBlank).isEmpty = true := by
    simpa [trimRight] using h
  rw [trimRight, List.reverse_append, List.dropWhile_append, if_neg hkept, List.reverse_append,
    List.reverse_reverse]
  rfl

theorem trim_append_blank (hw : Blank w) (s : Text) : trim (s ++ w) = trim s := by
  unfold trim trimLeft
  rw [List.dropWhile_append]
  split
  · rename_i hs
    rw [List.isEmpty_iff.1 hs, List.dropWhile_eq_nil_iff.2 hw]
  · exact trimRight_append_blank hw _

theorem trim_trim (s : Text) : trim (trim s) = trim s := by
  obtain ⟨v, w, hv, hw, hs⟩ := exists_blank_ends s
  conv_rhs => rw [hs, trim_blank_append hv, trim_append_blank hw]

end Trims

section Pieces
variable {w : Text}

theorem splitOn_comma_cons {c : Char} (h : c ≠ ',') (s : Text) :
    (c :: s).splitOn ',' = (s.splitOn ',').modifyHead (c :: ·) := by
  unfold List.splitOn
  rw [List.splitOnP_cons_eq_if_modifyHead, if_neg (by simpa using h)]

theorem splitOn_comma_comma (s : Text) : (',' :: s).splitOn ',' = [] :: s.splitOn ',' := by
  unfold List.splitOn
  rw [List.splitOnP_cons_eq_if_modifyHead, if_pos (by simp)]

theorem comma_notMem_splitOn {s : Text} : ∀ p ∈ s.splitOn ',', ',' ∉ p := by
  induction s with
  | nil => simp
  | cons c s ih =>
    by_cases hc : c = ','
    · subst hc
      rw [splitOn_comma_comma]
      intro p hp
      rcases List.mem_cons.1 hp with rfl | hp
      · exact List.not_mem_nil
      · exact ih p hp
    · rw [splitOn_comma_cons hc]
      intro p hp
      cases hs : s.splitOn ',' with
      | nil => simp [hs] at hp
      | cons q qs =>
        rw [hs] at hp ih
        rcases List.mem_cons.1 hp with rfl | hp
        · simpa [Ne.symm hc] using ih q List.mem_cons_self
        · exact ih p (List.mem_cons_of_mem q hp)

theorem map_trim_splitOn_blank_append (hw : Blank w) (s : Text) :
    ((w ++ s).splitOn ',').map trim = (s.splitOn ',').map trim := by
  induction w with
  | nil => rfl
  | cons c w ih =>
    have hc : Blank [c] := fun d hd => hw d (List.mem_singleton.1 hd ▸ List.mem_cons_self)
    have hne : c ≠ ',' := fun h => comma_notMem_of_blank hw (h ▸ List.mem_cons_self)
    rw [List.cons_append, splitOn_comma_cons hne, ← ih fun d hd => hw d (List.mem_cons_of_mem c hd)]
    cases (w ++ s).splitOn ',' with
    | nil => rfl
    | cons p ps =>
      have hp : trim (c :: p) = trim p := trim_blank_append hc p
      simp [hp]

/-- Only the last piece grows. -/
theorem splitOn_append_blank (hw : Blank w) (s : Text) :
    List.Forall₂ (fun p q => ∃ v, Blank v ∧ p = q ++ v) ((s ++ w).splitOn ',')
      (s.splitOn ',') := by
  induction s with
  | nil =>
    have hone : w.splitOn ',' = [w] := by
      apply List.splitOnP_eq_singleton
      intro c hc
      simpa using fun h : c = ',' => comma_notMem_of_blank hw (h ▸ hc)
    rw [List.nil_append, hone, List.splitOn_nil]
    exact .cons ⟨w, hw, rfl⟩ .nil
  | cons c s ih =>
    rw [List.cons_append]
    by_cases hc : c = ','
    · subst hc
      rw [splitOn_comma_comma, splitOn_comma_comma]
      exact .cons ⟨[], by simp [Blank], rfl⟩ ih
    · rw [splitOn_comma_cons hc, splitOn_comma_cons hc]
      generalize (s ++ w).splitOn ',' = ps at ih
      generalize s.splitOn ',' = qs at ih
      cases ih with
      | nil => exact .nil
      | cons hp hps =>
        obtain ⟨v, hv, rfl⟩ := hp
        exact .cons ⟨v, hv, rfl⟩ hps

theorem map_trim_splitOn_append_blank (hw : Blank w) (s : Text) :
    ((s ++ w).splitOn ',').map trim = (s.splitOn ',').map trim := by
  have h := splitOn_append_blank hw s
  generalize (s ++ w).splitOn ',' = ps at h
  generalize s.splitOn ',' = qs at h
  induction h with
  | nil => rfl
  | cons hp _ ih =>
    obtain ⟨v, hv, rfl⟩ := hp
    rw [List.map_cons, List.map_cons, trim_append_blank hv, ih]

/-- Blanks around a body make no difference to its tokens. -/
theorem tokenize_trim (s : Text) : tokenize (trim s) = tokenize s := by
  obtain ⟨v, w, hv, hw, hs⟩ := exists_blank_ends s
  unfold tokenize
  conv_rhs => rw [hs, map_trim_splitOn_blank_append hv, map_trim_splitOn_append_blank hw]

end Pieces
end MicroAsm
