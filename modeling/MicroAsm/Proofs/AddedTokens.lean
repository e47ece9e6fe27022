import MicroAsm.Proofs.HardFaults
/-!
Lines with more tokens. What is in conflict in a line is in conflict in every line that has its
tokens as well, so a line that cannot be solved is not mended by further assignments.
-/
namespace MicroAsm

section Subline
variable {labels : LabelTable} {tokens more : List Text} {ds : List Clause} {s : LineState}

/-- Some of the tokens of a line that settles are a line that settles, though a zero among them
may then be an operation instead of a constant. -/
theorem exists_settled_of_subperm (hsub : tokens.Subperm more)
    (hm : List.Forall₂ (Means labels) more ds) (h : Settled ds s) :
    ∃ cs t, List.Forall₂ (Means labels) tokens cs ∧ Settled cs t := by
  have hmeans : ∀ token ∈ tokens, ∃ c, Means labels token c :=
    fun token ht => exists_forall₂_iff.1 ⟨ds, hm⟩ token (hsub.subset ht)
  obtain ⟨cs, hcs⟩ := exists_forall₂_iff.2 hmeans
  have hviolated : ¬Violated labels tokens :=
    fun hv => (violated_iff hm).1 (hv.mono hsub) h.clean
  have hconflict : ¬Conflict labels tokens :=
    fun hc => h.not_conflict hm (hc.mono hsub.subset)
  rw [Violated, not_or, exists_drivenTwice_iff hcs, not_not, not_not] at hviolated
  obtain ⟨hunits, htargets⟩ := hviolated
  obtain ⟨t, ht⟩ := (exists_settled_iff hcs hunits htargets).2 hconflict
  exact ⟨cs, t, hcs, ht⟩

end Subline

/-- An unsatisfiable line that has tokens at all is not solved together with further tokens,
wherever they stand. -/
theorem unsatisfiable_stays_unsolved {labels : LabelTable} {tokens more : List Text} {line : Nat}
    (hne : tokens ≠ []) (hsub : tokens.Subperm more)
    (h : solve labels tokens line = .error ⟨some line, .unsatisfiable⟩) (line' : Nat)
    (i : Instruction) : solve labels more line' ≠ .ok i := by
  intro hok
  obtain ⟨s, hsettle, -⟩ := solve_eq_ok_iff.1 hok
  obtain ⟨-, ds, hm, hs⟩ := settle_eq_ok_iff.1 hsettle
  obtain ⟨cs, t, hcs, ht⟩ := exists_settled_of_subperm hsub hm hs
  rw [solve_of_settle (settle_eq_ok_of_settled hcs ht hne)] at h
  exact pack_ne_unsatisfiable t line h

/-- The zero is a constant in both lines, with no room beside the target. -/
theorem no_room_for_zero :
    solve ⟨[("X".toList, 70)]⟩ ["B=0".toList, "W=A+B".toList, "JMP X".toList] 1 =
      .error ⟨some 1, .unsatisfiable⟩ ∧
    ∀ i, solve ⟨[("X".toList, 70)]⟩
      ["D=A".toList, "B=0".toList, "C=A+B".toList, "W=A+B".toList, "JMP X".toList] 2 ≠ .ok i := by
  have h : solve ⟨[("X".toList, 70)]⟩ ["B=0".toList, "W=A+B".toList, "JMP X".toList] 1 =
      .error ⟨some 1, .unsatisfiable⟩ := by decide +kernel
  have hsub : ["B=0".toList, "W=A+B".toList, "JMP X".toList].Sublist
      ["D=A".toList, "B=0".toList, "C=A+B".toList, "W=A+B".toList, "JMP X".toList] := by decide
  exact ⟨h, unsatisfiable_stays_unsolved (List.cons_ne_nil _ _) hsub.subperm h 2⟩

end MicroAsm
