import MicroAsm.Proofs.ControlFlow
import MicroAsm.Proofs.PrintedRows
/-!
Names made up for branch targets. An address is named after its number if and only if an instruction
branches there, in whatever way it is shown, so names tell addresses apart. A listing has the line
of a name above the row of its address, and rows show branch targets by name, with or without a row
for them.
-/
namespace MicroAsm
open Text

/-- Some instruction of the program has this branch target. -/
def Program.BranchesTo (p : Program) (pc : Nat) : Prop :=
  ∃ i ∈ p.instructions, i.jumpTarget?.map UInt8.toNat = some pc

instance (p : Program) : DecidablePred p.BranchesTo :=
  fun pc => inferInstanceAs
    (Decidable (∃ i ∈ p.instructions, i.jumpTarget?.map UInt8.toNat = some pc))

def targetName (pc : Nat) : Text := 'L' :: decimal pc

/-- Branch targets go by their names, and all other addresses by their numbers. -/
def Program.shownAddress (p : Program) (pc : Address) : Text :=
  if p.BranchesTo pc.toNat then targetName pc.toNat else decimal pc.toNat

section Names
variable {image : Image} {p : Program}

theorem branchesTo_toNat_iff {t : Address} :
    p.BranchesTo t.toNat ↔ ∃ i ∈ p.instructions, i.jumpTarget? = some t := by
  have hnat (o : Option Address) : o.map UInt8.toNat = some t.toNat ↔ o = some t := by
    simp [Option.map_eq_some_iff, UInt8.toNat_inj]
  simp only [Program.BranchesTo, hnat]

theorem AddressNames.get?_foldl_put (name : Address → Text) (pcs : List Address)
    (names : AddressNames) (pc : Address) :
    (pcs.foldl (fun names pc => names.put pc (name pc)) names).get? pc =
      if pc ∈ pcs then some (name pc) else names.get? pc := by
  induction pcs generalizing names with
  | nil => simp
  | cons first pcs ih =>
    rw [List.foldl_cons, ih, AddressNames.get?_put]
    by_cases hfirst : pc = first
    · simp [hfirst]
    · simp [hfirst]

/-- The names of a loaded image are those of its branch targets. -/
theorem Image.get?_nameTargets (h : image.labels = {}) (pc : Address) :
    image.nameTargets.labels.get? pc =
      if image.program.BranchesTo pc.toNat then some (targetName pc.toNat) else none := by
  have hput := AddressNames.get?_foldl_put (fun pc => 'L' :: decimal pc.toNat)
    (branchTargets image.program.edges) image.labels pc
  have hmem : pc ∈ branchTargets image.program.edges ↔ image.program.BranchesTo pc.toNat :=
    Program.mem_branchTargets_edges_iff.trans branchesTo_toNat_iff.symm
  simp only [hmem, h] at hput
  rw [Image.nameTargets, h, hput]
  rfl

theorem Image.nameOf_nameTargets (h : image.labels = {}) (pc : Address) :
    image.nameTargets.nameOf pc = image.program.shownAddress pc := by
  rw [Image.nameOf, Image.get?_nameTargets h, Program.shownAddress]
  split <;> rfl

theorem targetName_ne_decimal (m n : Nat) : targetName m ≠ decimal n := by
  intro h
  exact notMem_decimal (show 'L'.isDigit = false by decide) n (h ▸ List.mem_cons_self)

/-- Different addresses never share a name. -/
theorem shownAddress_injective (p : Program) : Function.Injective p.shownAddress := by
  intro pc other h
  unfold Program.shownAddress at h
  apply UInt8.toNat_inj.1
  split at h
  · split at h
    · exact decimal_injective (List.cons.inj h).2
    · exact absurd h (targetName_ne_decimal _ _)
  · split at h
    · exact absurd h.symm (targetName_ne_decimal _ _)
    · exact decimal_injective h

end Names

/-- The text of an instruction with a name for its branch target. -/
def Instruction.namedText (i : Instruction) : Text := i.textWith fun t => some (targetName t.toNat)

/-- Only the name of the branch target of an instruction counts. -/
theorem textWith_congr {i : Instruction} {name name' : Address → Option Text}
    (h : ∀ t, i.jumpTarget? = some t → name t = name' t) : i.textWith name = i.textWith name' := by
  have htarget : i.targetPart name = i.targetPart name' := by
    unfold Instruction.targetPart
    cases ht : i.jumpTarget? with
    | none => rfl
    | some t => rw [Option.map_some, Option.map_some, h t ht]
  simp only [Instruction.textWith, Instruction.parts, htarget]

theorem oneLine_targetName (n : Nat) : OneLine (targetName n) :=
  OneLine.append (show OneLine ['L'] by decide) (oneLine_decimal n)

/-- The lines of a listing: a row for each instruction, and names above the rows of branch
targets. -/
theorem lines_nameTargets_listing {image : Image} (h : image.labels = {})
    (hfits : image.program.Fits) : lines image.nameTargets.listing =
      image.program.instructions.zipIdx.flatMap fun (i, pc) =>
        (if image.program.BranchesTo pc then [targetName pc ++ [':']] else []) ++
          [i.rowLine pc i.namedText] := by
  have hname (pc : Address) (name : Text)
      (hlabel : image.nameTargets.labels.get? pc = some name) : OneLine name := by
    rw [Image.get?_nameTargets h] at hlabel
    split at hlabel
    · obtain rfl := Option.some.inj hlabel
      exact oneLine_targetName _
    · contradiction
  have hlines : lines image.nameTargets.listing =
      image.program.instructions.zipIdx.flatMap fun (i, pc) =>
        labelLines (image.nameTargets.labels.get? (UInt8.ofNat pc)) ++
          [i.rowLine pc (i.textWith image.nameTargets.labels.get?)] :=
    lines_rows hfits hname
  rw [hlines]
  refine List.flatMap_congr ?_
  rintro ⟨i, pc⟩ hx
  have hi : image.program.instructions[pc]? = some i := List.mk_mem_zipIdx_iff_getElem?.1 hx
  have hpc : (UInt8.ofNat pc).toNat = pc := by
    have hlt : pc < image.program.size := (List.getElem?_eq_some_iff.1 hi).1
    exact toNat_address (hlt.le.trans hfits.size.2)
  have htext : i.textWith image.nameTargets.labels.get? = i.namedText := by
    refine textWith_congr fun t ht => ?_
    have hbranch : image.program.BranchesTo t.toNat :=
      branchesTo_toNat_iff.2 ⟨i, List.mem_of_getElem? hi, ht⟩
    rw [Image.get?_nameTargets h, if_pos hbranch]
  have hlabel : labelLines (image.nameTargets.labels.get? (UInt8.ofNat pc)) =
      if image.program.BranchesTo pc then [targetName pc ++ [':']] else [] := by
    rw [Image.get?_nameTargets h, hpc]
    split <;> rfl
  simp only [hlabel, htext]

end MicroAsm
