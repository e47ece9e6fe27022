import MicroAsm.Flow
import MicroAsm.Proofs.ImageFormat
import MicroAsm.Proofs.LoneToken
import MicroAsm.Proofs.Relocation
/-!
The control flow of a program is that of its source. The edges that leave a statement are told from
the branch tokens of its line and the addresses of their labels; the instructions between, and the
image that they are loaded from, need not be looked at.
-/
namespace MicroAsm
open Text LineState

/-- A token of this beginning, with the name that follows it. -/
def HasBranch (tokens : List Text) (text name : Text) : Prop :=
  ∃ rest, text ++ rest ∈ tokens ∧ trimLeft rest = name

def jumpText : Text := "JMP ".toList

def conditionalTexts : List Text := ["JMPT ".toList, "JMPF ".toList, "DECNZ ".toList]

/-- The edge to the next of so many statements, if there is one. -/
def nextEdge (k size : Nat) : List Edge :=
  if k + 1 < size then [⟨UInt8.ofNat k, UInt8.ofNat (k + 1), .fallthrough⟩] else []

/-- The edges of the statement at an address, as its tokens tell them. A jump goes before anything
else on its line. -/
structure LineEdges (labels : LabelTable) (size k : Nat) (tokens : List Text) (es : List Edge) :
    Prop where
  jump : ∀ name, HasBranch tokens jumpText name →
    ∃ t, labels.get? name = some t ∧ es = [⟨UInt8.ofNat k, t, .branch⟩]
  conditional : (∀ name, ¬HasBranch tokens jumpText name) →
    ∀ text ∈ conditionalTexts, ∀ name, HasBranch tokens text name →
      ∃ t, labels.get? name = some t ∧ es = ⟨UInt8.ofNat k, t, .condBranch⟩ :: nextEdge k size
  plain : (∀ text ∈ jumpText :: conditionalTexts, ∀ name, ¬HasBranch tokens text name) →
    es = nextEdge k size

/-- No address is cut to eight bits, and no edge is there twice. -/
structure Program.ProperEdges (p : Program) : Prop where
  source : ∀ e ∈ p.edges, e.source.toNat < p.size
  next : ∀ e ∈ p.edges, e.kind = .fallthrough → e.target.toNat = e.source.toNat + 1
  nodup : p.edges.Nodup

namespace Instruction
variable {i : Instruction} {pc t : Address} {hasNext : Bool}

theorem edges_of_jumps (hj : i.jumps = true) (ht : i.jumpTarget? = some t) :
    i.edges pc hasNext = [⟨pc, t, .branch⟩] := by
  simp [edges, hj, ht]

theorem edges_of_not_jumps (hj : i.jumps = false) {k size : Nat} :
    i.edges (UInt8.ofNat k) (k + 1 < size) =
      (i.jumpTarget?.map fun t => (⟨UInt8.ofNat k, t, .condBranch⟩ : Edge)).toList ++
        nextEdge k size := by
  simp [edges, hj, nextEdge]

theorem mem_edges_iff {e : Edge} : e ∈ i.edges pc hasNext ↔
    (∃ t, i.jumpTarget? = some t ∧ e = ⟨pc, t, if i.jumps then .branch else .condBranch⟩) ∨
      (i.jumps = false ∧ hasNext = true) ∧ e = ⟨pc, pc + 1, .fallthrough⟩ := by
  unfold edges
  rw [List.mem_append, Option.mem_toList, Option.map_eq_some_iff]
  refine or_congr (exists_congr fun t => and_congr_right' eq_comm) ?_
  split <;> simp_all

theorem source_of_mem_edges {e : Edge} (h : e ∈ i.edges pc hasNext) : e.source = pc := by
  rcases mem_edges_iff.1 h with ⟨t, -, rfl⟩ | ⟨-, rfl⟩ <;> rfl

theorem nodup_edges : (i.edges pc hasNext).Nodup := by
  unfold edges
  cases i.jumpTarget? <;> cases i.jumps <;> cases hasNext <;> simp

end Instruction

section Lines
variable {labels : LabelTable} {tokens : List Text} {cs : List Clause} {s : LineState}
  {u : FuncUnit} {n : Nat} {text rest name : Text}

/-- A branch token has one meaning, and a label for it. -/
theorem Means.eq_branch {c : Clause} (h : (u, n, text) ∈ branchPrefixes)
    (hc : Means labels (text ++ rest) c) :
    ∃ t, labels.get? (trimLeft rest) = some t ∧ c = ⟨u, .definite (.branch n t)⟩ := by
  cases ht : labels.get? (trimLeft rest) with
  | some t =>
    have hreads : ReadsAs labels (text ++ rest) u (.branch n t) := .branch h ht
    exact ⟨t, rfl, hc.unique (.definite hreads (not_isZero_of_branch hreads))⟩
  | none =>
    obtain ⟨r, hr, -⟩ := hc.read_empty
    rw [read_alone (has_of_branchPrefix h), candidates_of_branchPrefix labels h, labelCandidate,
      ht] at hr
    contradiction

theorem ReadsAs.eq_branch {token : Text} {e : Sense} {t : Address}
    (h : ReadsAs labels token u e) (he : e.target? = some t) :
    ∃ text rest, (u, e.selector, text) ∈ branchPrefixes ∧ token = text ++ rest ∧
      labels.get? (trimLeft rest) = some t := by
  cases h with
  | branch h ht =>
    obtain rfl := Option.some.inj he
    exact ⟨_, _, h, rfl, ht⟩
  | _ => contradiction

section Settled
variable (hm : List.Forall₂ (Means labels) tokens cs) (h : Settled cs s)
include hm h

theorem Settled.of_hasBranch (hp : (u, n, text) ∈ branchPrefixes)
    (hb : HasBranch tokens text name) :
    ∃ t, labels.get? name = some t ∧ s.target = some t ∧ s.selectors.get u = n := by
  obtain ⟨rest, htoken, rfl⟩ := hb
  obtain ⟨c, hmeans⟩ := exists_forall₂_iff.1 ⟨cs, hm⟩ _ htoken
  have hc : c ∈ cs := (mem_clauses_iff hm).2 ⟨_, htoken, hmeans⟩
  obtain ⟨t, ht, rfl⟩ := hmeans.eq_branch hp
  exact ⟨t, ht, (h.target t).2 ⟨_, hc, rfl⟩, h.selector _ hc⟩

theorem Settled.exists_hasBranch {t : Address} (ht : s.target = some t) :
    ∃ x ∈ branchPrefixes, ∃ name, HasBranch tokens x.2.2 name := by
  obtain ⟨c, hc, hct⟩ := (h.target t).1 ht
  obtain ⟨token, htoken, hmeans⟩ := (mem_clauses_iff hm).1 hc
  obtain ⟨text, rest, hp, rfl, -⟩ := (hmeans.readsAs s).eq_branch hct
  exact ⟨_, hp, _, rest, htoken, rfl⟩

/-- Only the token of a jump makes an instruction jump. -/
theorem Settled.exists_hasBranch_of_jumps (hj : s.layOut.jumps = true) :
    ∃ name, HasBranch tokens jumpText name := by
  have hcat : ∀ x ∈ branchPrefixes, x.1 = .j → x.2.1 = 1 → x.2.2 = jumpText := by decide
  have hsel : s.selectors.get .j = 1 := beq_iff_eq.1 hj
  have hunit : .j ∈ cs.map Clause.unit := by
    by_contra hn
    rw [h.idle .j hn] at hsel
    contradiction
  obtain ⟨c, hc, hcj⟩ := List.mem_map.1 hunit
  rw [← hcj, h.selector c hc] at hsel
  obtain ⟨token, htoken, hmeans⟩ := (mem_clauses_iff hm).1 hc
  have hreads := hmeans.readsAs s
  have hbranch : (c.senseIn s).target?.isSome = true := by
    rw [← hreads.fits.target, hcj, hsel]
    rfl
  obtain ⟨t, ht⟩ := Option.isSome_iff_exists.1 hbranch
  obtain ⟨text, rest, hp, rfl, -⟩ := hreads.eq_branch ht
  obtain rfl := hcat _ hp hcj hsel
  exact ⟨_, rest, htoken, rfl⟩

theorem Settled.not_jumps (hno : ∀ name, ¬HasBranch tokens jumpText name) :
    s.layOut.jumps = false := by
  rw [← Bool.not_eq_true]
  intro hj
  obtain ⟨name, hb⟩ := h.exists_hasBranch_of_jumps hm hj
  exact hno name hb

/-- One line: the edges of its instruction are those that its tokens tell. -/
theorem Settled.lineEdges (size k : Nat) :
    LineEdges labels size k tokens (s.layOut.edges (UInt8.ofNat k) (k + 1 < size)) where
  jump name hb := by
    obtain ⟨t, hget, ht, hsel⟩ := h.of_hasBranch hm (u := .j) (n := 1) (by decide) hb
    refine ⟨t, hget, Instruction.edges_of_jumps (beq_iff_eq.2 hsel) ?_⟩
    rw [h.jumpTarget?_layOut hm, ht]
  conditional hno text htext name hb := by
    have hcat : ∀ text ∈ conditionalTexts, ∃ x ∈ branchPrefixes, x.2.2 = text := by decide
    obtain ⟨x, hx, rfl⟩ := hcat text htext
    obtain ⟨t, hget, ht, -⟩ := h.of_hasBranch hm hx hb
    refine ⟨t, hget, ?_⟩
    rw [Instruction.edges_of_not_jumps (h.not_jumps hm hno), h.jumpTarget?_layOut hm, ht]
    rfl
  plain hno := by
    have hcat : ∀ x ∈ branchPrefixes, x.2.2 ∈ jumpText :: conditionalTexts := by decide
    have htarget : s.target = none := by
      rw [Option.eq_none_iff_forall_ne_some]
      intro t ht
      obtain ⟨x, hx, name, hb⟩ := h.exists_hasBranch hm ht
      exact hno _ (hcat x hx) name hb
    have hjumps := h.not_jumps hm (hno _ List.mem_cons_self)
    rw [Instruction.edges_of_not_jumps hjumps, h.jumpTarget?_layOut hm, htarget]
    rfl

end Settled
end Lines

theorem mem_branchTargets_iff {es : List Edge} {t : Address} :
    t ∈ branchTargets es ↔ ∃ e ∈ es, e.kind ≠ .fallthrough ∧ e.target = t := by
  have hall : t ∈ (List.range 256).map UInt8.ofNat :=
    List.mem_map.2 ⟨t.toNat, List.mem_range.2 t.toNat_lt, UInt8.ofNat_toNat⟩
  simp only [branchTargets, List.mem_filter, hall, true_and, List.any_eq_true, Bool.and_eq_true,
    bne_iff_ne, beq_iff_eq]

theorem toNat_address {k : Nat} (h : k ≤ 255) : (UInt8.ofNat k).toNat = k :=
  UInt8.toNat_ofNat_of_lt' (Nat.lt_succ_of_le h)

theorem ascending_branchTargets (es : List Edge) :
    (branchTargets es).Pairwise fun s t => s.toNat < t.toNat := by
  apply List.Pairwise.filter
  rw [List.pairwise_map]
  refine List.pairwise_lt_range.imp_of_mem fun {k l} hk hl hlt => ?_
  rw [List.mem_range] at hk hl
  rwa [toNat_address (Nat.le_of_lt_succ hk), toNat_address (Nat.le_of_lt_succ hl)]

namespace Program
variable {p : Program} {e : Edge}

theorem mem_edges_iff : e ∈ p.edges ↔ ∃ (k : Nat) (i : Instruction), p.instructions[k]? = some i ∧
    e ∈ i.edges (UInt8.ofNat k) (k + 1 < p.size) := by
  unfold edges addressed
  rw [List.mem_flatMap]
  constructor
  · rintro ⟨⟨i, k⟩, hi, he⟩
    exact ⟨k, i, List.mk_mem_zipIdx_iff_getElem?.1 hi, he⟩
  · rintro ⟨k, i, hi, he⟩
    exact ⟨(i, k), List.mk_mem_zipIdx_iff_getElem?.2 hi, he⟩

/-- Addresses of different instructions differ, so their edges do. -/
theorem nodup_edges (hsize : p.size ≤ 255) : p.edges.Nodup := by
  have hpcs : (p.addressed.map fun x => UInt8.ofNat x.2).Nodup := by
    rw [← Function.comp_def, ← List.map_map, addressed, List.zipIdx_map_snd]
    refine List.Nodup.map_on ?_ List.nodup_range'
    intro k hk l hl heq
    rw [List.mem_range'_1] at hk hl
    unfold size at hsize
    have hnat := congrArg UInt8.toNat heq
    rwa [toNat_address (by omega), toNat_address (by omega)] at hnat
  unfold edges
  rw [List.nodup_flatMap]
  refine ⟨fun x _ => Instruction.nodup_edges, ?_⟩
  refine (List.pairwise_map.1 hpcs).imp fun {x y} hne e hx hy => ?_
  exact hne ((Instruction.source_of_mem_edges hx).symm.trans (Instruction.source_of_mem_edges hy))

theorem properEdges (hsize : p.size ≤ 255) : p.ProperEdges where
  source e he := by
    obtain ⟨k, i, hi, he⟩ := mem_edges_iff.1 he
    have hk : k < p.size := (List.getElem?_eq_some_iff.1 hi).1
    rw [Instruction.source_of_mem_edges he, toNat_address (by omega)]
    exact hk
  next e he hkind := by
    obtain ⟨k, i, hi, he⟩ := mem_edges_iff.1 he
    rcases Instruction.mem_edges_iff.1 he with ⟨t, -, rfl⟩ | ⟨⟨-, hnext⟩, rfl⟩
    · dsimp only at hkind
      split at hkind <;> contradiction
    · have hk : k + 1 < p.size := by simpa using hnext
      have hsucc : UInt8.ofNat k + 1 = UInt8.ofNat (k + 1) := by simp
      dsimp only
      rw [hsucc, toNat_address (by omega), toNat_address (by omega)]
  nodup := nodup_edges hsize

theorem mem_branchTargets_edges_iff {t : Address} :
    t ∈ branchTargets p.edges ↔ ∃ i ∈ p.instructions, i.jumpTarget? = some t := by
  rw [mem_branchTargets_iff]
  constructor
  · rintro ⟨e, he, hkind, rfl⟩
    obtain ⟨k, i, hi, he⟩ := mem_edges_iff.1 he
    rcases Instruction.mem_edges_iff.1 he with ⟨t, ht, rfl⟩ | ⟨-, rfl⟩
    · exact ⟨i, List.mem_of_getElem? hi, ht⟩
    · exact absurd rfl hkind
  · rintro ⟨i, hi, ht⟩
    obtain ⟨k, hk⟩ := List.getElem?_of_mem hi
    refine ⟨_, mem_edges_iff.2 ⟨k, i, hk, Instruction.mem_edges_iff.2 (.inl ⟨t, ht, rfl⟩)⟩, ?_,
      rfl⟩
    dsimp only
    split <;> simp

end Program

theorem forall₂_zipIdx {α β : Type} {R : α → β → Prop} {as : List α} {bs : List β}
    (h : List.Forall₂ R as bs) (n : Nat) :
    List.Forall₂ (fun x y => R x.1 y.1 ∧ x.2 = y.2) (as.zipIdx n) (bs.zipIdx n) := by
  induction h generalizing n with
  | nil => exact .nil
  | cons hab _ ih => exact .cons ⟨hab, rfl⟩ (ih (n + 1))

theorem SolvesLine.lineEdges {labels : LabelTable} {l : CodeLine} {i : Instruction}
    (h : SolvesLine labels l i) (size k : Nat) :
    LineEdges labels size k (tokenize l.body) (i.edges (UInt8.ofNat k) (k + 1 < size)) := by
  rw [l.body_eq, tokenize_trim]
  obtain ⟨-, cs, s, hm, hset, rfl⟩ := exists_settled_of_solve h
  exact hset.lineEdges hm size k

/-- A program that was assembled is what is loaded from its image, and its edges are those that the
lines of the source tell, one statement after another. In the edges of any image no address is cut
to eight bits, no edge is there twice, and the targets of branches are those of the
instructions. -/
theorem edges_of_source :
    (∀ (source : Text) (a : Assembly), assemble source = .ok a →
      Program.ofBytes a.program.toBytes = .ok a.program ∧
      ∃ groups, a.program.edges = groups.flatten ∧
        List.Forall₂ (fun x es => LineEdges a.labels a.program.size x.2 (tokenize x.1.body) es)
          ((codeLines source).filter CodeLine.bears).zipIdx groups) ∧
    ∀ (bytes : Bytes) (p : Program), Program.ofBytes bytes = .ok p →
      p.ProperEdges ∧
      (∀ t, t ∈ branchTargets p.edges ↔ ∃ i ∈ p.instructions, i.jumpTarget? = some t) ∧
      (branchTargets p.edges).Pairwise fun s t => s.toNat < t.toNat := by
  constructor
  · intro source a h
    refine ⟨Program.ofBytes_eq_ok_iff.2 ⟨fits_of_assemble h, rfl⟩, _, List.flatMap_def, ?_⟩
    obtain ⟨-, -, hl, his⟩ := assemble_eq_ok_iff.1 h
    rw [← hl] at his
    rw [List.forall₂_map_right_iff]
    refine (forall₂_zipIdx his 0).imp ?_
    rintro ⟨l, k⟩ ⟨i, _⟩ ⟨hsolve, rfl⟩
    exact hsolve.lineEdges a.program.size k
  · intro bytes p h
    obtain ⟨hfits, -⟩ := Program.ofBytes_eq_ok_iff.1 h
    exact ⟨Program.properEdges hfits.size.2, fun t => Program.mem_branchTargets_edges_iff,
      ascending_branchTargets _⟩

/-- A branch to the next address, which shares its value field with a constant, a jump beside a
`DECNZ`, and a branch at the end, which has no next address. -/
theorem five_edges : ∃ a,
    assemble "top: A=IN1\n  DECNZ end,B=3\nend: DECNZ top,JMP top\n  JMPF end\n".toList = .ok a ∧
    Program.ofBytes a.program.toBytes = .ok a.program ∧ a.program.ProperEdges ∧
    a.program.edges = [⟨0, 1, .fallthrough⟩, ⟨1, 2, .condBranch⟩, ⟨1, 2, .fallthrough⟩,
      ⟨2, 0, .branch⟩, ⟨3, 2, .condBranch⟩] ∧
    branchTargets a.program.edges = [0, 2] := by
  obtain ⟨hsource, himage⟩ := edges_of_source
  have h : assemble
      "top: A=IN1\n  DECNZ end,B=3\nend: DECNZ top,JMP top\n  JMPF end\n".toList =
      .ok ⟨⟨[("TOP".toList, 0), ("END".toList, 2)]⟩,
        ⟨[{ a := 3 }, { b := 3, c := 3, twoConstants := true, value := 194 }, { c := 3, j := 1 },
          { j := 3, value := 2 }]⟩⟩ := by
    decide +kernel
  obtain ⟨hload, -⟩ := hsource _ _ h
  exact ⟨_, h, hload, (himage _ _ hload).1, by decide, by decide +kernel⟩

end MicroAsm
