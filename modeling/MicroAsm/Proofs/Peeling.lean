import MicroAsm.Proofs.Chains
import MicroAsm.Text.Utf8
/-!
Chains on the bytes of a token. A chain is known by two of its bytes, and it is cut at byte offsets
until what is left is no chain. This comes to an end on every text, and no cut falls inside a
character.
-/
namespace MicroAsm
open Text

/-- The text before and after a byte offset, which has to lie between two characters. -/
def cutAt? : Nat → Text → Option (Text × Text)
  | 0, s => some ([], s)
  | _ + 1, [] => none
  | n + 1, c :: s =>
    if c.utf8Size ≤ n + 1 then
      (cutAt? (n + 1 - c.utf8Size) s).map fun (before, after) => (c :: before, after)
    else none

/-- The byte offset of the last equals sign. -/
def lastEqualsAt? : Text → Option Nat
  | [] => none
  | c :: s =>
    match lastEqualsAt? s with
    | some n => some (c.utf8Size + n)
    | none => if c = '=' then some 0 else none

def IsChain (s : Text) : Prop :=
  3 < (toUtf8 s).length ∧ (toUtf8 s)[1]? = some 0x3D ∧ (toUtf8 s)[3]? = some 0x3D

instance (s : Text) : Decidable (IsChain s) := inferInstanceAs (Decidable (_ ∧ _))

/-- The assignment to the first destination of a chain, and the rest of the chain. -/
def peel? (s : Text) : Option (Text × Text) := do
  let (_, assigned) ← match lastEqualsAt? s with
    | some n => cutAt? n s
    | none => some (s, [])
  let (destination, _) ← cutAt? 1 s
  let (_, rest) ← cutAt? 2 s
  return (destination ++ assigned, rest)

/-- A token is peeled for as long as it is a chain. There is no way on from a cut that fails. -/
inductive Peeled : Text → List Text → Text → Prop
  | stop {s : Text} (h : ¬IsChain s) : Peeled s [] s
  | round {s link rest last : Text} {links : List Text} (h : IsChain s)
      (hpeel : peel? s = some (link, rest)) (hrest : Peeled rest links last) :
      Peeled s (link :: links) last

section Bytes
variable {s : Text} {c : Char}

theorem toUtf8_cons (c : Char) (s : Text) :
    toUtf8 (c :: s) = String.utf8EncodeChar c ++ toUtf8 s := List.flatMap_cons

theorem length_toUtf8_cons (c : Char) (s : Text) :
    (toUtf8 (c :: s)).length = c.utf8Size + (toUtf8 s).length := by
  rw [toUtf8_cons, List.length_append, String.length_utf8EncodeChar]

theorem utf8Size_eq_one_iff : c.utf8Size = 1 ↔ c.toNat < 128 := by
  rw [Char.utf8Size_eq_one_iff, UInt32.le_iff_toNat_le]
  exact Nat.lt_succ_iff.symm

/-- The byte of an equals sign is part of no other character. -/
theorem eq_equals_of_mem (h : 0x3D ∈ String.utf8EncodeChar c) : c = '=' := by
  have hbyte (k : Nat) : (0x3D : UInt8) = .ofNat k ↔ 61 = k % 256 := UInt8.toNat_inj.symm
  apply Char.ext
  apply UInt32.toNat_inj.1
  show c.val.toNat = 61
  unfold String.utf8EncodeChar at h
  simp only at h
  split at h
  · simp only [List.mem_singleton, hbyte] at h
    omega
  split at h
  · simp only [List.mem_cons, List.not_mem_nil, or_false, hbyte] at h
    omega
  split at h
  · simp only [List.mem_cons, List.not_mem_nil, or_false, hbyte] at h
    omega
  · simp only [List.mem_cons, List.not_mem_nil, or_false, hbyte] at h
    omega

theorem eq_equals_of_getElem? {n : Nat} (hn : n < c.utf8Size)
    (h : (toUtf8 (c :: s))[n]? = some 0x3D) : c = '=' := by
  rw [toUtf8_cons, List.getElem?_append_left (by rwa [String.length_utf8EncodeChar])] at h
  exact eq_equals_of_mem (List.mem_of_getElem? h)

theorem getElem?_toUtf8_succ (h : c.toNat < 128) (s : Text) (n : Nat) :
    (toUtf8 (c :: s))[n + 1]? = (toUtf8 s)[n]? := by
  rw [toUtf8_cons, String.utf8EncodeChar_eq_singleton (utf8Size_eq_one_iff.2 h)]
  rfl

theorem first_byte_iff : (toUtf8 s)[0]? = some 0x3D ↔ ∃ rest, s = '=' :: rest := by
  constructor
  · intro h
    cases s with
    | nil => cases h
    | cons c s => exact ⟨s, by rw [eq_equals_of_getElem? c.utf8Size_pos h]⟩
  · rintro ⟨rest, rfl⟩
    rw [toUtf8_cons]
    rfl

/-- What is before the second byte is a character of its own. -/
theorem second_byte_iff :
    (toUtf8 s)[1]? = some 0x3D ↔ ∃ d rest, d.toNat < 128 ∧ s = d :: '=' :: rest := by
  constructor
  · intro h
    cases s with
    | nil => cases h
    | cons d s =>
      by_cases hd : d.toNat < 128
      · rw [getElem?_toUtf8_succ hd] at h
        obtain ⟨rest, rfl⟩ := first_byte_iff.1 h
        exact ⟨d, rest, hd, rfl⟩
      · have hsize := utf8Size_eq_one_iff.not.2 hd
        have hpos := d.utf8Size_pos
        have heq : d = '=' := eq_equals_of_getElem? (by omega) h
        exact absurd (heq ▸ by decide) hd
  · rintro ⟨d, rest, hd, rfl⟩
    rw [getElem?_toUtf8_succ hd]
    exact first_byte_iff.2 ⟨rest, rfl⟩

theorem isChain_iff : IsChain s ↔ ∃ d m rest, d.toNat < 128 ∧ m.toNat < 128 ∧
    s = d :: '=' :: m :: '=' :: rest := by
  have hequals : '='.toNat < 128 := by decide
  constructor
  · rintro ⟨-, hone, hthree⟩
    obtain ⟨d, t, hd, rfl⟩ := second_byte_iff.1 hone
    rw [getElem?_toUtf8_succ hd, getElem?_toUtf8_succ hequals] at hthree
    obtain ⟨m, rest, hm, rfl⟩ := second_byte_iff.1 hthree
    exact ⟨d, m, rest, hd, hm, rfl⟩
  · rintro ⟨d, m, rest, hd, hm, rfl⟩
    refine ⟨?_, second_byte_iff.2 ⟨d, _, hd, rfl⟩, ?_⟩
    · have hdpos := d.utf8Size_pos
      have hmpos := m.utf8Size_pos
      have hone : '='.utf8Size = 1 := rfl
      simp only [length_toUtf8_cons, hone]
      omega
    · rw [getElem?_toUtf8_succ hd, getElem?_toUtf8_succ hequals]
      exact second_byte_iff.2 ⟨m, rest, hm, rfl⟩

end Bytes

section Cuts
variable {n : Nat} {s p q rhs : Text} {d : Char}

/-- A text can be cut wherever there is a byte offset between two of its characters. -/
theorem cutAt?_eq_some_iff : cutAt? n s = some (p, q) ↔ s = p ++ q ∧ (toUtf8 p).length = n := by
  fun_induction cutAt? n s generalizing p with
  | case1 s =>
    constructor
    · rintro ⟨⟩
      exact ⟨rfl, rfl⟩
    · rintro ⟨rfl, hp⟩
      cases p with
      | nil => rfl
      | cons c p =>
        have hpos := c.utf8Size_pos
        rw [length_toUtf8_cons] at hp
        omega
  | case2 n =>
    constructor
    · rintro ⟨⟩
    · rintro ⟨hs, hp⟩
      obtain ⟨rfl, -⟩ := List.append_eq_nil_iff.1 hs.symm
      cases hp
  | case3 n c s hle ih =>
    constructor
    · intro h
      obtain ⟨⟨p', q'⟩, hcut, heq⟩ := Option.map_eq_some_iff.1 h
      obtain ⟨rfl, rfl⟩ := Prod.mk.inj heq
      obtain ⟨rfl, hp⟩ := ih.1 hcut
      refine ⟨rfl, ?_⟩
      rw [length_toUtf8_cons]
      omega
    · rintro ⟨hs, hp⟩
      cases p with
      | nil => cases hp
      | cons c' p =>
        obtain ⟨rfl, rfl⟩ := List.cons.inj hs
        rw [length_toUtf8_cons] at hp
        rw [ih.2 ⟨rfl, by omega⟩]
        rfl
  | case4 n c s hle =>
    constructor
    · rintro ⟨⟩
    · rintro ⟨hs, hp⟩
      cases p with
      | nil => cases hp
      | cons c' p =>
        obtain ⟨rfl, -⟩ := List.cons.inj hs
        rw [length_toUtf8_cons] at hp
        omega

theorem lastEqualsAt?_append (hr : '=' ∉ rhs) (p : Text) :
    lastEqualsAt? (p ++ '=' :: rhs) = some (toUtf8 p).length := by
  have hnone : lastEqualsAt? rhs = none := by
    induction rhs with
    | nil => rfl
    | cons c rhs ih =>
      rw [List.mem_cons, not_or] at hr
      rw [lastEqualsAt?, ih hr.2, if_neg (Ne.symm hr.1)]
  induction p with
  | nil => rw [List.nil_append, lastEqualsAt?, hnone]; rfl
  | cons c p ih => rw [List.cons_append, lastEqualsAt?, ih, length_toUtf8_cons]

theorem exists_last_equals (h : '=' ∈ s) : ∃ p rhs, s = p ++ '=' :: rhs ∧ '=' ∉ rhs := by
  obtain ⟨as, bs, hs, has⟩ := List.eq_append_cons_of_mem (List.mem_reverse.2 h)
  refine ⟨bs.reverse, as.reverse, ?_, fun hm => has (List.mem_reverse.1 hm)⟩
  rw [← List.reverse_reverse s, hs]
  simp

theorem peel?_eq (hd : d.toNat < 128) (hr : '=' ∉ rhs) (p : Text) :
    peel? (d :: '=' :: (p ++ '=' :: rhs)) = some (d :: '=' :: rhs, p ++ '=' :: rhs) := by
  have hone : (toUtf8 [d]).length = 1 := by
    rw [length_toUtf8_cons, utf8Size_eq_one_iff.2 hd]
    rfl
  have htwo : (toUtf8 [d, '=']).length = 2 := by
    rw [length_toUtf8_cons, utf8Size_eq_one_iff.2 hd]
    rfl
  have hlast : lastEqualsAt? (d :: '=' :: (p ++ '=' :: rhs)) =
      some (toUtf8 (d :: '=' :: p)).length := lastEqualsAt?_append hr (d :: '=' :: p)
  have hright : cutAt? (toUtf8 (d :: '=' :: p)).length (d :: '=' :: (p ++ '=' :: rhs)) =
      some (d :: '=' :: p, '=' :: rhs) := cutAt?_eq_some_iff.2 ⟨rfl, rfl⟩
  have hfirst : cutAt? 1 (d :: '=' :: (p ++ '=' :: rhs)) =
      some ([d], '=' :: (p ++ '=' :: rhs)) := cutAt?_eq_some_iff.2 ⟨rfl, hone⟩
  have hrest : cutAt? 2 (d :: '=' :: (p ++ '=' :: rhs)) =
      some ([d, '='], p ++ '=' :: rhs) := cutAt?_eq_some_iff.2 ⟨rfl, htwo⟩
  unfold peel?
  rw [hlast]
  simp only [hright, hfirst, hrest]
  rfl

end Cuts

/-- One round on a chain: the first destination goes with what is after the last equals sign. -/
structure Round (s : Text) (d : Char) (rest rhs : Text) : Prop where
  narrow : d.toNat < 128
  eq : s = d :: '=' :: rest
  right : '=' ∉ rhs ∧ ∃ p, rest = p ++ '=' :: rhs
  peel : peel? s = some (d :: '=' :: rhs, rest)
  unchain : unchain s = (d :: (MicroAsm.unchain rest).1, (MicroAsm.unchain rest).2)

section Rounds
variable {s rest rhs last : Text} {others : List Text} {d : Char}

theorem IsChain.exists_round (h : IsChain s) : ∃ d rest rhs, Round s d rest rhs := by
  obtain ⟨d, m, t, hd, hm, rfl⟩ := isChain_iff.1 h
  have hmem : '=' ∈ m :: '=' :: t := List.mem_cons_of_mem m List.mem_cons_self
  obtain ⟨p, rhs, hp, hr⟩ := exists_last_equals hmem
  exact ⟨d, m :: '=' :: t, rhs, hd, rfl, ⟨hr, p, hp⟩, hp ▸ peel?_eq hd hr p,
    @unchain_cons d t m [] hd hm⟩

/-- A round is told from its cuts. -/
theorem IsChain.round_of_peel {link : Text} (h : IsChain s) (hpeel : peel? s = some (link, rest)) :
    ∃ d rhs, link = d :: '=' :: rhs ∧ Round s d rest rhs := by
  obtain ⟨d, t, rhs, hround⟩ := h.exists_round
  obtain ⟨rfl, rfl⟩ := Prod.mk.inj (Option.some.inj (hpeel.symm.trans hround.peel))
  exact ⟨d, rhs, rfl, hround⟩

theorem unchain_of_not_isChain (h : ¬IsChain s) : unchain s = ([], s) := by
  fun_cases unchain s with
  | case1 d m t hnarrow =>
    simp only [Bool.and_eq_true, decide_eq_true_eq] at hnarrow
    exact absurd (isChain_iff.2 ⟨d, m, t, hnarrow.1, hnarrow.2, rfl⟩) h
  | case2 => rfl
  | case3 => rfl
  | case4 => rfl

theorem Round.lastLink_eq (h : Round s d rest rhs) : lastLink s = lastLink rest := by
  rw [lastLink, h.unchain]
  rfl

theorem Round.otherLinks_eq (h : Round s d rest rhs) :
    otherLinks s = (d :: '=' :: rhs) :: otherLinks rest := by
  obtain ⟨hr, p, hp⟩ := h.right
  have hs : afterLastEquals s = rhs := by
    rw [h.eq, hp]
    exact afterLastEquals_append hr (d :: '=' :: p)
  have hrest : afterLastEquals rest = rhs := by rw [hp, afterLastEquals_append hr]
  rw [otherLinks, otherLinks, hs, hrest, h.unchain]
  rfl

theorem link_not_isChain (hr : '=' ∉ rhs) (d : Char) : ¬IsChain (d :: '=' :: rhs) := by
  intro h
  obtain ⟨_, m, t, -, -, heq⟩ := isChain_iff.1 h
  obtain rfl : rhs = m :: '=' :: t := (List.cons.inj (List.cons.inj heq).2).2
  exact hr (List.mem_cons_of_mem m List.mem_cons_self)

/-- A round leaves a shorter text, so that there is a last one. -/
theorem peeled_links (s : Text) : Peeled s (otherLinks s) (lastLink s) := by
  by_cases h : IsChain s
  · obtain ⟨d, rest, rhs, hround⟩ := h.exists_round
    have hlen : rest.length < s.length := by
      rw [hround.eq, List.length_cons, List.length_cons]
      omega
    rw [hround.otherLinks_eq, hround.lastLink_eq]
    exact .round h hround.peel (peeled_links rest)
  · rw [otherLinks, lastLink, unchain_of_not_isChain h]
    exact .stop h
termination_by s.length

theorem peeled_iff : Peeled s others last ↔ others = otherLinks s ∧ last = lastLink s := by
  constructor
  · intro h
    induction h with
    | stop h =>
      rw [otherLinks, lastLink, unchain_of_not_isChain h]
      exact ⟨rfl, rfl⟩
    | round h hpeel _ ih =>
      obtain ⟨d, rhs, rfl, hround⟩ := h.round_of_peel hpeel
      rw [hround.otherLinks_eq, hround.lastLink_eq, ih.1, ih.2]
      exact ⟨rfl, rfl⟩
  · rintro ⟨rfl, rfl⟩
    exact peeled_links s

/-- The destinations of a chain are in front of its last link, and what they are assigned is at the
end of it. -/
theorem Peeled.exists_destinations (h : Peeled s others last) : ∃ ds rhs,
    (∀ d ∈ ds, d.toNat < 128) ∧ s = chain ds last ∧ others = links ds rhs ∧
      (ds ≠ [] → '=' ∉ rhs ∧ ∃ p, s = p ++ '=' :: rhs) := by
  induction h with
  | stop h => exact ⟨[], [], by simp, rfl, rfl, fun h => absurd rfl h⟩
  | @round s link rest last others h hpeel hrest ih =>
    obtain ⟨d, rhs, rfl, hround⟩ := h.round_of_peel hpeel
    obtain ⟨hr, p, hp⟩ := hround.right
    obtain ⟨ds, rhs', hds, hs, hothers, hright⟩ := ih
    refine ⟨d :: ds, rhs, ?_, ?_, ?_, fun _ => ⟨hr, d :: '=' :: p, ?_⟩⟩
    · simpa using ⟨hround.narrow, hds⟩
    · rw [hround.eq, chain, ← hs]
    · cases ds with
      | nil => rw [hothers]; rfl
      | cons e ds =>
        obtain ⟨hr', p', hp'⟩ := hright (List.cons_ne_nil e ds)
        have hsame : rhs' = rhs := by
          rw [← afterLastEquals_append hr' p', ← hp', hp, afterLastEquals_append hr]
        rw [hothers, hsame]
        rfl
    · rw [hround.eq, hp]
      rfl

theorem Peeled.comma_notMem (h : Peeled s others last) (hne : s ≠ []) (hc : ',' ∉ s) :
    ∀ t ∈ last :: others, t ≠ [] ∧ ',' ∉ t := by
  induction h with
  | stop h =>
    intro t ht
    rw [List.mem_singleton.1 ht]
    exact ⟨hne, hc⟩
  | @round s link rest last others h hpeel hrun ih =>
    obtain ⟨d, rhs, rfl, hround⟩ := h.round_of_peel hpeel
    obtain ⟨-, p, hp⟩ := hround.right
    rw [hround.eq] at hc
    have hrest : ',' ∉ rest := fun hm => hc (List.mem_cons_of_mem _ (List.mem_cons_of_mem _ hm))
    have hrne : rest ≠ [] := hp ▸ List.append_ne_nil_of_right_ne_nil p (List.cons_ne_nil _ _)
    have hlink : ',' ∉ d :: '=' :: rhs := by
      simp only [hp, List.mem_cons, List.mem_append, not_or] at hc ⊢
      exact ⟨hc.1, hc.2.1, hc.2.2.2.2⟩
    intro u hu
    rw [List.mem_cons, List.mem_cons] at hu
    rcases hu with rfl | rfl | hu
    · exact ih hrne hrest u List.mem_cons_self
    · exact ⟨List.cons_ne_nil _ _, hlink⟩
    · exact ih hrne hrest u (List.mem_cons_of_mem _ hu)

end Rounds

section Tokens
variable {token : Text} {tokens : List Text}

theorem lastLink_not_isChain (s : Text) : ¬IsChain (lastLink s) := by
  have hrun := peeled_links s
  generalize otherLinks s = others at hrun
  generalize lastLink s = last at hrun ⊢
  induction hrun with
  | stop h => exact h
  | round _ _ _ ih => exact ih

theorem not_isChain_of_mem (h : token ∈ expandChains tokens) : ¬IsChain token := by
  rcases List.mem_append.1 h with h | h
  · obtain ⟨s, -, rfl⟩ := List.mem_map.1 h
    exact lastLink_not_isChain s
  · obtain ⟨s, -, hs⟩ := List.mem_flatMap.1 h
    obtain ⟨ds, rhs, -, -, hothers, hright⟩ := (peeled_links s).exists_destinations
    rw [hothers] at hs
    obtain ⟨d, hd, rfl⟩ := List.mem_map.1 hs
    exact link_not_isChain (hright (List.ne_nil_of_mem hd)).1 d

theorem expandChains_idem (tokens : List Text) :
    expandChains (expandChains tokens) = expandChains tokens :=
  expandChains_eq_self fun _ ht => unchain_of_not_isChain (not_isChain_of_mem ht)

theorem of_mem_fragments {body s : Text} (h : s ∈ fragments body) : s ≠ [] ∧ ',' ∉ s := by
  obtain ⟨hs, hne⟩ := List.mem_filter.1 h
  obtain ⟨p, hp, rfl⟩ := List.mem_map.1 hs
  refine ⟨by simpa using hne, fun hc => comma_notMem_splitOn p hp ?_⟩
  obtain ⟨v, w, -, -, hends⟩ := exists_blank_ends p
  rw [hends]
  exact List.mem_append_right v (List.mem_append_left w hc)

theorem of_mem_tokenize {body : Text} (h : token ∈ tokenize body) : token ≠ [] ∧ ',' ∉ token := by
  rcases List.mem_append.1 h with h | h
  · obtain ⟨s, hs, rfl⟩ := List.mem_map.1 h
    obtain ⟨hne, hc⟩ := of_mem_fragments hs
    exact (peeled_links s).comma_notMem hne hc _ List.mem_cons_self
  · obtain ⟨s, hs, ht⟩ := List.mem_flatMap.1 h
    obtain ⟨hne, hc⟩ := of_mem_fragments hs
    exact (peeled_links s).comma_notMem hne hc _ (List.mem_cons_of_mem _ ht)

end Tokens

/-- Every token has a run, all cuts of which fall between characters, and there is no other. The run
leaves the last link in place of the token. An assignment for each destination in front of it comes
after all tokens. None of these is a chain, and none has a comma or is empty in a body. -/
theorem expandChains_peels :
    (∀ token others last,
      Peeled token others last ↔ others = otherLinks token ∧ last = lastLink token) ∧
    (∀ token, ∃ ds rhs, (∀ d ∈ ds, d.toNat < 128) ∧ token = chain ds (lastLink token) ∧
      otherLinks token = links ds rhs ∧ (ds ≠ [] → '=' ∉ rhs ∧ ∃ p, token = p ++ '=' :: rhs)) ∧
    (∀ tokens, expandChains tokens = tokens.map lastLink ++ tokens.flatMap otherLinks ∧
      (∀ token ∈ expandChains tokens, ¬IsChain token) ∧
      expandChains (expandChains tokens) = expandChains tokens) ∧
    ∀ body, ∀ token ∈ tokenize body, token ≠ [] ∧ ',' ∉ token := by
  refine ⟨fun _ _ _ => peeled_iff, ?_, ?_, fun _ _ => of_mem_tokenize⟩
  · intro token
    exact (peeled_links token).exists_destinations
  · intro tokens
    exact ⟨rfl, fun _ => not_isChain_of_mem, expandChains_idem tokens⟩

/-- Nothing is behind the last equals sign of the first token, and a wide character makes no chain
of the second. -/
theorem equals_signs_peeled :
    Peeled "A=====".toList ["A=".toList, "==".toList] "==".toList ∧
    expandChains ["A=====".toList, "é=A=5".toList] =
      ["==".toList, "é=A=5".toList, "A=".toList, "==".toList] ∧
    ¬IsChain "é=A=5".toList ∧
    "B=5".toList ∈ tokenize ", W=B=5,".toList ∧ ',' ∉ "B=5".toList := by
  obtain ⟨hruns, -, hall, hbody⟩ := expandChains_peels
  have hexpand : expandChains ["A=====".toList, "é=A=5".toList] =
      ["==".toList, "é=A=5".toList, "A=".toList, "==".toList] := by decide +kernel
  obtain ⟨-, hfree, -⟩ := hall ["A=====".toList, "é=A=5".toList]
  have hwide : "é=A=5".toList ∈ expandChains ["A=====".toList, "é=A=5".toList] := by
    rw [hexpand]
    exact List.mem_cons_of_mem _ List.mem_cons_self
  have hmem : "B=5".toList ∈ tokenize ", W=B=5,".toList := by decide +kernel
  exact ⟨(hruns _ _ _).2 ⟨by decide +kernel, by decide +kernel⟩, hexpand, hfree _ hwide, hmem,
    (hbody _ _ hmem).2⟩

end MicroAsm
