import MicroAsm.Proofs.Rotation
import MicroAsm.Proofs.SourceLine
import MicroAsm.Proofs.Trimming
/-!
Chains are a shorthand. A chain has the tokens of its links written out between commas, although in
another order, and the order of the tokens does not matter to the solution of a line.
-/
namespace MicroAsm
open Text

def chain : List Char → Text → Text
  | [], rhs => rhs
  | d :: ds, rhs => d :: '=' :: chain ds rhs

/-- The links of a chain, each with the right side of the chain. -/
def links (destinations : List Char) (rhs : Text) : List Text :=
  destinations.map fun d => chain [d] rhs

/-- A character that can be assigned in a chain. The names of units are among them. -/
def isDestination (c : Char) : Bool :=
  c.toNat < 128 && c != ',' && !isBlank c

theorem isDestination_iff {c : Char} :
    isDestination c = true ↔ c.toNat < 128 ∧ c ≠ ',' ∧ isBlank c = false := by
  simp [isDestination, and_assoc]

/-- Blanks apart, the text is empty or ends in a comma. -/
def EndsAtComma (s : Text) : Prop := (trimRight s).getLast?.all (· == ',') = true

/-- Blanks apart, the text is empty or begins with a comma. -/
def BeginsAtComma (s : Text) : Prop := (trimLeft s).head?.all (· == ',') = true

instance (s : Text) : Decidable (EndsAtComma s) := inferInstanceAs (Decidable (_ = true))

instance (s : Text) : Decidable (BeginsAtComma s) := inferInstanceAs (Decidable (_ = true))

/-- The tokens of a body before chains are taken apart. -/
def fragments (body : Text) : List Text :=
  ((body.splitOn ',').map trim).filter fun t => !t.isEmpty

theorem tokenize_eq (body : Text) : tokenize body = expandChains (fragments body) := rfl

section Fragments
variable {s t w before after : Text}

theorem fragments_comma (s t : Text) : fragments (s ++ ',' :: t) = fragments s ++ fragments t := by
  have hsplit : (s ++ ',' :: t).splitOn ',' = s.splitOn ',' ++ t.splitOn ',' :=
    List.splitOnP_append_cons s t (beq_self_eq_true ',')
  rw [fragments, hsplit, List.map_append, List.filter_append]
  rfl

theorem fragments_blank_append (hw : Blank w) (s : Text) : fragments (w ++ s) = fragments s := by
  rw [fragments, map_trim_splitOn_blank_append hw]
  rfl

theorem fragments_append_blank (hw : Blank w) (s : Text) : fragments (s ++ w) = fragments s := by
  rw [fragments, map_trim_splitOn_append_blank hw]
  rfl

theorem fragments_of_blank (hw : Blank w) : fragments w = [] := fragments_append_blank hw []

/-- A text up to a comma has its fragments to itself. -/
theorem EndsAtComma.fragments_append (h : EndsAtComma before) (t : Text) :
    fragments (before ++ t) = fragments before ++ fragments t := by
  obtain ⟨w, hw, hs⟩ := exists_trimRight_append before
  unfold EndsAtComma at h
  cases hlast : (trimRight before).getLast? with
  | none =>
    rw [List.getLast?_eq_none_iff.1 hlast, List.nil_append] at hs
    rw [hs, fragments_blank_append hw, fragments_of_blank hw, List.nil_append]
  | some c =>
    obtain rfl : c = ',' := by simpa [hlast] using h
    obtain ⟨p, hp⟩ := List.getLast?_eq_some_iff.1 hlast
    rw [hp, List.append_assoc, List.singleton_append] at hs
    rw [hs, List.append_assoc, List.cons_append, fragments_comma, fragments_comma,
      fragments_blank_append hw, fragments_of_blank hw, List.append_nil]

theorem BeginsAtComma.fragments_append (h : BeginsAtComma after) (s : Text) :
    fragments (s ++ after) = fragments s ++ fragments after := by
  obtain ⟨v, hv, hs⟩ := exists_append_trimLeft after
  unfold BeginsAtComma at h
  cases hhead : trimLeft after with
  | nil =>
    rw [hhead, List.append_nil] at hs
    rw [hs, fragments_append_blank hv, fragments_of_blank hv, List.append_nil]
  | cons c p =>
    obtain rfl : c = ',' := by simpa [hhead] using h
    rw [hhead] at hs
    rw [hs, ← List.append_assoc, fragments_comma, fragments_comma, fragments_append_blank hv,
      fragments_of_blank hv, List.nil_append]

end Fragments

section Chain
variable {ds : List Char} {d m c : Char} {rhs : Text}

theorem chain_append (ds es : List Char) (rhs : Text) :
    chain (ds ++ es) rhs = chain ds (chain es rhs) := by
  induction ds with
  | nil => rfl
  | cons d ds ih => rw [List.cons_append, chain, ih, chain]

theorem chain_append_text (ds : List Char) (s t : Text) : chain ds (s ++ t) = chain ds s ++ t := by
  induction ds with
  | nil => rfl
  | cons d ds ih => rw [chain, ih, chain, List.cons_append, List.cons_append]

theorem mem_chain (h : c ∈ chain ds rhs) : c ∈ ds ∨ c = '=' ∨ c ∈ rhs := by
  induction ds with
  | nil => exact Or.inr (Or.inr h)
  | cons d ds ih =>
    rw [chain, List.mem_cons, List.mem_cons] at h
    rcases h with rfl | rfl | h
    · exact Or.inl List.mem_cons_self
    · exact Or.inr (Or.inl rfl)
    · exact (ih h).imp_left (List.mem_cons_of_mem d)

theorem trimRight_chain (hd : ∀ d ∈ ds, isBlank d = false) (rhs : Text) :
    trimRight (chain ds rhs) = chain ds (trimRight rhs) := by
  induction ds with
  | nil => rfl
  | cons d ds ih =>
    have hequals : isBlank '=' = false := by decide
    rw [chain, trimRight_cons (hd d List.mem_cons_self), trimRight_cons hequals,
      ih fun e he => hd e (List.mem_cons_of_mem d he), chain]

theorem trim_chain (hne : ds ≠ []) (hds : ∀ d ∈ ds, isDestination d = true) (rhs : Text) :
    trim (chain ds rhs) = chain ds (trimRight rhs) := by
  have hblank : ∀ d ∈ ds, isBlank d = false := fun d hd => (isDestination_iff.1 (hds d hd)).2.2
  have hleft : trimLeft (chain ds rhs) = chain ds rhs := by
    cases ds with
    | nil => contradiction
    | cons d ds => exact List.dropWhile_cons_of_neg (by simp [hblank d List.mem_cons_self])
  rw [trim, hleft, trimRight_chain hblank]

theorem chain_ne_nil (hne : ds ≠ []) (rhs : Text) : chain ds rhs ≠ [] := by
  cases ds with
  | nil => contradiction
  | cons d ds => exact List.cons_ne_nil _ _

theorem comma_notMem_chain (hds : ∀ d ∈ ds, isDestination d = true) (hr : ',' ∉ rhs) :
    ',' ∉ chain ds rhs := by
  intro h
  rcases mem_chain h with h | h | h
  · exact (isDestination_iff.1 (hds _ h)).2.1 rfl
  · contradiction
  · exact hr h

theorem fragments_chain (hne : ds ≠ []) (hds : ∀ d ∈ ds, isDestination d = true)
    (hr : ',' ∉ rhs) : fragments (chain ds rhs) = [chain ds (trimRight rhs)] := by
  have hsplit : (chain ds rhs).splitOn ',' = [chain ds rhs] := by
    apply List.splitOnP_eq_singleton
    intro c hc
    simpa using fun h : c = ',' => comma_notMem_chain hds hr (h ▸ hc)
  have hkept : chain ds (trimRight rhs) ≠ [] := chain_ne_nil hne _
  rw [fragments, hsplit, List.map_singleton, trim_chain hne hds]
  simp [hkept]

theorem fragments_links (hne : ds ≠ []) (hds : ∀ d ∈ ds, isDestination d = true)
    (hr : ',' ∉ rhs) :
    fragments ([','].intercalate (links ds rhs)) = links ds (trimRight rhs) := by
  have hsingle : ∀ d ∈ ds, ∀ e ∈ [d], isDestination e = true :=
    fun d hd e he => List.mem_singleton.1 he ▸ hds d hd
  have hcomma : ∀ link ∈ links ds rhs, ',' ∉ link := by
    intro link hl
    obtain ⟨d, hd, rfl⟩ := List.mem_map.1 hl
    exact comma_notMem_chain (hsingle d hd) hr
  have htrim : (links ds rhs).map trim = links ds (trimRight rhs) := by
    rw [links, List.map_map]
    apply List.map_congr_left
    intro d hd
    exact trim_chain (List.cons_ne_nil _ _) (hsingle d hd) rhs
  have hkept : ((links ds (trimRight rhs)).filter fun t => !t.isEmpty) =
      links ds (trimRight rhs) := by
    rw [List.filter_eq_self]
    intro link hl
    obtain ⟨d, -, rfl⟩ := List.mem_map.1 hl
    rfl
  have hlinks : links ds rhs ≠ [] := by simpa [links] using hne
  rw [fragments, List.splitOn_intercalate _ hcomma hlinks, htrim, hkept]

/-- A link is no chain itself. -/
theorem link_getElem?_ne (hr : '=' ∉ rhs) (d : Char) : (chain [d] rhs)[3]? ≠ some '=' :=
  fun h => hr (List.mem_of_getElem? (i := 1) h)

theorem unchain_link (hr : '=' ∉ rhs) (d : Char) :
    unchain (chain [d] rhs) = ([], chain [d] rhs) := unchain_of_link (link_getElem?_ne hr d)

theorem unchain_cons {e : Char} {es : List Char} (hd : d.toNat < 128) (he : e.toNat < 128) :
    unchain (chain (d :: e :: es) rhs) =
      (d :: (unchain (chain (e :: es) rhs)).1, (unchain (chain (e :: es) rhs)).2) := by
  rw [chain, chain, unchain]
  simp [hd, he]

theorem unchain_chain (hds : ∀ d ∈ ds ++ [m], d.toNat < 128) (hr : '=' ∉ rhs) :
    unchain (chain (ds ++ [m]) rhs) = (ds, chain [m] rhs) := by
  induction ds with
  | nil => exact unchain_link hr m
  | cons d ds ih =>
    have hrest := ih fun e he => hds e (List.mem_cons_of_mem d he)
    rw [List.cons_append] at hds ⊢
    obtain ⟨e, es, hes⟩ := List.exists_cons_of_ne_nil (List.append_ne_nil_of_right_ne_nil ds
      (List.cons_ne_nil m []))
    rw [hes] at hds hrest ⊢
    have hd : d.toNat < 128 := hds d List.mem_cons_self
    have he : e.toNat < 128 := hds e (List.mem_cons_of_mem d List.mem_cons_self)
    rw [unchain_cons hd he, hrest]

theorem afterLastEquals_append (hr : '=' ∉ rhs) (s : Text) :
    afterLastEquals (s ++ '=' :: rhs) = rhs := by
  have hno : '=' ∉ rhs.reverse := fun hm => hr (List.mem_reverse.1 hm)
  rw [afterLastEquals, List.reverse_append, List.reverse_cons, List.append_assoc,
    List.singleton_append, takeWhile_append_cons hno, List.reverse_reverse]

/-- The right side of a chain is behind its last equals sign. -/
theorem afterLastEquals_chain (hr : '=' ∉ rhs) : afterLastEquals (chain (ds ++ [m]) rhs) = rhs := by
  have h : chain (ds ++ [m]) rhs = chain ds [m] ++ '=' :: rhs := by
    rw [chain_append, ← chain_append_text]
    rfl
  rw [h, afterLastEquals_append hr]

end Chain

section Expansion
variable {ds : List Char} {m : Char} {rhs : Text}

/-- A chain leaves its last link in its place and the others behind. -/
theorem expandChains_chain (hds : ∀ d ∈ ds ++ [m], d.toNat < 128) (hr : '=' ∉ rhs) :
    expandChains [chain (ds ++ [m]) rhs] = chain [m] rhs :: links ds rhs := by
  have hun := unchain_chain hds hr
  have hlast : lastLink (chain (ds ++ [m]) rhs) = chain [m] rhs := by rw [lastLink, hun]
  have hother : otherLinks (chain (ds ++ [m]) rhs) = links ds rhs := by
    rw [otherLinks, hun, afterLastEquals_chain hr]
    rfl
  rw [expandChains, List.map_singleton, List.flatMap_singleton, hlast, hother,
    List.singleton_append]

theorem expandChains_links (hr : '=' ∉ rhs) (ds : List Char) :
    expandChains (links ds rhs) = links ds rhs := by
  apply expandChains_of_links
  intro link hl
  obtain ⟨d, -, rfl⟩ := List.mem_map.1 hl
  exact link_getElem?_ne hr d

theorem expandChains_append_perm (xs ys : List Text) :
    (expandChains (xs ++ ys)).Perm (expandChains xs ++ expandChains ys) := by
  simp only [expandChains, List.map_append, List.flatMap_append, List.append_assoc]
  exact (List.perm_append_comm_assoc (ys.map lastLink) (xs.flatMap otherLinks)
    (ys.flatMap otherLinks)).append_left _

/-- The tokens of a line are those of its parts, each up to a comma. -/
theorem tokenize_parts_perm {before after : Text} (hbefore : EndsAtComma before)
    (hafter : BeginsAtComma after) (s : Text) :
    (tokenize (before ++ (s ++ after))).Perm
      (tokenize before ++ (tokenize s ++ tokenize after)) := by
  have hfragments : fragments (before ++ (s ++ after)) =
      fragments before ++ (fragments s ++ fragments after) := by
    rw [hbefore.fragments_append, hafter.fragments_append]
  simp only [tokenize_eq, hfragments]
  exact (expandChains_append_perm _ _).trans ((expandChains_append_perm _ _).append_left _)

variable (hne : ds ≠ []) (hds : ∀ d ∈ ds, isDestination d = true) (hequals : '=' ∉ rhs)
  (hcomma : ',' ∉ rhs)
include hne hds hequals hcomma

theorem tokenize_links :
    tokenize ([','].intercalate (links ds rhs)) = links ds (trimRight rhs) := by
  rw [tokenize_eq, fragments_links hne hds hcomma]
  exact expandChains_links (notMem_trimRight hequals) ds

theorem tokenize_chain_perm : (tokenize (chain ds rhs)).Perm (links ds (trimRight rhs)) := by
  rw [tokenize_eq, fragments_chain hne hds hcomma]
  obtain ⟨es, m, rfl⟩ := List.eq_nil_or_concat' ds |>.resolve_left hne
  have hlinks : links (es ++ [m]) (trimRight rhs) =
      links es (trimRight rhs) ++ [chain [m] (trimRight rhs)] := List.map_append
  rw [expandChains_chain (fun d hd => (isDestination_iff.1 (hds d hd)).1)
    (notMem_trimRight hequals), hlinks]
  exact (List.perm_append_singleton _ _).symm

end Expansion

/-- A chain is a shorthand for its links. Written out in its place they are the same tokens, though
in another order, and the line has the same solutions. -/
theorem solve_chain_iff_links {ds : List Char} {rhs before after : Text} (hne : ds ≠ [])
    (hds : ∀ d ∈ ds, isDestination d = true) (hequals : '=' ∉ rhs) (hcomma : ',' ∉ rhs)
    (hbefore : EndsAtComma before) (hafter : BeginsAtComma after) :
    (tokenize (before ++ (chain ds rhs ++ after))).Perm
      (tokenize before ++ (links ds (trimRight rhs) ++ tokenize after)) ∧
    (tokenize (before ++ ([','].intercalate (links ds rhs) ++ after))).Perm
      (tokenize before ++ (links ds (trimRight rhs) ++ tokenize after)) ∧
    ∀ labels line i,
      solve labels (tokenize (before ++ (chain ds rhs ++ after))) line = .ok i ↔
      solve labels (tokenize (before ++ ([','].intercalate (links ds rhs) ++ after))) line =
        .ok i := by
  have hchain := (tokenize_parts_perm hbefore hafter (chain ds rhs)).trans
    (((tokenize_chain_perm hne hds hequals hcomma).append_right _).append_left _)
  have hlinks := tokenize_parts_perm hbefore hafter ([','].intercalate (links ds rhs))
  rw [tokenize_links hne hds hequals hcomma] at hlinks
  refine ⟨hchain, hlinks, fun labels line i => ?_⟩
  rw [solve_eq_ok_iff, solve_eq_ok_iff]
  simp only [settle_perm (hchain.trans hlinks.symm)]

/-- The chain stands between two other assignments, and its tokens are not in the order of its
links. -/
theorem solve_chain_between :
    tokenize ("C=A+B, ".toList ++ (chain ['W', 'B'] "5".toList ++ " ,F=ZERO()".toList)) ≠
      tokenize ("C=A+B, ".toList ++
        ([','].intercalate (links ['W', 'B'] "5".toList) ++ " ,F=ZERO()".toList)) ∧
    solve {} (tokenize ("C=A+B, ".toList ++ (chain ['W', 'B'] "5".toList ++ " ,F=ZERO()".toList)))
      1 = .ok { b := 3, c := 1, w := 3, f := 1, alu := 5, value := 5 } := by
  have h : solve {} (tokenize ("C=A+B, ".toList ++
      ([','].intercalate (links ['W', 'B'] "5".toList) ++ " ,F=ZERO()".toList))) 1 =
      .ok { b := 3, c := 1, w := 3, f := 1, alu := 5, value := 5 } := by decide +kernel
  have hbefore : EndsAtComma "C=A+B, ".toList := by decide +kernel
  have hafter : BeginsAtComma " ,F=ZERO()".toList := by decide +kernel
  have hunits : ∀ d ∈ ['W', 'B'], isDestination d = true := List.all_eq_true.1 rfl
  obtain ⟨-, -, hsolve⟩ := solve_chain_iff_links (List.cons_ne_nil _ _) hunits
    (by decide : '=' ∉ "5".toList) (by decide) hbefore hafter
  exact ⟨by decide +kernel, (hsolve {} 1 _).2 h⟩

end MicroAsm
