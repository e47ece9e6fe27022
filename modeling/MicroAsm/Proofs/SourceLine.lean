import Mathlib.Data.List.TakeWhile
import MicroAsm.Source.CodeLine
import MicroAsm.Source.Token
/-!
Tokens that can be written side by side as a line of a source and are found there again.
-/
namespace MicroAsm
open Text

/-- A character that means nothing to the source but itself. -/
def isQuiet (c : Char) : Bool :=
  c.toNat < 128 && c.toUpper == c && c != '\n' && c != ';' && c != ','

/-- A token that reaches the solver as it is written. -/
def isBare (token : Text) : Bool :=
  token.all isQuiet && token.head?.any (!isBlank ·) && token.getLast?.any (!isBlank ·) &&
    token[3]? != some '='

section Trims
variable {s t : Text}

theorem trimLeft_of_head (h : s.head?.any (!isBlank ·) = true) : trimLeft s = s := by
  cases s with
  | nil => rfl
  | cons c s =>
    have hc : isBlank c = false := by simpa using h
    exact List.dropWhile_cons_of_neg (by simp [hc])

theorem trimRight_of_last (h : s.getLast?.any (!isBlank ·) = true) : trimRight s = s := by
  have hr : s.reverse.head?.any (!isBlank ·) = true := by rwa [List.head?_reverse]
  have ht : s.reverse.dropWhile isBlank = s.reverse := trimLeft_of_head hr
  rw [trimRight, ht, List.reverse_reverse]

end Trims

theorem unchain_of_link {token : Text} (h : token[3]? ≠ some '=') :
    unchain token = ([], token) := by
  unfold unchain
  split
  · split
    · exact absurd rfl h
    · rfl
  · rfl

theorem expandChains_eq_self {tokens : List Text}
    (h : ∀ token ∈ tokens, unchain token = ([], token)) : expandChains tokens = tokens := by
  have hlast : tokens.map lastLink = tokens.map id := by
    apply List.map_congr_left
    intro token ht
    rw [lastLink, h token ht]
    rfl
  have hother : tokens.flatMap otherLinks = [] := by
    rw [List.flatMap_eq_nil_iff]
    intro token ht
    rw [otherLinks, h token ht]
    rfl
  rw [expandChains, hlast, hother, List.map_id, List.append_nil]

theorem expandChains_of_links {tokens : List Text} (h : ∀ token ∈ tokens, token[3]? ≠ some '=') :
    expandChains tokens = tokens :=
  expandChains_eq_self fun token ht => unchain_of_link (h token ht)

section Bare
variable {token : Text} {tokens : List Text}

theorem isBare_iff : isBare token = true ↔ (∀ c ∈ token, isQuiet c = true) ∧
    token.head?.any (!isBlank ·) = true ∧ token.getLast?.any (!isBlank ·) = true ∧
    token[3]? ≠ some '=' := by
  simp [isBare, and_assoc]

theorem ne_nil_of_bare (h : isBare token = true) : token ≠ [] := by
  intro hnil
  subst hnil
  simp [isBare] at h

theorem trim_of_bare (h : isBare token = true) : trim token = token := by
  obtain ⟨-, hfirst, hlast, -⟩ := isBare_iff.1 h
  rw [trim, trimLeft_of_head hfirst, trimRight_of_last hlast]

/-- Bare tokens between commas are taken apart again. -/
theorem tokenize_intercalate (h : ∀ token ∈ tokens, isBare token = true) (hne : tokens ≠ []) :
    tokenize ([','].intercalate tokens) = tokens := by
  have hcomma : ∀ token ∈ tokens, ',' ∉ token := by
    intro token ht hc
    have hq := (isBare_iff.1 (h token ht)).1 _ hc
    simp [isQuiet] at hq
  have htrim : tokens.map trim = tokens.map id :=
    List.map_congr_left fun token ht => trim_of_bare (h token ht)
  have hfilter : (tokens.filter fun t => !t.isEmpty) = tokens := by
    rw [List.filter_eq_self]
    intro token ht
    simpa using ne_nil_of_bare (h token ht)
  rw [tokenize, List.splitOn_intercalate _ hcomma hne, htrim, List.map_id, hfilter]
  exact expandChains_of_links fun token ht => (isBare_iff.1 (h token ht)).2.2.2

/-- The text between the first and the last token does not matter to the ends. -/
theorem intercalate_ends (h : ∀ token ∈ tokens, isBare token = true) (hne : tokens ≠ []) :
    ([','].intercalate tokens).head?.any (!isBlank ·) = true ∧
      ([','].intercalate tokens).getLast?.any (!isBlank ·) = true := by
  induction tokens with
  | nil => contradiction
  | cons token tokens ih =>
    obtain ⟨-, hfirst, hlast, -⟩ := isBare_iff.1 (h token List.mem_cons_self)
    cases tokens with
    | nil =>
      rw [List.intercalate_singleton]
      exact ⟨hfirst, hlast⟩
    | cons next tokens =>
      obtain ⟨-, hend⟩ := ih (fun t ht => h t (List.mem_cons_of_mem _ ht)) (List.cons_ne_nil _ _)
      rw [List.intercalate_cons_cons]
      constructor
      · cases token with
        | nil => simp at hfirst
        | cons c token => exact hfirst
      · rw [List.getLast?_append]
        generalize ([','].intercalate (next :: tokens)).getLast? = o at hend ⊢
        cases o with
        | none => simp at hend
        | some c => exact hend

theorem quiet_intercalate (h : ∀ token ∈ tokens, isBare token = true) {c : Char}
    (hc : c ∈ [','].intercalate tokens) : c = ',' ∨ isQuiet c = true := by
  induction tokens with
  | nil => simp at hc
  | cons token tokens ih =>
    have htoken := (isBare_iff.1 (h token List.mem_cons_self)).1
    have hrest := fun hm => ih (fun t ht => h t (List.mem_cons_of_mem _ ht)) hm
    cases tokens with
    | nil =>
      rw [List.intercalate_singleton] at hc
      exact Or.inr (htoken c hc)
    | cons next tokens =>
      rw [List.intercalate_cons_cons, List.mem_append, List.mem_append] at hc
      rcases hc with (hc | hc) | hc
      · exact Or.inr (htoken c hc)
      · exact Or.inl (List.mem_singleton.1 hc)
      · exact hrest hc

end Bare

theorem lines_of_one {s : Text} (hne : s ≠ []) (h : '\n' ∉ s) : lines s = [s] := by
  induction s with
  | nil => contradiction
  | cons c s ih =>
    have hc : c ≠ '\n' := fun he => h (he ▸ List.mem_cons_self)
    have hs : '\n' ∉ s := fun hm => h (List.mem_cons_of_mem c hm)
    have hhead : c = '\r' → s.head? ≠ some '\n' := by
      intro _ hn
      exact hs (List.mem_of_mem_head? hn)
    rw [lines_cons hc hhead]
    cases s with
    | nil => rfl
    | cons d s =>
      rw [ih (List.cons_ne_nil d s) hs]
      rfl

theorem upper_of_quiet {s : Text} (h : ∀ c ∈ s, c.toNat < 128 ∧ c.toUpper = c) : upper s = s := by
  induction s with
  | nil => rfl
  | cons c s ih =>
    obtain ⟨hascii, hupper⟩ := h c List.mem_cons_self
    rw [upper_cons, upperChar_ascii hascii, hupper, ih fun d hd => h d (List.mem_cons_of_mem c hd)]
    rfl

/-- Bare tokens form a line of a source, with a blank in front of them and commas between. -/
theorem codeLines_of_bare {tokens : List Text} (h : ∀ token ∈ tokens, isBare token = true)
    (hne : tokens ≠ []) : ∃ l, codeLines (' ' :: [','].intercalate tokens) = [l] ∧
      l.body = [','].intercalate tokens := by
  obtain ⟨hfirst, hlast⟩ := intercalate_ends h hne
  have hchar {c : Char} (hc : c ∈ ' ' :: [','].intercalate tokens) :
      c = ' ' ∨ c = ',' ∨ isQuiet c = true := by
    rcases List.mem_cons.1 hc with hc | hc
    · exact Or.inl hc
    · exact Or.inr (quiet_intercalate h hc)
  generalize [','].intercalate tokens = body at *
  have hquiet : ∀ c ∈ ' ' :: body, (c.toNat < 128 ∧ c.toUpper = c) ∧ c ≠ '\n' ∧ c ≠ ';' := by
    intro c hc
    rcases hchar hc with rfl | rfl | hq
    · decide
    · decide
    · simp only [isQuiet, Bool.and_eq_true, decide_eq_true_eq, beq_iff_eq, bne_iff_ne] at hq
      exact ⟨hq.1.1.1, hq.1.1.2, hq.1.2⟩
  have hbody : body ≠ [] := by
    intro hnil
    subst hnil
    simp at hfirst
  have hend : (' ' :: body).getLast?.any (!isBlank ·) = true := by
    rwa [List.getLast?_cons_of_ne_nil hbody]
  have hcode : codeOf (' ' :: body) = ' ' :: body := by
    have hsemi : (' ' :: body).takeWhile (· != ';') = ' ' :: body :=
      List.takeWhile_eq_self_iff.2 fun c hc => by simpa using (hquiet c hc).2.2
    rw [codeOf, hsemi, trimRight_of_last hend, upper_of_quiet fun c hc => (hquiet c hc).1]
  refine ⟨⟨1, ' ' :: body⟩, ?_, ?_⟩
  · rw [codeLines, lines_of_one (List.cons_ne_nil _ _) fun hc => (hquiet _ hc).2.1 rfl]
    simp [hcode]
  · have hblank : CodeLine.body ⟨1, ' ' :: body⟩ = trim body := rfl
    rw [hblank, trim, trimLeft_of_head hfirst, trimRight_of_last hlast]

end MicroAsm
