import Mathlib.Data.List.Infix
import MicroAsm.CommandLine.Arguments
import MicroAsm.Proofs.Failure
import MicroAsm.Proofs.GivenOptions
/-!
Where the settings of a command come from. A parse takes its words piece by piece, and a setting
that belongs to one option has a value that stands with this option among the words.
-/
namespace MicroAsm

/-- The word that an argument is read from. -/
def Argument.word : Argument → Text
  | operand w => w
  | long name none => "--".toList ++ name
  | long name (some value) => "--".toList ++ name ++ '=' :: value
  | short letter attached => '-' :: letter :: attached
  | endOfOptions => "--".toList

theorem word_ofWord (word : Text) : (Argument.ofWord word).word = word := by
  unfold Argument.ofWord
  split
  · rfl
  · rename_i s _
    have hs : s.takeWhile (· != '=') ++ s.dropWhile (· != '=') = s :=
      List.takeWhile_append_dropWhile
    split
    · rfl
    · rename_i c value hdrop
      have hc : c = '=' := by simpa [hdrop] using List.head?_dropWhile_not (· != '=') s
      subst hc
      rw [hdrop] at hs
      show "--".toList ++ s.takeWhile (· != '=') ++ '=' :: value = _
      rw [List.append_assoc, hs]
      rfl
  · rfl
  · rfl
  · rfl

theorem eq_of_ofWord_operand {word w : Text} (h : Argument.ofWord word = .operand w) :
    word = w := by
  rw [← word_ofWord word, h]
  rfl

/-- Values of options are operands. -/
theorem ofWord_eq_operand_iff {word : Text} :
    Argument.ofWord word = .operand word ↔ ∀ c s, word ≠ '-' :: c :: s := by
  constructor
  · rintro h c s rfl
    by_cases hc : c = '-'
    · subst hc
      cases s with
      | nil => contradiction
      | cons d s =>
        simp only [Argument.ofWord] at h
        split at h <;> contradiction
    · simp [Argument.ofWord, hc] at h
  · intro h
    unfold Argument.ofWord
    split
    · exact absurd rfl (h '-' [])
    · exact absurd rfl (h '-' _)
    · rfl
    · exact absurd rfl (h _ _)
    · rfl

namespace Grammar
variable {σ : Type} {g : Grammar σ} {s s' : σ} {word value : Text} {words : List Text}
  {rest : Option (Text × List Text)}

theorem exists_rule_of_flag {apply : σ → Option σ} {attached : Option Text}
    (h : g.option? (Argument.ofWord word) = some (.flag apply, attached)) :
    ∃ r ∈ g.options, r.action = .flag apply := by
  cases hw : Argument.ofWord word with
  | operand w => simp [hw, option?] at h
  | endOfOptions => simp [hw, option?] at h
  | long name attached =>
    rw [hw] at h
    obtain ⟨r, hr, heq⟩ := Option.map_eq_some_iff.1 h
    exact ⟨r, List.mem_of_find?_eq_some hr, congrArg Prod.fst heq⟩
  | short letter attached =>
    rw [hw] at h
    obtain ⟨r, hr, heq⟩ := Option.map_eq_some_iff.1 h
    refine ⟨r, List.mem_of_find?_eq_some hr, ?_⟩
    split at heq <;> simp_all

theorem exists_rule_of_value {apply : σ → Text → Option σ} {attached : Option Text}
    (h : g.option? (Argument.ofWord word) = some (.value apply, attached)) :
    ∃ r ∈ g.options, r.action = .value apply ∧ WritesOption r.long r.short word attached := by
  have hword := word_ofWord word
  cases hw : Argument.ofWord word with
  | operand w => simp [hw, option?] at h
  | endOfOptions => simp [hw, option?] at h
  | long name value? =>
    rw [hw] at h hword
    obtain ⟨r, hr, heq⟩ := Option.map_eq_some_iff.1 h
    obtain ⟨haction, rfl⟩ := Prod.mk.inj heq
    have hname : r.long = name := by simpa using List.find?_some hr
    refine ⟨r, List.mem_of_find?_eq_some hr, haction, ?_⟩
    rw [← hword, ← hname]
    cases value? with
    | none => exact .long
    | some value => exact .longAttached value
  | short letter text =>
    rw [hw] at h hword
    obtain ⟨r, hr, heq⟩ := Option.map_eq_some_iff.1 h
    have hletter : r.short = some letter := by simpa using List.find?_some hr
    have haction : r.action = .value apply := by
      split at heq <;> simp_all
    refine ⟨r, List.mem_of_find?_eq_some hr, haction, ?_⟩
    rw [← hword]
    rw [haction] at heq
    cases text with
    | nil =>
      obtain rfl := (Prod.mk.inj heq).2
      exact .short letter hletter
    | cons d value =>
      by_cases hd : d = '='
      · subst hd
        obtain rfl := (Prod.mk.inj heq).2
        exact .shortEquals letter hletter value
      · have hvalue : some (d :: value) = attached := by
          split at heq <;> simp_all
        subst hvalue
        exact .shortAttached letter hletter d hd value

theorem accept_eq_ok_iff {o : Option σ} : accept o = .ok s ↔ o = some s := by
  cases o <;> simp [accept]

/-- A setting that one option alone changes, from nothing to its value. -/
structure SetBy (g : Grammar σ) (long : Text) (short : Option Char) (apply : σ → Text → Option σ)
    (view : σ → Option Text) : Prop where
  subcommands : g.subcommands = []
  found : ∀ word attached, WritesOption long short word attached →
    g.option? (Argument.ofWord word) = some (.value apply, attached)
  sets : ∀ s w s', apply s w = some s' → view s = none ∧ view s' = some w
  operand : ∀ s w s', g.operand s w = some s' → view s' = view s
  flag : ∀ r ∈ g.options, ∀ other, r.action = .flag other →
    ∀ s s', other s = some s' → view s' = view s
  value : ∀ r ∈ g.options, ∀ other, r.action = .value other →
    (r.long = long ∧ r.short = short) ∨ ∀ s w s', other s w = some s' → view s' = view s

theorem ne_end_of_option {action : OptionAction σ} {attached : Option Text}
    (h : g.option? (Argument.ofWord word) = some (action, attached)) : word ≠ "--".toList := by
  rintro rfl
  contradiction

namespace SetBy
variable {long : Text} {short : Option Char} {apply other : σ → Text → Option σ}
  {view : σ → Option Text} {attached : Option Text} (hv : g.SetBy long short apply view)
include hv

theorem view_operands (h : words.foldlM (fun s w => accept (g.operand s w)) s = .ok s') :
    view s' = view s := by
  induction words generalizing s with
  | nil =>
    obtain rfl := Except.ok.inj h
    rfl
  | cons word words ih =>
    rw [List.foldlM_cons] at h
    obtain ⟨t, ht, hwords⟩ := bind_eq_ok_iff.1 h
    rw [ih hwords, hv.operand s word t (accept_eq_ok_iff.1 ht)]

theorem not_writes_of_operand {w : Text} (hword : Argument.ofWord word = .operand w)
    (attached : Option Text) : ¬WritesOption long short word attached := by
  intro h
  have hfound := hv.found word attached h
  simp [hword, option?] at hfound

theorem not_writes_of_flag {f : σ → Option σ}
    (hopt : g.option? (Argument.ofWord word) = some (.flag f, none)) (attached : Option Text) :
    ¬WritesOption long short word attached := by
  intro h
  have hfound := hv.found word attached h
  simp [hopt] at hfound

/-- A value goes to the setting, or to another option. -/
theorem view_value (hopt : g.option? (Argument.ofWord word) = some (.value other, attached))
    (h : other s value = some s') :
    (WritesOption long short word attached ∧ view s = none ∧ view s' = some value) ∨
      ((∀ attached, ¬WritesOption long short word attached) ∧ view s' = view s) := by
  by_cases hwrites : ∃ attached, WritesOption long short word attached
  · obtain ⟨attached', hwrites⟩ := hwrites
    have hfound := hv.found word attached' hwrites
    rw [hopt] at hfound
    obtain ⟨hother, rfl⟩ := Prod.mk.inj (Option.some.inj hfound)
    obtain rfl := OptionAction.value.inj hother
    exact .inl ⟨hwrites, hv.sets s value s' h⟩
  · rw [not_exists] at hwrites
    obtain ⟨r, hr, haction, hrule⟩ := exists_rule_of_value hopt
    rcases hv.value r hr other haction with ⟨rfl, rfl⟩ | hsame
    · exact absurd hrule (hwrites _)
    · exact .inr ⟨hwrites, hsame s value s' h⟩

end SetBy

section Given
variable {long : Text} {short : Option Char} {given : Text}

theorem given_later_iff (hend : word ≠ "--".toList)
    (hword : ∀ attached, ¬WritesOption long short word attached) :
    Given long short value (word :: words) ↔ Given long short value words := by
  constructor
  · intro h
    cases h with
    | attached h => exact absurd h (hword _)
    | separate h _ => exact absurd h (hword _)
    | later _ h => exact h
  · exact .later hend

variable {apply : σ → Text → Option σ} {view : σ → Option Text}
  (hv : g.SetBy long short apply view)
include hv

theorem not_given_end (hword : Argument.ofWord word = .endOfOptions) :
    ¬Given long short value (word :: words) := by
  have hwrites (attached : Option Text) : ¬WritesOption long short word attached := by
    intro h
    have hfound := hv.found word attached h
    simp [hword, option?] at hfound
  intro h
  cases h with
  | attached h => exact hwrites _ h
  | separate h _ => exact hwrites _ h
  | later hend _ =>
    rw [← word_ofWord word, hword] at hend
    exact hend rfl

theorem given_operand_iff {w : Text} (hword : Argument.ofWord word = .operand w) :
    Given long short value (word :: words) ↔ Given long short value words := by
  apply given_later_iff
  · rintro rfl
    contradiction
  · exact hv.not_writes_of_operand hword

theorem attached_unique {a b : Option Text} (ha : WritesOption long short word a)
    (hb : WritesOption long short word b) : a = b := by
  have h := hv.found word a ha
  rw [hv.found word b hb] at h
  exact (Prod.mk.inj (Option.some.inj h)).2.symm

theorem given_attached_iff (h : WritesOption long short word (some given)) :
    Given long short value (word :: words) ↔ value = given ∨ Given long short value words := by
  constructor
  · intro hgiven
    cases hgiven with
    | attached h' => exact .inl (Option.some.inj (attached_unique hv h' h))
    | separate h' _ => exact absurd (attached_unique hv h' h) (by simp)
    | later _ hlater => exact .inr hlater
  · rintro (rfl | hlater)
    · exact .attached h
    · exact .later (ne_end_of_option (hv.found word _ h)) hlater

theorem given_separate_iff (h : WritesOption long short word none)
    (hgiven : Argument.ofWord given = .operand given) :
    Given long short value (word :: given :: words) ↔
      value = given ∨ Given long short value words := by
  have hvalue := ofWord_eq_operand_iff.1 hgiven
  constructor
  · intro hor
    cases hor with
    | attached h' => exact absurd (attached_unique hv h' h) (by simp)
    | separate _ _ => exact .inl rfl
    | later _ hlater => exact .inr ((given_operand_iff hv hgiven).1 hlater)
  · rintro (rfl | hlater)
    · exact .separate h hvalue
    · exact .later (ne_end_of_option (hv.found word _ h)) ((given_operand_iff hv hgiven).2 hlater)

/-- A whole parse: the setting has the value that was there before or that is given among the
words. -/
theorem SetBy.view_parse_iff (h : g.parse s words = .ok (s', rest)) :
    view s' = some value ↔ view s = some value ∨ Given long short value words := by
  fun_induction Grammar.parse g s words with
  | case1 s =>
    obtain ⟨rfl, rfl⟩ := Prod.mk.inj (Except.ok.inj h)
    have hnone : ¬Given long short value [] := nofun
    simp [hnone]
  | case2 s word words hw =>
    obtain ⟨t, ht, hpair⟩ := bind_eq_ok_iff.1 h
    obtain ⟨rfl, rfl⟩ := Prod.mk.inj (Except.ok.inj hpair)
    rw [hv.view_operands ht, or_iff_left (not_given_end hv hw)]
  | case3 s word words w hw hsub => simp [hv.subcommands] at hsub
  | case4 s word words w hw hsub ih =>
    obtain ⟨t, ht, hwords⟩ := bind_eq_ok_iff.1 h
    rw [ih t hwords, given_operand_iff hv hw, hv.operand s w t (accept_eq_ok_iff.1 ht)]
  | case7 s word words f _ _ hopt ih =>
    obtain ⟨t, ht, hwords⟩ := bind_eq_ok_iff.1 h
    obtain ⟨r, hr, hact⟩ := exists_rule_of_flag hopt
    rw [ih t hwords, given_later_iff (ne_end_of_option hopt) (hv.not_writes_of_flag hopt),
      hv.flag r hr f hact s t (accept_eq_ok_iff.1 ht)]
  | case8 s word words other given _ _ hopt ih =>
    obtain ⟨t, ht, hwords⟩ := bind_eq_ok_iff.1 h
    rw [ih t hwords]
    rcases hv.view_value hopt (accept_eq_ok_iff.1 ht) with ⟨hwrites, hs, ht⟩ | ⟨hwrites, ht⟩
    · rw [given_attached_iff hv hwrites, hs, ht]
      simp [eq_comm]
    · rw [given_later_iff (ne_end_of_option hopt) hwrites, ht]
  | case10 s word other next words given hnext _ _ hopt ih =>
    obtain ⟨t, ht, hwords⟩ := bind_eq_ok_iff.1 h
    rw [ih t hwords]
    obtain rfl := eq_of_ofWord_operand hnext
    rcases hv.view_value hopt (accept_eq_ok_iff.1 ht) with ⟨hwrites, hs, ht⟩ | ⟨hwrites, ht⟩
    · rw [given_separate_iff hv hwrites hnext, hs, ht]
      simp [eq_comm]
    · rw [given_later_iff (ne_end_of_option hopt) hwrites, given_operand_iff hv hnext, ht]
  | _ => contradiction

end Given

/-- The words from a subcommand on are the last ones. -/
theorem suffix_of_parse {w : Text} {ws : List Text}
    (h : g.parse s words = .ok (s', some (w, ws))) : w :: ws <:+ words := by
  fun_induction Grammar.parse g s words with
  | case1 s => simp at h
  | case2 s word words _ =>
    obtain ⟨t, -, hpair⟩ := bind_eq_ok_iff.1 h
    simp [pure, Except.pure] at hpair
  | case3 s word words w' hw hsub =>
    obtain rfl := eq_of_ofWord_operand hw
    obtain ⟨-, hrest⟩ := Prod.mk.inj (Except.ok.inj h)
    obtain ⟨rfl, rfl⟩ := Prod.mk.inj (Option.some.inj hrest)
    exact List.suffix_rfl
  | case4 s word words _ _ _ ih | case7 s word words _ _ _ _ ih | case8 s word words _ _ _ _ _ ih =>
    obtain ⟨t, -, hwords⟩ := bind_eq_ok_iff.1 h
    exact (ih t hwords).trans (List.suffix_cons word words)
  | case10 s word _ next words _ _ _ _ _ ih =>
    obtain ⟨t, -, hwords⟩ := bind_eq_ok_iff.1 h
    exact (ih t hwords).trans ((List.suffix_cons next words).trans (List.suffix_cons word _))
  | _ => contradiction

end Grammar
end MicroAsm
