import MicroAsm.CommandLine.Parsers
import MicroAsm.Proofs.GivenOptions
import MicroAsm.Proofs.OptionValues
/-!
What both parsers do with an output option and with words that are no options.
-/
namespace MicroAsm
open Text

theorem exists_of_once_map {α σ : Type} {old new : Option α} {f : Option α → σ} {s : σ}
    (h : (once old new).map f = some s) : ∃ a, old = none ∧ new = some a ∧ f (some a) = s := by
  obtain ⟨given, hgiven, rfl⟩ := Option.map_eq_some_iff.1 h
  unfold once at hgiven
  split at hgiven
  · rename_i hnew
    rw [Bool.and_eq_true] at hnew
    obtain ⟨a, rfl⟩ := Option.isSome_iff_exists.1 hnew.2
    obtain rfl := Option.some.inj hgiven
    exact ⟨a, Option.isNone_iff_eq_none.1 hnew.1, rfl, rfl⟩
  · contradiction

/-- A path that is taken is the word itself. -/
theorem of_once_path {σ : Type} {old : Option Text} {word : Text} {f : Option Text → σ} {s : σ}
    (h : (once old (pathValue word)).map f = some s) : old = none ∧ f (some word) = s := by
  obtain ⟨path, hold, hpath, hs⟩ := exists_of_once_map h
  unfold pathValue at hpath
  split at hpath
  · contradiction
  · rw [Option.some.inj hpath]
    exact ⟨hold, hs⟩

theorem Assembler.output_setBy :
    grammar.SetBy "output".toList (some 'o') Settings.withOutput Settings.output where
  subcommands := rfl
  found word attached h := by
    cases h with
    | long => rfl
    | longAttached value => rfl
    | short c hc =>
      obtain rfl := Option.some.inj hc
      rfl
    | shortEquals c hc value =>
      obtain rfl := Option.some.inj hc
      rfl
    | shortAttached c hc d hd value =>
      obtain rfl := Option.some.inj hc
      simp [Argument.ofWord, Grammar.option?, grammar, hd]
  sets s w s' h := by
    obtain ⟨hold, rfl⟩ := of_once_path h
    exact ⟨hold, rfl⟩
  operand s w s' h := by
    obtain ⟨-, rfl⟩ := of_once_path h
    rfl
  flag r hr other hact s s' h := by
    simp only [grammar, List.mem_cons, List.not_mem_nil, or_false] at hr
    rcases hr with rfl | rfl | rfl | rfl | rfl
    · contradiction
    · contradiction
    · obtain rfl := OptionAction.flag.inj hact
      unfold Settings.withListing at h
      split at h
      · contradiction
      · obtain rfl := Option.some.inj h
        rfl
    · contradiction
    · contradiction
  value r hr other hact := by
    simp only [grammar, List.mem_cons, List.not_mem_nil, or_false] at hr
    rcases hr with rfl | rfl | rfl | rfl | rfl
    · exact .inl ⟨rfl, rfl⟩
    · obtain rfl := OptionAction.value.inj hact
      refine .inr fun s w s' h => ?_
      obtain ⟨format, -, -, rfl⟩ := exists_of_once_map h
      rfl
    · contradiction
    · contradiction
    · contradiction

theorem Disassembler.list_output_setBy :
    listGrammar.SetBy "out".toList none ViewSettings.withOutput ViewSettings.output where
  subcommands := rfl
  found word attached h := by
    cases h with
    | long => rfl
    | longAttached value => rfl
    | short _ hc | shortAttached _ hc _ _ _ | shortEquals _ hc _ => contradiction
  sets s w s' h := by
    obtain ⟨hold, rfl⟩ := of_once_path h
    exact ⟨hold, rfl⟩
  operand s w s' h := by contradiction
  flag r hr other hact := by
    simp only [listGrammar, List.mem_cons, List.not_mem_nil, or_false] at hr
    rcases hr with rfl | rfl <;> contradiction
  value r hr other hact := by
    simp only [listGrammar, List.mem_cons, List.not_mem_nil, or_false] at hr
    rcases hr with rfl | rfl
    · exact .inl ⟨rfl, rfl⟩
    · contradiction

theorem Disassembler.analyze_output_setBy :
    analyzeGrammar.SetBy "out".toList none ViewSettings.withOutput ViewSettings.output where
  subcommands := rfl
  found word attached h := by
    cases h with
    | long => rfl
    | longAttached value => rfl
    | short _ hc | shortAttached _ hc _ _ _ | shortEquals _ hc _ => contradiction
  sets := list_output_setBy.sets
  operand s w s' h := by contradiction
  flag r hr other hact := by
    rcases List.mem_cons.1 hr with rfl | hr
    · contradiction
    · exact list_output_setBy.flag r hr other hact
  value r hr other hact := by
    rcases List.mem_cons.1 hr with rfl | hr
    · obtain rfl := OptionAction.value.inj hact
      refine .inr fun s w s' h => ?_
      obtain ⟨view, -, -, rfl⟩ := exists_of_once_map h
      rfl
    · exact list_output_setBy.value r hr other hact

/-- The assembler's output is what its option gives, and the default one without the option. -/
theorem Assembler.output_given {args : List Text} {request : Request}
    (h : parse args = .ok request) :
    (∀ value, Given "output".toList (some 'o') value args → request.output = value) ∧
    (request.output = "a.out".toList ∨
      Given "output".toList (some 'o') request.output args) := by
  obtain ⟨⟨s, rest⟩, hparse, hrequest⟩ := bind_eq_ok_iff.1 h
  have hs : request.output = s.output.getD "a.out".toList := by
    cases hsource : s.source with
    | none => simp [hsource] at hrequest
    | some source =>
      simp only [hsource] at hrequest
      obtain rfl := Except.ok.inj hrequest
      rfl
  have hgiven (value : Text) :
      s.output = some value ↔ Given "output".toList (some 'o') value args := by
    simpa using output_setBy.view_parse_iff hparse
  rw [hs]
  constructor
  · intro value hvalue
    rw [(hgiven value).2 hvalue]
    rfl
  · cases houtput : s.output with
    | none => exact .inl rfl
    | some value => exact .inr ((hgiven value).1 houtput)

theorem Disassembler.view_output_given {subcommand : Text} {args : List Text} {view : View}
    {path : Text} (h : parseView subcommand args = .ok (view, some path)) :
    (subcommand = "list".toList ∨ subcommand = "analyze".toList) ∧
      Given "out".toList none path args := by
  unfold parseView at h
  split at h
  · rename_i hlist
    obtain ⟨⟨s, rest⟩, hparse, hpair⟩ := bind_eq_ok_iff.1 h
    have hpath : s.output = some path := congrArg Prod.snd (Except.ok.inj hpair)
    rw [list_output_setBy.view_parse_iff hparse] at hpath
    exact ⟨.inl hlist, hpath.resolve_left (by simp)⟩
  · split at h
    · rename_i hanalyze
      obtain ⟨⟨s, rest⟩, hparse, hpair⟩ := bind_eq_ok_iff.1 h
      have hpath : s.output = some path := congrArg Prod.snd (Except.ok.inj hpair)
      rw [analyze_output_setBy.view_parse_iff hparse] at hpath
      exact ⟨.inr hanalyze, hpath.resolve_left (by simp)⟩
    · split at h <;> contradiction

/-- The disassembler's output is given behind its subcommand. -/
theorem Disassembler.output_given {args : List Text} {request : Request} {path : Text}
    (h : parse args = .ok request) (hpath : request.output = some path) :
    ∃ front subcommand behind, args = front ++ subcommand :: behind ∧
      (subcommand = "list".toList ∨ subcommand = "analyze".toList) ∧
      Given "out".toList none path behind := by
  obtain ⟨⟨s, rest⟩, hparse, hrequest⟩ := bind_eq_ok_iff.1 h
  cases rest with
  | none => contradiction
  | some rest =>
    obtain ⟨subcommand, behind⟩ := rest
    obtain ⟨⟨view, output⟩, hview, himage⟩ := bind_eq_ok_iff.1 hrequest
    have houtput : output = some path := by
      cases hs : s.image with
      | none => simp [hs] at himage
      | some image =>
        simp only [hs] at himage
        obtain rfl := Except.ok.inj himage
        exact hpath
    subst houtput
    obtain ⟨front, hargs⟩ := Grammar.suffix_of_parse hparse
    obtain ⟨hsub, hgiven⟩ := view_output_given hview
    exact ⟨front, subcommand, behind, hargs.symm, hsub, hgiven⟩

namespace Grammar
variable {σ : Type} {g : Grammar σ} {s : σ} {word next : Text} {words : List Text}

theorem ofWord_of_head (h : word.head? ≠ some '-') : Argument.ofWord word = .operand word := by
  rw [ofWord_eq_operand_iff]
  rintro c s rfl
  exact h rfl

theorem parse_operand (hword : word.head? ≠ some '-') (hsub : word ∉ g.subcommands) :
    g.parse s (word :: words) = accept (g.operand s word) >>= fun s => g.parse s words := by
  rw [parse, ofWord_of_head hword]
  simp [hsub]

/-- An option that takes its value from the next word. -/
theorem parse_value {apply : σ → Text → Option σ}
    (hopt : g.option? (Argument.ofWord word) = some (.value apply, none))
    (hnext : next.head? ≠ some '-') :
    g.parse s (word :: next :: words) =
      accept (apply s next) >>= fun s => g.parse s words := by
  rw [parse]
  cases hw : Argument.ofWord word with
  | operand w => simp [hw, option?] at hopt
  | endOfOptions => simp [hw, option?] at hopt
  | long name attached =>
    rw [hw] at hopt
    simp only [hopt, ofWord_of_head hnext]
  | short letter attached =>
    rw [hw] at hopt
    simp only [hopt, ofWord_of_head hnext]

end Grammar

theorem PlainName.pathValue {name : Text} (h : PlainName name) : pathValue name = some name := by
  simp [MicroAsm.pathValue, h.nonempty]

section Parse
variable {src img : Text} (hsrc : PlainName src) (himg : PlainName img)
include hsrc himg

theorem Assembler.parse_plain : parse [src, "-o".toList, img] = .ok ⟨src, img, .bin, false⟩ := by
  have hoption : grammar.option? (Argument.ofWord "-o".toList) =
      some (.value Settings.withOutput, none) := by rfl
  have hsource : grammar.operand {} src = some { source := some src } := by
    simp [grammar, Settings.withSource, once, hsrc.pathValue]
  have houtput : Settings.withOutput { source := some src } img =
      some { source := some src, output := some img } := by
    simp [Settings.withOutput, once, himg.pathValue]
  unfold parse
  rw [Grammar.parse_operand hsrc.noHyphen (by simp [grammar]), hsource]
  show (grammar.parse _ ["-o".toList, img] >>= _) = _
  rw [Grammar.parse_value hoption himg.noHyphen, houtput]
  rfl

theorem Disassembler.parse_plain (hsub : img ∉ grammar.subcommands) :
    parse [img, "--source".toList, src, "list".toList] = .ok ⟨img, some src, .listing, none⟩ := by
  have hoption : grammar.option? (Argument.ofWord "--source".toList) =
      some (.value Settings.withSource, none) := by rfl
  have himage : grammar.operand {} img = some { image := some img } := by
    simp [grammar, Settings.withImage, once, himg.pathValue]
  have hsource : Settings.withSource { image := some img } src =
      some { image := some img, source := some src } := by
    simp [Settings.withSource, once, hsrc.pathValue]
  unfold parse
  rw [Grammar.parse_operand himg.noHyphen hsub, himage]
  show (grammar.parse _ ["--source".toList, src, "list".toList] >>= _) = _
  rw [Grammar.parse_value hoption hsrc.noHyphen, hsource]
  rfl

end Parse

theorem Disassembler.parse_alone {img : Text} (hne : img ≠ []) (hhyphen : img.head? ≠ some '-')
    (hsub : img ∉ grammar.subcommands) :
    parse [img, "list".toList] = .ok ⟨img, none, .listing, none⟩ ∧
      parse [img, "analyze".toList] = .ok ⟨img, none, .edges, none⟩ := by
  have himage : grammar.operand {} img = some { image := some img } := by
    simp [grammar, Settings.withImage, once, pathValue, hne]
  constructor
  · unfold parse
    rw [Grammar.parse_operand hhyphen hsub, himage]
    rfl
  · unfold parse
    rw [Grammar.parse_operand hhyphen hsub, himage]
    rfl

theorem Assembler.parses : Parses parse where
  given h := (output_given h).1 _
  output h := (output_given h).2
  plain := parse_plain

theorem Disassembler.parses : Parses parse where
  output := output_given
  named := parse_plain
  list hne hhyphen hsub := (parse_alone hne hhyphen hsub).1
  analyze hne hhyphen hsub := (parse_alone hne hhyphen hsub).2

end MicroAsm
