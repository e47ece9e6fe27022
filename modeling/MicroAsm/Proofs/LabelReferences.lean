import MicroAsm.Proofs.Chains
import MicroAsm.Proofs.Concatenation
import MicroAsm.Proofs.FirstFault
import MicroAsm.Proofs.Marks
/-!
A label is referred to by the text that defines it. Its definition is cut at a colon and a branch
to it at commas, but the name that comes out of the text is the same.
-/
namespace MicroAsm
open Text LineState

/-- The text of a line before its first colon. -/
def nameText (line : Text) : Text := line.takeWhile (· != ':')

/-- The name that a text is written for. -/
def nameOf (s : Text) : Text := trimRight (upper s)

section Definition
variable {line : Text} {n : Nat}

theorem feed_notMem_of_mem_lines {source : Text} : ∀ line ∈ lines source, '\n' ∉ line := by
  fun_induction lines source with
  | case1 => exact List.forall_mem_nil _
  | case2 s ih => exact List.forall_mem_cons.2 ⟨List.not_mem_nil, ih⟩
  | case3 s ih => exact List.forall_mem_cons.2 ⟨List.not_mem_nil, ih⟩
  | case4 c s hn hr ih =>
    have hc : '\n' ≠ c := fun he => hn he.symm
    cases hls : lines s with
    | nil =>
      rw [consFirst, List.forall_mem_singleton, List.mem_singleton]
      exact hc
    | cons p ps =>
      rw [hls, List.forall_mem_cons] at ih
      rw [consFirst, List.forall_mem_cons, List.mem_cons, not_or]
      exact ⟨⟨hc, ih.1⟩, ih.2⟩

/-- The code of a line with a colon, cut there. -/
theorem exists_codeOf_eq (h : (CodeLine.mk n (codeOf line)).hasColon = true) :
    ';' ∉ nameText line ∧ ∃ t, codeOf line = upper (nameText line) ++ ':' :: t := by
  have hcolon : ':' ∈ line.takeWhile (· != ';') := by
    obtain ⟨c, hc, heq⟩ := List.any_eq_true.1 h
    obtain rfl := beq_iff_eq.1 heq
    have hw : ':' ∈ trimRight (line.takeWhile (· != ';')) := (mem_upper_iff (by decide)).1 hc
    by_contra hno
    exact notMem_trimRight hno hw
  obtain ⟨r, t, hcut, hr⟩ := List.eq_append_cons_of_mem hcolon
  have hname : nameText line = r := by
    have hline : line = r ++ ':' :: (t ++ line.dropWhile (· != ';')) := by
      conv_lhs => rw [← List.takeWhile_append_dropWhile (p := (· != ';')) (l := line), hcut]
      rw [List.append_assoc, List.cons_append]
    rw [nameText, hline, takeWhile_append_cons hr]
  have hkept : trimRight (':' :: t) = ':' :: trimRight t := trimRight_cons (by decide) t
  rw [hname]
  constructor
  · intro hm
    have hmem : ';' ∈ line.takeWhile (· != ';') := hcut ▸ List.mem_append_left _ hm
    simpa using List.mem_takeWhile_imp hmem
  · refine ⟨upper (trimRight t), ?_⟩
    rw [codeOf, hcut, trimRight_append_of_ne_nil (by simp [hkept]), hkept, upper_append, upper_cons,
      upperChar_of_mark (by decide)]
    rfl

variable (hcolon : (CodeLine.mk n (codeOf line)).hasColon = true)
include hcolon

theorem labelName_eq : (CodeLine.mk n (codeOf line)).labelName = nameOf (nameText line) := by
  obtain ⟨-, t, hcode⟩ := exists_codeOf_eq hcolon
  have hno : ':' ∉ upper (nameText line) := by
    rw [mem_upper_iff (by decide)]
    intro hm
    simpa using List.mem_takeWhile_imp hm
  rw [CodeLine.labelName, hcode, takeWhile_append_cons hno, nameOf]

theorem head_nameText (hlabel : (CodeLine.mk n (codeOf line)).definesLabel = true)
    (hne : nameText line ≠ []) : (nameText line).head?.any (!isBlank ·) = true := by
  obtain ⟨-, t, hcode⟩ := exists_codeOf_eq hcolon
  cases hname : nameText line with
  | nil => exact absurd hname hne
  | cons c s =>
    rw [List.head?_cons, Option.any_some, Bool.not_eq_true']
    cases hc : isBlank c with
    | false => rfl
    | true =>
      rw [hcode, hname, upper_cons, upperChar_of_blank hc] at hlabel
      have hfirst : (!isBlank c) = true := hlabel
      rw [hc] at hfirst
      contradiction

end Definition

section Branch
variable {u : FuncUnit} {n : Nat} {text r s : Text} {c : Char}

/-- A name that does not begin with a blank has no blanks at its ends. -/
theorem nameOf_ends (h : s.head?.any (!isBlank ·) = true) :
    (nameOf s).head?.any (!isBlank ·) = true ∧ (nameOf s).getLast?.any (!isBlank ·) = true := by
  have hfirst := head_trimRight (head_upper h)
  exact ⟨hfirst, last_trimRight (ne_nil_of_head hfirst)⟩

theorem notMem_nameOf (hc : isMark c = true) (h : c ∉ s) : c ∉ nameOf s :=
  notMem_trimRight fun hm => h ((mem_upper_iff hc).1 hm)

theorem codeOf_branch (h : (u, n, text) ∈ branchPrefixes) (hr : ';' ∉ r) (hname : nameOf r ≠ []) :
    codeOf (' ' :: text ++ r) = ' ' :: text ++ nameOf r := by
  have hcat : ∀ x ∈ branchPrefixes, ';' ∉ ' ' :: x.2.2 ∧ upper (' ' :: x.2.2) = ' ' :: x.2.2 := by
    decide
  obtain ⟨hsemi, hupper⟩ := hcat _ h
  have hall : (' ' :: text ++ r).takeWhile (· != ';') = ' ' :: text ++ r := by
    rw [List.takeWhile_eq_self_iff]
    intro c hc
    rw [bne_iff_ne]
    rintro rfl
    exact (List.mem_append.1 hc).elim hsemi hr
  have hkept : upper (trimRight r) = nameOf r := (trimRight_upper r).symm
  have hne : trimRight r ≠ [] := by
    intro hnil
    rw [hnil] at hkept
    exact hname hkept.symm
  rw [codeOf, hall, trimRight_append_of_ne_nil hne, upper_append, hupper, hkept]

theorem fragments_of_one (hc : ',' ∉ s) (hfirst : s.head?.any (!isBlank ·) = true)
    (hlast : s.getLast?.any (!isBlank ·) = true) : fragments s = [s] := by
  have hone : s.splitOn ',' = [s] := by
    apply List.splitOnP_eq_singleton
    intro c hm
    simpa using fun h : c = ',' => hc (h ▸ hm)
  rw [fragments, hone, List.map_singleton, trim, trimLeft_of_head hfirst, trimRight_of_last hlast]
  simp [ne_nil_of_head hfirst]

/-- The name of a branch is in one token with the branch, whatever equals signs it has. -/
theorem tokenize_branch (h : (u, n, text) ∈ branchPrefixes)
    (hfirst : s.head?.any (!isBlank ·) = true) (hlast : s.getLast?.any (!isBlank ·) = true)
    (hc : ',' ∉ s) : tokenize (' ' :: text ++ s) = [text ++ s] := by
  have hcat : ∀ x ∈ branchPrefixes, ',' ∉ x.2.2 ∧ x.2.2.head?.any (!isBlank ·) = true ∧
      3 < x.2.2.length ∧ x.2.2[3]? ≠ some '=' := by
    decide
  obtain ⟨hcomma, hhead, hlen, hthird⟩ := hcat _ h
  have hone : fragments (text ++ s) = [text ++ s] := by
    apply fragments_of_one
    · rw [List.mem_append, not_or]
      exact ⟨hcomma, hc⟩
    · cases text with
      | nil => contradiction
      | cons c text => exact hhead
    · rwa [List.getLast?_append_of_ne_nil _ (ne_nil_of_head hfirst)]
  have hblank : Blank [' '] := by
    intro c hc
    rw [List.mem_singleton.1 hc]
    rfl
  rw [tokenize_eq, List.cons_append, ← List.singleton_append, fragments_blank_append hblank, hone]
  apply expandChains_of_links
  rw [List.forall_mem_singleton, List.getElem?_append_left hlen]
  exact hthird

/-- A branch is indented, and its only token has the name that is written. -/
theorem line_of_branch (h : (u, n, text) ∈ branchPrefixes) (hsemi : ';' ∉ r)
    (hfirst : (nameOf r).head?.any (!isBlank ·) = true)
    (hlast : (nameOf r).getLast?.any (!isBlank ·) = true) (hc : ',' ∉ nameOf r) (number : Nat) :
    (CodeLine.mk number (codeOf (' ' :: text ++ r))).definesLabel = false ∧
      tokenize (CodeLine.mk number (codeOf (' ' :: text ++ r))).afterLabel =
        [text ++ nameOf r] := by
  rw [codeOf_branch h hsemi (ne_nil_of_head hfirst)]
  exact ⟨rfl, tokenize_branch h hfirst hlast hc⟩

/-- A branch alone drives its unit and nothing else. -/
theorem pack_join_branch (h : (u, n, text) ∈ branchPrefixes) (t : Address) :
    (join {} u (.branch n t)).pack = .ok (join {} u (.branch n t)).layOut ∧
      ∀ v, (join {} u (.branch n t)).layOut.get v = if v = u then n else 0 := by
  simp only [branchPrefixes, List.mem_cons, Prod.mk.injEq, List.not_mem_nil, or_false] at h
  rcases h with ⟨rfl, rfl, -⟩ | ⟨rfl, rfl, -⟩ | ⟨rfl, rfl, -⟩ | ⟨rfl, rfl, -⟩
  all_goals
    refine ⟨rfl, fun v => ?_⟩
    cases v <;> rfl

theorem exists_solve_branch {labels : LabelTable} {t : Address} (h : (u, n, text) ∈ branchPrefixes)
    (ht : labels.get? (trimLeft s) = some t) (line : Nat) :
    ∃ i, solve labels [text ++ s] line = .ok i ∧ (∀ v, i.get v = if v = u then n else 0) ∧
      i.jumpTarget? = some t := by
  have hreads : ReadsAs labels (text ++ s) u (.branch n t) := .branch h ht
  have hm : List.Forall₂ (Means labels) [text ++ s] [⟨u, .definite (.branch n t)⟩] :=
    .cons (.definite hreads (not_isZero_of_branch hreads)) .nil
  have hset : Settled [⟨u, .definite (.branch n t)⟩] (join {} u (.branch n t)) := by
    apply Settled.of_acceptAll
    · rw [List.forall_mem_singleton]
      exact fun _ => hreads.selector_ne_zero
    · rw [acceptAll_cons, accept_empty]
      rfl
  obtain ⟨hpack, hget⟩ := pack_join_branch h t
  refine ⟨_, ?_, hget, hset.jumpTarget?_layOut hm⟩
  rw [solve_of_settle (settle_eq_ok_of_settled hm hset (List.cons_ne_nil _ _)), hpack]
  rfl

end Branch

section Source
variable {source line : Text} {a : Assembly} {l : CodeLine} {i : Instruction} {k : Nat}

theorem bears_of_tokenize (h : tokenize l.afterLabel ≠ []) : l.bears = true := by
  rw [CodeLine.bears, Bool.not_eq_true', ← Bool.not_eq_true, List.isEmpty_iff, l.body_eq]
  intro hnil
  rw [← tokenize_trim, hnil] at h
  exact h rfl

theorem tableOf_snoc {ls : List CodeLine} (h : l.definesLabel = false) :
    tableOf (ls ++ [l]) = tableOf ls := by
  rw [tableOf, labelsOf_append, labelsOf_singleton, h]
  simp [tableOf]

/-- A further instruction at the end makes no difference to those above it. -/
theorem assemble_of_snoc {source' : Text} (h : assemble source = .ok a)
    (hlines : codeLines source' = codeLines source ++ [l]) (hlabel : l.definesLabel = false)
    (hbears : l.bears = true) (hsize : a.program.size < maxInstructions)
    (hi : SolvesLine a.labels l i) :
    assemble source' = .ok ⟨a.labels, ⟨a.program.instructions ++ [i]⟩⟩ := by
  obtain ⟨hlaw, hne, hlabels, his⟩ := assemble_eq_ok_iff.1 h
  rw [size_of_assemble h] at hsize
  have hbearing : [l].filter CodeLine.bears = [l] := List.filter_eq_self.2 (by simpa using hbears)
  rw [assemble_eq_ok_iff, hlines, tableOf_snoc hlabel, List.filter_append, hbearing]
  refine ⟨lawful_snoc_iff.2 ⟨hlaw, ?_, fun _ => hsize⟩, ?_, hlabels,
    List.rel_append his (.cons (hlabels ▸ hi) .nil)⟩
  · rw [hlabel]
    exact fun hl => absurd hl Bool.false_ne_true
  · exact List.append_ne_nil_of_left_ne_nil hne _

/-- The last line may end in a line feed. -/
theorem codeLines_snoc {ending : Text} (hend : source.getLast? = some '\n') (hline : '\n' ∉ line)
    (hne : line ≠ []) (hending : ending = [] ∨ ending = ['\n']) :
    codeLines (source ++ (line ++ ending)) =
      codeLines source ++ [⟨(lines source).length + 1, codeOf line⟩] := by
  have hone : codeLines (line ++ ending) = [⟨1, codeOf line⟩] := by
    rw [codeLines_eq_numbered]
    rcases hending with rfl | rfl
    · rw [List.append_nil, lines_of_one hne hline]
      rfl
    · rw [codes_append hline]
      rfl
  rw [codeLines_append hend, hone, List.map_singleton, CodeLine.below, Nat.add_comm]

theorem get?_labels (h : assemble source = .ok a) (hl : (codeLines source)[k]? = some l)
    (hlabel : l.definesLabel = true) : a.labels.get? l.labelName =
      some (UInt8.ofNat (((codeLines source).take k).countP CodeLine.bears)) := by
  obtain ⟨hlaw, -, hlabels, -⟩ := assemble_eq_ok_iff.1 h
  obtain ⟨hlt, hget⟩ := List.getElem?_eq_some_iff.1 hl
  have hsplit : codeLines source =
      (codeLines source).take k ++ l :: (codeLines source).drop (k + 1) := by
    rw [← hget, ← List.drop_eq_getElem_cons hlt, List.take_append_drop]
  have hm := (mem_labelsOf_iff _).2 ⟨_, l, _, hsplit, hlabel, rfl, rfl⟩
  rw [hlabels, get?_tableOf_eq_some_iff _ hlaw.names]
  exact List.mem_map.2 ⟨_, hm, rfl⟩

end Source

/-- Below a program with room for one more instruction, a branch may name a label by the text that
defines it, blanks and equals signs included, in small letters or capitals. The source assembles as
before, with one instruction more, and this one branches to the label and does nothing else. -/
theorem branch_to_label_as_written {source line r text ending : Text} {a : Assembly} {k n : Nat}
    {u : FuncUnit} (h : assemble source = .ok a) (hsize : a.program.size ≤ 254)
    (hend : source.getLast? = some '\n') (hline : (lines source)[k]? = some line)
    (hlabel : (CodeLine.mk (k + 1) (codeOf line)).definesLabel = true)
    (hne : nameText line ≠ []) (hcomma : ',' ∉ nameText line)
    (hr : capitals r = capitals (nameText line)) (hbranch : (u, n, text) ∈ branchPrefixes)
    (hending : ending = [] ∨ ending = ['\n']) :
    ∃ i t, assemble (source ++ (' ' :: text ++ r ++ ending)) =
        .ok ⟨a.labels, ⟨a.program.instructions ++ [i]⟩⟩ ∧
      (∀ v, i.get v = if v = u then n else 0) ∧ i.jumpTarget? = some t ∧
      a.labels.get? (CodeLine.mk (k + 1) (codeOf line)).labelName = some t ∧
      t.toNat = ((codeLines source).take k).countP CodeLine.bears := by
  have hl : (codeLines source)[k]? = some ⟨k + 1, codeOf line⟩ := by
    rw [getElem?_codeLines, hline]
    rfl
  have hcolon := (assemble_eq_ok_iff.1 h).1.colon _ (List.mem_of_getElem? hl) hlabel
  have hname : (CodeLine.mk (k + 1) (codeOf line)).labelName = nameOf r := by
    rw [labelName_eq hcolon, nameOf, nameOf, upper_eq_of_capitals hr]
  have htarget := get?_labels h hl hlabel
  rw [hname] at htarget ⊢
  have hsemi : ';' ∉ r := (mem_iff_of_capitals hr (by decide)).not.2 (exists_codeOf_eq hcolon).1
  have hfeed : '\n' ∉ ' ' :: text ++ r := by
    have hcat : ∀ x ∈ branchPrefixes, '\n' ∉ ' ' :: x.2.2 := by decide
    rw [List.mem_append, not_or, mem_iff_of_capitals hr (by decide)]
    refine ⟨hcat _ hbranch, fun hm => ?_⟩
    exact feed_notMem_of_mem_lines line (List.mem_of_getElem? hline)
      ((List.takeWhile_sublist _).mem hm)
  have hcomma : ',' ∉ nameOf r :=
    notMem_nameOf (by decide) ((mem_iff_of_capitals hr (by decide)).not.2 hcomma)
  obtain ⟨hfirst, hlast⟩ := nameOf_ends (head_nameText hcolon hlabel hne)
  rw [← labelName_eq hcolon, hname] at hfirst hlast
  obtain ⟨hlabel', htokens⟩ :=
    line_of_branch hbranch hsemi hfirst hlast hcomma ((lines source).length + 1)
  obtain ⟨i, hi, hget, hjump⟩ := exists_solve_branch hbranch
    ((trimLeft_of_head hfirst).symm ▸ htarget) ((lines source).length + 1)
  have hlines := codeLines_snoc hend hfeed
    (List.append_ne_nil_of_left_ne_nil (List.cons_ne_nil ' ' text) r) hending
  have hbears := bears_of_tokenize (htokens ▸ List.cons_ne_nil _ _)
  refine ⟨i, _, assemble_of_snoc h hlines hlabel' hbears (Nat.lt_succ_of_le hsize) ?_, hget, hjump,
    htarget, ?_⟩
  · rw [SolvesLine, htokens]
    exact hi
  · have hle := (List.take_sublist k (codeLines source)).countP_le (p := CodeLine.bears)
    rw [← size_of_assemble h] at hle
    have hlt : ((codeLines source).take k).countP CodeLine.bears < 256 := by omega
    rw [UInt8.toNat_ofNat_of_lt' hlt]

/-- The sharp S is two letters in upper case. -/
theorem branch_to_recased_name : ∃ i,
    assemble ("  DEC\nStraße =b : A=D\n".toList ++ " JMPT sTRAßE =B \n".toList) =
      .ok ⟨⟨[("STRASSE =B".toList, 1)]⟩, ⟨[{ c := 2 }, { a := 1 }, i]⟩⟩ ∧
    i.get .j = 2 ∧ i.jumpTarget? = some 1 := by
  have h : assemble "  DEC\nStraße =b : A=D\n".toList =
      .ok ⟨⟨[("STRASSE =B".toList, 1)]⟩, ⟨[{ c := 2 }, { a := 1 }]⟩⟩ := by
    decide +kernel
  obtain ⟨i, t, hok, hget, hjump, hlabel, -⟩ :=
    @branch_to_label_as_written _ "Straße =b : A=D".toList "sTRAßE =B ".toList "JMPT ".toList ['\n']
      _ 1 2 .j h (by decide) (by decide +kernel) (by decide +kernel) (by decide +kernel)
      (by decide +kernel) (by decide +kernel) (by decide +kernel) (by decide) (.inr rfl)
  have haddress : LabelTable.get? ⟨[("STRASSE =B".toList, 1)]⟩
      (CodeLine.mk 2 (codeOf "Straße =b : A=D".toList)).labelName = some 1 := by
    decide +kernel
  exact ⟨i, hok, hget .j, hjump.trans (hlabel.symm.trans haddress)⟩

end MicroAsm
