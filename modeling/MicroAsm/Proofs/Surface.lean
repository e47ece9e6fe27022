import MicroAsm.Proofs.InsertedLines
/-!
The surface of a source. Comments, line ends, blanks at the end of a line, the choice of those it
begins with and the case of its letters make no difference to what is assembled.
-/
namespace MicroAsm
open Text

/-- The text with capitals for all its ASCII letters. -/
def capitals (s : Text) : Text := s.map Char.toUpper

/-- The text with a carriage return before every line feed. -/
def withReturns (s : Text) : Text := s.flatMap fun c => if c = '\n' then ['\r', '\n'] else [c]

/-- What two lines have before their comments differs in case at most or, if both lines begin with
blanks, in these blanks. -/
inductive Alike (l m : Text) : Prop
  | recased (h : capitals (written l) = capitals (written m))
  | reindented {v w s t : Text} (hv : Blank v) (hw : Blank w) (hvn : v ≠ []) (hwn : w ≠ [])
      (hl : written l = v ++ s) (hm : written m = w ++ t) (h : capitals s = capitals t)

section Characters
variable {s v : Text} {c : Char}

def smallLetters : List Char := "abcdefghijklmnopqrstuvwxyz".toList

theorem toUpper_eq_or_small (c : Char) : c.toUpper = c ∨ c ∈ smallLetters := by
  by_cases h : 'a' ≤ c ∧ c ≤ 'z'
  · have hsmall : ∀ n < 123, 97 ≤ n → Char.ofNat n ∈ smallLetters := by decide
    have hle : c.toNat ≤ 122 := h.2
    rw [← Char.ofNat_toNat c]
    exact .inr (hsmall c.toNat (by omega) h.1)
  · exact .inl (dif_neg h)

/-- Only the small letters have to be looked at, as other characters are their own capitals. -/
theorem apply_toUpper {α : Type} (f : Char → α)
    (h : smallLetters.map (fun c => f c.toUpper) = smallLetters.map f) (c : Char) :
    f c.toUpper = f c := by
  rcases toUpper_eq_or_small c with hc | hc
  · rw [hc]
  · exact List.map_inj_left.1 h c hc

theorem upperChar_toUpper (c : Char) : upperChar c.toUpper = upperChar c :=
  apply_toUpper upperChar (by decide +kernel) c

theorem isBlank_toUpper (c : Char) : isBlank c.toUpper = isBlank c :=
  apply_toUpper isBlank (by decide +kernel) c

theorem toUpper_ne_semicolon (c : Char) : (c.toUpper != ';') = (c != ';') :=
  apply_toUpper (· != ';') (by decide +kernel) c

theorem upper_capitals (s : Text) : upper (capitals s) = upper s := by
  induction s with
  | nil => rfl
  | cons c s ih =>
    rw [capitals, List.map_cons, upper_cons, upperChar_toUpper, upper_cons]
    exact congrArg (upperChar c ++ ·) ih

theorem upper_eq_of_capitals {t : Text} (h : capitals s = capitals t) : upper s = upper t := by
  rw [← upper_capitals s, h, upper_capitals]

/-- Blanks have no case. -/
theorem upperChar_of_blank (h : isBlank c = true) : upperChar c = [c] := by
  have hall : ∀ r ∈ blankRanges, ∀ k < 11, r.1 + k ≤ r.2 →
      upperChar (Char.ofNat (r.1 + k)) = [Char.ofNat (r.1 + k)] := by decide +kernel
  have hwidth : ∀ r ∈ blankRanges, r.2 < r.1 + 11 := by decide
  obtain ⟨r, hr, hc⟩ := List.any_eq_true.1 h
  simp only [Bool.and_eq_true, decide_eq_true_eq] at hc
  have hlt := hwidth r hr
  have hk := hall r hr (c.toNat - r.1) (by omega) (by omega)
  rwa [Nat.add_sub_cancel' hc.1, Char.ofNat_toNat] at hk

theorem upper_of_blank (h : Blank v) : upper v = v := by
  induction v with
  | nil => rfl
  | cons c v ih =>
    rw [upper_cons, upperChar_of_blank (h c List.mem_cons_self),
      ih fun d hd => h d (List.mem_cons_of_mem c hd), List.singleton_append]

end Characters

section Lines
variable {s t u v w l m : Text} {n : Nat}

theorem written_capitals (l : Text) : written (capitals l) = capitals (written l) := by
  have hcode : (· != ';') ∘ Char.toUpper = (· != ';') := funext toUpper_ne_semicolon
  have hblank : isBlank ∘ Char.toUpper = isBlank := funext isBlank_toUpper
  unfold written trimRight capitals
  rw [List.takeWhile_map, hcode, ← List.map_reverse, List.dropWhile_map, hblank, List.map_reverse]

theorem Alike.of_capitals (h : capitals l = capitals m) : Alike l m :=
  .recased (by rw [← written_capitals, h, written_capitals])

theorem Alike.append_blank (hw : Blank w) (u : Text) : Alike (u ++ w) u :=
  .recased (by rw [written_append_blank hw])

theorem Alike.append_comment (hw : Blank w) (u comment : Text) :
    Alike (u ++ (w ++ ';' :: comment)) u :=
  .recased (by rw [← List.append_assoc, written_append_comment, written_append_blank hw])

/-- A line of blanks has nothing to be indented. -/
theorem Alike.blank_append (hv : Blank v) (hw : Blank w) (hvn : v ≠ []) (hwn : w ≠ []) (u : Text) :
    Alike (v ++ u) (w ++ u) := by
  have htake {v : Text} (hv : Blank v) :
      (v ++ u).takeWhile (· != ';') = v ++ u.takeWhile (· != ';') :=
    List.takeWhile_append_of_pos (bne_of_notMem (notMem_of_blank hv (by decide)))
  by_cases h : written u = []
  · have hnil {v : Text} (hv : Blank v) : written (v ++ u) = [] := by
      obtain ⟨x, hx, hux⟩ := exists_trimRight_append (u.takeWhile (· != ';'))
      have hnone : trimRight (u.takeWhile (· != ';')) = [] := h
      rw [hnone, List.nil_append] at hux
      rw [written, htake hv, hux, trimRight_append_blank hx]
      exact trimRight_append_blank hv []
    exact .recased (by rw [hnil hv, hnil hw])
  · have hcut {v : Text} (hv : Blank v) : written (v ++ u) = v ++ written u := by
      rw [written, htake hv, trimRight_append_of_ne_nil h]
      rfl
    exact .reindented hv hw hvn hwn (hcut hv) (hcut hw) rfl

theorem codeOf_of_written (h : written l = v ++ s) (hv : Blank v) : codeOf l = v ++ upper s := by
  have hcode : codeOf l = upper (v ++ s) := congrArg upper h
  rw [hcode, upper_append, upper_of_blank hv]

theorem definesLabel_indented (hv : Blank v) (hvn : v ≠ []) (s : Text) :
    (CodeLine.mk n (v ++ s)).definesLabel = false := by
  cases v with
  | nil => contradiction
  | cons c v =>
    have hc : isBlank c = true := hv c List.mem_cons_self
    show (!isBlank c) = false
    rw [hc]
    rfl

theorem body_indented (hv : Blank v) (hvn : v ≠ []) (s : Text) :
    (CodeLine.mk n (v ++ s)).body = trim s := by
  rw [CodeLine.body, definesLabel_indented hv hvn]
  exact trim_blank_append hv s

/-- An indented line counts for its body only. -/
theorem addLine_congr {o : Outline} {c d : Text} (hc : (CodeLine.mk n c).definesLabel = false)
    (hd : (CodeLine.mk n d).definesLabel = false)
    (hbody : (CodeLine.mk n c).body = (CodeLine.mk n d).body) :
    o.addLine ⟨n, c⟩ = o.addLine ⟨n, d⟩ := by
  unfold Outline.addLine Outline.addLabel Outline.addBody
  rw [hc, hd, hbody]
  rfl

theorem Alike.addLine_eq (h : Alike l m) (n : Nat) (o : Outline) :
    o.addLine ⟨n, codeOf l⟩ = o.addLine ⟨n, codeOf m⟩ := by
  cases h with
  | recased h =>
    have hcode : codeOf l = codeOf m := upper_eq_of_capitals h
    rw [hcode]
  | @reindented v w s t hv hw hvn hwn hl hm h =>
    have hcase : upper s = upper t := upper_eq_of_capitals h
    rw [codeOf_of_written hl hv, codeOf_of_written hm hw]
    apply addLine_congr (definesLabel_indented hv hvn _) (definesLabel_indented hw hwn _)
    rw [body_indented hv hvn, body_indented hw hwn, hcase]

theorem foldlM_addLine_eq {ls ms : List Text} (h : List.Forall₂ Alike ls ms) (n : Nat)
    (o : Outline) :
    (numbered n (ls.map codeOf)).foldlM Outline.addLine o =
      (numbered n (ms.map codeOf)).foldlM Outline.addLine o := by
  induction h generalizing n o with
  | nil => rfl
  | @cons l m ls ms hl _ ih =>
    have hcons (c : Text) (cs : List Text) : numbered n (c :: cs) = ⟨n, c⟩ :: numbered (n + 1) cs :=
      rfl
    rw [List.map_cons, List.map_cons, hcons, hcons, List.foldlM_cons, List.foldlM_cons,
      hl.addLine_eq]
    exact bind_congr fun o' => ih (n + 1) o'

theorem assemble_of_alike {source source' : Text}
    (h : List.Forall₂ Alike (lines source) (lines source')) :
    assemble source = assemble source' := by
  have houtline : Outline.ofSource source = Outline.ofSource source' := by
    unfold Outline.ofSource Outline.ofLines
    rw [codeLines_eq_numbered, codeLines_eq_numbered, foldlM_addLine_eq h]
  rw [assemble, assemble, houtline]

theorem withReturns_of_notMem (h : '\n' ∉ u) : withReturns u = u := by
  induction u with
  | nil => rfl
  | cons c u ih =>
    rw [List.mem_cons, not_or] at h
    rw [withReturns, List.flatMap_cons, if_neg (Ne.symm h.1)]
    exact congrArg (c :: ·) (ih h.2)

theorem withReturns_feed (h : '\n' ∉ u) (t : Text) :
    withReturns (u ++ '\n' :: t) = (u ++ ['\r']) ++ '\n' :: withReturns t := by
  have hu : withReturns u = u := withReturns_of_notMem h
  rw [withReturns, List.flatMap_append, List.flatMap_cons, List.append_assoc]
  exact congrArg (· ++ '\r' :: '\n' :: withReturns t) hu

theorem codes_withReturns (source : Text) :
    (lines (withReturns source)).map codeOf = (lines source).map codeOf := by
  by_cases h : '\n' ∈ source
  · obtain ⟨u, t, rfl, hu⟩ := List.eq_append_cons_of_mem h
    have hreturn : '\n' ∉ u ++ ['\r'] := by simpa using hu
    have hlen : t.length < (u ++ '\n' :: t).length := by
      rw [List.length_append, List.length_cons]
      omega
    rw [withReturns_feed hu, codes_append hreturn, codeOf_append_cr, codes_append hu,
      codes_withReturns t]
  · rw [withReturns_of_notMem h]
termination_by source.length

end Lines

/-- What is assembled from a source is the same for all sources whose lines are alike, and so is the
fault of a source with one. Line ends make no difference either, and lines are alike if they differ
in a comment, in blanks at the end, in the blanks they begin with or in the case of letters. -/
theorem surface_makes_no_difference :
    (∀ source source', List.Forall₂ Alike (lines source) (lines source') →
      assemble source = assemble source') ∧
    (∀ source, assemble (withReturns source) = assemble source) ∧
    (∀ u w comment, Blank w → Alike (u ++ (w ++ ';' :: comment)) u ∧ Alike (u ++ w) u) ∧
    (∀ u v w, Blank v → Blank w → v ≠ [] → w ≠ [] → Alike (v ++ u) (w ++ u)) ∧
    ∀ l m, capitals l = capitals m → Alike l m := by
  refine ⟨fun _ _ => assemble_of_alike, ?_, ?_, ?_, fun _ _ => .of_capitals⟩
  · intro source
    rw [assemble, assemble, Outline.ofSource, codeLines_eq_numbered, codes_withReturns,
      ← codeLines_eq_numbered]
    rfl
  · intro u w comment hw
    exact ⟨.append_comment hw u comment, .append_blank hw u⟩
  · intro u v w hv hw hvn hwn
    exact .blank_append hv hw hvn hwn u

/-- Case, comment, indentation and line ends differ, and a fault is the same one. -/
theorem two_lines_rewritten :
    assemble "TOP: W=1   \r\n\tJMP Top".toList =
      .ok ⟨⟨[("TOP".toList, 0)]⟩, ⟨[{ w := 3, value := 1 }, { j := 1 }]⟩⟩ ∧
    assemble "\tJMP Top".toList = .error ⟨some 1, .undefinedLabel "TOP".toList .j⟩ := by
  have hsource : assemble "top: w=1 ; first\n  jmp top\n".toList =
      .ok ⟨⟨[("TOP".toList, 0)]⟩, ⟨[{ w := 3, value := 1 }, { j := 1 }]⟩⟩ := by decide +kernel
  have hfault : assemble "  jmp top".toList = .error ⟨some 1, .undefinedLabel "TOP".toList .j⟩ := by
    decide +kernel
  have hblanks : Blank "\t".toList ∧ Blank "  ".toList := by simp [Blank, isBlank, blankRanges]
  have hlabel : Alike "TOP: W=1   ".toList "top: w=1 ; first".toList :=
    .recased (by decide +kernel)
  have hjump : Alike "\tJMP Top".toList "  jmp top".toList :=
    .reindented hblanks.1 hblanks.2 (by decide) (by decide)
      (by decide +kernel : _ = "\t".toList ++ "JMP Top".toList)
      (by decide +kernel : _ = "  ".toList ++ "jmp top".toList) (by decide)
  obtain ⟨hsame, -⟩ := surface_makes_no_difference
  refine ⟨(hsame _ _ ?_).trans hsource, (hsame _ _ ?_).trans hfault⟩
  · exact (.cons hlabel (.cons hjump .nil) : List.Forall₂ Alike
      ["TOP: W=1   ".toList, "\tJMP Top".toList] ["top: w=1 ; first".toList, "  jmp top".toList])
  · exact (.cons hjump .nil : List.Forall₂ Alike ["\tJMP Top".toList] ["  jmp top".toList])

end MicroAsm
