import Mathlib.Data.List.Forall2
import MicroAsm.Json
import MicroAsm.Proofs.Digits
/-!
Reading JSON. The reader takes a document from the front of a text, whatever white space there is
between its tokens, and finds every document again in its layout.
-/
namespace MicroAsm.Json
open Text

def isSpace (c : Char) : Bool := [' ', '\n', '\r', '\t'].contains c

def skip (s : Text) : Text := s.dropWhile isSpace

/-- The character that a letter stands for after a backslash. -/
def unescape? : Char → Option Char
  | '"' => some '"'
  | '\\' => some '\\'
  | '/' => some '/'
  | 'b' => some '\x08'
  | 'f' => some '\x0c'
  | 'n' => some '\n'
  | 'r' => some '\r'
  | 't' => some '\t'
  | _ => none

/-- The characters up to a quote, and the text after it. -/
def readString : Text → Option (Text × Text)
  | '"' :: s => some ([], s)
  | '\\' :: 'u' :: d₃ :: d₂ :: d₁ :: d₀ :: s =>
    let digits := [d₃, d₂, d₁, d₀]
    let code := ofDigits 16 digits
    if digits.all (isDigit 16) ∧ code.isValidChar then
      (readString s).map (Prod.map (Char.ofNat code :: ·) id)
    else none
  | '\\' :: e :: s => (unescape? e).bind fun c => (readString s).map (Prod.map (c :: ·) id)
  | c :: s =>
    if c = '\\' ∨ c.toNat < 0x20 then none else (readString s).map (Prod.map (c :: ·) id)
  | [] => none

def readNat (s : Text) : Option (Nat × Text) :=
  let digits := s.takeWhile Char.isDigit
  if digits.isEmpty then none
  else some (Nat.ofDigitChars 10 digits 0, s.dropWhile Char.isDigit)

section Blocks
variable {α : Type} (closing : Char) (item : Text → Option (α × Text))

/-- One item or more, with commas between them, and the bracket that closes them. -/
def readItems : Nat → Text → Option (List α × Text)
  | 0, _ => none
  | fuel + 1, s => do
    let (x, s) ← item (skip s)
    match skip s with
    | [] => none
    | c :: s =>
      if c = ',' then (readItems fuel s).map (Prod.map (x :: ·) id)
      else if c = closing then some ([x], s)
      else none

/-- What stands between two brackets, after the first of them. -/
def readBlock (fuel : Nat) (s : Text) : Option (List α × Text) :=
  match skip s with
  | [] => none
  | c :: t => if c = closing then some ([], t) else readItems closing item fuel s

end Blocks

def readMember (value : Text → Option (Json × Text)) (s : Text) :
    Option ((Text × Json) × Text) :=
  match s with
  | '"' :: s => do
    let (key, s) ← readString s
    match skip s with
    | ':' :: s => (value (skip s)).map (Prod.map (key, ·) id)
    | _ => none
  | _ => none

/-- The value at the front of a text. The fuel bounds its depth and the number of its items. -/
def readValue : Nat → Text → Option (Json × Text)
  | 0, _ => none
  | fuel + 1, s =>
    match s with
    | 'n' :: 'u' :: 'l' :: 'l' :: s => some (null, s)
    | 't' :: 'r' :: 'u' :: 'e' :: s => some (bool true, s)
    | 'f' :: 'a' :: 'l' :: 's' :: 'e' :: s => some (bool false, s)
    | '"' :: s => (readString s).map (Prod.map str id)
    | '[' :: s => (readBlock ']' (readValue fuel) fuel s).map (Prod.map arr id)
    | '\x7b' :: s => (readBlock '\x7d' (readMember (readValue fuel)) fuel s).map (Prod.map obj id)
    | '-' :: s => (readNat s).map (Prod.map (fun n : Nat => int (-n)) id)
    | s => (readNat s).map (Prod.map (fun n : Nat => int n) id)

/-- A document takes the whole text. -/
def read? (s : Text) : Option Json := do
  let (document, rest) ← readValue (s.length + 1) (skip s)
  if (skip rest).isEmpty then some document else none

section Scalars
variable {s rest : Text} {c : Char}

theorem readString_control {n : Nat} (h : n < 0x20) (t : Text) :
    readString ("\\u".toList ++ fixed 16 4 n ++ t) =
      (readString t).map (Prod.map (Char.ofNat n :: ·) id) := by
  have hcode : ofDigits 16 (fixed 16 4 n) = n := by
    rw [ofDigits_fixed (by decide) (by decide), Nat.mod_eq_of_lt (by omega)]
  have hdigits : (fixed 16 4 n).all (isDigit 16) = true :=
    List.all_eq_true.2 fun c hc => isDigit_fixed (by decide) (by decide) hc
  have hvalid : n.isValidChar := .inl (by omega)
  show (if (fixed 16 4 n).all (isDigit 16) ∧ (ofDigits 16 (fixed 16 4 n)).isValidChar then
    (readString t).map (Prod.map (Char.ofNat (ofDigits 16 (fixed 16 4 n)) :: ·) id) else none) = _
  rw [hcode, if_pos ⟨hdigits, hvalid⟩]

/-- One character. -/
theorem readString_escape (c : Char) (t : Text) :
    readString (escape c ++ t) = (readString t).map (Prod.map (c :: ·) id) := by
  fun_cases escape c with
  | case8 c _ _ _ _ _ _ _ hlow =>
    rw [readString_control hlow, Char.ofNat_toNat]
  | case9 c hquote hslash _ _ _ _ _ hlow =>
    rw [List.singleton_append, readString.eq_4 c t hquote, if_neg (not_or.2 ⟨hslash, hlow⟩)]
    · exact fun _ _ _ _ _ hc => absurd hc hslash
    · exact fun _ _ hc => absurd hc hslash
  | _ => rfl

/-- The whole string. -/
theorem readString_escaped (s rest : Text) :
    readString (s.flatMap escape ++ '"' :: rest) = some (s, rest) := by
  induction s with
  | nil => rfl
  | cons c s ih =>
    rw [List.flatMap_cons, List.append_assoc, readString_escape, ih]
    rfl

theorem readNat_decimal (n : Nat) (h : rest.head?.all (!·.isDigit) = true) :
    readNat (decimal n ++ rest) = some (n, rest) := by
  have hdigits : ∀ c ∈ decimal n, c.isDigit = true := fun c hc => isDigit_of_mem_decimal hc
  have htake : rest.takeWhile Char.isDigit = [] := by
    cases rest with
    | nil => rfl
    | cons c rest => exact List.takeWhile_cons_of_neg (by simpa using h)
  have hdrop : rest.dropWhile Char.isDigit = rest := by
    cases rest with
    | nil => rfl
    | cons c rest => exact List.dropWhile_cons_of_neg (by simpa using h)
  have hne : ¬(decimal n).isEmpty = true := by
    rw [List.isEmpty_iff]
    exact Nat.toDigits_ne_nil
  unfold readNat
  rw [List.takeWhile_append_of_pos hdigits, List.dropWhile_append_of_pos hdigits, htake, hdrop,
    List.append_nil, if_neg hne, decimal, Nat.ofDigitChars_toDigits (by decide) (by decide)]

end Scalars

/-- A character that neither stands between tokens nor closes a block. -/
def isFirst (c : Char) : Bool := !(isSpace c || [']', '\x7d'].contains c)

/-- An item is read from a text, whatever follows unless it is one more digit. -/
structure Reads {α : Type} (item : Text → Option (α × Text)) (x : α) (t : Text) : Prop where
  first : t.head?.any isFirst = true
  read : ∀ rest, rest.head?.all (!·.isDigit) = true → item (t ++ rest) = some (x, rest)

section Blocks
variable {α : Type} {opening closing : Char} {item : Text → Option (α × Text)} {x : α}
  {xs : List α} {t rest : Text} {ts : List Text} {fuel : Nat}

theorem skip_cons {c : Char} (h : isSpace c = false) (s : Text) : skip (c :: s) = c :: s :=
  List.dropWhile_cons_of_neg (by simp [h])

theorem skip_newLine (depth : Nat) (s : Text) : skip (newLine depth ++ s) = skip s := by
  have hspace : ∀ c ∈ newLine depth, isSpace c = true := by
    intro c hc
    rcases List.mem_cons.1 hc with rfl | hc
    · rfl
    · rw [List.eq_of_mem_replicate hc]
      rfl
  exact List.dropWhile_append_of_pos hspace

theorem exists_first (h : t.head?.any isFirst = true) :
    ∃ c s, t = c :: s ∧ isSpace c = false ∧ c ≠ ']' ∧ c ≠ '\x7d' := by
  cases t with
  | nil => contradiction
  | cons c s => exact ⟨c, s, rfl, by simpa [isFirst, isSpace, and_assoc] using h⟩

theorem skip_of_first (h : t.head?.any isFirst = true) (s : Text) : skip (t ++ s) = t ++ s := by
  obtain ⟨c, u, rfl, hc, -⟩ := exists_first h
  exact skip_cons hc _

/-- One item, and what is done about the character after it. -/
theorem readItems_succ (h : Reads item x t) (hrest : rest.head?.all (!·.isDigit) = true)
    (depth : Nat) : readItems closing item (fuel + 1) (newLine depth ++ (t ++ rest)) =
      match skip rest with
      | [] => none
      | c :: s =>
        if c = ',' then (readItems closing item fuel s).map (Prod.map (x :: ·) id)
        else if c = closing then some ([x], s)
        else none := by
  rw [readItems, skip_newLine, skip_of_first h.first, h.read rest hrest]
  rfl

/-- Items on lines of their own, with the bracket that closes them and the text after it. -/
def itemsText (closing : Char) (depth : Nat) (ts : List Text) (rest : Text) : Text :=
  newLine (depth + 1) ++
    ((',' :: newLine (depth + 1)).intercalate ts ++ (newLine depth ++ closing :: rest))

theorem itemsText_singleton (closing : Char) (depth : Nat) (t rest : Text) :
    itemsText closing depth [t] rest =
      newLine (depth + 1) ++ (t ++ (newLine depth ++ closing :: rest)) := by
  rw [itemsText, List.intercalate_singleton]

theorem itemsText_cons_cons (closing : Char) (depth : Nat) (t u : Text) (ts : List Text)
    (rest : Text) : itemsText closing depth (t :: u :: ts) rest =
      newLine (depth + 1) ++ (t ++ ',' :: itemsText closing depth (u :: ts) rest) := by
  simp only [itemsText, List.intercalate_cons_cons, List.append_assoc, List.cons_append]

theorem block_append (opening closing : Char) (depth : Nat) (t : Text) (ts : List Text)
    (rest : Text) : block opening closing depth (t :: ts) ++ rest =
      opening :: itemsText closing depth (t :: ts) rest := by
  simp [block, itemsText]

/-- All items, up to the bracket. -/
theorem readItems_itemsText (h : List.Forall₂ (Reads item) (x :: xs) (t :: ts))
    (hfuel : ts.length < fuel) (hclosing : closing = ']' ∨ closing = '\x7d') (depth : Nat)
    (rest : Text) :
    readItems closing item fuel (itemsText closing depth (t :: ts) rest) =
      some (x :: xs, rest) := by
  have hclose : isSpace closing = false ∧ closing ≠ ',' := by
    rcases hclosing with rfl | rfl <;> decide
  obtain ⟨fuel, rfl⟩ := Nat.exists_eq_succ_of_ne_zero (Nat.ne_zero_of_lt hfuel)
  obtain ⟨hx, hxs⟩ := List.forall₂_cons.1 h
  induction ts generalizing x xs t fuel with
  | nil =>
    obtain rfl := List.forall₂_nil_right_iff.1 hxs
    rw [itemsText_singleton, readItems_succ hx rfl, skip_newLine, skip_cons hclose.1]
    simp only [if_neg hclose.2, if_true]
  | cons u ts ih =>
    obtain ⟨y, ys, hy, hys, rfl⟩ := List.forall₂_cons_right_iff.1 hxs
    have hlt : ts.length < fuel := Nat.lt_of_succ_lt_succ hfuel
    obtain ⟨fuel, rfl⟩ := Nat.exists_eq_succ_of_ne_zero (Nat.ne_zero_of_lt hlt)
    rw [itemsText_cons_cons, readItems_succ hx rfl, skip_cons rfl]
    simp only [if_true, ih hxs fuel hlt hy hys]
    rfl

/-- A block is read back, whether it stands on one line or on several. -/
theorem exists_readBlock (h : List.Forall₂ (Reads item) xs ts) (hfuel : ts.length ≤ fuel)
    (hclosing : closing = ']' ∨ closing = '\x7d') (depth : Nat) (rest : Text) :
    ∃ s, block opening closing depth ts ++ rest = opening :: s ∧
      readBlock closing item fuel s = some (xs, rest) := by
  cases h with
  | nil =>
    have hspace : isSpace closing = false := by
      rcases hclosing with rfl | rfl <;> rfl
    refine ⟨closing :: rest, rfl, ?_⟩
    rw [readBlock, skip_cons hspace]
    exact if_pos rfl
  | @cons x t xs ts hx hxs =>
    refine ⟨_, block_append opening closing depth t ts rest, ?_⟩
    obtain ⟨c, s, hs, hne⟩ : ∃ c s, skip (itemsText closing depth (t :: ts) rest) = c :: s ∧
        c ≠ closing := by
      obtain ⟨c, v, rfl, hc, hbracket, hbrace⟩ := exists_first hx.first
      have hne : c ≠ closing := by
        rcases hclosing with rfl | rfl <;> assumption
      cases ts with
      | nil => exact ⟨c, _, by rw [itemsText_singleton, skip_newLine]; exact skip_cons hc _, hne⟩
      | cons u ts =>
        exact ⟨c, _, by rw [itemsText_cons_cons, skip_newLine]; exact skip_cons hc _, hne⟩
    rw [readBlock, hs]
    simp only [if_neg hne]
    exact readItems_itemsText (.cons hx hxs) hfuel hclosing depth rest

theorem length_intercalate_le {sep : Text} (h : sep ≠ []) (ts : List Text) :
    (∀ t ∈ ts, t.length ≤ (sep.intercalate ts).length) ∧
      ts.length ≤ (sep.intercalate ts).length + 1 := by
  have hsep := List.length_pos_iff.2 h
  induction ts with
  | nil => simp
  | cons t ts ih =>
    cases ts with
    | nil => simp
    | cons u ts =>
      obtain ⟨hall, hlen⟩ := ih
      rw [List.intercalate_cons_cons, List.forall_mem_cons]
      simp only [List.length_append, List.length_cons] at hall hlen ⊢
      refine ⟨⟨by omega, fun v hv => ?_⟩, by omega⟩
      have hle := hall v hv
      omega

/-- A block is longer than its items, and not shorter than their number. -/
theorem length_block_bounds (opening closing : Char) (depth : Nat) (ts : List Text) :
    (∀ t ∈ ts, t.length < (block opening closing depth ts).length) ∧
      ts.length ≤ (block opening closing depth ts).length := by
  cases ts with
  | nil => simp
  | cons t ts =>
    obtain ⟨hall, hlen⟩ :=
      length_intercalate_le (List.cons_ne_nil ',' (newLine (depth + 1))) (t :: ts)
    have hblock : ((',' :: newLine (depth + 1)).intercalate (t :: ts)).length + 2 ≤
        (block opening closing depth (t :: ts)).length := by
      simp only [block, newLine, List.length_append, List.length_cons, List.length_nil]
      omega
    refine ⟨fun u hu => ?_, by omega⟩
    have hle := hall u hu
    omega

end Blocks

section Documents
variable {item : Json} {items : List Json} {members : List (Text × Json)} {t : Text}
  {ts : List Text} {fuel : Nat}

theorem isFirst_of_digit {c : Char} (h : c.isDigit = true) : isFirst c = true := by
  have hother : ([' ', '\n', '\r', '\t'] ++ [']', '\x7d']).all (!·.isDigit) = true := by decide
  rw [isFirst, isSpace, ← List.contains_append, Bool.not_eq_true', ← Bool.not_eq_true,
    List.contains_iff_mem]
  intro hm
  have hc := List.all_eq_true.1 hother c hm
  rw [h] at hc
  contradiction

theorem exists_digit (n : Nat) : ∃ d ds, decimal n = d :: ds ∧ d.isDigit = true := by
  obtain ⟨d, ds, hds⟩ := List.exists_cons_of_ne_nil (Nat.toDigits_ne_nil (n := n) (b := 10))
  have hd : d ∈ decimal n := by
    rw [decimal, hds]
    exact List.mem_cons_self
  exact ⟨d, ds, hds, isDigit_of_mem_decimal hd⟩

theorem reads_int (z : Int) (fuel : Nat) : Reads (readValue (fuel + 1)) (int z) (integer z) := by
  by_cases hz : z < 0
  · have htext : integer z = '-' :: decimal z.natAbs := if_pos hz
    have habs : -(z.natAbs : Int) = z := by omega
    rw [htext]
    refine ⟨rfl, fun rest hrest => ?_⟩
    show (readNat (decimal z.natAbs ++ rest)).map (Prod.map (fun n : Nat => int (-n)) id) = _
    rw [readNat_decimal _ hrest, Option.map_some, Prod.map_apply, habs, id_eq]
  · have htext : integer z = decimal z.natAbs := if_neg hz
    have habs : (z.natAbs : Int) = z := by omega
    obtain ⟨d, ds, hds, hd⟩ := exists_digit z.natAbs
    rw [htext]
    refine ⟨?_, fun rest hrest => ?_⟩
    · rw [hds]
      exact isFirst_of_digit hd
    · have hne {c : Char} {t : Text} (hc : c.isDigit = false) :
          decimal z.natAbs ++ rest ≠ c :: t := by
        rw [hds]
        rintro ⟨⟩
        rw [hd] at hc
        contradiction
      rw [readValue.eq_9, readNat_decimal _ hrest, Option.map_some, Prod.map_apply, habs, id_eq]
      all_goals exact fun _ => hne (by decide)

theorem reads_str (s : Text) (fuel : Nat) : Reads (readValue (fuel + 1)) (str s) (quote s) := by
  refine ⟨rfl, fun rest _ => ?_⟩
  show (readString (s.flatMap escape ++ ['"'] ++ rest)).map (Prod.map str id) = _
  rw [List.append_assoc, List.singleton_append, readString_escaped]
  rfl

theorem reads_member {value : Text → Option (Json × Text)} (key : Text) (h : Reads value item t) :
    Reads (readMember value) (key, item) (quote key ++ ": ".toList ++ t) := by
  refine ⟨rfl, fun rest hrest => ?_⟩
  have htext : quote key ++ ": ".toList ++ t ++ rest =
      '"' :: (key.flatMap escape ++ '"' :: ':' :: ' ' :: (t ++ rest)) := by
    simp [quote]
  have hvalue : skip (' ' :: (t ++ rest)) = t ++ rest := skip_of_first h.first rest
  have hcolon : skip (':' :: ' ' :: (t ++ rest)) = ':' :: ' ' :: (t ++ rest) := skip_cons rfl _
  rw [htext, readMember, readString_escaped]
  simp only [Option.bind_eq_bind, Option.bind_some, hcolon, hvalue, h.read rest hrest]
  rfl

theorem reads_arr (h : List.Forall₂ (Reads (readValue fuel)) items ts) (hfuel : ts.length ≤ fuel)
    (depth : Nat) : Reads (readValue (fuel + 1)) (arr items) (block '[' ']' depth ts) := by
  refine ⟨by cases ts <;> rfl, fun rest _ => ?_⟩
  obtain ⟨s, hs, hread⟩ := exists_readBlock h hfuel (.inl rfl) depth rest
  rw [hs]
  show (readBlock ']' (readValue fuel) fuel s).map (Prod.map arr id) = _
  rw [hread]
  rfl

theorem reads_obj (h : List.Forall₂ (Reads (readMember (readValue fuel))) members ts)
    (hfuel : ts.length ≤ fuel) (depth : Nat) :
    Reads (readValue (fuel + 1)) (obj members) (block '\x7b' '\x7d' depth ts) := by
  refine ⟨by cases ts <;> rfl, fun rest _ => ?_⟩
  obtain ⟨s, hs, hread⟩ := exists_readBlock h hfuel (.inr rfl) depth rest
  rw [hs]
  show (readBlock '\x7d' (readMember (readValue fuel)) fuel s).map (Prod.map obj id) = _
  rw [hread]
  rfl

mutual

theorem reads_layOut (document : Json) (depth fuel : Nat)
    (h : (layOut depth document).length < fuel) :
    Reads (readValue fuel) document (layOut depth document) := by
  obtain ⟨fuel, rfl⟩ := Nat.exists_eq_succ_of_ne_zero (Nat.ne_zero_of_lt h)
  cases document with
  | null => exact ⟨rfl, fun _ _ => rfl⟩
  | bool b =>
    cases b with
    | true => exact ⟨rfl, fun _ _ => rfl⟩
    | false => exact ⟨rfl, fun _ _ => rfl⟩
  | int z => exact reads_int z fuel
  | str s => exact reads_str s fuel
  | arr items =>
    obtain ⟨hall, hlen⟩ := length_block_bounds '[' ']' depth (layOutItems (depth + 1) items)
    have hle : _ ≤ fuel := Nat.le_of_lt_succ h
    exact reads_arr (reads_layOutItems items _ fuel fun t ht => (hall t ht).trans_le hle)
      (hlen.trans hle) depth
  | obj members =>
    obtain ⟨hall, hlen⟩ :=
      length_block_bounds '\x7b' '\x7d' depth (layOutMembers (depth + 1) members)
    have hle : _ ≤ fuel := Nat.le_of_lt_succ h
    exact reads_obj (reads_layOutMembers members _ fuel fun t ht => (hall t ht).trans_le hle)
      (hlen.trans hle) depth

theorem reads_layOutItems (items : List Json) (depth fuel : Nat)
    (h : ∀ t ∈ layOutItems depth items, t.length < fuel) :
    List.Forall₂ (Reads (readValue fuel)) items (layOutItems depth items) := by
  cases items with
  | nil => exact .nil
  | cons item items =>
    rw [layOutItems, List.forall_mem_cons] at h
    exact .cons (reads_layOut item depth fuel h.1) (reads_layOutItems items depth fuel h.2)

theorem reads_layOutMembers (members : List (Text × Json)) (depth fuel : Nat)
    (h : ∀ t ∈ layOutMembers depth members, t.length < fuel) :
    List.Forall₂ (Reads (readMember (readValue fuel))) members (layOutMembers depth members) := by
  match members with
  | [] => exact .nil
  | (key, item) :: members =>
    rw [layOutMembers, List.forall_mem_cons] at h
    obtain ⟨hlen, h⟩ := h
    rw [List.length_append] at hlen
    exact .cons (reads_member key (reads_layOut item depth fuel (by omega)))
      (reads_layOutMembers members depth fuel h)

end

end Documents

/-- Nothing of a document is lost in its layout. -/
theorem read?_pretty (document : Json) : read? document.pretty = some document := by
  have hreads : Reads (readValue (document.pretty.length + 1)) document document.pretty :=
    reads_layOut document 0 _ (Nat.lt_succ_self _)
  have hskip : skip document.pretty = document.pretty := by
    have hfirst := skip_of_first hreads.first []
    rwa [List.append_nil] at hfirst
  have hread := hreads.read [] rfl
  rw [List.append_nil] at hread
  rw [read?, hskip, hread]
  rfl

/-- Other layouts are read as well, with other escapes. -/
example : read? " [1 ,-2\t,\n\"\\u0041\\/\"]".toList =
    some (arr [int 1, int (-2), str "A/".toList]) := rfl

end MicroAsm.Json
