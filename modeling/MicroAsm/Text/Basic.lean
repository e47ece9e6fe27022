/-!
Texts are lists of characters. Blanks are the characters of the Unicode property White_Space,
the trims remove a longest run of blanks from one end or from both, and `lines` cuts a text at
its line feeds.
-/
namespace MicroAsm

abbrev Text := List Char

namespace Text

def blankRanges : List (Nat × Nat) :=
  [(0x09, 0x0D), (0x20, 0x20), (0x85, 0x85), (0xA0, 0xA0), (0x1680, 0x1680), (0x2000, 0x200A),
    (0x2028, 0x2029), (0x202F, 0x202F), (0x205F, 0x205F), (0x3000, 0x3000)]

def isBlank (c : Char) : Bool :=
  blankRanges.any fun (first, last) => first ≤ c.toNat && c.toNat ≤ last

def trimLeft (s : Text) : Text := s.dropWhile isBlank

def trimRight (s : Text) : Text := (s.reverse.dropWhile isBlank).reverse

def trim (s : Text) : Text := trimRight (trimLeft s)

/-- Puts a character in front of the first piece. -/
def consFirst (c : Char) : List Text → List Text
  | [] => [[c]]
  | p :: ps => (c :: p) :: ps

/-- A line ends at a line feed, which takes one carriage return before it along. After the last
line feed there is a line only if text follows. -/
def lines : Text → List Text
  | [] => []
  | '\n' :: s => [] :: lines s
  | '\r' :: '\n' :: s => [] :: lines s
  | c :: s => consFirst c (lines s)

theorem isBlank_of_isWhitespace {c : Char} (h : c.isWhitespace = true) : isBlank c = true := by
  simp only [Char.isWhitespace, Bool.or_eq_true, decide_eq_true_eq] at h
  rcases h with ((rfl | rfl) | rfl) | rfl <;> decide

theorem isPrefixOf?_eq_some_iff {p s r : Text} : p.isPrefixOf? s = some r ↔ s = p ++ r := by
  induction p generalizing s with
  | nil =>
    change some s = some r ↔ s = r
    simp
  | cons c p ih =>
    cases s with
    | nil =>
      change none = some r ↔ [] = c :: (p ++ r)
      simp
    | cons d s =>
      change (if c == d then p.isPrefixOf? s else none) = some r ↔ d :: s = c :: (p ++ r)
      by_cases h : c = d
      · simp [h, ih]
      · simp [h, Ne.symm h]

theorem lines_ne_nil {s : Text} (h : s ≠ []) : lines s ≠ [] := by
  fun_cases lines s with
  | case1 => exact absurd rfl h
  | case2 s => simp
  | case3 s => simp
  | case4 c s => cases lines s <;> simp [consFirst]

theorem lines_cons {c : Char} {s : Text} (hc : c ≠ '\n') (hs : c = '\r' → s.head? ≠ some '\n') :
    lines (c :: s) = consFirst c (lines s) := by
  apply lines.eq_4
  · exact hc
  · rintro t rfl rfl
    exact hs rfl rfl

/-- A text that ends in a line feed can be read up to there on its own. -/
theorem lines_append (s t : Text) :
    lines (s ++ '\n' :: t) = lines (s ++ ['\n']) ++ lines t := by
  fun_induction lines s with
  | case1 => rfl
  | case2 s ih => simp [lines, ih]
  | case3 s ih => simp [lines, ih]
  | case4 c s hn hr ih =>
    cases s with
    | nil =>
      by_cases hc : c = '\r'
      · subst hc
        rfl
      · rw [List.singleton_append, List.singleton_append, lines_cons hn (absurd · hc),
          lines_cons hn (absurd · hc)]
        rfl
    | cons d s =>
      have hh (u : Text) : c = '\r' → (d :: s ++ u).head? ≠ some '\n' := by
        rintro rfl hd
        exact hr s rfl (by simpa using hd)
      have e (u : Text) : lines (c :: (d :: s ++ u)) = consFirst c (lines (d :: s ++ u)) :=
        lines_cons hn (hh u)
      change lines (c :: (d :: s ++ '\n' :: t)) = lines (c :: (d :: s ++ ['\n'])) ++ lines t
      rw [e, e, ih]
      cases h : lines (d :: s ++ ['\n']) with
      | nil => exact absurd h (lines_ne_nil (by simp))
      | cons l ls => rfl

end Text
end MicroAsm
