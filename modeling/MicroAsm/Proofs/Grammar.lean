import MicroAsm.Proofs.Clause
/-!
The grammar of tokens: the texts that are read as an assignment to a unit, with the sense of each.
Leading blanks of an operand do not count.
-/
namespace MicroAsm
open Text

def plainTokens : List (FuncUnit × Nat × Text) :=
  [(.a, 1, "A=D".toList), (.a, 3, "A=IN1".toList), (.a, 4, "A=IN2".toList), (.b, 1, "B=A".toList),
    (.c, 2, "DEC".toList), (.d, 1, "D=A".toList), (.w, 1, "W=A".toList), (.o, 1, "OUT1=W".toList),
    (.o, 2, "OUT2=W".toList)]

/-- Tests that leave the operation to another token. -/
def testTokens : List (Nat × Text) :=
  [(1, "F=ZERO()".toList), (2, "F=NEG()".toList), (3, "F=POS()".toList)]

def operationPrefixes : List (FuncUnit × Nat × Text) :=
  [(.a, 2, "A=".toList), (.b, 2, "B=".toList), (.c, 1, "C=".toList), (.w, 2, "W=".toList),
    (.f, 1, "F=ZERO(".toList), (.f, 2, "F=NEG(".toList), (.f, 3, "F=POS(".toList)]

def constantPrefixes : List (FuncUnit × Text) := [(.b, "B=".toList), (.w, "W=".toList)]

def branchPrefixes : List (FuncUnit × Nat × Text) :=
  [(.c, 3, "DECNZ ".toList), (.j, 1, "JMP ".toList), (.j, 2, "JMPT ".toList),
    (.j, 3, "JMPF ".toList)]

/-- The operand that names an operation; a test closes its parenthesis after it. -/
def FuncUnit.operand (u : FuncUnit) (op : AluOp) : Text :=
  op.spelling ++ if u = .f then [')'] else []

inductive ReadsAs (labels : LabelTable) : Text → FuncUnit → Sense → Prop where
  | plain {u n text} (h : (u, n, text) ∈ plainTokens) : ReadsAs labels text u (.plain n)
  | test {n text} (h : (n, text) ∈ testTokens) : ReadsAs labels text .f (.test n)
  | operation {u n text rest op} (h : (u, n, text) ∈ operationPrefixes)
    (ho : trimLeft rest = u.operand op) : ReadsAs labels (text ++ rest) u (.operation n op)
  | constant {u text rest value} (h : (u, text) ∈ constantPrefixes)
    (hv : readLiteral (trimLeft rest) = .ok (some value)) :
    ReadsAs labels (text ++ rest) u (.constant value)
  | branch {u n text rest target} (h : (u, n, text) ∈ branchPrefixes)
    (ht : labels.get? (trimLeft rest) = some target) :
    ReadsAs labels (text ++ rest) u (.branch n target)

/-- The one operand that is an operation and a constant at once. -/
def IsZero (token : Text) (u : FuncUnit) : Prop :=
  ∃ text rest, (u, text) ∈ constantPrefixes ∧ token = text ++ rest ∧ trimLeft rest = ['0']

theorem not_isZero_of_branch {labels : LabelTable} {token : Text} {u : FuncUnit} {n : Nat}
    {t : Address} (h : ReadsAs labels token u (.branch n t)) : ¬IsZero token u := by
  have hcat : ∀ x ∈ branchPrefixes, ∀ y ∈ constantPrefixes, x.1 ≠ y.1 := by decide
  intro hex
  obtain ⟨text, rest, hz, -⟩ := hex
  cases h with
  | branch h => exact hcat _ h _ hz rfl

/-- What a token says in every line. -/
inductive Means (labels : LabelTable) (token : Text) : Clause → Prop where
  | zero {u} (h : IsZero token u) : Means labels token ⟨u, .zero⟩
  | definite {u e} (h : ReadsAs labels token u e) (hz : ¬IsZero token u) :
    Means labels token ⟨u, .definite e⟩

theorem ReadsAs.selector_ne_zero {labels : LabelTable} {token : Text} {u : FuncUnit} {e : Sense}
    (h : ReadsAs labels token u e) : e.selector ≠ 0 := by
  have hplain : ∀ x ∈ plainTokens, x.2.1 ≠ 0 := by decide
  have htest : ∀ x ∈ testTokens, x.1 ≠ 0 := by decide
  have hop : ∀ x ∈ operationPrefixes, x.2.1 ≠ 0 := by decide
  have hbranch : ∀ x ∈ branchPrefixes, x.2.1 ≠ 0 := by decide
  cases h with
  | plain h => exact hplain _ h
  | test h => exact htest _ h
  | operation h => exact hop _ h
  | constant => exact Nat.succ_ne_zero 2
  | branch h => exact hbranch _ h

theorem Means.drives {labels : LabelTable} {token : Text} {c : Clause}
    (h : Means labels token c) : c.Drives := by
  intro alu
  cases h with
  | zero =>
    simp only [Meaning.sense]
    split <;> exact Nat.succ_ne_zero _
  | definite h => exact h.selector_ne_zero

end MicroAsm
