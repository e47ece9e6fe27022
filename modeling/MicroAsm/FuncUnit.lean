import MicroAsm.Text.Basic
/-!
The eight functional units that one instruction drives side by side, and a selector for each of
them. Selector zero leaves a unit idle.
-/
namespace MicroAsm

inductive FuncUnit where
  | a | b | c | d | w | o | f | j
  deriving DecidableEq, Repr

namespace FuncUnit

def all : List FuncUnit := [a, b, c, d, w, o, f, j]

theorem mem_all (u : FuncUnit) : u ∈ all := by cases u <;> decide

def name : FuncUnit → Text
  | a => ['A']
  | b => ['B']
  | c => ['C']
  | d => ['D']
  | w => ['W']
  | o => ['O']
  | f => ['F']
  | j => ['J']

end FuncUnit

@[ext] structure Selectors where
  a : Nat := 0
  b : Nat := 0
  c : Nat := 0
  d : Nat := 0
  w : Nat := 0
  o : Nat := 0
  f : Nat := 0
  j : Nat := 0
  deriving DecidableEq, Repr

namespace Selectors

def get (s : Selectors) : FuncUnit → Nat
  | .a => s.a
  | .b => s.b
  | .c => s.c
  | .d => s.d
  | .w => s.w
  | .o => s.o
  | .f => s.f
  | .j => s.j

def set (s : Selectors) (u : FuncUnit) (n : Nat) : Selectors :=
  match u with
  | .a => { s with a := n }
  | .b => { s with b := n }
  | .c => { s with c := n }
  | .d => { s with d := n }
  | .w => { s with w := n }
  | .o => { s with o := n }
  | .f => { s with f := n }
  | .j => { s with j := n }

theorem get_set (s : Selectors) (u v : FuncUnit) (n : Nat) :
    (s.set u n).get v = if v = u then n else s.get v := by
  cases u <;> cases v <;> rfl

theorem ext_get {s t : Selectors} (h : ∀ u, s.get u = t.get u) : s = t := by
  ext
  · exact h .a
  · exact h .b
  · exact h .c
  · exact h .d
  · exact h .w
  · exact h .o
  · exact h .f
  · exact h .j

end Selectors
end MicroAsm
