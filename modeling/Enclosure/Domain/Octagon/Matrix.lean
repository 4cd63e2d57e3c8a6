import Enclosure.Space

/-!
# Matrices of difference bounds

Every dimension `x` of a space has two nodes, one for `x` and one for `-x`.
-/

namespace Enclosure

def node (d : Nat) (positive : Bool) : Nat := if positive then 2 * d else 2 * d + 1

def opposite (a : Nat) : Nat := if a % 2 = 0 then a + 1 else a - 1

def nodeDim (a : Nat) : Nat := a / 2

def nodeOf (a d : Nat) : Nat := 2 * d + a % 2

def ExtRat.boundSum (x y : ExtRat) : ExtRat := (x.add? y).getD .posInf

structure BoundMatrix where
  rows : List (List ExtRat)
  deriving DecidableEq

namespace BoundMatrix

def nodes (m : BoundMatrix) : Nat := m.rows.length

def entry (m : BoundMatrix) (a b : Nat) : ExtRat := ((m.rows[a]?.getD [])[b]?).getD .posInf

def ofFn (n : Nat) (f : Nat → Nat → ExtRat) : BoundMatrix :=
  ⟨(List.range n).map fun a => (List.range n).map (f a)⟩

def unbounded (n : Nat) : BoundMatrix := ofFn n fun a b => if a = b then .zero else .posInf

def mapEntries (m : BoundMatrix) (f : Nat → Nat → ExtRat → ExtRat) : BoundMatrix :=
  ofFn m.nodes fun a b => f a b (m.entry a b)

def allNodes (m : BoundMatrix) (p : Nat → Bool) : Bool := (List.range m.nodes).all p

def le (m n : BoundMatrix) : Bool :=
  m.allNodes fun a => m.allNodes fun b => m.entry a b ≤ n.entry a b

def tighten (m : BoundMatrix) (a b : Nat) (c : ExtRat) : BoundMatrix :=
  m.mapEntries fun i j e =>
    if (i = a ∧ j = b) ∨ (i = opposite b ∧ j = opposite a) then e.min c else e

def pivot (m : BoundMatrix) (k : Nat) : BoundMatrix :=
  m.mapEntries fun i j e => e.min ((m.entry i k).boundSum (m.entry k j))

def shortest (m : BoundMatrix) : BoundMatrix := (List.range m.nodes).foldl pivot m

/-- Rounds the bounds on differences of integers down; the bound on twice an integer is
even. -/
def roundIntegers (s : Space) (m : BoundMatrix) : BoundMatrix :=
  m.mapEntries fun i j e =>
    if s.isInt (nodeDim i) && s.isInt (nodeDim j) then
      if j = opposite i then e.half.floor.twice else e.floor
    else e

/-- Lowers every bound on `v - w` to half of the bounds on `2 v` and on `-2 w` together. -/
def strengthen (m : BoundMatrix) : BoundMatrix :=
  m.mapEntries fun i j e =>
    e.min ((m.entry i (opposite i)).boundSum (m.entry (opposite j) j)).half

def hasNegativeLoop (m : BoundMatrix) : Bool :=
  (List.range m.nodes).any fun i => (m.entry i i).sign < 0

def isContradictory (m : BoundMatrix) : Bool :=
  (List.range m.nodes).any fun i =>
    (m.entry i i).sign < 0 ||
      ((m.entry i (opposite i)).boundSum (m.entry (opposite i) i)).sign < 0

def zeroDiagonal (m : BoundMatrix) : BoundMatrix :=
  m.mapEntries fun i j e => if i = j then .zero else e

def close? (s : Space) (m : BoundMatrix) : Option BoundMatrix :=
  let short := m.shortest
  if short.hasNegativeLoop then none
  else
    let strong := (short.roundIntegers s).strengthen
    if strong.isContradictory then none else some strong.zeroDiagonal

def upper (m : BoundMatrix) (d : Nat) : ExtRat := (m.entry (2 * d) (2 * d + 1)).half

def lower (m : BoundMatrix) (d : Nat) : ExtRat := (m.entry (2 * d + 1) (2 * d)).half.neg

end BoundMatrix

end Enclosure
