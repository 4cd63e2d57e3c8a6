import Enclosure.Failure

/-!
# Spaces and their changes

A space has some integer dimensions, which come first, and some real ones.
-/

namespace Enclosure

structure Space where
  ints : Nat
  reals : Nat
  deriving DecidableEq

namespace Space

def size (s : Space) : Nat := s.ints + s.reals

def isInt (s : Space) (d : Nat) : Bool := d < s.ints

end Space

structure SpaceChange where
  dims : List Nat
  ints : Nat
  reals : Nat
  deriving DecidableEq

def Space.grow (s : Space) (c : SpaceChange) : Space := ⟨s.ints + c.ints, s.reals + c.reals⟩

def Space.shrink (s : Space) (c : SpaceChange) : Except Failure Space :=
  if c.ints ≤ s.ints ∧ c.reals ≤ s.reals then .ok ⟨s.ints - c.ints, s.reals - c.reals⟩
  else .error .outOfRange

namespace SpaceChange

def isSorted : List Nat → Bool
  | d :: e :: rest => d ≤ e && isSorted (e :: rest)
  | _ => true

/-- The change of the given dimensions, which must be as many as the counts say and in
order. -/
def make (dims : List Nat) (ints reals : Nat) : Except Failure SpaceChange :=
  if dims.length ≠ ints + reals then .error .dimensionCount
  else if !isSorted dims then .error .unsortedDimensions
  else .ok ⟨dims, ints, reals⟩

def isEmpty (c : SpaceChange) : Bool := c.dims.isEmpty

/-- Where an old dimension is after an addition: every insertion point up to it moves it
by one. -/
def shift (c : SpaceChange) (i : Nat) : Nat := i + c.dims.countP (· ≤ i)

def shifts (c : SpaceChange) (n : Nat) : List Nat := (List.range n).map c.shift

def added (c : SpaceChange) : List Nat := c.dims.zipIdx.map fun (d, k) => d + k

def noDimension : Nat := 4294967295

/-- Where the new dimensions are after an addition, which must not pass the greatest one. -/
def checkedAdded (c : SpaceChange) : Except Failure (List Nat) :=
  if c.added.all (· ≤ noDimension) then .ok c.added else .error .outOfRange

def insertInto {α : Type} (c : SpaceChange) (fill : α) (v : List α) : List α :=
  v.zipIdx.flatMap (fun (x, i) => List.replicate (c.dims.count i) fill ++ [x]) ++
    List.replicate (c.dims.countP (v.length ≤ ·)) fill

def drops (c : SpaceChange) (i : Nat) : Bool := c.dims.contains i

def position? (c : SpaceChange) (i : Nat) : Option Nat :=
  if c.drops i then none else some (i - (List.range i).countP c.drops)

def positions (c : SpaceChange) (n : Nat) : List (Option Nat) := (List.range n).map c.position?

def kept (c : SpaceChange) (n : Nat) : List Nat := (List.range n).filter (!c.drops ·)

def removeFrom {α : Type} (c : SpaceChange) (v : List α) : List α :=
  (v.zipIdx.filter fun (_, i) => !c.drops i).map (·.1)

end SpaceChange

structure Permutation where
  images : List Nat
  deriving DecidableEq

namespace Permutation

def make (images : List Nat) : Except Failure Permutation :=
  if images.all (· < images.length) ∧ images.Nodup then .ok ⟨images⟩
  else .error .notAPermutation

def identity (n : Nat) : Permutation := ⟨List.range n⟩

def size (p : Permutation) : Nat := p.images.length

def isIdentity (p : Permutation) : Bool := p.images = List.range p.size

def image (p : Permutation) (d : Nat) : Nat := p.images.getD d d

def preimage (p : Permutation) (d : Nat) : Nat := p.images.idxOf d

def inverse (p : Permutation) : Permutation := ⟨(List.range p.size).map p.preimage⟩

def swap (p : Permutation) (a b : Nat) : Except Failure Permutation := do
  let x ← fetch p.images a
  let y ← fetch p.images b
  return ⟨(p.images.set a y).set b x⟩

def permute {α : Type} (p : Permutation) (v : List α) : Except Failure (List α) :=
  if v.length = p.size then .ok (p.inverse.images.filterMap (v[·]?))
  else .error (.sizeMismatch .permutation)

end Permutation

end Enclosure
