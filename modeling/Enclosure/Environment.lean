import Enclosure.Space

/-!
# Environments

An environment names the dimensions of a space.
-/

namespace Enclosure

def charactersBefore : List Char → List Char → Bool
  | _, [] => false
  | [], _ :: _ => true
  | c :: cs, d :: ds => c.toNat < d.toNat || (c = d && charactersBefore cs ds)

def nameBefore (a b : String) : Bool := charactersBefore a.toList b.toList

def insertName (v : String) : List String → List String
  | [] => [v]
  | w :: ws => if nameBefore w v then w :: insertName v ws else v :: w :: ws

def sortNames (names : List String) : List String := names.foldr insertName []

def firstRepeat? (seen : List String) : List String → Option String
  | [] => none
  | v :: vs => if seen.contains v then some v else firstRepeat? (v :: seen) vs

def variableLabel (name : String) : String := "Var(" ++ name ++ ")"

def plainName (d : Nat) : String := "x" ++ toString d

structure Environment where
  ints : List String
  reals : List String
  deriving DecidableEq

/-- How to move between two environments: first the dimensions to add, then those to
remove from the enlarged environment. -/
structure Transfer where
  add : Option SpaceChange
  remove : Option SpaceChange
  deriving DecidableEq

inductive Inclusion
  | incompatible
  | subset
  | equal
  | superset
  | incomparable
  deriving DecidableEq

def Inclusion.label : Inclusion → String
  | incompatible => "incompatible"
  | subset => "subset"
  | equal => "equal"
  | superset => "superset"
  | incomparable => "incomparable"

def Inclusion.order? : Inclusion → Option Ordering
  | subset => some .lt
  | equal => some .eq
  | superset => some .gt
  | incompatible => none
  | incomparable => none

namespace Environment

def make (ints reals : List String) : Except Failure Environment :=
  match firstRepeat? [] (ints ++ reals) with
  | some v => .error (.duplicateVariable v)
  | none => .ok ⟨sortNames ints, sortNames reals⟩

def empty : Environment := ⟨[], []⟩

def vars (e : Environment) : List String := e.ints ++ e.reals

def space (e : Environment) : Space := ⟨e.ints.length, e.reals.length⟩

def size (e : Environment) : Nat := e.space.size

def isEmpty (e : Environment) : Bool := e.size = 0

def dimension? (e : Environment) (v : String) : Option Nat := e.vars.idxOf? v

def dimension (e : Environment) (v : String) : Except Failure Nat :=
  match e.dimension? v with
  | some d => .ok d
  | none => .error (.unknownVariable v)

def contains (e : Environment) (v : String) : Bool := (e.dimension? v).isSome

def var? (e : Environment) (d : Nat) : Option String := e.vars[d]?

def isInt? (e : Environment) (v : String) : Option Bool := (e.dimension? v).map e.space.isInt

def missing? (e : Environment) (names : List String) : Option String :=
  names.find? (!e.contains ·)

def add (e : Environment) (ints reals : List String) : Except Failure Environment :=
  make (e.ints ++ ints) (e.reals ++ reals)

def remove (e : Environment) (names : List String) : Except Failure Environment :=
  match e.missing? names with
  | some v => .error (.unknownVariable v)
  | none => .ok ⟨e.ints.filter (!names.contains ·), e.reals.filter (!names.contains ·)⟩

def renamed (old new : List String) (v : String) : String :=
  ((old.zip new).lookup v).getD v

def rename (e : Environment) (old new : List String) :
    Except Failure (Environment × Permutation) :=
  if old.length ≠ new.length then .error (.arityMismatch old.length new.length)
  else
    match e.missing? old with
    | some v => .error (.unknownVariable v)
    | none =>
      match make (e.ints.map (renamed old new)) (e.reals.map (renamed old new)) with
      | .ok f => .ok (f, ⟨e.vars.filterMap fun v => f.dimension? (renamed old new v)⟩)
      | .error (.duplicateVariable v) => .error (.invalidRenaming v)
      | .error failure => .error failure

def clashes (a b : Environment) (v : String) : Bool :=
  match a.isInt? v, b.isInt? v with
  | some s, some t => s != t
  | _, _ => false

def union (a b : Environment) : Except Failure Environment :=
  match b.vars.find? (clashes a b) with
  | some v => .error (.incompatibleEnvironment v)
  | none =>
    .ok ⟨sortNames (a.ints ++ b.ints.filter (!a.contains ·)),
      sortNames (a.reals ++ b.reals.filter (!a.contains ·))⟩

/-- The change that embeds an environment into a larger one: each new variable is inserted before
the first old one, of its type, that does not come before it. -/
def embedding? (e larger : Environment) : Option SpaceChange :=
  if e.vars.all fun v => larger.isInt? v = e.isInt? v then
    let ints := larger.ints.filter (!e.contains ·)
    let reals := larger.reals.filter (!e.contains ·)
    some
      { dims := ints.map (fun v => e.ints.countP (nameBefore · v)) ++
          reals.map (fun v => e.ints.length + e.reals.countP (nameBefore · v))
        ints := ints.length
        reals := reals.length }
  else none

def embed (e larger : Environment) : Except Failure SpaceChange :=
  match larger.missing? e.vars with
  | some v => .error (.unknownVariable v)
  | none =>
    match e.embedding? larger, e.vars.find? (clashes e larger) with
    | some c, _ => .ok c
    | none, some v => .error (.incompatibleEnvironment v)
    | none, none => .ok ⟨[], 0, 0⟩

def proper (c : Option SpaceChange) : Option SpaceChange := c.filter (!·.isEmpty)

/-- The least common environment and the changes that lead to it from each side; a side
that is already there has none. -/
def unionWithChanges (a b : Environment) :
    Except Failure (Environment × Option SpaceChange × Option SpaceChange) := do
  let e ← a.union b
  return (e, proper (a.embedding? e), proper (b.embedding? e))

def removal (e other : Environment) : SpaceChange :=
  let gone (names : List String) := names.countP (!other.contains ·)
  { dims := (e.vars.zipIdx.filter fun (v, _) => !other.contains v).map (·.2)
    ints := gone e.ints
    reals := gone e.reals }

def transfer (a b : Environment) : Except Failure Transfer := do
  let e ← a.union b
  return ⟨proper (a.embedding? e), proper (some (e.removal b))⟩

def inclusion (a b : Environment) : Inclusion :=
  if a.vars.any (clashes a b) then .incompatible
  else
    match a.vars.all b.contains, b.vars.all a.contains with
    | true, true => .equal
    | true, false => .subset
    | false, true => .superset
    | false, false => .incomparable

def dimensionName (e : Environment) (d : Nat) : String := (e.var? d).getD (plainName d)

def text (e : Environment) : String :=
  "\x7b" ++ ",".intercalate e.ints ++ "|" ++ ",".intercalate e.reals ++ "\x7d"

def label (e : Environment) : String := "Environment" ++ e.text

end Environment

end Enclosure
