import Enclosure.Domain.Polyhedron.Row

/-!
# Elimination of columns

A column is eliminated by adding, for each row that bounds it from above and each row that bounds it
from below, the multiples in which it cancels.
-/

namespace Enclosure

def Row.cancel (col : Nat) (r s : Row) : Row :=
  let x := (s.coeff col).abs
  let y := (r.coeff col).abs
  { coeffs := (List.zipWith (fun a b => a * x + b * y) r.coeffs s.coeffs).eraseIdx col
    bound := r.bound * x + s.bound * y
    strict := r.strict || s.strict }

def Row.eraseColumn (col : Nat) (r : Row) : Row := { r with coeffs := r.coeffs.eraseIdx col }

namespace Rows

def upperRows (col : Nat) (rows : List Row) : List Row := rows.filter (0 < ·.coeff col)

def lowerRows (col : Nat) (rows : List Row) : List Row := rows.filter (·.coeff col < 0)

def eliminate (col : Nat) (rows : List Row) : List Row :=
  let others := (rows.filter (·.coeff col = 0)).map (Row.eraseColumn col)
  let pairs := (upperRows col rows).flatMap fun r => (lowerRows col rows).map (Row.cancel col r)
  tidy (others ++ pairs)

def pairCount (rows : List Row) (col : Nat) : Nat :=
  (upperRows col rows).length * (lowerRows col rows).length

def cheapest? (cost : Nat → Nat) : List Nat → Option Nat
  | [] => none
  | k :: ks =>
    match cheapest? cost ks with
    | none => some k
    | some l => if cost l < cost k then some l else some k

def droppedColumns (keep : List Bool) : List Nat :=
  (List.range keep.length).filter fun k => !keep.getD k true

/-- Eliminates the columns that are not kept, the cheapest one first; `fuel` is at least
their number. -/
def eliminateAll : Nat → List Row → List Bool → Op (Option (List Row))
  | 0, rows, _ => return some rows
  | fuel + 1, rows, keep => do
    if rows.length = 1 && rows.any (·.isContradiction) then
      return some [.never (keep.count true)]
    else
      match cheapest? (pairCount rows) (droppedColumns keep) with
      | none => return some rows
      | some col =>
        if rows.isEmpty then eliminateAll fuel rows (keep.eraseIdx col)
        else
          let rows := eliminate col rows
          if ← Op.exceedsSize rows.length then return none
          else eliminateAll fuel rows (keep.eraseIdx col)

/-- The system on the columns that are kept, whose solutions are those that some solution
of the given system extends; `none` when it grows over the limit. -/
def project (rows : List Row) (keep : List Bool) : Op (Option (List Row)) :=
  eliminateAll (keep.length + 1) (tidy rows) keep

def infeasible (rows : List Row) : Op Bool := do
  match ← project rows (List.replicate (columns rows) false) with
  | some rows => return rows.any (·.isContradiction)
  | none => return false

def entails (rows : List Row) (r : Row) : Op Bool := infeasible (rows ++ [r.negate])

def upperBound (rows : List Row) : ExtRat :=
  (upperRows 0 rows).foldl (fun hi r => hi.min (.fin (r.bound / r.coeff 0))) .posInf

def lowerBound (rows : List Row) : ExtRat :=
  (lowerRows 0 rows).foldl (fun lo r => lo.max (.fin (r.bound / r.coeff 0))) .negInf

def columnRange (rows : List Row) : Interval := .ofExt (lowerBound rows) (upperBound rows)

end Rows

end Enclosure
