import Enclosure.Proofs.Lattices
import Enclosure.Proofs.Relaxation

/-!
# Exported constraints

A value is exported as constraints: equations and inequalities with finite numbers, or one
constraint that no point satisfies.
-/

namespace Enclosure

open List Coefficient LinearConstraint LinearForm

section RoundTrips

variable {V : Type}

/-- The constraints of the value are exported and meet the top of its space. -/
def DomainCore.RoundTrip (D : DomainCore V) (request request' : Request) (v : V)
    (post : V → Prop) : Prop :=
  Op.Returns request (D.toLinear v) fun cs =>
    Op.Returns request' (D.meetLinear (D.top (D.space v)) cs) post

theorem DomainCore.RoundTrip.mono {D : DomainCore V} {request request' : Request} {v : V}
    {post weaker : V → Prop} (h : D.RoundTrip request request' v post)
    (imp : ∀ w, post w → weaker w) : D.RoundTrip request request' v weaker :=
  Op.Returns.mono h fun _ met => met.mono imp

end RoundTrips

/-! ### Plain constraints -/

structure LinearConstraint.IsPlain (n : Nat) (c : LinearConstraint) : Prop where
  valid : c.form.Valid
  below : c.form.Below n
  regular : c.form.IsRegular
  comparison : c.comparison = .equal ∨ c.comparison = .atLeast ∨ c.comparison = .above

structure IsDescription (s : Space) (cs : List LinearConstraint) (points : List Rat → Prop) :
    Prop where
  plain : ∀ c ∈ cs, c.IsPlain s.size
  holds : ∀ x, s.IsPoint x → ((∀ c ∈ cs, c.Holds x) ↔ points x)

def LinearForm.ofRationals (ts : List (Nat × Rat)) (c : Rat) : LinearForm :=
  ⟨.rational c, .sparse (ts.map fun t => (t.1, .rational t.2))⟩

section Plain

variable {s : Space} {ts : List (Nat × Rat)} {x : List Rat} {c v : Rat} {n : Nat}
  {comparison : Comparison} {points : List Rat → Prop}

theorem sumAt_neg : sumAt (ts.map fun t => (t.1, -t.2)) x = -sumAt ts x := by
  induction ts with
  | nil => simp
  | cons t ts ih => rw [map_cons, sumAt_cons, sumAt_cons, ih, neg_mul, neg_add]

theorem Terms.sumsTo_rational : SumsTo x (ts.map fun t => (t.1, rational t.2)) v ↔ v = sumAt ts x :=
  sumsTo_of_rational? (by rw [map_map]; rfl)

theorem LinearForm.takes_ofRationals : (ofRationals ts c).Takes x v ↔ v = sumAt ts x + c := by
  have number (q : Rat) : (rational c).Has q ↔ q = c := has_of_rational? rfl
  change (∃ k, Has (.rational c) k ∧
    Terms.SumsTo x (ts.map fun t => (t.1, .rational t.2)) (v - k)) ↔ _
  simp only [number, exists_eq_left, Terms.sumsTo_rational, sub_eq_iff_eq_add]

theorem LinearConstraint.holds_ofRationals :
    (plain comparison (.ofRationals ts c)).Holds x ↔ comparison.Holds none (sumAt ts x + c) := by
  simp only [Holds, plain, takes_ofRationals, exists_eq_left]

theorem LinearConstraint.isPlain_ofRationals (nodup : (ts.map Prod.fst).Nodup)
    (inside : ∀ t ∈ ts, t.1 < n)
    (used : comparison = .equal ∨ comparison = .atLeast ∨ comparison = .above) :
    (plain comparison (.ofRationals ts c)).IsPlain n where
  valid := by
    refine ⟨?_, ?_, trivial⟩
    · change ((ts.map fun t => (t.1, rational t.2)).map Prod.fst).Nodup
      rwa [map_map]
    · exact forall_mem_map.2 fun t _ => trivial
  below := fun e mem => by
    obtain ⟨t, term, rfl⟩ := mem_map.1 (mem_nonzero.1 mem).1
    exact inside t term
  regular := ⟨forall_mem_map.2 fun t _ => rfl, c, (has_of_rational? rfl).2 rfl⟩
  comparison := used

theorem LinearConstraint.isPlain_unsatisfiable (n : Nat) : unsatisfiable.IsPlain n := by
  have entries : unsatisfiable.form.entries = [] := rfl
  have nonzero : unsatisfiable.form.nonzero = [] := rfl
  have constant : unsatisfiable.form.constant.rational? = some (-1) := by decide +kernel
  refine ⟨⟨?_, ?_, trivial⟩, ?_, ⟨?_, -1, (has_of_rational? constant).2 rfl⟩, .inr (.inl rfl)⟩
  · simp [entries]
  · simp [entries]
  · simp [Below, nonzero]
  · simp [entries]

theorem isDescription_unsatisfiable (none : ∀ x, ¬ points x) :
    IsDescription s [.unsatisfiable] points where
  plain := by simpa using isPlain_unsatisfiable s.size
  holds x _ := by
    refine iff_of_false (fun all => ?_) (none x)
    have recognized : unsatisfiable.isUnsatisfiable = true := by decide +kernel
    exact not_admits_of_isUnsatisfiable recognized x (all _ (mem_singleton_self _)).admits

theorem IsDescription.iff_of_meet {cs : List LinearConstraint} {met : List Rat → Prop}
    (describes : IsDescription s cs points) (isPoint : ∀ x, points x → s.IsPoint x)
    (meets : ∀ x, met x ↔ s.IsPoint x ∧ ∀ c ∈ cs, c.Holds x) (x : List Rat) : met x ↔ points x := by
  rw [meets]
  constructor
  · intro h
    exact (describes.holds x h.1).1 h.2
  · intro h
    exact ⟨isPoint x h, (describes.holds x (isPoint x h)).2 h⟩

end Plain

/-! ### Linear bounds -/

namespace LinearBound

variable {b : LinearBound} {x : List Rat} {n : Nat}

def exportedTerms (b : LinearBound) : List (Nat × Rat) :=
  (termsOf b.coeffs).map fun t => (t.1, -t.2)

def exportedComparison (b : LinearBound) : Comparison :=
  match b.relation with
  | .atMost => .atLeast
  | .below => .above
  | .equal => .equal

theorem toConstraint_eq (b : LinearBound) :
    b.toConstraint = .plain b.exportedComparison (.ofRationals b.exportedTerms b.bound) := by
  have form : ofRationals b.exportedTerms b.bound =
      ⟨.rational b.bound, .sparse ((b.coeffs.zipIdx.filter (·.1 ≠ 0)).map fun t =>
        (t.2, .rational (-t.1)))⟩ := by
    rw [ofRationals, exportedTerms, termsOf, map_map, map_map]
    rfl
  rw [form]
  unfold toConstraint exportedComparison
  cases b.relation <;> rfl

theorem holds_toConstraint : b.toConstraint.Holds x ↔ b.holdsAt x = true := by
  rw [toConstraint_eq, holds_ofRationals, exportedTerms, sumAt_neg, ← dot_eq_sumAt, neg_add_eq_sub]
  unfold exportedComparison holdsAt
  cases b.relation with
  | atMost => simp [Comparison.Holds, BoundRelation.holds]
  | below => simp [Comparison.Holds, BoundRelation.holds]
  | equal => simp [Comparison.Holds, BoundRelation.holds, sub_eq_zero, eq_comm]

theorem isPlain_toConstraint (width : b.coeffs.length = n) : b.toConstraint.IsPlain n := by
  rw [toConstraint_eq]
  refine isPlain_ofRationals ?_ ?_ ?_
  · have dims := nodup_terms b.coeffs
    rwa [exportedTerms, map_map]
  · intro t mem
    obtain ⟨u, term, rfl⟩ := mem_map.1 mem
    exact width ▸ (List.getElem?_eq_some_iff.1 (mem_terms.1 term).1).1
  · unfold exportedComparison
    cases b.relation <;> simp

end LinearBound

end Enclosure
