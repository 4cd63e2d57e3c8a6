import Enclosure.Proofs.Assignment
import Enclosure.Proofs.Extension

/-!
# Dense and sparse forms

A dense form has a coefficient for each dimension and a sparse one has terms in order. What changes
both in the same way keeps them interchangeable.
-/

namespace Enclosure

open List

namespace LinearForm

variable {cs : List Coefficient} {es : List (Nat × Coefficient)} {d : Nat} {c : Coefficient}

/-- The terms are in order, and the coefficients that they leave out are zeros. -/
structure Represents (es : List (Nat × Coefficient)) (cs : List Coefficient) : Prop where
  sorted : es.Pairwise fun e f => e.1 < f.1
  listed : ∀ e ∈ es, cs[e.1]? = some e.2
  others : ∀ (d : Nat) (c : Coefficient), cs[d]? = some c → (d, c) ∈ es ∨ ∃ k, c = .zero k

theorem represents_zeros (n : Nat) (k : Kind) : Represents [] (replicate n (.zero k)) := by
  refine ⟨.nil, by simp, fun d c found => .inr ⟨k, ?_⟩⟩
  exact (mem_replicate.1 (mem_of_getElem? found)).2

namespace Represents

variable (h : Represents es cs) {e : Nat × Coefficient}
include h

theorem set (inside : d < cs.length) : Represents (Terms.insert d c es) (cs.set d c) := by
  obtain ⟨sorted, perm⟩ := Terms.perm_insert (d := d) (c := c) h.sorted
  refine ⟨sorted, fun e mem => ?_, fun i x found => ?_⟩
  · rcases mem_cons.1 (perm.subset mem) with rfl | old
    · simp [inside]
    · obtain ⟨old, other⟩ := mem_filter.1 old
      rw [getElem?_set_ne (by simpa using Ne.symm (of_decide_eq_true other)), h.listed e old]
  · rw [perm.mem_iff, mem_cons, mem_filter]
    by_cases same : i = d
    · subst same
      simp_all
    · rw [getElem?_set_ne (Ne.symm same)] at found
      exact (h.others i x found).imp_left fun old => .inr ⟨old, by simpa using same⟩

theorem neg : Represents (es.map fun e => (e.1, e.2.neg)) (cs.map (·.neg)) := by
  refine ⟨pairwise_map.2 h.sorted, ?_, fun d c found => ?_⟩
  · rintro _ mem
    obtain ⟨e, old, rfl⟩ := mem_map.1 mem
    simp [h.listed e old]
  · obtain ⟨c, old, rfl⟩ := Option.map_eq_some_iff.1 ((getElem?_map ..).symm.trans found)
    refine (h.others d c old).imp (fun mem => mem_map_of_mem (f := fun e => (e.1, e.2.neg)) mem) ?_
    rintro ⟨k, rfl⟩
    exact ⟨k, rfl⟩

theorem insertInto {a : SpaceChange} (sorted : a.dims.Pairwise (· ≤ ·))
    (reach : ∀ d ∈ a.dims, d ≤ cs.length) (k : Kind) :
    Represents (es.map fun e => (a.shift e.1, e.2)) (a.insertInto (.zero k) cs) := by
  refine ⟨pairwise_map.2 (h.sorted.imp a.shift_lt_shift), ?_, fun d c found => ?_⟩
  · intro _ mem
    obtain ⟨e, old, rfl⟩ := mem_map.1 mem
    exact a.getElem?_insertInto_shift _ (h.listed e old)
  · rcases a.getElem?_insertInto sorted reach found with ⟨i, old, rfl⟩ | ⟨rfl, -⟩
    · exact (h.others i c old).imp_left fun mem =>
        mem_map_of_mem (f := fun e => (a.shift e.1, e.2)) mem
    · exact .inr ⟨k, rfl⟩

theorem lt_of_mem (mem : e ∈ es) : e.1 < cs.length :=
  (List.getElem?_eq_some_iff.1 (h.listed e mem)).1

theorem permute {p : Permutation} (valid : p.Valid cs.length) :
    ∃ ds, p.permute cs = .ok ds ∧ ds.length = cs.length ∧
      Represents (Terms.ofList (es.map fun e => (p.image e.1, e.2))).entries ds := by
  have nodup : ((es.map fun e => (p.image e.1, e.2)).map Prod.fst).Nodup := by
    rw [map_map, show Prod.fst ∘ (fun e : Nat × Coefficient => (p.image e.1, e.2)) =
      p.image ∘ Prod.fst from rfl, ← map_map]
    refine Nodup.map_on (fun i hi j hj same => ?_) (pairwise_map.2 (h.sorted.imp Nat.ne_of_lt))
    obtain ⟨e, low, rfl⟩ := mem_map.1 hi
    obtain ⟨f, high, rfl⟩ := mem_map.1 hj
    rw [← valid.preimage_image (h.lt_of_mem low), same, valid.preimage_image (h.lt_of_mem high)]
  obtain ⟨sorted, perm⟩ := Terms.perm_ofList nodup
  refine ⟨_, valid.permute_eq rfl (.zero .double), by simp, sorted, fun e mem => ?_, fun d c found => ?_⟩
  · obtain ⟨f, old, rfl⟩ := mem_map.1 (perm.subset mem)
    have inside := h.lt_of_mem old
    simp [valid.image_lt inside, valid.preimage_image inside, h.listed f old]
  · obtain ⟨inside, rfl⟩ := List.getElem?_eq_some_iff.1 found
    have inside : d < cs.length := by simpa using inside
    have source := valid.preimage_lt inside
    simp only [getElem_map, getElem_range, getD_eq_getElem _ _ source]
    refine (h.others _ _ (getElem?_eq_getElem source)).imp_left fun mem => perm.mem_iff.2 ?_
    simpa [valid.image_preimage inside] using mem_map_of_mem (f := fun e => (p.image e.1, e.2)) mem

/-- The terms are those coefficients of a dense form that are not left out. -/
theorem eq_filter : es = (Terms.dense cs).entries.filter (· ∈ es) := by
  have indices : (cs.zipIdx.map Prod.snd).Pairwise (· < ·) := by
    simpa [zipIdx_map_snd] using pairwise_lt_range'
  have places : (Terms.dense cs).entries.Pairwise fun e f => e.1 < f.1 :=
    pairwise_map.2 (pairwise_map.1 indices)
  refine h.sorted.eq_of_mem_iff (places.filter _) fun e => ?_
  rw [mem_filter, decide_eq_true_iff, iff_and_self]
  exact fun mem => mem_map.2 ⟨(e.2, e.1), mem_zipIdx_iff_getElem?.2 (h.listed e mem), rfl⟩

theorem zero_of_notMem (mem : e ∈ (Terms.dense cs).entries)
    (out : e ∉ es) : ∃ k, e.2 = .zero k := by
  obtain ⟨f, inside, rfl⟩ := mem_map.1 mem
  exact (h.others _ _ (mem_zipIdx_iff_getElem?.1 inside)).resolve_left out

end Represents

/-! ### What is read off a form -/

section

variable {fs : List (Nat × Coefficient)} {p : Nat × Coefficient → Bool} {bounds : List Interval}
  {k : Kind} {f g : LinearForm} (left : ∀ e ∈ fs, p e = false → ∃ k, e.2 = .zero k)

theorem eval_congr (constant : g.constant = f.constant) (nonzero : g.nonzero = f.nonzero) :
    g.eval bounds k = f.eval bounds k := by
  rw [eval, eval, constant, nonzero]

include left

theorem nonzero_filter : (fs.filter p).filter (!·.2.isZero) = fs.filter (!·.2.isZero) := by
  rw [filter_filter]
  refine filter_congr fun e mem => ?_
  cases kept : p e with
  | true => simp
  | false =>
    obtain ⟨k, zero⟩ := left e mem kept
    simp [zero]
    rfl

theorem all_isExact_filter : (fs.filter p).all (·.2.isExact) = fs.all (·.2.isExact) := by
  rw [all_filter, Bool.eq_iff_iff, all_eq_true, all_eq_true]
  refine forall₂_congr fun e mem => ?_
  cases kept : p e with
  | true => simp
  | false =>
    obtain ⟨k, zero⟩ := left e mem kept
    simp [zero]
    rfl

/-- Terms that are left out add nothing to the constant, and no evaluation sees them. -/
theorem eval_spread_filter {s t : List (Nat × Coefficient)} (i : Interval)
    (same : s.filter (!·.2.isZero) = t.filter (!·.2.isZero)) :
    ((fs.filter p).foldlM (spreadStep bounds k) (s, i) >>= fun last =>
        eval ⟨(Coefficient.range last.2).reduce, .sparse last.1⟩ bounds k) =
      fs.foldlM (spreadStep bounds k) (t, i) >>= fun last =>
        eval ⟨(Coefficient.range last.2).reduce, .sparse last.1⟩ bounds k := by
  induction fs generalizing s t i with
  | nil => exact eval_congr rfl same
  | cons e fs ih =>
    obtain ⟨here, rest⟩ := forall_mem_cons.1 left
    have next (e : Nat × Coefficient) (i : Interval) := ih rest i (s := s ++ [e]) (t := t ++ [e])
      (by rw [filter_append, filter_append, same])
    cases kept : p e with
    | true =>
      rw [filter_cons_of_pos kept, foldlM_cons, foldlM_cons]
      obtain ⟨d, _ | j⟩ := e
      · exact next _ i
      · simp only [spreadStep]
        split
        · exact next _ i
        · cases boundAt bounds k d with
          | error _ => rfl
          | ok b => exact next _ _
    | false =>
      obtain ⟨d, c⟩ := e
      obtain ⟨l, rfl⟩ := here kept
      rw [filter_cons_of_neg (by simp [kept]), foldlM_cons]
      refine ih rest i (same.trans ?_)
      rw [filter_append]
      exact (append_nil _).symm

end

/-! ### Changes of a form -/

inductive Edit
  | setCoefficient (d : Nat) (c : Coefficient)
  | setConstant (c : Coefficient)
  | neg
  | permute (p : Permutation)
  | addDimensions (c : SpaceChange)

namespace Edit

def apply (f : LinearForm) : Edit → Except Failure LinearForm
  | setCoefficient d c => f.setCoefficient d c
  | setConstant c => .ok (f.setConstant c)
  | neg => .ok f.neg
  | permute p => f.permute p
  | addDimensions c => .ok (f.addDimensions c)

/-- The number of dimensions after the edit. -/
def size (n : Nat) : Edit → Nat
  | addDimensions c => n + c.dims.length
  | _ => n

/-- The edit is one of a form over `n` dimensions. -/
def Fits (n : Nat) : Edit → Prop
  | setCoefficient d _ => d < n
  | permute p => p.Valid n
  | addDimensions c => c.dims.Pairwise (· ≤ ·) ∧ ∀ d ∈ c.dims, d ≤ n
  | _ => True

def AllFit : Nat → List Edit → Prop
  | _, [] => True
  | n, e :: rest => e.Fits n ∧ AllFit (e.size n) rest

end Edit

/-- The first form is dense over `n` dimensions and the second is sparse, with the same constant and
the same coefficients up to zeros. -/
inductive Matches (n : Nat) : LinearForm → LinearForm → Prop
  | of {cs : List Coefficient} {es : List (Nat × Coefficient)} (k : Coefficient)
    (length : cs.length = n) (h : Represents es cs) : Matches n ⟨k, .dense cs⟩ ⟨k, .sparse es⟩

/-- Nothing that is read off the forms tells them apart, but which zeros they store. -/
structure Interchangeable (f g : LinearForm) : Prop where
  constant : g.constant = f.constant
  coefficient : ∀ d, g.coefficient? d = f.coefficient? d ∨
    g.coefficient? d = none ∧ ∃ k, f.coefficient? d = some (.zero k)
  eval : ∀ bounds k, g.eval bounds k = f.eval bounds k
  linearized : ∀ bounds k, (g.quasilinearize bounds k >>= (·.eval bounds k)) =
    f.quasilinearize bounds k >>= (·.eval bounds k)
  isConstant : g.isConstant = f.isConstant
  isLinear : g.isLinear = f.isLinear
  isQuasilinear : g.isQuasilinear = f.isQuasilinear
  isInteger : ∀ ints, g.isInteger ints = f.isInteger ints
  isReal : ∀ ints, g.isReal ints = f.isReal ints

namespace Matches

variable {n : Nat} {f g : LinearForm} (h : Matches n f g)
include h

theorem apply (e : Edit) (fits : e.Fits n) :
    ∃ f' g', e.apply f = .ok f' ∧ e.apply g = .ok g' ∧ Matches (e.size n) f' g' := by
  obtain @⟨cs, es, k, rfl, h⟩ := h
  cases e with
  | setCoefficient d c => exact ⟨_, _, if_pos fits, rfl, .of k length_set (h.set fits)⟩
  | setConstant c => exact ⟨_, _, rfl, rfl, .of c rfl h⟩
  | neg => exact ⟨_, _, rfl, rfl, .of k.neg (length_map _) h.neg⟩
  | permute p =>
    obtain ⟨ds, run, length, represents⟩ := h.permute fits
    have inside : es.all (·.1 < p.size) = true := all_eq_true.2 fun e mem =>
      decide_eq_true ((h.lt_of_mem mem).trans_eq fits.length.symm)
    refine ⟨⟨k, .dense ds⟩, _, ?_, if_pos inside, .of k length represents⟩
    simp only [Edit.apply, LinearForm.permute, run]
    rfl
  | addDimensions c =>
    exact ⟨_, _, rfl, rfl, .of k (c.length_insertInto _ _) (h.insertInto fits.1 fits.2 _)⟩

theorem run {edits : List Edit} (fit : Edit.AllFit n edits) :
    ∃ m f' g', edits.foldlM Edit.apply f = .ok f' ∧ edits.foldlM Edit.apply g = .ok g' ∧
      Matches m f' g' := by
  induction edits generalizing n f g with
  | nil => exact ⟨n, f, g, rfl, rfl, h⟩
  | cons e edits ih =>
    obtain ⟨f', g', runF, runG, h'⟩ := h.apply e fit.1
    rw [foldlM_cons, foldlM_cons, runF, runG]
    exact ih h' fit.2

theorem interchangeable : Interchangeable f g := by
  obtain @⟨cs, es, k, -, h⟩ := h
  have left e (mem : e ∈ (Terms.dense cs).entries) (out : decide (e ∈ es) = false) :
      ∃ k, e.2 = .zero k := h.zero_of_notMem mem (of_decide_eq_false out)
  have nonzero : nonzero ⟨k, .sparse es⟩ = nonzero ⟨k, .dense cs⟩ :=
    (congrArg (filter _) h.eq_filter).trans (nonzero_filter left)
  have quasilinear : isQuasilinear ⟨k, .sparse es⟩ = isQuasilinear ⟨k, .dense cs⟩ :=
    (congrArg (all · _) h.eq_filter).trans (all_isExact_filter left)
  refine ⟨rfl, fun d => ?_, fun bounds l => eval_congr rfl nonzero, fun bounds l => ?_,
    congrArg isEmpty nonzero, congrArg (k.isExact && ·) quasilinear, quasilinear,
    fun ints => congrArg (all · _) nonzero, fun ints => congrArg (all · _) nonzero⟩
  · rw [coefficient?_dense]
    cases found : coefficient? ⟨k, .sparse es⟩ d with
    | some c => exact .inl (h.listed _ (mem_entries_of_coefficient? found)).symm
    | none =>
      cases stored : cs[d]? with
      | none => exact .inl rfl
      | some c =>
        refine .inr ⟨rfl, ((h.others d c stored).resolve_left fun mem => ?_).imp fun _ => congrArg _⟩
        simpa using List.lookup_eq_none_iff.1 found _ mem
  · rw [quasilinearize, quasilinearize, quasilinear]
    split
    · exact eval_congr rfl nonzero
    · cases k.checkedIntervalOf l with
      | error _ => rfl
      | ok start =>
        have run := @eval_spread_filter _ _ bounds l left [] _ start rfl
        rw [← h.eq_filter] at run
        change (foldlM _ _ _ >>= _) >>= _ = (foldlM _ _ _ >>= _) >>= _
        rw [bind_assoc, bind_assoc]
        exact run

end Matches

/-- The same edits of a dense and of a sparse zero form give forms that are interchangeable, and the
terms of the sparse one stay in order. -/
theorem dense_and_sparse_interchangeable (n : Nat) (edits : List Edit)
    (fit : Edit.AllFit n edits) :
    ∃ f g, edits.foldlM Edit.apply (zeros n) = .ok f ∧ edits.foldlM Edit.apply zero = .ok g ∧
      f.isDense = true ∧ g.isDense = false ∧ Interchangeable f g ∧
      g.entries.Pairwise fun e e' => e.1 < e'.1 := by
  have start : Matches n (zeros n) zero := .of _ length_replicate (represents_zeros n .double)
  obtain ⟨m, f, g, runF, runG, h⟩ := start.run fit
  have same := h.interchangeable
  obtain ⟨_, -, represents⟩ := h
  exact ⟨_, _, runF, runG, rfl, rfl, same, represents.sorted⟩

theorem interchangeable_after_rotation : Interchangeable
    ⟨.zero .double, .dense [.rational (-3), .zero .double, .zero .double]⟩
    ⟨.zero .double, .sparse [(0, .rational (-3))]⟩ := by
  obtain ⟨f, g, dense, sparse, -, -, same, -⟩ := dense_and_sparse_interchangeable 2
    [.setCoefficient 1 (.rational 3), .addDimensions ⟨[0], 0, 1⟩, .permute ⟨[1, 2, 0]⟩, .neg]
    ⟨Nat.lt_add_one 1, ⟨by decide, by decide⟩, ⟨rfl, by decide, by decide⟩, trivial, trivial⟩
  cases dense
  cases sparse
  exact same

end LinearForm

end Enclosure
