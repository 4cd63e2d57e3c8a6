import Enclosure.Proofs.Polyhedron.Facets
import Enclosure.Proofs.Polyhedron.Lattice
import Enclosure.Proofs.Widening

/-!
# Widening of polyhedra stops

Without a limit, dropping redundant rows gives a system in which no row follows from the others.
-/

namespace Enclosure.Polyhedron

open Rows (Solves Irredundant StandsFor Describes)

variable {request : Request} {p a b : Polyhedron} {n : Nat} {x : List Rat} {c r : Row}

def IsLoose (p : Polyhedron) : Prop := ∀ r ∈ p.rows, r.strict = false

theorem isLoose_describes (loose : p.IsLoose) : Describes p.space.size p.rows {x | p.Contains x} :=
  ⟨p.wide, loose, fun _ => .rfl⟩

theorem IsMinimized.isLoose {limited : Prop} {q : Polyhedron} (h : IsMinimized limited p q)
    (loose : p.IsLoose) (inside : p.Contains x) : q.IsLoose := by
  rcases h.rows with rfl | subset
  · exact absurd ((h.contains x).2 inside) not_contains_bottom
  · intro r mem
    have possible : ¬ p.rows.any (·.isContradiction) = true := fun contra =>
      Rows.not_solves_of_any contra inside.2
    obtain ⟨s, inRows, k, -, rfl⟩ :=
      Rows.exists_of_mem_tidy (subset mem) (eq_false_of_ne_true possible)
    exact loose s inRows

/-! ### Rows that stand for others -/

theorem Replaces.standsFor {first : List Row} (h : Replaces n first c)
    (loose : ∀ r ∈ first, r.strict = false) (loose' : c.strict = false) : StandsFor n first c := by
  obtain ⟨⟨r, i⟩, mem, implies⟩ := h
  obtain ⟨inside, value⟩ : ∃ inside : i < first.length, first[i] = r :=
    List.getElem?_eq_some_iff.1 (List.mem_zipIdx_iff_getElem?.1 mem)
  have inFirst : r ∈ first := value ▸ List.getElem_mem inside
  refine ⟨first.take i, r, first.drop (i + 1), ?_, fun x length solves le => ?_⟩
  · rw [← value, List.getElem_cons_drop, List.take_append_drop]
  · rw [← Row.holdsAt_iff_excess (loose r inFirst)]
    refine implies x length ?_
    rw [List.set_eq_take_append_cons_drop, if_pos inside]
    rw [Rows.solves_append] at solves
    rw [Rows.solves_append, Rows.solves_cons, Row.holdsAt_iff_excess loose']
    exact ⟨solves.1, le, solves.2⟩

theorem IsKept.standsFor {first second : List Row} (h : IsKept n first second r)
    (loose : ∀ r ∈ first, r.strict = false) (loose' : ∀ r ∈ second, r.strict = false) :
    r.strict = false ∧ StandsFor n first r := by
  rcases h.source with inFirst | ⟨inSecond, place⟩
  · exact ⟨loose r inFirst, Rows.standsFor_of_mem inFirst⟩
  · exact ⟨loose' r inSecond, place.standsFor loose (loose' r inSecond)⟩

theorem ensures_widening_standsFor (free : ¬ request.Limited) (same : a.space = b.space)
    (loose : a.IsLoose) (loose' : b.IsLoose) :
    Op.Ensures request request.Limited (a.widening b) fun w =>
      w.IsLoose ∧ ((∃ x, a.Contains x) → w = a ∨
        ∃ rows, Describes a.space.size rows {x | a.Contains x} ∧ Irredundant a.space.size rows ∧
          ∀ c ∈ w.rows, StandsFor a.space.size rows c) := by
  refine (ensures_widensTo same).mono ?_
  rintro w ⟨-, widens⟩
  cases widens with
  | left empty result => exact ⟨result ▸ loose', fun full => absurd full (not_exists.2 empty)⟩
  | right _ result => exact ⟨result ▸ loose, fun _ => .inl result⟩
  | kept full first second minimal minimal' all rows kept =>
    obtain ⟨⟨x, inA⟩, y, inB⟩ := full free
    have looseFirst := minimal.isLoose loose inA
    have looseSecond := minimal'.isLoose loose' inB
    -- there is a vector, so no row is a contradiction
    have possible : all.any (·.isContradiction) = false := by
      rw [List.any_eq_false]
      intro r mem contra
      refine Row.not_holdsAt_of_isContradiction contra x ((kept r mem).onFirst x inA.1 ?_)
      exact ((minimal.contains x).2 inA).2
    have stands (r : Row) (mem : r ∈ w.rows) :
        r.strict = false ∧ StandsFor a.space.size first.rows r := by
      rw [rows] at mem
      obtain ⟨s, inAll, k, pos, rfl⟩ := Rows.exists_of_mem_tidy mem possible
      obtain ⟨looseRow, stands⟩ := (kept s inAll).standsFor looseFirst looseSecond
      exact ⟨looseRow, stands.divide pos⟩
    have system : Describes a.space.size first.rows {x | a.Contains x} := by
      refine ⟨minimal.space ▸ first.wide, looseFirst, fun x => ?_⟩
      rw [Set.mem_ofPred_eq, ← minimal.contains x, Contains, minimal.space]
    exact ⟨fun r mem => (stands r mem).1, fun _ => .inr ⟨first.rows, system,
      minimal.needed free x inA, fun r mem => (stands r mem).2⟩⟩

/-! ### Iteration -/

private structure Step (a b w : Polyhedron) : Prop where
  space : w.space = a.space
  includes : ∀ x, a.Contains x ∨ b.Contains x → w.Contains x
  loose : w.IsLoose
  rows : (∃ x, a.Contains x) → w = a ∨
    ∃ rows, Describes a.space.size rows {x | a.Contains x} ∧ Irredundant a.space.size rows ∧
      ∀ c ∈ w.rows, StandsFor a.space.size rows c

private theorem returns_step (free : ¬ request.Limited) (same : a.space = b.space)
    (loose : a.IsLoose) (loose' : b.IsLoose) :
    Op.Returns request ((domain false).widening a b) (Step a b) :=
  ((ensures_widening same).and (ensures_widening_standsFor free same loose loose')).returns free
    |>.mono fun _ h => ⟨h.1.1, h.1.2, h.2.1, h.2.2⟩

/-- Without a limit on sizes, widening of polyhedra includes both operands, and iterated widening
of polyhedra without strict rows has the same vectors from some step on, whatever the other
operands are. -/
theorem widening_stabilizes (request : Request) (unlimited : request.options.maxObjectSize = 0) :
    (∀ a b, a.space = b.space → Op.Returns request ((domain false).widening a b) fun w =>
      w.space = a.space ∧ (∀ x, a.Contains x ∨ b.Contains x → w.Contains x) ∧
        (a.IsLoose → b.IsLoose → w.IsLoose)) ∧
    ∀ a b : Nat → Polyhedron, (a 0).IsLoose →
      (∀ k, (b k).IsLoose ∧ (b k).space = (a 0).space) →
      (domain false).Widens request a b →
      ∃ m, ∀ k ≥ m, ∀ x, (a k).Contains x ↔ (a m).Contains x := by
  have free : ¬ request.Limited := by simp [Request.Limited, unlimited]
  constructor
  · intro a b same
    by_cases both : a.IsLoose ∧ b.IsLoose
    · exact (returns_step free same both.1 both.2).mono fun w h =>
        ⟨h.space, h.includes, fun _ _ => h.loose⟩
    · exact ((ensures_widening same).returns free).mono fun w h =>
        ⟨h.1, h.2, fun loose loose' => absurd ⟨loose, loose'⟩ both⟩
  · intro a b loose operands widens
    have next (k : Nat) (loose : (a k).IsLoose) (space : (a k).space = (a 0).space) :
        Step (a k) (b k) (a (k + 1)) := by
      obtain ⟨report, after, run⟩ := widens k
      obtain ⟨loose', space'⟩ := operands k
      exact (returns_step free (space.trans space'.symm) loose loose').of_run run
    have invariant (k : Nat) : (a k).IsLoose ∧ (a k).space = (a 0).space := by
      induction k with
      | zero => exact ⟨loose, rfl⟩
      | succ k ih =>
        have step := next k ih.1 ih.2
        exact ⟨step.loose, step.space.trans ih.2⟩
    have size (k : Nat) : (a k).space.size = (a 0).space.size := by rw [(invariant k).2]
    have step (k : Nat) := next k (invariant k).1 (invariant k).2
    have grows (k : Nat) (x : List Rat) (inside : (a k).Contains x) : (a (k + 1)).Contains x :=
      (step k).includes x (.inl inside)
    by_cases full : ∃ first x, (a first).Contains x
    · -- from the first value with a vector on, the rows of each value stand for those before
      obtain ⟨first, x, inside⟩ := full
      have later (k : Nat) : (a (first + k)).Contains x := by
        induction k with
        | zero => exact inside
        | succ k ih => exact grows _ x ih
      have described (k : Nat) :
          Describes (a 0).space.size (a (first + k)).rows {x | (a (first + k)).Contains x} :=
        size (first + k) ▸ isLoose_describes (invariant _).1
      obtain ⟨last, constant⟩ := Rows.exists_constant_of_standsFor
        (fun k x => grows (first + k) x) (fun k => ⟨_, described k⟩) fun k => by
          rcases (step (first + k)).rows ⟨x, later k⟩ with same | ⟨rows, system, minimal, stand⟩
          · exact .inl (by rw [← Nat.add_assoc, same])
          · rw [size] at system minimal stand
            exact .inr ⟨rows, _, system, minimal, described (k + 1), stand⟩
      refine ⟨first + last, fun k le x => ?_⟩
      obtain ⟨j, rfl⟩ := Nat.exists_eq_add_of_le (le_trans (Nat.le_add_right first last) le)
      exact Set.ext_iff.1 (constant j (by omega)) x
    · push Not at full
      exact ⟨0, fun k _ x => iff_of_false (full k x) (full 0 x)⟩

/-- Widening the segment of length one again and again with the cones `0 ≤ y ≤ k * x`, whose
upper side turns in every step, comes to an end. -/
theorem turning_cones_stabilize :
    let request : Request := ⟨.widening, .standard, []⟩
    let segment : Polyhedron := ⟨⟨0, 2⟩,
      [⟨[0, 1], 0, false⟩, ⟨[0, -1], 0, false⟩, ⟨[1, 0], 1, false⟩, ⟨[-1, 0], 0, false⟩],
      by decide⟩
    let cone (k : Nat) : Polyhedron := ⟨⟨0, 2⟩,
      [⟨[-k, 1], 0, false⟩, ⟨[0, -1], 0, false⟩], by simp [Space.size]⟩
    ∃ a : Nat → Polyhedron, a 0 = segment ∧ (domain false).Widens request a cone ∧
      ∃ m, ∀ k ≥ m, ∀ x, (a k).Contains x ↔ (a m).Contains x := by
  intro request segment cone
  obtain ⟨includes, stabilizes⟩ := widening_stabilizes request rfl
  have loose (k : Nat) : (cone k).IsLoose := by simp [IsLoose, cone]
  have start : segment.IsLoose := by simp [IsLoose, segment]
  -- the sequence is made step by step, since every widening returns
  have next (w : {w : Polyhedron // w.IsLoose ∧ w.space = ⟨0, 2⟩}) (k : Nat) :
      ∃ w' : {w : Polyhedron // w.IsLoose ∧ w.space = ⟨0, 2⟩}, ∃ report after,
        ((domain false).widening w.1 (cone k)).run request report = .ok (w'.1, after) := by
    obtain ⟨w', after, run, space, -, keeps⟩ := includes w.1 (cone k) w.2.2 .start
    exact ⟨⟨w', keeps w.2.1 (loose k), space.trans w.2.2⟩, .start, after, run⟩
  choose step runs using next
  let a (k : Nat) : {w : Polyhedron // w.IsLoose ∧ w.space = ⟨0, 2⟩} :=
    k.rec ⟨segment, start, rfl⟩ fun k w => step w k
  have widens : (domain false).Widens request (fun k => (a k).1) cone := fun k => runs (a k) k
  exact ⟨fun k => (a k).1, rfl, widens, stabilizes _ cone start (fun k => ⟨loose k, rfl⟩) widens⟩

end Enclosure.Polyhedron
