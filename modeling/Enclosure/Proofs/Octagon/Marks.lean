import Enclosure.Proofs.Octagon.Results
import Enclosure.Proofs.Soundness

/-!
# What the matrices of octagons keep

The matrix of an octagon can be marked as closed.
-/

namespace Enclosure

open BoundMatrix SpaceChange Permutation

namespace Octagon

variable {o a b : Octagon} {s : Space} {R R' : Nat → Prop}

structure MatricesKeep (inv : BoundMatrix → Nat → Prop) (allowed : NodeBound → Prop) : Prop where
  proper : ∀ c, NodeBound.IsProper c → allowed c
  unbounded : ∀ n, inv (.unbounded (2 * n)) n
  tighten : ∀ {m n c}, inv m n → allowed c → inv (m.tighten c.a c.b c.bound) n
  close : ∀ {m m' s}, inv m s.size → m.close? s = some m' → inv m' s.size
  min : ∀ {m m' n}, inv m n → inv m' n →
    inv (m.mapEntries fun i j e => e.min (m'.entry i j)) n
  max : ∀ {m m' n}, inv m n → inv m' n →
    inv (m.mapEntries fun i j e => e.max (m'.entry i j)) n
  kept : ∀ {m m' n}, inv m n → inv m' n → inv (keptEntries m m') n
  read : ∀ {m n k f}, inv m n → (∀ d < k, f d < n) → inv (readMatrix m f (2 * k)) k
  inserted : ∀ {m n k places}, inv m n → places.length = n →
    inv (insertedMatrix m places (2 * k)) k
  zeroed : ∀ {m n} dims, inv m n → inv (zeroedMatrix m dims) n
  forgotten : ∀ {m n} dims project, inv m n → inv (forgottenMatrix m dims project) n

structure MarksKeep (inv : BoundMatrix → Nat → Prop) (mark : (Nat → Prop) → BoundMatrix → Prop)
    (good : Space → Nat → Prop) : Prop where
  unbounded : ∀ n R, mark R (.unbounded (2 * n))
  close : ∀ {m m' s R}, inv m s.size → m.close? s = some m' → (∀ d, R d → good s d) → mark R m'
  max : ∀ {m m' n R}, inv m n → inv m' n → mark R m → mark R m' →
    mark R (m.mapEntries fun i j e => e.max (m'.entry i j))
  read : ∀ {m n k f R R'}, inv m n → mark R m → (∀ d < k, f d < n) → (∀ d < k, R' d → R (f d)) →
    mark R' (readMatrix m f (2 * k))
  inserted : ∀ {m n k places R R'}, inv m n → mark R m → places.length = n →
    (∀ d e, R' d → places.idxOf? d = some e → R e) → mark R' (insertedMatrix m places (2 * k))
  forgotten : ∀ {m n R dims project}, inv m n → mark R m → project = false ∨ dims = [] →
    mark R (forgottenMatrix m dims project)
  append : ∀ s k d, d < s.size → (good (s.grow (.append s.size k)) d ↔ good s d)

structure Marked (inv : BoundMatrix → Nat → Prop) (mark : BoundMatrix → Prop) (s : Space)
    (o : Octagon) : Prop where
  space : o.space = s
  square : o.IsSquare
  matrix : o.empty = false → inv o.matrix s.size
  closed : o.empty = false → o.closed = true → mark o.matrix

section Marked

variable {inv : BoundMatrix → Nat → Prop} {allowed : NodeBound → Prop}
  {mark : (Nat → Prop) → BoundMatrix → Prop} {good : Space → Nat → Prop}

theorem marked_bottom (inv : BoundMatrix → Nat → Prop) (mark : BoundMatrix → Prop) (s : Space) :
    Marked inv mark s (bottom s) :=
  ⟨rfl, isSquare_bottom s, Bool.noConfusion, Bool.noConfusion⟩

theorem marked_of_open {mark : BoundMatrix → Prop} (square : o.IsSquare)
    (matrix : inv o.matrix o.space.size) (unmarked : o.closed = false) :
    Marked inv mark o.space o :=
  ⟨rfl, square, fun _ => matrix, fun _ closed => by simp [unmarked] at closed⟩

variable (steps : MatricesKeep inv allowed) (marks : MarksKeep inv mark good)
include steps

theorem Marked.tightenAll {mark : BoundMatrix → Prop} {cs : List NodeBound}
    (h : Marked inv mark s o) (bounds : ∀ c ∈ cs, allowed c) :
    Marked inv mark s (o.tightenAll cs) := by
  induction cs generalizing o with
  | nil => exact h
  | cons c cs ih =>
    obtain ⟨first, rest⟩ := List.forall_mem_cons.1 bounds
    refine ih ⟨h.space, h.square.mapMatrix _ _ _ _,
      fun full => steps.tighten (h.matrix full) first, fun full closed => ?_⟩ rest
    -- the mark stays only if the matrix does
    obtain ⟨closed, same⟩ := Bool.and_eq_true_iff.1 closed
    change mark (o.matrix.tighten c.a c.b c.bound)
    rw [of_decide_eq_true same]
    exact h.closed full closed

theorem Marked.meeting {mark : BoundMatrix → Prop} (h : Marked inv mark s a)
    (h' : Marked inv mark s b) : Marked inv mark s (meeting a b) := by
  obtain rfl := h.space
  unfold meeting
  split
  · exact marked_bottom inv mark _
  · rename_i full
    rw [Bool.or_eq_true, not_or, Bool.not_eq_true, Bool.not_eq_true] at full
    exact marked_of_open (h.square.mapMatrix _ _ _ _)
      (steps.min (h.matrix full.1) (h'.matrix full.2)) rfl

include marks

theorem marked_top (s : Space) (R : Nat → Prop) : Marked inv (mark R) s (top s) :=
  ⟨rfl, isSquare_top s, fun _ => steps.unbounded _, fun _ _ => marks.unbounded _ R⟩

theorem Marked.close (h : Marked inv (mark R) s o) (ok : ∀ d, R d → good s d) :
    Marked inv (mark R) s o.close := by
  obtain ⟨rfl, square, matrix, closed⟩ := h
  rcases o.close_cases with ⟨same, -⟩ | ⟨same, -⟩ | ⟨m, same, nonempty, closes⟩
  · -- an octagon that is marked stays as it is, which is why the mark has to be right
    rw [same]
    exact ⟨rfl, square, matrix, closed⟩
  · have square := square.close
    rw [same] at square ⊢
    exact ⟨rfl, square, Bool.noConfusion, Bool.noConfusion⟩
  · have square := square.close
    rw [same] at square ⊢
    exact ⟨rfl, square, fun _ => steps.close (matrix nonempty) closes,
      fun _ _ => marks.close (matrix nonempty) closes ok⟩

theorem Marked.base (h : Marked inv (mark R) s o) (ok : ∀ d, R d → good s d) :
    Marked inv (mark R) s o.base := by
  unfold Octagon.base
  split
  · exact h
  · exact h.close steps marks ok

theorem Marked.joining (h : Marked inv (mark R) s a) (h' : Marked inv (mark R) s b)
    (ok : ∀ d, R d → good s d) : Marked inv (mark R) s (joining a b) := by
  have left := h.close steps marks ok
  have right := h'.close steps marks ok
  unfold Octagon.joining
  split
  · exact right
  · rename_i full
    have full := eq_false_of_ne_true full
    split
    · exact left
    · rename_i full'
      have full' := eq_false_of_ne_true full'
      refine ⟨left.space, left.square.mapMatrix _ _ _ _,
        fun _ => steps.max (left.matrix full) (right.matrix full'), fun _ marked => ?_⟩
      -- the join of two matrices is marked if both of them are
      obtain ⟨first, second⟩ := Bool.and_eq_true_iff.1 marked
      exact marks.max (left.matrix full) (right.matrix full') (left.closed full first)
        (right.closed full' second)

theorem Marked.wide (h : Marked inv (mark R) s a) (h' : Marked inv (mark R) s b)
    (ok : ∀ d, R d → good s d) : Marked inv (mark R) s (wide a b) := by
  have left := h.base steps marks ok
  have right := h'.close steps marks ok
  unfold Octagon.wide
  split
  · exact h'
  · rename_i full
    split
    · exact left
    · rename_i full'
      refine ⟨left.space, left.square.mapMatrix _ _ _ _, fun _ => ?_,
        fun _ closed => Bool.noConfusion closed⟩
      exact steps.kept (left.matrix (eq_false_of_ne_true full))
        (right.matrix (eq_false_of_ne_true full'))

/-! ### Operations -/

section

variable (h : Marked inv (mark R) s o)
include h

theorem yields_marked_meetLinear (ok : ∀ d, R d → good s d) (cs : List LinearConstraint) :
    Op.Yields (o.meetLinear cs) (Marked inv (mark R) s) := by
  refine (yields_meetLinear o cs).mono fun w result => ?_
  have closed := h.close steps marks ok
  rcases result with ⟨-, rfl⟩ | rfl | ⟨-, _, proper, rfl⟩
  · exact closed
  · rw [h.space]
    exact marked_bottom inv _ s
  · have lowered := closed.tightenAll steps fun c mem => steps.proper c (proper c mem)
    exact lowered.close steps marks ok

theorem yields_marked_addDimensions {c : SpaceChange}
    (dims : ∀ d e, R' d → (c.shifts s.size).idxOf? d = some e → R e) (project : Bool) :
    Op.Yields (o.addDimensions c project) (Marked inv (mark R') (s.grow c)) := by
  obtain ⟨rfl, _, matrix, closed⟩ := h
  refine (yields_addDimensions o c project).mono fun w result => ?_
  have length : (c.shifts o.space.size).length = o.space.size := by simp [shifts]
  rcases result with rfl | rfl | ⟨full, ⟨added, rfl⟩ | rfl⟩
  · exact marked_top steps marks _ R'
  · exact marked_bottom inv _ _
  · exact marked_of_open (o := ⟨o.space.grow c, _, false, false, false⟩)
      (.mapEntries (isSquare_ofFn _ _) _)
      (steps.zeroed added (steps.inserted (matrix full) length)) rfl
  · exact ⟨rfl, isSquare_ofFn _ _, fun _ => steps.inserted (matrix full) length,
      fun _ marked => marks.inserted (matrix full) (closed full marked) length dims⟩

theorem yields_marked_removeDimensions {c : SpaceChange} {Q : Space → Nat → Prop}
    (ok : ∀ d, R d → good s d)
    (dims : ∀ t, s.shrink c = .ok t → ∀ i < t.size, Q t i → R ((c.kept s.size).getD i 0)) :
    Op.Yields (o.removeDimensions c) fun w =>
      s.shrink c = .ok w.space ∧ Marked inv (mark (Q w.space)) w.space w := by
  have closed := h.close steps marks ok
  obtain ⟨rfl, -⟩ := h
  refine (yields_removeDimensions o c).mono fun w result => ?_
  obtain ⟨t, shrinks, ⟨-, rfl⟩ | ⟨full, length, rfl⟩⟩ := result
  · exact ⟨shrinks, marked_bottom inv _ t⟩
  · have inside := getD_kept_lt length
    have matrix := steps.read (closed.matrix full) inside
    refine ⟨shrinks, rfl, isSquare_ofFn _ _, fun _ => matrix, fun _ marked => ?_⟩
    have read := marks.read (closed.matrix full) (closed.closed full marked) inside (dims t shrinks)
    exact read

theorem yields_marked_permuteDimensions {p : Permutation} (valid : p.Valid p.size)
    (dims : ∀ d < s.size, R' d → R (p.preimage d)) :
    Op.Yields (o.permuteDimensions p) (Marked inv (mark R') s) := by
  obtain ⟨rfl, square, matrix, closed⟩ := h
  refine (yields_permuteDimensions o p).mono fun w result => ?_
  obtain ⟨size, rfl⟩ := result
  rw [size] at valid
  have nodes : o.matrix.nodes = 2 * o.space.size := square.nodes
  have inside : ∀ d < o.space.size, p.preimage d < o.space.size :=
    fun d below => valid.preimage_lt below
  rw [nodes]
  exact ⟨rfl, isSquare_ofFn _ _, fun full => steps.read (matrix full) inside,
    fun full marked => marks.read (matrix full) (closed full marked) inside dims⟩

theorem yields_marked_forget (ok : ∀ d, R d → good s d) (dims : List Nat) (project : Bool) :
    Op.Yields (o.forget dims project) (Marked inv (mark R) s) := by
  have closed := h.close steps marks ok
  refine (yields_forget o dims project).mono fun w result => ?_
  obtain ⟨-, rfl⟩ | ⟨full, -, rfl⟩ := result
  · exact closed
  · refine ⟨closed.space, closed.square.mapMatrix _ _ _ _,
      fun _ => steps.forgotten dims project (closed.matrix full), fun _ marked => ?_⟩
    obtain ⟨marked, free⟩ := Bool.and_eq_true_iff.1 marked
    exact marks.forgotten (closed.matrix full) (closed.closed full marked) (by simpa using free)

end

/-! ### Fresh dimensions -/

theorem yields_marked_append (h : Marked inv (mark (good s)) s o) (k : Nat)
    (old : ∀ d < s.size, R d → good s d) :
    Op.Yields (o.addDimensions (.append s.size k) false)
      (Marked inv (mark R) (s.grow (.append s.size k))) := by
  refine yields_marked_addDimensions steps marks h (fun d e known found => ?_) false
  rw [shifts_append] at found
  obtain ⟨inside, same, -⟩ := List.idxOf?_eq_some_iff.1 found
  rw [List.getElem_range] at same
  rw [List.length_range] at inside
  exact same ▸ old d (same ▸ inside) known

theorem yields_marked_dropLast {k : Nat}
    (h : Marked inv (mark fun d => d < s.size ∧ good s d) (s.grow (.append s.size k)) o) :
    Op.Yields (o.removeDimensions (.dropLast s.size k)) fun w =>
      Marked inv (mark (good w.space)) w.space w := by
  have shrinks : (s.grow (.append s.size k)).shrink (.dropLast s.size k) = .ok s := by
    rw [(removes_dropLast s k).shrink_eq, shrink_dropLast]
  have kept : (dropLast s.size k).kept (s.grow (.append s.size k)).size = .range s.size := by
    rw [size_grow_append, kept_dropLast]
  refine (yields_marked_removeDimensions steps marks h
    (fun d old => (marks.append s k d old.1).2 old.2) fun t ok i inside known => ?_).mono
      fun w both => both.2
  obtain rfl : s = t := Except.ok.inj (shrinks.symm.trans ok)
  rw [kept, List.getD_eq_getElem _ _ (by simpa using inside), List.getElem_range]
  exact ⟨inside, known⟩

/-! ### Constructions -/

def MovesKeep (good : Space → Nat → Prop) : Construction Octagon → Prop
  | .addDimensions v c _ =>
      ∀ d < v.space.size, good (v.space.grow c) (c.shift d) → good v.space d
  | .removeDimensions v c => ∀ s, v.space.shrink c = .ok s → ∀ i < s.size, good s i →
      good v.space ((c.kept v.space.size).getD i 0)
  | .permuteDimensions v p => p.Valid p.size ∧
      ∀ d < v.space.size, good v.space d → good v.space (p.preimage d)
  | .assignForms v dims _ => ∀ p, exchange v.space.size dims = .ok p →
      ∀ d < v.space.size, good v.space d →
        good (v.space.grow (.append v.space.size dims.length)) (p.preimage d)
  | .assignTerms v dims _ => ∀ p, exchange v.space.size dims = .ok p →
      ∀ d < v.space.size, good v.space d →
        good (v.space.grow (.append v.space.size dims.length)) (p.preimage d)
  | _ => True

omit steps marks in
theorem movesKeep_false {c : Construction Octagon} (valid : c.IsValid) :
    MovesKeep (fun _ _ => False) c := by
  cases c with
  | permuteDimensions v p => exact ⟨valid, fun _ _ none => none⟩
  | _ => simp [MovesKeep]

theorem keeps_marked {admitted : Construction Octagon → Prop}
    (boxes : ∀ s is c, admitted (.ofBox s is) → c.a ≠ c.b →
      ((∀ i ∈ is, i.IsProper) → c.bound ≠ .negInf) → allowed c)
    (moves : ∀ c, admitted c → MovesKeep good c) :
    domain.Keeps admitted fun o => Marked inv (mark (good o.space)) o.space o := by
  have own {s : Space} {w : Octagon} (h : Marked inv (mark (good s)) s w) :
      Marked inv (mark (good w.space)) w.space w := by
    rwa [h.space]
  have assign (v : Octagon) dims forms
      (known : ∀ p, exchange v.space.size dims = .ok p → ∀ d < v.space.size,
        good v.space d → good (v.space.grow (.append v.space.size dims.length)) (p.preimage d))
      (h : Marked inv (mark (good v.space)) v.space v) :
      Op.Yields (core.assignByFresh v dims forms)
        fun o => Marked inv (mark (good o.space)) o.space o := by
    let grown := v.space.grow (.append v.space.size dims.length)
    have forget (w : Octagon) (h : Marked inv (mark (good grown)) grown w) :
        Op.Yields (w.forget dims false) (Marked inv (mark (good grown)) grown) :=
      yields_marked_forget steps marks h (fun _ known => known) dims false
    exact DomainCore.yields_assignByFresh
      (yields_marked_append steps marks h dims.length fun d old => (marks.append _ _ d old).1)
      (fun w cs h => yields_marked_meetLinear steps marks h (fun _ known => known) cs) forget
      (fun w p ok h => yields_marked_permuteDimensions steps marks h
        (movesOut_of_exchange ok).valid.self fun d _ (old : d < v.space.size ∧ good v.space d) =>
          known p ok d old.1 old.2)
      (fun w h => yields_marked_dropLast steps marks h) forms
  exact {
    top := fun s => marked_top steps marks s _
    bottom := fun s => marked_bottom inv _ s
    ofBox := fun s is admits => by
      refine (yields_ofIntervals s is).mono fun w result => ?_
      obtain rfl | ⟨_, bounds, rfl⟩ := result
      · exact marked_bottom inv _ s
      · exact own ((marked_top steps marks s _).tightenAll steps fun c mem =>
          boxes s is c admits (bounds c mem).1 (bounds c mem).2)
    meet := fun a b h h' => (yields_of_same rfl gives_meet).mono fun w result => by
      obtain ⟨same, rfl⟩ := result
      rw [← same] at h'
      exact own (h.meeting steps h')
    meetLinear := fun v cs h =>
      (yields_marked_meetLinear steps marks h (fun _ known => known) cs).mono fun w h => own h
    join := fun a b h h' => (yields_join a b).mono fun w result => by
      obtain ⟨same, rfl⟩ := result
      rw [← same] at h'
      exact own (h.joining steps marks h' fun _ known => known)
    widening := fun a b h h' => (yields_of_same rfl gives_widening).mono fun w result => by
      obtain ⟨same, rfl⟩ := result
      rw [← same] at h'
      exact own (h.wide steps marks h' fun _ known => known)
    addDimensions := fun v c project admits h => by
      refine (yields_marked_addDimensions steps marks h (fun d e known found => ?_) project).mono
        fun w h => own h
      obtain ⟨inside, same, -⟩ := List.idxOf?_eq_some_iff.1 found
      have below : e < v.space.size := by simpa [shifts] using inside
      rw [← same] at known
      exact moves _ admits e below (by simpa [shifts] using known)
    removeDimensions := fun v c admits h =>
      (yields_marked_removeDimensions steps marks h (fun _ known => known)
        (moves _ admits)).mono fun w both => both.2
    permuteDimensions := fun v p admits h =>
      (yields_marked_permuteDimensions steps marks h (moves _ admits).1 (moves _ admits).2).mono
        fun w h => own h
    forget := fun v dims project h =>
      (yields_marked_forget steps marks h (fun _ known => known) dims project).mono fun w h => own h
    assignForms := fun v dims forms admits h => assign v dims forms (moves _ admits) h
    assignTerms := fun v dims ts admits h =>
      Op.yields_bind fun forms => assign v dims forms (moves _ admits) h
    substituteForms := fun v dims forms h =>
      -- the fresh dimensions have no bounds when they come to the places of old ones
      Domain.yields_substituteForms
        (yields_marked_append steps marks (R := fun d => d < v.space.size → good v.space d) h
          dims.length fun d old known => known old)
        (fun w p ok h => yields_marked_permuteDimensions steps marks h
            (movesOut_of_exchange ok).valid.self fun d _ (old : d < v.space.size ∧ _) => by
          rcases preimage_of_exchange ok old.1 with same | fresh
          · rw [same]
            exact fun _ => old.2
          · exact fun below => absurd below (not_lt.2 fresh))
        (fun w cs h => yields_marked_meetLinear steps marks h
          (fun d old => (marks.append _ _ d old.1).2 old.2) cs)
        (fun w h => yields_marked_dropLast steps marks h) forms }

end Marked

end Octagon

end Enclosure
