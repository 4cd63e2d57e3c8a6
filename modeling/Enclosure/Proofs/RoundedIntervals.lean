import Enclosure.Proofs.Powers

/-!
# Bounds of roots, powers, remainders and rounded members

Roots and powers are rounded to the kind of their operands.
-/

namespace Enclosure

namespace Number

variable {x y : Number} {k : Kind} {r : Rounding}

theorem fits_floor (kind : x.kind = k) : x.floor.Fits k := kind ▸ fits_ofExt x.kind _ _

theorem fits_ceil (kind : x.kind = k) : x.ceil.Fits k := kind ▸ fits_ofExt x.kind _ _

theorem represents_sqrtTo? {bits : Nat} {u v : ExtRat} (h : sqrtTo? bits r u = some v) :
    (Kind.binary bits).Represents v := by
  unfold sqrtTo? at h
  split at h
  · cases h
  · obtain rfl := Option.some.inj h
    trivial
  · split at h
    · cases h
    · rename_i nonneg
      obtain rfl := Option.some.inj h
      exact Binary.isFloat_sqrt bits r (not_lt.1 nonneg)

structure Closed (k : Kind) (P : Number → Prop) : Prop extends Rounded k P P where
  neg {x : Number} : P x → P x.neg
  sqrt? {x y : Number} {r : Rounding} : P x → x.sqrt? r = some y → P y

theorem closed_fits (directed : k ≠ .double) : Closed k (Fits k) where
  toRounded := rounded_fits k
  neg := .neg
  sqrt? h root := by
    unfold sqrt? at root
    split at root
    · rename_i double
      exact absurd (h.kind.symm.trans double) directed
    · rename_i rational
      obtain rfl : k = .rational := h.kind.symm.trans rational
      obtain ⟨z, -, rfl⟩ := Option.map_eq_some_iff.1 root
      exact ⟨rfl, trivial⟩
    · rename_i bits binary
      obtain rfl : k = .binary bits := h.kind.symm.trans binary
      obtain ⟨z, found, rfl⟩ := Option.map_eq_some_iff.1 root
      exact ⟨rfl, represents_sqrtTo? found⟩

theorem closed_kind (k : Kind) : Closed k (·.kind = k) where
  toRounded := rounded_kind k
  neg := id
  sqrt? h root := by
    unfold sqrt? at root
    rw [h] at root
    cases k <;>
    · obtain ⟨z, -, rfl⟩ := Option.map_eq_some_iff.1 root
      rfl

section

variable {P : Number → Prop} (closed : Closed k P)
include closed

theorem Closed.ofExt (r : Rounding) (v : ExtRat) : P (ofExt k r v) :=
  closed.of_fits (fits_ofExt k r v)

theorem Closed.zero : P (zero k) := closed.of_fits (fits_zero k)

theorem Closed.infinity (sign : Int) : P (infinity k sign) := closed.of_fits (fits_infinity k sign)

variable (h : P x)
include h

theorem Closed.abs : P x.abs := by
  unfold Number.abs
  split
  · exact closed.neg h
  · exact h

theorem Closed.floor : P x.floor := closed.of_fits (fits_floor (closed.kind h))

theorem Closed.ceil : P x.ceil := closed.of_fits (fits_ceil (closed.kind h))

end

end Number

namespace Interval

open Number (of_min of_max)

variable {a b i : Interval} {k : Kind} {x : Number} {P : Number → Prop} (closed : Number.Closed k P)
include closed

/-! ### Operators -/

theorem Both.sqrt (h : a.Both P) : a.sqrt.Both P := by
  have nonneg : Both P ⟨.zero k, .infinity k 1⟩ := ⟨closed.zero, closed.infinity 1⟩
  have domain := h.meet closed.toRounded nonneg
  unfold Interval.sqrt
  dsimp only
  rw [kind, closed.kind h.lo]
  split
  · exact (fits_bottom k).both closed.toRounded
  split
  · rename_i l u down up
    exact ⟨closed.sqrt? domain.lo down, closed.sqrt? domain.hi up⟩
  · exact (fits_top k).both closed.toRounded

theorem magnitudePower_mem (h : P x) (n : Nat) (upward : Bool) : P (magnitudePower x n upward) := by
  unfold magnitudePower
  dsimp only
  rw [closed.kind h]
  split
  · exact powerBySquaring_keeps (R := fun _ x => P x) (p := 1) (q := 1)
      (fun hx hy => closed.mul _ hx hy) (closed.ofExt _ _) (closed.abs h)
  · split
    · exact closed.abs h
    · exact closed.abs h
    · exact closed.infinity 1
    · exact closed.zero

theorem signedPower_mem (h : P x) (n : Nat) (upward : Bool) : P (signedPower x n upward) := by
  unfold signedPower
  split
  · exact closed.neg (magnitudePower_mem closed h n _)
  · exact magnitudePower_mem closed h n _

theorem Both.pow (h : a.Both P) (e : Interval) : (a.pow e).Both P := by
  unfold Interval.pow
  rw [kind, closed.kind h.lo]
  split
  · exact (fits_bottom k).both closed.toRounded
  split
  · exact (fits_top k).both closed.toRounded
  rename_i n _
  have lower := signedPower_mem closed h.lo n
  have upper := signedPower_mem closed h.hi n
  split
  · exact ⟨closed.ofExt _ _, closed.ofExt _ _⟩
  split
  · exact ⟨lower _, upper _⟩
  split
  · exact ⟨upper _, lower _⟩
  · exact ⟨closed.zero, of_max (lower _) (upper _)⟩

theorem Both.modulo (ha : a.Both P) (hb : b.Both P) : (a.modulo b).Both P := by
  have most := of_max (closed.abs hb.lo) (closed.abs hb.hi)
  unfold Interval.modulo
  dsimp only
  rw [kind, closed.kind ha.lo]
  split
  · exact (fits_bottom k).both closed.toRounded
  split
  · exact (fits_top k).both closed.toRounded
  -- the dividends are not negative, not positive, or of both signs
  split
  · split
    · exact ha
    · exact ⟨closed.zero, of_min ha.hi most⟩
  split
  · split
    · exact ha
    · exact ⟨of_max ha.lo (closed.neg most), closed.zero⟩
  · exact ⟨of_max ha.lo (closed.neg most), of_min ha.hi most⟩

theorem Both.unary (op : UnaryOperator) (h : a.Both P) : (op.apply a).Both P := by
  cases op with
  | neg => exact ⟨closed.neg h.hi, closed.neg h.lo⟩
  | cast => exact h
  | sqrt => exact h.sqrt closed

theorem Both.binary (op : BinaryOperator) (ha : a.Both P) (hb : b.Both P) :
    (op.apply a b).Both P := by
  cases op with
  | add => exact ha.add closed.toRounded hb
  | sub => exact ha.add closed.toRounded ⟨closed.neg hb.hi, closed.neg hb.lo⟩
  | mul => exact ha.mul closed.toRounded hb
  | div => exact ha.div closed.toRounded hb
  | mod => exact ha.modulo closed hb
  | pow => exact ha.pow closed b

/-! ### Result formats -/

theorem Both.mapBounds {lower upper : Number → Number} (h : i.Both P)
    (lo : ∀ x, P x → P (lower x)) (hi : ∀ x, P x → P (upper x)) :
    (i.mapBounds lower upper).Both P := by
  unfold Interval.mapBounds canonical
  split
  · rw [kind, closed.kind h.lo]
    exact (fits_bottom k).both closed.toRounded
  · exact ⟨lo _ h.lo, hi _ h.hi⟩

theorem Both.roundInteger (h : i.Both P) (policy : RoundingPolicy) :
    (i.roundInteger policy).Both P := by
  have toward (x : Number) (hx : P x) : P (truncate x) := by
    unfold truncate
    split
    · exact closed.floor hx
    · exact closed.ceil hx
  have near (x : Number) : P (nearestBelow k x) ∧ P (nearestAbove k x) := by
    unfold nearestBelow nearestAbove
    cases x.value <;> exact ⟨closed.ofExt _ _, closed.ofExt _ _⟩
  unfold Interval.roundInteger
  cases policy with
  | up => exact h.mapBounds closed (fun _ => closed.ceil) fun _ => closed.ceil
  | down => exact h.mapBounds closed (fun _ => closed.floor) fun _ => closed.floor
  | zero => exact h.mapBounds closed toward toward
  | nearest =>
    rw [kind, closed.kind h.lo]
    exact h.mapBounds closed (fun x _ => (near x).1) fun x _ => (near x).2
  | _ => exact h.mapBounds closed (fun _ => closed.floor) fun _ => closed.ceil

theorem Both.round (h : i.Both P) (format : ResultFormat) (policy : RoundingPolicy) :
    (i.round format policy).Both P := by
  unfold Interval.round
  split
  · exact h
  · exact h.roundInteger closed policy
  split
  · unfold roundFloat
    rw [kind, closed.kind h.lo]
    exact h.mapBounds closed (fun _ _ => closed.ofExt _ _) fun _ _ => closed.ofExt _ _
  · exact h

end Interval

end Enclosure
