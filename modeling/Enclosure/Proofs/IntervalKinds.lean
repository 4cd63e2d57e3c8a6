import Enclosure.Proofs.BinaryFloats
import Enclosure.Proofs.DoubleResults
import Enclosure.Proofs.Intervals

/-!
# Kinds of bounds

The operations on intervals of one kind give intervals of that kind.
-/

namespace Enclosure

open Interval Option Double Binary Number

/-! ### The values of a kind -/

namespace Kind

variable {k : Kind} {v : ExtRat}

theorem common_self (k : Kind) : k.common k = k := by
  cases k <;> simp [common]

def Represents : Kind → ExtRat → Prop
  | double, v => IsDouble v
  | binary bits, .fin q => IsFloat bits q
  | _, _ => True

theorem represents_round (k : Kind) (r : Rounding) (v : ExtRat) : k.Represents (k.round r v) := by
  cases k with
  | double => exact isDouble_round r v
  | rational => trivial
  | binary bits =>
    cases v with
    | fin q => exact isFloat_round bits r q
    | _ => trivial

theorem represents_zero (k : Kind) : k.Represents .zero := by
  cases k with
  | double => exact isDouble_zero
  | rational => trivial
  | binary bits => exact isFloat_zero bits

theorem represents_infinity (k : Kind) (sign : Int) : k.Represents (.infinity sign) := by
  unfold ExtRat.infinity
  split
  · cases k <;> trivial
  split
  · cases k <;> trivial
  · exact k.represents_zero

theorem Represents.neg (h : k.Represents v) : k.Represents v.neg := by
  cases k with
  | double => exact .neg h
  | rational => trivial
  | binary bits =>
    cases v with
    | fin q => exact .neg h
    | _ => trivial

theorem Represents.floor (directed : k ≠ .double) (h : k.Represents v) : k.Represents v.floor := by
  cases k with
  | double => exact absurd rfl directed
  | rational => trivial
  | binary bits =>
    cases v with
    | fin q => exact .floor h
    | _ => trivial

theorem Represents.ceil (directed : k ≠ .double) (h : k.Represents v) : k.Represents v.ceil := by
  cases k with
  | double => exact absurd rfl directed
  | rational => trivial
  | binary bits =>
    cases v with
    | fin q => exact .ceil h
    | _ => trivial

/-- Numbers of the kind are rounded outward, and one is among them. -/
structure IsOutward (k : Kind) : Prop where
  directed : k ≠ .double
  unit : (Number.one k).value = .fin 1

theorem isOutward_rational : rational.IsOutward := ⟨by simp, rfl⟩

theorem isOutward_binary {bits : Nat} (pos : 0 < bits) : (binary bits).IsOutward :=
  ⟨by simp, congrArg ExtRat.fin (round_one pos .nearest)⟩

theorem IsOutward.bits_pos {bits : Nat} (outward : (binary bits).IsOutward) : 0 < bits := by
  cases bits with
  | zero => exact absurd outward.unit (by decide +kernel)
  | succ n => exact n.succ_pos

theorem isOutward_of_ne (directed : k ≠ .double) (bits : k ≠ .binary 0) : k.IsOutward := by
  cases k with
  | double => exact absurd rfl directed
  | rational => exact isOutward_rational
  | binary n => exact isOutward_binary (Nat.pos_of_ne_zero fun zero => bits (by rw [zero]))

theorem IsOutward.represents_one (outward : k.IsOutward) : k.Represents (.fin 1) :=
  outward.unit ▸ k.represents_round _ _

theorem IsOutward.round_eq (outward : k.IsOutward) (h : k.Represents v) (r : Rounding) :
    k.round r v = v := by
  cases k with
  | double => exact absurd rfl outward.directed
  | rational => cases v <;> rfl
  | binary bits =>
    cases v with
    | fin q => exact congrArg ExtRat.fin (IsFloat.round_eq h outward.bits_pos)
    | _ => rfl

theorem IsOutward.require_eq (outward : k.IsOutward) : k.require = .ok () := by
  cases k with
  | binary bits =>
    obtain ⟨n, rfl⟩ := Nat.exists_eq_succ_of_ne_zero outward.bits_pos.ne'
    rfl
  | _ => rfl

end Kind

/-! ### Numbers -/

namespace Number

variable {x y z : Number} {k l : Kind} {r : Rounding}

theorem convert_down_le (directed : k ≠ .double) (x : Number) :
    (x.convert k .down).value ≤ x.value := by
  unfold convert
  split
  · exact le_rfl
  · exact Kind.round_down_le directed

theorem le_convert_up (directed : k ≠ .double) (x : Number) :
    x.value ≤ (x.convert k .up).value := by
  unfold convert
  split
  · exact le_rfl
  · exact Kind.le_round_up directed

structure IsOf (k : Kind) (x : Number) : Prop where
  kind : x.kind = k
  valid : x.Valid

structure Fits (k : Kind) (x : Number) : Prop where
  kind : x.kind = k
  value : k.Represents x.value

theorem Fits.isOf (h : x.Fits k) : x.IsOf k where
  kind := h.kind
  valid double := by
    obtain rfl : k = .double := h.kind.symm.trans double
    exact h.value

theorem fits_ofExt (k : Kind) (r : Rounding) (v : ExtRat) : (ofExt k r v).Fits k :=
  ⟨rfl, k.represents_round r v⟩

theorem isOf_ofExt (k : Kind) (r : Rounding) (v : ExtRat) : (ofExt k r v).IsOf k :=
  (fits_ofExt k r v).isOf

theorem fits_infinity (k : Kind) (sign : Int) : (infinity k sign).Fits k :=
  ⟨rfl, k.represents_infinity sign⟩

theorem fits_zero (k : Kind) : (zero k).Fits k := ⟨rfl, k.represents_zero⟩

theorem IsOf.neg (h : x.IsOf k) : x.neg.IsOf k := ⟨h.kind, h.valid.neg⟩

theorem Fits.neg (h : x.Fits k) : x.neg.Fits k := ⟨h.kind, h.value.neg⟩

section

variable {P : Number → Prop} (hx : P x) (hy : P y)
include hx hy

theorem of_min : P (x.min y) := by
  unfold min
  split
  · exact hy
  · exact hx

theorem of_max : P (x.max y) := by
  unfold max
  split
  · exact hy
  · exact hx

end

theorem Valid.isOf_convert (valid : x.Valid) (r : Rounding) : (x.convert k r).IsOf k := by
  unfold convert
  split
  · rename_i same
    exact ⟨same, valid⟩
  · exact isOf_ofExt k r x.value

theorem Fits.convert (h : x.Fits l) (k : Kind) (r : Rounding) : (x.convert k r).Fits k := by
  unfold Number.convert
  split
  · rename_i same
    obtain rfl : l = k := h.kind.symm.trans same
    exact h
  · exact fits_ofExt k r x.value

section

variable (hx : x.IsOf k) (hy : y.IsOf k)
include hx hy

theorem IsOf.fits_sum? (h : x.sum? r y = some z) : z.Fits k := by
  unfold sum? at h
  split at h
  · rename_i double double'
    obtain rfl : k = .double := hx.kind.symm.trans double
    obtain ⟨v, sum, rfl⟩ := map_eq_some_iff.1 h
    exact ⟨rfl, isDouble_add? (hx.valid double) (hy.valid double') sum⟩
  · obtain ⟨v, -, rfl⟩ := map_eq_some_iff.1 h
    rw [hx.kind, hy.kind, Kind.common_self]
    exact fits_ofExt k r v

theorem IsOf.fits_add (r : Rounding) : (x.add r y).Fits k := by
  unfold add
  cases sum : x.sum? r y with
  | none => exact hx.kind ▸ fits_infinity x.kind _
  | some z => exact hx.fits_sum? hy sum

theorem IsOf.fits_mul (r : Rounding) : (x.mul r y).Fits k := by
  unfold mul
  split
  · rename_i double _
    obtain rfl : k = .double := hx.kind.symm.trans double
    exact ⟨rfl, isDouble_mul r x.value y.value⟩
  · rw [hx.kind, hy.kind, Kind.common_self]
    exact fits_ofExt k r _

theorem IsOf.fits_div? (h : x.div? r y = some z) : z.Fits k := by
  unfold div? at h
  split at h
  · rename_i double _
    obtain rfl : k = .double := hx.kind.symm.trans double
    obtain ⟨v, quotient, rfl⟩ := map_eq_some_iff.1 h
    exact ⟨rfl, isDouble_div? quotient⟩
  · obtain ⟨v, -, rfl⟩ := map_eq_some_iff.1 h
    rw [hx.kind, hy.kind, Kind.common_self]
    exact fits_ofExt k r v

end

structure Rounded (k : Kind) (P Q : Number → Prop) : Prop where
  kind {x : Number} : P x → x.kind = k
  of_fits {x : Number} : x.Fits k → Q x
  add {x y : Number} (r : Rounding) : P x → P y → Q (x.add r y)
  mul {x y : Number} (r : Rounding) : P x → P y → Q (x.mul r y)
  div? {x y z : Number} {r : Rounding} : P x → P y → x.div? r y = some z → Q z

theorem rounded_isOf (k : Kind) : Rounded k (IsOf k) (Fits k) where
  kind hx := hx.kind
  of_fits := id
  add r hx hy := hx.fits_add hy r
  mul r hx hy := hx.fits_mul hy r
  div? hx hy := hx.fits_div? hy

theorem rounded_fits (k : Kind) : Rounded k (Fits k) (Fits k) where
  kind hx := hx.kind
  of_fits := id
  add r hx hy := hx.isOf.fits_add hy.isOf r
  mul r hx hy := hx.isOf.fits_mul hy.isOf r
  div? hx hy := hx.isOf.fits_div? hy.isOf

theorem rounded_kind (k : Kind) : Rounded k (·.kind = k) (·.kind = k) where
  kind := id
  of_fits hx := hx.kind
  add {x y} r hx hy := by
    unfold add sum?
    rw [hx, hy]
    split
    · cases add? r x.value y.value <;> rfl
    · rw [Kind.common_self]
      cases x.value.add? y.value <;> rfl
  mul {x y} r hx hy := by
    unfold mul
    rw [hx, hy]
    split
    · rfl
    · exact Kind.common_self k
  div? {x y z r} hx hy h := by
    unfold div? at h
    rw [hx, hy] at h
    split at h
    · obtain ⟨v, -, rfl⟩ := map_eq_some_iff.1 h
      rfl
    · obtain ⟨v, -, rfl⟩ := map_eq_some_iff.1 h
      exact Kind.common_self k

end Number

/-! ### Intervals -/

namespace Interval

open LinearForm (weight)
open Number (of_min of_max)

variable {a b i : Interval} {k l : Kind} {q : Rat} {v : ExtRat}

structure IsOf (k : Kind) (i : Interval) : Prop extends i.Valid where
  kind : i.lo.kind = k

structure Fits (k : Kind) (i : Interval) : Prop where
  lo : i.lo.Fits k
  hi : i.hi.Fits k

theorem IsOf.hiKind (h : i.IsOf k) : i.hi.kind = k := h.sameKind.trans h.kind

theorem isOf_of_bounds (lo : i.lo.IsOf k) (hi : i.hi.IsOf k) : i.IsOf k where
  sameKind := hi.kind.trans lo.kind.symm
  validLo := lo.valid
  validHi := hi.valid
  kind := lo.kind

theorem Fits.isOf (h : i.Fits k) : i.IsOf k := isOf_of_bounds h.lo.isOf h.hi.isOf

theorem IsOf.isOf_lo (h : i.IsOf k) : i.lo.IsOf k := ⟨h.kind, h.validLo⟩

theorem IsOf.isOf_hi (h : i.IsOf k) : i.hi.IsOf k := ⟨h.hiKind, h.validHi⟩

structure Both (P : Number → Prop) (i : Interval) : Prop where
  lo : P i.lo
  hi : P i.hi

theorem IsOf.both (h : i.IsOf k) : i.Both (Number.IsOf k) := ⟨h.isOf_lo, h.isOf_hi⟩

theorem Both.fits (h : i.Both (Number.Fits k)) : i.Fits k := ⟨h.lo, h.hi⟩

theorem Fits.both {P Q : Number → Prop} (rounded : Rounded k P Q) (h : i.Fits k) : i.Both Q :=
  ⟨rounded.of_fits h.lo, rounded.of_fits h.hi⟩

theorem IsOf.lo_ne (directed : k ≠ .double) (h : i.IsOf k) : i.lo.kind ≠ .double :=
  h.kind.symm ▸ directed

theorem IsOf.hi_ne (directed : k ≠ .double) (h : i.IsOf k) : i.hi.kind ≠ .double :=
  h.hiKind.symm ▸ directed

theorem isOf_of_kinds (directed : k ≠ .double) (lo : i.lo.kind = k) (hi : i.hi.kind = k) :
    i.IsOf k where
  sameKind := hi.trans lo.symm
  validLo double := absurd (lo.symm.trans double) directed
  validHi double := absurd (hi.symm.trans double) directed
  kind := lo

theorem isOf_rational_iff : i.IsOf .rational ↔ i.IsRational := by
  constructor
  · intro h
    exact ⟨h.kind, h.hiKind⟩
  · intro h
    exact isOf_of_kinds (by simp) h.lo h.hi

theorem IsRational.fits (h : i.IsRational) : i.Fits .rational :=
  ⟨⟨h.lo, trivial⟩, ⟨h.hi, trivial⟩⟩

theorem fits_top (k : Kind) : (top k).Fits k :=
  ⟨fits_infinity k _, fits_infinity k _⟩

theorem fits_bottom (k : Kind) : (bottom k).Fits k :=
  ⟨fits_ofExt k _ _, fits_ofExt k _ _⟩

theorem isEmpty_bottom (outward : k.IsOutward) : (bottom k).isEmpty = true := by
  have upper : (bottom k).hi.value = .fin (-1) :=
    outward.round_eq outward.represents_one.neg .nearest
  have lower : (bottom k).lo.value = .fin 1 := outward.unit
  apply decide_eq_true
  change (bottom k).hi.value < (bottom k).lo.value
  rw [lower, upper]
  decide

theorem isOf_one (k : Kind) : (point (.one k)).IsOf k :=
  isOf_of_bounds (isOf_ofExt k _ _) (isOf_ofExt k _ _)

theorem isOf_zero (k : Kind) : (point (.zero k)).IsOf k :=
  isOf_of_bounds (fits_zero k).isOf (fits_zero k).isOf

theorem IsOf.neg (h : i.IsOf k) : i.neg.IsOf k := ⟨h.toValid.neg, h.hiKind⟩

/-! ### Conversion -/

theorem Valid.isOf_convert (valid : i.Valid) (k : Kind) : (i.convert k).IsOf k := by
  unfold convert
  split
  · rename_i same
    exact ⟨valid, same⟩
  · split
    · exact (fits_bottom k).isOf
    · exact isOf_of_bounds (valid.validLo.isOf_convert _) (valid.validHi.isOf_convert _)

theorem Fits.convert (h : i.Fits l) (k : Kind) : (i.convert k).Fits k := by
  unfold Interval.convert
  split
  · rename_i same
    obtain rfl : l = k := h.lo.kind.symm.trans same
    exact h
  · split
    · exact fits_bottom k
    · exact ⟨h.lo.convert k _, h.hi.convert k _⟩

theorem Spans.convert (directed : k ≠ .double) (h : i.Spans v) : (i.convert k).Spans v := by
  unfold Interval.convert
  split
  · exact h
  · rw [h.not_isEmpty]
    exact ⟨(convert_down_le directed i.lo).trans h.1, h.2.trans (le_convert_up directed i.hi)⟩

theorem Has.convert (directed : k ≠ .double) (h : i.Has q) : (i.convert k).Has q :=
  Spans.convert directed h

/-! ### Arithmetic -/

section Classes

variable {P Q : Number → Prop} (rounded : Number.Rounded k P Q)
include rounded

theorem Both.includeQuotients {j : Interval} (pairs : List (Number × Number))
    (kinds : ∀ p ∈ pairs, P p.1 ∧ P p.2) (hi : i.Both Q)
    (h : pairs.foldlM (fun i p => includeQuotient i p.1 p.2) i = some j) : j.Both Q := by
  induction pairs generalizing i with
  | nil =>
    obtain rfl : i = j := by simpa using h
    exact hi
  | cons p pairs ih =>
    rw [List.foldlM_cons] at h
    obtain ⟨_, first, rest⟩ := bind_eq_some_iff.1 h
    obtain ⟨left, right⟩ := kinds p (by simp)
    apply ih (fun p mem => kinds p (by simp [mem])) _ rest
    unfold includeQuotient at first
    split at first
    · rename_i l u down up
      obtain rfl := some.inj first
      exact ⟨of_min hi.lo (rounded.div? left right down), of_max hi.hi (rounded.div? left right up)⟩
    · cases first

variable (ha : a.Both P) (hb : b.Both P)
include ha hb

theorem Both.add : (a.add b).Both Q := by
  unfold Interval.add
  split
  · rw [kind, rounded.kind ha.lo]
    exact (fits_bottom k).both rounded
  · exact ⟨rounded.add _ ha.lo hb.lo, rounded.add _ ha.hi hb.hi⟩

theorem Both.mul : (a.mul b).Both Q := by
  unfold Interval.mul
  split
  · rw [kind, rounded.kind ha.lo]
    exact (fits_bottom k).both rounded
  · have least (r : Rounding) := rounded.mul r ha.lo hb.lo
    have lower (r : Rounding) := rounded.mul r ha.lo hb.hi
    have upper (r : Rounding) := rounded.mul r ha.hi hb.lo
    have greatest (r : Rounding) := rounded.mul r ha.hi hb.hi
    constructor
    · exact of_min (of_min (of_min (least _) (lower _)) (upper _)) (greatest _)
    · exact of_max (of_max (of_max (least _) (lower _)) (upper _)) (greatest _)

theorem Both.div : (a.div b).Both Q := by
  unfold Interval.div
  dsimp only
  rw [kind, rounded.kind ha.lo]
  split
  · exact (fits_bottom k).both rounded
  split
  · exact (fits_top k).both rounded
  cases run : List.foldlM (fun i (p : Number × Number) => includeQuotient i p.1 p.2)
      ⟨.infinity k 1, .infinity k (-1)⟩
      [(a.lo, b.lo), (a.lo, b.hi), (a.hi, b.lo), (a.hi, b.hi)] with
  | none => exact (fits_top k).both rounded
  | some j =>
    apply Both.includeQuotients rounded _ _ _ run
    · simp [ha.lo, ha.hi, hb.lo, hb.hi]
    · exact Fits.both rounded ⟨fits_infinity k _, fits_infinity k _⟩

end Classes

section Rounded

variable (ha : a.IsOf k) (hb : b.IsOf k)
include ha hb

theorem IsOf.fits_add : (a.add b).Fits k := (ha.both.add (rounded_isOf k) hb.both).fits

theorem IsOf.fits_mul : (a.mul b).Fits k := (ha.both.mul (rounded_isOf k) hb.both).fits

theorem IsOf.fits_div : (a.div b).Fits k := (ha.both.div (rounded_isOf k) hb.both).fits

theorem IsOf.add : (a.add b).IsOf k := (ha.fits_add hb).isOf

theorem IsOf.mul : (a.mul b).IsOf k := (ha.fits_mul hb).isOf

theorem IsOf.div : (a.div b).IsOf k := (ha.fits_div hb).isOf

end Rounded

theorem isOf_weight (valid : i.Valid) : (weight i).IsOf i.lo.kind := by
  unfold weight
  split
  · exact ⟨rfl, valid.validLo⟩
  split
  · exact ⟨valid.sameKind, valid.validHi⟩
  · exact (fits_zero i.lo.kind).isOf

theorem isOf_convert_sub_weight (valid : i.Valid) (k : Kind) :
    ((i.sub (.point (weight i))).convert k).IsOf k := by
  have weight : (point (weight i)).IsOf i.lo.kind :=
    isOf_of_bounds (isOf_weight valid) (isOf_weight valid)
  exact (IsOf.add ⟨valid, rfl⟩ weight.neg).isOf_convert k

/-! ### Lattice operations -/

theorem Both.meet {P : Number → Prop} (rounded : Rounded k P P) (ha : a.Both P)
    (hb : b.Both P) : (a.meet b).Both P := by
  have lo := of_max ha.lo hb.lo
  unfold Interval.meet canonical
  split
  · rw [kind, rounded.kind lo]
    exact (fits_bottom k).both rounded
  · exact ⟨lo, of_min ha.hi hb.hi⟩

section Chosen

variable (ha : a.Fits k) (hb : b.Fits k)
include ha hb

theorem Fits.meet : (a.meet b).Fits k :=
  (Both.meet (rounded_fits k) ⟨ha.lo, ha.hi⟩ ⟨hb.lo, hb.hi⟩).fits

theorem Fits.join : (a.join b).Fits k := by
  unfold Interval.join
  split
  · exact hb
  split
  · exact ha
  · exact ⟨of_min ha.lo hb.lo, of_max ha.hi hb.hi⟩

theorem Fits.widening : (a.widening b).Fits k := by
  unfold Interval.widening
  split
  · exact hb
  split
  · exact ha
  · rw [kind, ha.lo.kind]
    -- a bound is kept, or it is an infinity of the same kind
    constructor
    · split
      · exact fits_infinity k _
      · exact ha.lo
    · change (if a.hi < b.hi then .infinity k 1 else a.hi).Fits k
      split
      · exact fits_infinity k _
      · exact ha.hi

end Chosen

end Interval

end Enclosure
