import Enclosure.Domain
import Enclosure.Proofs.Constraints
import Enclosure.Proofs.Spaces

/-!
# Simultaneous assignment

All forms of a simultaneous assignment are read at the old vector, and later values replace earlier
ones.
-/

namespace Enclosure

open List

variable {dims : List Nat} {vs x y z : List Rat} {forms : List LinearForm} {size n i d : Nat}
  {p q : List Rat → Prop} {s : Space}

def assignAll (dims : List Nat) (vs x : List Rat) : List Rat :=
  (dims.zip vs).foldl (fun y e => y.set e.1 e.2) x

/-- The second vector is the first one after values of the forms there were assigned to the
dimensions. -/
def Assigns (dims : List Nat) (forms : List LinearForm) (x y : List Rat) : Prop :=
  ∃ vs, Forall₂ (fun f v => f.Takes x v) forms vs ∧ y = assignAll dims vs x

@[simp]
theorem assignAll_nil (vs x : List Rat) : assignAll [] vs x = x := rfl

theorem assignAll_cons (d : Nat) (dims : List Nat) (v : Rat) (vs x : List Rat) :
    assignAll (d :: dims) (v :: vs) x = assignAll dims vs (x.set d v) := rfl

@[simp]
theorem length_assignAll (dims : List Nat) (vs x : List Rat) :
    (assignAll dims vs x).length = x.length :=
  foldlRecOn (dims.zip vs) _ (motive := fun y : List Rat => y.length = x.length) rfl
    fun y same e _ => by simpa using same

theorem getD_assignAll_of_not_mem (other : d ∉ dims) (vs x : List Rat) :
    (assignAll dims vs x).getD d 0 = x.getD d 0 := by
  induction dims generalizing vs x with
  | nil => rfl
  | cons e dims ih =>
    rw [mem_cons, not_or] at other
    cases vs with
    | nil => rfl
    | cons v vs => rw [assignAll_cons, ih other.2, getD_set_of_ne other.1]

theorem getD_assignAll_of_mem {v : Rat} (nodup : dims.Nodup) (inside : d < x.length)
    (mem : (d, v) ∈ dims.zip vs) : (assignAll dims vs x).getD d 0 = v := by
  induction dims generalizing vs x with
  | nil => simp at mem
  | cons e dims ih =>
    obtain ⟨new, nodup⟩ := nodup_cons.1 nodup
    cases vs with
    | nil => simp at mem
    | cons w vs =>
      rw [assignAll_cons]
      rw [zip_cons_cons, mem_cons] at mem
      rcases mem with ⟨rfl, rfl⟩ | mem
      · rw [getD_assignAll_of_not_mem new, getD_set_self inside]
      · exact ih nodup (by simpa using inside) mem

theorem assigns_iff (nodup : dims.Nodup) (same : dims.length = forms.length)
    (inside : ∀ d ∈ dims, d < x.length) (length : y.length = x.length) :
    Assigns dims forms x y ↔ (∀ d, d ∉ dims → y.getD d 0 = x.getD d 0) ∧
      ∀ p ∈ dims.zip forms, p.2.Takes x (y.getD p.1 0) := by
  constructor
  · rintro ⟨vs, takes, rfl⟩
    refine ⟨fun d other => getD_assignAll_of_not_mem other vs x, fun p mem => ?_⟩
    obtain ⟨i, found⟩ := getElem?_of_mem mem
    obtain ⟨dim, form⟩ := getElem?_zip_eq_some.1 found
    obtain ⟨low, form⟩ := List.getElem?_eq_some_iff.1 form
    have value := takes.get low (takes.length_eq ▸ low)
    have assigned : (p.1, vs.get ⟨i, takes.length_eq ▸ low⟩) ∈ dims.zip vs :=
      mem_of_getElem? (getElem?_zip_eq_some.2 ⟨dim, getElem?_eq_getElem _⟩)
    rwa [getD_assignAll_of_mem nodup (inside p.1 (of_mem_zip mem).1) assigned, ← form]
  · rintro ⟨others, takes⟩
    have values : Forall₂ (fun f v => f.Takes x v) forms (dims.map (y.getD · 0)) := by
      rw [forall₂_map_right_iff]
      refine .flip (forall₂_iff_zip.2 ⟨same, fun mem => takes (_, _) mem⟩)
    refine ⟨_, values, ext_getD (by simpa using length) fun d => ?_⟩
    by_cases assigned : d ∈ dims
    · refine (getD_assignAll_of_mem nodup (inside d assigned) ?_).symm
      obtain ⟨i, found⟩ := getElem?_of_mem assigned
      exact mem_of_getElem? (getElem?_zip_eq_some.2 ⟨found, by simp [found]⟩)
    · rw [others d assigned, getD_assignAll_of_not_mem assigned]

theorem assignAll_concat {v : Rat} (value : vs[dims.length]? = some v) :
    assignAll (dims ++ [d]) vs x = (assignAll dims vs x).set d v := by
  induction dims generalizing vs x with
  | nil =>
    cases vs with
    | nil => simp at value
    | cons w vs =>
      obtain rfl : w = v := by simpa using value
      simp [assignAll]
  | cons e dims ih =>
    cases vs with
    | nil => simp at value
    | cons w vs => exact ih (by simpa using value)

theorem assignAll_append_right (inside : ∀ d ∈ dims, d < x.length) (zs : List Rat) :
    assignAll dims vs (x ++ zs) = assignAll dims vs x ++ zs := by
  induction dims generalizing vs x with
  | nil => rfl
  | cons d dims ih =>
    cases vs with
    | nil => rfl
    | cons v vs =>
      rw [assignAll_cons, assignAll_cons, set_append_left _ _ (inside d (by simp)), ih]
      intro e mem
      simpa using inside e (by simp [mem])

theorem getD_assignAll_congr (values : dims.length ≤ vs.length) (length : x.length = y.length)
    (same : ∀ i, i ∉ dims → x.getD i 0 = y.getD i 0) (i : Nat) :
    (assignAll dims vs x).getD i 0 = (assignAll dims vs y).getD i 0 := by
  induction dims generalizing vs x y with
  | nil => exact same i (by simp)
  | cons d dims ih =>
    cases vs with
    | nil => simp at values
    | cons v vs =>
      refine ih (by simpa using values) (by simpa using length) fun i other => ?_
      by_cases here : i = d
      · subst here
        by_cases inside : i < y.length
        · rw [getD_set_self inside, getD_set_self (length ▸ inside)]
        · rw [getD_eq_default _ _ (by simp; omega), getD_eq_default _ _ (by simp; omega)]
      · rw [getD_set_of_ne here, getD_set_of_ne here, same i (by simp [here, other])]

/-! ### The exchange -/

namespace Permutation

variable {p : Permutation}

theorem valid_identity (n : Nat) : (identity n).Valid n :=
  ⟨by simp [identity], nodup_range, fun d mem => mem_range.1 mem⟩

theorem image_identity (n i : Nat) : (identity n).image i = i := by
  simp only [image, identity, getD_eq_getElem?_getD]
  by_cases inside : i < n
  · simp [inside]
  · rw [getElem?_eq_none (by simpa using inside)]
    rfl

structure Exchanges (p : Permutation) (size : Nat) (dims : List Nat) (n : Nat) : Prop where
  valid : p.Valid n
  fresh : ∀ j, size + dims.length ≤ j → p.image j = j
  reads : ∀ z : List Rat, z.length = n → ∀ i < size,
    z.getD (p.image i) 0 = (assignAll dims (z.drop size) z).getD i 0
  involutive : dims.Nodup →
    (∀ i < size, i ∉ dims → p.image i = i) ∧ ∀ j, p.image (p.image j) = j

theorem exchanges_identity (n : Nat) (size : Nat) : (identity n).Exchanges size [] n := by
  refine ⟨valid_identity n, fun j _ => image_identity n j, fun z _ i _ => ?_, fun _ => ?_⟩
  · rw [image_identity, assignAll_nil]
  · simp [image_identity]

theorem Exchanges.swap (h : p.Exchanges size dims n) (inside : d < size)
    (room : size + dims.length < n) :
    ∃ q, p.swap d (size + dims.length) = .ok q ∧ q.Exchanges size (dims ++ [d]) n := by
  obtain ⟨q, run, valid, old, new, others⟩ := h.valid.swap (by omega : d < n) room
  have unused := h.fresh _ (le_refl (size + dims.length))
  refine ⟨q, run, valid, fun j beyond => ?_, fun z length i low => ?_, fun nodup => ?_⟩
  · rw [length_append, length_singleton] at beyond
    rw [others j (by omega) (by omega), h.fresh j (by omega)]
  · have value : (z.drop size)[dims.length]? = some (z.getD (size + dims.length) 0) := by
      rw [getElem?_drop, getElem?_eq_getElem (by omega), getD_eq_getElem _ _ (by omega)]
    rw [assignAll_concat value]
    by_cases here : i = d
    · subst here
      rw [old, unused, getD_set_self (by rw [length_assignAll]; omega)]
    · rw [others i here (by omega), h.reads z length i low, getD_set_of_ne here]
  · obtain ⟨nodup, -, apart⟩ := nodup_append.1 nodup
    obtain ⟨stay, back⟩ := h.involutive nodup
    have fixed : p.image d = d := stay d inside fun mem => apart d mem d (by simp) rfl
    rw [unused] at old
    rw [fixed] at new
    refine ⟨fun i low other => ?_, fun j => ?_⟩
    · rw [mem_append, mem_singleton, not_or] at other
      rw [others i other.2 (by omega), stay i low other.1]
    · by_cases first : j = d
      · rw [first, old, new]
      by_cases second : j = size + dims.length
      · rw [second, new, old]
      -- both dimensions were fixed before, so no other dimension moves to one of them
      have off : p.image j ≠ d := fun same => first (by rw [← back j, same, fixed])
      have off' : p.image j ≠ size + dims.length :=
        fun same => second (by rw [← back j, same, unused])
      rw [others j first second, others _ off off', back]

theorem exchange_spec (inside : ∀ d ∈ dims, d < size) :
    ∃ p, exchange size dims = .ok p ∧ p.Exchanges size dims (size + dims.length) := by
  have run (n : Nat) (room : size + dims.length ≤ n) :
      ∃ p, dims.zipIdx.foldlM (fun p e => p.swap e.1 (size + e.2)) (identity n) = .ok p ∧
        p.Exchanges size dims n := by
    induction dims using reverseRecOn with
    | nil => exact ⟨identity n, rfl, exchanges_identity n size⟩
    | append_singleton dims d ih =>
      rw [length_append, length_singleton] at room
      obtain ⟨p, run, exchanges⟩ := ih (fun e mem => inside e (by simp [mem])) (by omega)
      obtain ⟨q, step, exchanges⟩ := exchanges.swap (inside d (by simp)) (by omega)
      refine ⟨q, ?_, exchanges⟩
      rw [zipIdx_append, foldlM_append, run]
      simp [bind, Except.bind, step]
      rfl
  exact run _ le_rfl

theorem Exchanges.readAt_eq (h : p.Exchanges size dims n) (inside : ∀ d ∈ dims, d < size)
    (old : x.length = size) (fresh : size + vs.length = n) :
    readAt (range size) (readAt ((range n).map p.image) (x ++ vs)) =
      assignAll dims vs x := by
  subst old fresh
  refine ext_getElem (by simp) fun i low low' => ?_
  have low : i < x.length := by simpa using low
  have read := h.reads (x ++ vs) (by simp) i low
  rw [drop_left, assignAll_append_right inside, getD_append _ _ _ _ low',
    getD_eq_getElem _ _ low'] at read
  rw [← read]
  simp [readAt, getElem?_range (Nat.lt_add_right vs.length low)]

theorem Exchanges.readAt_readAt (h : p.Exchanges size dims n) (nodup : dims.Nodup)
    (length : z.length = n) :
    readAt ((range n).map p.image) (readAt ((range n).map p.image) z) = z := by
  refine ext_getElem (by simp [length]) fun i inside inside' => ?_
  have low : i < n := by simpa using inside
  have back := (h.involutive nodup).2 i
  simp [readAt, getElem?_range (h.valid.image_lt low), back, inside']

end Permutation

/-! ### Fresh dimensions -/

namespace SpaceChange

theorem inserts_append (s : Space) (n : Nat) : (append s.size n).Inserts s :=
  ⟨by simp [append], by simp [append], fun d mem => by
    rw [eq_of_mem_replicate mem]⟩

theorem size_grow_append (s : Space) (n : Nat) : (s.grow (append s.size n)).size = s.size + n := by
  rw [(inserts_append s n).size_grow, append, length_replicate]

theorem size_of_append {s t : Space} (space : t = s.grow (append s.size n)) : t.size = s.size + n :=
  space ▸ size_grow_append s n

theorem shifts_append (size n : Nat) : (append size n).shifts size = range size := by
  have stays : ∀ i ∈ range size, (append size n).shift i = i := by
    intro i mem
    simp [shift, append, mem_range.1 mem]
  exact (map_congr_left stays).trans (map_id' _)

theorem mem_dropLast : d ∈ (dropLast size n).dims ↔ size ≤ d ∧ d < size + n := by
  simp only [dropLast, mem_map, mem_range]
  constructor
  · omega
  · rintro ⟨_, _⟩
    exact ⟨d - size, by omega, by omega⟩

theorem removes_dropLast (s : Space) (n : Nat) :
    (dropLast s.size n).Removes (s.grow (append s.size n)) where
  counts := by simp [dropLast]
  nodup := nodup_range.map fun a b same => Nat.add_left_cancel same
  inside d mem := (mem_dropLast.1 mem).2.trans_eq (size_grow_append s n).symm
  ints := Nat.zero_le _
  reals := Nat.le_add_left n s.reals

theorem kept_dropLast (size n : Nat) : (dropLast size n).kept (size + n) = range size := by
  have low : ∀ d ∈ range size, (!(dropLast size n).drops d) = true := by
    intro d mem
    simpa [drops, mem_dropLast] using .inl (mem_range.1 mem)
  have high : ∀ d ∈ (range n).map (size + ·), ¬ (!(dropLast size n).drops d) = true := by
    simpa [drops, dropLast] using mem
  rw [kept, range_add, filter_append, filter_eq_self.2 low, filter_eq_nil_iff.2 high, append_nil]

end SpaceChange

theorem Space.IsPoint.append (length : z.length = s.size + n)
    (point : s.IsPoint (readAt (range s.size) z)) : (s.grow (.append s.size n)).IsPoint z := by
  refine ⟨length.trans (SpaceChange.size_grow_append s n).symm, fun d int => ?_⟩
  have old : s.isInt d = true := by simpa [isInt, grow, SpaceChange.append] using int
  have low : d < s.size := by
    simp only [isInt, decide_eq_true_eq] at old
    exact old.trans_le (Nat.le_add_right _ _)
  rw [← getD_readAt (getElem?_range low) z]
  exact point.integral d old

theorem Space.IsPoint.extend (point : s.IsPoint x) (count : vs.length = n) :
    (s.grow (.append s.size n)).IsPoint (x ++ vs) := by
  refine .append (by rw [length_append, point.length, count]) ?_
  rwa [readAt_range_append point.length]

theorem Permutation.Exchanges.exists_swapped {p : Permutation}
    (h : p.Exchanges s.size dims (s.size + dims.length)) (inside : ∀ d ∈ dims, d < s.size)
    (length : x.length = s.size) (count : vs.length = dims.length)
    (image : s.IsPoint (assignAll dims vs x)) :
    ∃ z, readAt ((range (s.size + dims.length)).map p.image) (x ++ vs) = z ∧
      readAt (range s.size) z = assignAll dims vs x ∧
      (s.grow (.append s.size dims.length)).IsPoint z := by
  have read := h.readAt_eq inside length (by rw [count])
  exact ⟨_, rfl, read, .append (by simp) (read.symm ▸ image)⟩

/-! ### Definitions -/

namespace Terms

variable {es acc : List (Nat × Coefficient)} {c : Coefficient}

theorem perm_insert (sorted : acc.Pairwise fun e f => e.1 < f.1) :
    (insert d c acc).Pairwise (fun e f => e.1 < f.1) ∧
      (insert d c acc).Perm ((d, c) :: acc.filter (·.1 ≠ d)) := by
  induction acc with
  | nil => simp [insert]
  | cons e acc ih =>
    obtain ⟨e, y⟩ := e
    obtain ⟨least, rest⟩ := pairwise_cons.1 sorted
    obtain ⟨sorted', perm⟩ := ih rest
    have others {f : Nat × Coefficient} (mem : f ∈ insert d c acc) : f = (d, c) ∨ f ∈ acc := by
      have := perm.subset mem
      simp only [mem_cons, mem_filter] at this
      tauto
    rw [insert]
    split
    · -- the new dimension comes before all others, so none of them is replaced
      rename_i before
      have apart : ∀ f ∈ (e, y) :: acc, d < f.1 := by
        rintro f (_ | ⟨_, mem⟩)
        · exact before
        · exact before.trans (least f mem)
      have kept : ((e, y) :: acc).filter (·.1 ≠ d) = (e, y) :: acc :=
        filter_eq_self.2 fun f mem => by simpa using (apart f mem).ne'
      exact ⟨pairwise_cons.2 ⟨apart, sorted⟩, by rw [kept]⟩
    split
    · -- only the first term is replaced, as the dimensions behind it are greater
      rename_i same
      subst same
      have kept : acc.filter (·.1 ≠ d) = acc :=
        filter_eq_self.2 fun f mem => by simpa using (least f mem).ne'
      refine ⟨pairwise_cons.2 ⟨least, rest⟩, ?_⟩
      rw [filter_cons_of_neg (by simp), kept]
    · rename_i notBefore other
      have after : e < d := by omega
      refine ⟨pairwise_cons.2 ⟨fun f mem => ?_, sorted'⟩, ?_⟩
      · rcases others mem with rfl | old
        · exact after
        · exact least f old
      · rw [filter_cons_of_pos (by simpa using Ne.symm other)]
        exact (perm.cons _).trans (.swap _ _ _)

theorem ofList_append_singleton (es : List (Nat × Coefficient)) (d : Nat) (c : Coefficient) :
    (ofList (es ++ [(d, c)])).entries = insert d c (ofList es).entries :=
  foldl_append

/-- As long as no dimension comes twice nothing is replaced. -/
theorem perm_ofList (nodup : (es.map Prod.fst).Nodup) :
    (ofList es).entries.Pairwise (fun e f => e.1 < f.1) ∧ (ofList es).entries.Perm es := by
  induction es using reverseRecOn with
  | nil => exact ⟨.nil, .nil⟩
  | append_singleton es e ih =>
    rw [map_append, nodup_append] at nodup
    obtain ⟨sorted, perm⟩ := ih nodup.1
    obtain ⟨sorted', perm'⟩ := perm_insert (d := e.1) (c := e.2) sorted
    have kept : es.filter (·.1 ≠ e.1) = es := filter_eq_self.2 fun f mem => by
      simpa using nodup.2.2 f.1 (mem_map_of_mem mem) e.1 (by simp)
    rw [ofList_append_singleton]
    refine ⟨sorted', perm'.trans (((perm.filter _).cons _).trans ?_)⟩
    rw [kept]
    exact (perm_append_singleton _ _).symm

theorem perm_entries_ofList (nodup : (es.map Prod.fst).Nodup) :
    (ofList (es ++ [(d, c)])).entries.Perm ((d, c) :: es.filter (·.1 ≠ d)) := by
  obtain ⟨sorted, perm⟩ := perm_ofList nodup
  rw [ofList_append_singleton]
  exact (perm_insert sorted).2.trans ((perm.filter _).cons _)

end Terms

namespace LinearConstraint

variable {f : LinearForm} {v : Rat}

section

variable (valid : f.Valid)
include valid

theorem perm_entries_definition (d : Nat) :
    (definition d f).form.entries.Perm
      ((d, .rational 1) :: f.neg.entries.filter (·.1 ≠ d)) :=
  Terms.perm_entries_ofList valid.neg.nodup

theorem perm_nonzero_definition (below : f.Below size) (fresh : size ≤ d) :
    (definition d f).form.nonzero.Perm ((d, .rational 1) :: f.neg.nonzero) := by
  have kept : (f.neg.entries.filter (·.1 ≠ d)).filter (!·.2.isZero) = f.neg.nonzero := by
    rw [filter_comm]
    refine filter_eq_self.2 fun e mem => ?_
    have := below.neg e mem
    simp
    omega
  have perm := (perm_entries_definition valid d).filter (!·.2.isZero)
  rwa [filter_cons_of_pos rfl, kept] at perm

theorem valid_definition (d : Nat) : (definition d f).form.Valid := by
  have perm := perm_entries_definition valid d
  refine ⟨(perm.map Prod.fst).nodup_iff.2 ?_, fun e mem => ?_, valid.neg.constant⟩
  · rw [map_cons, nodup_cons]
    refine ⟨?_, valid.neg.nodup.sublist (filter_sublist.map _)⟩
    simp
  · rcases mem_cons.1 (perm.subset mem) with rfl | old
    · trivial
    · exact valid.neg.coefficients e (mem_of_mem_filter old)

theorem below_definition (below : f.Below size) (fresh : size ≤ d) (inside : d < n) :
    (definition d f).form.Below n := by
  intro e mem
  rcases mem_cons.1 ((perm_nonzero_definition valid below fresh).subset mem) with rfl | old
  · exact inside
  · exact (below.neg e old).trans_le (fresh.trans inside.le)

theorem holds_definition (below : f.Below size) (fresh : size ≤ d) :
    (definition d f).Holds z ↔ f.Takes z (z.getD d 0) := by
  have perm := perm_nonzero_definition valid below fresh
  have takes : (definition d f).form.Takes z 0 ↔ f.neg.Takes z (-z.getD d 0) := by
    rw [LinearForm.takes_iff_nonzero, LinearForm.takes_iff_nonzero]
    refine exists_congr fun k => and_congr_right fun _ => ?_
    rw [show Terms.SumsTo z (definition d f).form.nonzero (0 - k) ↔ _ from
      ⟨fun h => h.perm perm, fun h => h.perm perm.symm⟩, Terms.sumsTo_cons]
    simp only [Coefficient.has_rational, exists_eq_left, one_mul]
    rw [show 0 - k - z.getD d 0 = -z.getD d 0 - k by ring]
  rw [holds_iff_takes_zero rfl, takes, LinearForm.takes_neg, neg_neg]

end

theorem mem_definitions {c : LinearConstraint} :
    c ∈ definitions size forms ↔ ∃ k f, forms[k]? = some f ∧ c = definition (size + k) f := by
  simp only [definitions, mem_map, Prod.exists, mem_zipIdx_iff_getElem?]
  constructor
  · rintro ⟨f, k, found, rfl⟩
    exact ⟨k, f, found, rfl⟩
  · rintro ⟨k, f, found, rfl⟩
    exact ⟨f, k, found, rfl⟩

theorem holds_definitions (valid : ∀ f ∈ forms, f.Valid) (below : ∀ f ∈ forms, f.Below size)
    (length : x.length = size) (values : forms.length = vs.length) :
    (∀ c ∈ definitions size forms, c.Holds (x ++ vs)) ↔
      Forall₂ (fun f v => f.Takes x v) forms vs := by
  -- the forms do not read the fresh dimensions
  have old (f : LinearForm) (mem : f ∈ forms) v : f.Takes (x ++ vs) v ↔ f.Takes x v := by
    have same : ∀ d < size, (x ++ vs).getD d 0 = x.getD d 0 := fun d low =>
      getD_append _ _ _ _ (length.symm ▸ low)
    exact ⟨fun h => h.congr (below f mem) same, fun h => h.congr (below f mem) fun d low =>
      (same d low).symm⟩
  have each {f : LinearForm} {k : Nat} {v : Rat} (form : forms[k]? = some f)
      (value : vs[k]? = some v) :
      (definition (size + k) f).Holds (x ++ vs) ↔ f.Takes x v := by
    have mem := mem_of_getElem? form
    have fresh : (x ++ vs).getD (size + k) 0 = v := by
      rw [getD_eq_getElem?_getD, getElem?_append_right (by omega)]
      simp [length, value]
    rw [holds_definition (valid f mem) (below f mem) (Nat.le_add_right size k), fresh, old f mem]
  rw [forall₂_iff_get]
  constructor
  · refine fun h => ⟨values, fun k hf hv => ?_⟩
    exact (each (getElem?_eq_getElem hf) (getElem?_eq_getElem hv)).1
      (h _ (mem_definitions.2 ⟨k, _, getElem?_eq_getElem hf, rfl⟩))
  · rintro ⟨-, h⟩ c mem
    obtain ⟨k, f, form, rfl⟩ := mem_definitions.1 mem
    obtain ⟨hf, rfl⟩ := List.getElem?_eq_some_iff.1 form
    exact (each form (getElem?_eq_getElem (values ▸ hf))).2 (h k hf (values ▸ hf))

theorem valid_definitions (valid : ∀ f ∈ forms, f.Valid) (below : ∀ f ∈ forms, f.Below size) :
    ∀ c ∈ definitions size forms, c.form.Valid ∧ c.form.Below (size + forms.length) := by
  intro c mem
  obtain ⟨k, f, found, rfl⟩ := mem_definitions.1 mem
  have inForms := mem_of_getElem? found
  obtain ⟨_, -⟩ := List.getElem?_eq_some_iff.1 found
  exact ⟨valid_definition (valid f inForms) _,
    below_definition (valid f inForms) (below f inForms) (Nat.le_add_right size k) (by omega)⟩

end LinearConstraint

/-! ### Regular forms -/

variable {f : LinearForm}

/-- All coefficients are finite numbers, and some number is in the range of the constant. -/
structure LinearForm.IsRegular (f : LinearForm) : Prop where
  finite : ∀ e ∈ f.entries, e.2.rational?.isSome = true
  inhabited : ∃ q, f.constant.Has q

namespace Coefficient

theorem rational?_neg (c : Coefficient) : c.neg.rational? = c.rational?.map (- ·) := by
  cases c with
  | exact x =>
    change x.value.neg.fin? = x.value.fin?.map (- ·)
    cases x.value <;> rfl
  | range i => rfl

theorem isExact_of_rational? {c : Coefficient} (finite : c.rational?.isSome = true) :
    c.isExact = true := by
  cases c with
  | exact x => rfl
  | range i => simp [rational?, number?] at finite

end Coefficient

theorem LinearForm.IsRegular.neg (regular : f.IsRegular) : f.neg.IsRegular := by
  refine ⟨?_, ?_⟩
  · rw [entries_neg, forall_mem_map]
    intro e mem
    rw [Coefficient.rational?_neg, Option.isSome_map]
    exact regular.finite e mem
  · obtain ⟨q, _⟩ := regular.inhabited
    exact ⟨-q, Coefficient.has_neg.2 (by rwa [neg_neg])⟩

theorem LinearForm.IsRegular.definition (regular : f.IsRegular) (valid : f.Valid) (d : Nat) :
    (LinearConstraint.definition d f).form.IsRegular := by
  refine ⟨fun e mem => ?_, regular.neg.inhabited⟩
  rcases mem_cons.1 ((LinearConstraint.perm_entries_definition valid d).subset mem) with rfl | old
  · rfl
  · exact regular.neg.finite e (mem_of_mem_filter old)

theorem LinearConstraint.isRegular_definitions
    (valid : ∀ f ∈ forms, f.Valid) (regular : ∀ f ∈ forms, f.IsRegular) :
    ∀ c ∈ definitions size forms, c.form.IsRegular := by
  intro c mem
  obtain ⟨k, f, found, rfl⟩ := mem_definitions.1 mem
  have inForms := mem_of_getElem? found
  exact (regular f inForms).definition (valid f inForms) _

theorem LinearForm.IsRegular.isQuasilinear (regular : f.IsRegular) : f.isQuasilinear = true :=
  all_eq_true.2 fun e mem => Coefficient.isExact_of_rational? (regular.finite e mem)

theorem LinearForm.IsRegular.finite_nonzero (regular : f.IsRegular) :
    ∀ e ∈ f.nonzero, e.2.rational? ≠ none := fun e mem =>
  Option.isSome_iff_ne_none.1 (regular.finite e (mem_nonzero.1 mem).1)

/-! ### Images and preimages

What the single steps do to sets of vectors determines what the whole assignment does. -/

section Steps

variable (size n dims forms) (p q : List Rat → Prop)

def ExtendsBy : Prop := ∀ z, z.length = size + n → (q z ↔ p (readAt (range size) z))

def DefinesBy : Prop :=
  ∀ x vs, x.length = size → vs.length = forms.length →
    (q (x ++ vs) ↔ p (x ++ vs) ∧ Forall₂ (fun f v => f.Takes x v) forms vs)

def ForgetsFirst : Prop :=
  ∀ x vs, x.length = size → vs.length = n → (q (x ++ vs) ↔
    ∃ x', x'.length = size ∧ p (x' ++ vs) ∧ ∀ d, d ∉ dims → x.getD d 0 = x'.getD d 0)

def ReadsThrough (perm : Permutation) : Prop :=
  ∀ z, z.length = n → (q z ↔ p (readAt ((range n).map perm.image) z))

def DropsLast : Prop := ∀ x, q x ↔ ∃ vs, vs.length = n ∧ x.length = size ∧ p (x ++ vs)

variable {size n dims forms} {p q}

theorem forget_first (inside : ∀ d ∈ dims, d < size) (length : ∀ z, p z → z.length = size + n)
    (forgotten : ∀ y, q y ↔
      y.length = size + n ∧ ∃ z, p z ∧ ∀ d, d ∉ dims → y.getD d 0 = z.getD d 0) :
    ForgetsFirst dims size n p q := by
  intro x vs old fresh
  rw [forgotten]
  constructor
  · rintro ⟨-, z, inP, same⟩
    have count := length z inP
    -- no fresh dimension is forgotten, so their values are the same
    have fresh' : z.drop size = vs := by
      refine ext_getD (by simp [count, fresh]) fun k => ?_
      have other : x.length + k ∉ dims := fun mem => by have := inside _ mem; omega
      have := same _ other
      rw [getD_append_right _ _ _ _ (Nat.le_add_right _ k), Nat.add_sub_cancel_left] at this
      rw [this, old]
      simp
    have split := readAt_range_append_drop (x := z) (n := size) (by omega)
    refine ⟨readAt (range size) z, by simp, ?_, fun d other => ?_⟩
    · rwa [← fresh', split]
    · by_cases low : d < size
      · rw [getD_readAt (getElem?_range low), ← same d other, getD_append _ _ _ _ (old ▸ low)]
      · rw [getD_eq_default _ _ (by omega), getD_eq_default _ _ (by simpa using low)]
  · rintro ⟨_, old', inP, same⟩
    refine ⟨by simp [old, fresh], _, inP, fun d other => ?_⟩
    by_cases low : d < size
    · rw [getD_append _ _ _ _ (by omega), getD_append _ _ _ _ (by omega), same d other]
    · rw [getD_append_right _ _ _ _ (by omega), getD_append_right _ _ _ _ (by omega), old, old']

theorem drop_last (length : ∀ z, p z → z.length = size + n)
    (restricted : ∀ x, q x ↔ ∃ z, p z ∧ x = readAt (range size) z) : DropsLast size n p q := by
  intro x
  rw [restricted]
  constructor
  · rintro ⟨z, inP, rfl⟩
    have count := length z inP
    refine ⟨z.drop size, by simp [count], by simp, ?_⟩
    rwa [readAt_range_append_drop (by omega)]
  · rintro ⟨vs, -, old, inP⟩
    exact ⟨x ++ vs, inP, (readAt_range_append old vs).symm⟩

variable {perm : Permutation} {old grown defined forgotten exchanged result : List Rat → Prop}
  (exchanges : perm.Exchanges size dims (size + dims.length)) (same : dims.length = forms.length)
  (inside : ∀ d ∈ dims, d < size) (length : ∀ x, old x → x.length = size)
  (grow : ExtendsBy size dims.length old grown)

include exchanges same inside length grow

theorem image_of_steps (nodup : dims.Nodup) (define : DefinesBy forms size grown defined)
    (forget : ForgetsFirst dims size dims.length defined forgotten)
    (exchange : ReadsThrough (size + dims.length) forgotten exchanged perm)
    (drop : DropsLast size dims.length exchanged result) :
    ∀ y, result y ↔ ∃ x, old x ∧ Assigns dims forms x y := by
  intro y
  rw [drop y]
  constructor
  · rintro ⟨us, count, size', inside'⟩
    -- undoing the exchange gives a vector in which the assigned dimensions are free
    let z := readAt ((range (size + dims.length)).map perm.image) (y ++ us)
    have parts : readAt (range size) z ++ z.drop size = z :=
      readAt_range_append_drop (by simp [z])
    have image : assignAll dims (z.drop size) (readAt (range size) z) = y := by
      rw [← exchanges.readAt_eq inside (by simp) (by simp [z]), parts,
        exchanges.readAt_readAt nodup (by simp [size', count]), readAt_range_append size']
    have undone : forgotten z := (exchange _ (by simp [size', count])).1 inside'
    rw [← parts, forget _ _ (by simp) (by simp [z])] at undone
    obtain ⟨x, before, extended, agree⟩ := undone
    obtain ⟨inOld, values⟩ := (define x _ before (by simp [z, same])).1 extended
    rw [grow _ (by simp [z, before]), readAt_range_append before] at inOld
    refine ⟨x, inOld, _, values, ?_⟩
    rw [← image]
    exact ext_getD (by simp [before]) (getD_assignAll_congr (by simp [z]) (by simp [before]) agree)
  · -- the fresh dimensions of the result may keep the old values of the assigned ones
    rintro ⟨x, inOld, vs, values, rfl⟩
    have count : vs.length = dims.length := values.length_eq.symm.trans same.symm
    have before : x.length = size := length x inOld
    let z := readAt ((range (size + dims.length)).map perm.image) (x ++ vs)
    have parts : assignAll dims vs x ++ z.drop size = z := by
      rw [← exchanges.readAt_eq inside before (by rw [count])]
      exact readAt_range_append_drop (by simp)
    refine ⟨z.drop size, by simp [z], by simp [before], ?_⟩
    rw [parts, exchange _ (by simp [z]),
      exchanges.readAt_readAt nodup (by simp [before, count]), forget x vs before count]
    refine ⟨x, before, (define x vs before (count.trans same)).2 ⟨?_, values⟩, fun _ _ => rfl⟩
    rwa [grow _ (by simp [before, count]), readAt_range_append before]

theorem preimage_of_steps (exchange : ReadsThrough (size + dims.length) grown exchanged perm)
    (define : DefinesBy forms size exchanged defined)
    (drop : DropsLast size dims.length defined result) :
    ∀ x, result x ↔ ∃ y, Assigns dims forms x y ∧ old y := by
  intro x
  rw [drop x]
  constructor
  · -- the equations hold at the new vector, and the exchanged part is its image
    rintro ⟨vs, count, size', inside'⟩
    obtain ⟨inGrown, values⟩ := (define x vs size' (count.trans same)).1 inside'
    rw [exchange _ (by simp [size', count]), grow _ (by simp),
      exchanges.readAt_eq inside size' (by rw [count])] at inGrown
    exact ⟨_, ⟨vs, values, rfl⟩, inGrown⟩
  · rintro ⟨_, ⟨vs, values, rfl⟩, inOld⟩
    have count : vs.length = dims.length := values.length_eq.symm.trans same.symm
    have size' : x.length = size := by simpa using length _ inOld
    refine ⟨vs, count, size', (define x vs size' (count.trans same)).2 ⟨?_, values⟩⟩
    rwa [exchange _ (by simp [size', count]), grow _ (by simp),
      exchanges.readAt_eq inside size' (by rw [count])]

end Steps

end Enclosure
