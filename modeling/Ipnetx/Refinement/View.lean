import Ipnetx.Model.IpSet
import Ipnetx.Segment.Subtract

/-! # The Abstract View of Ranges and Sets

    A range is viewed as the segment of its endpoints' numeric values, a
    list of ranges as a segment list.  The view is injective, so statements
    about the vectors of the code are statements about segment lists, where
    the theory of `Ipnetx.Segment` applies.

    `Normalized` is the representation invariant of a set: its view is a
    canonical list. -/

namespace Ipnetx

open Machine IpAddress

variable {A : Type} [IpAddress A]

/-! ## Section 1: Ranges -/

/-- The range as a segment of numbers. -/
def IpRange.seg (r : IpRange A) : Segment ℕ := ⟨val r.start, val r.end_⟩

/-- A list of ranges as a list of segments. -/
def segs (rs : List (IpRange A)) : List (Segment ℕ) := rs.map IpRange.seg

@[simp] theorem segs_nil : segs ([] : List (IpRange A)) = [] := rfl

@[simp] theorem segs_cons (r : IpRange A) (rs : List (IpRange A)) :
    segs (r :: rs) = r.seg :: segs rs := rfl

@[simp] theorem segs_append (rs ss : List (IpRange A)) : segs (rs ++ ss) = segs rs ++ segs ss :=
  List.map_append

theorem mem_segs {rs : List (IpRange A)} {s : Segment ℕ} :
    s ∈ segs rs ↔ ∃ r ∈ rs, r.seg = s :=
  List.mem_map

theorem seg_mem_segs {rs : List (IpRange A)} {r : IpRange A} (h : r ∈ rs) : r.seg ∈ segs rs :=
  List.mem_map_of_mem h

theorem segs_perm {rs ss : List (IpRange A)} (h : rs.Perm ss) : (segs rs).Perm (segs ss) :=
  h.map _

namespace IpRange

theorem seg_injective : Function.Injective (seg : IpRange A → Segment ℕ) := by
  rintro ⟨s, e⟩ ⟨s', e'⟩ h
  have hlo : val s = val s' := congrArg Segment.lo h
  have hhi : val e = val e' := congrArg Segment.hi h
  rw [val_inj.mp hlo, val_inj.mp hhi]

theorem seg_hi_lt (r : IpRange A) : r.seg.hi < 2 ^ bits A := val_lt r.end_

theorem seg_lo_lt (r : IpRange A) : r.seg.lo < 2 ^ bits A := val_lt r.start

@[simp] theorem seg_new (s e : A) : (IpRange.new s e).seg = ⟨val s, val e⟩ := rfl

theorem isValid_iff {r : IpRange A} : r.isValid = true ↔ r.seg.Valid := by
  unfold isValid
  rw [decide_eq_true_iff, le_iff_val]
  exact Iff.rfl

/-- Both ends of a zero range are the unspecified address. -/
theorem isZero_iff {r : IpRange A} : r.isZero = true ↔ r.seg = ⟨0, 0⟩ := by
  have hval : ∀ a : A, isUnspecified a = true ↔ val a = 0 := by
    intro a
    rw [isUnspecified_iff, ← BitVec.toNat_inj]
    rfl
  unfold isZero
  rw [Bool.and_eq_true, hval, hval]
  show _ ↔ (⟨val r.start, val r.end_⟩ : Segment ℕ) = ⟨0, 0⟩
  rw [Segment.mk.injEq]

theorem contains_iff {r : IpRange A} {ip : A} : r.contains ip = true ↔ val ip ∈ r.seg := by
  have hvalid := isValid_iff (r := r)
  unfold contains
  simp only [Bool.and_eq_true, decide_eq_true_iff, hvalid, le_iff_val]
  constructor
  · exact fun h => ⟨h.1.2, h.2⟩
  · exact fun h => ⟨⟨h.1.trans h.2, h.1⟩, h.2⟩

theorem overlaps_iff {r s : IpRange A} :
    r.overlaps s = true ↔ Segment.Meets r.seg s.seg := by
  have hr := isValid_iff (r := r)
  have hs := isValid_iff (r := s)
  unfold overlaps Segment.Meets
  simp only [Bool.and_eq_true, decide_eq_true_iff, hr, hs, ge_iff_le, le_iff_val, and_assoc]
  exact Iff.rfl

end IpRange

theorem segs_injective : Function.Injective (segs : List (IpRange A) → List (Segment ℕ)) :=
  List.map_injective_iff.mpr IpRange.seg_injective

/-- Every covered number is an address. -/
theorem lt_of_mem_cover_segs {rs : List (IpRange A)} {n : ℕ} (h : n ∈ Segment.cover (segs rs)) :
    n < 2 ^ bits A := by
  obtain ⟨s, hs, hn⟩ := h
  obtain ⟨r, _, rfl⟩ := mem_segs.mp hs
  exact hn.2.trans_lt r.seg_hi_lt

/-- An address is covered when some range contains it. -/
theorem mem_cover_segs {rs : List (IpRange A)} {ip : A} :
    val ip ∈ Segment.cover (segs rs) ↔ ∃ r ∈ rs, r.contains ip = true := by
  constructor
  · intro hin
    obtain ⟨s, hs, hn⟩ := hin
    obtain ⟨r, hr, rfl⟩ := mem_segs.mp hs
    exact ⟨r, hr, IpRange.contains_iff.mpr hn⟩
  · intro hin
    obtain ⟨r, hr, h⟩ := hin
    exact ⟨r.seg, seg_mem_segs hr, IpRange.contains_iff.mp h⟩

/-- Covers agree when they agree on addresses. -/
theorem cover_segs_ext {rs ss : List (IpRange A)}
    (h : ∀ ip : A, val ip ∈ Segment.cover (segs rs) ↔ val ip ∈ Segment.cover (segs ss)) :
    Segment.cover (segs rs) = Segment.cover (segs ss) := by
  apply Set.ext
  intro n
  constructor
  · intro hn
    obtain ⟨ip, rfl⟩ := exists_val (A := A) (lt_of_mem_cover_segs hn)
    exact (h ip).mp hn
  · intro hn
    obtain ⟨ip, rfl⟩ := exists_val (A := A) (lt_of_mem_cover_segs hn)
    exact (h ip).mpr hn

/-! ## Section 2: Sets -/

namespace IpSet

/-- The stored ranges as segments. -/
def view (s : IpSet A) : List (Segment ℕ) := segs s.ranges

/-- The representation invariant. -/
def Normalized (s : IpSet A) : Prop := Segment.Canonical s.view

@[simp] theorem view_new (rs : List (IpRange A)) : (IpSet.new rs).view = segs rs := rfl

/-- No stored address is above the top of the address space. -/
theorem view_hi_le {s : IpSet A} : ∀ x ∈ s.view, x.hi ≤ 2 ^ bits A - 1 := by
  intro x hx
  obtain ⟨r, _, rfl⟩ := mem_segs.mp hx
  exact Nat.le_sub_one_of_lt r.seg_hi_lt

theorem view_hi_lt {s : IpSet A} : ∀ x ∈ s.view, x.hi < 2 ^ bits A :=
  fun x hx => (view_hi_le x hx).trans_lt (Nat.sub_one_lt (Nat.two_pow_pos _).ne')

theorem view_injective : Function.Injective (view : IpSet A → List (Segment ℕ)) := by
  rintro ⟨rs⟩ ⟨ss⟩ h
  exact congrArg _ (segs_injective h)

/-- Endpoints along a canonical list ascend. -/
theorem pairwise_endpoints {rs : List (IpRange A)} (h : Segment.Canonical (segs rs)) :
    rs.Pairwise fun r s => val r.start ≤ val r.end_ ∧ val r.end_ < val s.start ∧
      val s.start ≤ val s.end_ := by
  refine (List.pairwise_map.mp h.separated).imp_of_mem ?_
  intro r s hr hs hsep
  exact ⟨h.valid _ (seg_mem_segs hr), hsep.hi_lt_lo, h.valid _ (seg_mem_segs hs)⟩

/-- Along a canonical list the comparator goes from `Less` over `Equal` to `Greater`, also
    for a query that straddles a gap or is inverted. -/
theorem partitioned_compareRange {rs : List (IpRange A)} (h : Segment.Canonical (segs rs))
    (q : IpRange A) : Partitioned (compareRange q) rs := by
  refine (pairwise_endpoints h).imp ?_
  intro r s hrs
  unfold compareRange
  simp only [gt_iff_lt, lt_iff_val]
  constructor
  · -- starts before `r`, hence before `s`
    intro hgt
    have hlt : val q.start < val r.start := by
      by_contra hge
      rw [if_neg hge] at hgt
      split at hgt <;> cases hgt
    rw [if_pos (by omega)]
  · -- ends past the end of `s`, hence past the end of `r`
    intro hlt
    have hgt : ¬ val q.start < val s.start ∧ val s.end_ < val q.end_ := by
      split at hlt
      · cases hlt
      · next hge =>
        split at hlt
        · next h => exact ⟨hge, h⟩
        · cases hlt
    rw [if_neg (by omega), if_pos (by omega)]

/-- `Equal` means that the query lies inside the stored range. -/
theorem compareRange_eq_iff {q r : IpRange A} :
    compareRange q r = .eq ↔ r.seg.lo ≤ q.seg.lo ∧ q.seg.hi ≤ r.seg.hi := by
  show compareRange q r = .eq ↔ val r.start ≤ val q.start ∧ val q.end_ ≤ val r.end_
  unfold compareRange
  simp only [gt_iff_lt, lt_iff_val]
  split
  · next h =>
    constructor
    · intro hc; cases hc
    · exact fun hm => absurd hm.1 (not_le.mpr h)
  · next h =>
    split
    · next h' =>
      constructor
      · intro hc; cases hc
      · exact fun hm => absurd hm.2 (not_le.mpr h')
    · next h' => exact ⟨fun _ => ⟨not_lt.mp h, not_lt.mp h'⟩, fun _ => rfl⟩

/-- The comparator of an address is that of its one-address range. -/
theorem compareIp_eq_compareRange (ip : A) : compareIp ip = compareRange (IpRange.new ip ip) := rfl

theorem partitioned_compareIp {rs : List (IpRange A)} (h : Segment.Canonical (segs rs)) (ip : A) :
    Partitioned (compareIp ip) rs :=
  partitioned_compareRange h (IpRange.new ip ip)

theorem compareIp_eq_iff {ip : A} {r : IpRange A} :
    compareIp ip r = .eq ↔ val ip ∈ r.seg := by
  rw [compareIp_eq_compareRange, compareRange_eq_iff]
  exact Iff.rfl

/-- The binary search agrees with the points of the set. -/
theorem containsIp_iff {s : IpSet A} (h : s.Normalized) {ip : A} :
    s.containsIp ip = true ↔ val ip ∈ Segment.cover s.view := by
  have hsearch := binarySearchBy_isOk_iff (partitioned_compareIp h ip)
  have hmem : (∃ r ∈ s.ranges, compareIp ip r = .eq) ↔ val ip ∈ Segment.cover s.view := by
    simp only [compareIp_eq_iff, view, mem_cover_segs, IpRange.contains_iff]
  rw [← hmem, ← hsearch]
  unfold containsIp
  cases binarySearchBy s.ranges (compareIp ip) <;> simp

/-- Normalized sets that contain the same addresses are equal. -/
theorem Normalized.ext {s t : IpSet A} (hs : s.Normalized) (ht : t.Normalized)
    (h : ∀ ip, s.containsIp ip = true ↔ t.containsIp ip = true) : s = t := by
  refine view_injective (Segment.Canonical.ext hs ht (cover_segs_ext ?_))
  intro ip
  have := h ip
  rwa [containsIp_iff hs, containsIp_iff ht] at this

end IpSet

end Ipnetx
