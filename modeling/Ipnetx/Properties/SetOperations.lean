import Ipnetx.Properties.Runs

/-! # The Set Operations against Plain Algorithms

    Each fast operation of `IpSet` is compared with the obvious way to
    compute the same thing, as an equality of range vectors:

    - `union` with one builder that sorts the concatenation,
    - `difference` with removing one range at a time (`plainDifference`),
    - `intersection` with the comprehension over all pairs
      (`pairwiseOverlaps`),
    - `complement` with subtraction from the full set. -/

namespace Ipnetx

open Machine IpAddress IpSetBuilder

variable {A : Type} [IpAddress A]

/-! ## Section 1: Union -/

/-- A bracketing of unions over one-range sets. -/
inductive UnionTree (A : Type) where
  | empty
  | one (r : IpRange A)
  | node (l r : UnionTree A)

namespace UnionTree

/-- The ranges at the leaves, from left to right. -/
def leaves {A : Type} : UnionTree A → List (IpRange A)
  | .empty => []
  | .one r => [r]
  | .node l r => l.leaves ++ r.leaves

/-- Build the one-range sets and take the unions. -/
def eval [SortUnstableByKey (IpRange A) A] : UnionTree A → Result (IpSet A)
  | .empty => run .new []
  | .one r => run .new [.addRange r]
  | .node l r => do
      let a ← l.eval
      let b ← r.eval
      a.union b

end UnionTree

section
variable [SortUnstableByKey (IpRange A) A]

/-- One builder with all the ranges. -/
theorem run_addRange_represents (rs : List (IpRange A)) :
    ∃ s, run .new (rs.map .addRange) = .ok s ∧ s.Represents (rangesSet rs) := by
  have hsets : SetsSatisfy IpSet.Normalized (rs.map (Call.addRange (A := A))) := by
    intro c hc t ht
    obtain ⟨r, _, rfl⟩ := List.mem_map.mp hc
    cases ht
  obtain ⟨s, hs, hrep⟩ := run_represents .new hsets
  refine ⟨s, hs, ?_⟩
  rw [removed_map_addRange, Set.sdiff_empty] at hrep
  rwa [← added_map_addRange]

theorem UnionTree.eval_represents (t : UnionTree A) :
    ∃ s, t.eval = .ok s ∧ s.Represents (rangesSet t.leaves) := by
  induction t with
  | empty => exact run_addRange_represents []
  | one r => exact run_addRange_represents [r]
  | node l r ihl ihr =>
    obtain ⟨a, ha, hla⟩ := ihl
    obtain ⟨b, hb, hrb⟩ := ihr
    rw [leaves, rangesSet_append, eval, ha, hb]
    exact IpSet.union_represents hla hrb

/-- **Union.**  The sort-free merge contains the addresses of either set and equals the
    set of one builder; unions of one-range sets, in any order and bracketing, equal the
    set of one builder with all the ranges. -/
theorem union_eq_build {a b : IpSet A} (ha : Reachable a) (hb : Reachable b) :
    (∃ s, a.union b = .ok s ∧
      (∀ ip, s.containsIp ip = true ↔ a.containsIp ip = true ∨ b.containsIp ip = true) ∧
      run .new [.addIpset a, .addIpset b] = .ok s) ∧
    ∀ (t : UnionTree A) (rs : List (IpRange A)), t.leaves.Perm rs →
      ∃ s, t.eval = .ok s ∧ run .new (rs.map .addRange) = .ok s := by
  constructor
  · obtain ⟨s, hs, hrep⟩ := IpSet.union_represents ha.represents hb.represents
    have hsets : SetsSatisfy IpSet.Normalized [Call.addIpset a, Call.addIpset b] := by
      intro c hc t ht
      rcases List.mem_cons.mp hc with rfl | hc
      · cases ht
        exact ha.normalized
      · rw [List.mem_singleton.mp hc] at ht
        cases ht
        exact hb.normalized
    obtain ⟨s', hs', hrep'⟩ := run_represents .new hsets
    refine ⟨s, hs, hrep.mem_iff, ?_⟩
    -- both represent the union of the two address sets
    have hsame : a.addrs ∪ b.addrs =
        added [Call.addIpset a, Call.addIpset b] \ removed [Call.addIpset a, Call.addIpset b] := by
      apply Set.ext
      intro ip
      simp [added, removed, Call.adds, Call.removes]
    rw [hs', hrep.unique (hsame ▸ hrep')]
  · intro t rs hperm
    obtain ⟨s, hs, hrep⟩ := t.eval_represents
    obtain ⟨s', hs', hrep'⟩ := run_addRange_represents rs
    rw [← rangesSet_perm hperm] at hrep'
    exact ⟨s, hs, by rw [hs', hrep.unique hrep']⟩

/-- The two sets fill each other's gaps. -/
theorem union_eq_build_sampleSet :
    ∃ s, sampleSet.union oddSet = .ok s ∧
      @run Ipv4Addr _ (.ofInsertionSort _ _) .new [.addIpset sampleSet, .addIpset oddSet] =
        .ok s := by
  obtain ⟨⟨s, hs, _, hrun⟩, _⟩ :=
    @union_eq_build Ipv4Addr _ (.ofInsertionSort _ _) _ _ reachable_sampleSet reachable_oddSet
  exact ⟨s, hs, hrun⟩

end

/-! ## Section 2: Difference -/

/-- The next address. -/
def succAddr (a : A) : A := fromU128 (toU128 a + 1)

/-- The previous address. -/
def predAddr (a : A) : A := fromU128 (toU128 a - 1)

/-- Take the removal `b` out of the range `r`, by cases: no overlap (keep), fully covered
    (drop), clips left (trim start), clips right (trim end), middle (split in two). -/
def cutRange (b r : IpRange A) : List (IpRange A) :=
  if r.end_ < b.start ∨ b.end_ < r.start then [r]
  else if b.start ≤ r.start ∧ r.end_ ≤ b.end_ then []
  else if b.start ≤ r.start then [IpRange.new (succAddr b.end_) r.end_]
  else if r.end_ ≤ b.end_ then [IpRange.new r.start (predAddr b.start)]
  else [IpRange.new r.start (predAddr b.start), IpRange.new (succAddr b.end_) r.end_]

/-- Take the removals out one at a time, each from every current range. -/
def plainDifference (ranges removals : List (IpRange A)) : List (IpRange A) :=
  removals.foldl (fun current b => current.flatMap (cutRange b)) ranges

theorem val_succAddr {a b : A} (h : a < b) : val (succAddr a) = val a + 1 := by
  have hlt := lt_iff_val.mp h
  have hb := val_lt b
  have hadd : (toU128 a + 1).toNat = val a + 1 := by
    have hspace := two_pow_bits_le (A := A)
    exact Word.toNat_add_of_lt (show val a + 1 < 2 ^ 128 by omega)
  rw [succAddr, val_fromU128 (by omega), hadd]

theorem val_predAddr {a b : A} (h : a < b) : val (predAddr b) = val b - 1 := by
  have hlt := lt_iff_val.mp h
  have hb := val_lt b
  have hsub : (toU128 b - 1).toNat = val b - 1 :=
    Word.toNat_sub_of_le (show 1 ≤ val b by omega)
  rw [predAddr, val_fromU128 (by omega), hsub]

/-- The five cases on addresses are the five cases on numbers. -/
theorem segs_cutRange (b r : IpRange A) : segs (cutRange b r) = Segment.cut b.seg r.seg := by
  have hapart : r.end_ < b.start ∨ b.end_ < r.start ↔ r.seg.hi < b.seg.lo ∨ b.seg.hi < r.seg.lo :=
    or_congr lt_iff_val lt_iff_val
  have hleft : b.start ≤ r.start ↔ b.seg.lo ≤ r.seg.lo := le_iff_val
  have hright : r.end_ ≤ b.end_ ↔ r.seg.hi ≤ b.seg.hi := le_iff_val
  -- a trimmed start lies past the removal's end, a trimmed end before its start
  have hsucc : ¬ r.end_ ≤ b.end_ → val (succAddr b.end_) = b.seg.hi + 1 :=
    fun h => val_succAddr (not_le.mp h)
  have hpred : ¬ b.start ≤ r.start → val (predAddr b.start) = b.seg.lo - 1 :=
    fun h => val_predAddr (not_le.mp h)
  unfold cutRange Segment.cut
  simp only [← hapart, ← hleft, ← hright]
  split
  · rfl
  · split
    · rfl
    · next hnot =>
      split
      · next hl =>
        -- the removal covers the start
        rw [segs_cons, IpRange.seg_new, hsucc fun hr => hnot ⟨hl, hr⟩]
        rfl
      · next hl =>
        split
        · -- the removal covers the end
          rw [segs_cons, IpRange.seg_new, hpred hl]
          rfl
        · next hr =>
          -- the removal lies inside
          rw [segs_cons, segs_cons, IpRange.seg_new, IpRange.seg_new, hpred hl, hsucc hr]
          rfl

theorem segs_plainDifference (ranges removals : List (IpRange A)) :
    segs (plainDifference ranges removals) = Segment.cutAll (segs ranges) (segs removals) := by
  unfold plainDifference Segment.cutAll
  induction removals generalizing ranges with
  | nil => rfl
  | cons b removals ih =>
    rw [List.foldl_cons, segs_cons, List.foldl_cons, ih]
    congr 1
    unfold segs
    rw [List.map_flatMap, List.flatMap_map]
    exact List.flatMap_congr fun r _ => segs_cutRange b r

section
variable [SortUnstableByKey (IpRange A) A]

/-- **Difference.**  The one-pass walk contains the addresses of the first set outside the
    second, and its ranges are those of the plain algorithm, in whatever order that takes
    the removals. -/
theorem difference_eq_plain {a b : IpSet A} (ha : Reachable a) (hb : Reachable b) :
    ∃ s, a.difference b = .ok s ∧
      (∀ ip, s.containsIp ip = true ↔ a.containsIp ip = true ∧ ¬ b.containsIp ip = true) ∧
      ∀ removals : List (IpRange A), removals.Perm b.ranges →
        s.ranges = plainDifference a.ranges removals := by
  obtain ⟨s, hs, hrep⟩ := IpSet.difference_represents ha.represents hb.represents
  refine ⟨s, hs, hrep.mem_iff, ?_⟩
  intro removals hperm
  obtain ⟨s', hs', hview⟩ := IpSet.difference_refines a b
  rw [hs, Except.ok.injEq] at hs'
  subst hs'
  have hplain : Segment.cutAll (segs a.ranges) (segs removals) = Segment.subtract a.view b.view :=
    Segment.cutAll_eq_subtract ha.normalized hb.normalized (segs_perm hperm)
  apply segs_injective
  rw [segs_plainDifference, hplain]
  exact hview

/-- A removal that clips the first range and covers the second. -/
theorem difference_eq_plain_sampleSet :
    ∃ s, sampleSet.difference (IpSet.new [IpRange.new ⟨2⟩ ⟨7⟩]) = .ok s ∧
      s.ranges = plainDifference sampleSet.ranges [IpRange.new ⟨2⟩ ⟨7⟩] := by
  have hremoval : @Reachable Ipv4Addr _ (.ofInsertionSort _ _) (IpSet.new [IpRange.new ⟨2⟩ ⟨7⟩]) :=
    @Reachable.of_source _ _ (.ofInsertionSort _ _) (.fromRanges [IpRange.new ⟨2⟩ ⟨7⟩]) _
      (by decide +kernel)
  obtain ⟨s, hs, _, hplain⟩ :=
    @difference_eq_plain Ipv4Addr _ (.ofInsertionSort _ _) _ _ reachable_sampleSet hremoval
  exact ⟨s, hs, hplain _ (List.Perm.refl _)⟩

end

/-! ## Section 3: Intersection -/

/-- `[max(r.start, s.start), min(r.end, s.end)]`, possibly empty. -/
def overlapRange (r s : IpRange A) : IpRange A :=
  IpRange.new (max r.start s.start) (min r.end_ s.end_)

/-- The non-empty overlaps over all pairs of ranges. -/
def pairwiseOverlaps (xs ys : List (IpRange A)) : List (IpRange A) :=
  (xs.flatMap fun r => ys.map (overlapRange r)).filter IpRange.isValid

theorem seg_overlapRange (r s : IpRange A) :
    (overlapRange r s).seg = ⟨max r.seg.lo s.seg.lo, min r.seg.hi s.seg.hi⟩ := by
  unfold overlapRange
  rw [IpRange.seg_new, val_max, val_min]
  rfl

/-- Two valid ranges meet exactly when their overlap is not empty. -/
theorem isValid_overlapRange {r s : IpRange A} (hr : r.isValid = true) (hs : s.isValid = true) :
    (overlapRange r s).isValid = true ↔ Segment.Meets r.seg s.seg := by
  have hrv : r.seg.lo ≤ r.seg.hi := IpRange.isValid_iff.mp hr
  have hsv : s.seg.lo ≤ s.seg.hi := IpRange.isValid_iff.mp hs
  rw [IpRange.isValid_iff, seg_overlapRange]
  show max r.seg.lo s.seg.lo ≤ min r.seg.hi s.seg.hi ↔ _
  unfold Segment.Meets
  omega

/-- On valid ranges the comprehension over ranges is the one over segments. -/
theorem segs_pairwiseOverlaps {xs ys : List (IpRange A)} (hxs : ∀ r ∈ xs, r.isValid = true)
    (hys : ∀ s ∈ ys, s.isValid = true) :
    segs (pairwiseOverlaps xs ys) = Segment.overlaps (segs xs) (segs ys) := by
  unfold pairwiseOverlaps Segment.overlaps segs
  rw [List.filter_flatMap, List.map_flatMap, List.flatMap_map]
  apply List.flatMap_congr
  intro r hr
  rw [List.filter_map, List.map_map, List.filterMap_map, ← List.filterMap_eq_map,
    List.filterMap_filter]
  apply List.filterMap_congr
  intro s hs
  have hvalid := isValid_overlapRange (hxs r hr) (hys s hs)
  by_cases hmeets : Segment.Meets r.seg s.seg
  · simp [Segment.overlap, hmeets, hvalid.mpr hmeets, seg_overlapRange]
  · simp [Segment.overlap, hmeets, hvalid.not.mpr hmeets]

section
variable [SortUnstableByKey (IpRange A) A]

/-- **Intersection.**  The ranges are the non-empty pairwise overlaps, ascending and each
    once; so an address is contained when both sets contain it. -/
theorem intersection_eq_pairwiseOverlaps {a b : IpSet A} (ha : Reachable a) (hb : Reachable b) :
    ∃ s, a.intersection b = .ok s ∧ s.ranges = pairwiseOverlaps a.ranges b.ranges ∧
      s.ranges.Pairwise (fun x y => x.end_ < y.start) ∧ s.ranges.Nodup ∧
      ∀ ip, s.containsIp ip = true ↔ a.containsIp ip = true ∧ b.containsIp ip = true := by
  obtain ⟨s, hs, hrep⟩ := IpSet.intersection_represents ha.represents hb.represents
  obtain ⟨s', hs', hview⟩ := IpSet.intersection_refines a b
  rw [hs, Except.ok.injEq] at hs'
  subst hs'
  have hpair : s.ranges.Pairwise fun x y => x.end_ < y.start :=
    (List.pairwise_map.mp hrep.normalized.separated).imp fun h => lt_iff_val.mpr h.hi_lt_lo
  refine ⟨s, hs, ?_, hpair, ?_, hrep.mem_iff⟩
  · apply segs_injective
    rw [segs_pairwiseOverlaps (fun _ hr => ha.normalized.isValid hr)
      fun _ hr => hb.normalized.isValid hr]
    exact hview.trans (Segment.intersect_eq_overlaps ha.normalized hb.normalized)
  · -- a repeated range would end before it starts
    refine hpair.imp_of_mem ?_
    rintro x _ hx _ hlt rfl
    exact absurd (hlt.trans_le (of_decide_eq_true (hrep.normalized.isValid hx))) (lt_irrefl _)

/-- Of the four pairs of ranges one overlaps. -/
theorem intersection_eq_pairwiseOverlaps_sampleSet :
    ∃ s, sampleSet.intersection oddSet = .ok s ∧
      s.ranges = pairwiseOverlaps sampleSet.ranges oddSet.ranges := by
  obtain ⟨s, hs, hranges, _⟩ := @intersection_eq_pairwiseOverlaps Ipv4Addr _ (.ofInsertionSort _ _)
    _ _ reachable_sampleSet reachable_oddSet
  exact ⟨s, hs, hranges⟩

end

/-! ## Section 4: Complement -/

/-- From the family's first to its last address. -/
def fullRange (A : Type) [IpAddress A] : IpRange A :=
  IpRange.new (fromU128 0) (fromU128 (maxAddr A))

theorem fullRange_represents : (IpSet.new [fullRange A]).Represents Set.univ := by
  have hmax := toNat_maxAddr (A := A)
  have hpos := Nat.two_pow_pos (bits A)
  have hlo : val (fromU128 0 : A) = 0 := val_fromU128 hpos
  have hhi : val (fromU128 (maxAddr A) : A) = 2 ^ bits A - 1 := by
    rw [val_fromU128 (by omega), hmax]
  apply IpSet.represents_of_cover
  · apply Segment.Canonical.singleton
    show val (fromU128 0 : A) ≤ val (fromU128 (maxAddr A) : A)
    rw [hlo]
    exact Nat.zero_le _
  · intro ip
    have hip := val_lt ip
    rw [IpSet.view_new, segs_cons, segs_nil, Segment.mem_cover_singleton]
    show val (fromU128 0 : A) ≤ val ip ∧ val ip ≤ val (fromU128 (maxAddr A) : A) ↔ _
    rw [hlo, hhi]
    exact iff_of_true ⟨Nat.zero_le _, Nat.le_sub_one_of_lt hip⟩ trivial

section
variable [SortUnstableByKey (IpRange A) A]

/-- **Complement.**  It contains the addresses that the set does not, equals the difference
    of the one-range full set and the set, and is its own inverse. -/
theorem complement_exact {a : IpSet A} (ha : Reachable a) :
    ∃ s full, a.complement = .ok s ∧
      (∀ ip, s.containsIp ip = true ↔ ¬ a.containsIp ip = true) ∧
      run .new [.addRange (fullRange A)] = .ok full ∧ full.ranges = [fullRange A] ∧
      full.difference a = .ok s ∧ s.complement = .ok a := by
  obtain ⟨s, hs, hrep⟩ := IpSet.complement_represents ha.represents
  have hfull := fullRange_represents (A := A)
  -- the builder makes the one-range full set
  obtain ⟨full, hrun, hbuilt⟩ := run_addRange_represents [fullRange A]
  rw [show rangesSet [fullRange A] = Set.univ from hfull.rangesSet_eq] at hbuilt
  rw [hbuilt.unique hfull] at hrun
  obtain ⟨d, hd, hdrep⟩ := IpSet.difference_represents hfull ha.represents
  rw [← Set.compl_eq_univ_sdiff] at hdrep
  rw [hdrep.unique hrep] at hd
  obtain ⟨c, hc, hcrep⟩ := IpSet.complement_represents hrep
  rw [compl_compl] at hcrep
  rw [hcrep.unique ha.represents] at hc
  exact ⟨s, IpSet.new [fullRange A], hs, hrep.mem_iff, hrun, rfl, hd, hc⟩

/-- The complement of the sample set has a head, an interior and a tail gap. -/
theorem complement_exact_sampleSet :
    ∃ s, sampleSet.complement = .ok s ∧ s.complement = .ok sampleSet := by
  obtain ⟨s, _, hs, _, _, _, _, hback⟩ :=
    @complement_exact Ipv4Addr _ (.ofInsertionSort _ _) _ reachable_sampleSet
  exact ⟨s, hs, hback⟩

end

end Ipnetx
