import Ipnetx.Refinement.Queries
import Ipnetx.Properties.SetOperations

/-! # Queries on Reachable Sets

    The queries of a set answer for its addresses, and they agree with each
    other and with the set operations although each is written separately:

    - `containsIp_iff_scan`: binary search and linear scan.
    - `containsRange_iff`: one binary search for a whole range.
    - `isSubsetOf_iff`, `overlapsIpSet_iff`: the walks over two sets.
    - `count_exact`: the sums of range sizes. -/

namespace Ipnetx

open Machine IpAddress IpSetBuilder

variable {A : Type} [IpAddress A]

/-! ## Section 1: Membership -/

/-- At most one stored range compares equal to an address. -/
private theorem length_le_one_of_contain {rs : List (IpRange A)}
    (h : Segment.Canonical (segs rs)) {ip : A} (hall : ∀ r ∈ rs, val ip ∈ r.seg) :
    rs.length ≤ 1 := by
  match rs, h, hall with
  | [], _, _ => exact Nat.zero_le 1
  | [_], _, _ => exact le_rfl
  | r :: s :: rest, h, hall =>
    -- a range separated from `r` has other addresses
    have hlt := (h.head_separated (t := s.seg) List.mem_cons_self).hi_lt_lo
    have hr := (hall r List.mem_cons_self).2
    have hs := (hall s (List.mem_cons_of_mem _ List.mem_cons_self)).1
    omega

section
variable [SortUnstableByKey (IpRange A) A]

/-- **Membership.**  The binary search finds an address exactly when the linear scan does;
    along the stored ranges the comparator is `Less`, then at most once `Equal`, then
    `Greater`. -/
theorem containsIp_iff_scan {s : IpSet A} (hs : Reachable s) (ip : A) :
    (s.containsIp ip = true ↔ ∃ r ∈ s.ranges, r.contains ip = true) ∧
    ∃ ls es gs, s.ranges = ls ++ es ++ gs ∧ es.length ≤ 1 ∧
      (∀ r ∈ ls, IpSet.compareIp ip r = .lt) ∧ (∀ r ∈ es, IpSet.compareIp ip r = .eq) ∧
      ∀ r ∈ gs, IpSet.compareIp ip r = .gt := by
  have hnorm := hs.normalized
  refine ⟨(IpSet.containsIp_iff hnorm).trans mem_cover_segs, ?_⟩
  obtain ⟨ls, es, gs, hsplit, hls, hes, hgs⟩ := (IpSet.partitioned_compareIp hnorm ip).split
  have hcanonical : Segment.Canonical (segs ls ++ segs es ++ segs gs) := by
    rw [← segs_append, ← segs_append, ← hsplit]
    exact hnorm
  have hone := length_le_one_of_contain hcanonical.of_prefix.of_suffix
    fun r hr => IpSet.compareIp_eq_iff.mp (hes r hr)
  exact ⟨ls, es, gs, hsplit, hone, hls, hes, hgs⟩

/-- The gap of the sample set is in no range, the address after it is in one. -/
theorem containsIp_iff_scan_sampleSet :
    sampleSet.containsIp ⟨4⟩ = true ∧ ¬ ∃ r ∈ sampleSet.ranges, r.contains ⟨3⟩ = true := by
  have hscan := fun ip =>
    (@containsIp_iff_scan Ipv4Addr _ (.ofInsertionSort _ _) _ reachable_sampleSet ip).1
  constructor
  · exact (hscan ⟨4⟩).mpr ⟨IpRange.new ⟨4⟩ ⟨4⟩, by decide, by decide⟩
  · exact (hscan ⟨3⟩).not.mp (by decide +kernel)

/-- A valid range is what one builder makes of it. -/
private theorem run_single {q : IpRange A} (hq : q.isValid = true) :
    run .new [.addRange q] = .ok (IpSet.new [q]) ∧
      (IpSet.new [q]).Represents (rangesSet [q]) := by
  have hrep : (IpSet.new [q]).Represents (rangesSet [q]) :=
    IpSet.represents_of_cover (Segment.Canonical.singleton (IpRange.isValid_iff.mp hq))
      fun _ => mem_rangesSet.symm
  obtain ⟨u, hrun, hbuilt⟩ := run_addRange_represents [q]
  rw [hbuilt.unique hrep] at hrun
  exact ⟨hrun, hrep⟩

/-- **Ranges.**  A range is contained when it is valid and all its addresses are; for a valid
    range this is inclusion of the one-range set. -/
theorem containsRange_iff {s : IpSet A} (hs : Reachable s) (q : IpRange A) :
    ∃ c, s.containsRange q = .ok c ∧
      (c = true ↔ q.isValid = true ∧ ∀ ip, q.contains ip = true → s.containsIp ip = true) ∧
      (q.isValid = true → ∃ single, run .new [.addRange q] = .ok single ∧
        single.ranges = [q] ∧ single.isSubsetOf s = .ok c) := by
  obtain ⟨c, hc, hiff⟩ := IpSet.containsRange_represents hs.represents q
  refine ⟨c, hc, hiff, ?_⟩
  intro hq
  obtain ⟨hrun, hrep⟩ := run_single hq
  obtain ⟨c', hc', hiff'⟩ := IpSet.isSubsetOf_represents hrep hs.represents
  -- both ask whether the addresses of `q` are in the set
  have hsame : c' = c := by
    rw [Bool.eq_iff_iff, hiff, hiff', and_iff_right hq]
    exact forall_congr' fun ip => imp_congr (by simp [rangesSet]) Iff.rfl
  exact ⟨IpSet.new [q], hrun, rfl, hsame ▸ hc'⟩

/-- A query across the gap is not contained, though its end points are. -/
theorem containsRange_iff_sampleSet :
    ∃ c, sampleSet.containsRange (IpRange.new ⟨2⟩ ⟨4⟩) = .ok c ∧ ¬ c = true ∧
      ∃ single : IpSet Ipv4Addr, single.ranges = [IpRange.new ⟨2⟩ ⟨4⟩] ∧
        single.isSubsetOf sampleSet = .ok c := by
  obtain ⟨c, hc, hiff, hsingle⟩ := @containsRange_iff Ipv4Addr _ (.ofInsertionSort _ _) _
    reachable_sampleSet (IpRange.new ⟨2⟩ ⟨4⟩)
  obtain ⟨single, _, hranges, hsubset⟩ := hsingle (by decide)
  have hgap : ¬ sampleSet.containsIp ⟨3⟩ = true := by decide +kernel
  exact ⟨c, hc, fun h => hgap ((hiff.mp h).2 ⟨3⟩ (by decide)), single, hranges, hsubset⟩

/-! ## Section 2: Two sets -/

/-- **Inclusion.**  The walk decides inclusion, and agrees with an empty difference, an
    unchanged intersection, an unchanged union and the superset test. -/
theorem isSubsetOf_iff {a b : IpSet A} (ha : Reachable a) (hb : Reachable b) :
    ∃ c, a.isSubsetOf b = .ok c ∧ b.isSupersetOf a = .ok c ∧
      (c = true ↔ ∀ ip, a.containsIp ip = true → b.containsIp ip = true) ∧
      (∃ d, a.difference b = .ok d ∧ (c = true ↔ d.isEmpty = true)) ∧
      (∃ i, a.intersection b = .ok i ∧ (c = true ↔ i = a)) ∧
      ∃ u, a.union b = .ok u ∧ (c = true ↔ u = b) := by
  have hra := ha.represents
  have hrb := hb.represents
  obtain ⟨c, hc, hiff⟩ := IpSet.isSubsetOf_represents hra hrb
  obtain ⟨d, hd, hdrep⟩ := IpSet.difference_represents hra hrb
  obtain ⟨i, hi, hirep⟩ := IpSet.intersection_represents hra hrb
  obtain ⟨u, hu, hurep⟩ := IpSet.union_represents hra hrb
  refine ⟨c, hc, hc, hiff, ⟨d, hd, ?_⟩, ⟨i, hi, ?_⟩, ⟨u, hu, ?_⟩⟩
  · rw [hiff, hdrep.isEmpty_iff, Set.sdiff_eq_empty]
  · rw [hiff, hirep.eq_iff hra, Set.inter_eq_left]
  · rw [hiff, hurep.eq_iff hrb, Set.union_eq_right]

/-- The address `3` is missing in the sample set, so it is left in the difference. -/
theorem isSubsetOf_iff_sampleSet :
    ∃ c d, oddSet.isSubsetOf sampleSet = .ok c ∧ ¬ c = true ∧
      oddSet.difference sampleSet = .ok d ∧ ¬ d.isEmpty = true := by
  obtain ⟨c, hc, _, hincl, ⟨d, hd, hempty⟩, _⟩ :=
    @isSubsetOf_iff Ipv4Addr _ (.ofInsertionSort _ _) _ _ reachable_oddSet reachable_sampleSet
  have hmissing : ¬ sampleSet.containsIp ⟨3⟩ = true := by decide +kernel
  have hnot : ¬ c = true := fun h => hmissing (hincl.mp h ⟨3⟩ (by decide +kernel))
  exact ⟨c, d, hc, hnot, hd, fun h => hnot (hempty.mpr h)⟩

/-- **Overlap.**  The walk decides whether there is a common address; it is symmetric and
    agrees with the intersection. -/
theorem overlapsIpSet_iff {a b : IpSet A} (ha : Reachable a) (hb : Reachable b) :
    ∃ c, a.overlapsIpSet b = .ok c ∧ b.overlapsIpSet a = .ok c ∧
      (c = true ↔ ∃ ip, a.containsIp ip = true ∧ b.containsIp ip = true) ∧
      ∃ i, a.intersection b = .ok i ∧ c = !i.isEmpty := by
  have hra := ha.represents
  have hrb := hb.represents
  obtain ⟨c, hc, hiff⟩ := IpSet.overlapsIpSet_represents hra hrb
  obtain ⟨c', hc', hiff'⟩ := IpSet.overlapsIpSet_represents hrb hra
  obtain ⟨i, hi, hirep⟩ := IpSet.intersection_represents hra hrb
  -- the tie rule is not symmetric, the answer is
  have hsame : c' = c := by
    rw [Bool.eq_iff_iff, hiff, hiff', Set.inter_comm]
  refine ⟨c, hc, hsame ▸ hc', hiff, i, hi, ?_⟩
  rw [Bool.eq_iff_iff, hiff, Bool.not_eq_true', ← Bool.not_eq_true, hirep.isEmpty_iff,
    Set.nonempty_iff_ne_empty]

/-- The address `1` is in both sets. -/
theorem overlapsIpSet_iff_sampleSet :
    ∃ c, sampleSet.overlapsIpSet oddSet = .ok c ∧ oddSet.overlapsIpSet sampleSet = .ok c ∧
      c = true := by
  obtain ⟨c, hc, hc', hiff, _⟩ := @overlapsIpSet_iff Ipv4Addr _ (.ofInsertionSort _ _) _ _
    reachable_sampleSet reachable_oddSet
  exact ⟨c, hc, hc', hiff.mpr ⟨⟨1⟩, by decide +kernel, by decide +kernel⟩⟩

/-! ## Section 3: Counts -/

/-- **Counts.**  Both counts are the number of addresses, as far as a word can hold it; only
    the full space of a family of 128 bits is too large.  For any other set the sum after
    any number of ranges is the exact number of their addresses. -/
theorem count_exact {s : IpSet A} (hs : Reachable s) :
    ∃ c o, s.count = .ok c ∧ s.countChecked = .ok o ∧
      c.toNat = min s.addrs.ncard (2 ^ 128 - 1) ∧
      (s.addrs.ncard < 2 ^ 128 → ∃ n, o = some n ∧ n.toNat = s.addrs.ncard) ∧
      (¬ s.addrs.ncard < 2 ^ 128 → o = none) ∧
      (o = none ↔ bits A = 128 ∧ ∀ ip, s.containsIp ip = true) ∧
      (o ≠ none → ∀ done rest, s.ranges = done ++ rest → ∃ n,
        (IpSet.new done).count = .ok n ∧ (IpSet.new done).countChecked = .ok (some n) ∧
          n.toNat = (rangesSet done).ncard) := by
  obtain ⟨c, hc, hval⟩ := IpSet.count_represents hs.represents
  obtain ⟨o, ho, hiff⟩ := IpSet.countChecked_represents hs.represents
  have hsome : s.addrs.ncard < 2 ^ 128 → ∃ n, o = some n ∧ n.toNat = s.addrs.ncard := by
    intro hlt
    obtain ⟨n, _, hn, hexact⟩ := IpSet.counts_of_lt hs.represents hlt
    exact ⟨n, Except.ok.inj (ho.symm.trans hn), hexact⟩
  have hnone : ¬ s.addrs.ncard < 2 ^ 128 → o = none := by
    intro hge
    rw [Option.eq_none_iff_forall_ne_some]
    intro n hn
    exact hge ((hiff n).mp hn ▸ n.isLt)
  have hfull : o = none ↔ bits A = 128 ∧ ∀ ip, s.containsIp ip = true := by
    have huniv : s.addrs = Set.univ ↔ ∀ ip, s.containsIp ip = true := Set.eq_univ_iff_forall
    rw [← huniv, ← IpSet.two_pow_le_ncard_iff, ← not_lt]
    constructor
    · intro h hlt
      obtain ⟨n, hn, _⟩ := hsome hlt
      rw [h] at hn
      cases hn
    · exact hnone
  refine ⟨c, o, hc, ho, hval, hsome, hnone, hfull, ?_⟩
  intro hne done rest hsplit
  obtain ⟨hdone, hsub⟩ := hs.represents.initial hsplit
  have hfinite : Finite A := IpSet.finite_addresses
  have hlt : s.addrs.ncard < 2 ^ 128 := by
    by_contra hge
    exact hne (hnone hge)
  exact IpSet.counts_of_lt hdone ((Set.ncard_le_ncard hsub).trans_lt hlt)

/-- The sample set is not the full IPv6 space, so both counts return the same word. -/
theorem count_exact_sampleSet :
    ∃ n, sampleSet.count = .ok n ∧ sampleSet.countChecked = .ok (some n) := by
  obtain ⟨_, o, _, _, _, _, _, hfull, hparts⟩ :=
    @count_exact Ipv4Addr _ (.ofInsertionSort _ _) _ reachable_sampleSet
  have hne : o ≠ none := fun h => absurd (hfull.mp h).1 (by decide)
  obtain ⟨n, hn, hn', _⟩ := hparts hne sampleSet.ranges [] rfl
  exact ⟨n, hn, hn'⟩

end

end Ipnetx
