import Ipnetx.Refinement.Build

/-! # Runs of the Program

    What holds of every run, whatever calls it makes and in whatever order:

    - `build_contains_iff`: what a builder builds depends only on what its
      calls cover, not on their order.
    - `reachable_invariant`: the representation invariant in terms of the
      stored ranges. -/

namespace Ipnetx

open Machine IpAddress IpSetBuilder

variable {A : Type} [IpAddress A] [SortUnstableByKey (IpRange A) A]

/-! ## Section 1: Builder semantics -/

/-- **Builder semantics.**  The set built contains exactly the addresses covered by some
    add call and by no remove call, and any rearrangement of the calls, those made by
    collecting an iterator included, builds an equal set. -/
theorem build_contains_iff (source : Source A) (calls : List (Call A))
    (hsets : SetsSatisfy Reachable calls) :
    (∃ s, run source calls = .ok s ∧ ∀ ip, s.containsIp ip = true ↔
      (∃ c ∈ source.calls ++ calls, ip ∈ c.adds) ∧ ¬ ∃ c ∈ calls, ip ∈ c.removes) ∧
    ∀ source' calls', (source'.calls ++ calls').Perm (source.calls ++ calls) →
      run source' calls' = run source calls := by
  have hnorm := hsets.imp fun _ ht => ht.normalized
  obtain ⟨s, hs, hrep⟩ := run_represents source hnorm
  -- the first part is the membership test of the representation
  refine ⟨⟨s, hs, hrep.mem_iff⟩, ?_⟩
  intro source' calls' hperm
  -- the rearranged calls pass the same sets, so they run as well
  have hall := (hnorm.append_source source).perm hperm
  have hnorm' : SetsSatisfy IpSet.Normalized calls' :=
    fun c hc => hall c (List.mem_append_right _ hc)
  obtain ⟨s', hs', hrep'⟩ := run_represents source' hnorm'
  rw [← removed_append_source source', added_perm hperm, removed_perm hperm,
    removed_append_source source] at hrep'
  rw [hs, hs', hrep.unique hrep']

/-- A set of IPv4 addresses with a gap: `1`, `2` and `4`. -/
def sampleSet : IpSet Ipv4Addr := IpSet.new [IpRange.new ⟨1⟩ ⟨2⟩, IpRange.new ⟨4⟩ ⟨4⟩]

theorem reachable_sampleSet : @Reachable Ipv4Addr _ (.ofInsertionSort _ _) sampleSet :=
  @Reachable.of_source _ _ (.ofInsertionSort _ _) (.fromRanges sampleSet.ranges.reverse) _
    (by decide +kernel)

/-- The addresses `1` and `3`. -/
def oddSet : IpSet Ipv4Addr := IpSet.new [IpRange.new ⟨1⟩ ⟨1⟩, IpRange.new ⟨3⟩ ⟨3⟩]

theorem reachable_oddSet : @Reachable Ipv4Addr _ (.ofInsertionSort _ _) oddSet :=
  @Reachable.of_source _ _ (.ofInsertionSort _ _) (.fromRanges oddSet.ranges.reverse) _
    (by decide +kernel)

/-- The removed address is gone, the other addresses of the passed set are there. -/
theorem build_contains_iff_passed_set :
    ∃ s, @run Ipv4Addr _ (.ofInsertionSort _ _) (.fromRanges [IpRange.new ⟨6⟩ ⟨9⟩])
      [.removeIp ⟨4⟩, .addIpset sampleSet] = .ok s ∧
      s.containsIp ⟨2⟩ = true ∧ ¬ s.containsIp ⟨4⟩ = true := by
  have hsets : SetsSatisfy (@Reachable Ipv4Addr _ (.ofInsertionSort _ _))
      [.removeIp ⟨4⟩, .addIpset sampleSet] := by
    intro c hc t ht
    rcases List.mem_cons.mp hc with rfl | hc
    · cases ht
    · rw [List.mem_singleton.mp hc] at ht
      cases ht
      exact reachable_sampleSet
  obtain ⟨⟨s, hs, hmem⟩, _⟩ :=
    @build_contains_iff Ipv4Addr _ (.ofInsertionSort _ _) (.fromRanges [IpRange.new ⟨6⟩ ⟨9⟩]) _
      hsets
  refine ⟨s, hs, (hmem _).mpr ⟨?_, ?_⟩, fun h => ((hmem _).mp h).2 ?_⟩
  · exact ⟨.addIpset sampleSet, by simp, show sampleSet.containsIp ⟨2⟩ = true by decide +kernel⟩
  · intro hin
    obtain ⟨c, hc, hip⟩ := hin
    rcases List.mem_cons.mp hc with rfl | hc
    · exact absurd (show (⟨2⟩ : Ipv4Addr) = ⟨4⟩ from hip) (by decide)
    · rw [List.mem_singleton.mp hc] at hip
      cases hip
  · exact ⟨.removeIp ⟨4⟩, by simp, rfl⟩

/-! ## Section 2: The representation invariant -/

/-- **Representation invariant.**  Stored ranges are valid and lie in the family, and
    consecutive ones leave at least one address between them. -/
theorem reachable_invariant {s : IpSet A} (h : Reachable s) :
    (∀ r ∈ s.ranges, r.start ≤ r.end_ ∧
      toU128 r.start ≤ maxAddr A ∧ toU128 r.end_ ≤ maxAddr A) ∧
    ∀ i (_ : i + 1 < s.ranges.length),
      val s.ranges[i].end_ + 1 < val s.ranges[i + 1].start := by
  have hnorm := h.normalized
  have hmax : ∀ a : A, toU128 a ≤ maxAddr A := by
    intro a
    rw [BitVec.le_def, toNat_maxAddr]
    exact Nat.le_sub_one_of_lt (val_lt a)
  constructor
  · intro r hr
    exact ⟨of_decide_eq_true (hnorm.isValid hr), hmax _, hmax _⟩
  · intro i hi
    have hpair := List.pairwise_iff_getElem.mp (List.pairwise_map.mp hnorm.separated)
    exact Segment.separated_iff.mp (hpair i (i + 1) (by omega) hi (Nat.lt_succ_self i))

theorem reachable_invariant_sampleSet : val (⟨2⟩ : Ipv4Addr) + 1 < val (⟨4⟩ : Ipv4Addr) :=
  (@reachable_invariant Ipv4Addr _ (.ofInsertionSort _ _) _ reachable_sampleSet).2 0 (by decide)

end Ipnetx
