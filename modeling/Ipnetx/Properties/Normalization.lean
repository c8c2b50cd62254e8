import Ipnetx.Refinement.Represents

/-! # Normalization

    What `normalize` promises about any list of valid ranges: the same
    addresses, a result that depends on nothing else, and the fewest ranges.
    The sort is any unstable sort, so the order in which it leaves equal
    starts does not matter either. -/

namespace Ipnetx

open Machine

variable {A : Type} [IpAddress A]

/-- A list with the addresses of a canonical list is no shorter. -/
theorem IpSet.Represents.length_le {s : IpSet A} {rs : List (IpRange A)}
    (hs : s.Represents (rangesSet rs)) : s.ranges.length ≤ rs.length := by
  have hcover : Segment.cover (segs rs) = Segment.cover (segs s.ranges) := by
    apply cover_segs_ext
    intro ip
    rw [← mem_rangesSet]
    exact hs.mem_cover.symm
  have hlen := Segment.Canonical.length_le hs.normalized hcover
  rwa [view, segs, segs, List.length_map, List.length_map] at hlen

/-- **Normalization.**  `normalize` keeps the addresses, returns the same list for every
    permutation of its input and every sort, and no list of valid ranges with those
    addresses has fewer elements. -/
theorem normalize_shortest [sort : SortUnstableByKey (IpRange A) A] {L : List (IpRange A)}
    (hL : ∀ r ∈ L, r.isValid = true) :
    (∀ ip, (∃ r ∈ normalize L, r.contains ip = true) ↔ ∃ r ∈ L, r.contains ip = true) ∧
    (∀ (sort' : SortUnstableByKey (IpRange A) A) (L' : List (IpRange A)), L'.Perm L →
      @normalize A _ sort' L' = @normalize A _ sort L) ∧
    ∀ M : List (IpRange A), (∀ r ∈ M, r.isValid = true) →
      (∀ ip, (∃ r ∈ M, r.contains ip = true) ↔ ∃ r ∈ L, r.contains ip = true) →
      (normalize L).length ≤ M.length := by
  have hrep := normalize_represents hL
  refine ⟨Set.ext_iff.mp hrep.rangesSet_eq, ?_, ?_⟩
  · intro sort' L' hperm
    have hL' : ∀ r ∈ L', r.isValid = true := fun r hr => hL r (hperm.mem_iff.mp hr)
    have hrep' := @normalize_represents A _ sort' L' hL'
    rw [rangesSet_perm hperm] at hrep'
    -- a set of addresses has one representation
    exact congrArg IpSet.ranges (hrep'.unique hrep)
  · intro M _ hM
    have hsame : rangesSet M = rangesSet L := Set.ext hM
    rw [← hsame] at hrep
    exact hrep.length_le

/-- Two ranges that start together, nested or not, in either order. -/
theorem normalize_shortest_tie :
    @normalize Ipv4Addr _ (.ofInsertionSort _ _) [IpRange.new ⟨1⟩ ⟨1⟩, IpRange.new ⟨1⟩ ⟨2⟩] =
        @normalize Ipv4Addr _ (.ofInsertionSort _ _) [IpRange.new ⟨1⟩ ⟨2⟩, IpRange.new ⟨1⟩ ⟨1⟩] ∧
      (@normalize Ipv4Addr _ (.ofInsertionSort _ _)
        [IpRange.new ⟨1⟩ ⟨2⟩, IpRange.new ⟨1⟩ ⟨1⟩]).length ≤ 2 := by
  have hvalid : ∀ r ∈ [IpRange.new (⟨1⟩ : Ipv4Addr) ⟨2⟩, IpRange.new ⟨1⟩ ⟨1⟩],
      r.isValid = true := by
    decide
  obtain ⟨_, hsame, hshort⟩ := @normalize_shortest Ipv4Addr _ (.ofInsertionSort _ _) _ hvalid
  exact ⟨hsame _ _ (List.Perm.swap _ _ _), hshort _ hvalid fun _ => Iff.rfl⟩

end Ipnetx
