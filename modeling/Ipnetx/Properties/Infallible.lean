import Ipnetx.Properties.PrefixCover
import Ipnetx.Refinement.Queries

/-! # No Operation Faults

    Every operation of the crate returns: no `+`, `-` or shift leaves its
    type, no `ilog2` is taken of zero, no index is out of bounds, no `unwrap`
    fails and no cast drops a bit.

    Each returns because its specification says what it returns.  The walks
    over two sets return on any input; the set operations, the counts and the
    search for a range rely on the representation invariant. -/

namespace Ipnetx

open Machine IpAddress IpSetBuilder

variable {A : Type} [IpAddress A] [SortUnstableByKey (IpRange A) A]

/-- **No faults.**  On reachable sets, any ranges, any prefixes and any addresses, every
    operation returns.  A call `A::from_u128` with an argument above the family's largest
    address, or a narrowing cast that drops a bit, would be a fault here.  `contains_ip`
    and the predicates on ranges are total functions already. -/
theorem operations_return {a b : IpSet A} (ha : Reachable a) (hb : Reachable b)
    (source : Source A) {calls : List (Call A)} (hsets : SetsSatisfy Reachable calls)
    (r : IpRange A) (p q : IpPrefix A) (ip : A) :
    (run source calls).Returns ∧
    (a.union b).Returns ∧ (a.difference b).Returns ∧ (a.intersection b).Returns ∧
    a.complement.Returns ∧
    a.count.Returns ∧ a.countChecked.Returns ∧
    (a.containsRange r).Returns ∧ (a.overlapsIpSet b).Returns ∧
    (a.isSubsetOf b).Returns ∧ (a.isSupersetOf b).Returns ∧
    a.prefixes.Returns ∧ r.prefixes.Returns ∧ r.asPrefix.Returns ∧
    p.toRange.Returns ∧ p.masked.Returns ∧ (p.contains ip).Returns ∧ (p.overlaps q).Returns := by
  have hra := ha.represents
  have hrb := hb.represents
  obtain ⟨_, hrun, _⟩ := run_represents source (hsets.imp fun _ ht => ht.normalized)
  obtain ⟨_, hunion, _⟩ := IpSet.union_represents hra hrb
  obtain ⟨_, hdifference, _⟩ := IpSet.difference_represents hra hrb
  obtain ⟨_, hintersection, _⟩ := IpSet.intersection_represents hra hrb
  obtain ⟨_, hcomplement, _⟩ := IpSet.complement_represents hra
  obtain ⟨_, hcount, _⟩ := IpSet.count_represents hra
  obtain ⟨_, hchecked, _⟩ := IpSet.countChecked_represents hra
  obtain ⟨_, hrange, _⟩ := IpSet.containsRange_represents hra r
  obtain ⟨_, _, hprefixes, _⟩ := a.prefixes_spec
  obtain ⟨_, hdecompose, _⟩ := r.prefixes_spec
  obtain ⟨_, hsingle, _⟩ := r.asPrefix_spec
  obtain ⟨_, htoRange, _⟩ := p.toRange_spec
  obtain ⟨_, hmasked, _⟩ := p.masked_spec
  obtain ⟨_, hcontains, _⟩ := p.contains_spec ip
  obtain ⟨_, hoverlaps, _⟩ := p.overlaps_spec q
  exact ⟨.intro hrun, .intro hunion, .intro hdifference, .intro hintersection,
    .intro hcomplement, .intro hcount, .intro hchecked, .intro hrange,
    .intro (a.overlapsIpSet_refines b), .intro (a.isSubsetOf_refines b),
    .intro (b.isSubsetOf_refines a), .intro hprefixes, .intro hdecompose, .intro hsingle,
    .intro htoRange, .intro hmasked, .intro hcontains, .intro hoverlaps⟩

/-- The queries of the sample set return, and so does the decomposition of the full space. -/
theorem operations_return_sampleSet :
    sampleSet.count.Returns ∧ (sampleSet.isSubsetOf oddSet).Returns ∧
      (IpRange.new (⟨0⟩ : Ipv4Addr) ⟨BitVec.allOnes 32⟩).prefixes.Returns := by
  have hsets : SetsSatisfy (@Reachable Ipv4Addr _ (.ofInsertionSort _ _)) [] :=
    fun _ hc => absurd hc List.not_mem_nil
  obtain ⟨_, _, _, _, _, hcount, _, _, _, hsubset, _, _, hprefixes, _⟩ :=
    @operations_return Ipv4Addr _ (.ofInsertionSort _ _) _ _ reachable_sampleSet reachable_oddSet
      .new _ hsets (IpRange.new ⟨0⟩ ⟨BitVec.allOnes 32⟩) ⟨⟨0⟩, 0, by decide⟩ ⟨⟨0⟩, 0, by decide⟩ ⟨0⟩
  exact ⟨hcount, hsubset, hprefixes⟩

end Ipnetx
