import Ipnetx.Properties.PrefixLists

/-! # Aggregation

    Collecting a list of prefixes, building the set and listing its prefixes
    turns the list into the smallest one with the same addresses.  The result
    is a canonical form (`aggregate_canonical`), and whether a list is in that
    form shows in its consecutive pairs (`aggregate_eq_self_iff`). -/

namespace Ipnetx

open Machine IpAddress IpSetBuilder

variable {A : Type} [IpAddress A]

/-! ## Section 1: Collecting -/

section
variable [SortUnstableByKey (IpRange A) A]

/-- `collect` and `build` on prefixes. -/
theorem collect_prefixes_represents (ps : List (IpPrefix A)) :
    ∃ s, run (.fromPrefixes ps) [] = .ok s ∧ s.Represents (prefixesSet ps) := by
  obtain ⟨s, hs, hrep⟩ := run_represents (.fromPrefixes ps) setsSatisfy_nil
  have haddrs : added ((Source.fromPrefixes ps).calls ++ []) \ removed [] = prefixesSet ps := by
    apply Set.ext
    intro ip
    simp [added, removed, Source.calls, Call.adds, IpPrefix.addrs, prefixesSet]
  exact ⟨s, hs, haddrs ▸ hrep⟩

/-- `prefixes.into_iter().collect::<IpSetBuilder<_>>().build().prefixes()`. -/
def aggregate (L : List (IpPrefix A)) : Result (List (IpPrefix A)) := do
  let s ← run (.fromPrefixes L) []
  s.prefixes

theorem aggregate_spec (L : List (IpPrefix A)) :
    ∃ ps, aggregate L = .ok ps ∧ LargestPrefixes ps (prefixesSet L) := by
  obtain ⟨s, hs, hrep⟩ := collect_prefixes_represents L
  obtain ⟨ps, hps, hlargest, _⟩ := hrep.shortest
  have hrun : aggregate L = .ok ps := by
    unfold aggregate
    rw [hs]
    exact hps
  exact ⟨ps, hrun, hlargest⟩

/-- The result is the list of largest prefixes. -/
theorem aggregate_eq_ok {L ps : List (IpPrefix A)} :
    aggregate L = .ok ps ↔ LargestPrefixes ps (prefixesSet L) := by
  obtain ⟨qs, hqs, hlargest⟩ := aggregate_spec L
  rw [hqs, Except.ok.injEq]
  exact ⟨fun h => h ▸ hlargest, fun h => hlargest.unique h⟩

/-- **Canonical form.**  Aggregation keeps the addresses, gives the same list for every list with
    those addresses and for no other, changes nothing the second time, and never lengthens. -/
theorem aggregate_canonical (L : List (IpPrefix A)) :
    ∃ ps, aggregate L = .ok ps ∧ prefixesSet ps = prefixesSet L ∧ aggregate ps = .ok ps ∧
      ∀ M : List (IpPrefix A), (aggregate M = .ok ps ↔ prefixesSet M = prefixesSet L) ∧
        (prefixesSet M = prefixesSet L → ps.length ≤ M.length) := by
  obtain ⟨s, hs, hrep⟩ := collect_prefixes_represents L
  obtain ⟨ps, hps, hlargest, hshort⟩ := hrep.shortest
  have hL : aggregate L = .ok ps := aggregate_eq_ok.mpr hlargest
  have hcover := hlargest.cover
  have hsame : ∀ M : List (IpPrefix A), prefixesSet M = prefixesSet L → aggregate M = .ok ps :=
    fun M hM => aggregate_eq_ok.mpr (hM ▸ hlargest)
  refine ⟨ps, hL, hcover, hsame ps hcover, ?_⟩
  intro M
  have hmp : aggregate M = .ok ps → prefixesSet M = prefixesSet L :=
    fun h => (aggregate_eq_ok.mp h).cover.symm.trans hcover
  have hlen : prefixesSet M = prefixesSet L → ps.length ≤ M.length := by
    intro hM
    have hpoints : Block.points (M.map IpPrefix.block) = Set.image val (prefixesSet L) := by
      rw [← hM]
      exact points_eq_image M
    have hle := hshort.length_le hpoints
    rwa [List.length_map, List.length_map] at hle
  exact ⟨⟨hmp, hsame M⟩, hlen⟩

end

/-! ## Section 2: Aggregated lists -/

/-- The prefix one bit shorter. -/
theorem IpPrefix.exists_parent (p : IpPrefix A) (hmask : p.mask ≠ 0) :
    ∃ r : IpPrefix A, r.block = p.block.parent := by
  have hpos : (1 : BitVec 8).toNat ≤ p.mask.toNat := by
    by_contra hzero
    have hlt : p.mask.toNat < 1 := not_le.mp hzero
    exact hmask (BitVec.eq_of_toNat_eq (Nat.lt_one_iff.mp hlt))
  have hval : (p.mask - 1).toNat = p.mask.toNat - 1 := Word.toNat_sub_of_le hpos
  have hle : p.mask.toNat ≤ bits A := p.mask_toNat_le
  have hfits : p.mask - 1 ≤ BITS A := by
    rw [BitVec.le_def, hval]
    exact (Nat.sub_le _ _).trans hle
  let r : IpPrefix A := ⟨p.ip, p.mask - 1, hfits⟩
  have hlevel : r.level = p.level + 1 := by
    show bits A - (p.mask - 1).toNat = bits A - p.mask.toNat + 1
    have hone : 1 ≤ p.mask.toNat := hpos
    omega
  have hblock : r.block = p.block.parent := by
    show Block.around r.level (val p.ip) = (Block.around p.level (val p.ip)).parent
    rw [hlevel, Block.parent_around]
  exact ⟨r, hblock⟩

/-- The blocks of the largest prefixes are the maximal ones. -/
theorem LargestPrefixes.shortest {ps : List (IpPrefix A)} {S : Set A} (h : LargestPrefixes ps S) :
    Block.Shortest (ps.map IpPrefix.block) (Set.image val S) where
  nodup := h.blocks_ascending.nodup
  maximal := by
    intro b hb
    obtain ⟨p, hp, rfl⟩ := List.mem_map.mp hb
    obtain ⟨_, hsub, hlargest⟩ := (h.mem_iff p).mp hp
    have hN : ∀ ip : A, val ip ∈ Set.image val S ↔ ip ∈ S :=
      fun _ => val_injective.mem_set_image
    have hparent : ¬ ∀ x ∈ p.block.parent, x ∈ Set.image val S := by
      intro hin
      by_cases hmask : p.mask = 0
      · -- the parent is larger than the space
        have hlevel : p.block.level = bits A := by
          have := p.mask_add_level
          rw [hmask] at this
          exact (Nat.zero_add _).symm.trans this
        have hsize := p.block.parent.lo_add_size
        rw [Block.parent_level, hlevel, pow_succ] at hsize
        obtain ⟨ip, _, hip⟩ := hin _ p.block.parent.hi_mem
        have hlt := val_lt ip
        omega
      · obtain ⟨r, hr⟩ := p.exists_parent hmask
        rw [← hr] at hin
        have hpr : p.addrs ⊆ r.addrs :=
          IpPrefix.addrs_subset_addrs_iff.mpr fun x hx => hr ▸ Block.mem_parent hx
        have hsame := hlargest r hpr ((IpPrefix.addrs_subset_iff hN).mpr hin)
        have hlevel := congrArg Block.level (hr.symm.trans (IpPrefix.addrs_eq_iff.mp hsame))
        rw [Block.parent_level] at hlevel
        omega
    exact Block.maximal_iff.mpr ⟨(IpPrefix.addrs_subset_iff hN).mp hsub, hparent⟩
  points_eq := by rw [points_eq_image, h.cover]

/-- Two prefixes, one before the other, make up a third one when they are siblings. -/
theorem exists_union_iff {p q : IpPrefix A} (hlt : p.block.hi < q.block.lo) :
    (∃ r : IpPrefix A, r.addrs = p.addrs ∪ q.addrs) ↔ p.block.parent = q.block.parent := by
  have hunion : ∀ r : IpPrefix A, r.addrs = p.addrs ∪ q.addrs ↔
      ∀ x, x ∈ r.block ↔ x ∈ p.block ∨ x ∈ q.block := by
    intro r
    rw [← val_injective.image_injective.eq_iff, Set.image_union, r.image_addrs, p.image_addrs,
      q.image_addrs]
    exact Set.ext_iff
  have hmp : (∃ r : IpPrefix A, r.addrs = p.addrs ∪ q.addrs) →
      p.block.parent = q.block.parent := by
    intro hin
    obtain ⟨r, hr⟩ := hin
    have hdisjoint : ∀ x ∈ p.block, x ∉ q.block := by
      intro x hxp hxq
      have h1 := (Block.mem_iff.mp hxp).2
      have h2 := (Block.mem_iff.mp hxq).1
      omega
    exact Block.parent_eq_of_union hdisjoint ((hunion r).mp hr)
  have hmpr : p.block.parent = q.block.parent →
      ∃ r : IpPrefix A, r.addrs = p.addrs ∪ q.addrs := by
    intro hparent
    -- nothing comes after the prefix of length zero
    have hmask : p.mask ≠ 0 := by
      intro hzero
      have hlevel : p.block.level = bits A := by
        have := p.mask_add_level
        rw [hzero] at this
        exact (Nat.zero_add _).symm.trans this
      have hsize := p.block.lo_add_size
      have hq := q.block_lo_lt
      rw [hlevel] at hsize
      omega
    obtain ⟨r, hr⟩ := p.exists_parent hmask
    have hne : q.block ≠ p.block := by
      intro heq
      rw [heq] at hlt
      exact absurd p.block.lo_le_hi (not_le.mpr hlt)
    have hsib : q.block = p.block.sibling := Block.eq_sibling_of_parent_eq hparent hne
    have hmem : ∀ x, x ∈ r.block ↔ x ∈ p.block ∨ x ∈ q.block := by
      intro x
      rw [hr, hsib]
      exact Block.mem_parent_iff
    exact ⟨r, (hunion r).mpr hmem⟩
  exact ⟨hmp, hmpr⟩

/-- No host bits, in ascending order, and no two consecutive prefixes make up a third one. -/
structure IsAggregated (L : List (IpPrefix A)) : Prop where
  masked : ∀ p ∈ L, p.masked = .ok p
  ascending : L.Pairwise fun p q => ∀ x ∈ p.addrs, ∀ y ∈ q.addrs, x < y
  no_union : L.IsChain fun p q => ∀ r : IpPrefix A, r.addrs ≠ p.addrs ∪ q.addrs

/-- In an ascending list the last condition is that no two consecutive blocks are siblings. -/
theorem no_union_iff {L : List (IpPrefix A)} (h : Block.Ascending (L.map IpPrefix.block)) :
    (L.IsChain fun p q => ∀ r : IpPrefix A, r.addrs ≠ p.addrs ∪ q.addrs) ↔
      (L.map IpPrefix.block).IsChain fun b c => b.parent ≠ c.parent := by
  rw [List.isChain_map, List.isChain_iff_getElem, List.isChain_iff_getElem]
  have hpair := List.pairwise_iff_getElem.mp (List.pairwise_map.mp h)
  have hstep : ∀ i (hi : i + 1 < L.length),
      (∀ r : IpPrefix A, r.addrs ≠ L[i].addrs ∪ L[i + 1].addrs) ↔
        L[i].block.parent ≠ L[i + 1].block.parent := by
    intro i hi
    rw [← not_exists, exists_union_iff (hpair i (i + 1) (by omega) hi (Nat.lt_succ_self i))]
  exact forall₂_congr hstep

theorem isAggregated_iff {L : List (IpPrefix A)} :
    IsAggregated L ↔ LargestPrefixes L (prefixesSet L) := by
  have hN : ∀ ip : A, val ip ∈ Set.image val (prefixesSet L) ↔ ip ∈ prefixesSet L :=
    fun _ => val_injective.mem_set_image
  have hmp : IsAggregated L → LargestPrefixes L (prefixesSet L) := by
    intro h
    have hascending : Block.Ascending (L.map IpPrefix.block) :=
      List.pairwise_map.mpr (h.ascending.imp ascending_iff.mp)
    have hmax := (Block.maximal_iff_isChain hascending).mpr
      ((no_union_iff hascending).mp h.no_union)
    have hshort : Block.Shortest (L.map IpPrefix.block) (Set.image val (prefixesSet L)) := by
      rw [← points_eq_image]
      exact ⟨hascending.nodup, hmax, rfl⟩
    exact largestPrefixes_of_shortest hN
      (fun p hp => IpPrefix.masked_eq_self_iff.mp (h.masked p hp)) hascending hshort
  have hmpr : LargestPrefixes L (prefixesSet L) → IsAggregated L := by
    intro h
    have hascending := h.blocks_ascending
    have hmax := h.shortest.maximal
    rw [← points_eq_image] at hmax
    exact ⟨fun p hp => ((h.mem_iff p).mp hp).1, h.ascending,
      (no_union_iff hascending).mpr ((Block.maximal_iff_isChain hascending).mp hmax)⟩
  exact ⟨hmp, hmpr⟩

/-- **Aggregated lists.**  Aggregation changes nothing exactly when the list has no host bits, is
    in ascending order, and no two consecutive prefixes make up a third one. -/
theorem aggregate_eq_self_iff [SortUnstableByKey (IpRange A) A] {L : List (IpPrefix A)} :
    aggregate L = .ok L ↔ IsAggregated L := by
  rw [aggregate_eq_ok, isAggregated_iff]

end Ipnetx
