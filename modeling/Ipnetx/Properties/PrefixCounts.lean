import Ipnetx.Properties.PrefixAlgebra

/-! # Prefix Counts

    How many prefixes of each length a range or a set is decomposed into,
    and which ones are decomposed into the most.

    - `prefixes_per_mask`: the exact number for each length, by arithmetic on
      the end points of the ranges alone.
    - `prefixes_most`: the bound `2 * BITS - 2` is reached by one range, the
      address space without its first and its last address. -/

namespace Ipnetx

open Machine IpAddress

variable {A : Type} [IpAddress A]

/-! ## Section 1: By length -/

/-- The number of prefixes with the mask `n` that cover the range `r`: `i` counts the blocks of
    that size before `r`, rounded up, and `j` those up to its end, rounded down. -/
def IpRange.prefixesOfMask (r : IpRange A) (n : ℕ) : ℕ :=
  let i := val r.start ⌈/⌉ 2 ^ (bits A - n)
  let j := (val r.end_ + 1) / 2 ^ (bits A - n)
  if i < j then i % 2 + j % 2 else 0

theorem count_masks {ps : List (IpPrefix A)} {n : ℕ} (hn : n ≤ bits A) :
    (masks ps).count n = ((ps.map IpPrefix.block).map Block.level).count (bits A - n) := by
  unfold masks
  rw [List.map_map, List.count, List.count, List.countP_map, List.countP_map]
  apply List.countP_congr
  intro p _
  have hp := p.mask_add_level
  show (p.mask.toNat == n) = true ↔ (p.block.level == bits A - n) = true
  rw [beq_iff_eq, beq_iff_eq]
  omega

/-- **Prefixes of each length.**  How many prefixes with a given mask a range is decomposed into
    is read off its two end points, and a set lists as many as its ranges together. -/
theorem prefixes_per_mask :
    (∀ r : IpRange A, ∃ ps, r.prefixes = .ok ps ∧
      ∀ n, n ≤ bits A → (masks ps).count n = r.prefixesOfMask n) ∧
    ∀ s : IpSet A, ∃ ps, s.prefixes = .ok ps ∧
      ∀ n, n ≤ bits A → (masks ps).count n = (s.ranges.map (·.prefixesOfMask n)).sum := by
  have hrange : ∀ r : IpRange A, ∃ ps, r.prefixes = .ok ps ∧
      ∀ n, n ≤ bits A → (masks ps).count n = r.prefixesOfMask n := by
    intro r
    obtain ⟨ps, hps, htiling, _⟩ := r.prefixes_spec
    exact ⟨ps, hps, fun n hn => (count_masks hn).trans (htiling.count_level (bits A - n))⟩
  have hset : ∀ s : IpSet A, ∃ ps, s.prefixes = .ok ps ∧
      ∀ n, n ≤ bits A → (masks ps).count n = (s.ranges.map (·.prefixesOfMask n)).sum := by
    intro s
    obtain ⟨ps, bss, hps, htilings, hflat, _⟩ := s.prefixes_spec
    refine ⟨ps, hps, ?_⟩
    intro n hn
    rw [count_masks hn, hflat, htilings.count_level, IpSet.view, segs, List.map_map]
    rfl
  exact ⟨hrange, hset⟩

/-- A block of 256 addresses without its two ends takes 14 prefixes. -/
example : ((List.range 33).map
    (IpRange.new (⟨0x0a000001⟩ : Ipv4Addr) ⟨0x0a0000fe⟩).prefixesOfMask).sum = 14 := by
  decide +kernel

/-! ## Section 2: The most prefixes -/

/-- All addresses but the first and the last one. -/
def IpRange.inner : IpRange A := new (fromU128 1) (fromU128 (BitVec.ofNat 128 (2 ^ bits A - 2)))

theorem IpRange.eq_inner_iff (hbits : 2 ≤ bits A) {r : IpRange A} :
    r = inner ↔ r.seg.lo = 1 ∧ r.seg.hi + 2 = 2 ^ bits A := by
  have hpow : 2 ^ 2 ≤ 2 ^ bits A := Nat.pow_le_pow_right (by decide) hbits
  have htop : (BitVec.ofNat 128 (2 ^ bits A - 2)).toNat = 2 ^ bits A - 2 := by
    have hle : 2 ^ bits A ≤ 2 ^ 128 := two_pow_bits_le
    rw [BitVec.toNat_ofNat, Nat.mod_eq_of_lt (by omega)]
  have hstart : val (fromU128 1 : A) = 1 := val_fromU128 (show 1 < 2 ^ bits A by omega)
  have hend : val (fromU128 (BitVec.ofNat 128 (2 ^ bits A - 2)) : A) = 2 ^ bits A - 2 := by
    rw [val_fromU128 (by omega), htop]
  rw [← IpRange.seg_injective.eq_iff]
  unfold inner
  rw [IpRange.seg_new, hstart, hend]
  have hseg : r.seg = ⟨1, 2 ^ bits A - 2⟩ ↔ r.seg.lo = 1 ∧ r.seg.hi = 2 ^ bits A - 2 :=
    ⟨fun h => ⟨congrArg Segment.lo h, congrArg Segment.hi h⟩, fun h => by rw [← h.1, ← h.2]⟩
  rw [hseg]
  omega

/-- A range is decomposed into at most `most` prefixes, and into that many only if it is the inner
    range.  A set lists at most `most` prefixes for each range it stores, and that many only if it
    stores no other range. -/
structure MostPrefixes (A : Type) [IpAddress A] (most : ℕ) : Prop where
  range : ∀ r : IpRange A, ∃ ps, r.prefixes = .ok ps ∧ ps.length ≤ most ∧
    (ps.length = most ↔ r = IpRange.inner)
  set : ∀ s : IpSet A, ∃ ps, s.prefixes = .ok ps ∧ ps.length ≤ most * s.len ∧
    (ps.length = most * s.len ↔ ∀ r ∈ s.ranges, r = IpRange.inner)

theorem mostPrefixes (hbits : 4 ≤ bits A) : MostPrefixes A (2 * bits A - 2) where
  range := by
    intro r
    obtain ⟨ps, hps, htiling, _⟩ := r.prefixes_spec
    have hle := htiling.length_le (by omega) r.seg_hi_lt
    have hiff := htiling.length_eq_iff hbits r.seg_hi_lt
    rw [List.length_map] at hle hiff
    exact ⟨ps, hps, hle, hiff.trans (IpRange.eq_inner_iff (by omega)).symm⟩
  set := by
    intro s
    obtain ⟨ps, bss, hps, htilings, hflat, _⟩ := s.prefixes_spec
    have hle := htilings.length_le IpSet.view_hi_lt (by omega)
    have hiff := htilings.length_eq_iff IpSet.view_hi_lt hbits
    rw [← hflat, List.length_map, IpSet.view, segs, List.length_map] at hle hiff
    refine ⟨ps, hps, hle, hiff.trans ?_⟩
    rw [List.forall_mem_map]
    exact forall₂_congr fun r _ => (IpRange.eq_inner_iff (by omega)).symm

/-- **The most prefixes.**  At most 62 for a range of IPv4 addresses and 254 for one of IPv6
    addresses, and that many only for the space without its two ends. -/
theorem prefixes_most : MostPrefixes Ipv4Addr 62 ∧ MostPrefixes Ipv6Addr 254 :=
  ⟨mostPrefixes (by decide), mostPrefixes (by decide)⟩

end Ipnetx
