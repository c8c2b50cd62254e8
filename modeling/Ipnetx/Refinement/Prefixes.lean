import Ipnetx.Refinement.View
import Ipnetx.Dyadic.Tiling

/-! # Prefixes as Dyadic Blocks

    A prefix is viewed as the dyadic block of the addresses that share its
    network bits.  The methods are all statements about that block:

    - `contains_spec`: the bit comparison is membership in the block.
    - `toRange_spec`: `to_range` returns the block as a range.
    - `overlaps_spec`: prefixes overlap when their blocks meet.
    - `masked_spec`: `masked` keeps the block and clears the host bits. -/

namespace Ipnetx

open Machine IpAddress

variable {A : Type} [IpAddress A]

namespace IpPrefix

/-! ## Section 1: The block of a prefix -/

/-- `BITS - mask`, the number of host bits. -/
def level (p : IpPrefix A) : ℕ := bits A - p.mask.toNat

/-- The addresses that share the network bits. -/
def block (p : IpPrefix A) : Block := Block.around p.level (val p.ip)

/-- The host bits are zero. -/
def Aligned (p : IpPrefix A) : Prop := p.block.lo = val p.ip

theorem mask_toNat_le (p : IpPrefix A) : p.mask.toNat ≤ bits A := BitVec.le_def.mp p.mask_le

theorem level_le (p : IpPrefix A) : p.level ≤ bits A := Nat.sub_le _ _

theorem val_ip_mem_block (p : IpPrefix A) : val p.ip ∈ p.block := Block.mem_around _ _

/-- The block lies inside the address space. -/
theorem block_hi_lt (p : IpPrefix A) : p.block.hi < 2 ^ bits A := by
  -- the whole space is a block as well, and it meets this one at the address
  have hspace : 0 ∈ Block.around (bits A) 0 := Block.mem_around _ _
  have hip : val p.ip ∈ Block.around (bits A) 0 := by
    rw [Block.mem_iff, Block.around_lo (dvd_zero _)]
    have hhi := Block.around_hi (dvd_zero (2 ^ bits A))
    have := val_lt p.ip
    omega
  have hsub := Block.subset_of_level_le p.level_le p.val_ip_mem_block hip p.block.hi_mem
  have hhi := Block.around_hi (dvd_zero (2 ^ bits A))
  have := (Block.mem_iff.mp hsub).2
  omega

theorem block_lo_lt (p : IpPrefix A) : p.block.lo < 2 ^ bits A :=
  p.block.lo_le_hi.trans_lt p.block_hi_lt

/-- Without host bits a prefix is its block. -/
theorem Aligned.eq_of_block_eq {p q : IpPrefix A} (hp : p.Aligned) (hq : q.Aligned)
    (h : p.block = q.block) : p = q := by
  obtain ⟨ip, mask, hmask⟩ := p
  obtain ⟨ip', mask', hmask'⟩ := q
  have hip : ip = ip' := val_injective (hp.symm.trans ((congrArg Block.lo h).trans hq))
  have hlevel : bits A - mask.toNat = bits A - mask'.toNat := congrArg Block.level h
  have h1 : mask.toNat ≤ bits A := BitVec.le_def.mp hmask
  have h2 : mask'.toNat ≤ bits A := BitVec.le_def.mp hmask'
  have hm : mask = mask' := BitVec.eq_of_toNat_eq (by omega)
  subst hip hm
  rfl

/-! ## Section 2: The methods -/

theorem addrMax_eq_ok : addrMax A = .ok (maxAddr A) := by
  have hle : ((BITS A).setWidth 32).toNat ≤ (128 : BitVec 32).toNat := by
    rw [toNat_bits_setWidth]
    exact bits_le_128 (A := A)
  unfold addrMax
  rw [Word.sub_eq_ok hle, Result.ok_bind, shr_eq_maxAddr (A := A)]
  rw [Word.toNat_sub_of_le hle, toNat_bits_setWidth]
  rfl

theorem isField_maxAddr : Word.IsField (maxAddr A) 0 (bits A) :=
  Word.isField_allOnes_shr bits_le_128

/-- The network mask has exactly the network bits set. -/
theorem networkMask_spec (p : IpPrefix A) :
    ∃ network, p.networkMask = .ok network ∧ Word.IsField network p.level (bits A) := by
  have hle : p.mask.toNat ≤ (BITS A).toNat := p.mask_toNat_le
  have hshift : ((BITS A - p.mask).setWidth 32).toNat = p.level := by
    rw [BitVec.toNat_setWidth_of_le (by decide), Word.toNat_sub_of_le hle]
    rfl
  have hfield := (isField_maxAddr (A := A)).and
    (Word.isField_allOnes_shl (w := 128) (n := (BITS A - p.mask).setWidth 32))
  rw [hshift, Nat.zero_max, min_eq_left bits_le_128] at hfield
  refine ⟨_, ?_, hfield⟩
  unfold networkMask
  rw [addrMax_eq_ok, Result.ok_bind, Word.sub_eq_ok hle]
  rfl

/-- Masking an address gives the start of its block. -/
private theorem toNat_and_network {p : IpPrefix A} {network : BitVec 128}
    (h : Word.IsField network p.level (bits A)) (a : A) :
    (toU128 a &&& network).toNat = (Block.around p.level (val a)).lo :=
  h.toNat_and (val_lt a)

/-- The bit comparison decides membership in the block. -/
theorem contains_spec (p : IpPrefix A) (ip : A) :
    ∃ c, p.contains ip = .ok c ∧ (c = true ↔ val ip ∈ p.block) := by
  obtain ⟨network, hnet, hfield⟩ := p.networkMask_spec
  refine ⟨decide (toU128 p.ip &&& network = toU128 ip &&& network), ?_, ?_⟩
  · unfold contains
    rw [hnet]
    rfl
  · have hpos := Nat.two_pow_pos p.level
    rw [decide_eq_true_iff, ← BitVec.toNat_inj, toNat_and_network hfield,
      toNat_and_network hfield]
    constructor
    · intro h
      exact (Nat.eq_of_mul_eq_mul_right hpos h).symm
    · intro h
      exact congrArg (· * 2 ^ p.level) (Block.mem_def.mp h).symm

theorem contains_eq_true_iff {p : IpPrefix A} {ip : A} :
    p.contains ip = .ok true ↔ val ip ∈ p.block := by
  obtain ⟨c, hc, hmem⟩ := p.contains_spec ip
  rw [hc, Except.ok.injEq, hmem]

/-- Membership in the block is agreement of the network bits. -/
theorem mem_block_iff_bits {p : IpPrefix A} {ip : A} :
    val ip ∈ p.block ↔ ∀ i, p.level ≤ i → i < bits A →
      (toU128 ip).getLsbD i = (toU128 p.ip).getLsbD i := by
  unfold block
  rw [Block.mem_around_iff_testBit]
  constructor
  · exact fun h i hi _ => h i hi
  · intro h i hi
    by_cases hib : i < bits A
    · exact h i hi hib
    · -- an address has no bits from the width of the family on
      have hzero : ∀ a : A, (val a).testBit i = false := by
        intro a
        have hpow := Nat.pow_le_pow_right (n := 2) (by decide) (not_lt.mp hib)
        exact Nat.testBit_lt_two_pow ((val_lt a).trans_le hpow)
      rw [hzero, hzero]

/-- `to_range` is the block as a range. -/
theorem toRange_spec (p : IpPrefix A) : ∃ r, p.toRange = .ok r ∧ r.seg = p.block.seg := by
  obtain ⟨network, hnet, hfield⟩ := p.networkMask_spec
  -- `host` sets exactly the bits that `network` clears
  have hhost := isField_maxAddr.and_not hfield bits_le_128 p.level_le
  have hlo : (toU128 p.ip &&& network).toNat = p.block.lo := toNat_and_network hfield p.ip
  have hhi : (toU128 p.ip ||| (maxAddr A &&& ~~~network)).toNat = p.block.hi := hhost.toNat_or
  have hlo_lt : (toU128 p.ip &&& network).toNat < 2 ^ bits A := hlo ▸ p.block_lo_lt
  have hhi_lt : (toU128 p.ip ||| (maxAddr A &&& ~~~network)).toNat < 2 ^ bits A :=
    hhi ▸ p.block_hi_lt
  refine ⟨IpRange.new (fromU128 (toU128 p.ip &&& network))
    (fromU128 (toU128 p.ip ||| (maxAddr A &&& ~~~network))), ?_, ?_⟩
  · unfold toRange
    simp only [addrMax_eq_ok, hnet, Result.ok_bind, fromU128Exact_eq_ok hlo_lt,
      fromU128Exact_eq_ok hhi_lt, Result.pure_eq_ok]
  · rw [IpRange.seg_new, val_fromU128 hlo_lt, val_fromU128 hhi_lt, hlo, hhi]
    rfl

theorem toRange_eq_iff {p : IpPrefix A} {r : IpRange A} :
    p.toRange = .ok r ↔ p.block.seg = r.seg := by
  obtain ⟨t, ht, hseg⟩ := p.toRange_spec
  rw [ht, Except.ok.injEq, ← hseg]
  exact IpRange.seg_injective.eq_iff.symm

/-- Two prefixes overlap when their blocks have a common address. -/
theorem overlaps_spec (p q : IpPrefix A) :
    ∃ o, p.overlaps q = .ok o ∧ (o = true ↔ ∃ x, x ∈ p.block ∧ x ∈ q.block) := by
  obtain ⟨r, hr, hrseg⟩ := p.toRange_spec
  obtain ⟨t, ht, htseg⟩ := q.toRange_spec
  refine ⟨r.overlaps t, ?_, ?_⟩
  · unfold overlaps
    rw [hr, ht]
    rfl
  · rw [IpRange.overlaps_iff, Segment.meets_iff, hrseg, htseg]
    simp only [Block.mem_seg]

/-- `masked` keeps the block and clears the host bits. -/
theorem masked_spec (p : IpPrefix A) :
    ∃ q, p.masked = .ok q ∧ q.block = p.block ∧ q.Aligned := by
  obtain ⟨network, hnet, hfield⟩ := p.networkMask_spec
  have hlo : (toU128 p.ip &&& network).toNat = p.block.lo := toNat_and_network hfield p.ip
  have hlo_lt : (toU128 p.ip &&& network).toNat < 2 ^ bits A := hlo ▸ p.block_lo_lt
  have hval : val (fromU128 (toU128 p.ip &&& network) : A) = p.block.lo :=
    (val_fromU128 hlo_lt).trans hlo
  have hblock : Block.around p.level p.block.lo = p.block :=
    (Block.eq_around_of_mem p.block.lo_mem).symm
  refine ⟨{ p with ip := fromU128 (toU128 p.ip &&& network) }, ?_, ?_, ?_⟩
  · unfold masked
    rw [hnet, Result.ok_bind, fromU128Exact_eq_ok hlo_lt]
    rfl
  · show Block.around p.level (val (fromU128 (toU128 p.ip &&& network) : A)) = p.block
    rw [hval, hblock]
  · show (Block.around p.level (val (fromU128 (toU128 p.ip &&& network) : A))).lo =
      val (fromU128 (toU128 p.ip &&& network) : A)
    rw [hval, hblock]

/-- Masking fixes exactly the prefixes without host bits. -/
theorem masked_eq_self_iff {p : IpPrefix A} : p.masked = .ok p ↔ p.Aligned := by
  obtain ⟨q, hq, hblock, haligned⟩ := p.masked_spec
  rw [hq]
  constructor
  · intro h
    cases h
    exact haligned
  · intro hp
    rw [haligned.eq_of_block_eq hp hblock]

end IpPrefix

end Ipnetx
