import Ipnetx.Dyadic.Staircase
import Ipnetx.Refinement.Decompose
import Ipnetx.Refinement.Queries

/-! # Prefixes, Ranges and Bits

    A prefix has three descriptions: shared leading bits, the range of
    `to_range`, and the block it denotes.  They agree, prefixes are laminar,
    a range is recognized as a prefix exactly when its decomposition has one
    element, and the decomposition of any range is a short staircase.

    - `contains_iff_bits`, `prefixes_laminar`: single prefixes and pairs.
    - `asPrefix_iff`: recognition.
    - `prefixes_staircase`: the shape and the length of a decomposition. -/

namespace Ipnetx

open Machine IpAddress

variable {A : Type} [IpAddress A]

/-! ## Section 1: Bits and intervals -/

/-- The addresses of a block are as many as its points. -/
theorem IpPrefix.ncard_block (p : IpPrefix A) :
    {ip : A | val ip ∈ p.block}.ncard = 2 ^ p.level := by
  have hcard : {ip : A | val ip ∈ p.block}.ncard = (Set.Icc p.block.lo p.block.hi).ncard :=
    IpSet.ncard_of_mem_iff (fun n hn => hn.2.trans_lt p.block_hi_lt) fun _ => Block.mem_iff
  have hsize : p.block.lo + 2 ^ p.level = p.block.hi + 1 := p.block.lo_add_size
  have hpos := Nat.two_pow_pos p.level
  rw [hcard, Set.ncard_Icc_nat]
  omega

/-- **Bits and intervals.**  The membership test of a prefix compares the leading bits; the
    range and the masked prefix have the same addresses, `2 ^ (BITS - mask)` of them. -/
theorem contains_iff_bits (p : IpPrefix A) :
    ∃ r m, p.toRange = .ok r ∧ p.masked = .ok m ∧ r.isValid = true ∧
      {ip | r.contains ip = true}.ncard = 2 ^ (bits A - p.mask.toNat) ∧
      ∀ ip, ∃ c, p.contains ip = .ok c ∧ r.contains ip = c ∧ m.contains ip = .ok c ∧
        (c = true ↔ ∀ i, bits A - p.mask.toNat ≤ i → i < bits A →
          (toU128 ip).getLsbD i = (toU128 p.ip).getLsbD i) := by
  obtain ⟨r, hr, hseg⟩ := p.toRange_spec
  obtain ⟨m, hm, hblock, _⟩ := p.masked_spec
  have hmem : ∀ ip : A, r.contains ip = true ↔ val ip ∈ p.block := by
    intro ip
    rw [IpRange.contains_iff, hseg, Block.mem_seg]
  refine ⟨r, m, hr, hm, ?_, ?_, ?_⟩
  · rw [IpRange.isValid_iff, hseg]
    exact p.block.lo_le_hi
  · simp only [hmem]
    exact p.ncard_block
  · intro ip
    obtain ⟨c, hc, hiff⟩ := p.contains_spec ip
    obtain ⟨c', hc', hiff'⟩ := m.contains_spec ip
    refine ⟨c, hc, ?_, ?_, hiff.trans IpPrefix.mem_block_iff_bits⟩
    · rw [Bool.eq_iff_iff, hmem, hiff]
    · rw [hc', Bool.eq_iff_iff.mpr (hiff'.trans (hblock ▸ hiff.symm))]

/-! ## Section 2: Laminarity -/

/-- **Laminarity.**  Of two prefixes that overlap the one with the longer mask lies inside the
    other, its address as well; prefixes that do not overlap have no common address. -/
theorem prefixes_laminar {p q : IpPrefix A} (h : p.mask ≤ q.mask) :
    ∃ o, p.overlaps q = .ok o ∧ q.overlaps p = .ok o ∧ p.contains q.ip = .ok o ∧
      (o = true ↔ ∀ ip, q.contains ip = .ok true → p.contains ip = .ok true) ∧
      (o = false → ∀ ip, ¬ (p.contains ip = .ok true ∧ q.contains ip = .ok true)) := by
  have hlevel : q.block.level ≤ p.block.level := Nat.sub_le_sub_left (BitVec.le_def.mp h) _
  obtain ⟨o, ho, hiff⟩ := p.overlaps_spec q
  obtain ⟨o', ho', hiff'⟩ := q.overlaps_spec p
  obtain ⟨c, hc, hciff⟩ := p.contains_spec q.ip
  -- a common address puts the smaller block inside the larger one
  have hnested : o = true → ∀ x ∈ q.block, x ∈ p.block := by
    intro hov x hx
    obtain ⟨y, hyp, hyq⟩ := hiff.mp hov
    exact Block.subset_of_level_le hlevel hyq hyp hx
  have hsymm : o' = o := by
    simp only [Bool.eq_iff_iff, hiff, hiff', and_comm]
  have hip : c = o := by
    rw [Bool.eq_iff_iff, hciff]
    constructor
    · exact fun hmem => hiff.mpr ⟨_, hmem, q.val_ip_mem_block⟩
    · exact fun hov => hnested hov _ q.val_ip_mem_block
  refine ⟨o, ho, hsymm ▸ ho', hip ▸ hc, ?_, ?_⟩
  · simp only [IpPrefix.contains_eq_true_iff]
    constructor
    · exact fun hov ip hmem => hnested hov _ hmem
    · intro hsub
      exact hiff.mpr ⟨_, hsub q.ip q.val_ip_mem_block, q.val_ip_mem_block⟩
  · intro hov ip hin
    rw [IpPrefix.contains_eq_true_iff, IpPrefix.contains_eq_true_iff] at hin
    rw [hiff.mpr ⟨_, hin⟩] at hov
    cases hov

/-- The empty mask overlaps everything, host bits or not. -/
theorem prefixes_laminar_default :
    (⟨⟨7⟩, 0, by decide⟩ : IpPrefix Ipv4Addr).overlaps ⟨⟨9⟩, 32, by decide⟩ = .ok true := by
  obtain ⟨o, ho, _, hip, _⟩ :=
    prefixes_laminar (p := (⟨⟨7⟩, 0, by decide⟩ : IpPrefix Ipv4Addr)) (q := ⟨⟨9⟩, 32, by decide⟩)
      (by decide)
  have hall : (⟨⟨7⟩, 0, by decide⟩ : IpPrefix Ipv4Addr).contains ⟨9⟩ = .ok true := by decide +kernel
  rw [ho, ← hip, hall]

/-! ## Section 3: Recognition -/

/-- **Recognition.**  `prefix` finds `p` exactly when `prefixes` lists `p` alone, and it finds
    some prefix exactly when the range is the range of a prefix.  Every such prefix masks
    to the one found. -/
theorem asPrefix_iff (r : IpRange A) :
    ∃ o ps, r.asPrefix = .ok o ∧ r.prefixes = .ok ps ∧
      (∀ p, o = some p ↔ ps = [p]) ∧
      ((∃ p, o = some p) ↔ ∃ q : IpPrefix A, q.toRange = .ok r) ∧
      ∀ p, o = some p → p.toRange = .ok r ∧
        ∀ q : IpPrefix A, q.toRange = .ok r → q.masked = .ok p := by
  obtain ⟨o, ho, hiff⟩ := r.asPrefix_spec
  obtain ⟨ps, hps, htiling, haligned⟩ := r.prefixes_spec
  refine ⟨o, ps, ho, hps, ?_, ?_, ?_⟩
  · intro p
    rw [hiff]
    constructor
    · intro hin
      obtain ⟨hp, hseg⟩ := hin
      obtain ⟨p', hp', hblock⟩ := List.map_eq_singleton_iff.mp (htiling.eq_singleton_iff.mpr hseg)
      rw [hp', (haligned p' (by simp [hp'])).eq_of_block_eq hp hblock]
    · rintro rfl
      exact ⟨haligned p List.mem_cons_self, htiling.eq_singleton_iff.mp rfl⟩
  · constructor
    · intro hin
      obtain ⟨p, hp⟩ := hin
      exact ⟨p, IpPrefix.toRange_eq_iff.mpr ((hiff p).mp hp).2⟩
    · intro hin
      obtain ⟨q, hq⟩ := hin
      obtain ⟨p, _, hblock, hp⟩ := q.masked_spec
      exact ⟨p, (hiff p).mpr ⟨hp, hblock ▸ IpPrefix.toRange_eq_iff.mp hq⟩⟩
  · intro p hp
    obtain ⟨halign, hseg⟩ := (hiff p).mp hp
    have hmasked : ∀ q : IpPrefix A, q.toRange = .ok r → q.masked = .ok p := by
      intro q hq
      obtain ⟨m, hm, hblock, hmalign⟩ := q.masked_spec
      -- the endpoints determine the block
      have hsame : m.block = p.block :=
        hblock.trans (Block.seg_injective ((IpPrefix.toRange_eq_iff.mp hq).trans hseg.symm))
      rw [hm, hmalign.eq_of_block_eq halign hsame]
    exact ⟨IpPrefix.toRange_eq_iff.mpr hseg, hmasked⟩

/-! ## Section 4: The shape of a decomposition -/

/-- The host-bit counts go strictly up and then strictly down, and there are at most
    `2 * BITS - 2` prefixes. -/
structure ShortStaircase (ps : List (IpPrefix A)) : Prop where
  shape : ∃ up down, Block.Staircase (ps.map fun p => bits A - p.mask.toNat) up down
  equal_once : ∀ i j (hi : i + 1 < ps.length) (hj : j + 1 < ps.length),
    ps[i].mask = ps[i + 1].mask → ps[j].mask = ps[j + 1].mask → i = j
  count_le : ∀ n, (ps.map fun p => bits A - p.mask.toNat).count n ≤ 2
  length_le : ps.length ≤ 2 * bits A - 2

theorem prefixes_shortStaircase (hbits : 2 ≤ bits A) (r : IpRange A) :
    ∃ ps, r.prefixes = .ok ps ∧ ShortStaircase ps := by
  obtain ⟨ps, hps, htiling, _⟩ := r.prefixes_spec
  have hlevels : (ps.map IpPrefix.block).map Block.level =
      ps.map fun p => bits A - p.mask.toNat := by
    rw [List.map_map]
    rfl
  obtain ⟨up, down, hstairs, _⟩ := htiling.staircase
  rw [hlevels] at hstairs
  have htop : ∀ i (hi : i + 1 < ps.length), ps[i].mask = ps[i + 1].mask → i + 1 = up.length := by
    intro i hi heq
    apply hstairs.eq_top (by simpa using hi)
    rw [List.getElem_map, List.getElem_map, heq]
  refine ⟨ps, hps, ⟨up, down, hstairs⟩, ?_, hstairs.count_le, ?_⟩
  · intro i j hi hj hieq hjeq
    have h1 := htop i hi hieq
    have h2 := htop j hj hjeq
    omega
  · have hlen := htiling.length_le hbits r.seg_hi_lt
    rwa [List.length_map] at hlen

/-- **Staircase.**  The decomposition of any range is a short staircase, in both families
    (that of an inverted range is empty). -/
theorem prefixes_staircase :
    (∀ r : IpRange Ipv4Addr, ∃ ps, r.prefixes = .ok ps ∧ ShortStaircase ps) ∧
      ∀ r : IpRange Ipv6Addr, ∃ ps, r.prefixes = .ok ps ∧ ShortStaircase ps :=
  ⟨prefixes_shortStaircase (by decide), prefixes_shortStaircase (by decide)⟩

end Ipnetx
