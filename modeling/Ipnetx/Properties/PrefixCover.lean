import Ipnetx.Properties.Runs
import Ipnetx.Refinement.Decompose

/-! # Decomposition into Prefixes

    A range decomposes into prefixes that tile it (`prefixes_tile`), each the
    largest one possible at its place (`prefixes_greedy`).  The
    prefixes of a set are the greedy tilings of its ranges one after the
    other (`IpSet.prefixes_spec`), so by the theory of dyadic blocks they
    form the unique shortest list of prefixes with the addresses of the set
    (`prefixes_shortest`). -/

namespace Ipnetx

open Machine IpAddress IpSetBuilder

variable {A : Type} [IpAddress A]

/-! ## Section 1: One range -/

/-- The ranges of a list of prefixes are their blocks. -/
theorem toRanges_spec (ps : List (IpPrefix A)) :
    ∃ rs : List (IpRange A), List.Forall₂ (fun p r => p.toRange = .ok r) ps rs ∧
      segs rs = (ps.map IpPrefix.block).map Block.seg := by
  induction ps with
  | nil => exact ⟨[], .nil, rfl⟩
  | cons p ps ih =>
    obtain ⟨rs, hrs, hsegs⟩ := ih
    obtain ⟨r, hr, hseg⟩ := p.toRange_spec
    refine ⟨r :: rs, .cons hr hrs, ?_⟩
    rw [segs_cons, hseg, hsegs]
    rfl

/-- **Tiling.**  The decomposition of a valid range is not empty, its prefixes have no host
    bits, the first one starts at `start`, each next one starts one address after the
    previous one's end, and the last one ends at `end`. -/
theorem prefixes_tile {r : IpRange A} (hr : r.isValid = true) :
    ∃ (ps : List (IpPrefix A)) (rs : List (IpRange A)),
      r.prefixes = .ok ps ∧ ps ≠ [] ∧ (∀ p ∈ ps, p.masked = .ok p) ∧
      List.Forall₂ (fun p r => p.toRange = .ok r) ps rs ∧
      rs.head?.map IpRange.start = some r.start ∧
      (∀ i (_ : i + 1 < rs.length), val rs[i + 1].start = val rs[i].end_ + 1) ∧
      rs.getLast?.map IpRange.end_ = some r.end_ := by
  obtain ⟨ps, hps, htiling, haligned⟩ := r.prefixes_spec
  obtain ⟨rs, hrs, hsegs⟩ := toRanges_spec ps
  have hblocks : ps.map IpPrefix.block ≠ [] := htiling.ne_nil (IpRange.isValid_iff.mp hr)
  have hranges : rs ≠ [] := by
    rintro rfl
    exact hblocks (List.map_eq_nil_iff.mp hsegs.symm)
  refine ⟨ps, rs, hps, fun h => hblocks (by rw [h]; rfl),
    fun p hp => IpPrefix.masked_eq_self_iff.mpr (haligned p hp), hrs, ?_, ?_, ?_⟩
  · -- the first range is the first tile
    obtain ⟨x, hx⟩ : ∃ x, rs.head? = some x := ⟨_, List.head?_eq_some_head hranges⟩
    have hseg : some x.seg = (ps.map IpPrefix.block).head?.map Block.seg := by
      rw [← List.head?_map, ← hsegs, segs, List.head?_map, hx]
      rfl
    obtain ⟨b, hb, hbx⟩ := Option.map_eq_some_iff.mp hseg.symm
    have hstart : val x.start = val r.start :=
      (congrArg Segment.lo hbx).symm.trans (htiling.head_lo b hb)
    rw [hx, Option.map_some, val_injective hstart]
  · -- consecutive blocks are consecutive ranges
    have hchain : (segs rs).IsChain fun s t => t.lo = s.hi + 1 := by
      rw [hsegs, List.isChain_map]
      exact htiling.consecutive
    rw [segs, List.isChain_map] at hchain
    exact fun i hi => List.isChain_iff_getElem.mp hchain i hi
  · -- the last range is the last tile
    obtain ⟨x, hx⟩ : ∃ x, rs.getLast? = some x := ⟨_, List.getLast?_eq_some_getLast hranges⟩
    have hseg : some x.seg = (ps.map IpPrefix.block).getLast?.map Block.seg := by
      rw [← List.getLast?_map, ← hsegs, segs, List.getLast?_map, hx]
      rfl
    obtain ⟨b, hb, hbx⟩ := Option.map_eq_some_iff.mp hseg.symm
    have hend : val x.end_ = val r.end_ :=
      (congrArg Segment.hi hbx).symm.trans (htiling.last_hi b hb)
    rw [hx, Option.map_some, val_injective hend]

/-- The full IPv6 space, where the cursor passes the largest word. -/
theorem prefixes_tile_full_space :
    ∃ ps, (IpRange.new (⟨0⟩ : Ipv6Addr) ⟨BitVec.allOnes 128⟩).prefixes = .ok ps ∧ ps ≠ [] := by
  obtain ⟨ps, _, hps, hne, _⟩ :=
    prefixes_tile (r := IpRange.new (⟨0⟩ : Ipv6Addr) ⟨BitVec.allOnes 128⟩) (by decide)
  exact ⟨ps, hps, hne⟩

/-- **Greedy blocks.**  The loop runs one iteration for each prefix it returns.  At every
    cursor the branch it takes yields the largest block that starts there, is aligned and
    ends within the range, and `host_mask` has that many low bits set. -/
theorem prefixes_greedy (r : IpRange A) :
    ∃ ps, r.prefixes = .ok ps ∧
      (∀ cur, IpRange.Visits A (toU128 r.end_) (toU128 r.start) cur ↔
        ∃ p ∈ ps, toU128 p.ip = cur) ∧
      ∀ cur, IpRange.Visits A (toU128 r.end_) (toU128 r.start) cur →
        ∃ h m, IpRange.hostBits ((BITS A).setWidth 32) cur (toU128 r.end_) = .ok h ∧
          IpRange.hostMask h = .ok m ∧
          h.toNat ≤ bits A ∧ 2 ^ h.toNat ∣ cur.toNat ∧ cur.toNat + 2 ^ h.toNat - 1 ≤ val r.end_ ∧
          (∀ k, k ≤ bits A → 2 ^ k ∣ cur.toNat → cur.toNat + 2 ^ k - 1 ≤ val r.end_ →
            k ≤ h.toNat) ∧
          m.toNat = 2 ^ h.toNat - 1 := by
  obtain ⟨ps, hps, _⟩ := r.prefixes_spec
  refine ⟨ps, hps, IpRange.visits_iff hps, ?_⟩
  intro cur hv
  have hend : (toU128 r.end_).toNat < 2 ^ bits A := val_lt r.end_
  obtain ⟨h, hh, hg⟩ := IpRange.hostBits_spec (BitVec.le_def.mp hv.le) hend
  have hbits : h.toNat ≤ bits A := IpRange.le_bits_of_fits _ hend hg.fits
  obtain ⟨m, hm, hmask⟩ := IpRange.hostMask_spec (hbits.trans bits_le_128)
  have hval : val r.end_ = (toU128 r.end_).toNat := rfl
  have hfits := hg.fits
  rw [hval]
  refine ⟨h, m, hh, hm, hbits, hg.dvd, by omega, ?_, hmask⟩
  intro k _ hdvd hk
  exact hg.greatest k hdvd (by omega)

/-- The largest size of the fast path, `2 ^ 63` addresses. -/
theorem prefixes_greedy_fast_path :
    ∃ h, IpRange.hostBits 128 0 0x7fffffffffffffff#128 = .ok h ∧ 63 ≤ h.toNat := by
  obtain ⟨_, _, _, hspec⟩ :=
    prefixes_greedy (IpRange.new (⟨0⟩ : Ipv6Addr) ⟨0x7fffffffffffffff#128⟩)
  obtain ⟨h, _, hh, _, _, _, _, hgreatest, _⟩ := hspec 0 (.here (by decide))
  exact ⟨h, hh, hgreatest 63 (by decide) (Nat.dvd_zero _) (by decide)⟩

/-! ## Section 2: A whole set -/

/-- The prefixes of a set: one greedy tiling for each range, in order. -/
theorem IpSet.prefixes_spec (s : IpSet A) :
    ∃ (ps : List (IpPrefix A)) (bss : List (List Block)), s.prefixes = .ok ps ∧
      Block.Tilings s.view bss ∧ ps.map IpPrefix.block = bss.flatten ∧ ∀ p ∈ ps, p.Aligned := by
  -- the fold appends to what it has so far
  have hfold : ∀ (rs : List (IpRange A)) (acc : List (IpPrefix A)),
      ∃ (ps : List (IpPrefix A)) (bss : List (List Block)),
        rs.foldlM (fun prefixes range => do
          let more ← range.prefixes
          return prefixes ++ more) acc = .ok (acc ++ ps) ∧
        Block.Tilings (segs rs) bss ∧ ps.map IpPrefix.block = bss.flatten ∧
        ∀ p ∈ ps, p.Aligned := by
    intro rs
    induction rs with
    | nil => exact fun acc => ⟨[], [], by simp, .nil, rfl, by simp⟩
    | cons r rs ih =>
      intro acc
      obtain ⟨qs, hqs, htiling, hqaligned⟩ := r.prefixes_spec
      obtain ⟨ps, bss, hps, htilings, hflat, haligned⟩ := ih (acc ++ qs)
      refine ⟨qs ++ ps, qs.map IpPrefix.block :: bss, ?_, .cons htiling htilings, ?_, ?_⟩
      · rw [List.foldlM_cons, hqs, ← List.append_assoc]
        exact hps
      · rw [List.map_append, hflat, List.flatten_cons]
      · intro p hp
        exact (List.mem_append.mp hp).elim (hqaligned p) (haligned p)
  obtain ⟨ps, bss, hps, hspec⟩ := hfold s.ranges []
  exact ⟨ps, bss, hps, hspec⟩

/-- Prefixes without host bits are determined by their blocks, as lists up to order too. -/
theorem perm_of_blocks_perm {ps qs : List (IpPrefix A)} (hps : ∀ p ∈ ps, p.Aligned)
    (hqs : ∀ q ∈ qs, q.Aligned) (h : (ps.map IpPrefix.block).Perm (qs.map IpPrefix.block)) :
    ps.Perm qs := by
  have hinj : Function.Injective fun p : {p : IpPrefix A // p.Aligned} => p.val.block :=
    fun p q hpq => Subtype.ext (p.property.eq_of_block_eq q.property hpq)
  have hval : ∀ (l : List (IpPrefix A)) (hl : ∀ p ∈ l, p.Aligned),
      (l.attachWith IpPrefix.Aligned hl).map (fun p => p.val.block) = l.map IpPrefix.block :=
    fun _ hl => List.attachWith_map_val hl
  rw [← hval ps hps, ← hval qs hqs, List.map_perm_map_iff hinj] at h
  have hperm := h.map Subtype.val
  rwa [List.attachWith_map_subtype_val, List.attachWith_map_subtype_val] at hperm

/-- The addresses of a list of prefixes are the points of its blocks. -/
theorem mem_points_blocks {L : List (IpPrefix A)} {ip : A} :
    val ip ∈ Block.points (L.map IpPrefix.block) ↔ ∃ p ∈ L, p.contains ip = .ok true := by
  constructor
  · intro hin
    obtain ⟨b, hb, hip⟩ := hin
    obtain ⟨p, hp, rfl⟩ := List.mem_map.mp hb
    exact ⟨p, hp, p.mem_addrs.mpr hip⟩
  · intro hin
    obtain ⟨p, hp, hip⟩ := hin
    exact ⟨p.block, List.mem_map_of_mem hp, p.mem_addrs.mp hip⟩

/-- Blocks of prefixes that have the addresses of a set have its points. -/
theorem points_blocks_eq {s : IpSet A} (hs : s.Normalized) {L : List (IpPrefix A)}
    (hL : ∀ ip, (∃ p ∈ L, p.contains ip = .ok true) ↔ s.containsIp ip = true) :
    Block.points (L.map IpPrefix.block) = Segment.cover s.view := by
  have hip : ∀ ip : A, val ip ∈ Block.points (L.map IpPrefix.block) ↔
      val ip ∈ Segment.cover s.view :=
    fun ip => mem_points_blocks.trans ((hL ip).trans (IpSet.containsIp_iff hs))
  apply Set.ext
  intro x
  constructor
  · intro hx
    have hlt : x < 2 ^ bits A := by
      obtain ⟨b, hb, hxb⟩ := hx
      obtain ⟨p, _, rfl⟩ := List.mem_map.mp hb
      exact (Block.mem_iff.mp hxb).2.trans_lt p.block_hi_lt
    obtain ⟨ip, rfl⟩ := exists_val (A := A) hlt
    exact (hip ip).mp hx
  · intro hx
    obtain ⟨ip, rfl⟩ := exists_val (A := A) (lt_of_mem_cover_segs hx)
    exact (hip ip).mpr hx

/-- The maskings of a list of prefixes. -/
theorem maskeds_spec (L : List (IpPrefix A)) :
    ∃ ms : List (IpPrefix A), List.Forall₂ (fun p m => p.masked = .ok m) L ms ∧
      ms.map IpPrefix.block = L.map IpPrefix.block ∧ ∀ m ∈ ms, m.Aligned := by
  induction L with
  | nil => exact ⟨[], .nil, rfl, by simp⟩
  | cons p L ih =>
    obtain ⟨ms, hms, hblocks, haligned⟩ := ih
    obtain ⟨m, hm, hblock, hmaligned⟩ := p.masked_spec
    refine ⟨m :: ms, .cons hm hms, ?_, by simpa using ⟨hmaligned, haligned⟩⟩
    rw [List.map_cons, hblock, hblocks]
    rfl

section
variable [SortUnstableByKey (IpRange A) A]

/-- **Exact and shortest cover.**  The prefixes of a set build the set again, in any order,
    and every list of prefixes with the same addresses is at least as long; one of the same
    length is a rearrangement of them up to host bits. -/
theorem prefixes_shortest {s : IpSet A} (hs : Reachable s) :
    ∃ ps, s.prefixes = .ok ps ∧
      (∀ qs : List (IpPrefix A), qs.Perm ps → run (.fromPrefixes qs) [] = .ok s) ∧
      ∀ L : List (IpPrefix A),
        (∀ ip, (∃ p ∈ L, p.contains ip = .ok true) ↔ s.containsIp ip = true) →
        ps.length ≤ L.length ∧ (L.length = ps.length →
          ∃ ms, List.Forall₂ (fun p m => p.masked = .ok m) L ms ∧ ms.Perm ps) := by
  obtain ⟨ps, bss, hps, htilings, hflat, haligned⟩ := s.prefixes_spec
  have hpoints : Block.points (ps.map IpPrefix.block) = Segment.cover s.view :=
    hflat ▸ htilings.points_eq
  refine ⟨ps, hps, ?_, ?_⟩
  · intro qs hperm
    have hsets : SetsSatisfy IpSet.Normalized ([] : List (Call A)) :=
      fun c hc => absurd hc List.not_mem_nil
    obtain ⟨t, ht, hrep⟩ := run_represents (.fromPrefixes qs) hsets
    -- the calls add the points of the blocks and remove nothing
    have haddrs : added ((Source.fromPrefixes qs).calls ++ []) \ removed [] = s.addrs := by
      apply Set.ext
      intro ip
      have hmem : (∃ p ∈ ps, p.contains ip = .ok true) ↔ ip ∈ s.addrs := by
        rw [← mem_points_blocks, hpoints]
        exact (IpSet.containsIp_iff hs.normalized).symm
      rw [← hmem]
      simp [added, removed, Source.calls, Call.adds, IpPrefix.addrs, hperm.mem_iff]
    rw [haddrs] at hrep
    rw [ht, hrep.unique hs.represents]
  · intro L hL
    -- the blocks of `L` cover the same points as the tilings
    have hshort := Block.shortest_of_tilings htilings hs.normalized
      (points_blocks_eq hs.normalized hL)
    rw [← hflat, List.length_map, List.length_map] at hshort
    refine ⟨hshort.1, ?_⟩
    intro hlen
    obtain ⟨ms, hms, hblocks, hmaligned⟩ := maskeds_spec L
    refine ⟨ms, hms, perm_of_blocks_perm hmaligned haligned ?_⟩
    rw [hblocks]
    exact hshort.2 hlen

/-- The prefixes of the sample set, collected in descending order, build it again. -/
theorem prefixes_shortest_sampleSet :
    ∃ ps, sampleSet.prefixes = .ok ps ∧
      @run Ipv4Addr _ (.ofInsertionSort _ _) (.fromPrefixes ps.reverse) [] = .ok sampleSet := by
  obtain ⟨ps, hps, hbuild, _⟩ :=
    @prefixes_shortest Ipv4Addr _ (.ofInsertionSort _ _) _ reachable_sampleSet
  exact ⟨ps, hps, hbuild _ (List.reverse_perm ps)⟩

end

end Ipnetx
