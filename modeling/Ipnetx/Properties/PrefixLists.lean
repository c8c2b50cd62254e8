import Ipnetx.Dyadic.Siblings
import Ipnetx.Refinement.Queries
import Ipnetx.Properties.PrefixCover
import Ipnetx.Properties.Prefixes

/-! # Lists of Prefixes

    What `IpSet::prefixes` lists, in terms of addresses: the largest prefixes
    inside the set, in ascending order (`LargestPrefixes`).  A set of
    addresses has one such list, which determines it.

    The blocks of the list are a shortest cover of the view
    (`Represents.shortest`), which carries the theory of `Ipnetx.Dyadic` over
    to prefixes. -/

namespace Ipnetx

open Machine IpAddress

variable {A : Type} [IpAddress A]

/-! ## Section 1: Prefixes and blocks -/

namespace IpPrefix

theorem addrs_subset_iff {p : IpPrefix A} {S : Set A} {N : Set ℕ} (hN : ∀ ip, val ip ∈ N ↔ ip ∈ S) :
    p.addrs ⊆ S ↔ ∀ x ∈ p.block, x ∈ N := by
  have hmp : p.addrs ⊆ S → ∀ x ∈ p.block, x ∈ N := by
    intro h x hx
    obtain ⟨ip, rfl⟩ := exists_val (A := A) ((Block.mem_iff.mp hx).2.trans_lt p.block_hi_lt)
    exact (hN ip).mpr (h (p.mem_addrs.mpr hx))
  have hmpr : (∀ x ∈ p.block, x ∈ N) → p.addrs ⊆ S :=
    fun h ip hip => (hN ip).mp (h _ (p.mem_addrs.mp hip))
  exact ⟨hmp, hmpr⟩

theorem addrs_subset_addrs_iff {p q : IpPrefix A} :
    p.addrs ⊆ q.addrs ↔ ∀ x ∈ p.block, x ∈ q.block :=
  addrs_subset_iff (N := {x | x ∈ q.block}) fun _ => q.mem_addrs.symm

/-- The numbers of the addresses are the points of the block. -/
theorem image_addrs (p : IpPrefix A) : Set.image val p.addrs = {x | x ∈ p.block} := by
  apply Set.ext
  intro x
  have hmp : x ∈ Set.image val p.addrs → x ∈ p.block := by
    intro hin
    obtain ⟨ip, hip, rfl⟩ := hin
    exact p.mem_addrs.mp hip
  have hmpr : x ∈ p.block → x ∈ Set.image val p.addrs := by
    intro hx
    obtain ⟨ip, rfl⟩ := exists_val (A := A) ((Block.mem_iff.mp hx).2.trans_lt p.block_hi_lt)
    exact ⟨ip, p.mem_addrs.mpr hx, rfl⟩
  exact ⟨hmp, hmpr⟩

/-- Prefixes with the same addresses have the same block. -/
theorem addrs_eq_iff {p q : IpPrefix A} : p.addrs = q.addrs ↔ p.block = q.block := by
  have hmp : p.addrs = q.addrs → p.block = q.block := by
    intro h
    exact Block.eq_of_subset_of_subset (addrs_subset_addrs_iff.mp h.le)
      (addrs_subset_addrs_iff.mp h.ge)
  have hmpr : p.block = q.block → p.addrs = q.addrs := by
    intro h
    apply Set.ext
    intro ip
    rw [p.mem_addrs, q.mem_addrs, h]
  exact ⟨hmp, hmpr⟩

/-- The mask is what the level leaves of the width. -/
theorem mask_add_level (p : IpPrefix A) : p.mask.toNat + p.block.level = bits A :=
  Nat.add_sub_cancel' p.mask_toNat_le

/-- A prefix is of full length when it has no address but its own. -/
theorem isSingleIp_iff {p : IpPrefix A} : p.isSingleIp = true ↔ p.addrs = {p.ip} := by
  have hlevel : p.isSingleIp = true ↔ p.block.level = 0 := by
    have hadd := p.mask_add_level
    have hbits : (BITS A).toNat = bits A := rfl
    unfold isSingleIp
    rw [decide_eq_true_iff, ← BitVec.toNat_inj]
    omega
  rw [hlevel]
  have hmp : p.block.level = 0 → p.addrs = {p.ip} := by
    intro hzero
    apply Set.ext
    intro ip
    rw [p.mem_addrs, Set.mem_singleton_iff, ← val_inj]
    have hip : val p.ip / 2 ^ p.block.level = p.block.index := p.val_ip_mem_block
    rw [Block.mem_def, ← hip, hzero, pow_zero, Nat.div_one, Nat.div_one]
  have hmpr : p.addrs = {p.ip} → p.block.level = 0 := by
    intro hsingle
    have hcard : p.addrs.ncard = 2 ^ p.block.level := by
      rw [show p.addrs = {ip | val ip ∈ p.block} from Set.ext fun _ => p.mem_addrs]
      exact p.ncard_block
    rw [hsingle, Set.ncard_singleton] at hcard
    exact Nat.pow_eq_one.mp hcard.symm |>.resolve_left (by decide)
  exact ⟨hmp, hmpr⟩

end IpPrefix

/-- The addresses of a list of prefixes. -/
def prefixesSet (ps : List (IpPrefix A)) : Set A := {ip | ∃ p ∈ ps, p.contains ip = .ok true}

theorem mem_prefixesSet {ps : List (IpPrefix A)} {ip : A} :
    ip ∈ prefixesSet ps ↔ val ip ∈ Block.points (ps.map IpPrefix.block) :=
  mem_points_blocks.symm

/-- The points of the blocks are the numbers of the addresses. -/
theorem points_eq_image (ps : List (IpPrefix A)) :
    Block.points (ps.map IpPrefix.block) = Set.image val (prefixesSet ps) := by
  apply Set.ext
  intro x
  have hmp : x ∈ Block.points (ps.map IpPrefix.block) → x ∈ Set.image val (prefixesSet ps) := by
    intro hx
    have hlt : x < 2 ^ bits A := by
      obtain ⟨b, hb, hxb⟩ := hx
      obtain ⟨p, _, rfl⟩ := List.mem_map.mp hb
      exact (Block.mem_iff.mp hxb).2.trans_lt p.block_hi_lt
    obtain ⟨ip, rfl⟩ := exists_val (A := A) hlt
    exact ⟨ip, mem_prefixesSet.mpr hx, rfl⟩
  have hmpr : x ∈ Set.image val (prefixesSet ps) → x ∈ Block.points (ps.map IpPrefix.block) := by
    intro hin
    obtain ⟨ip, hip, rfl⟩ := hin
    exact mem_prefixesSet.mp hip
  exact ⟨hmp, hmpr⟩

/-- The addresses of the first prefix come before those of the second one. -/
theorem ascending_iff {p q : IpPrefix A} :
    (∀ x ∈ p.addrs, ∀ y ∈ q.addrs, x < y) ↔ p.block.hi < q.block.lo := by
  have hmp : (∀ x ∈ p.addrs, ∀ y ∈ q.addrs, x < y) → p.block.hi < q.block.lo := by
    intro h
    obtain ⟨x, hx⟩ := exists_val (A := A) p.block_hi_lt
    obtain ⟨y, hy⟩ := exists_val (A := A) q.block_lo_lt
    have hlt := h x (p.mem_addrs.mpr (hx ▸ p.block.hi_mem)) y
      (q.mem_addrs.mpr (hy ▸ q.block.lo_mem))
    rwa [lt_iff_val, hx, hy] at hlt
  have hmpr : p.block.hi < q.block.lo → ∀ x ∈ p.addrs, ∀ y ∈ q.addrs, x < y := by
    intro h x hx y hy
    have h1 := (Block.mem_iff.mp (p.mem_addrs.mp hx)).2
    have h2 := (Block.mem_iff.mp (q.mem_addrs.mp hy)).1
    rw [lt_iff_val]
    omega
  exact ⟨hmp, hmpr⟩

/-! ## Section 2: The largest prefixes of a set -/

/-- `ps` lists the largest prefixes inside `S`, without host bits and in ascending order. -/
structure LargestPrefixes (ps : List (IpPrefix A)) (S : Set A) : Prop where
  ascending : ps.Pairwise fun p q => ∀ x ∈ p.addrs, ∀ y ∈ q.addrs, x < y
  mem_iff : ∀ p, p ∈ ps ↔ p.masked = .ok p ∧ p.addrs ⊆ S ∧
    ∀ q : IpPrefix A, p.addrs ⊆ q.addrs → q.addrs ⊆ S → q.addrs = p.addrs
  cover : prefixesSet ps = S

theorem LargestPrefixes.blocks_ascending {ps : List (IpPrefix A)} {S : Set A}
    (h : LargestPrefixes ps S) : Block.Ascending (ps.map IpPrefix.block) :=
  List.pairwise_map.mpr (h.ascending.imp ascending_iff.mp)

theorem LargestPrefixes.aligned {ps : List (IpPrefix A)} {S : Set A} (h : LargestPrefixes ps S)
    {p : IpPrefix A} (hp : p ∈ ps) : p.Aligned :=
  IpPrefix.masked_eq_self_iff.mp ((h.mem_iff p).mp hp).1

/-- Lists of prefixes without host bits are determined by their blocks. -/
theorem eq_of_blocks_eq {ps qs : List (IpPrefix A)} (hps : ∀ p ∈ ps, p.Aligned)
    (hqs : ∀ q ∈ qs, q.Aligned) (h : ps.map IpPrefix.block = qs.map IpPrefix.block) : ps = qs := by
  induction ps generalizing qs with
  | nil => exact (List.map_eq_nil_iff.mp h.symm).symm
  | cons p ps ih =>
    cases qs with
    | nil => cases h
    | cons q qs =>
      obtain ⟨hhead, htail⟩ := List.cons.inj h
      have hpq := (hps p List.mem_cons_self).eq_of_block_eq (hqs q List.mem_cons_self) hhead
      have hrest := ih (fun p' hp' => hps p' (List.mem_cons_of_mem _ hp'))
        (fun q' hq' => hqs q' (List.mem_cons_of_mem _ hq')) htail
      rw [hpq, hrest]

/-- There is one list. -/
theorem LargestPrefixes.unique {ps qs : List (IpPrefix A)} {S : Set A} (hps : LargestPrefixes ps S)
    (hqs : LargestPrefixes qs S) : ps = qs := by
  have hmem : ∀ p, p ∈ ps ↔ p ∈ qs := fun p => (hps.mem_iff p).trans (hqs.mem_iff p).symm
  have hblocks : ∀ b, b ∈ ps.map IpPrefix.block ↔ b ∈ qs.map IpPrefix.block := by
    intro b
    simp only [List.mem_map, hmem]
  exact eq_of_blocks_eq (fun _ => hps.aligned) (fun _ => hqs.aligned)
    (hps.blocks_ascending.ext hqs.blocks_ascending hblocks)

/-- Ascending prefixes whose blocks are the maximal ones inside `S`. -/
theorem largestPrefixes_of_shortest {ps : List (IpPrefix A)} {S : Set A} {N : Set ℕ}
    (hN : ∀ ip, val ip ∈ N ↔ ip ∈ S) (haligned : ∀ p ∈ ps, p.Aligned)
    (hascending : Block.Ascending (ps.map IpPrefix.block))
    (hshort : Block.Shortest (ps.map IpPrefix.block) N) : LargestPrefixes ps S where
  ascending := (List.pairwise_map.mp hascending).imp ascending_iff.mpr
  mem_iff := by
    intro p
    have hmp : p ∈ ps → p.masked = .ok p ∧ p.addrs ⊆ S ∧
        ∀ q : IpPrefix A, p.addrs ⊆ q.addrs → q.addrs ⊆ S → q.addrs = p.addrs := by
      intro hp
      have hmax := hshort.maximal _ (List.mem_map_of_mem hp)
      have hlargest : ∀ q : IpPrefix A, p.addrs ⊆ q.addrs → q.addrs ⊆ S → q.addrs = p.addrs := by
        intro q hpq hq
        exact IpPrefix.addrs_eq_iff.mpr (hmax.eq_of_subset _
          ((IpPrefix.addrs_subset_iff hN).mp hq) (IpPrefix.addrs_subset_addrs_iff.mp hpq))
      exact ⟨IpPrefix.masked_eq_self_iff.mpr (haligned p hp),
        (IpPrefix.addrs_subset_iff hN).mpr hmax.subset, hlargest⟩
    have hmpr : (p.masked = .ok p ∧ p.addrs ⊆ S ∧
        ∀ q : IpPrefix A, p.addrs ⊆ q.addrs → q.addrs ⊆ S → q.addrs = p.addrs) → p ∈ ps := by
      intro hin
      obtain ⟨hmasked, hsub, hlargest⟩ := hin
      -- the prefix lies in a listed one, which is no larger
      obtain ⟨b, hb, hpb⟩ := hshort.subset_iff.mp ((IpPrefix.addrs_subset_iff hN).mp hsub)
      obtain ⟨q, hq, rfl⟩ := List.mem_map.mp hb
      have hqS : q.addrs ⊆ S := (IpPrefix.addrs_subset_iff hN).mpr (hshort.maximal _ hb).subset
      have hsame := hlargest q (IpPrefix.addrs_subset_addrs_iff.mpr hpb) hqS
      have hqp : q = p := (haligned q hq).eq_of_block_eq (IpPrefix.masked_eq_self_iff.mp hmasked)
        (IpPrefix.addrs_eq_iff.mp hsame)
      exact hqp ▸ hq
    exact ⟨hmp, hmpr⟩
  cover := by
    apply Set.ext
    intro ip
    rw [mem_prefixesSet, hshort.points_eq, hN]

namespace IpSet

variable {s : IpSet A} {S : Set A}

/-- The view covers the numbers of the represented addresses. -/
theorem Represents.cover_eq (hs : s.Represents S) :
    Segment.cover s.view = Set.image val S := by
  apply Set.ext
  intro x
  have hmp : x ∈ Segment.cover s.view → x ∈ Set.image val S := by
    intro hx
    obtain ⟨ip, rfl⟩ := exists_val (A := A) (lt_of_mem_cover_segs hx)
    exact ⟨ip, hs.mem_cover.mp hx, rfl⟩
  have hmpr : x ∈ Set.image val S → x ∈ Segment.cover s.view := by
    intro hin
    obtain ⟨ip, hip, rfl⟩ := hin
    exact hs.mem_cover.mpr hip
  exact ⟨hmp, hmpr⟩

/-- The blocks that `prefixes` lists. -/
theorem Represents.shortest (hs : s.Represents S) :
    ∃ ps, s.prefixes = .ok ps ∧ LargestPrefixes ps S ∧
      Block.Shortest (ps.map IpPrefix.block) (Set.image val S) := by
  obtain ⟨ps, bss, hps, htilings, hflat, haligned⟩ := s.prefixes_spec
  have hascending := htilings.ascending hs.normalized
  have hshort := htilings.shortest hs.normalized
  rw [← hflat] at hascending hshort
  rw [hs.cover_eq] at hshort
  have hN : ∀ ip : A, val ip ∈ Set.image val S ↔ ip ∈ S :=
    fun ip => val_injective.mem_set_image
  exact ⟨ps, hps, largestPrefixes_of_shortest hN haligned hascending hshort, hshort⟩

end IpSet

/-- Sets are equal when their prefix lists are. -/
theorem IpSet.Represents.eq_iff_prefixes {s t : IpSet A} {S T : Set A} (hs : s.Represents S)
    (ht : t.Represents T) : s = t ↔ s.prefixes = t.prefixes := by
  have hmpr : s.prefixes = t.prefixes → s = t := by
    intro h
    obtain ⟨ps, hps, hlargest, _⟩ := hs.shortest
    obtain ⟨qs, hqs, hlargest', _⟩ := ht.shortest
    rw [hps, hqs, Except.ok.injEq] at h
    -- each list covers its set
    have hcover : S = T := by rw [← hlargest.cover, h, hlargest'.cover]
    exact (hs.eq_iff ht).mpr hcover
  exact ⟨congrArg IpSet.prefixes, hmpr⟩

section
variable [SortUnstableByKey (IpRange A) A]

/-- **Largest prefixes.**  `prefixes` lists the largest prefixes inside the set, in ascending
    order, and no other list does; so sets are equal exactly when their lists are.  Every address
    of the set is in one of the prefixes, and a prefix lies in the set exactly when it lies in one
    of them. -/
theorem prefixes_largest {s : IpSet A} (hs : Reachable s) :
    ∃ ps, s.prefixes = .ok ps ∧ LargestPrefixes ps s.addrs ∧
      (∀ qs, LargestPrefixes qs s.addrs → qs = ps) ∧
      (∀ t, Reachable t → (s = t ↔ s.prefixes = t.prefixes)) ∧
      (∀ ip, s.containsIp ip = true ↔ ∃! p, p ∈ ps ∧ p.contains ip = .ok true) ∧
      ∀ (q : IpPrefix A) (r : IpRange A), q.toRange = .ok r →
        ∃ c, s.containsRange r = .ok c ∧ (c = true ↔ ∃ p ∈ ps, q.addrs ⊆ p.addrs) := by
  obtain ⟨ps, hps, hlargest, hshort⟩ := hs.represents.shortest
  have hN : ∀ ip : A, val ip ∈ Set.image val s.addrs ↔ ip ∈ s.addrs :=
    fun _ => val_injective.mem_set_image
  have hunique : ∀ ip, s.containsIp ip = true ↔ ∃! p, p ∈ ps ∧ p.contains ip = .ok true := by
    intro ip
    have hcover : s.containsIp ip = true ↔ ∃ p ∈ ps, p.contains ip = .ok true := by
      show ip ∈ s.addrs ↔ ip ∈ prefixesSet ps
      rw [hlargest.cover]
    rw [hcover]
    have hmp : (∃ p ∈ ps, p.contains ip = .ok true) →
        ∃! p, p ∈ ps ∧ p.contains ip = .ok true := by
      intro hin
      obtain ⟨p, hp, hip⟩ := hin
      refine ⟨p, ⟨hp, hip⟩, ?_⟩
      intro q hq
      -- maximal blocks that share a point are equal
      have hsame := (hshort.maximal _ (List.mem_map_of_mem hq.1)).unique
        (hshort.maximal _ (List.mem_map_of_mem hp)) (q.mem_addrs.mp hq.2) (p.mem_addrs.mp hip)
      exact (hlargest.aligned hq.1).eq_of_block_eq (hlargest.aligned hp) hsame
    exact ⟨hmp, fun hin => hin.exists⟩
  have hlists : ∀ t, Reachable t → (s = t ↔ s.prefixes = t.prefixes) :=
    fun t ht => hs.represents.eq_iff_prefixes ht.represents
  refine ⟨ps, hps, hlargest, fun qs hqs => hqs.unique hlargest, hlists, hunique, ?_⟩
  intro q r hr
  obtain ⟨c, hc, hiff⟩ := IpSet.containsRange_represents hs.represents r
  obtain ⟨r', hr', haddrs⟩ := q.toRange_addrs
  rw [hr, Except.ok.injEq] at hr'
  rw [← hr'] at haddrs
  have hvalid : r.isValid = true := by
    rw [IpRange.isValid_iff, ← IpPrefix.toRange_eq_iff.mp hr]
    exact q.block.lo_le_hi
  have hinside : (∀ ip, r.contains ip = true → ip ∈ s.addrs) ↔ ∃ p ∈ ps, q.addrs ⊆ p.addrs := by
    show r.addrs ⊆ s.addrs ↔ _
    rw [haddrs, IpPrefix.addrs_subset_iff hN, hshort.subset_iff]
    simp only [List.mem_map, exists_exists_and_eq_and, IpPrefix.addrs_subset_addrs_iff]
  exact ⟨c, hc, hiff.trans ((and_iff_right hvalid).trans hinside)⟩

/-- The address `4` of the sample set is in one prefix of its list. -/
theorem prefixes_largest_sampleSet :
    ∃ ps, sampleSet.prefixes = .ok ps ∧ ∃! p, p ∈ ps ∧ p.contains ⟨4⟩ = .ok true := by
  obtain ⟨ps, hps, _, _, _, hunique, _⟩ :=
    @prefixes_largest Ipv4Addr _ (.ofInsertionSort _ _) _ reachable_sampleSet
  exact ⟨ps, hps, (hunique _).mp (by decide +kernel)⟩

end

end Ipnetx
