import Ipnetx.Dyadic.Levels
import Ipnetx.Properties.Normalization
import Ipnetx.Properties.PrefixLists
import Ipnetx.Properties.Runs

/-! # Set Operations on Prefix Lists

    What the set operations do to the list of prefixes of a set.

    - `remove_prefix`, `complement_prefix`: removing one prefix from another leaves one
      prefix of each length between the two.
    - `prefixes_length_bounds`: a union lists no more prefixes than its
      arguments together, and every prefix that is removed costs at most
      `BITS - 1` prefixes more. -/

namespace Ipnetx

open Machine IpAddress IpSetBuilder

variable {A : Type} [IpAddress A]

/-! ## Section 1: One prefix less -/

/-- The prefix of length zero. -/
def IpPrefix.whole (ip : A) : IpPrefix A := ⟨ip, 0, BitVec.le_def.mpr (Nat.zero_le _)⟩

theorem IpPrefix.whole_level (ip : A) : (whole ip).level = bits A := Nat.sub_zero _

theorem IpPrefix.whole_addrs (ip : A) : (whole ip).addrs = Set.univ := by
  apply Set.ext
  intro x
  have hmem : val x ∈ (whole ip).block := by
    show val x / 2 ^ (whole ip).level = val ip / 2 ^ (whole ip).level
    rw [whole_level, Nat.div_eq_of_lt (val_lt x), Nat.div_eq_of_lt (val_lt ip)]
  exact iff_of_true ((whole ip).mem_addrs.mpr hmem) trivial

/-- The masks of a list of prefixes. -/
def masks (ps : List (IpPrefix A)) : List ℕ := ps.map fun p => p.mask.toNat

theorem masks_eq_levels (ps : List (IpPrefix A)) :
    masks ps = ((ps.map IpPrefix.block).map Block.level).map (bits A - ·) := by
  unfold masks
  rw [List.map_map, List.map_map]
  apply List.map_congr_left
  intro p _
  have := p.mask_add_level
  show p.mask.toNat = bits A - p.block.level
  omega

/-- The lengths of the prefixes around a hole are those between the two masks. -/
theorem masks_hole {p q : IpPrefix A} (hmask : p.mask ≤ q.mask) :
    (((Block.hole q.block (p.block.level - q.block.level)).map Block.level).map
      (bits A - ·)).Perm (List.range' (p.mask.toNat + 1) (q.mask.toNat - p.mask.toNat)) := by
  have hp := p.mask_add_level
  have hq := q.mask_add_level
  have hle : p.mask.toNat ≤ q.mask.toNat := BitVec.le_def.mp hmask
  have hcount : p.block.level - q.block.level = q.mask.toNat - p.mask.toNat := by omega
  -- from the hole upwards the masks go down
  have hreverse : ((Block.hole q.block (p.block.level - q.block.level)).map Block.level).map
      (bits A - ·) = (List.range' (p.mask.toNat + 1) (q.mask.toNat - p.mask.toNat)).reverse := by
    rw [Block.hole_levels, List.map_map, List.reverse_range', hcount]
    apply List.map_congr_left
    intro k hk
    have := List.mem_range.mp hk
    show bits A - (q.block.level + k) = p.mask.toNat + 1 + (q.mask.toNat - p.mask.toNat) - 1 - k
    omega
  rw [hreverse]
  exact List.reverse_perm _

/-- What is listed of the prefix `p` without the prefix `q`. -/
structure Punched (p q : IpPrefix A) (ps : List (IpPrefix A)) : Prop where
  inside : p.mask ≤ q.mask → p.contains q.ip = .ok true →
    (masks ps).Perm (List.range' (p.mask.toNat + 1) (q.mask.toNat - p.mask.toNat))
  around : q.mask ≤ p.mask → q.contains p.ip = .ok true → ps = []
  apart : p.overlaps q = .ok false → ∃ m, p.masked = .ok m ∧ ps = [m]

theorem IpSet.Represents.punched {s : IpSet A} {p q : IpPrefix A}
    (hs : s.Represents (p.addrs \ q.addrs)) :
    ∃ ps, s.prefixes = .ok ps ∧ LargestPrefixes ps (p.addrs \ q.addrs) ∧ Punched p q ps := by
  obtain ⟨ps, hps, hlargest, hshort⟩ := hs.shortest
  rw [Set.image_sdiff val_injective, p.image_addrs, q.image_addrs] at hshort
  have hsingle := Block.Shortest.singleton p.block
  have hinside : p.mask ≤ q.mask → p.contains q.ip = .ok true →
      (masks ps).Perm (List.range' (p.mask.toNat + 1) (q.mask.toNat - p.mask.toNat)) := by
    intro hmask hin
    have hlevel : q.block.level ≤ p.block.level :=
      Nat.sub_le_sub_left (BitVec.le_def.mp hmask) _
    have hqp : ∀ x ∈ q.block, x ∈ p.block := fun x hx =>
      Block.subset_of_level_le hlevel q.val_ip_mem_block (p.mem_addrs.mp hin) hx
    have hpunch := hsingle.punch List.mem_cons_self hqp
    rw [List.erase_cons_head, List.nil_append] at hpunch
    rw [masks_eq_levels]
    exact (((hshort.perm hpunch).map _).map _).trans (masks_hole hmask)
  have haround : q.mask ≤ p.mask → q.contains p.ip = .ok true → ps = [] := by
    intro hmask hin
    have hlevel : p.block.level ≤ q.block.level :=
      Nat.sub_le_sub_left (BitVec.le_def.mp hmask) _
    have hpq : ∀ x ∈ p.block, x ∈ q.block := fun x hx =>
      Block.subset_of_level_le hlevel p.val_ip_mem_block (q.mem_addrs.mp hin) hx
    rw [List.eq_nil_iff_forall_not_mem]
    intro m hm
    have hlo := (hshort.maximal _ (List.mem_map_of_mem hm)).subset _ m.block.lo_mem
    exact hlo.2 (hpq _ hlo.1)
  have hapart : p.overlaps q = .ok false → ∃ m, p.masked = .ok m ∧ ps = [m] := by
    intro hov
    obtain ⟨o, ho, hiff⟩ := p.overlaps_spec q
    rw [hov, Except.ok.injEq] at ho
    have hdisjoint : ∀ x ∈ p.block, x ∉ q.block := by
      intro x hx hxq
      have := hiff.mpr ⟨x, hx, hxq⟩
      rw [← ho] at this
      cases this
    have hsame : {x | x ∈ p.block} \ {x | x ∈ q.block} = {x | x ∈ p.block} := by
      apply Set.ext
      intro x
      exact ⟨fun h => h.1, fun h => ⟨h, hdisjoint x h⟩⟩
    rw [hsame] at hshort
    obtain ⟨m, hm, hblock⟩ :=
      List.map_eq_singleton_iff.mp (List.perm_singleton.mp (hshort.perm hsingle))
    obtain ⟨p', hp', hblock', haligned⟩ := p.masked_spec
    have hmp : m = p' := (hlargest.aligned (hm ▸ List.mem_cons_self)).eq_of_block_eq haligned
      (hblock.trans hblock'.symm)
    exact ⟨p', hp', hmp ▸ hm⟩
  exact ⟨ps, hps, hlargest, hinside, haround, hapart⟩

section
variable [SortUnstableByKey (IpRange A) A]

/-- **One prefix less.**  Removing the prefix `q` from a prefix `p` around it leaves one prefix
    of each length from that of `p`, exclusive, to that of `q`; a prefix around `p` leaves nothing,
    and any other leaves `p` without its host bits. -/
theorem remove_prefix (p q : IpPrefix A) :
    ∃ s ps, run .new [.addPrefix p, .removePrefix q] = .ok s ∧ s.prefixes = .ok ps ∧
      LargestPrefixes ps (p.addrs \ q.addrs) ∧ Punched p q ps := by
  have hsets : SetsSatisfy IpSet.Normalized [.addPrefix p, .removePrefix q] :=
    setsSatisfy_of_none (by simp [Call.ipset?])
  obtain ⟨s, hs, hrep⟩ := run_represents .new hsets
  have haddrs : added ((Source.new : Source A).calls ++ [.addPrefix p, .removePrefix q]) \
      removed [.addPrefix p, .removePrefix q] = p.addrs \ q.addrs := by
    simp [added, removed, Source.calls, Call.adds, Call.removes]
  rw [haddrs] at hrep
  obtain ⟨ps, hps, hlargest, hpunched⟩ := hrep.punched
  exact ⟨s, ps, hs, hps, hlargest, hpunched⟩

/-- **Complement of a prefix.**  Everything but a prefix takes one prefix of each length from one
    to that of the prefix. -/
theorem complement_prefix (q : IpPrefix A) :
    ∃ s c ps, run .new [.addPrefix q] = .ok s ∧ s.complement = .ok c ∧ c.prefixes = .ok ps ∧
      (masks ps).Perm (List.range' 1 q.mask.toNat) := by
  have hsets : SetsSatisfy IpSet.Normalized [.addPrefix q] :=
    setsSatisfy_of_none (by simp [Call.ipset?])
  obtain ⟨s, hs, hrep⟩ := run_represents .new hsets
  have haddrs : added ((Source.new : Source A).calls ++ [.addPrefix q]) \
      removed [.addPrefix q] = q.addrs := by
    simp [added, removed, Source.calls, Call.adds, Call.removes]
  rw [haddrs] at hrep
  obtain ⟨c, hc, hcrep⟩ := IpSet.complement_represents hrep
  rw [Set.compl_eq_univ_sdiff, ← IpPrefix.whole_addrs q.ip] at hcrep
  obtain ⟨ps, hps, _, hpunched⟩ := hcrep.punched
  have hmask : (IpPrefix.whole q.ip).mask ≤ q.mask := BitVec.le_def.mpr (Nat.zero_le _)
  have hin : (IpPrefix.whole q.ip).contains q.ip = .ok true := by
    show q.ip ∈ (IpPrefix.whole q.ip).addrs
    rw [IpPrefix.whole_addrs]
    trivial
  exact ⟨s, c, ps, hs, hc, hps, hpunched.inside hmask hin⟩

end

/-! ## Section 2: How many prefixes -/

section
variable {a b : IpSet A} {S T : Set A} {pa pb : List (IpPrefix A)}

/-- No cover of the set is shorter than its list. -/
theorem IpSet.Represents.prefixes_length_le {s : IpSet A} (hs : s.Represents S) {cs : List Block}
    (hcs : Block.points cs = Set.image val S) :
    ∃ ps, s.prefixes = .ok ps ∧ ps.length ≤ cs.length := by
  obtain ⟨ps, hps, _, hshort⟩ := hs.shortest
  have hlen := hshort.length_le hcs
  rw [List.length_map] at hlen
  exact ⟨ps, hps, hlen⟩

/-- A set stores no more ranges than it lists prefixes. -/
theorem IpSet.Represents.len_le_prefixes {s : IpSet A} (hs : s.Represents S)
    {ps : List (IpPrefix A)} (hps : s.prefixes = .ok ps) : s.len ≤ ps.length := by
  obtain ⟨qs, hqs, hlargest, _⟩ := hs.shortest
  rw [hps, Except.ok.injEq] at hqs
  obtain ⟨rs, hrs, hsegs⟩ := toRanges_spec ps
  have hcover : rangesSet rs = S := by
    rw [← hlargest.cover, ← hqs]
    apply Set.ext
    intro ip
    rw [mem_rangesSet, hsegs, mem_prefixesSet]
    simp only [Segment.mem_cover, Block.mem_points, List.mem_map, exists_exists_and_eq_and,
      Block.mem_seg]
  rw [← hcover] at hs
  rw [hrs.length_eq]
  exact hs.length_le

/-- A range takes at most `2 * BITS - 2` prefixes. -/
theorem IpSet.prefixes_length_le_len (hbits : 2 ≤ bits A) (s : IpSet A) :
    ∃ ps, s.prefixes = .ok ps ∧ ps.length ≤ (2 * bits A - 2) * s.len := by
  obtain ⟨ps, bss, hps, htilings, hflat, _⟩ := s.prefixes_spec
  have hlen := htilings.length_le IpSet.view_hi_lt hbits
  rw [← hflat, List.length_map, IpSet.view, segs, List.length_map] at hlen
  exact ⟨ps, hps, hlen⟩

/-- The bounds for the lists of `a`, `b` and what is made of them. -/
structure PrefixBounds (a b : IpSet A) (pa pb : List (IpPrefix A)) : Prop where
  len_le : a.len ≤ pa.length
  le_len : pa.length ≤ (2 * bits A - 2) * a.len
  union : ∃ u pu, a.union b = .ok u ∧ u.prefixes = .ok pu ∧ pu.length ≤ pa.length + pb.length
  intersection : ∃ i pi, a.intersection b = .ok i ∧ i.prefixes = .ok pi ∧
    pi.length ≤ pa.length + pb.length - 1
  difference : ∃ d pd, a.difference b = .ok d ∧ d.prefixes = .ok pd ∧
    pd.length ≤ pa.length + (bits A - 1) * pb.length
  complement : ∃ c pc, a.complement = .ok c ∧ c.prefixes = .ok pc ∧
    pc.length ≤ 1 + (bits A - 1) * pa.length

theorem prefixBounds (hbits : 2 ≤ bits A) (hs : a.Represents S) (ht : b.Represents T) :
    ∃ pa pb, a.prefixes = .ok pa ∧ b.prefixes = .ok pb ∧ PrefixBounds a b pa pb := by
  obtain ⟨pa, hpa, _, hsa⟩ := hs.shortest
  obtain ⟨pb, hpb, _, hsb⟩ := ht.shortest
  have hpos : 1 ≤ bits A := by omega
  have hlevels : ∀ m ∈ pa.map IpPrefix.block, m.level ≤ bits A := by
    intro m hm
    obtain ⟨p, _, rfl⟩ := List.mem_map.mp hm
    exact p.level_le
  have hunion : ∃ u pu, a.union b = .ok u ∧ u.prefixes = .ok pu ∧
      pu.length ≤ pa.length + pb.length := by
    obtain ⟨u, hu, hrep⟩ := IpSet.union_represents hs ht
    have hpoints : Block.points (pa.map IpPrefix.block ++ pb.map IpPrefix.block) =
        Set.image val (S ∪ T) := by
      rw [Set.image_union, ← hsa.points_eq, ← hsb.points_eq]
      apply Set.ext
      intro x
      exact Block.points_append
    obtain ⟨pu, hpu, hlen⟩ := hrep.prefixes_length_le hpoints
    rw [List.length_append, List.length_map, List.length_map] at hlen
    exact ⟨u, pu, hu, hpu, hlen⟩
  have hinter : ∃ i pi, a.intersection b = .ok i ∧ i.prefixes = .ok pi ∧
      pi.length ≤ pa.length + pb.length - 1 := by
    obtain ⟨i, hi, hrep⟩ := IpSet.intersection_represents hs ht
    have himage : Set.image val (S ∩ T) = Set.image val S ∩ Set.image val T :=
      Set.image_inter val_injective
    by_cases hnil : pa.map IpPrefix.block = []
    · -- nothing is listed of the empty set
      have hempty : Block.points [] = Set.image val (S ∩ T) := by
        rw [himage, ← hsa.points_eq, hnil]
        simp [Block.points]
      obtain ⟨pi, hpi, hlen⟩ := hrep.prefixes_length_le hempty
      exact ⟨i, pi, hi, hpi, hlen.trans (Nat.zero_le _)⟩
    · obtain ⟨us, hus, husLen⟩ := hsa.exists_inter hsb hnil
      obtain ⟨pi, hpi, hlen⟩ := hrep.prefixes_length_le (hus.trans himage.symm)
      rw [List.length_map, List.length_map] at husLen
      exact ⟨i, pi, hi, hpi, hlen.trans husLen⟩
  have hdiff : ∃ d pd, a.difference b = .ok d ∧ d.prefixes = .ok pd ∧
      pd.length ≤ pa.length + (bits A - 1) * pb.length := by
    obtain ⟨d, hd, hrep⟩ := IpSet.difference_represents hs ht
    obtain ⟨us, hus, husLen⟩ := hsa.exists_diff hlevels hpos (pb.map IpPrefix.block)
    rw [hsb.points_eq, ← Set.image_sdiff val_injective] at hus
    obtain ⟨pd, hpd, hlen⟩ := hrep.prefixes_length_le hus.points_eq
    rw [List.length_map, List.length_map] at husLen
    exact ⟨d, pd, hd, hpd, hlen.trans husLen⟩
  have hcompl : ∃ c pc, a.complement = .ok c ∧ c.prefixes = .ok pc ∧
      pc.length ≤ 1 + (bits A - 1) * pa.length := by
    obtain ⟨c, hc, hrep⟩ := IpSet.complement_represents hs
    -- the complement is what the listed blocks leave of the whole space
    have hwhole := Block.Shortest.singleton (IpPrefix.whole (fromU128 0 : A)).block
    have hlevel : ∀ m ∈ [(IpPrefix.whole (fromU128 0 : A)).block], m.level ≤ bits A := by
      intro m hm
      rw [List.mem_singleton.mp hm]
      exact IpPrefix.level_le _
    obtain ⟨us, hus, husLen⟩ := hwhole.exists_diff hlevel hpos (pa.map IpPrefix.block)
    rw [← IpPrefix.image_addrs, IpPrefix.whole_addrs, hsa.points_eq,
      ← Set.image_sdiff val_injective, ← Set.compl_eq_univ_sdiff] at hus
    obtain ⟨pc, hpc, hlen⟩ := hrep.prefixes_length_le hus.points_eq
    rw [List.length_map] at husLen
    exact ⟨c, pc, hc, hpc, hlen.trans husLen⟩
  obtain ⟨pa', hpa', hle⟩ := a.prefixes_length_le_len hbits
  rw [hpa, Except.ok.injEq] at hpa'
  exact ⟨pa, pb, hpa, hpb, hs.len_le_prefixes hpa, hpa' ▸ hle, hunion, hinter, hdiff,
    hcompl⟩

end

/-- **How many prefixes.**  In both families a union lists no more prefixes than its arguments
    together, an intersection at least one less unless both lists are empty, and every prefix
    taken away costs at most `BITS - 1`. -/
theorem prefixes_length_bounds [SortUnstableByKey (IpRange Ipv4Addr) Ipv4Addr]
    [SortUnstableByKey (IpRange Ipv6Addr) Ipv6Addr] :
    (∀ a b : IpSet Ipv4Addr, Reachable a → Reachable b →
      ∃ pa pb, a.prefixes = .ok pa ∧ b.prefixes = .ok pb ∧ PrefixBounds a b pa pb) ∧
    ∀ a b : IpSet Ipv6Addr, Reachable a → Reachable b →
      ∃ pa pb, a.prefixes = .ok pa ∧ b.prefixes = .ok pb ∧ PrefixBounds a b pa pb :=
  ⟨fun _ _ ha hb => prefixBounds (by decide) ha.represents hb.represents,
    fun _ _ ha hb => prefixBounds (by decide) ha.represents hb.represents⟩

theorem prefixes_length_bounds_sampleSet :
    ∃ pa pb, sampleSet.prefixes = .ok pa ∧ oddSet.prefixes = .ok pb ∧
      PrefixBounds sampleSet oddSet pa pb :=
  (@prefixes_length_bounds (.ofInsertionSort _ _) (.ofInsertionSort _ _)).1 _ _
    reachable_sampleSet reachable_oddSet

end Ipnetx
