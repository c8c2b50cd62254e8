import Ipnetx.Segment.Starts
import Ipnetx.Properties.PrefixLists

/-! # Exact Fragmentation

    How many ranges the results of the set operations store, to the range.

    A reachable set stores one range for each address whose predecessor is
    not in the set.  Counting these addresses turns the bounds on the lengths
    into equations (`fragmentation_laws`): a union and an intersection store
    fewer ranges than the two arguments only by the places where an address
    of one argument alone comes next to one of the other alone, and a
    difference stores one range more wherever a removed run ends inside. -/

namespace Ipnetx

open Machine IpAddress

variable {A : Type} [IpAddress A]

/-- `jp` is the address after `ip`. -/
def Precedes (ip jp : A) : Prop := val jp = val ip + 1

theorem precedes_leftUnique : Relator.LeftUnique (Precedes : A → A → Prop) := by
  intro ip jp kp h h'
  have heq : val kp = val ip + 1 := h
  have heq' : val kp = val jp + 1 := h'
  exact val_injective (by omega)

/-- The starts are the same for addresses and for their numbers. -/
theorem image_starts (S : Set A) : Set.image val (Segment.starts Precedes S) =
    Segment.starts (fun y x => x = y + 1) (Set.image val S) := by
  have hafter : ∀ ip : A, val ip ∈ Segment.after (fun y x => x = y + 1) (Set.image val S) ↔
      ip ∈ Segment.after Precedes S := by
    intro ip
    have hmp : val ip ∈ Segment.after (fun y x => x = y + 1) (Set.image val S) →
        ip ∈ Segment.after Precedes S := by
      intro hin
      obtain ⟨_, ⟨jp, hjp, rfl⟩, hnext⟩ := hin
      exact ⟨jp, hjp, hnext⟩
    have hmpr : ip ∈ Segment.after Precedes S →
        val ip ∈ Segment.after (fun y x => x = y + 1) (Set.image val S) := by
      intro hin
      obtain ⟨jp, hjp, hnext⟩ := hin
      exact ⟨val jp, ⟨jp, hjp, rfl⟩, hnext⟩
    exact ⟨hmp, hmpr⟩
  apply Set.ext
  intro x
  have hmp : x ∈ Set.image val (Segment.starts Precedes S) →
      x ∈ Segment.starts (fun y x => x = y + 1) (Set.image val S) := by
    intro hin
    obtain ⟨ip, hip, rfl⟩ := hin
    exact ⟨⟨ip, hip.1, rfl⟩, (hafter ip).not.mpr hip.2⟩
  have hmpr : x ∈ Segment.starts (fun y x => x = y + 1) (Set.image val S) →
      x ∈ Set.image val (Segment.starts Precedes S) := by
    intro hin
    obtain ⟨⟨ip, hip, rfl⟩, hfirst⟩ := hin
    exact ⟨ip, ⟨hip, (hafter ip).not.mp hfirst⟩, rfl⟩
  exact ⟨hmp, hmpr⟩

/-- A set stores as many ranges as it has starts. -/
theorem IpSet.Represents.len_eq_ncard {s : IpSet A} {S : Set A} (hs : s.Represents S) :
    s.len = (Segment.starts Precedes S).ncard := by
  have hstarts := hs.normalized.ncard_starts
  rw [hs.cover_eq, ← image_starts, Set.ncard_image_of_injective _ val_injective] at hstarts
  rw [hstarts, IpSet.view, segs, List.length_map]
  rfl

/-- The numbers of ranges that the union, the intersection and the difference of `a` and `b`
    store. -/
structure FragmentationLaws (a b : IpSet A) : Prop where
  /-- Up to the addresses of one set alone that come right after one of the other alone. -/
  union_intersection : ∃ u i, a.union b = .ok u ∧ a.intersection b = .ok i ∧
    u.len + i.len +
      {ip | (ip ∈ a.addrs \ b.addrs ∧ ∃ jp ∈ b.addrs \ a.addrs, Precedes jp ip) ∨
        (ip ∈ b.addrs \ a.addrs ∧ ∃ jp ∈ a.addrs \ b.addrs, Precedes jp ip)}.ncard =
      a.len + b.len
  /-- The ranges whose first address stays, and the addresses that stay behind a removed one. -/
  difference : ∃ d, a.difference b = .ok d ∧
    d.len = {ip | (∃ r ∈ a.ranges, r.start = ip) ∧ ip ∉ b.addrs}.ncard +
      {ip | ip ∈ a.addrs \ b.addrs ∧ ∃ jp ∈ a.addrs ∩ b.addrs, Precedes jp ip}.ncard

/-- The starts are the first addresses of the ranges. -/
theorem IpSet.Represents.mem_starts_iff {s : IpSet A} {S : Set A} (hs : s.Represents S) {ip : A} :
    ip ∈ Segment.starts Precedes S ↔ ∃ r ∈ s.ranges, r.start = ip := by
  have himage : ip ∈ Segment.starts Precedes S ↔
      val ip ∈ Set.image val (Segment.starts Precedes S) :=
    val_injective.mem_set_image.symm
  rw [himage, image_starts, ← hs.cover_eq, hs.normalized.starts_eq]
  have hmp : (∃ x ∈ s.view, x.lo = val ip) → ∃ r ∈ s.ranges, r.start = ip := by
    intro hin
    obtain ⟨x, hx, hlo⟩ := hin
    obtain ⟨r, hr, rfl⟩ := mem_segs.mp hx
    exact ⟨r, hr, val_injective hlo⟩
  have hmpr : (∃ r ∈ s.ranges, r.start = ip) → ∃ x ∈ s.view, x.lo = val ip := by
    intro hin
    obtain ⟨r, hr, rfl⟩ := hin
    exact ⟨r.seg, seg_mem_segs hr, rfl⟩
  exact ⟨hmp, hmpr⟩

/-- **Exact fragmentation.**  A union and an intersection store together as many ranges as their
    arguments, less one wherever an address of one set alone comes right after one of the other
    alone.  A difference stores one range for each start that it keeps and one wherever an address
    stays behind a removed one. -/
theorem fragmentation_laws [SortUnstableByKey (IpRange A) A] {a b : IpSet A} (ha : Reachable a)
    (hb : Reachable b) : FragmentationLaws a b := by
  have hfinite : Finite A := IpSet.finite_addresses
  obtain ⟨u, hu, hru⟩ := IpSet.union_represents ha.represents hb.represents
  obtain ⟨i, hi, hri⟩ := IpSet.intersection_represents ha.represents hb.represents
  obtain ⟨d, hd, hrd⟩ := IpSet.difference_represents ha.represents hb.represents
  have hunion := Segment.ncard_starts_union_add_inter precedes_leftUnique a.addrs b.addrs
  have hdiff := Segment.ncard_starts_diff precedes_leftUnique a.addrs b.addrs
  rw [← hru.len_eq_ncard, ← hri.len_eq_ncard, ← ha.represents.len_eq_ncard,
    ← hb.represents.len_eq_ncard] at hunion
  rw [← hrd.len_eq_ncard] at hdiff
  have hkept : Segment.starts Precedes a.addrs \ b.addrs =
      {ip | (∃ r ∈ a.ranges, r.start = ip) ∧ ip ∉ b.addrs} := by
    apply Set.ext
    intro ip
    rw [Set.mem_sdiff, ha.represents.mem_starts_iff]
    rfl
  rw [hkept] at hdiff
  exact ⟨⟨u, i, hu, hi, hunion⟩, ⟨d, hd, hdiff⟩⟩

/-- Here `3` comes right after `2` and `4` right after `3`, and `2` stays behind `1`. -/
theorem fragmentation_laws_sampleSet : FragmentationLaws sampleSet oddSet :=
  @fragmentation_laws Ipv4Addr _ (.ofInsertionSort _ _) _ _ reachable_sampleSet reachable_oddSet

end Ipnetx
