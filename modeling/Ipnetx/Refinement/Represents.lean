import Ipnetx.Refinement.SetOps

/-! # Sets of Addresses

    The purpose of an `IpSet` is to be a set of addresses.  `s.Represents S`
    says that `s` satisfies the representation invariant and that its
    membership test decides `S`.  A set of addresses has at most one
    representation (`Represents.eq_iff`), and the operations of the code
    implement the Boolean operations on `Set A`. -/

namespace Ipnetx

open Machine IpAddress

variable {A : Type} [IpAddress A]

/-- The addresses in some range of the list. -/
def rangesSet (rs : List (IpRange A)) : Set A := {ip | ∃ r ∈ rs, r.contains ip = true}

theorem mem_rangesSet {rs : List (IpRange A)} {ip : A} :
    ip ∈ rangesSet rs ↔ val ip ∈ Segment.cover (segs rs) :=
  mem_cover_segs.symm

theorem rangesSet_append (rs ss : List (IpRange A)) :
    rangesSet (rs ++ ss) = rangesSet rs ∪ rangesSet ss := by
  apply Set.ext
  intro ip
  simp only [mem_rangesSet, segs_append, Segment.mem_cover_append, Set.mem_union]

theorem rangesSet_perm {rs ss : List (IpRange A)} (h : rs.Perm ss) :
    rangesSet rs = rangesSet ss := by
  apply Set.ext
  intro ip
  simp only [rangesSet, Set.mem_ofPred_eq, h.mem_iff]

namespace IpSet

/-! ## Section 1: Representation -/

/-- `s` is the normalized set of ranges with the addresses `S`. -/
structure Represents (s : IpSet A) (S : Set A) : Prop where
  normalized : s.Normalized
  mem_iff : ∀ ip, s.containsIp ip = true ↔ ip ∈ S

/-- The addresses the membership test accepts. -/
def addrs (s : IpSet A) : Set A := {ip | s.containsIp ip = true}

theorem Normalized.represents {s : IpSet A} (h : s.Normalized) : s.Represents s.addrs :=
  ⟨h, fun _ => Iff.rfl⟩

theorem represents_of_cover {s : IpSet A} {S : Set A} (h : Segment.Canonical s.view)
    (hmem : ∀ ip, val ip ∈ Segment.cover s.view ↔ ip ∈ S) : s.Represents S :=
  ⟨h, fun ip => (containsIp_iff h).trans (hmem ip)⟩

section
variable {s t : IpSet A} {S T : Set A}

theorem Represents.mem_cover (hs : s.Represents S) {ip : A} :
    val ip ∈ Segment.cover s.view ↔ ip ∈ S :=
  (containsIp_iff hs.normalized).symm.trans (hs.mem_iff ip)

/-- The stored ranges hold exactly the represented addresses. -/
theorem Represents.rangesSet_eq (hs : s.Represents S) : rangesSet s.ranges = S := by
  apply Set.ext
  intro ip
  rw [mem_rangesSet, ← hs.mem_cover]
  rfl

/-- Structural equality of the range lists is equality of the address sets. -/
theorem Represents.eq_iff (hs : s.Represents S) (ht : t.Represents T) : s = t ↔ S = T := by
  constructor
  · rintro rfl
    apply Set.ext
    intro ip
    rw [← hs.mem_iff, ht.mem_iff]
  · rintro rfl
    exact hs.normalized.ext ht.normalized fun ip => (hs.mem_iff ip).trans (ht.mem_iff ip).symm

theorem Represents.unique (hs : s.Represents S) (ht : t.Represents S) : s = t :=
  (hs.eq_iff ht).mpr rfl

/-- Every stored range is valid. -/
theorem Normalized.isValid (hs : s.Normalized) {r : IpRange A} (hr : r ∈ s.ranges) :
    r.isValid = true :=
  IpRange.isValid_iff.mpr (hs.valid _ (seg_mem_segs hr))

/-! ## Section 2: The Boolean operations -/

theorem union_represents (hs : s.Represents S) (ht : t.Represents T) :
    ∃ u, s.union t = .ok u ∧ u.Represents (S ∪ T) := by
  obtain ⟨u, hu, hnorm, hcover⟩ := union_spec hs.normalized ht.normalized
  refine ⟨u, hu, represents_of_cover hnorm ?_⟩
  intro ip
  rw [hcover, segs_append, Segment.mem_cover_append]
  exact or_congr hs.mem_cover ht.mem_cover

theorem difference_represents (hs : s.Represents S) (ht : t.Represents T) :
    ∃ u, s.difference t = .ok u ∧ u.Represents (S \ T) := by
  obtain ⟨u, hu, hview⟩ := difference_refines s t
  have hspec := Segment.subtract_spec hs.normalized ht.normalized
  refine ⟨u, hu, represents_of_cover (hview ▸ hspec.canonical) ?_⟩
  intro ip
  rw [hview, hspec.mem_iff, hs.mem_cover, ht.mem_cover]
  exact Iff.rfl

theorem intersection_represents (hs : s.Represents S) (ht : t.Represents T) :
    ∃ u, s.intersection t = .ok u ∧ u.Represents (S ∩ T) := by
  obtain ⟨u, hu, hview⟩ := intersection_refines s t
  rw [Segment.intersect_eq_overlaps hs.normalized ht.normalized] at hview
  refine ⟨u, hu, represents_of_cover (hview ▸ hs.normalized.overlaps ht.normalized) ?_⟩
  intro ip
  rw [hview, Segment.mem_cover_overlaps, hs.mem_cover, ht.mem_cover]
  exact Iff.rfl

theorem complement_represents (hs : s.Represents S) :
    ∃ u, s.complement = .ok u ∧ u.Represents Sᶜ := by
  obtain ⟨u, hu, hview⟩ := complement_refines hs.normalized
  have hspec :=
    Segment.gaps_spec 0 (2 ^ bits A - 1) hs.normalized (fun x _ => Nat.zero_le x.lo) view_hi_le
  refine ⟨u, hu, represents_of_cover (hview ▸ hspec.canonical) ?_⟩
  intro ip
  have hip : val ip ≤ 2 ^ bits A - 1 := Nat.le_sub_one_of_lt (val_lt ip)
  rw [hview, hspec.mem_iff, hs.mem_cover, Set.mem_compl_iff]
  exact ⟨fun h => h.2.2, fun h => ⟨Nat.zero_le _, hip, h⟩⟩

end

end IpSet

/-! ## Section 3: Normalization -/

section
variable [SortUnstableByKey (IpRange A) A]

/-- Normalizing valid ranges gives the representation of their addresses. -/
theorem normalize_represents {rs : List (IpRange A)} (hvalid : ∀ r ∈ rs, r.isValid = true) :
    (IpSet.new (normalize rs)).Represents (rangesSet rs) := by
  obtain ⟨hcanonical, hcover⟩ := normalize_spec hvalid
  refine IpSet.represents_of_cover hcanonical ?_
  intro ip
  rw [mem_rangesSet, ← hcover]
  exact Iff.rfl

end

end Ipnetx
