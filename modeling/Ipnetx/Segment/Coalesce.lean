import Ipnetx.Segment.Canonical

/-! # Coalescing a Sorted Segment List

    Over the naturals, segments that touch (`s.lo = r.hi + 1`) cover a
    connected set, so a canonical list merges them.  `coalesce` does so in
    one pass over a list sorted by start, keeping one growing segment.

    The result is canonical and has the points of the list (`coalesce_spec`),
    so it does not depend on how equal starts are ordered. -/

namespace Segment

/-- Separation of naturals in exact arithmetic. -/
theorem separated_iff {r s : Segment ℕ} : Separated r s ↔ r.hi + 1 < s.lo := by
  constructor
  · intro hin
    obtain ⟨x, h1, h2⟩ := hin
    omega
  · intro h
    exact ⟨r.hi + 1, by omega, h⟩

/-- Ascending starts; ties in any order. -/
def SortedByLo (l : List (Segment ℕ)) : Prop := l.Pairwise fun r s => r.lo ≤ s.lo

/-- One pass with the growing segment `cur`: a segment that overlaps or touches it
    is absorbed, any other one closes it. -/
def coalesce (cur : Segment ℕ) : List (Segment ℕ) → List (Segment ℕ)
  | [] => [cur]
  | r :: rs =>
      if r.lo ≤ cur.hi + 1 then
        coalesce (if cur.hi < r.hi then ⟨cur.lo, r.hi⟩ else cur) rs
      else cur :: coalesce r rs

/-- The canonical form of a sorted list. -/
def normal : List (Segment ℕ) → List (Segment ℕ)
  | [] => []
  | r :: rs => coalesce r rs

/-- What the pass establishes, with the bound that lets an earlier segment be
    put in front. -/
structure Coalesced (cur : Segment ℕ) (rs out : List (Segment ℕ)) : Prop where
  canonical : Canonical out
  cover_eq : cover out = cover (cur :: rs)
  lo_le : ∀ s ∈ out, cur.lo ≤ s.lo

/-- A segment that overlaps or touches the current one is absorbed: the grown segment covers
    both. -/
private theorem Coalesced.absorbed {cur r g : Segment ℕ} {rs out : List (Segment ℕ)}
    (h : Coalesced g rs out) (hlo : cur.lo ≤ r.lo) (htouch : r.lo ≤ cur.hi + 1)
    (hglo : g.lo = cur.lo) (hghi : g.hi = max cur.hi r.hi) : Coalesced cur (r :: rs) out := by
  refine ⟨h.canonical, ?_, fun s hs => hglo ▸ h.lo_le s hs⟩
  apply Set.ext
  intro x
  rw [h.cover_eq]
  simp only [mem_cover_cons, mem_def]
  rw [← or_assoc]
  apply or_congr_left
  omega

/-- A segment past a gap starts the rest of the list. -/
private theorem Coalesced.apart {cur r : Segment ℕ} {rs out : List (Segment ℕ)}
    (h : Coalesced r rs out) (hcur : cur.Valid) (hlo : cur.lo ≤ r.lo)
    (hgap : ¬ r.lo ≤ cur.hi + 1) : Coalesced cur (r :: rs) (cur :: out) := by
  refine ⟨Canonical.cons hcur ?_ h.canonical, ?_, ?_⟩
  · intro s hs
    have := h.lo_le s hs
    exact separated_iff.mpr (by omega)
  · apply Set.ext
    intro x
    rw [mem_cover_cons, h.cover_eq]
    simp only [mem_cover_cons]
  · intro s hs
    rcases List.mem_cons.mp hs with rfl | hs
    · exact le_rfl
    · exact hlo.trans (h.lo_le s hs)

theorem coalesce_spec (cur : Segment ℕ) (rs : List (Segment ℕ))
    (hvalid : ∀ s ∈ cur :: rs, s.Valid) (hsorted : SortedByLo (cur :: rs)) :
    Coalesced cur rs (coalesce cur rs) := by
  induction rs generalizing cur with
  | nil =>
    refine ⟨Canonical.singleton (hvalid cur (by simp)), rfl, ?_⟩
    intro s hs
    rw [List.mem_singleton.mp hs]
  | cons r rs ih =>
    have hcur : cur.lo ≤ cur.hi := hvalid cur (by simp)
    have hr : r.lo ≤ r.hi := hvalid r (by simp)
    have hlo : cur.lo ≤ r.lo := List.rel_of_pairwise_cons hsorted (by simp)
    have hlo' : ∀ s ∈ rs, cur.lo ≤ s.lo := fun s hs =>
      List.rel_of_pairwise_cons hsorted (by simp [hs])
    have hvalid' : ∀ s ∈ rs, s.Valid := fun s hs => hvalid s (by simp [hs])
    -- the pass goes on from a grown segment with the same start
    have hgrown : ∀ g : Segment ℕ, g.lo = cur.lo → g.hi = max cur.hi r.hi →
        Coalesced g rs (coalesce g rs) := by
      intro g hglo hghi
      have hgv : g.Valid := by
        show g.lo ≤ g.hi
        omega
      exact ih g (by simpa using ⟨hgv, hvalid'⟩)
        (List.pairwise_cons.mpr ⟨fun s hs => hglo ▸ hlo' s hs, hsorted.tail.tail⟩)
    unfold coalesce
    by_cases htouch : r.lo ≤ cur.hi + 1
    · rw [if_pos htouch]
      by_cases hlt : cur.hi < r.hi
      · have hhi : r.hi = max cur.hi r.hi := by omega
        have hspec := hgrown ⟨cur.lo, r.hi⟩ rfl hhi
        rw [if_pos hlt]
        exact hspec.absorbed hlo htouch rfl hhi
      · have hhi : cur.hi = max cur.hi r.hi := by omega
        have hspec := hgrown cur rfl hhi
        rw [if_neg hlt]
        exact hspec.absorbed hlo htouch rfl hhi
    · rw [if_neg htouch]
      have hspec := ih r (by simpa using ⟨hr, hvalid'⟩) hsorted.tail
      exact hspec.apart hcur hlo htouch

theorem Canonical.normal {l : List (Segment ℕ)} (hvalid : ∀ s ∈ l, s.Valid)
    (hsorted : SortedByLo l) : Canonical (normal l) := by
  cases l with
  | nil => exact Canonical.nil
  | cons r rs => exact (coalesce_spec r rs hvalid hsorted).canonical

theorem cover_normal {l : List (Segment ℕ)} (hvalid : ∀ s ∈ l, s.Valid)
    (hsorted : SortedByLo l) : cover (normal l) = cover l := by
  cases l with
  | nil => rfl
  | cons r rs => exact (coalesce_spec r rs hvalid hsorted).cover_eq

/-- A canonical list is sorted by start. -/
theorem Canonical.sortedByLo {l : List (Segment ℕ)} (h : Canonical l) : SortedByLo l := by
  induction l with
  | nil => exact List.Pairwise.nil
  | cons s l ih =>
    refine List.pairwise_cons.mpr ⟨?_, ih h.tail⟩
    intro t ht
    have hv : s.lo ≤ s.hi := h.head_valid
    exact hv.trans (h.head_separated ht).hi_lt_lo.le

end Segment
