import Mathlib.Data.Set.Card
import Ipnetx.Segment.Canonical

/-! # Starts

    A run of a set starts at a point that follows no point of the set.  The
    starts of a set are as many as the segments of its canonical list, so what
    an operation on sets does to the starts it does to the length of the list.

    Main results:
    - `Canonical.ncard_starts`: one start for each segment.
    - `ncard_starts_union_add_inter`: union and intersection together have as
      many starts as the two sets, less the places where the sets touch.
    - `ncard_starts_diff`: a difference keeps the starts that are not removed
      and gains one behind each removed run that ends inside. -/

namespace Segment

/-! ## Section 1: Two sets -/

section
variable {α : Type*} (R : α → α → Prop)

/-- The points that follow a point of `S`. -/
def after (S : Set α) : Set α := {x | ∃ y ∈ S, R y x}

/-- The points of `S` that follow no point of `S`. -/
def starts (S : Set α) : Set α := S \ after R S

/-- The points of one set only that follow a point of the other set only. -/
def seams (S T : Set α) : Set α := ((S \ T) ∩ after R (T \ S)) ∪ ((T \ S) ∩ after R (S \ T))

variable {R} (hR : Relator.LeftUnique R)
include hR

/-- A point follows one point at most, so it follows a point of a set or one of the complement. -/
theorem mem_after_iff {x y : α} (hxy : R y x) {S : Set α} : x ∈ after R S ↔ y ∈ S := by
  have hmp : x ∈ after R S → y ∈ S := by
    intro hin
    obtain ⟨z, hz, hzx⟩ := hin
    exact hR hxy hzx ▸ hz
  exact ⟨hmp, fun hy => ⟨y, hy, hxy⟩⟩

omit hR in
theorem not_mem_after {x : α} (hx : ¬ ∃ y, R y x) (S : Set α) : x ∉ after R S := by
  intro hin
  obtain ⟨y, _, hy⟩ := hin
  exact hx ⟨y, hy⟩

omit hR in
open Classical in
/-- A cardinality as a sum. -/
private theorem ncard_eq_sum [Fintype α] (S : Set α) :
    S.ncard = ∑ x, if x ∈ S then 1 else 0 := by
  rw [Set.ncard_eq_toFinset_card', Finset.sum_boole, Nat.cast_id]
  congr 1
  apply Finset.ext
  intro x
  simp

/-- **Union and intersection.** -/
theorem ncard_starts_union_add_inter [Finite α] (S T : Set α) :
    (starts R (S ∪ T)).ncard + (starts R (S ∩ T)).ncard + (seams R S T).ncard =
      (starts R S).ncard + (starts R T).ncard := by
  classical
  have hfintype := Fintype.ofFinite α
  simp only [ncard_eq_sum, ← Finset.sum_add_distrib]
  apply Finset.sum_congr rfl
  intro x _
  -- the count at `x` depends on where `x` and the point before it are
  simp only [starts, seams, Set.mem_union, Set.mem_inter_iff, Set.mem_sdiff]
  by_cases hx : ∃ y, R y x
  · obtain ⟨y, hyx⟩ := hx
    simp only [mem_after_iff hR hyx, Set.mem_union, Set.mem_inter_iff, Set.mem_sdiff]
    by_cases h1 : x ∈ S <;> by_cases h2 : x ∈ T <;> by_cases h3 : y ∈ S <;> by_cases h4 : y ∈ T <;>
      simp [h1, h2, h3, h4]
  · simp only [not_mem_after hx]
    by_cases h1 : x ∈ S <;> by_cases h2 : x ∈ T <;> simp [h1, h2]

/-- **Difference.** -/
theorem ncard_starts_diff [Finite α] (S T : Set α) :
    (starts R (S \ T)).ncard = (starts R S \ T).ncard + ((S \ T) ∩ after R (S ∩ T)).ncard := by
  have hsplit : starts R (S \ T) = (starts R S \ T) ∪ ((S \ T) ∩ after R (S ∩ T)) := by
    apply Set.ext
    intro x
    simp only [starts, Set.mem_union, Set.mem_inter_iff, Set.mem_sdiff]
    by_cases hx : ∃ y, R y x
    · obtain ⟨y, hyx⟩ := hx
      simp only [mem_after_iff hR hyx, Set.mem_inter_iff, Set.mem_sdiff]
      tauto
    · simp only [not_mem_after hx]
      tauto
  have hdisjoint : Disjoint (starts R S \ T) ((S \ T) ∩ after R (S ∩ T)) := by
    rw [Set.disjoint_left]
    intro x hx hin
    obtain ⟨y, hy, hyx⟩ := hin.2
    exact hx.1.2 ⟨y, hy.1, hyx⟩
  rw [hsplit, Set.ncard_union_eq hdisjoint]

end

/-! ## Section 2: The starts of a canonical list -/

/-- Only the first point of a segment follows no point of the cover. -/
theorem Canonical.starts_eq {l : List (Segment ℕ)} (hl : Canonical l) :
    starts (fun y x => x = y + 1) (cover l) = {x | ∃ s ∈ l, s.lo = x} := by
  apply Set.ext
  intro x
  have hmp : x ∈ starts (fun y x => x = y + 1) (cover l) → ∃ s ∈ l, s.lo = x := by
    intro hx
    obtain ⟨⟨s, hs, hxs⟩, hfirst⟩ := hx
    by_contra hne
    have hlo : s.lo ≠ x := fun h => hne ⟨s, hs, h⟩
    have hxs' := mem_def.mp hxs
    have hbefore : x - 1 ∈ s := mem_def.mpr ⟨by omega, by omega⟩
    exact hfirst ⟨x - 1, ⟨s, hs, hbefore⟩, by omega⟩
  have hmpr : (∃ s ∈ l, s.lo = x) → x ∈ starts (fun y x => x = y + 1) (cover l) := by
    intro hin
    obtain ⟨s, hs, rfl⟩ := hin
    refine ⟨hl.lo_mem hs, ?_⟩
    intro hafter
    obtain ⟨y, hy, hlo⟩ := hafter
    -- a covered point right before the segment would be in the segment
    have hsub : Set.Icc y s.lo ⊆ cover l := by
      intro z hz
      rcases Nat.eq_or_lt_of_le hz.1 with rfl | hlt
      · exact hy
      · have hz' : z = s.lo := Nat.le_antisymm hz.2 (hlo.trans_le hlt)
        exact hz' ▸ hl.lo_mem hs
    have hle : y ≤ s.lo := by omega
    have hmem : y ∈ s := hl.ordConnected_subset Set.ordConnected_Icc hsub hs
      ⟨hle, le_rfl⟩ ⟨le_rfl, hl.valid s hs⟩ ⟨le_rfl, hle⟩
    have := (mem_def.mp hmem).1
    omega
  exact ⟨hmp, hmpr⟩

/-- **One start for each segment.** -/
theorem Canonical.ncard_starts {l : List (Segment ℕ)} (hl : Canonical l) :
    (starts (fun y x => x = y + 1) (cover l)).ncard = l.length := by
  have hnodup : (l.map lo).Nodup := by
    apply List.Nodup.map_on _ hl.nodup
    intro s hs t ht hlo
    exact hl.eq_of_mem hs ht ⟨le_rfl, hl.valid s hs⟩ ⟨hlo.ge, hlo.le.trans (hl.valid t ht)⟩
  have hcoe : {x | ∃ s ∈ l, s.lo = x} = ((l.map lo).toFinset : Set ℕ) := by
    apply Set.ext
    intro x
    simp
  rw [hl.starts_eq, hcoe, Set.ncard_coe_finset, List.toFinset_card_of_nodup hnodup,
    List.length_map]

end Segment
