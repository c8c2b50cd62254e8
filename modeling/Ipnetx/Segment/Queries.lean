import Mathlib.Order.Interval.Set.Nat
import Ipnetx.Segment.Overlap

/-! # Queries on Canonical Lists

    Walks that answer a question about the points of canonical lists without
    building a list:

    - `within l m`: is every point of `l` a point of `m`?  Each segment of `l`
      is tested against a single segment of `m`, the first that does not end
      before it.
    - `meetsAny l m`: is some point in both?  On a tie the second list advances.

    `total` is the number of points, summed segment by segment. -/

namespace Segment

section
variable {α : Type*} [LinearOrder α]

/-! ## Section 1: Inclusion -/

/-- Every segment of the first list fits into the first segment of the second one that
    does not end before it.  The segments skipped are not looked at again. -/
def within : List (Segment α) → List (Segment α) → Bool
  | [], _ => true
  | r :: l, m =>
      match m.dropWhile fun b => decide (b.hi < r.lo) with
      | [] => false
      | b :: bs => if r.lo < b.lo ∨ b.hi < r.hi then false else within l (b :: bs)

theorem within_cons_of_nil {r : Segment α} {l m : List (Segment α)}
    (h : (m.dropWhile fun b => decide (b.hi < r.lo)) = []) : within (r :: l) m = false := by
  rw [within, h]

theorem within_cons_of_cons {r b : Segment α} {l m bs : List (Segment α)}
    (h : (m.dropWhile fun b => decide (b.hi < r.lo)) = b :: bs) :
    within (r :: l) m = if r.lo < b.lo ∨ b.hi < r.hi then false else within l (b :: bs) := by
  rw [within, h]

/-- A segment inside the cover lies inside one segment of the list. -/
theorem Canonical.subset_cover_iff {l : List (Segment α)} (hl : Canonical l) {q : Segment α}
    (hq : q.Valid) : (∀ x ∈ q, x ∈ cover l) ↔ ∃ s ∈ l, s.lo ≤ q.lo ∧ q.hi ≤ s.hi := by
  constructor
  · intro h
    have hlo : q.lo ∈ q := ⟨le_rfl, hq⟩
    have hhi : q.hi ∈ q := ⟨hq, le_rfl⟩
    obtain ⟨s, hs, hmem⟩ := h q.lo hlo
    -- `q` is connected, so it does not leave the segment of its first point
    have hend : q.hi ∈ s :=
      hl.ordConnected_subset Set.ordConnected_Icc (T := {x | x ∈ q}) h hs hlo hmem hhi
    exact ⟨s, hs, hmem.1, hend.2⟩
  · intro hin x hx
    obtain ⟨s, hs, hlo, hhi⟩ := hin
    exact ⟨s, hs, hlo.trans hx.1, hx.2.trans hhi⟩

/-- The only segment that can hold `q` is the first one that does not end before it. -/
private theorem subset_cover_head_iff {b q : Segment α} {bs : List (Segment α)}
    (hbs : Canonical (b :: bs)) (hq : q.Valid) (hend : q.lo ≤ b.hi) :
    (∀ x ∈ q, x ∈ cover (b :: bs)) ↔ b.lo ≤ q.lo ∧ q.hi ≤ b.hi := by
  rw [hbs.subset_cover_iff hq]
  constructor
  · intro hin
    obtain ⟨s, hs, hlo, hhi⟩ := hin
    rcases List.mem_cons.mp hs with rfl | hs
    · exact ⟨hlo, hhi⟩
    · -- later segments start past the end of `b`
      have hlt := (hbs.head_separated hs).hi_lt_lo
      exact absurd (hlt.trans_le hlo) (not_lt.mpr hend)
  · intro hin
    exact ⟨b, List.mem_cons_self, hin⟩

theorem cover_cons_subset_iff {r : Segment α} {l : List (Segment α)} {S : Set α} :
    cover (r :: l) ⊆ S ↔ (∀ x ∈ r, x ∈ S) ∧ cover l ⊆ S := by
  simp only [Set.subset_def, mem_cover_cons, or_imp, forall_and]

/-- The walk decides inclusion of the covers. -/
theorem within_iff {l m : List (Segment α)} (hl : Canonical l) (hm : Canonical m) :
    within l m = true ↔ cover l ⊆ cover m := by
  induction l generalizing m with
  | nil => simp [within]
  | cons r l ih =>
    obtain ⟨done, hsplit, hdone⟩ := dropWhile_split r.lo m
    have hends : ∀ b ∈ m.dropWhile (fun b => decide (b.hi < r.lo)), r.lo ≤ b.hi :=
      le_hi_of_mem_dropWhile hm
    generalize hdrop : m.dropWhile (fun b => decide (b.hi < r.lo)) = rest at *
    have hrest : Canonical rest := (hsplit ▸ hm).of_suffix
    -- the skipped segments have no point in common with `r :: l`
    have hskip : cover (r :: l) ⊆ cover m ↔ cover (r :: l) ⊆ cover rest := by
      rw [hsplit]
      refine forall₂_congr ?_
      intro x hx
      exact mem_cover_of_done fun d hd => (hdone d hd).trans_le (hl.head_lo_le hx)
    rw [hskip]
    cases rest with
    | nil =>
      have hlo : r.lo ∈ cover (r :: l) := hl.lo_mem List.mem_cons_self
      rw [within_cons_of_nil hdrop]
      exact iff_of_false Bool.false_ne_true fun h => not_mem_cover_nil _ (h hlo)
    | cons b bs =>
      rw [within_cons_of_cons hdrop, cover_cons_subset_iff,
        subset_cover_head_iff hrest hl.head_valid (hends b List.mem_cons_self)]
      by_cases h : r.lo < b.lo ∨ b.hi < r.hi
      · rw [if_pos h]
        refine iff_of_false Bool.false_ne_true ?_
        intro hin
        rcases h with h | h
        · exact absurd hin.1.1 (not_le.mpr h)
        · exact absurd hin.1.2 (not_le.mpr h)
      · rw [if_neg h, ih hl.tail hrest]
        obtain ⟨h1, h2⟩ := not_or.mp h
        exact (and_iff_right ⟨not_lt.mp h1, not_lt.mp h2⟩).symm

/-! ## Section 2: A common point -/

/-- Look for two segments that meet; pass the one that ends first, the second one on a tie. -/
def meetsAny : List (Segment α) → List (Segment α) → Bool
  | r :: l, s :: m =>
      if Meets r s then true
      else if r.hi < s.hi then meetsAny l (s :: m)
      else meetsAny (r :: l) m
  | _, _ => false
termination_by l m => l.length + m.length

@[simp] theorem meetsAny_nil_left (m : List (Segment α)) : meetsAny [] m = false := by
  simp [meetsAny]

@[simp] theorem meetsAny_nil_right (l : List (Segment α)) : meetsAny l [] = false := by
  cases l <;> simp [meetsAny]

theorem meetsAny_cons (r s : Segment α) (l m : List (Segment α)) :
    meetsAny (r :: l) (s :: m) = if Meets r s then true
      else if r.hi < s.hi then meetsAny l (s :: m) else meetsAny (r :: l) m := by
  rw [meetsAny]

/-- A segment that ends no later than the head of the other list, and does not meet it, has
    no point in common with that list. -/
private theorem disjoint_of_hi_le {r s : Segment α} {m : List (Segment α)}
    (hm : Canonical (s :: m)) (hmeets : ¬ Meets r s) (hle : r.hi ≤ s.hi) {x : α} (hx : x ∈ r) :
    x ∉ cover (s :: m) := by
  intro hin
  rcases mem_cover_cons.mp hin with hs | hlater
  · exact hmeets (meets_of_mem hx hs)
  · have hlt := (hm.mem_tail_iff.mp hlater).2
    exact absurd (hx.2.trans hle) (not_le.mpr hlt)

/-- Passing a segment without a common point loses none. -/
private theorem common_cons_iff {r : Segment α} {l m : List (Segment α)}
    (h : ∀ x ∈ r, x ∉ cover m) :
    (∃ x, x ∈ cover (r :: l) ∧ x ∈ cover m) ↔ ∃ x, x ∈ cover l ∧ x ∈ cover m := by
  constructor
  · intro hin
    obtain ⟨x, hx, hxm⟩ := hin
    rcases mem_cover_cons.mp hx with hr | hl
    · exact absurd hxm (h x hr)
    · exact ⟨x, hl, hxm⟩
  · intro hin
    obtain ⟨x, hx, hxm⟩ := hin
    exact ⟨x, mem_cover_cons.mpr (Or.inr hx), hxm⟩

/-- The walk decides whether the covers have a common point. -/
theorem meetsAny_iff {l m : List (Segment α)} (hl : Canonical l) (hm : Canonical m) :
    meetsAny l m = true ↔ ∃ x, x ∈ cover l ∧ x ∈ cover m := by
  induction l, m using meetsAny.induct with
  | case1 r l s m hmeets =>
    rw [meetsAny_cons, if_pos hmeets]
    obtain ⟨x, hr, hs⟩ := meets_iff.mp hmeets
    exact iff_of_true rfl ⟨x, mem_cover_cons.mpr (Or.inl hr), mem_cover_cons.mpr (Or.inl hs)⟩
  | case2 r l s m hmeets hlt ih =>
    rw [meetsAny_cons, if_neg hmeets, if_pos hlt, ih hl.tail hm]
    exact (common_cons_iff fun x hx => disjoint_of_hi_le hm hmeets hlt.le hx).symm
  | case3 r l s m hmeets hge ih =>
    rw [meetsAny_cons, if_neg hmeets, if_neg hge, ih hl hm.tail]
    have hdisjoint : ∀ x ∈ s, x ∉ cover (r :: l) :=
      fun x hx => disjoint_of_hi_le hl (meets_comm.not.mp hmeets) (not_lt.mp hge) hx
    have hswap := common_cons_iff (l := m) hdisjoint
    simp only [and_comm (b := _ ∈ cover (r :: l))] at hswap
    exact hswap.symm
  | case4 l m hne =>
    cases l with
    | nil => simp
    | cons r l =>
      cases m with
      | nil => simp
      | cons s m => exact absurd rfl (hne r l s m rfl)

end

/-! ## Section 3: The number of points -/

/-- The number of points, segment by segment. -/
def total : List (Segment ℕ) → ℕ
  | [] => 0
  | s :: l => (s.hi - s.lo + 1) + total l

theorem finite_cover (l : List (Segment ℕ)) : (cover l).Finite := by
  induction l with
  | nil => simp
  | cons s l ih =>
    have hsub : cover (s :: l) ⊆ Set.Icc s.lo s.hi ∪ cover l := fun x hx => mem_cover_cons.mp hx
    exact ((Set.finite_Icc s.lo s.hi).union ih).subset hsub

/-- Segments of a canonical list share no points, so the sizes add up. -/
theorem Canonical.ncard_cover {l : List (Segment ℕ)} (hl : Canonical l) :
    (cover l).ncard = total l := by
  induction l with
  | nil => simp [total]
  | cons s l ih =>
    have hv : s.lo ≤ s.hi := hl.head_valid
    have hsplit : cover (s :: l) = Set.Icc s.lo s.hi ∪ cover l := by
      apply Set.ext
      intro x
      exact mem_cover_cons
    have hdisjoint : Disjoint (Set.Icc s.lo s.hi) (cover l) := by
      rw [Set.disjoint_left]
      intro x hx hxl
      exact absurd hx.2 (not_le.mpr (hl.mem_tail_iff.mp hxl).2)
    rw [hsplit, Set.ncard_union_eq hdisjoint (Set.finite_Icc _ _) (finite_cover l),
      Set.ncard_Icc_nat, ih hl.tail, total]
    omega

end Segment
