import Ipnetx.Segment.Canonical

/-! # Pairwise Overlaps of Two Canonical Lists

    The reference is the comprehension `overlaps l m`: the non-empty overlap
    of every segment of `l` with every segment of `m`.  The two-pointer walk
    `intersect` looks at a linear number of pairs only; on canonical lists it
    computes the same list, because every pair it skips is disjoint.

    Everything here holds over an arbitrary linear order. -/

namespace Segment

variable {α : Type*} [LinearOrder α]

/-! ## Section 1: The overlap of two segments -/

/-- Both segments are valid and share a point. -/
def Meets (r s : Segment α) : Prop := r.lo ≤ r.hi ∧ s.lo ≤ s.hi ∧ s.lo ≤ r.hi ∧ r.lo ≤ s.hi

instance (r s : Segment α) : Decidable (Meets r s) := by
  unfold Meets
  infer_instance

/-- The overlap `[max starts, min ends]`, when it is not empty. -/
def overlap (r s : Segment α) : Option (Segment α) :=
  if Meets r s then some ⟨max r.lo s.lo, min r.hi s.hi⟩ else none

theorem overlap_eq_some {r s t : Segment α} :
    overlap r s = some t ↔ Meets r s ∧ t = ⟨max r.lo s.lo, min r.hi s.hi⟩ := by
  unfold overlap
  split
  · next h => simp [h, eq_comm]
  · next h => simp [h]

theorem overlap_eq_none {r s : Segment α} : overlap r s = none ↔ ¬ Meets r s := by
  unfold overlap
  split <;> simp_all

theorem overlap_valid {r s t : Segment α} (h : overlap r s = some t) : t.Valid := by
  obtain ⟨⟨h1, h2, h3, h4⟩, rfl⟩ := overlap_eq_some.mp h
  exact max_le (le_min h1 h4) (le_min h3 h2)

theorem mem_overlap {r s t : Segment α} {x : α} (h : overlap r s = some t) :
    x ∈ t ↔ x ∈ r ∧ x ∈ s := by
  obtain ⟨_, rfl⟩ := overlap_eq_some.mp h
  simp only [mem_def, max_le_iff, le_min_iff]
  tauto

theorem meets_of_mem {r s : Segment α} {x : α} (hr : x ∈ r) (hs : x ∈ s) : Meets r s :=
  ⟨hr.1.trans hr.2, hs.1.trans hs.2, hs.1.trans hr.2, hr.1.trans hs.2⟩

/-- Two segments meet when they have a common point. -/
theorem meets_iff {r s : Segment α} : Meets r s ↔ ∃ x, x ∈ r ∧ x ∈ s := by
  constructor
  · intro h
    have hover := overlap_eq_some.mpr ⟨h, rfl⟩
    exact ⟨_, (mem_overlap hover).mp ⟨le_rfl, overlap_valid hover⟩⟩
  · intro hin
    obtain ⟨x, hr, hs⟩ := hin
    exact meets_of_mem hr hs

theorem meets_comm {r s : Segment α} : Meets r s ↔ Meets s r := by
  simp only [meets_iff, and_comm]

theorem overlap_none_of_lt {r s : Segment α} (h : r.hi < s.lo) : overlap r s = none :=
  overlap_eq_none.mpr fun hm => absurd hm.2.2.1 (not_le.mpr h)

theorem overlap_none_of_gt {r s : Segment α} (h : s.hi < r.lo) : overlap r s = none :=
  overlap_eq_none.mpr fun hm => absurd hm.2.2.2 (not_le.mpr h)

/-- Shrinking two separated segments keeps them separated. -/
theorem Separated.mono {r r' s s' : Segment α} (h : Separated r s) (hr : r'.hi ≤ r.hi)
    (hs : s.lo ≤ s'.lo) : Separated r' s' := by
  obtain ⟨x, h1, h2⟩ := h
  exact ⟨x, hr.trans_lt h1, h2.trans_le hs⟩

/-! ## Section 2: The comprehension -/

/-- The non-empty overlaps of all pairs, row by row. -/
def overlaps (l m : List (Segment α)) : List (Segment α) :=
  l.flatMap fun r => m.filterMap (overlap r)

theorem mem_overlaps {l m : List (Segment α)} {t : Segment α} :
    t ∈ overlaps l m ↔ ∃ r ∈ l, ∃ s ∈ m, overlap r s = some t := by
  simp only [overlaps, List.mem_flatMap, List.mem_filterMap]

theorem mem_cover_overlaps {l m : List (Segment α)} {x : α} :
    x ∈ cover (overlaps l m) ↔ x ∈ cover l ∧ x ∈ cover m := by
  constructor
  · intro hin
    obtain ⟨t, ht, hx⟩ := hin
    obtain ⟨r, hr, s, hs, h⟩ := mem_overlaps.mp ht
    obtain ⟨hxr, hxs⟩ := (mem_overlap h).mp hx
    exact ⟨⟨r, hr, hxr⟩, ⟨s, hs, hxs⟩⟩
  · intro hin
    obtain ⟨⟨r, hr, hxr⟩, ⟨s, hs, hxs⟩⟩ := hin
    have h := overlap_eq_some.mpr ⟨meets_of_mem hxr hxs, rfl⟩
    exact ⟨_, mem_overlaps.mpr ⟨r, hr, s, hs, h⟩, (mem_overlap h).mpr ⟨hxr, hxs⟩⟩

/-- Overlaps in one row are separated by the columns, rows by the rows. -/
theorem Canonical.overlaps {l m : List (Segment α)} (hl : Canonical l) (hm : Canonical m) :
    Canonical (overlaps l m) := by
  constructor
  · intro t ht
    obtain ⟨r, _, s, _, h⟩ := mem_overlaps.mp ht
    exact overlap_valid h
  · unfold Segment.overlaps
    rw [List.pairwise_flatMap]
    constructor
    · -- within a row, by the columns
      intro r _
      rw [List.pairwise_filterMap]
      refine hm.separated.imp ?_
      intro s s' hsep t ht t' ht'
      obtain ⟨_, rfl⟩ := overlap_eq_some.mp ht
      obtain ⟨_, rfl⟩ := overlap_eq_some.mp ht'
      exact hsep.mono (min_le_right _ _) (le_max_right _ _)
    · -- between rows, by the rows
      refine hl.separated.imp ?_
      intro r r' hsep t ht t' ht'
      obtain ⟨s, _, hs⟩ := List.mem_filterMap.mp ht
      obtain ⟨s', _, hs'⟩ := List.mem_filterMap.mp ht'
      obtain ⟨_, rfl⟩ := overlap_eq_some.mp hs
      obtain ⟨_, rfl⟩ := overlap_eq_some.mp hs'
      exact hsep.mono (min_le_left _ _) (le_max_left _ _)

/-! ## Section 3: The two-pointer walk -/

/-- Advance past the segment that ends first, past both on a tie. -/
def intersect : List (Segment α) → List (Segment α) → List (Segment α)
  | r :: l, s :: m =>
      let rest :=
        if r.hi < s.hi then intersect l (s :: m)
        else if s.hi < r.hi then intersect (r :: l) m
        else intersect l m
      (overlap r s).toList ++ rest
  | _, _ => []
termination_by l m => l.length + m.length

@[simp] theorem intersect_nil_left (m : List (Segment α)) : intersect [] m = [] := by
  simp [intersect]

@[simp] theorem intersect_nil_right (l : List (Segment α)) : intersect l [] = [] := by
  cases l <;> simp [intersect]

theorem intersect_cons (r s : Segment α) (l m : List (Segment α)) :
    intersect (r :: l) (s :: m) = (overlap r s).toList ++
      (if r.hi < s.hi then intersect l (s :: m)
       else if s.hi < r.hi then intersect (r :: l) m
       else intersect l m) := by
  rw [intersect]

@[simp] theorem overlaps_nil_left (m : List (Segment α)) : overlaps [] m = [] := rfl

@[simp] theorem overlaps_nil_right (l : List (Segment α)) : overlaps l [] = [] := by
  simp [overlaps]

theorem overlaps_cons (r : Segment α) (l m : List (Segment α)) :
    overlaps (r :: l) m = m.filterMap (overlap r) ++ overlaps l m := by
  simp [overlaps]

/-- A row is finished once its segment ends no later than the current column. -/
private theorem row_done {r s : Segment α} {m : List (Segment α)} (hm : Canonical (s :: m))
    (h : r.hi ≤ s.hi) : m.filterMap (overlap r) = [] := by
  rw [List.filterMap_eq_nil_iff]
  intro t ht
  exact overlap_none_of_lt (h.trans_lt (hm.head_separated ht).hi_lt_lo)

/-- A column is finished once its segment ends no later than the current row. -/
private theorem column_done {r s : Segment α} {l m : List (Segment α)} (hl : Canonical (r :: l))
    (h : s.hi ≤ r.hi) : overlaps l (s :: m) = overlaps l m := by
  unfold overlaps
  apply List.flatMap_congr
  intro t ht
  rw [List.filterMap_cons_none]
  exact overlap_none_of_gt (h.trans_lt (hl.head_separated ht).hi_lt_lo)

/-- The walk loses and duplicates nothing: it lists exactly the pairwise overlaps. -/
theorem intersect_eq_overlaps {l m : List (Segment α)} (hl : Canonical l) (hm : Canonical m) :
    intersect l m = overlaps l m := by
  induction l, m using intersect.induct with
  | case1 r l s m ih1 ih2 ih3 =>
    have hrow : (s :: m).filterMap (overlap r)
        = (overlap r s).toList ++ m.filterMap (overlap r) := by
      cases h : overlap r s <;> simp [h]
    rw [intersect_cons, overlaps_cons, hrow, List.append_assoc]
    congr 1
    split
    · next h =>
      -- `r` ends first: its row is finished
      rw [ih1 hl.tail hm, row_done hm h.le, List.nil_append]
    · next h =>
      have hle : s.hi ≤ r.hi := not_lt.mp h
      split
      · next h' =>
        -- `s` ends first: its column is finished
        rw [ih2 hl hm.tail, overlaps_cons, column_done hl hle]
      · next h' =>
        -- a tie finishes both
        rw [ih3 hl.tail hm.tail, row_done hm (not_lt.mp h'), column_done hl hle,
          List.nil_append]
  | case2 l m hne =>
    cases l with
    | nil => simp
    | cons r l =>
      cases m with
      | nil => simp
      | cons s m => exact absurd rfl (hne r l s m rfl)

end Segment
