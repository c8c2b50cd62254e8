import Ipnetx.Segment.Overlap
import Ipnetx.Segment.Subtract

/-! # Lengths of Results

    How many segments the walks can produce.  The bounds are amortized: a
    segment that is cut or listed is paid for by a segment that the walk leaves
    behind, and each segment of the input is left behind once.

    - `subtract`: a removal that ends inside a segment adds one piece.  One that
      reaches past the end may matter to the next segment as well and is kept,
      so `carve` counts its pieces together with the removals it returns.
    - `intersect`: every step but the last leaves a segment behind.
    - `gaps`: one more than the segments, less one for each covered end.

    A list that covers the same points as a canonical one is no shorter
    (`Canonical.length_le`); that bounds the other operations. -/

namespace Segment

/-! ## Section 1: Subtraction -/

/-- The piece before a removal. -/
private theorem piece_length_le (cur lo : ℕ) :
    (if cur < lo then [(⟨cur, lo - 1⟩ : Segment ℕ)] else []).length ≤ 1 := by
  split
  · exact le_rfl
  · exact Nat.zero_le 1

/-- Pieces and kept removals together: at most one more than the removals. -/
theorem carve_length_le (cur hi : ℕ) (bs : List (Segment ℕ)) :
    (carve cur hi bs).1.length + (carve cur hi bs).2.length ≤ bs.length + 1 := by
  induction bs generalizing cur with
  | nil => exact le_rfl
  | cons b bs ih =>
    have hpiece := piece_length_le cur b.lo
    unfold carve
    by_cases hpast : hi < b.lo
    · rw [if_pos hpast]
      show 1 + (b :: bs).length ≤ (b :: bs).length + 1
      omega
    · rw [if_neg hpast]
      by_cases hreach : hi ≤ b.hi
      · -- the piece is paid for by the segment, the removal is kept
        rw [if_pos hreach]
        dsimp only
        omega
      · -- the piece is paid for by the removal, which is left behind
        rw [if_neg hreach]
        have hrest := ih (b.hi + 1)
        simp only [List.length_append, List.length_cons]
        omega

theorem subtract_length_le (l bs : List (Segment ℕ)) :
    (subtract l bs).length ≤ l.length + bs.length := by
  induction l generalizing bs with
  | nil => exact Nat.zero_le _
  | cons r l ih =>
    have hskip : (bs.dropWhile fun b => decide (b.hi < r.lo)).length ≤ bs.length :=
      (List.dropWhile_suffix _).length_le
    unfold subtract
    generalize bs.dropWhile (fun b => decide (b.hi < r.lo)) = bs' at *
    have hcarve := carve_length_le r.lo r.hi bs'
    have hrest := ih (carve r.lo r.hi bs').2
    simp only [List.length_append, List.length_cons]
    omega

/-! ## Section 2: Intersection -/

section
variable {α : Type*} [LinearOrder α]

theorem intersect_length_le (l m : List (Segment α)) :
    (intersect l m).length ≤ l.length + m.length - 1 := by
  induction l, m using intersect.induct with
  | case1 r l s m ih1 ih2 ih3 =>
    have hover : (overlap r s).toList.length ≤ 1 := by
      cases overlap r s <;> simp
    rw [intersect_cons, List.length_append]
    simp only [List.length_cons] at *
    split
    · omega
    · split <;> omega
  | case2 l m hne =>
    have hnil : intersect l m = [] := by
      cases l with
      | nil => exact intersect_nil_left m
      | cons r l =>
        cases m with
        | nil => exact intersect_nil_right _
        | cons s m => exact absurd rfl (hne r l s m rfl)
    rw [hnil]
    exact Nat.zero_le _

end

/-! ## Section 3: Gaps -/

/-- The gaps behind `r`: one behind each segment, except behind one that ends at the top. -/
private theorem gaps_behind_length {top : ℕ} (r : Segment ℕ) {l : List (Segment ℕ)}
    (hl : Canonical (r :: l)) (htop : ∀ s ∈ r :: l, s.hi ≤ top) {last : Bool}
    (hlast : last = true ↔ top ∈ cover (r :: l)) :
    (gaps (r.hi + 1) top l).length + last.toNat = l.length + 1 := by
  induction l generalizing r with
  | nil =>
    have hrv : r.lo ≤ r.hi := hl.head_valid
    have hrtop : r.hi ≤ top := htop r (by simp)
    rw [mem_cover_singleton] at hlast
    unfold gaps
    by_cases h : r.hi + 1 ≤ top
    · have hfalse : last = false := by
        rw [← Bool.not_eq_true, hlast]
        omega
      rw [if_pos h, hfalse]
      rfl
    · rw [if_neg h, hlast.mpr (by omega)]
      rfl
  | cons s l ih =>
    have hsep : r.hi + 1 < s.lo := separated_iff.mp (hl.head_separated (by simp))
    have hsv : s.lo ≤ s.hi := hl.tail.head_valid
    have hstop : s.hi ≤ top := htop s (by simp)
    -- `r` ends below the top
    have hmem : top ∈ cover (r :: s :: l) ↔ top ∈ cover (s :: l) := by
      rw [mem_cover_cons, mem_def]
      exact or_iff_right (by omega)
    have hrest := ih s hl.tail (fun t ht => htop t (List.mem_cons_of_mem _ ht))
      (hlast.trans hmem)
    unfold gaps
    rw [if_pos hsep, List.length_append, List.length_singleton, List.length_cons]
    omega

/-- The number of gaps within `[cur, top]`, `first` and `last` telling whether the two ends
    are covered. -/
theorem gaps_length {cur top : ℕ} {l : List (Segment ℕ)} (hne : l ≠ []) (hl : Canonical l)
    (hcur : ∀ s ∈ l, cur ≤ s.lo) (htop : ∀ s ∈ l, s.hi ≤ top) {first last : Bool}
    (hfirst : first = true ↔ cur ∈ cover l) (hlast : last = true ↔ top ∈ cover l) :
    (gaps cur top l).length + first.toNat + last.toNat = l.length + 1 := by
  cases l with
  | nil => exact absurd rfl hne
  | cons r l =>
    have hrv : r.lo ≤ r.hi := hl.head_valid
    have hrcur : cur ≤ r.lo := hcur r (by simp)
    have hrest := gaps_behind_length r hl htop hlast
    have hpiece : (if cur < r.lo then [(⟨cur, r.lo - 1⟩ : Segment ℕ)] else []).length +
        first.toNat = 1 := by
      by_cases h : cur < r.lo
      · have hfalse : first = false := by
          rw [← Bool.not_eq_true, hfirst]
          intro hin
          have := hl.head_lo_le hin
          omega
        rw [if_pos h, hfalse]
        rfl
      · have htrue : first = true :=
          hfirst.mpr (mem_cover_cons.mpr (Or.inl (mem_def.mpr ⟨by omega, by omega⟩)))
        rw [if_neg h, htrue]
        rfl
    unfold gaps
    rw [List.length_append, List.length_cons]
    omega

end Segment
