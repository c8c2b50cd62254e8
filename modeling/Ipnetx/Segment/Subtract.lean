import Ipnetx.Segment.Coalesce
import Ipnetx.Segment.Overlap

/-! # Subtraction of Canonical Lists over the Naturals

    Three ways to take points out of a canonical list:

    - `subtract l m`: one pass over both lists.  A removal is consumed only
      when it ends inside the current segment; one that reaches past it is
      kept for the next segment.
    - `cutAll l m`: the plain algorithm.  Each removal in turn is applied to
      every segment, by the five cases of `cut`.
    - `gaps cur top l`: the points of `[cur, top]` outside `l`.

    Each yields a canonical list with the expected points, so the first two agree
    by uniqueness (`cutAll_eq_subtract`). -/

namespace Segment

/-! ## Section 1: The one-pass walk -/

/-- Cut the removals out of `[cur, hi]`.  Returns the pieces and the removals
    that may still matter to later segments. -/
def carve (cur hi : ℕ) : List (Segment ℕ) → List (Segment ℕ) × List (Segment ℕ)
  | [] => ([⟨cur, hi⟩], [])
  | b :: bs =>
      if hi < b.lo then ([⟨cur, hi⟩], b :: bs)
      else
        let piece := if cur < b.lo then [⟨cur, b.lo - 1⟩] else []
        if hi ≤ b.hi then (piece, b :: bs)
        else
          let next := carve (b.hi + 1) hi bs
          (piece ++ next.1, next.2)

/-- Carve the segments one after the other, handing the remaining removals on. -/
def subtract : List (Segment ℕ) → List (Segment ℕ) → List (Segment ℕ)
  | [], _ => []
  | r :: l, bs =>
      let out := carve r.lo r.hi (bs.dropWhile fun b => decide (b.hi < r.lo))
      out.1 ++ subtract l out.2

/-- What carving `[cur, hi]` with the removals `bs` establishes. -/
structure Carved (cur hi : ℕ) (bs : List (Segment ℕ))
    (out : List (Segment ℕ) × List (Segment ℕ)) : Prop where
  canonical : Canonical out.1
  mem_iff : ∀ x, x ∈ cover out.1 ↔ cur ≤ x ∧ x ≤ hi ∧ x ∉ cover bs
  bounds : ∀ s ∈ out.1, cur ≤ s.lo ∧ s.hi ≤ hi
  /-- Only removals that end before `hi` are consumed. -/
  consumed : ∃ done, bs = done ++ out.2 ∧ ∀ d ∈ done, d.hi < hi

/-- No removal of a canonical list starts before its head. -/
private theorem not_mem_of_lt_head {b : Segment ℕ} {bs : List (Segment ℕ)}
    (hbs : Canonical (b :: bs)) {x : ℕ} (hx : x < b.lo) : x ∉ cover (b :: bs) :=
  fun h => absurd (hbs.head_lo_le h) (by omega)

private theorem carve_piece (cur hi : ℕ) (b : Segment ℕ) (hb : ¬ hi < b.lo) :
    let piece : List (Segment ℕ) := if cur < b.lo then [⟨cur, b.lo - 1⟩] else []
    Canonical piece ∧
      (∀ x, x ∈ cover piece ↔ cur ≤ x ∧ x < b.lo) ∧
      (∀ s ∈ piece, cur ≤ s.lo ∧ s.hi ≤ hi ∧ s.hi < b.lo) := by
  intro piece
  by_cases h : cur < b.lo
  · have hpiece : piece = [⟨cur, b.lo - 1⟩] := if_pos h
    rw [hpiece]
    refine ⟨Canonical.singleton (by show cur ≤ b.lo - 1; omega), ?_, ?_⟩
    · intro x
      rw [mem_cover_singleton]
      dsimp only
      omega
    · intro s hs
      rw [List.mem_singleton.mp hs]
      exact ⟨le_rfl, by show b.lo - 1 ≤ hi; omega, by show b.lo - 1 < b.lo; omega⟩
  · have hpiece : piece = [] := if_neg h
    rw [hpiece]
    refine ⟨Canonical.nil, ?_, by simp⟩
    intro x
    simp only [not_mem_cover_nil, false_iff]
    omega

/-- The points of `[cur, top]` outside the removals: before the first one, or past it and
    outside the others. -/
private theorem mem_around_removal {cur top x : ℕ} {b : Segment ℕ} {bs : List (Segment ℕ)}
    (hbs : Canonical (b :: bs)) (hcur : cur ≤ b.hi + 1) (htop : b.lo ≤ top + 1) :
    ((cur ≤ x ∧ x < b.lo) ∨ (b.hi + 1 ≤ x ∧ x ≤ top ∧ x ∉ cover bs)) ↔
      cur ≤ x ∧ x ≤ top ∧ x ∉ cover (b :: bs) := by
  have hbv : b.lo ≤ b.hi := hbs.head_valid
  constructor
  · intro hin
    rcases hin with ⟨h1, h2⟩ | ⟨h1, h2, h3⟩
    · exact ⟨h1, by omega, not_mem_of_lt_head hbs h2⟩
    · refine ⟨by omega, h2, fun h => ?_⟩
      rcases mem_cover_cons.mp h with h4 | h4
      · have : x ≤ b.hi := h4.2
        omega
      · exact h3 h4
  · intro hin
    obtain ⟨h1, h2, h3⟩ := hin
    by_cases hx : x < b.lo
    · exact Or.inl ⟨h1, hx⟩
    · refine Or.inr ⟨?_, h2, fun h => h3 (mem_cover_cons.mpr (Or.inr h))⟩
      -- a point from the removal's start on is not inside it
      by_contra hle
      exact h3 (mem_cover_cons.mpr (Or.inl ⟨by omega, by omega⟩))

/-- No removal starts before the end: the segment stays whole. -/
private theorem Carved.whole {cur hi : ℕ} {bs : List (Segment ℕ)} (hcur : cur ≤ hi)
    (hclear : ∀ x, x ≤ hi → x ∉ cover bs) : Carved cur hi bs ([⟨cur, hi⟩], bs) := by
  refine ⟨Canonical.singleton hcur, ?_, ?_, ⟨[], rfl, by simp⟩⟩
  · intro x
    rw [mem_cover_singleton]
    exact ⟨fun h => ⟨h.1, h.2, hclear x h.2⟩, fun h => ⟨h.1, h.2.1⟩⟩
  · intro s hs
    rw [List.mem_singleton.mp hs]
    exact ⟨le_rfl, le_rfl⟩

/-- The removal reaches the end: only the piece before it is left, and it is kept. -/
private theorem Carved.reached {cur hi : ℕ} {b : Segment ℕ} {bs : List (Segment ℕ)}
    (hbs : Canonical (b :: bs)) (hpast : ¬ hi < b.lo) (hreach : hi ≤ b.hi) :
    Carved cur hi (b :: bs) (if cur < b.lo then [⟨cur, b.lo - 1⟩] else [], b :: bs) := by
  obtain ⟨hpc, hpm, hpb⟩ := carve_piece cur hi b hpast
  refine ⟨hpc, ?_, fun s hs => ⟨(hpb s hs).1, (hpb s hs).2.1⟩, ⟨[], rfl, by simp⟩⟩
  intro x
  rw [hpm]
  constructor
  · exact fun ⟨h1, h2⟩ => ⟨h1, by omega, not_mem_of_lt_head hbs h2⟩
  · intro hin
    obtain ⟨h1, h2, h3⟩ := hin
    refine ⟨h1, ?_⟩
    by_contra hge
    exact h3 (mem_cover_cons.mpr (Or.inl ⟨by omega, by omega⟩))

/-- The removal ends inside: the piece before it, and what is carved past it. -/
private theorem Carved.passed {cur hi : ℕ} {b : Segment ℕ} {bs : List (Segment ℕ)}
    {out : List (Segment ℕ) × List (Segment ℕ)} (hbs : Canonical (b :: bs)) (hcur : cur ≤ b.hi)
    (hpast : ¬ hi < b.lo) (hreach : b.hi < hi) (hout : Carved (b.hi + 1) hi bs out) :
    Carved cur hi (b :: bs)
      ((if cur < b.lo then [⟨cur, b.lo - 1⟩] else []) ++ out.1, out.2) := by
  have hbv : b.lo ≤ b.hi := hbs.head_valid
  obtain ⟨hpc, hpm, hpb⟩ := carve_piece cur hi b hpast
  refine ⟨?_, ?_, ?_, ?_⟩
  · refine hpc.append hout.canonical ?_
    intro s hs t ht
    have h1 := (hpb s hs).2.2
    have h2 := (hout.bounds t ht).1
    exact separated_iff.mpr (by omega)
  · intro x
    rw [mem_cover_append, hpm, hout.mem_iff]
    exact mem_around_removal hbs (by omega) (by omega)
  · intro s hs
    rcases List.mem_append.mp hs with h | h
    · exact ⟨(hpb s h).1, (hpb s h).2.1⟩
    · have := hout.bounds s h
      exact ⟨by omega, this.2⟩
  · obtain ⟨done, hdone, hlt⟩ := hout.consumed
    refine ⟨b :: done, by rw [List.cons_append, ← hdone], ?_⟩
    intro d hd
    rcases List.mem_cons.mp hd with rfl | hd
    · exact hreach
    · exact hlt d hd

theorem carve_spec (cur hi : ℕ) {bs : List (Segment ℕ)} (hcur : cur ≤ hi) (hbs : Canonical bs)
    (hends : ∀ b ∈ bs, cur ≤ b.hi) : Carved cur hi bs (carve cur hi bs) := by
  induction bs generalizing cur with
  | nil => exact Carved.whole hcur fun x _ => not_mem_cover_nil x
  | cons b bs ih =>
    unfold carve
    by_cases hpast : hi < b.lo
    · rw [if_pos hpast]
      exact Carved.whole hcur fun x hx => not_mem_of_lt_head hbs (by omega)
    · rw [if_neg hpast]
      by_cases hreach : hi ≤ b.hi
      · rw [if_pos hreach]
        exact Carved.reached hbs hpast hreach
      · rw [if_neg hreach]
        have hlt : b.hi < hi := not_le.mp hreach
        -- the later removals end past this one
        have hends' : ∀ c ∈ bs, b.hi + 1 ≤ c.hi := by
          intro c hc
          have hcv : c.lo ≤ c.hi := hbs.tail.valid c hc
          have := (hbs.head_separated hc).hi_lt_lo
          omega
        exact Carved.passed hbs (hends b (by simp)) hpast hlt (ih (b.hi + 1) hlt hbs.tail hends')

/-- What the one-pass subtraction establishes. -/
structure Subtracted (l bs out : List (Segment ℕ)) : Prop where
  canonical : Canonical out
  mem_iff : ∀ x, x ∈ cover out ↔ x ∈ cover l ∧ x ∉ cover bs
  inside : ∀ s ∈ out, ∃ r ∈ l, r.lo ≤ s.lo ∧ s.hi ≤ r.hi

theorem subtract_spec {l bs : List (Segment ℕ)} (hl : Canonical l) (hbs : Canonical bs) :
    Subtracted l bs (subtract l bs) := by
  induction l generalizing bs with
  | nil => exact ⟨Canonical.nil, by simp [subtract], by simp [subtract]⟩
  | cons r l ih =>
    obtain ⟨skipped, hskip, hskiplt⟩ := dropWhile_split r.lo bs
    have hdrop := hskip ▸ hbs
    have hc := carve_spec r.lo r.hi hl.head_valid hdrop.of_suffix
      (le_hi_of_mem_dropWhile hbs)
    unfold subtract
    generalize bs.dropWhile (fun b => decide (b.hi < r.lo)) = bs' at *
    generalize carve r.lo r.hi bs' = out at *
    obtain ⟨done, hdone, hdonelt⟩ := hc.consumed
    have hrest : Canonical out.2 := (hdone ▸ hdrop.of_suffix).of_suffix
    have hspec := ih hl.tail hrest
    have hrv : r.lo ≤ r.hi := hl.head_valid
    -- points of the later segments do not see the removals used up so far
    have hlater : ∀ x ∈ cover l, (x ∈ cover out.2 ↔ x ∈ cover bs) := by
      intro x hx
      have hlt := (hl.mem_tail_iff.mp hx).2
      rw [hskip, hdone, mem_cover_of_done fun d hd => (hskiplt d hd).trans_le (by omega),
        mem_cover_of_done fun d hd => (hdonelt d hd).trans hlt]
    refine ⟨hc.canonical.append hspec.canonical ?_, ?_, ?_⟩
    · intro s hs t ht
      obtain ⟨r', hr', hlo, _⟩ := hspec.inside t ht
      exact (hl.head_separated hr').mono (hc.bounds s hs).2 hlo
    · intro x
      rw [mem_cover_append, hc.mem_iff, hspec.mem_iff, mem_cover_cons, mem_def]
      constructor
      · intro hin
        rcases hin with ⟨h1, h2, h3⟩ | ⟨h1, h2⟩
        · refine ⟨Or.inl ⟨h1, h2⟩, ?_⟩
          rwa [hskip, mem_cover_of_done fun d hd => (hskiplt d hd).trans_le h1]
        · exact ⟨Or.inr h1, (hlater x h1).not.mp h2⟩
      · rintro ⟨h1 | h1, h2⟩
        · refine Or.inl ⟨h1.1, h1.2, ?_⟩
          rwa [hskip, mem_cover_of_done fun d hd => (hskiplt d hd).trans_le h1.1] at h2
        · exact Or.inr ⟨h1, (hlater x h1).not.mpr h2⟩
    · intro s hs
      rcases List.mem_append.mp hs with h | h
      · exact ⟨r, List.mem_cons_self, hc.bounds s h⟩
      · obtain ⟨r', hr', hin⟩ := hspec.inside s h
        exact ⟨r', List.mem_cons_of_mem _ hr', hin⟩

/-! ## Section 2: The plain algorithm -/

/-- Take the removal `b` out of one segment: no overlap, fully covered, clipped on
    the left, clipped on the right, or split in two. -/
def cut (b r : Segment ℕ) : List (Segment ℕ) :=
  if r.hi < b.lo ∨ b.hi < r.lo then [r]
  else if b.lo ≤ r.lo ∧ r.hi ≤ b.hi then []
  else if b.lo ≤ r.lo then [⟨b.hi + 1, r.hi⟩]
  else if r.hi ≤ b.hi then [⟨r.lo, b.lo - 1⟩]
  else [⟨r.lo, b.lo - 1⟩, ⟨b.hi + 1, r.hi⟩]

/-- Take the removals out one at a time, each from every current segment. -/
def cutAll (l bs : List (Segment ℕ)) : List (Segment ℕ) :=
  bs.foldl (fun cur b => cur.flatMap (cut b)) l

theorem mem_cut_inside {b r s : Segment ℕ} (hb : b.Valid) (hs : s ∈ cut b r) :
    r.lo ≤ s.lo ∧ s.hi ≤ r.hi := by
  have hbv : b.lo ≤ b.hi := hb
  unfold cut at hs
  split at hs
  · rw [List.mem_singleton.mp hs]
    exact ⟨le_rfl, le_rfl⟩
  · split at hs
    · simp at hs
    · split at hs
      · rw [List.mem_singleton.mp hs]
        dsimp only
        omega
      · split at hs
        · rw [List.mem_singleton.mp hs]
          dsimp only
          omega
        · simp only [List.mem_cons, List.not_mem_nil, or_false] at hs
          rcases hs with rfl | rfl
          · dsimp only
            omega
          · dsimp only
            omega

theorem Canonical.cut {b r : Segment ℕ} (hb : b.Valid) (hr : r.Valid) : Canonical (cut b r) := by
  have hbv : b.lo ≤ b.hi := hb
  have hrv : r.lo ≤ r.hi := hr
  unfold Segment.cut
  split
  · exact Canonical.singleton hr
  · split
    · exact Canonical.nil
    · split
      · exact Canonical.singleton (by show b.hi + 1 ≤ r.hi; omega)
      · split
        · exact Canonical.singleton (by show r.lo ≤ b.lo - 1; omega)
        · refine Canonical.cons (by show r.lo ≤ b.lo - 1; omega) ?_
            (Canonical.singleton (by show b.hi + 1 ≤ r.hi; omega))
          intro t ht
          rw [List.mem_singleton.mp ht, separated_iff]
          dsimp only
          omega

theorem mem_cover_cut {b r : Segment ℕ} (hb : b.Valid) {x : ℕ} :
    x ∈ cover (cut b r) ↔ x ∈ r ∧ x ∉ b := by
  have hbv : b.lo ≤ b.hi := hb
  unfold cut
  simp only [mem_def]
  split
  · rw [mem_cover_singleton]
    omega
  · split
    · simp only [not_mem_cover_nil, false_iff]
      omega
    · split
      · rw [mem_cover_singleton]
        dsimp only
        omega
      · split
        · rw [mem_cover_singleton]
          dsimp only
          omega
        · rw [mem_cover_cons, mem_cover_singleton, mem_def]
          dsimp only
          omega

/-- One removal keeps a list canonical. -/
theorem Canonical.flatMap_cut {l : List (Segment ℕ)} {b : Segment ℕ} (hl : Canonical l)
    (hb : b.Valid) : Canonical (l.flatMap (Segment.cut b)) := by
  constructor
  · intro s hs
    obtain ⟨r, hr, hs⟩ := List.mem_flatMap.mp hs
    exact (Canonical.cut hb (hl.valid r hr)).valid s hs
  · rw [List.pairwise_flatMap]
    refine ⟨fun r hr => (Canonical.cut hb (hl.valid r hr)).separated, ?_⟩
    refine hl.separated.imp ?_
    intro r r' hsep s hs s' hs'
    exact hsep.mono (mem_cut_inside hb hs).2 (mem_cut_inside hb hs').1

theorem mem_cover_flatMap_cut {l : List (Segment ℕ)} {b : Segment ℕ} (hb : b.Valid) {x : ℕ} :
    x ∈ cover (l.flatMap (cut b)) ↔ x ∈ cover l ∧ x ∉ b := by
  constructor
  · intro hin
    obtain ⟨s, hs, hx⟩ := hin
    obtain ⟨r, hr, hs⟩ := List.mem_flatMap.mp hs
    have hmem := (mem_cover_cut hb).mp ⟨s, hs, hx⟩
    exact ⟨⟨r, hr, hmem.1⟩, hmem.2⟩
  · intro hin
    obtain ⟨⟨r, hr, hxr⟩, hxb⟩ := hin
    obtain ⟨s, hs, hx⟩ := (mem_cover_cut hb).mpr ⟨hxr, hxb⟩
    exact ⟨s, List.mem_flatMap.mpr ⟨r, hr, hs⟩, hx⟩

theorem cutAll_spec {l bs : List (Segment ℕ)} (hl : Canonical l) (hbs : ∀ b ∈ bs, b.Valid) :
    Canonical (cutAll l bs) ∧ ∀ x, x ∈ cover (cutAll l bs) ↔ x ∈ cover l ∧ x ∉ cover bs := by
  unfold cutAll
  induction bs generalizing l with
  | nil => simpa using hl
  | cons b bs ih =>
    have hb : b.Valid := hbs b (by simp)
    obtain ⟨hc, hm⟩ := ih (hl.flatMap_cut hb) fun c hc => hbs c (by simp [hc])
    refine ⟨hc, ?_⟩
    intro x
    rw [List.foldl_cons, hm, mem_cover_flatMap_cut hb, mem_cover_cons]
    tauto

/-- The plain algorithm computes the one-pass result, in whatever order the
    removals are taken. -/
theorem cutAll_eq_subtract {l bs bs' : List (Segment ℕ)} (hl : Canonical l) (hbs : Canonical bs)
    (hperm : bs'.Perm bs) : cutAll l bs' = subtract l bs := by
  have hvalid : ∀ b ∈ bs', b.Valid := fun b hb => hbs.valid b (hperm.mem_iff.mp hb)
  obtain ⟨hc, hm⟩ := cutAll_spec hl hvalid
  have hs := subtract_spec hl hbs
  apply hc.ext hs.canonical
  apply Set.ext
  intro x
  rw [hm, hs.mem_iff, cover_perm hperm]

/-! ## Section 3: Gaps -/

/-- The gaps of an ascending list within `[cur, top]`. -/
def gaps (cur top : ℕ) : List (Segment ℕ) → List (Segment ℕ)
  | [] => if cur ≤ top then [⟨cur, top⟩] else []
  | r :: l => (if cur < r.lo then [⟨cur, r.lo - 1⟩] else []) ++ gaps (r.hi + 1) top l

/-- What the gap walk establishes. -/
structure Gapped (cur top : ℕ) (l out : List (Segment ℕ)) : Prop where
  canonical : Canonical out
  mem_iff : ∀ x, x ∈ cover out ↔ cur ≤ x ∧ x ≤ top ∧ x ∉ cover l
  lo_le : ∀ s ∈ out, cur ≤ s.lo

theorem gaps_spec (cur top : ℕ) {l : List (Segment ℕ)} (hl : Canonical l)
    (hcur : ∀ s ∈ l, cur ≤ s.lo) (htop : ∀ s ∈ l, s.hi ≤ top) :
    Gapped cur top l (gaps cur top l) := by
  induction l generalizing cur with
  | nil =>
    unfold gaps
    split
    · next h =>
      refine ⟨Canonical.singleton h, ?_, ?_⟩
      · intro x
        simp [mem_cover_singleton]
      · intro s hs
        rw [List.mem_singleton.mp hs]
    · next h =>
      refine ⟨Canonical.nil, ?_, by simp⟩
      intro x
      simp only [not_mem_cover_nil, false_iff]
      omega
  | cons r l ih =>
    have hrv : r.lo ≤ r.hi := hl.head_valid
    have hrcur : cur ≤ r.lo := hcur r (by simp)
    have hrtop : r.hi ≤ top := htop r (by simp)
    have hspec := ih (r.hi + 1) hl.tail
      (fun s hs => (separated_iff.mp (hl.head_separated hs)).le)
      (fun s hs => htop s (by simp [hs]))
    obtain ⟨hpc, hpm, hpb⟩ := carve_piece cur r.lo r (by omega)
    unfold gaps
    generalize (if cur < r.lo then [(⟨cur, r.lo - 1⟩ : Segment ℕ)] else []) = piece at *
    refine ⟨hpc.append hspec.canonical ?_, ?_, ?_⟩
    · intro s hs t ht
      have h1 := (hpb s hs).2.2
      have h2 := hspec.lo_le t ht
      exact separated_iff.mpr (by omega)
    · intro x
      rw [mem_cover_append, hpm, hspec.mem_iff]
      exact mem_around_removal hl (by omega) (by omega)
    · intro s hs
      rcases List.mem_append.mp hs with h | h
      · exact (hpb s h).1
      · have := hspec.lo_le s h
        omega

end Segment
