import Ipnetx.Refinement.View

/-! # The Set Operations Refine the Segment Walks

    One theorem for each operation: the code returns, and the view of its
    result is the corresponding function on segment lists.  Each loop has
    its own lemma, by induction along the walked indices, that relates the
    rest of the loop to the rest of the lists.

    `difference` and `intersection` refine their walks on any input; only
    `complement` needs the invariant, for the arithmetic in the gaps. -/

namespace Ipnetx

open Machine IpAddress

variable {A : Type} [IpAddress A]

/-! ## Section 1: Normalization -/

/-- One step of the merge loop, with the growing range in last position. -/
private theorem segs_mergeStep (done : List (IpRange A)) (cur r : IpRange A) :
    ∃ done' cur', mergeStep (done ++ [cur]) r = done' ++ [cur'] ∧
      ∀ rs, segs done' ++ Segment.coalesce cur'.seg rs =
        segs done ++ Segment.coalesce cur.seg (r.seg :: rs) := by
  unfold mergeStep
  have hle : toU128 r.start ≤ Word.saturatingAdd (toU128 cur.end_) 1 ↔
      r.seg.lo ≤ cur.seg.hi + 1 := Word.le_saturatingAdd
  have hgt : toU128 r.end_ > toU128 cur.end_ ↔ cur.seg.hi < r.seg.hi := BitVec.lt_def
  rw [List.getLast?_concat, List.dropLast_concat]
  simp only [hle, hgt]
  split
  · next htouch =>
    split
    · next hlt =>
      refine ⟨done, IpRange.new cur.start r.end_, rfl, fun rs => ?_⟩
      rw [Segment.coalesce, if_pos htouch, if_pos hlt]
      rfl
    · next hge =>
      refine ⟨done, cur, rfl, fun rs => ?_⟩
      rw [Segment.coalesce, if_pos htouch, if_neg hge]
  · next hgap =>
    refine ⟨done ++ [cur], r, rfl, fun rs => ?_⟩
    rw [Segment.coalesce, if_neg hgap]
    simp

private theorem segs_foldl_mergeStep (rs done : List (IpRange A)) (cur : IpRange A) :
    segs (rs.foldl mergeStep (done ++ [cur])) =
      segs done ++ Segment.coalesce cur.seg (segs rs) := by
  induction rs generalizing done cur with
  | nil => simp [Segment.coalesce]
  | cons r rs ih =>
    obtain ⟨done', cur', hstep, hrest⟩ := segs_mergeStep done cur r
    rw [List.foldl_cons, hstep, ih, hrest, segs_cons]

/-- `merge_sorted` computes the canonical form of a sorted list. -/
theorem segs_mergeSorted (rs : List (IpRange A)) :
    segs (mergeSorted rs) = Segment.normal (segs rs) := by
  cases rs with
  | nil => rfl
  | cons r rs => exact segs_foldl_mergeStep rs [] r

theorem sortedByLo_segs {rs : List (IpRange A)}
    (h : rs.Pairwise fun r s => r.start ≤ s.start) : Segment.SortedByLo (segs rs) :=
  List.pairwise_map.mpr (h.imp fun hle => le_iff_val.mp hle)

/-- `normalize` returns the canonical list of its points. -/
theorem normalize_spec [SortUnstableByKey (IpRange A) A] {rs : List (IpRange A)}
    (hvalid : ∀ r ∈ rs, r.isValid = true) :
    Segment.Canonical (segs (normalize rs)) ∧
      Segment.cover (segs (normalize rs)) = Segment.cover (segs rs) := by
  unfold normalize
  have hperm := segs_perm (SortUnstableByKey.perm rs IpRange.start)
  have hsorted := sortedByLo_segs (SortUnstableByKey.sorted rs IpRange.start)
  have hv : ∀ s ∈ segs (SortUnstableByKey.sort rs IpRange.start), s.Valid := by
    intro s hs
    obtain ⟨r, hr, rfl⟩ := mem_segs.mp (hperm.mem_iff.mp hs)
    exact IpRange.isValid_iff.mp (hvalid r hr)
  rw [segs_mergeSorted]
  exact ⟨Segment.Canonical.normal hv hsorted,
    (Segment.cover_normal hv hsorted).trans (Segment.cover_perm hperm)⟩

namespace IpSet

/-! ## Section 2: Union -/

/-- The merge takes from the two sets as `List.merge` does. -/
private theorem unionLoop_spec (xs ys : List (IpRange A)) (i j : ℕ) :
    ∀ merged, i ≤ xs.length → j ≤ ys.length →
      ∃ m, unionLoop xs ys i j merged = .ok m ∧ m.i ≤ xs.length ∧ m.j ≤ ys.length ∧
        m.merged ++ xs.drop m.i ++ ys.drop m.j =
          merged ++ (xs.drop i).merge (ys.drop j) fun x y => decide (x.start ≤ y.start) := by
  induction i, j using walk_induction₂ xs ys with
  | done i j hdone =>
    intro merged hi hj
    refine ⟨{ merged, i, j }, ?_, hi, hj, ?_⟩
    · unfold unionLoop
      rw [dif_neg hdone]
      rfl
    · -- one side is exhausted, the other is appended as it is
      rcases drop_eq_nil_of_done hdone with hnil | hnil
      · simp [hnil]
      · simp [hnil]
  | step i j hi hj ihi ihj _ =>
    intro merged _ _
    unfold unionLoop
    rw [dif_pos ⟨hi, hj⟩, index_eq_ok hi, index_eq_ok hj, List.drop_eq_getElem_cons hi,
      List.drop_eq_getElem_cons hj]
    simp only [Result.ok_bind]
    split
    · next hle =>
      obtain ⟨m, hm, h1, h2, h3⟩ := ihi (merged ++ [xs[i]]) hi hj.le
      refine ⟨m, hm, h1, h2, ?_⟩
      rw [h3, List.cons_merge_cons_pos _ _ _ (by simpa using hle),
        ← List.drop_eq_getElem_cons hj, List.append_assoc, List.singleton_append]
    · next hgt =>
      obtain ⟨m, hm, h1, h2, h3⟩ := ihj (merged ++ [ys[j]]) hi.le hj
      refine ⟨m, hm, h1, h2, ?_⟩
      rw [h3, List.cons_merge_cons_neg _ _ _ (by simpa using hgt),
        ← List.drop_eq_getElem_cons hi, List.append_assoc, List.singleton_append]

/-- `union` coalesces the merge of the two range lists. -/
theorem union_refines (a b : IpSet A) :
    ∃ s, a.union b = .ok s ∧ s.view = Segment.normal
      (segs (a.ranges.merge b.ranges fun x y => decide (x.start ≤ y.start))) := by
  obtain ⟨m, hm, hi, hj, hmerge⟩ :=
    unionLoop_spec a.ranges b.ranges 0 0 [] (Nat.zero_le _) (Nat.zero_le _)
  refine ⟨IpSet.new (mergeSorted (m.merged ++ a.ranges.drop m.i ++ b.ranges.drop m.j)), ?_, ?_⟩
  · unfold union
    rw [hm]
    simp only [Result.ok_bind]
    rw [sliceFrom_eq_ok hi, sliceFrom_eq_ok hj]
    rfl
  · rw [view_new, segs_mergeSorted, hmerge]
    rfl

/-- The ranges of a normalized set are sorted by start. -/
theorem Normalized.sorted {s : IpSet A} (hs : s.Normalized) :
    s.ranges.Pairwise fun x y => x.start ≤ y.start :=
  (List.pairwise_map.mp (Segment.Canonical.sortedByLo hs)).imp fun h => le_iff_val.mpr h

/-- On normalized sets the merged list is sorted, so its coalesced form is canonical. -/
theorem union_spec {a b : IpSet A} (ha : a.Normalized) (hb : b.Normalized) :
    ∃ s, a.union b = .ok s ∧ s.Normalized ∧
      Segment.cover s.view = Segment.cover (segs (a.ranges ++ b.ranges)) := by
  obtain ⟨s, hs, hview⟩ := union_refines a b
  have hperm : (a.ranges.merge b.ranges fun x y => decide (x.start ≤ y.start)).Perm
      (a.ranges ++ b.ranges) := List.merge_perm_append _
  have hsorted : (a.ranges.merge b.ranges fun x y => decide (x.start ≤ y.start)).Pairwise
      fun x y => x.start ≤ y.start := by
    have h := List.pairwise_merge (fun x y z hxy hyz => decide_eq_true
        ((of_decide_eq_true hxy).trans (of_decide_eq_true hyz)))
      (fun x y => by simpa using le_total x.start y.start) a.ranges b.ranges
      (ha.sorted.imp decide_eq_true) (hb.sorted.imp decide_eq_true)
    exact h.imp of_decide_eq_true
  -- the merge has the ranges of both sets, so they are valid
  have hvalid : ∀ x ∈ segs (a.ranges.merge b.ranges fun x y => decide (x.start ≤ y.start)),
      x.Valid := by
    intro x hx
    rw [(segs_perm hperm).mem_iff, segs_append, List.mem_append] at hx
    exact hx.elim (ha.valid x) (hb.valid x)
  refine ⟨s, hs, ?_, ?_⟩
  · unfold Normalized
    rw [hview]
    exact Segment.Canonical.normal hvalid (sortedByLo_segs hsorted)
  · rw [hview, Segment.cover_normal hvalid (sortedByLo_segs hsorted),
      Segment.cover_perm (segs_perm hperm)]

/-! ## Section 3: Difference -/

theorem pushRange_eq_ok (lo hi : BitVec 128) (hlo : lo.toNat < 2 ^ bits A)
    (hhi : hi.toNat < 2 ^ bits A) (result : List (IpRange A)) :
    ∃ r : IpRange A, pushRange lo hi result = .ok (result ++ [r]) ∧
      r.seg = ⟨lo.toNat, hi.toNat⟩ := by
  refine ⟨IpRange.new (fromU128 lo) (fromU128 hi), ?_, ?_⟩
  · unfold pushRange
    rw [fromU128Exact_eq_ok hlo, fromU128Exact_eq_ok hhi]
    rfl
  · rw [IpRange.seg_new, val_fromU128 hlo, val_fromU128 hhi]

/-- The skip drops the ranges that end before the cursor. -/
theorem skipLoop_refines (ys : List (IpRange A)) (cur : BitVec 128) (j : ℕ) :
    ∃ j', skipLoop ys cur j = .ok j' ∧ segs (ys.drop j') =
      (segs (ys.drop j)).dropWhile fun b => decide (b.hi < cur.toNat) := by
  induction j using walk_induction ys with
  | done j hdone =>
    refine ⟨j, ?_, ?_⟩
    · unfold skipLoop
      rw [dif_neg hdone]
      rfl
    · rw [List.drop_eq_nil_iff.mpr (not_lt.mp hdone)]
      rfl
  | step j hj ih =>
    unfold skipLoop
    rw [dif_pos hj, index_eq_ok hj, List.drop_eq_getElem_cons hj, segs_cons]
    simp only [Result.ok_bind]
    split
    · next hlt =>
      obtain ⟨j', hj', hdrop⟩ := ih
      refine ⟨j', hj', ?_⟩
      rw [hdrop, List.dropWhile_cons_of_pos]
      exact decide_eq_true (BitVec.lt_def.mp hlt)
    · next hge =>
      refine ⟨j, rfl, ?_⟩
      rw [List.drop_eq_getElem_cons hj, segs_cons, List.dropWhile_cons_of_neg]
      intro hlt
      exact hge (BitVec.lt_def.mpr (of_decide_eq_true hlt))

/-- The piece before a removal, when there is one. -/
private theorem pushGap_eq_ok {cur : BitVec 128} (hcur : cur.toNat < 2 ^ bits A)
    (b : IpRange A) (result : List (IpRange A)) :
    ∃ result', pushGap cur (toU128 b.start) result = .ok result' ∧ segs result' = segs result ++
      (if cur.toNat < b.seg.lo then [⟨cur.toNat, b.seg.lo - 1⟩] else []) := by
  have hgap : toU128 b.start > cur ↔ cur.toNat < b.seg.lo := BitVec.lt_def
  unfold pushGap
  by_cases h : cur.toNat < b.seg.lo
  · have hone : (1 : BitVec 128).toNat ≤ (toU128 b.start).toNat := show 1 ≤ b.seg.lo by omega
    have hsub := Word.toNat_sub_of_le hone
    have hhi : (toU128 b.start - 1).toNat < 2 ^ bits A := by
      rw [hsub]
      exact (Nat.sub_le _ _).trans_lt b.seg_lo_lt
    obtain ⟨r, hr, hseg⟩ := pushRange_eq_ok _ _ hcur hhi result
    refine ⟨result ++ [r], ?_, ?_⟩
    · rw [if_pos (hgap.mpr h), Word.sub_eq_ok hone, Result.ok_bind, hr]
    · rw [if_pos h, segs_append, segs_cons, hseg, hsub]
      rfl
  · refine ⟨result, ?_, ?_⟩
    · rw [if_neg (hgap.not.mpr h)]
      rfl
    · rw [if_neg h, List.append_nil]

/-- The tail piece, when the range is not consumed. -/
private theorem pushTail_eq_ok (c : Carve A) (hcur : c.cur.toNat < 2 ^ bits A)
    {aEnd : BitVec 128} (hend : aEnd.toNat < 2 ^ bits A) :
    ∃ result', pushTail c aEnd = .ok result' ∧ segs result' = segs c.result ++
      (if c.consumed then [] else [⟨c.cur.toNat, aEnd.toNat⟩]) := by
  unfold pushTail
  cases c.consumed with
  | true => exact ⟨c.result, rfl, by simp⟩
  | false =>
    obtain ⟨r, hr, hseg⟩ := pushRange_eq_ok _ _ hcur hend c.result
    refine ⟨c.result ++ [r], hr, ?_⟩
    rw [segs_append, segs_cons, hseg]
    rfl

/-- The inner loop carves the removals out of `[cur, aEnd]`.  The tail piece that the
    caller pushes when the range is not consumed is counted in. -/
private theorem carveLoop_refines (ys : List (IpRange A)) {aEnd : BitVec 128}
    (hend : aEnd.toNat < 2 ^ bits A) (j : ℕ) :
    ∀ cur result, cur.toNat < 2 ^ bits A →
      ∃ c, carveLoop ys aEnd j cur result = .ok c ∧ c.cur.toNat < 2 ^ bits A ∧
        segs c.result ++ (if c.consumed then [] else [⟨c.cur.toNat, aEnd.toNat⟩]) =
          segs result ++ (Segment.carve cur.toNat aEnd.toNat (segs (ys.drop j))).1 ∧
        segs (ys.drop c.j) = (Segment.carve cur.toNat aEnd.toNat (segs (ys.drop j))).2 := by
  induction j using walk_induction ys with
  | done j hdone =>
    intro cur result hcur
    have hnil : ys.drop j = [] := List.drop_eq_nil_iff.mpr (not_lt.mp hdone)
    refine ⟨{ j, cur, consumed := false, result }, ?_, hcur, ?_, ?_⟩
    · unfold carveLoop
      rw [dif_neg hdone]
      rfl
    · rw [hnil]
      rfl
    · dsimp only
      rw [hnil]
      rfl
  | step j hj ih =>
    intro cur result hcur
    have hstart := (ys[j]).seg_lo_lt
    rw [List.drop_eq_getElem_cons hj, segs_cons, Segment.carve]
    unfold carveLoop
    rw [dif_pos hj, index_eq_ok hj]
    simp only [Result.ok_bind]
    have hpast : toU128 ys[j].start > aEnd ↔ aEnd.toNat < ys[j].seg.lo := BitVec.lt_def
    by_cases h1 : aEnd.toNat < ys[j].seg.lo
    · -- the removal starts past the range
      rw [if_pos (hpast.mpr h1), if_pos h1]
      refine ⟨{ j, cur, consumed := false, result }, rfl, hcur, rfl, ?_⟩
      rw [List.drop_eq_getElem_cons hj, segs_cons]
    · rw [if_neg (hpast.not.mpr h1), if_neg h1]
      obtain ⟨result', hpush, hsegs⟩ := pushGap_eq_ok hcur ys[j] result
      rw [hpush]
      simp only [Result.ok_bind]
      have hreach : toU128 ys[j].end_ ≥ aEnd ↔ aEnd.toNat ≤ ys[j].seg.hi := BitVec.le_def
      by_cases h3 : aEnd.toNat ≤ ys[j].seg.hi
      · -- it reaches the end: consumed, and `j` stays
        rw [if_pos (hreach.mpr h3), if_pos h3]
        refine ⟨{ j, cur, consumed := true, result := result' }, rfl, hcur, ?_, ?_⟩
        · simp [hsegs]
        · rw [List.drop_eq_getElem_cons hj, segs_cons]
      · -- it ends inside, so the address after it is below the range's end
        rw [if_neg (hreach.not.mpr h3), if_neg h3]
        have hbend : (toU128 ys[j].end_).toNat < aEnd.toNat := not_le.mp h3
        have hfit : (toU128 ys[j].end_).toNat + (1 : BitVec 128).toNat < 2 ^ 128 := by
          have := aEnd.isLt
          show (toU128 ys[j].end_).toNat + 1 < 2 ^ 128
          omega
        have hadd := Word.toNat_add_of_lt hfit
        rw [Word.add_eq_ok hfit, Result.ok_bind]
        obtain ⟨c, hc, hcc, hres, hdrop⟩ := ih (toU128 ys[j].end_ + 1) result' (by
          rw [hadd]
          exact (Nat.succ_le_of_lt hbend).trans_lt hend)
        refine ⟨c, hc, hcc, ?_, ?_⟩
        · rw [hres, hsegs, hadd, List.append_assoc]
          rfl
        · rw [hdrop, hadd]
          rfl

private theorem differenceLoop_refines (ys xs : List (IpRange A)) (j : ℕ)
    (result : List (IpRange A)) :
    ∃ out, differenceLoop ys xs j result = .ok out ∧
      segs out = segs result ++ Segment.subtract (segs xs) (segs (ys.drop j)) := by
  induction xs generalizing j result with
  | nil => exact ⟨result, rfl, by simp [Segment.subtract]⟩
  | cons a xs ih =>
    obtain ⟨j', hskip, hdropj⟩ := skipLoop_refines ys (toU128 a.start) j
    obtain ⟨c, hcarve, hcur, hres, hdropc⟩ :=
      carveLoop_refines ys a.seg_hi_lt j' (toU128 a.start) result a.seg_lo_lt
    obtain ⟨result', hpush, hsegs⟩ := pushTail_eq_ok c hcur a.seg_hi_lt
    obtain ⟨out, hout, hview⟩ := ih c.j result'
    refine ⟨out, ?_, ?_⟩
    · unfold differenceLoop
      simp only [hskip, hcarve, hpush, Result.ok_bind]
      exact hout
    · rw [hview, hsegs, hres, hdropc, hdropj, segs_cons, Segment.subtract, List.append_assoc]
      rfl

/-- `difference` is the one-pass subtraction. -/
theorem difference_refines (a b : IpSet A) :
    ∃ s, a.difference b = .ok s ∧ s.view = Segment.subtract a.view b.view := by
  obtain ⟨out, hout, hview⟩ := differenceLoop_refines b.ranges a.ranges 0 []
  refine ⟨IpSet.new out, ?_, hview⟩
  unfold difference
  rw [hout]
  rfl

/-! ## Section 4: Intersection -/

/-- The push of one iteration: the overlap, when there is one. -/
private theorem pushOverlap_eq_ok (a b : IpRange A) (result : List (IpRange A)) :
    ∃ result', pushOverlap a b result = .ok result' ∧
      segs result' = segs result ++ (Segment.overlap a.seg b.seg).toList := by
  unfold pushOverlap
  by_cases h : Segment.Meets a.seg b.seg
  · have hmax := Word.toNat_umax (toU128 a.start) (toU128 b.start)
    have hmin := Word.toNat_umin (toU128 a.end_) (toU128 b.end_)
    obtain ⟨r, hr, hseg⟩ := pushRange_eq_ok
      (Word.umax (toU128 a.start) (toU128 b.start)) (Word.umin (toU128 a.end_) (toU128 b.end_))
      (by rw [hmax]; exact max_lt a.seg_lo_lt b.seg_lo_lt)
      (by rw [hmin]; exact (min_le_left _ _).trans_lt a.seg_hi_lt) result
    refine ⟨result ++ [r], ?_, ?_⟩
    · rw [if_pos (IpRange.overlaps_iff.mpr h), hr]
    · rw [segs_append, segs_cons, hseg, hmax, hmin, Segment.overlap, if_pos h]
      rfl
  · refine ⟨result, ?_, ?_⟩
    · rw [if_neg (IpRange.overlaps_iff.not.mpr h)]
      rfl
    · rw [Segment.overlap_eq_none.mpr h]
      simp

private theorem intersectionLoop_refines (xs ys : List (IpRange A)) (i j : ℕ) :
    ∀ result, ∃ out, intersectionLoop xs ys i j result = .ok out ∧
      segs out = segs result ++ Segment.intersect (segs (xs.drop i)) (segs (ys.drop j)) := by
  induction i, j using walk_induction₂ xs ys with
  | done i j hdone =>
    intro result
    refine ⟨result, ?_, ?_⟩
    · unfold intersectionLoop
      rw [dif_neg hdone]
      rfl
    · rcases drop_eq_nil_of_done hdone with hnil | hnil
      · simp [hnil]
      · simp [hnil]
  | step i j hi hj ihi ihj ihij =>
    intro result
    obtain ⟨result', hpush, hsegs⟩ := pushOverlap_eq_ok xs[i] ys[j] result
    have hlt1 : toU128 xs[i].end_ < toU128 ys[j].end_ ↔ xs[i].seg.hi < ys[j].seg.hi :=
      BitVec.lt_def
    have hlt2 : toU128 ys[j].end_ < toU128 xs[i].end_ ↔ ys[j].seg.hi < xs[i].seg.hi :=
      BitVec.lt_def
    unfold intersectionLoop
    rw [dif_pos ⟨hi, hj⟩, index_eq_ok hi, index_eq_ok hj, List.drop_eq_getElem_cons hi,
      List.drop_eq_getElem_cons hj, segs_cons, segs_cons, Segment.intersect_cons,
      ← List.append_assoc, ← hsegs]
    simp only [Result.ok_bind]
    rw [hpush, Result.ok_bind]
    by_cases h1 : xs[i].seg.hi < ys[j].seg.hi
    · rw [if_pos (hlt1.mpr h1), if_pos h1, ← segs_cons, ← List.drop_eq_getElem_cons hj]
      exact ihi result'
    · rw [if_neg (hlt1.not.mpr h1), if_neg h1]
      by_cases h2 : ys[j].seg.hi < xs[i].seg.hi
      · rw [if_pos (hlt2.mpr h2), if_pos h2, ← segs_cons, ← List.drop_eq_getElem_cons hi]
        exact ihj result'
      · rw [if_neg (hlt2.not.mpr h2), if_neg h2]
        exact ihij result'

/-- `intersection` is the two-pointer walk over the overlaps. -/
theorem intersection_refines (a b : IpSet A) :
    ∃ s, a.intersection b = .ok s ∧ s.view = Segment.intersect a.view b.view := by
  obtain ⟨out, hout, hview⟩ := intersectionLoop_refines a.ranges b.ranges 0 0 []
  refine ⟨IpSet.new out, ?_, hview⟩
  unfold intersection
  rw [hout]
  rfl

/-! ## Section 5: Complement -/

/-- The gap between two consecutive ranges. -/
private theorem interiorGap_eq_ok {r s : IpRange A} (h : Segment.Separated r.seg s.seg)
    (result : List (IpRange A)) :
    ∃ g : IpRange A, interiorGap result (r, s) = .ok (result ++ [g]) ∧
      g.seg = ⟨r.seg.hi + 1, s.seg.lo - 1⟩ := by
  have hsep : (toU128 r.end_).toNat + 1 < (toU128 s.start).toNat := Segment.separated_iff.mp h
  have hfit : (toU128 r.end_).toNat + (1 : BitVec 128).toNat < 2 ^ 128 :=
    hsep.trans (toU128 s.start).isLt
  have hone : (1 : BitVec 128).toNat ≤ (toU128 s.start).toNat :=
    (Nat.le_add_left 1 _).trans hsep.le
  have hlo := Word.toNat_add_of_lt hfit
  have hhi := Word.toNat_sub_of_le hone
  obtain ⟨g, hg, hseg⟩ := pushRange_eq_ok (toU128 r.end_ + 1) (toU128 s.start - 1)
    (by rw [hlo]; exact hsep.trans s.seg_lo_lt)
    (by rw [hhi]; exact (Nat.sub_le _ _).trans_lt s.seg_lo_lt) result
  refine ⟨g, ?_, ?_⟩
  · unfold interiorGap
    dsimp only
    rw [Word.add_eq_ok hfit, Word.sub_eq_ok hone]
    exact hg
  · rw [hseg, hlo, hhi]
    rfl

/-- The gap before the first range. -/
private theorem headGap_eq_ok (first : IpRange A) :
    ∃ out, headGap first = .ok out ∧
      segs out = if 0 < first.seg.lo then [⟨0, first.seg.lo - 1⟩] else [] := by
  have hpos : toU128 first.start > 0 ↔ 0 < first.seg.lo := BitVec.lt_def
  unfold headGap
  by_cases h : 0 < first.seg.lo
  · have hone : (1 : BitVec 128).toNat ≤ (toU128 first.start).toNat := h
    have hsub := Word.toNat_sub_of_le hone
    obtain ⟨g, hg, hseg⟩ := pushRange_eq_ok (A := A) 0 (toU128 first.start - 1)
      (Nat.two_pow_pos _) (by rw [hsub]; exact (Nat.sub_le _ _).trans_lt first.seg_lo_lt) []
    refine ⟨[g], ?_, ?_⟩
    · rw [if_pos (hpos.mpr h), Word.sub_eq_ok hone]
      exact hg
    · rw [if_pos h, segs_cons, hseg, hsub]
      rfl
  · refine ⟨[], ?_, ?_⟩
    · rw [if_neg (hpos.not.mpr h)]
      rfl
    · rw [if_neg h]
      rfl

/-- The gap after the last range. -/
private theorem tailGap_eq_ok (last : IpRange A) (result : List (IpRange A)) :
    ∃ out, tailGap last (maxAddr A) result = .ok out ∧ segs out = segs result ++
      Segment.gaps (last.seg.hi + 1) (2 ^ bits A - 1) [] := by
  have hmax := toNat_maxAddr (A := A)
  have hlt : toU128 last.end_ < maxAddr A ↔ last.seg.hi + 1 ≤ 2 ^ bits A - 1 := by
    rw [BitVec.lt_def, hmax]
    exact Iff.rfl
  unfold tailGap Segment.gaps
  by_cases h : last.seg.hi + 1 ≤ 2 ^ bits A - 1
  · have htop : last.seg.hi + 1 < 2 ^ bits A :=
      h.trans_lt (Nat.sub_lt (Nat.two_pow_pos _) Nat.one_pos)
    have hfit : (toU128 last.end_).toNat + (1 : BitVec 128).toNat < 2 ^ 128 :=
      htop.trans_le two_pow_bits_le
    have hadd := Word.toNat_add_of_lt hfit
    obtain ⟨g, hg, hseg⟩ := pushRange_eq_ok (toU128 last.end_ + 1) (maxAddr A)
      (by rw [hadd]; exact htop)
      (by rw [hmax]; exact Nat.sub_lt (Nat.two_pow_pos _) Nat.one_pos) result
    refine ⟨result ++ [g], ?_, ?_⟩
    · rw [if_pos (hlt.mpr h), Word.add_eq_ok hfit]
      exact hg
    · rw [if_pos h, segs_append, segs_cons, hseg, hadd, hmax]
      rfl
  · refine ⟨result, ?_, ?_⟩
    · rw [if_neg (hlt.not.mpr h)]
      rfl
    · rw [if_neg h, List.append_nil]

/-- The windows emit the interior gaps; the tail gap comes after the last range. -/
private theorem interiorGaps_refines (r : IpRange A) (rs result : List (IpRange A))
    (h : Segment.Canonical (segs (r :: rs))) (top : ℕ) :
    ∃ out last, ((r :: rs).zip rs).foldlM interiorGap result = .ok out ∧
      (r :: rs).getLast? = some last ∧
      segs out ++ Segment.gaps (last.seg.hi + 1) top [] =
        segs result ++ Segment.gaps (r.seg.hi + 1) top (segs rs) := by
  induction rs generalizing r result with
  | nil => exact ⟨result, r, rfl, rfl, rfl⟩
  | cons s rs ih =>
    have hsep : Segment.Separated r.seg s.seg := h.head_separated (by simp)
    obtain ⟨g, hg, hseg⟩ := interiorGap_eq_ok hsep result
    obtain ⟨out, last, hfold, hlast, hgaps⟩ := ih s (result ++ [g]) h.tail
    refine ⟨out, last, ?_, ?_, ?_⟩
    · rw [List.zip_cons_cons, List.foldlM_cons, hg]
      exact hfold
    · rw [List.getLast?_cons_cons]
      exact hlast
    · rw [hgaps, segs_append, segs_cons, hseg, segs_cons, Segment.gaps,
        if_pos (Segment.separated_iff.mp hsep), List.append_assoc]
      rfl

/-- `complement` lists the gaps of the set within the address space. -/
theorem complement_refines {a : IpSet A} (ha : a.Normalized) :
    ∃ s, a.complement = .ok s ∧ s.view = Segment.gaps 0 (2 ^ bits A - 1) a.view := by
  have hshift : (Word.saturatingSub 128 ((BITS A).setWidth 32) : BitVec 32).toNat =
      128 - bits A := by
    have hle : ((BITS A).setWidth 32).toNat ≤ (128 : BitVec 32).toNat := by
      rw [toNat_bits_setWidth]
      exact bits_le_128
    unfold Word.saturatingSub
    rw [if_pos (BitVec.le_def.mpr hle), Word.toNat_sub_of_le hle, toNat_bits_setWidth]
    rfl
  obtain ⟨ranges⟩ := a
  unfold complement
  rw [shr_eq_maxAddr hshift, Result.ok_bind]
  cases ranges with
  | nil =>
    -- the empty set: one gap, the whole space
    have hmax := toNat_maxAddr (A := A)
    obtain ⟨g, hg, hseg⟩ := pushRange_eq_ok (A := A) 0 (maxAddr A)
      (Nat.two_pow_pos _) (by rw [hmax]; exact Nat.sub_lt (Nat.two_pow_pos _) Nat.one_pos) []
    refine ⟨IpSet.new [g], ?_, ?_⟩
    · have hempty : isEmpty ({ ranges := [] } : IpSet A) = true := rfl
      rw [if_pos hempty, hg]
      rfl
    · rw [view_new, segs_cons, hseg, hmax]
      exact (if_pos (Nat.zero_le _)).symm
  | cons r rs =>
    -- head, interior and tail gaps in turn
    obtain ⟨head, hhead, hhsegs⟩ := headGap_eq_ok r
    obtain ⟨out, last, hfold, hlast, hgaps⟩ :=
      interiorGaps_refines r rs head ha (2 ^ bits A - 1)
    obtain ⟨out', htail, htsegs⟩ := tailGap_eq_ok last out
    refine ⟨IpSet.new out', ?_, ?_⟩
    · have hempty : ¬ isEmpty ({ ranges := r :: rs } : IpSet A) = true := Bool.false_ne_true
      have hfirst : index (r :: rs) 0 = .ok r := rfl
      rw [if_neg hempty, hfirst, Result.ok_bind, hhead, Result.ok_bind, List.tail_cons, hfold,
        Result.ok_bind, hlast, Result.unwrap_some, Result.ok_bind, htail]
      rfl
    · rw [view_new, htsegs, hgaps, hhsegs]
      rfl

end IpSet

end Ipnetx
