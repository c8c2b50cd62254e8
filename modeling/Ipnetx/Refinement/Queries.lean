import Ipnetx.Segment.Queries
import Ipnetx.Refinement.Represents

/-! # The Queries of a Set

    The walks of `is_subset_of` and `overlaps_ip_set` compute `within` and
    `meetsAny` on the views, on any input.  On representations the queries
    then decide what they are named after: inclusion, a common address, a
    range inside the set, emptiness.  The counts are the cardinality of
    the represented set, as far as a word of 128 bits can hold it. -/

namespace Ipnetx

open Machine IpAddress

variable {A : Type} [IpAddress A]

namespace IpSet

/-! ## Section 1: The walks -/

/-- The rest of the walk is `within` on the rest of both lists. -/
private theorem subsetLoop_refines (ys xs : List (IpRange A)) (j : ℕ) :
    subsetLoop ys xs j = .ok (Segment.within (segs xs) (segs (ys.drop j))) := by
  induction xs generalizing j with
  | nil => rfl
  | cons a xs ih =>
    obtain ⟨j', hskip, hdrop⟩ := skipLoop_refines ys (toU128 a.start) j
    unfold subsetLoop
    simp only [hskip, Result.ok_bind]
    by_cases hj : j' < ys.length
    · have hhead := List.drop_eq_getElem_cons hj
      rw [hhead, segs_cons] at hdrop
      rw [if_neg (not_le.mpr hj), index_eq_ok hj, Result.ok_bind, segs_cons,
        Segment.within_cons_of_cons hdrop.symm, ← segs_cons, ← hhead]
      have htest : (toU128 ys[j'].start > toU128 a.start ∨ toU128 ys[j'].end_ < toU128 a.end_) ↔
          (a.seg.lo < ys[j'].seg.lo ∨ ys[j'].seg.hi < a.seg.hi) :=
        or_congr BitVec.lt_def BitVec.lt_def
      by_cases h : a.seg.lo < ys[j'].seg.lo ∨ ys[j'].seg.hi < a.seg.hi
      · rw [if_pos (htest.mpr h), if_pos h]
        rfl
      · rw [if_neg (htest.not.mpr h), if_neg h]
        exact ih j'
    · -- no candidate is left
      have hnil : ys.drop j' = [] := List.drop_eq_nil_iff.mpr (not_lt.mp hj)
      rw [hnil, segs_nil] at hdrop
      rw [if_pos (not_lt.mp hj), segs_cons, Segment.within_cons_of_nil hdrop.symm]
      rfl

/-- `is_subset_of` is the walk `within`; its two early exits agree with it. -/
theorem isSubsetOf_refines (a b : IpSet A) :
    a.isSubsetOf b = .ok (Segment.within a.view b.view) := by
  unfold isSubsetOf isEmpty view
  cases a.ranges with
  | nil => rfl
  | cons x xs =>
    cases b.ranges with
    | nil => rfl
    | cons y ys => exact subsetLoop_refines (y :: ys) (x :: xs) 0

private theorem overlapsLoop_refines (xs ys : List (IpRange A)) (i j : ℕ) :
    overlapsLoop xs ys i j = .ok (Segment.meetsAny (segs (xs.drop i)) (segs (ys.drop j))) := by
  induction i, j using walk_induction₂ xs ys with
  | done i j hdone =>
    unfold overlapsLoop
    rw [dif_neg hdone]
    rcases drop_eq_nil_of_done hdone with hnil | hnil
    · simp [hnil]
    · simp [hnil]
  | step i j hi hj ihi ihj _ =>
    have hmeets := IpRange.overlaps_iff (r := xs[i]) (s := ys[j])
    have hlt : toU128 xs[i].end_ < toU128 ys[j].end_ ↔ xs[i].seg.hi < ys[j].seg.hi :=
      BitVec.lt_def
    unfold overlapsLoop
    rw [dif_pos ⟨hi, hj⟩, index_eq_ok hi, index_eq_ok hj, List.drop_eq_getElem_cons hi,
      List.drop_eq_getElem_cons hj, segs_cons, segs_cons, Segment.meetsAny_cons]
    simp only [Result.ok_bind]
    by_cases h1 : Segment.Meets xs[i].seg ys[j].seg
    · rw [if_pos (hmeets.mpr h1), if_pos h1]
      rfl
    · rw [if_neg (hmeets.not.mpr h1), if_neg h1]
      by_cases h2 : xs[i].seg.hi < ys[j].seg.hi
      · rw [if_pos (hlt.mpr h2), if_pos h2, ← segs_cons, ← List.drop_eq_getElem_cons hj]
        exact ihi
      · rw [if_neg (hlt.not.mpr h2), if_neg h2, ← segs_cons, ← List.drop_eq_getElem_cons hi]
        exact ihj

/-- `overlaps_ip_set` is the walk `meetsAny`. -/
theorem overlapsIpSet_refines (a b : IpSet A) :
    a.overlapsIpSet b = .ok (Segment.meetsAny a.view b.view) :=
  overlapsLoop_refines a.ranges b.ranges 0 0

/-- `contains_range` looks for a stored range around the query; the final comparison of the
    ends then holds. -/
theorem containsRange_refines {s : IpSet A} (hs : s.Normalized) (q : IpRange A) :
    ∃ c, s.containsRange q = .ok c ∧
      (c = true ↔ q.isValid = true ∧ ∃ r ∈ s.view, r.lo ≤ q.seg.lo ∧ q.seg.hi ≤ r.hi) := by
  have hsearch := binarySearchBy_isOk_iff (partitioned_compareRange hs q)
  have hview : (∃ r ∈ s.ranges, compareRange q r = .eq) ↔
      ∃ r ∈ s.view, r.lo ≤ q.seg.lo ∧ q.seg.hi ≤ r.hi := by
    simp only [compareRange_eq_iff, view, mem_segs, exists_exists_and_eq_and]
  rw [← hview, ← hsearch]
  unfold containsRange
  by_cases hq : q.isValid = true
  · simp only [hq, Bool.not_true, Bool.false_eq_true, if_false, true_and]
    cases hfound : binarySearchBy s.ranges (compareRange q) with
    | error i => exact ⟨false, rfl, by simp⟩
    | ok i =>
      obtain ⟨hi, heq⟩ := binarySearchBy_sound hfound
      have hend : q.end_ ≤ s.ranges[i].end_ := le_iff_val.mpr (compareRange_eq_iff.mp heq).2
      have hread : (index s.ranges i >>= fun r => pure (decide (q.end_ ≤ r.end_))) = .ok true := by
        rw [index_eq_ok hi, Result.ok_bind, decide_eq_true hend]
        rfl
      exact ⟨true, hread, by simp⟩
  · exact ⟨false, by simp [hq], by simp [hq]⟩

/-! ## Section 2: What the queries decide -/

section
variable {s t : IpSet A} {S T : Set A}

theorem Represents.isEmpty_iff (hs : s.Represents S) : s.isEmpty = true ↔ S = ∅ := by
  have hempty : (new [] : IpSet A).Represents ∅ :=
    represents_of_cover Segment.Canonical.nil fun ip => by simp
  rw [← hs.eq_iff hempty]
  unfold isEmpty
  rw [List.isEmpty_iff]
  constructor
  · exact fun h => congrArg new h
  · exact fun h => congrArg ranges h

theorem Represents.cover_subset_iff (hs : s.Represents S) {T : Set ℕ} :
    Segment.cover s.view ⊆ T ↔ ∀ ip ∈ S, val ip ∈ T := by
  constructor
  · exact fun h ip hip => h (hs.mem_cover.mpr hip)
  · intro h n hn
    obtain ⟨ip, rfl⟩ := exists_val (A := A) (lt_of_mem_cover_segs hn)
    exact h ip (hs.mem_cover.mp hn)

/-- `is_subset_of` decides inclusion. -/
theorem isSubsetOf_represents (hs : s.Represents S) (ht : t.Represents T) :
    ∃ c, s.isSubsetOf t = .ok c ∧ (c = true ↔ S ⊆ T) := by
  have hiff : Segment.within s.view t.view = true ↔ S ⊆ T := by
    rw [Segment.within_iff hs.normalized ht.normalized, hs.cover_subset_iff]
    exact forall₂_congr fun ip _ => ht.mem_cover
  exact ⟨_, isSubsetOf_refines s t, hiff⟩

/-- `overlaps_ip_set` decides whether there is a common address. -/
theorem overlapsIpSet_represents (hs : s.Represents S) (ht : t.Represents T) :
    ∃ c, s.overlapsIpSet t = .ok c ∧ (c = true ↔ (S ∩ T).Nonempty) := by
  refine ⟨_, overlapsIpSet_refines s t, ?_⟩
  rw [Segment.meetsAny_iff hs.normalized ht.normalized]
  constructor
  · intro hin
    obtain ⟨n, hn, hn'⟩ := hin
    obtain ⟨ip, rfl⟩ := exists_val (A := A) (lt_of_mem_cover_segs hn)
    exact ⟨ip, hs.mem_cover.mp hn, ht.mem_cover.mp hn'⟩
  · intro hin
    obtain ⟨ip, hip, hip'⟩ := hin
    exact ⟨val ip, hs.mem_cover.mpr hip, ht.mem_cover.mpr hip'⟩

/-- `contains_range` decides whether a valid range lies inside the set. -/
theorem containsRange_represents (hs : s.Represents S) (q : IpRange A) :
    ∃ c, s.containsRange q = .ok c ∧
      (c = true ↔ q.isValid = true ∧ ∀ ip, q.contains ip = true → ip ∈ S) := by
  obtain ⟨c, hc, hiff⟩ := containsRange_refines hs.normalized q
  -- the addresses of `q` are the numbers of its segment
  have haddrs : (∀ n ∈ q.seg, n ∈ Segment.cover s.view) ↔ ∀ ip, q.contains ip = true → ip ∈ S := by
    constructor
    · exact fun h ip hip => hs.mem_cover.mp (h _ (IpRange.contains_iff.mp hip))
    · intro h n hn
      obtain ⟨ip, rfl⟩ := exists_val (A := A) (hn.2.trans_lt q.seg_hi_lt)
      exact hs.mem_cover.mpr (h ip (IpRange.contains_iff.mpr hn))
  have hinside : q.isValid = true →
      ((∃ r ∈ s.view, r.lo ≤ q.seg.lo ∧ q.seg.hi ≤ r.hi) ↔
        ∀ ip, q.contains ip = true → ip ∈ S) := by
    intro hq
    rw [← haddrs, Segment.Canonical.subset_cover_iff hs.normalized (IpRange.isValid_iff.mp hq)]
  exact ⟨c, hc, hiff.trans (and_congr_right hinside)⟩

end

/-! ## Section 3: Counts -/

/-- The size of a valid range is taken without underflow. -/
private theorem span_spec {r : IpRange A} (h : r.isValid = true) :
    ∃ span, Word.sub (toU128 r.end_) (toU128 r.start) = .ok span ∧
      span.toNat = r.seg.hi - r.seg.lo :=
  ⟨_, Word.sub_eq_ok (IpRange.isValid_iff.mp h), Word.toNat_sub_of_le (IpRange.isValid_iff.mp h)⟩

/-- Capping the partial sums does not change the capped sum. -/
private theorem min_add_min (a b t M : ℕ) :
    min (min (a + min b M) M + t) M = min (a + (b + t)) M := by
  omega

/-- The fold saturates where the exact sum leaves the word, and nowhere else. -/
private theorem count_foldlM_spec (rs : List (IpRange A)) (acc : BitVec 128)
    (hvalid : ∀ r ∈ rs, r.isValid = true) :
    ∃ c : BitVec 128, (rs.foldlM (fun acc r => do
        let span ← Word.sub (toU128 r.end_) (toU128 r.start)
        return Word.saturatingAdd acc (Word.saturatingAdd span 1)) acc : Result _) = .ok c ∧
      c.toNat = min (acc.toNat + Segment.total (segs rs)) (2 ^ 128 - 1) := by
  induction rs generalizing acc with
  | nil =>
    have hacc := acc.isLt
    have hcap : acc.toNat =
        min (acc.toNat + Segment.total (segs ([] : List (IpRange A)))) (2 ^ 128 - 1) := by
      simp only [segs_nil, Segment.total]
      omega
    exact ⟨acc, rfl, hcap⟩
  | cons r rs ih =>
    obtain ⟨span, hsub, hspan⟩ := span_spec (hvalid r List.mem_cons_self)
    obtain ⟨c, hc, hval⟩ := ih (Word.saturatingAdd acc (Word.saturatingAdd span 1))
      fun r' hr' => hvalid r' (List.mem_cons_of_mem _ hr')
    have hone : (1 : BitVec 128).toNat = 1 := rfl
    rw [Word.toNat_saturatingAdd, Word.toNat_saturatingAdd, hspan, hone, min_add_min] at hval
    rw [List.foldlM_cons, hsub, segs_cons, Segment.total]
    exact ⟨c, hc, hval⟩

/-- The checked fold returns the exact sum, when a word holds it. -/
private theorem countLoop_spec (rs : List (IpRange A)) (acc : BitVec 128)
    (hvalid : ∀ r ∈ rs, r.isValid = true) :
    ∃ o, countLoop rs acc = .ok o ∧
      ∀ n, o = some n ↔ n.toNat = acc.toNat + Segment.total (segs rs) := by
  induction rs generalizing acc with
  | nil =>
    have hacc : ∀ n, some acc = some n ↔
        n.toNat = acc.toNat + Segment.total (segs ([] : List (IpRange A))) := by
      intro n
      rw [Option.some.injEq, ← BitVec.toNat_inj, eq_comm]
      rfl
    exact ⟨some acc, rfl, hacc⟩
  | cons r rs ih =>
    obtain ⟨span, hsub, hspan⟩ := span_spec (hvalid r List.mem_cons_self)
    have hone : (1 : BitVec 128).toNat = 1 := rfl
    rw [countLoop, hsub, Result.ok_bind, segs_cons, Segment.total]
    cases hsize : Word.checkedAdd span 1 with
    | none =>
      -- the range alone has more addresses than a word can count
      have hover := Word.checkedAdd_eq_none.mp hsize
      refine ⟨none, rfl, fun n => iff_of_false (by simp) ?_⟩
      have hn := n.isLt
      omega
    | some size =>
      have hsize' := Word.checkedAdd_eq_some.mp hsize
      cases hsum : Word.checkedAdd acc size with
      | none =>
        have hover := Word.checkedAdd_eq_none.mp hsum
        refine ⟨none, by simp [hsum], fun n => iff_of_false (by simp) ?_⟩
        have hn := n.isLt
        omega
      | some acc' =>
        have hsum' := Word.checkedAdd_eq_some.mp hsum
        obtain ⟨o, ho, hiff⟩ := ih acc' fun r' hr' => hvalid r' (List.mem_cons_of_mem _ hr')
        have htotal : acc'.toNat + Segment.total (segs rs) =
            acc.toNat + (r.seg.hi - r.seg.lo + 1 + Segment.total (segs rs)) := by
          omega
        exact ⟨o, by simp [hsum, ho], fun n => htotal ▸ hiff n⟩

/-- A set of addresses has as many elements as the set of its numbers. -/
theorem ncard_of_mem_iff {S : Set A} {N : Set ℕ} (hN : ∀ n ∈ N, n < 2 ^ bits A)
    (h : ∀ ip, ip ∈ S ↔ val ip ∈ N) : S.ncard = N.ncard := by
  have hS : S = Set.preimage val N := by
    apply Set.ext
    intro ip
    exact h ip
  rw [hS]
  exact Set.ncard_preimage_of_injective_subset_range val_injective fun n hn => exists_val (hN n hn)

theorem finite_addresses : Finite A := by
  have hinj : Function.Injective fun a : A => (⟨val a, val_lt a⟩ : Fin (2 ^ bits A)) := by
    intro a b h
    exact val_inj.mp (Fin.mk.inj h)
  exact Finite.of_injective _ hinj

theorem ncard_univ : (Set.univ : Set A).ncard = 2 ^ bits A := by
  have hpos := Nat.two_pow_pos (bits A)
  have hbelow : ∀ n ∈ Set.Icc 0 (2 ^ bits A - 1), n < 2 ^ bits A := by
    intro n hn
    have := hn.2
    omega
  have hall : ∀ ip : A, ip ∈ Set.univ ↔ val ip ∈ Set.Icc 0 (2 ^ bits A - 1) :=
    fun ip => iff_of_true trivial ⟨Nat.zero_le _, Nat.le_sub_one_of_lt (val_lt ip)⟩
  rw [ncard_of_mem_iff hbelow hall, Set.ncard_Icc_nat]
  omega

/-- Only the full space of a family of 128 bits has more addresses than a word can count. -/
theorem two_pow_le_ncard_iff {S : Set A} :
    2 ^ 128 ≤ S.ncard ↔ bits A = 128 ∧ S = Set.univ := by
  have hfinite : Finite A := finite_addresses
  have hle : S.ncard ≤ 2 ^ bits A := ncard_univ (A := A) ▸ Set.ncard_le_ncard (Set.subset_univ S)
  constructor
  · intro h
    have hbits : 128 ≤ bits A := (Nat.pow_le_pow_iff_right (by decide)).mp (h.trans hle)
    have heq : bits A = 128 := le_antisymm bits_le_128 hbits
    have hcard : (Set.univ : Set A).ncard ≤ S.ncard := by
      rw [ncard_univ, heq]
      exact h
    exact ⟨heq, Set.eq_of_subset_of_ncard_le (Set.subset_univ S) hcard⟩
  · intro hin
    obtain ⟨hbits, hS⟩ := hin
    rw [hS, ncard_univ, hbits]

section
variable {s : IpSet A} {S : Set A}

theorem Represents.ncard_eq (hs : s.Represents S) : S.ncard = Segment.total s.view := by
  rw [← Segment.Canonical.ncard_cover hs.normalized]
  exact ncard_of_mem_iff (fun n hn => lt_of_mem_cover_segs hn) fun ip => hs.mem_cover.symm

/-- `count` is the cardinality, capped at the largest word. -/
theorem count_represents (hs : s.Represents S) :
    ∃ c, s.count = .ok c ∧ c.toNat = min S.ncard (2 ^ 128 - 1) := by
  obtain ⟨c, hc, hval⟩ := count_foldlM_spec s.ranges 0 fun r hr => hs.normalized.isValid hr
  have hzero : (0 : BitVec 128).toNat = 0 := rfl
  rw [hzero, Nat.zero_add] at hval
  rw [hs.ncard_eq]
  exact ⟨c, hc, hval⟩

/-- `count_checked` is the cardinality, when a word can hold it. -/
theorem countChecked_represents (hs : s.Represents S) :
    ∃ o, s.countChecked = .ok o ∧ ∀ n, o = some n ↔ n.toNat = S.ncard := by
  obtain ⟨o, ho, hiff⟩ := countLoop_spec s.ranges 0 fun r hr => hs.normalized.isValid hr
  have hzero : (0 : BitVec 128).toNat = 0 := rfl
  rw [hzero, Nat.zero_add] at hiff
  rw [hs.ncard_eq]
  exact ⟨o, ho, hiff⟩

/-- Both counts are exact when a word can hold the cardinality. -/
theorem counts_of_lt (hs : s.Represents S) (hlt : S.ncard < 2 ^ 128) :
    ∃ n, s.count = .ok n ∧ s.countChecked = .ok (some n) ∧ n.toNat = S.ncard := by
  obtain ⟨n, hn, hval⟩ := count_represents hs
  obtain ⟨o, ho, hiff⟩ := countChecked_represents hs
  rw [Nat.min_eq_left (Nat.le_sub_one_of_lt hlt)] at hval
  rw [(hiff n).mpr hval] at ho
  exact ⟨n, hn, ho, hval⟩

/-- The ranges stored first are a representation of their addresses, which are in the set. -/
theorem Represents.initial (hs : s.Represents S) {done rest : List (IpRange A)}
    (hsplit : s.ranges = done ++ rest) :
    (new done).Represents (rangesSet done) ∧ rangesSet done ⊆ S := by
  have hcanonical : Segment.Canonical (segs done ++ segs rest) := by
    rw [← segs_append, ← hsplit]
    exact hs.normalized
  constructor
  · exact represents_of_cover hcanonical.of_prefix fun _ => mem_rangesSet.symm
  · rw [← hs.rangesSet_eq, hsplit, rangesSet_append]
    exact Set.subset_union_left

end

end IpSet

end Ipnetx
