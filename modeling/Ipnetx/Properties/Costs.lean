import Ipnetx.Model.Walks
import Ipnetx.Properties.Runs

/-! # Costs

    The walks over two sets take a number of passes that is linear in the
    numbers of stored ranges, and a membership test calls its comparator a
    logarithmic number of times.  This holds of all range vectors, normalized
    or not.

    Each loop has a variant that counts the ranges still to come; inside
    `difference` and `is_subset_of` a range of `self` counts three times, for
    it takes one pass of the `for` loop and up to two that move no index. -/

namespace Ipnetx

open Machine IpAddress

variable {A : Type} [IpAddress A]

namespace IpSet

/-! ## Section 1: Single loops -/

theorem overlaps_hasVariant (xs ys : List (IpRange A)) :
    HasVariant (overlapsPass xs ys) (fun c => overlapsLoop xs ys c.i c.j)
      fun c => (xs.length - c.i) + (ys.length - c.j) := by
  have hunfolds : ∀ c : Cursor, overlapsLoop xs ys c.i c.j =
      overlapsPass xs ys c >>= follow fun c => overlapsLoop xs ys c.i c.j := by
    intro c
    rw [overlapsLoop]
    unfold overlapsPass
    by_cases h : c.i < xs.length ∧ c.j < ys.length
    · simp only [dif_pos h, if_pos h, index_eq_ok h.1, index_eq_ok h.2, Result.ok_bind]
      split
      · rfl
      · split
        · rfl
        · rfl
    · simp only [dif_neg h, if_neg h]
      rfl
  have hdecreases : ∀ {c c' : Cursor}, overlapsPass xs ys c = .ok (.again c') →
      (xs.length - c'.i) + (ys.length - c'.j) < (xs.length - c.i) + (ys.length - c.j) := by
    intro c c' hpass
    unfold overlapsPass at hpass
    by_cases h : c.i < xs.length ∧ c.j < ys.length
    · simp only [if_pos h, index_eq_ok h.1, index_eq_ok h.2, Result.ok_bind] at hpass
      split at hpass
      · cases hpass
      · split at hpass
        · cases hpass
          show (xs.length - (c.i + 1)) + (ys.length - c.j) < _
          omega
        · cases hpass
          show (xs.length - c.i) + (ys.length - (c.j + 1)) < _
          omega
    · simp only [if_neg h] at hpass
      cases hpass
  exact ⟨hunfolds, hdecreases⟩

theorem union_hasVariant (xs ys : List (IpRange A)) :
    HasVariant (unionPass xs ys) (fun m => unionLoop xs ys m.i m.j m.merged)
      fun m => (xs.length - m.i) + (ys.length - m.j) := by
  have hunfolds : ∀ m : Merge A, unionLoop xs ys m.i m.j m.merged =
      unionPass xs ys m >>= follow fun m => unionLoop xs ys m.i m.j m.merged := by
    intro m
    rw [unionLoop]
    unfold unionPass
    by_cases h : m.i < xs.length ∧ m.j < ys.length
    · simp only [dif_pos h, if_pos h, index_eq_ok h.1, index_eq_ok h.2, Result.ok_bind]
      split
      · rfl
      · rfl
    · simp only [dif_neg h, if_neg h]
      rfl
  have hdecreases : ∀ {m m' : Merge A}, unionPass xs ys m = .ok (.again m') →
      (xs.length - m'.i) + (ys.length - m'.j) < (xs.length - m.i) + (ys.length - m.j) := by
    intro m m' hpass
    unfold unionPass at hpass
    by_cases h : m.i < xs.length ∧ m.j < ys.length
    · simp only [if_pos h, index_eq_ok h.1, index_eq_ok h.2, Result.ok_bind] at hpass
      split at hpass
      · cases hpass
        show (xs.length - (m.i + 1)) + (ys.length - m.j) < _
        omega
      · cases hpass
        show (xs.length - m.i) + (ys.length - (m.j + 1)) < _
        omega
    · simp only [if_neg h] at hpass
      cases hpass
  exact ⟨hunfolds, hdecreases⟩

theorem intersection_hasVariant (xs ys : List (IpRange A)) :
    HasVariant (intersectionPass xs ys) (fun m => intersectionLoop xs ys m.i m.j m.result)
      fun m => (xs.length - m.i) + (ys.length - m.j) := by
  have hunfolds : ∀ m : Meet A, intersectionLoop xs ys m.i m.j m.result =
      intersectionPass xs ys m >>= follow fun m => intersectionLoop xs ys m.i m.j m.result := by
    intro m
    rw [intersectionLoop]
    unfold intersectionPass
    by_cases h : m.i < xs.length ∧ m.j < ys.length
    · simp only [dif_pos h, if_pos h, index_eq_ok h.1, index_eq_ok h.2, Result.ok_bind,
        bind_assoc]
      congr 1
      funext result
      split
      · rfl
      · split
        · rfl
        · rfl
    · simp only [dif_neg h, if_neg h]
      rfl
  have hdecreases : ∀ {m m' : Meet A}, intersectionPass xs ys m = .ok (.again m') →
      (xs.length - m'.i) + (ys.length - m'.j) < (xs.length - m.i) + (ys.length - m.j) := by
    intro m m' hpass
    unfold intersectionPass at hpass
    by_cases h : m.i < xs.length ∧ m.j < ys.length
    · simp only [if_pos h, index_eq_ok h.1, index_eq_ok h.2, Result.ok_bind] at hpass
      obtain ⟨result, _, hrest⟩ := Result.bind_eq_ok hpass
      split at hrest
      · cases hrest
        show (xs.length - (m.i + 1)) + (ys.length - m.j) < _
        omega
      · split at hrest
        · cases hrest
          show (xs.length - m.i) + (ys.length - (m.j + 1)) < _
          omega
        · cases hrest
          show (xs.length - (m.i + 1)) + (ys.length - (m.j + 1)) < _
          omega
    · simp only [if_neg h] at hpass
      cases hpass
  exact ⟨hunfolds, hdecreases⟩

/-! ## Section 2: Loops inside a loop -/

/-- What `is_subset_of` returns from the end of the `while` loop on. -/
def subsetCheck (ys : List (IpRange A)) (a : IpRange A) (rest : List (IpRange A)) (j : ℕ) :
    Result Bool :=
  if j ≥ ys.length then
    return false
  else do
    let b ← index ys j
    if toU128 b.start > toU128 a.start ∨ toU128 b.end_ < toU128 a.end_ then
      return false
    else
      subsetLoop ys rest j

/-- What `is_subset_of` returns from a point on. -/
def subsetRest (ys : List (IpRange A)) : SubsetPoint A → Result Bool
  | .next rest j => subsetLoop ys rest j
  | .skip a rest j => skipLoop ys (toU128 a.start) j >>= subsetCheck ys a rest
  | .check a rest j => subsetCheck ys a rest j

/-- The passes to come: `n` is the number of ranges of `other`. -/
def subsetVariant (n : ℕ) : SubsetPoint A → ℕ
  | .next rest j => 3 * rest.length + (n - j)
  | .skip _ rest j => 3 * rest.length + 2 + (n - j)
  | .check _ rest j => 3 * rest.length + 1 + (n - j)

theorem subset_hasVariant (ys : List (IpRange A)) :
    HasVariant (subsetPass ys) (subsetRest ys) (subsetVariant ys.length) := by
  have hunfolds : ∀ p, subsetRest ys p = subsetPass ys p >>= follow (subsetRest ys) := by
    intro p
    cases p with
    | next rest j =>
      cases rest with
      | nil => rfl
      | cons a rest => rfl
    | skip a rest j =>
      show skipLoop ys (toU128 a.start) j >>= subsetCheck ys a rest = _
      rw [skipLoop]
      unfold subsetPass
      by_cases h : j < ys.length
      · simp only [dif_pos h, if_pos h, index_eq_ok h, Result.ok_bind]
        split
        · rfl
        · rfl
      · simp only [dif_neg h, if_neg h]
        rfl
    | check a rest j =>
      show subsetCheck ys a rest j = _
      unfold subsetPass subsetCheck
      by_cases h : j ≥ ys.length
      · simp only [if_pos h]
        rfl
      · simp only [if_neg h, index_eq_ok (not_le.mp h), Result.ok_bind]
        split
        · rfl
        · rfl
  have hdecreases : ∀ {p p' : SubsetPoint A}, subsetPass ys p = .ok (.again p') →
      subsetVariant ys.length p' < subsetVariant ys.length p := by
    intro p p' hpass
    cases p with
    | next rest j =>
      cases rest with
      | nil => cases hpass
      | cons a rest =>
        cases hpass
        show 3 * rest.length + 2 + (ys.length - j) < 3 * (rest.length + 1) + (ys.length - j)
        omega
    | skip a rest j =>
      unfold subsetPass at hpass
      by_cases h : j < ys.length
      · simp only [if_pos h, index_eq_ok h, Result.ok_bind] at hpass
        split at hpass
        · cases hpass
          show 3 * rest.length + 2 + (ys.length - (j + 1)) < 3 * rest.length + 2 + (ys.length - j)
          omega
        · cases hpass
          exact Nat.add_lt_add_right (Nat.lt_succ_self _) _
      · simp only [if_neg h] at hpass
        cases hpass
        exact Nat.add_lt_add_right (Nat.lt_succ_self _) _
    | check a rest j =>
      unfold subsetPass at hpass
      by_cases h : j ≥ ys.length
      · simp only [if_pos h] at hpass
        cases hpass
      · simp only [if_neg h, index_eq_ok (not_le.mp h), Result.ok_bind] at hpass
        split at hpass
        · cases hpass
        · cases hpass
          exact Nat.add_lt_add_right (Nat.lt_succ_self _) _
  exact ⟨hunfolds, hdecreases⟩

/-- What `difference` returns from the second `while` loop on. -/
def differenceCarve (ys : List (IpRange A)) (aEnd cur : BitVec 128) (rest : List (IpRange A))
    (result : List (IpRange A)) (j : ℕ) : Result (List (IpRange A)) := do
  let c ← carveLoop ys aEnd j cur result
  let result ← pushTail c aEnd
  differenceLoop ys rest c.j result

/-- What `difference` returns from a point on. -/
def differenceRest (ys : List (IpRange A)) : DifferencePoint A → Result (List (IpRange A))
  | .next rest j result => differenceLoop ys rest j result
  | .skip aEnd cur rest j result => skipLoop ys cur j >>= differenceCarve ys aEnd cur rest result
  | .carve aEnd cur rest j result => differenceCarve ys aEnd cur rest result j

/-- The passes to come: `n` is the number of ranges of `other`. -/
def differenceVariant (n : ℕ) : DifferencePoint A → ℕ
  | .next rest j _ => 3 * rest.length + (n - j)
  | .skip _ _ rest j _ => 3 * rest.length + 2 + (n - j)
  | .carve _ _ rest j _ => 3 * rest.length + 1 + (n - j)

theorem differenceRest_unfolds (ys : List (IpRange A)) (p : DifferencePoint A) :
    differenceRest ys p = differencePass ys p >>= follow (differenceRest ys) := by
  cases p with
  | next rest j result =>
    cases rest with
    | nil => rfl
    | cons a rest => rfl
  | skip aEnd cur rest j result =>
    show skipLoop ys cur j >>= differenceCarve ys aEnd cur rest result = _
    rw [skipLoop]
    unfold differencePass
    by_cases h : j < ys.length
    · simp only [dif_pos h, if_pos h, index_eq_ok h, Result.ok_bind]
      split
      · rfl
      · rfl
    · simp only [dif_neg h, if_neg h]
      rfl
  | carve aEnd cur rest j result =>
    show differenceCarve ys aEnd cur rest result j = _
    unfold differencePass differenceCarve
    rw [carveLoop]
    by_cases h : j < ys.length
    · simp only [dif_pos h, if_pos h, index_eq_ok h, Result.ok_bind]
      split
      · rw [bind_assoc]
        rfl
      · simp only [bind_assoc]
        congr 1
        funext result
        split
        · rfl
        · simp only [bind_assoc]
          rfl
    · simp only [dif_neg h, if_neg h, bind_assoc]
      rfl

theorem differencePass_decreases {ys : List (IpRange A)} {p p' : DifferencePoint A}
    (hpass : differencePass ys p = .ok (.again p')) :
    differenceVariant ys.length p' < differenceVariant ys.length p := by
  cases p with
  | next rest j result =>
    cases rest with
    | nil => cases hpass
    | cons a rest =>
      cases hpass
      show 3 * rest.length + 2 + (ys.length - j) < 3 * (rest.length + 1) + (ys.length - j)
      omega
  | skip aEnd cur rest j result =>
    unfold differencePass at hpass
    by_cases h : j < ys.length
    · simp only [if_pos h, index_eq_ok h, Result.ok_bind] at hpass
      split at hpass
      · cases hpass
        show 3 * rest.length + 2 + (ys.length - (j + 1)) < 3 * rest.length + 2 + (ys.length - j)
        omega
      · cases hpass
        exact Nat.add_lt_add_right (Nat.lt_succ_self _) _
    · simp only [if_neg h] at hpass
      cases hpass
      exact Nat.add_lt_add_right (Nat.lt_succ_self _) _
  | carve aEnd cur rest j result =>
    -- the range is done, or the next removal is looked at
    unfold differencePass at hpass
    by_cases h : j < ys.length
    · simp only [if_pos h, index_eq_ok h, Result.ok_bind] at hpass
      split at hpass
      · obtain ⟨result', _, hrest⟩ := Result.bind_eq_ok hpass
        cases hrest
        exact Nat.add_lt_add_right (Nat.lt_succ_self _) _
      · obtain ⟨result', _, hrest⟩ := Result.bind_eq_ok hpass
        split at hrest
        · cases hrest
          exact Nat.add_lt_add_right (Nat.lt_succ_self _) _
        · obtain ⟨cur', _, hagain⟩ := Result.bind_eq_ok hrest
          cases hagain
          show 3 * rest.length + 1 + (ys.length - (j + 1)) < 3 * rest.length + 1 + (ys.length - j)
          omega
    · simp only [if_neg h] at hpass
      obtain ⟨result', _, hrest⟩ := Result.bind_eq_ok hpass
      cases hrest
      exact Nat.add_lt_add_right (Nat.lt_succ_self _) _

theorem difference_hasVariant (ys : List (IpRange A)) :
    HasVariant (differencePass ys) (differenceRest ys) (differenceVariant ys.length) :=
  ⟨differenceRest_unfolds ys, differencePass_decreases⟩

/-- The tests for empty sets decide what the loop would decide. -/
theorem isSubsetOf_eq_loop (a b : IpSet A) :
    a.isSubsetOf b = subsetLoop b.ranges a.ranges 0 := by
  unfold isSubsetOf isEmpty
  cases ha : a.ranges with
  | nil => rfl
  | cons r rs =>
    cases hb : b.ranges with
    | nil =>
      rw [subsetLoop, skipLoop]
      rfl
    | cons q qs => rfl

/-! ## Section 3: Searches -/

section
variable (xs : List (IpRange A)) (window : Option (Window xs.length)) (cmp : IpRange A → Ordering)
  (accept : IpRange A → Bool)

/-- What a membership test returns from a window on. -/
def windowRest (w : Window xs.length) : Result Bool := do
  let base ← halving xs cmp w
  let r ← index xs base
  if cmp r = .eq then return accept r else return false

/-- What a membership test returns from a point on. -/
def searchRest : SearchPoint xs.length → Result Bool
  | .enter => (window.map (windowRest xs cmp accept)).getD (.ok false)
  | .search w => windowRest xs cmp accept w

/-- How often a membership test goes on from a point. -/
def searchVariant {n : ℕ} : SearchPoint n → ℕ
  | .enter => Nat.clog 2 n + 1
  | .search w => Nat.clog 2 w.size

omit [IpAddress A] in
theorem search_hasVariant :
    HasVariant (searchPass xs window cmp accept) (searchRest xs window cmp accept)
      searchVariant := by
  have hunfolds : ∀ p, searchRest xs window cmp accept p =
      searchPass xs window cmp accept p >>= follow (searchRest xs window cmp accept) := by
    intro p
    cases p with
    | enter =>
      cases window with
      | none => rfl
      | some w => rfl
    | search w =>
      show windowRest xs cmp accept w = _
      unfold windowRest searchPass
      rw [(halving_hasVariant xs cmp).unfolds, bind_assoc, bind_assoc]
      congr 1
      funext next
      cases next with
      | again w => rfl
      | leave base =>
        simp only [follow, Result.ok_bind, bind_assoc]
        congr 1
        funext r
        split
        · rfl
        · rfl
  have hdecreases : ∀ {p p' : SearchPoint xs.length},
      searchPass xs window cmp accept p = .ok (.again p') → searchVariant p' < searchVariant p := by
    intro p p' hpass
    cases p with
    | enter =>
      cases window with
      | none => cases hpass
      | some w =>
        cases hpass
        have hsize : w.size ≤ xs.length := (Nat.le_add_left _ _).trans w.le
        exact Nat.lt_succ_of_le (Nat.clog_mono_right 2 hsize)
    | search w =>
      obtain ⟨next, hnext, hrest⟩ := Result.bind_eq_ok hpass
      cases next with
      | again w' =>
        cases hrest
        exact (halving_hasVariant xs cmp).decreases hnext
      | leave base =>
        obtain ⟨r, _, hleave⟩ := Result.bind_eq_ok hrest
        split at hleave
        · cases hleave
        · cases hleave
  exact ⟨hunfolds, hdecreases⟩

/-- What a membership test makes of the result of `binary_search_by`. -/
def answer : Except ℕ ℕ → Result Bool
  | .ok i => do
      let r ← index xs i
      return accept r
  | .error _ => return false

omit [IpAddress A] in
theorem searchRest_enter :
    searchRest xs (wholeWindow xs.length) cmp accept .enter =
      answer xs accept (binarySearchBy xs cmp) := by
  by_cases hlen : 0 < xs.length
  · obtain ⟨base, hbase, hfound, hmissed⟩ := binarySearchBy_halving xs cmp hlen
    have hwindow : wholeWindow xs.length = some ⟨0, xs.length, hlen, (Nat.zero_add _).le⟩ :=
      dif_pos hlen
    rw [hwindow]
    show windowRest xs cmp accept ⟨0, xs.length, hlen, (Nat.zero_add _).le⟩ = _
    unfold windowRest
    rw [hbase, Result.ok_bind, index_eq_ok base.isLt, Result.ok_bind]
    by_cases heq : cmp xs[base.val] = .eq
    · rw [hfound heq, if_pos heq, answer, index_eq_ok base.isLt, Result.ok_bind]
    · obtain ⟨i, hi⟩ := hmissed heq
      rw [hi, if_neg heq]
      rfl
  · obtain rfl : xs = [] := List.length_eq_zero_iff.mp (Nat.eq_zero_of_not_pos hlen)
    rfl

end

theorem containsIp_eq_search (s : IpSet A) (ip : A) :
    searchRest s.ranges (wholeWindow s.ranges.length) (compareIp ip) (fun _ => true) .enter =
      .ok (s.containsIp ip) := by
  rw [searchRest_enter]
  unfold containsIp
  cases hsearch : binarySearchBy s.ranges (compareIp ip) with
  | error i => rfl
  | ok i =>
    obtain ⟨hi, _⟩ := binarySearchBy_sound hsearch
    rw [answer, index_eq_ok hi]
    rfl

theorem containsRange_eq_search (s : IpSet A) (q : IpRange A) :
    searchRest s.ranges (if !q.isValid then none else wholeWindow s.ranges.length)
      (compareRange q) (fun r => decide (q.end_ ≤ r.end_)) .enter = s.containsRange q := by
  unfold containsRange
  cases hvalid : q.isValid with
  | false => rfl
  | true =>
    refine (searchRest_enter ..).trans ?_
    cases binarySearchBy s.ranges (compareRange q) with
    | error i => rfl
    | ok i => rfl

/-! ## Section 4: Costs -/

/-- The walks over `a` and `b`, with the number of their passes. -/
structure LinearWalks (a b : IpSet A) : Prop where
  overlapsIpSet : ∃ n, n ≤ a.len + b.len ∧
    Ends (overlapsPass a.ranges b.ranges) ⟨0, 0⟩ n (a.overlapsIpSet b)
  union : ∃ n x, n ≤ a.len + b.len ∧ Ends (unionPass a.ranges b.ranges) ⟨[], 0, 0⟩ n x ∧
    a.union b = (do
      let m ← x
      let left ← sliceFrom a.ranges m.i
      let right ← sliceFrom b.ranges m.j
      return new (mergeSorted (m.merged ++ left ++ right)))
  intersection : ∃ n x, n ≤ a.len + b.len ∧
    Ends (intersectionPass a.ranges b.ranges) ⟨0, 0, []⟩ n x ∧
    a.intersection b = (do return new (← x))
  isSubsetOf : ∃ n, n ≤ 3 * a.len + b.len ∧
    Ends (subsetPass b.ranges) (.next a.ranges 0) n (a.isSubsetOf b)
  difference : ∃ n x, n ≤ 3 * a.len + b.len ∧
    Ends (differencePass b.ranges) (.next a.ranges 0 []) n x ∧
    a.difference b = (do return new (← x))

end IpSet

open IpSet

/-- **Linear walks.**  Run pass by pass, the loops of the set operations and comparisons end with
    the results of the operations, after at most as many passes as there are ranges in both sets;
    in the two nested loops a range of `self` counts three times. -/
theorem walks_linear (a b : IpSet A) : LinearWalks a b := by
  obtain ⟨_, hoverlaps, hendsOverlaps⟩ := (overlaps_hasVariant a.ranges b.ranges).ends ⟨0, 0⟩
  obtain ⟨_, hunion, hendsUnion⟩ := (union_hasVariant a.ranges b.ranges).ends ⟨[], 0, 0⟩
  obtain ⟨_, hinter, hendsInter⟩ := (intersection_hasVariant a.ranges b.ranges).ends ⟨0, 0, []⟩
  obtain ⟨n, hsubset, hendsSubset⟩ := (subset_hasVariant b.ranges).ends (.next a.ranges 0)
  obtain ⟨_, hdiff, hendsDiff⟩ := (difference_hasVariant b.ranges).ends (.next a.ranges 0 [])
  have hsub : Ends (subsetPass b.ranges) (.next a.ranges 0) n (a.isSubsetOf b) := by
    rw [isSubsetOf_eq_loop]
    exact hendsSubset
  exact
    { overlapsIpSet := ⟨_, hoverlaps, hendsOverlaps⟩
      union := ⟨_, _, hunion, hendsUnion, rfl⟩
      intersection := ⟨_, _, hinter, hendsInter, rfl⟩
      isSubsetOf := ⟨n, hsubset, hsub⟩
      difference := ⟨_, _, hdiff, hendsDiff, rfl⟩ }

/-- **Logarithmic search.**  Run pass by pass, `contains_ip` and `contains_range` end with their
    answers after at most `⌈log₂ len⌉ + 1` calls of the comparator, one in each pass but the
    first.  The first pass of `contains_range` returns `false` for an inverted range, which is
    not searched for. -/
theorem search_logarithmic (s : IpSet A) :
    (∀ ip, ∃ n, n ≤ Nat.clog 2 s.len + 1 ∧
      Ends (containsIpPass s ip) .enter n (.ok (s.containsIp ip))) ∧
    (∀ q : IpRange A, ∃ n, n ≤ Nat.clog 2 s.len + 1 ∧
      Ends (containsRangePass s q) .enter n (s.containsRange q)) ∧
    ∀ q : IpRange A, q.isValid = false →
      Ends (containsRangePass s q) .enter 0 (.ok false) ∧ s.containsRange q = .ok false := by
  have hip : ∀ ip, ∃ n, n ≤ Nat.clog 2 s.len + 1 ∧
      Ends (containsIpPass s ip) .enter n (.ok (s.containsIp ip)) := by
    intro ip
    rw [← containsIp_eq_search]
    exact (search_hasVariant _ _ _ _).ends .enter
  have hrange : ∀ q : IpRange A, ∃ n, n ≤ Nat.clog 2 s.len + 1 ∧
      Ends (containsRangePass s q) .enter n (s.containsRange q) := by
    intro q
    rw [← containsRange_eq_search]
    exact (search_hasVariant _ _ _ _).ends .enter
  have hinverted : ∀ q : IpRange A, q.isValid = false →
      Ends (containsRangePass s q) .enter 0 (.ok false) ∧ s.containsRange q = .ok false := by
    intro q hq
    have hleave : containsRangePass s q .enter = .ok (.leave false) := by
      unfold containsRangePass
      rw [hq]
      rfl
    have hfalse : s.containsRange q = .ok false := by
      unfold containsRange
      rw [hq]
      rfl
    exact ⟨.leave hleave, hfalse⟩
  exact ⟨hip, hrange, hinverted⟩

/-- The comparator calls the only range equal to the inverted one, but is not asked. -/
theorem search_logarithmic_inverted :
    Ends (containsRangePass (IpSet.new [IpRange.new (⟨1⟩ : Ipv4Addr) ⟨10⟩])
      (IpRange.new ⟨5⟩ ⟨3⟩)) .enter 0 (.ok false) :=
  ((search_logarithmic _).2.2 _ (by decide)).1

end Ipnetx
