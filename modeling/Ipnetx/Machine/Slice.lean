import Mathlib.Data.List.Sort
import Ipnetx.Machine.Word

/-! # Slices

    Slices are lists.  Reading position `i` is a `Result`, so that an index
    out of bounds is a fault like any other.

    * `index`, `sliceFrom`: `xs[i]` and `&xs[i..]`.  A loop that walks an
      index along a slice is reasoned about by `walk_induction`, one that walks
      two slices by `walk_induction₂`.
    * `binarySearchBy`: the halving loop of the standard library, with the
      search specification proved from the order of the comparator's results.
    * `SortUnstableByKey`: what an unstable sort promises, as a structure
      that any such sort can fill. -/

namespace Machine

variable {α β : Type}

/-! ## Section 1: Indexing -/

/-- `xs[i]`. -/
def index (xs : List α) (i : Nat) : Result α :=
  match xs[i]? with
  | some x => .ok x
  | none => .error .index

/-- `&xs[i..]`. -/
def sliceFrom (xs : List α) (i : Nat) : Result (List α) :=
  if i ≤ xs.length then .ok (xs.drop i) else .error .index

theorem index_eq_ok {xs : List α} {i : Nat} (h : i < xs.length) : index xs i = .ok xs[i] := by
  simp [index, h]

theorem sliceFrom_eq_ok {xs : List α} {i : Nat} (h : i ≤ xs.length) :
    sliceFrom xs i = .ok (xs.drop i) := by
  simp [sliceFrom, h]

/-- Induction for a loop that walks one index to the end of a slice. -/
theorem walk_induction (xs : List α) {motive : Nat → Prop}
    (done : ∀ i, ¬ i < xs.length → motive i)
    (step : ∀ i, i < xs.length → motive (i + 1) → motive i) (i : Nat) : motive i := by
  induction h : xs.length - i generalizing i with
  | zero => exact done i (by omega)
  | succ n ih => exact step i (by omega) (ih (i + 1) (by omega))

/-- Induction for a two-pointer loop: each step advances one index or both. -/
theorem walk_induction₂ (xs : List α) (ys : List β) {motive : Nat → Nat → Prop}
    (done : ∀ i j, ¬ (i < xs.length ∧ j < ys.length) → motive i j)
    (step : ∀ i j, i < xs.length → j < ys.length →
      motive (i + 1) j → motive i (j + 1) → motive (i + 1) (j + 1) → motive i j)
    (i j : Nat) : motive i j := by
  induction h : (xs.length - i) + (ys.length - j) using Nat.strong_induction_on
      generalizing i j with
  | _ n ih =>
    by_cases hin : i < xs.length ∧ j < ys.length
    · obtain ⟨hi, hj⟩ := hin
      exact step i j hi hj (ih _ (by omega) _ _ rfl) (ih _ (by omega) _ _ rfl)
        (ih _ (by omega) _ _ rfl)
    · exact done i j hin

/-- When a two-pointer loop is over, one of the slices is exhausted. -/
theorem drop_eq_nil_of_done {xs : List α} {ys : List β} {i j : Nat}
    (h : ¬ (i < xs.length ∧ j < ys.length)) : xs.drop i = [] ∨ ys.drop j = [] := by
  rw [List.drop_eq_nil_iff, List.drop_eq_nil_iff]
  omega

/-! ## Section 2: Binary search -/

/-- The halving loop.  The window `[base, base + size)` stays inside the slice,
    which is what makes the unchecked reads of the standard library sound. -/
def binarySearchLoop (xs : List α) (cmp : α → Ordering) (base size : Nat)
    (hpos : 0 < size) (hin : base + size ≤ xs.length) : Fin xs.length :=
  if h : 1 < size then
    let half := size / 2
    let mid := base + half
    have hmid : mid < xs.length := by omega
    if cmp xs[mid] = .gt then
      binarySearchLoop xs cmp base (size - half) (by omega) (by omega)
    else
      binarySearchLoop xs cmp mid (size - half) (by omega) (by omega)
  else
    ⟨base, by omega⟩
termination_by size

/-- `xs.binary_search_by(cmp)`: `Ok` of an index whose element compares equal, or
    `Err` of the index where such an element could be inserted. -/
def binarySearchBy (xs : List α) (cmp : α → Ordering) : Except Nat Nat :=
  if h : xs.length = 0 then
    .error 0
  else
    let base := binarySearchLoop xs cmp 0 xs.length (by omega) (by omega)
    match cmp xs[base] with
    | .eq => .ok base
    | .lt => .error (base + 1)
    | .gt => .error base

/-- The comparator's results along the slice are ordered `Less`, `Equal`, `Greater`. -/
def Partitioned (cmp : α → Ordering) (xs : List α) : Prop :=
  xs.Pairwise fun x y => (cmp x = .gt → cmp y = .gt) ∧ (cmp y = .lt → cmp x = .lt)

theorem Partitioned.gt_of_le {cmp : α → Ordering} {xs : List α} (hp : Partitioned cmp xs)
    {i k : Nat} (hi : i < xs.length) (hk : k < xs.length) (hik : i ≤ k)
    (hgt : cmp xs[i] = .gt) : cmp xs[k] = .gt := by
  rcases Nat.eq_or_lt_of_le hik with rfl | hlt
  · exact hgt
  · exact (List.pairwise_iff_getElem.mp hp i k hi hk hlt).1 hgt

theorem Partitioned.lt_of_le {cmp : α → Ordering} {xs : List α} (hp : Partitioned cmp xs)
    {i k : Nat} (hi : i < xs.length) (hk : k < xs.length) (hik : i ≤ k)
    (hlt : cmp xs[k] = .lt) : cmp xs[i] = .lt := by
  rcases Nat.eq_or_lt_of_le hik with rfl | h
  · exact hlt
  · exact (List.pairwise_iff_getElem.mp hp i k hi hk h).2 hlt

/-- Along the slice the results are first `Less`, then `Equal`, then `Greater`. -/
theorem Partitioned.split {cmp : α → Ordering} {xs : List α} (hp : Partitioned cmp xs) :
    ∃ ls es gs, xs = ls ++ es ++ gs ∧ (∀ x ∈ ls, cmp x = .lt) ∧ (∀ x ∈ es, cmp x = .eq) ∧
      ∀ x ∈ gs, cmp x = .gt := by
  induction xs with
  | nil => exact ⟨[], [], [], rfl, by simp, by simp, by simp⟩
  | cons x xs ih =>
    obtain ⟨hhead, htail⟩ := List.pairwise_cons.mp hp
    obtain ⟨ls, es, gs, hsplit, hls, hes, hgs⟩ := ih htail
    subst hsplit
    -- unless `x` is less, nothing after it is
    have hnil : cmp x ≠ .lt → ls = [] := by
      intro hne
      apply List.eq_nil_iff_forall_not_mem.mpr
      intro y hy
      exact hne ((hhead y (by simp [hy])).2 (hls y hy))
    cases hx : cmp x with
    | lt => exact ⟨x :: ls, es, gs, rfl, by simpa using ⟨hx, hls⟩, hes, hgs⟩
    | eq =>
      have hls_nil : ls = [] := hnil (by simp [hx])
      subst hls_nil
      exact ⟨[], x :: es, gs, rfl, by simp, by simpa using ⟨hx, hes⟩, hgs⟩
    | gt =>
      have hls_nil : ls = [] := hnil (by simp [hx])
      subst hls_nil
      have hall : ∀ y ∈ es ++ gs, cmp y = .gt := fun y hy => (hhead y (by simpa using hy)).1 hx
      exact ⟨[], [], x :: (es ++ gs), rfl, by simp, by simp,
        by simpa using ⟨hx, by simpa using hall⟩⟩

/-- If some element of the window compares equal, the loop ends at one that does. -/
theorem binarySearchLoop_eq {cmp : α → Ordering} {xs : List α} (hp : Partitioned cmp xs)
    (base size : Nat) (hpos : 0 < size) (hin : base + size ≤ xs.length)
    {k : Nat} (hk : k < xs.length) (hlo : base ≤ k) (hhi : k < base + size)
    (heq : cmp xs[k] = .eq) :
    cmp xs[binarySearchLoop xs cmp base size hpos hin] = .eq := by
  induction size using Nat.strong_induction_on generalizing base k with
  | _ size ih =>
    unfold binarySearchLoop
    split
    · next hsize =>
      have hmid : base + size / 2 < xs.length := by omega
      dsimp only
      split
      · next hgt =>
        -- everything from `mid` on is greater, so `k` is left of `mid`
        have hkm : k < base + size / 2 := by
          by_contra hge
          have := hp.gt_of_le hmid hk (by omega) hgt
          rw [heq] at this
          cases this
        exact ih _ (by omega) base _ _ hk hlo (by omega) heq
      · next hgt =>
        by_cases hcmp : cmp xs[base + size / 2] = .eq
        · exact ih _ (by omega) _ _ _ hmid le_rfl (by omega) hcmp
        · -- everything up to `mid` is less, so `k` is right of `mid`
          have hlt : cmp xs[base + size / 2] = .lt := by
            generalize cmp xs[base + size / 2] = o at hgt hcmp
            cases o <;> simp_all
          have hkm : base + size / 2 ≤ k := by
            by_contra hle
            have := hp.lt_of_le hk hmid (by omega) hlt
            rw [heq] at this
            cases this
          exact ih _ (by omega) _ _ _ hk hkm (by omega) heq
    · next hsize =>
      have hbk : base = k := by omega
      subst hbk
      exact heq

/-- An index returned by the search compares equal; this needs no order. -/
theorem binarySearchBy_sound {cmp : α → Ordering} {xs : List α} {i : Nat}
    (h : binarySearchBy xs cmp = .ok i) : ∃ hi : i < xs.length, cmp xs[i] = .eq := by
  unfold binarySearchBy at h
  split at h
  · cases h
  · next hlen =>
    dsimp only at h
    split at h
    · next hcmp =>
      cases h
      exact ⟨Fin.isLt _, hcmp⟩
    · cases h
    · cases h

/-- The search succeeds exactly when some element compares equal. -/
theorem binarySearchBy_isOk_iff {cmp : α → Ordering} {xs : List α} (hp : Partitioned cmp xs) :
    (∃ i, binarySearchBy xs cmp = .ok i) ↔ ∃ x ∈ xs, cmp x = .eq := by
  constructor
  · intro hin
    obtain ⟨i, h⟩ := hin
    obtain ⟨hi, hcmp⟩ := binarySearchBy_sound h
    exact ⟨xs[i], List.getElem_mem hi, hcmp⟩
  · intro hin
    obtain ⟨x, hx, hcmp⟩ := hin
    obtain ⟨k, hk, rfl⟩ := List.mem_iff_getElem.mp hx
    have hne : ¬ xs.length = 0 := by omega
    have hfound := binarySearchLoop_eq hp 0 xs.length (by omega) (by omega) hk
      (Nat.zero_le k) (by omega) hcmp
    unfold binarySearchBy
    rw [dif_neg hne]
    dsimp only
    rw [hfound]
    exact ⟨_, rfl⟩

/-! ## Section 3: Unstable sort -/

/-- A sort by key: the result is a permutation in ascending order of keys.  Nothing
    is promised about the order of elements with equal keys. -/
class SortUnstableByKey (α κ : Type) [LinearOrder κ] where
  /-- `xs.sort_unstable_by_key(key)`. -/
  sort : List α → (α → κ) → List α
  perm : ∀ xs key, (sort xs key).Perm xs
  sorted : ∀ xs key, (sort xs key).Pairwise fun x y => key x ≤ key y

/-- Insertion sort is one such sort. -/
@[reducible] def SortUnstableByKey.ofInsertionSort (α κ : Type) [LinearOrder κ] :
    SortUnstableByKey α κ where
  sort xs key := xs.insertionSort fun x y => key x ≤ key y
  perm xs key := List.perm_insertionSort _ xs
  sorted xs key := by
    have htotal : Std.Total fun x y : α => key x ≤ key y := ⟨fun x y => le_total (key x) (key y)⟩
    have htrans : IsTrans α fun x y => key x ≤ key y := ⟨fun _ _ _ hxy hyz => hxy.trans hyz⟩
    exact List.pairwise_insertionSort _ xs

end Machine
