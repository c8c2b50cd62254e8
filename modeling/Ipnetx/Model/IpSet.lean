import Ipnetx.Machine.Slice
import Ipnetx.Model.Decompose

/-! # IP Sets

    Model of `tools/range.rs` and of `IpSet` from `ipset.rs`.  The walks keep
    the source's indices `i` and `j` and read slices through `index`, so an
    index out of bounds would show as a fault. -/

namespace Ipnetx

open Machine

variable {A : Type} [IpAddress A]

/-! ## Section 1: Normalization (`tools/range.rs`) -/

/-- One iteration of the loop of `merge_sorted`. -/
def mergeStep (merged : List (IpRange A)) (range : IpRange A) : List (IpRange A) :=
  match merged.getLast? with
  | some last =>
      -- overlapping or adjacent: extend the last range, unless it ends later anyway
      if IpAddress.toU128 range.start ≤ Word.saturatingAdd (IpAddress.toU128 last.end_) 1 then
        if IpAddress.toU128 range.end_ > IpAddress.toU128 last.end_ then
          merged.dropLast ++ [IpRange.new last.start range.end_]
        else merged
      else merged ++ [range]
  | none => merged ++ [range]

/-- `merge_sorted`. -/
def mergeSorted (ranges : List (IpRange A)) : List (IpRange A) :=
  ranges.foldl mergeStep []

/-- `normalize`. -/
def normalize [SortUnstableByKey (IpRange A) A] (ranges : List (IpRange A)) : List (IpRange A) :=
  mergeSorted (SortUnstableByKey.sort ranges IpRange.start)

/-! ## Section 2: The set and its queries -/

/-- `IpSet<A>`, with the derived equality on its ranges. -/
structure IpSet (A : Type) where
  ranges : List (IpRange A)
  deriving DecidableEq, Repr

namespace IpSet

/-- `IpSet::new`. -/
def new (ranges : List (IpRange A)) : IpSet A := { ranges }

/-- `IpSet::len`. -/
def len (self : IpSet A) : ℕ := self.ranges.length

/-- `IpSet::is_empty`. -/
def isEmpty (self : IpSet A) : Bool := self.ranges.isEmpty

/-- `IpSet::prefixes`. -/
def prefixes (self : IpSet A) : Result (List (IpPrefix A)) :=
  self.ranges.foldlM (fun prefixes range => do
    let more ← range.prefixes
    return prefixes ++ more) []

/-- The comparator of `contains_ip`. -/
def compareIp (ip : A) (range : IpRange A) : Ordering :=
  if ip < range.start then .gt
  else if ip > range.end_ then .lt
  else .eq

/-- `IpSet::contains_ip`. -/
def containsIp (self : IpSet A) (ip : A) : Bool :=
  match binarySearchBy self.ranges (compareIp ip) with
  | .ok _ => true
  | .error _ => false

/-- The comparator of `contains_range`. -/
def compareRange (range r : IpRange A) : Ordering :=
  if range.start < r.start then .gt
  else if range.end_ > r.end_ then .lt
  else .eq

/-- `IpSet::contains_range`. -/
def containsRange (self : IpSet A) (range : IpRange A) : Result Bool :=
  if !range.isValid then
    return false
  else
    match binarySearchBy self.ranges (compareRange range) with
    | .ok i => do
        let r ← index self.ranges i
        return decide (range.end_ ≤ r.end_)
    | .error _ => return false

/-- The walk of `overlaps_ip_set`. -/
def overlapsLoop (xs ys : List (IpRange A)) (i j : ℕ) : Result Bool :=
  if _h : i < xs.length ∧ j < ys.length then do
    let a ← index xs i
    let b ← index ys j
    -- on a tie the range of `other` is passed
    if a.overlaps b then
      return true
    else if IpAddress.toU128 a.end_ < IpAddress.toU128 b.end_ then
      overlapsLoop xs ys (i + 1) j
    else
      overlapsLoop xs ys i (j + 1)
  else
    return false
termination_by (xs.length - i) + (ys.length - j)

/-- `IpSet::overlaps_ip_set`. -/
def overlapsIpSet (self other : IpSet A) : Result Bool :=
  overlapsLoop self.ranges other.ranges 0 0

/-- `IpSet::count`. -/
def count (self : IpSet A) : Result (BitVec 128) :=
  self.ranges.foldlM (fun acc r => do
    let span ← Word.sub (IpAddress.toU128 r.end_) (IpAddress.toU128 r.start)
    return Word.saturatingAdd acc (Word.saturatingAdd span 1)) 0

/-- The `try_fold` of `count_checked`; `none` is its early exit. -/
def countLoop : List (IpRange A) → BitVec 128 → Result (Option (BitVec 128))
  | [], acc => return some acc
  | r :: rest, acc => do
      let span ← Word.sub (IpAddress.toU128 r.end_) (IpAddress.toU128 r.start)
      match Word.checkedAdd span 1 with
      | none => return none
      | some rangeCount =>
          match Word.checkedAdd acc rangeCount with
          | none => return none
          | some acc => countLoop rest acc

/-- `IpSet::count_checked`. -/
def countChecked (self : IpSet A) : Result (Option (BitVec 128)) :=
  countLoop self.ranges 0

/-- `while j < ys.len() && ys[j].end().to_u128() < cur { j += 1 }`. -/
def skipLoop (ys : List (IpRange A)) (cur : BitVec 128) (j : ℕ) : Result ℕ :=
  if _h : j < ys.length then do
    let b ← index ys j
    if IpAddress.toU128 b.end_ < cur then skipLoop ys cur (j + 1) else return j
  else
    return j
termination_by ys.length - j

/-- The loop of `is_subset_of` over the ranges of `self`. -/
def subsetLoop (ys : List (IpRange A)) : List (IpRange A) → ℕ → Result Bool
  | [], _ => return true
  | a :: rest, j => do
      let aStart := IpAddress.toU128 a.start
      let aEnd := IpAddress.toU128 a.end_
      let j ← skipLoop ys aStart j
      -- no candidate, or it starts after `a` or ends before it
      if j ≥ ys.length then
        return false
      else do
        let b ← index ys j
        if IpAddress.toU128 b.start > aStart ∨ IpAddress.toU128 b.end_ < aEnd then
          return false
        else
          subsetLoop ys rest j

/-- `IpSet::is_subset_of`. -/
def isSubsetOf (self other : IpSet A) : Result Bool :=
  if self.isEmpty then return true
  else if other.isEmpty then return false
  else subsetLoop other.ranges self.ranges 0

/-- `IpSet::is_superset_of`. -/
def isSupersetOf (self other : IpSet A) : Result Bool := other.isSubsetOf self

/-! ## Section 3: Set operations -/

/-- State of the merge in `union`. -/
structure Merge (A : Type) where
  merged : List (IpRange A)
  i : ℕ
  j : ℕ

/-- The two-pointer merge of `union`. -/
def unionLoop (xs ys : List (IpRange A)) (i j : ℕ) (merged : List (IpRange A)) :
    Result (Merge A) :=
  if _h : i < xs.length ∧ j < ys.length then do
    let x ← index xs i
    let y ← index ys j
    if x.start ≤ y.start then
      unionLoop xs ys (i + 1) j (merged ++ [x])
    else
      unionLoop xs ys i (j + 1) (merged ++ [y])
  else
    return { merged, i, j }
termination_by (xs.length - i) + (ys.length - j)

/-- `IpSet::union`. -/
def union (self other : IpSet A) : Result (IpSet A) := do
  let m ← unionLoop self.ranges other.ranges 0 0 []
  let left ← sliceFrom self.ranges m.i
  let right ← sliceFrom other.ranges m.j
  return new (mergeSorted (m.merged ++ left ++ right))

/-- `result.push(IpRange::new(A::from_u128(lo), A::from_u128(hi)))`. -/
def pushRange (lo hi : BitVec 128) (result : List (IpRange A)) : Result (List (IpRange A)) := do
  let start ← IpAddress.fromU128Exact lo
  let end_ ← IpAddress.fromU128Exact hi
  return result ++ [IpRange.new start end_]

/-- State of the inner loop of `difference`. -/
structure Carve (A : Type) where
  j : ℕ
  cur : BitVec 128
  consumed : Bool
  result : List (IpRange A)

/-- `difference`: emit the gap between `cur` and the start of a removal. -/
def pushGap (cur bStart : BitVec 128) (result : List (IpRange A)) :
    Result (List (IpRange A)) :=
  if bStart > cur then do
    let hi ← Word.sub bStart 1
    pushRange cur hi result
  else
    return result

/-- The inner loop of `difference`: cut the removals from position `j` on out of
    `[cur, aEnd]`. -/
def carveLoop (ys : List (IpRange A)) (aEnd : BitVec 128) (j : ℕ) (cur : BitVec 128)
    (result : List (IpRange A)) : Result (Carve A) :=
  if _h : j < ys.length then do
    let b ← index ys j
    let bStart := IpAddress.toU128 b.start
    let bEnd := IpAddress.toU128 b.end_
    -- this and all later removals are past the current range
    if bStart > aEnd then
      return { j, cur, consumed := false, result }
    else do
      let result ← pushGap cur bStart result
      -- the removal reaches the end: `j` stays, it may overlap the next range as well
      if bEnd ≥ aEnd then
        return { j, cur, consumed := true, result }
      else do
        let cur ← Word.add bEnd 1
        carveLoop ys aEnd (j + 1) cur result
  else
    return { j, cur, consumed := false, result }
termination_by ys.length - j

/-- `difference`: emit what is left of a range that no removal reached past. -/
def pushTail (c : Carve A) (aEnd : BitVec 128) : Result (List (IpRange A)) :=
  if !c.consumed then pushRange c.cur aEnd c.result else return c.result

/-- The outer loop of `difference`; `j` never resets. -/
def differenceLoop (ys : List (IpRange A)) :
    List (IpRange A) → ℕ → List (IpRange A) → Result (List (IpRange A))
  | [], _, result => return result
  | a :: rest, j, result => do
      let cur := IpAddress.toU128 a.start
      let aEnd := IpAddress.toU128 a.end_
      let j ← skipLoop ys cur j
      let c ← carveLoop ys aEnd j cur result
      let result ← pushTail c aEnd
      differenceLoop ys rest c.j result

/-- `IpSet::difference`. -/
def difference (self other : IpSet A) : Result (IpSet A) := do
  let result ← differenceLoop other.ranges self.ranges 0 []
  return new result

/-- `intersection`: emit the overlap of the two current ranges. -/
def pushOverlap (a b : IpRange A) (result : List (IpRange A)) : Result (List (IpRange A)) :=
  if a.overlaps b then
    pushRange (Word.umax (IpAddress.toU128 a.start) (IpAddress.toU128 b.start))
      (Word.umin (IpAddress.toU128 a.end_) (IpAddress.toU128 b.end_)) result
  else
    return result

/-- The walk of `intersection`. -/
def intersectionLoop (xs ys : List (IpRange A)) (i j : ℕ) (result : List (IpRange A)) :
    Result (List (IpRange A)) :=
  if _h : i < xs.length ∧ j < ys.length then do
    let a ← index xs i
    let b ← index ys j
    let aEnd := IpAddress.toU128 a.end_
    let bEnd := IpAddress.toU128 b.end_
    let result ← pushOverlap a b result
    -- the range that ends first is done, on a tie both are
    if aEnd < bEnd then
      intersectionLoop xs ys (i + 1) j result
    else if bEnd < aEnd then
      intersectionLoop xs ys i (j + 1) result
    else
      intersectionLoop xs ys (i + 1) (j + 1) result
  else
    return result
termination_by (xs.length - i) + (ys.length - j)

/-- `IpSet::intersection`. -/
def intersection (self other : IpSet A) : Result (IpSet A) := do
  let result ← intersectionLoop self.ranges other.ranges 0 0 []
  return new result

/-- `complement`: the head gap `[0 .. first.start - 1]`. -/
def headGap (first : IpRange A) : Result (List (IpRange A)) :=
  let firstStart := IpAddress.toU128 first.start
  if firstStart > 0 then do
    let hi ← Word.sub firstStart 1
    pushRange 0 hi []
  else
    return []

/-- `complement`: the gap between two consecutive ranges, `window[0]` and `window[1]`. -/
def interiorGap (result : List (IpRange A)) (window : IpRange A × IpRange A) :
    Result (List (IpRange A)) := do
  let prevEnd := IpAddress.toU128 window.1.end_
  let nextStart := IpAddress.toU128 window.2.start
  let lo ← Word.add prevEnd 1
  let hi ← Word.sub nextStart 1
  pushRange lo hi result

/-- `complement`: the tail gap `[last.end + 1 .. MAX]`. -/
def tailGap (last : IpRange A) (maxAddr : BitVec 128) (result : List (IpRange A)) :
    Result (List (IpRange A)) :=
  let lastEnd := IpAddress.toU128 last.end_
  if lastEnd < maxAddr then do
    let lo ← Word.add lastEnd 1
    pushRange lo maxAddr result
  else
    return result

/-- `IpSet::complement`. -/
def complement (self : IpSet A) : Result (IpSet A) := do
  let maxAddr ← Word.shr (BitVec.allOnes 128)
    (Word.saturatingSub 128 ((IpAddress.BITS A).setWidth 32))
  if self.isEmpty then do
    let result ← pushRange 0 maxAddr []
    return new result
  else do
    let first ← index self.ranges 0
    let result ← headGap first
    let result ← (self.ranges.zip self.ranges.tail).foldlM interiorGap result
    let last ← Result.unwrap self.ranges.getLast?
    let result ← tailGap last maxAddr result
    return new result

end IpSet

end Ipnetx
