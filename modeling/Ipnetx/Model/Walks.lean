import Ipnetx.Machine.Loop
import Ipnetx.Model.IpSet

/-! # The Walks, Pass by Pass

    The loops of `IpSet` with two indices, as the passes of the source: what
    one evaluation of a loop condition and its body does to the indices and
    the result.  The functions of `Ipnetx.Model.IpSet` compute these loops;
    here a pass can be counted.

    `difference` and `is_subset_of` have `while` loops inside a `for` loop;
    their passes are those of all these loops, and the state says which loop
    the program is in.  `contains_ip` and `contains_range` are a test followed
    by a binary search, whose passes call the comparator once each. -/

namespace Ipnetx

open Machine

variable {A : Type} [IpAddress A]

namespace IpSet

/-! ## Section 1: Single loops -/

/-- The indices of a walk. -/
structure Cursor where
  i : ℕ
  j : ℕ

/-- A pass of `overlaps_ip_set`. -/
def overlapsPass (xs ys : List (IpRange A)) (c : Cursor) : Result (Next Cursor Bool) :=
  if c.i < xs.length ∧ c.j < ys.length then do
    let a ← index xs c.i
    let b ← index ys c.j
    if a.overlaps b then
      return .leave true
    else if IpAddress.toU128 a.end_ < IpAddress.toU128 b.end_ then
      return .again ⟨c.i + 1, c.j⟩
    else
      return .again ⟨c.i, c.j + 1⟩
  else
    return .leave false

/-- A pass of the merge in `union`. -/
def unionPass (xs ys : List (IpRange A)) (m : Merge A) : Result (Next (Merge A) (Merge A)) :=
  if m.i < xs.length ∧ m.j < ys.length then do
    let x ← index xs m.i
    let y ← index ys m.j
    if x.start ≤ y.start then
      return .again ⟨m.merged ++ [x], m.i + 1, m.j⟩
    else
      return .again ⟨m.merged ++ [y], m.i, m.j + 1⟩
  else
    return .leave m

/-- The state of `intersection`. -/
structure Meet (A : Type) where
  i : ℕ
  j : ℕ
  result : List (IpRange A)

/-- A pass of `intersection`. -/
def intersectionPass (xs ys : List (IpRange A)) (m : Meet A) :
    Result (Next (Meet A) (List (IpRange A))) :=
  if m.i < xs.length ∧ m.j < ys.length then do
    let a ← index xs m.i
    let b ← index ys m.j
    let aEnd := IpAddress.toU128 a.end_
    let bEnd := IpAddress.toU128 b.end_
    let result ← pushOverlap a b m.result
    if aEnd < bEnd then
      return .again ⟨m.i + 1, m.j, result⟩
    else if bEnd < aEnd then
      return .again ⟨m.i, m.j + 1, result⟩
    else
      return .again ⟨m.i + 1, m.j + 1, result⟩
  else
    return .leave m.result

/-! ## Section 2: Loops inside a loop -/

/-- The loop `is_subset_of` is in: `for`, `while`, or after the `while`. -/
inductive SubsetPoint (A : Type) where
  | next (rest : List (IpRange A)) (j : ℕ)
  | skip (a : IpRange A) (rest : List (IpRange A)) (j : ℕ)
  | check (a : IpRange A) (rest : List (IpRange A)) (j : ℕ)

/-- A pass of `is_subset_of`. -/
def subsetPass (ys : List (IpRange A)) : SubsetPoint A → Result (Next (SubsetPoint A) Bool)
  | .next [] _ => return .leave true
  | .next (a :: rest) j => return .again (.skip a rest j)
  | .skip a rest j =>
      if j < ys.length then do
        let b ← index ys j
        if IpAddress.toU128 b.end_ < IpAddress.toU128 a.start then
          return .again (.skip a rest (j + 1))
        else
          return .again (.check a rest j)
      else
        return .again (.check a rest j)
  | .check a rest j =>
      if j ≥ ys.length then
        return .leave false
      else do
        let b ← index ys j
        if IpAddress.toU128 b.start > IpAddress.toU128 a.start ∨
            IpAddress.toU128 b.end_ < IpAddress.toU128 a.end_ then
          return .leave false
        else
          return .again (.next rest j)

/-- The loop `difference` is in: `for`, the first `while`, or the second. -/
inductive DifferencePoint (A : Type) where
  | next (rest : List (IpRange A)) (j : ℕ) (result : List (IpRange A))
  | skip (aEnd cur : BitVec 128) (rest : List (IpRange A)) (j : ℕ) (result : List (IpRange A))
  | carve (aEnd cur : BitVec 128) (rest : List (IpRange A)) (j : ℕ) (result : List (IpRange A))

/-- A pass of `difference`. -/
def differencePass (ys : List (IpRange A)) :
    DifferencePoint A → Result (Next (DifferencePoint A) (List (IpRange A)))
  | .next [] _ result => return .leave result
  | .next (a :: rest) j result =>
      return .again (.skip (IpAddress.toU128 a.end_) (IpAddress.toU128 a.start) rest j result)
  | .skip aEnd cur rest j result =>
      if j < ys.length then do
        let b ← index ys j
        if IpAddress.toU128 b.end_ < cur then
          return .again (.skip aEnd cur rest (j + 1) result)
        else
          return .again (.carve aEnd cur rest j result)
      else
        return .again (.carve aEnd cur rest j result)
  | .carve aEnd cur rest j result =>
      if j < ys.length then do
        let b ← index ys j
        let bStart := IpAddress.toU128 b.start
        let bEnd := IpAddress.toU128 b.end_
        if bStart > aEnd then do
          let result ← pushRange cur aEnd result
          return .again (.next rest j result)
        else do
          let result ← pushGap cur bStart result
          if bEnd ≥ aEnd then
            return .again (.next rest j result)
          else do
            let cur ← Word.add bEnd 1
            return .again (.carve aEnd cur rest (j + 1) result)
      else do
        let result ← pushRange cur aEnd result
        return .again (.next rest j result)

/-! ## Section 3: Searches -/

/-- A membership test is before its search, or in it. -/
inductive SearchPoint (n : ℕ) where
  | enter
  | search (w : Window n)

/-- Where a search begins, if there is something to search. -/
def wholeWindow (n : ℕ) : Option (Window n) :=
  if h : 0 < n then some ⟨0, n, h, (Nat.zero_add n).le⟩ else none

/-- A pass of a membership test that searches the window, if any.  A pass of the search calls the
    comparator once: to halve the window, or on the range that is left. -/
def searchPass (xs : List (IpRange A)) (window : Option (Window xs.length))
    (cmp : IpRange A → Ordering) (accept : IpRange A → Bool) :
    SearchPoint xs.length → Result (Next (SearchPoint xs.length) Bool)
  | .enter =>
      match window with
      | some w => return .again (.search w)
      | none => return .leave false
  | .search w => do
      match ← halvingPass xs cmp w with
      | .again w => return .again (.search w)
      | .leave base => do
          let r ← index xs base
          if cmp r = .eq then
            return .leave (accept r)
          else
            return .leave false

/-- A pass of `contains_ip`. -/
def containsIpPass (self : IpSet A) (ip : A) :
    SearchPoint self.ranges.length → Result (Next (SearchPoint self.ranges.length) Bool) :=
  searchPass self.ranges (wholeWindow self.ranges.length) (compareIp ip) fun _ => true

/-- A pass of `contains_range`: an inverted range is not searched for. -/
def containsRangePass (self : IpSet A) (range : IpRange A) :
    SearchPoint self.ranges.length → Result (Next (SearchPoint self.ranges.length) Bool) :=
  searchPass self.ranges (if !range.isValid then none else wholeWindow self.ranges.length)
    (compareRange range) fun r => decide (range.end_ ≤ r.end_)

end IpSet

end Ipnetx
