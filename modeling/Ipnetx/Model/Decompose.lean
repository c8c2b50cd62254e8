import Ipnetx.Model.Prefix

/-! # Decomposition into Prefixes

    Model of the two methods of `range.rs` that turn a range into prefixes:
    `IpRange::prefix` (here `asPrefix`; the source's word is reserved) and
    the greedy loop of `IpRange::prefixes`. -/

namespace Ipnetx

open Machine

namespace IpRange

variable {A : Type} [IpAddress A]

/-- `IpRange::prefix`: the single CIDR block equal to this range, if there is one. -/
def asPrefix (self : IpRange A) : Result (Option (IpPrefix A)) :=
  if !self.isValid then
    return none
  else do
    let start := IpAddress.toU128 self.start
    let end_ := IpAddress.toU128 self.end_
    let bits : BitVec 32 := (IpAddress.BITS A).setWidth 32
    let span ← Word.sub end_ start
    let size := Word.wrappingAdd span 1
    -- a size of 0 stands for 2^128
    if size ≠ 0 ∧ !Word.isPowerOfTwo size then
      return none
    else
      let h := if size = 0 then 128 else Word.trailingZeros size
      if Word.trailingZeros start < h then
        return none
      else do
        let bits8 ← Word.narrow 8 bits
        let h8 ← Word.narrow 8 h
        let mask ← Word.sub bits8 h8
        let ip ← IpAddress.fromU128Exact start
        let p ← Result.unwrapOk (IpPrefix.new ip mask)
        return some p

/-- The three-way branch of the loop: the block size as a number of host bits. -/
def hostBits (bits : BitVec 32) (start end_ : BitVec 128) : Result (BitVec 32) := do
  let maxHostBits := Word.umin (Word.trailingZeros start) bits
  let span ← Word.sub end_ start
  -- the size 2^128 of the full space fits in no word
  if span = BitVec.allOnes 128 then
    return maxHostBits
  -- the fast path takes the logarithm of a 64-bit word
  else if span >>> 63 = 0 then do
    let size ← Word.add span 1
    let size ← Word.narrow 64 size
    let log ← Word.ilog2 size
    return Word.umin maxHostBits log
  else do
    let size ← Word.add span 1
    let log ← Word.ilog2 size
    return Word.umin maxHostBits log

/-- `host_mask`: the low `hostBits` bits. -/
def hostMask (hostBits : BitVec 32) : Result (BitVec 128) :=
  if hostBits = 0 then
    return 0
  else do
    let shift ← Word.sub 128 hostBits
    Word.shr (BitVec.allOnes 128) shift

/-- The loop of `IpRange::prefixes`: `while start <= end`, left early when the cursor
    passes the largest word. -/
def prefixesLoop (start end_ : BitVec 128) (result : List (IpPrefix A)) :
    Result (List (IpPrefix A)) :=
  if hle : start ≤ end_ then do
    let bits : BitVec 32 := (IpAddress.BITS A).setWidth 32
    let hostBits ← hostBits bits start end_
    let hostMask ← hostMask hostBits
    let bits8 ← Word.narrow 8 bits
    let hostBits8 ← Word.narrow 8 hostBits
    let mask ← Word.sub bits8 hostBits8
    let ip ← IpAddress.fromU128Exact start
    let p ← Result.unwrapOk (IpPrefix.new ip mask)
    -- past the largest word the whole address space is consumed
    match hnext : (Word.checkedAdd start hostMask).bind (Word.checkedAdd · 1) with
    | some next => prefixesLoop next end_ (result ++ [p])
    | none => return result ++ [p]
  else
    return result
termination_by end_.toNat + 1 - start.toNat
decreasing_by
  obtain ⟨n, hn, hnext⟩ := Option.bind_eq_some_iff.mp hnext
  have h1 := Word.checkedAdd_eq_some.mp hn
  have h2 : _ = n.toNat + 1 := Word.checkedAdd_eq_some.mp hnext
  have h3 := BitVec.le_def.mp hle
  omega

/-- `Visits A end_ start cur`: the loop begun at `start` runs an iteration at the cursor `cur`. -/
inductive Visits (A : Type) [IpAddress A] (end_ : BitVec 128) : BitVec 128 → BitVec 128 → Prop where
  | here {start : BitVec 128} (hle : start ≤ end_) : Visits A end_ start start
  | later {start next cur hostMask_ : BitVec 128} {hostBits_ : BitVec 32} (hle : start ≤ end_)
      (hbits : hostBits ((IpAddress.BITS A).setWidth 32) start end_ = .ok hostBits_)
      (hmask : hostMask hostBits_ = .ok hostMask_)
      (hnext : (Word.checkedAdd start hostMask_).bind (Word.checkedAdd · 1) = some next)
      (hrest : Visits A end_ next cur) : Visits A end_ start cur

/-- `IpRange::prefixes`. -/
def prefixes (self : IpRange A) : Result (List (IpPrefix A)) :=
  if !self.isValid then
    return []
  else
    prefixesLoop (IpAddress.toU128 self.start) (IpAddress.toU128 self.end_) []

end IpRange

end Ipnetx
