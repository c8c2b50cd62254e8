import Ipnetx.Model.IpSet

/-! # The Builder

    Model of `IpSetBuilder` from `ipset.rs`, of sequences of calls on it, and
    of the sets a program can get hold of. -/

namespace Ipnetx

open Machine

/-- `IpSetBuilder<A>`. -/
structure IpSetBuilder (A : Type) where
  adds : List (IpRange A)
  removes : List (IpRange A)
  deriving DecidableEq, Repr

namespace IpSetBuilder

variable {A : Type} [IpAddress A]

/-! ## Section 1: The methods -/

/-- `IpSetBuilder::new`. -/
def new : IpSetBuilder A := { adds := [], removes := [] }

/-- `IpSetBuilder::add_range`. -/
def addRange (self : IpSetBuilder A) (range : IpRange A) : IpSetBuilder A :=
  if range.isValid then { self with adds := self.adds ++ [range] } else self

/-- `IpSetBuilder::remove_range`. -/
def removeRange (self : IpSetBuilder A) (range : IpRange A) : IpSetBuilder A :=
  if range.isValid then { self with removes := self.removes ++ [range] } else self

/-- `IpSetBuilder::add_ip`. -/
def addIp (self : IpSetBuilder A) (ip : A) : IpSetBuilder A := self.addRange (IpRange.new ip ip)

/-- `IpSetBuilder::remove_ip`. -/
def removeIp (self : IpSetBuilder A) (ip : A) : IpSetBuilder A :=
  self.removeRange (IpRange.new ip ip)

/-- `IpSetBuilder::add_prefix`. -/
def addPrefix (self : IpSetBuilder A) (p : IpPrefix A) : Result (IpSetBuilder A) := do
  let range ← p.toRange
  return self.addRange range

/-- `IpSetBuilder::remove_prefix`. -/
def removePrefix (self : IpSetBuilder A) (p : IpPrefix A) : Result (IpSetBuilder A) := do
  let range ← p.toRange
  return self.removeRange range

/-- `IpSetBuilder::add_ipset`. -/
def addIpset (self : IpSetBuilder A) (other : IpSet A) : IpSetBuilder A :=
  other.ranges.foldl addRange self

/-- `IpSetBuilder::remove_ipset`. -/
def removeIpset (self : IpSetBuilder A) (other : IpSet A) : IpSetBuilder A :=
  other.ranges.foldl removeRange self

/-- `IpSetBuilder::build`. -/
def build [SortUnstableByKey (IpRange A) A] (self : IpSetBuilder A) : Result (IpSet A) :=
  let adds := IpSet.new (normalize self.adds)
  if self.removes.isEmpty then
    return adds
  else
    let removes := IpSet.new (normalize self.removes)
    adds.difference removes

/-- `FromIterator<IpRange<A>>`. -/
def fromRanges (ranges : List (IpRange A)) : IpSetBuilder A := ranges.foldl addRange new

/-- `FromIterator<IpPrefix<A>>`. -/
def fromPrefixes (prefixes : List (IpPrefix A)) : Result (IpSetBuilder A) :=
  prefixes.foldlM addPrefix new

/-! ## Section 2: Sequences of calls -/

/-- A call on a builder. -/
inductive Call (A : Type) [IpAddress A] where
  | addIp (ip : A)
  | addRange (range : IpRange A)
  | addPrefix (p : IpPrefix A)
  | addIpset (other : IpSet A)
  | removeIp (ip : A)
  | removeRange (range : IpRange A)
  | removePrefix (p : IpPrefix A)
  | removeIpset (other : IpSet A)

/-- The effect of a call. -/
def call (self : IpSetBuilder A) : Call A → Result (IpSetBuilder A)
  | .addIp ip => return self.addIp ip
  | .addRange range => return self.addRange range
  | .addPrefix p => self.addPrefix p
  | .addIpset other => return self.addIpset other
  | .removeIp ip => return self.removeIp ip
  | .removeRange range => return self.removeRange range
  | .removePrefix p => self.removePrefix p
  | .removeIpset other => return self.removeIpset other

/-- Where a builder comes from: `new`, or a collected iterator. -/
inductive Source (A : Type) [IpAddress A] where
  | new
  | fromRanges (ranges : List (IpRange A))
  | fromPrefixes (prefixes : List (IpPrefix A))

/-- The builder a program starts with. -/
def start : Source A → Result (IpSetBuilder A)
  | .new => return new
  | .fromRanges ranges => return fromRanges ranges
  | .fromPrefixes prefixes => fromPrefixes prefixes

/-- Run a sequence of calls and build. -/
def run [SortUnstableByKey (IpRange A) A] (source : Source A) (calls : List (Call A)) :
    Result (IpSet A) := do
  let b ← start source
  let b ← calls.foldlM call b
  b.build

/-- The set passed to a call, if it takes one. -/
def Call.ipset? : Call A → Option (IpSet A)
  | .addIpset other => some other
  | .removeIpset other => some other
  | _ => none

end IpSetBuilder

/-! ## Section 3: Reachable sets -/

/-- The sets a program can get hold of: what `build` returns after any sequence of
    calls (the sets passed to `add_ipset` and `remove_ipset` being reachable
    themselves), and what the set operations return on reachable sets. -/
inductive Reachable {A : Type} [IpAddress A] [SortUnstableByKey (IpRange A) A] :
    IpSet A → Prop where
  | build {source : IpSetBuilder.Source A} {calls : List (IpSetBuilder.Call A)} {s : IpSet A}
      (hsets : ∀ c ∈ calls, ∀ t, c.ipset? = some t → Reachable t)
      (h : IpSetBuilder.run source calls = .ok s) : Reachable s
  | union {a b s : IpSet A} (ha : Reachable a) (hb : Reachable b)
      (h : a.union b = .ok s) : Reachable s
  | difference {a b s : IpSet A} (ha : Reachable a) (hb : Reachable b)
      (h : a.difference b = .ok s) : Reachable s
  | intersection {a b s : IpSet A} (ha : Reachable a) (hb : Reachable b)
      (h : a.intersection b = .ok s) : Reachable s
  | complement {a s : IpSet A} (ha : Reachable a) (h : a.complement = .ok s) : Reachable s

end Ipnetx
