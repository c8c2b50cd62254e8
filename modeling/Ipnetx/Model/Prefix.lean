import Ipnetx.Model.Range

/-! # Prefixes

    Model of `IpPrefix` from `prefix.rs`.  The only way to make a prefix is
    `IpPrefix::new`, which checks the mask (`masked` keeps it), so the bound
    on the mask is a field of the structure. -/

namespace Ipnetx

open Machine

/-- `IpPrefix<A>`: an address, host bits allowed, and a prefix length. -/
structure IpPrefix (A : Type) [IpAddress A] where
  ip : A
  mask : BitVec 8
  mask_le : mask ≤ IpAddress.BITS A
  deriving DecidableEq, Repr

/-- `InvalidPrefixLen`. -/
structure InvalidPrefixLen where
  deriving DecidableEq, Repr

namespace IpPrefix

variable {A : Type} [IpAddress A]

/-- `IpPrefix::new`. -/
def new (ip : A) (mask : BitVec 8) : Except InvalidPrefixLen (IpPrefix A) :=
  if h : mask > IpAddress.BITS A then .error {}
  else .ok { ip, mask, mask_le := BitVec.not_lt.mp h }

/-- `u128::MAX >> (128 - A::BITS as u32)`. -/
def addrMax (A : Type) [IpAddress A] : Result (BitVec 128) := do
  let width ← Word.sub 128 ((IpAddress.BITS A).setWidth 32)
  Word.shr (BitVec.allOnes 128) width

/-- `IpPrefix::network_mask`. -/
def networkMask (self : IpPrefix A) : Result (BitVec 128) := do
  let addrMax ← addrMax A
  let shift ← Word.sub (IpAddress.BITS A) self.mask
  let shifted := (Word.checkedShl (BitVec.allOnes 128) (shift.setWidth 32)).getD 0
  return addrMax &&& shifted

/-- `IpPrefix::contains`. -/
def contains (self : IpPrefix A) (ip : A) : Result Bool := do
  let network ← self.networkMask
  return decide (IpAddress.toU128 self.ip &&& network = IpAddress.toU128 ip &&& network)

/-- `IpPrefix::to_range`. -/
def toRange (self : IpPrefix A) : Result (IpRange A) := do
  let ip := IpAddress.toU128 self.ip
  let addrMax ← addrMax A
  let network ← self.networkMask
  let host := addrMax &&& ~~~network
  let start ← IpAddress.fromU128Exact (ip &&& network)
  let end_ ← IpAddress.fromU128Exact (ip ||| host)
  return IpRange.new start end_

/-- `IpPrefix::masked`. -/
def masked (self : IpPrefix A) : Result (IpPrefix A) := do
  let network ← self.networkMask
  let ip ← IpAddress.fromU128Exact (IpAddress.toU128 self.ip &&& network)
  return { self with ip }

/-- `IpPrefix::is_single_ip`. -/
def isSingleIp (self : IpPrefix A) : Bool := decide (self.mask = IpAddress.BITS A)

/-- `IpPrefix::overlaps`. -/
def overlaps (self other : IpPrefix A) : Result Bool := do
  let range ← self.toRange
  let otherRange ← other.toRange
  return range.overlaps otherRange

end IpPrefix

end Ipnetx
