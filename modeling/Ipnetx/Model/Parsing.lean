import Ipnetx.Model.AddressText
import Ipnetx.Model.Prefix

/-! # Text Forms of Ranges and Prefixes

    Model of the `Display` and `FromStr` implementations in `range.rs` and
    `prefix.rs`, with their errors. -/

namespace Ipnetx

open Machine

/-! ## Section 1: Prefixes -/

/-- `ParsePrefixError`. -/
inductive ParsePrefixError where
  | missingSeparator
  | invalidAddress
  | invalidMask
  deriving DecidableEq, Repr

/-- `ParsePrefixError::fmt`. -/
def ParsePrefixError.fmt : ParsePrefixError → String
  | .missingSeparator => "missing '/' separator"
  | .invalidAddress => "invalid IP address"
  | .invalidMask => "invalid prefix length"

/-- The message names the error. -/
theorem ParsePrefixError.fmt_injective : Function.Injective ParsePrefixError.fmt := by
  intro e e' h
  cases e <;> cases e' <;> first | rfl | exact absurd h (by decide)

namespace IpPrefix

variable {A : Type} [IpAddress A] [AddressText A]

/-- `IpPrefix::fmt`. -/
def fmt (self : IpPrefix A) : Text := AddressText.fmt self.ip ++ ['/'] ++ displayUnsigned self.mask

/-- `IpPrefix::from_str`. -/
def fromStr (s : Text) : Except ParsePrefixError (IpPrefix A) := do
  let (addrStr, maskStr) ← okOr .missingSeparator (splitOnce ['/'] s)
  let ip ← okOr .invalidAddress (AddressText.parseAddr addrStr)
  let mask ← okOr .invalidMask (parseUnsigned 8 maskStr)
  (IpPrefix.new ip mask).mapError fun _ => .invalidMask

end IpPrefix

/-! ## Section 2: Ranges -/

/-- `ParseRangeError`. -/
inductive ParseRangeError where
  | missingSeparator
  | invalidStart
  | invalidEnd
  deriving DecidableEq, Repr

/-- `ParseRangeError::fmt`. -/
def ParseRangeError.fmt : ParseRangeError → String
  | .missingSeparator => "missing '..' separator"
  | .invalidStart => "invalid start address"
  | .invalidEnd => "invalid end address"

/-- The message names the error. -/
theorem ParseRangeError.fmt_injective : Function.Injective ParseRangeError.fmt := by
  intro e e' h
  cases e <;> cases e' <;> first | rfl | exact absurd h (by decide)

namespace IpRange

variable {A : Type} [IpAddress A] [AddressText A]

/-- `IpRange::fmt`. -/
def fmt (self : IpRange A) : Text :=
  AddressText.fmt self.start ++ ['.', '.'] ++ AddressText.fmt self.end_

/-- `IpRange::from_str`. -/
def fromStr (s : Text) : Except ParseRangeError (IpRange A) := do
  let (startStr, endStr) ← okOr .missingSeparator (splitOnce ['.', '.'] s)
  let start ← okOr .invalidStart (AddressText.parseAddr startStr)
  let end_ ← okOr .invalidEnd (AddressText.parseAddr endStr)
  return IpRange.new start end_

end IpRange

end Ipnetx
