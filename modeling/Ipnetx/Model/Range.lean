import Ipnetx.Model.Address

/-! # Ranges

    Model of `IpRange` from `range.rs`: construction and the predicates.
    The decomposition into prefixes is in `Ipnetx.Model.Decompose`. -/

namespace Ipnetx

/-- `IpRange<A>`: an inclusive range, possibly inverted. -/
structure IpRange (A : Type) where
  start : A
  end_ : A
  deriving DecidableEq, Repr

namespace IpRange

variable {A : Type} [IpAddress A]

/-- `IpRange::new`. -/
def new (start end_ : A) : IpRange A := { start, end_ }

/-- `IpRange::is_valid`. -/
def isValid (self : IpRange A) : Bool := decide (self.start ≤ self.end_)

/-- `IpRange::contains`. -/
def contains (self : IpRange A) (ip : A) : Bool :=
  self.isValid && decide (self.start ≤ ip) && decide (ip ≤ self.end_)

/-- `IpRange::is_zero`. -/
def isZero (self : IpRange A) : Bool :=
  IpAddress.isUnspecified self.start && IpAddress.isUnspecified self.end_

/-- `IpRange::overlaps`. -/
def overlaps (self other : IpRange A) : Bool :=
  self.isValid && other.isValid && decide (self.end_ ≥ other.start)
    && decide (self.start ≤ other.end_)

end IpRange

end Ipnetx
