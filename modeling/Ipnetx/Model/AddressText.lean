import Ipnetx.Machine.Text
import Ipnetx.Model.Address

/-! # Address Texts

    Model of `IpAddress::parse_addr` and of the supertrait `Display`: the
    parsers and printers of the standard library's two address types.

    - `Ipv4Addr`: four octets in plain decimal, separated by dots.
    - `Ipv6Addr`: up to eight hexadecimal groups, `::` for a run of zero
      groups, and an IPv4 address in place of the last two groups. -/

namespace Ipnetx

open Machine

/-- `IpAddress::parse_addr` and `Display`. -/
class AddressText (A : Type) where
  parseAddr : Text → Option A
  fmt : A → Text

/-! ## Section 1: `Ipv4Addr` -/

namespace Ipv4Addr

/-- `Ipv4Addr::new`. -/
def new (a b c d : BitVec 8) : Ipv4Addr := ⟨a ++ b ++ c ++ d⟩

/-- `self.octets()[i]`. -/
def octet (self : Ipv4Addr) (i : ℕ) : BitVec 8 := self.bits.extractLsb' (24 - 8 * i) 8

/-- The octets without leading zeros, separated by dots. -/
def fmt (self : Ipv4Addr) : Text :=
  displayUnsigned (self.octet 0) ++ '.' :: (displayUnsigned (self.octet 1) ++
    '.' :: (displayUnsigned (self.octet 2) ++ '.' :: displayUnsigned (self.octet 3)))

/-- `p.read_number(10, Some(3), false)`: a leading zero would be read as octal elsewhere. -/
def readOctet : Text → Option (BitVec 8 × Text) := readNumber 8 10 3 false

/-- `Parser::read_ipv4_addr`. -/
def read (s : Text) : Option (Ipv4Addr × Text) := do
  let (a, s) ← readSeparator '.' 0 readOctet s
  let (b, s) ← readSeparator '.' 1 readOctet s
  let (c, s) ← readSeparator '.' 2 readOctet s
  let (d, s) ← readSeparator '.' 3 readOctet s
  return (new a b c d, s)

/-- A text of more than 15 bytes is turned away at once in the source, and by `read` as well. -/
instance : AddressText Ipv4Addr where
  parseAddr := parseWith read
  fmt := fmt

end Ipv4Addr

/-! ## Section 2: `Ipv6Addr` -/

namespace Ipv6Addr

/-- `Ipv6Addr::segments`. -/
def segments (self : Ipv6Addr) : List (BitVec 16) :=
  [self.bits.extractLsb' 112 16, self.bits.extractLsb' 96 16, self.bits.extractLsb' 80 16,
    self.bits.extractLsb' 64 16, self.bits.extractLsb' 48 16, self.bits.extractLsb' 32 16,
    self.bits.extractLsb' 16 16, self.bits.extractLsb' 0 16]

/-- `Ipv6Addr::from` on the eight segments. -/
def ofSegments (segments : List (BitVec 16)) : Ipv6Addr :=
  ⟨BitVec.ofNat 128 (segments.foldl (fun n segment => n * 2 ^ 16 + segment.toNat) 0)⟩

/-- `Ipv6Addr::to_ipv4_mapped`. -/
def toIpv4Mapped (self : Ipv6Addr) : Option Ipv4Addr :=
  if self.bits.extractLsb' 32 96 = 0xffff then some ⟨self.bits.extractLsb' 0 32⟩ else none

/-- A run of zero segments. -/
structure Span where
  start : ℕ
  len : ℕ

/-- The longest run of zeros, the first one of several; `i` is the next position. -/
def longestZeros (i : ℕ) (longest current : Span) : List (BitVec 16) → Span
  | [] => longest
  | segment :: segments =>
      if segment = 0 then
        let start := if current.len = 0 then i else current.start
        let current : Span := { start, len := current.len + 1 }
        longestZeros (i + 1) (if current.len > longest.len then current else longest) current
          segments
      else longestZeros (i + 1) longest ⟨0, 0⟩ segments

/-- A segment in lower-case hexadecimal, without leading zeros. -/
def fmtSegment (segment : BitVec 16) : Text := Nat.toDigits 16 segment.toNat

/-- `fmt_subslice`: the segments separated by colons. -/
def fmtSubslice : List (BitVec 16) → Text
  | [] => []
  | first :: tail => fmtSegment first ++ tail.flatMap fun segment => ':' :: fmtSegment segment

/-- An IPv4-mapped address with its IPv4 address; any other with `::` for the longest run of
    more than one zero segment. -/
def fmt (self : Ipv6Addr) : Text :=
  match self.toIpv4Mapped with
  | some ipv4 => [':', ':', 'f', 'f', 'f', 'f', ':'] ++ ipv4.fmt
  | none =>
      let zeroes := longestZeros 0 ⟨0, 0⟩ ⟨0, 0⟩ self.segments
      if zeroes.len > 1 then
        fmtSubslice (self.segments.take zeroes.start) ++ [':', ':'] ++
          fmtSubslice (self.segments.drop (zeroes.start + zeroes.len))
      else fmtSubslice self.segments

/-- What `read_groups` returns: the groups, whether the last two are an IPv4 address, and the
    rest of the text. -/
structure Groups where
  groups : List (BitVec 16)
  ipv4 : Bool
  rest : Text

/-- The two groups of an embedded IPv4 address. -/
def ipv4Groups (ipv4 : Ipv4Addr) : List (BitVec 16) :=
  [ipv4.bits.extractLsb' 16 16, ipv4.bits.extractLsb' 0 16]

/-- `read_groups` at group `i`, with room for as many groups as the second argument says. -/
def readGroups (i : ℕ) : ℕ → Text → Groups
  | 0, s => { groups := [], ipv4 := false, rest := s }
  | n + 1, s =>
      -- an embedded IPv4 address needs room for two groups
      match if 0 < n then readSeparator ':' i Ipv4Addr.read s else none with
      | some (ipv4, s) => { groups := ipv4Groups ipv4, ipv4 := true, rest := s }
      | none =>
          match readSeparator ':' i (readNumber 16 16 4 true) s with
          | some (group, s) =>
              let next := readGroups (i + 1) n s
              { next with groups := group :: next.groups }
          | none => { groups := [], ipv4 := false, rest := s }

/-- `Parser::read_ipv6_addr`. -/
def read (s : Text) : Option (Ipv6Addr × Text) :=
  let head := readGroups 0 8 s
  if head.groups.length = 8 then some (ofSegments head.groups, head.rest)
  -- an IPv4 address may not stand before `::`
  else if head.ipv4 then none
  else do
    let s ← readGivenChar ':' head.rest
    let s ← readGivenChar ':' s
    let tail := readGroups 0 (8 - (head.groups.length + 1)) s
    let zeroes := List.replicate (8 - head.groups.length - tail.groups.length) 0
    return (ofSegments (head.groups ++ zeroes ++ tail.groups), tail.rest)

instance : AddressText Ipv6Addr where
  parseAddr := parseWith read
  fmt := fmt

end Ipv6Addr

/-! ## Section 3: The shape of address texts -/

/-- Hexadecimal digits, colons, and single dots between other characters. -/
structure IsAddressText (s : Text) : Prop where
  chars : ∀ c ∈ s, c.isHexDigit = true ∨ c = ':' ∨ c = '.'
  single : ¬ ['.', '.'] <:+: s
  head : s.head? ≠ some '.'
  last : s.getLast? ≠ some '.'

/-- What the crate relies on: `parse_addr` inverts `Display`, and accepts nothing but address
    texts. -/
class LawfulAddressText (A : Type) [AddressText A] : Prop where
  parseAddr_fmt : ∀ a : A, AddressText.parseAddr (AddressText.fmt a) = some a
  shape : ∀ {s : Text} {a : A}, AddressText.parseAddr s = some a → IsAddressText s

end Ipnetx
