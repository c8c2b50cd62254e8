import Ipnetx.Model.Builder
import Ipnetx.Model.Parsing

/-! # Fuzz Targets

    Model of the four programs in `fuzz/fuzz_targets`.  A target is given the
    input that the fuzzer decoded; it crashes when the crate faults or one of
    its assertions fails. -/

namespace Ipnetx

open Machine

namespace Fuzz

/-! ## Section 1: Assertions -/

/-- Why a target crashes. -/
inductive Crash where
  | fault (f : Fault)
  | assertion
  | expect
  deriving DecidableEq, Repr

/-- A call into the crate. -/
abbrev crate {α : Type} (x : Result α) : Except Crash α := x.mapError .fault

/-- `assert!(condition)`. -/
def assert (condition : Bool) : Except Crash Unit :=
  if condition then .ok () else .error .assertion

/-- `assert_eq!(left, right)`. -/
def assertEq {α : Type} [DecidableEq α] (left right : Result α) : Except Crash Unit := do
  let l ← crate left
  let r ← crate right
  assert (decide (l = r))

/-- `Result::expect`. -/
def expect {ε α : Type} : Except ε α → Except Crash α
  | .ok a => .ok a
  | .error _ => .error .expect

/-- Ranges are sorted, non-overlapping, non-adjacent. -/
def assertNormalized (set : IpSet Ipv4Addr) : Except Crash Unit :=
  (set.ranges.zip set.ranges.tail).forM fun w =>
    assert (decide (w.2.start.bits > Word.saturatingAdd w.1.end_.bits 1))

/-- `IpRange::new(from_bits(s.min(e)), from_bits(s.max(e)))`. -/
def ordered (s e : BitVec 32) : IpRange Ipv4Addr :=
  IpRange.new ⟨Word.umin s e⟩ ⟨Word.umax s e⟩

/-! ## Section 2: `ipset_builder` -/

/-- `Op`. -/
inductive Op where
  | addRange (s e : BitVec 32)
  | removeRange (s e : BitVec 32)
  | addPrefix (ip : BitVec 32) (mask : BitVec 8)
  | removePrefix (ip : BitVec 32) (mask : BitVec 8)
  | addIp (ip : BitVec 32)
  | removeIp (ip : BitVec 32)

/-- The body of the loop over the operations. -/
def Op.apply (b : IpSetBuilder Ipv4Addr) : Op → Except Crash (IpSetBuilder Ipv4Addr)
  | .addRange s e => return b.addRange (ordered s e)
  | .removeRange s e => return b.removeRange (ordered s e)
  | .addPrefix ip mask =>
      match IpPrefix.new (⟨ip⟩ : Ipv4Addr) (mask % 33) with
      | .ok p => crate (b.addPrefix p)
      | .error _ => return b
  | .removePrefix ip mask =>
      match IpPrefix.new (⟨ip⟩ : Ipv4Addr) (mask % 33) with
      | .ok p => crate (b.removePrefix p)
      | .error _ => return b
  | .addIp ip => return b.addIp ⟨ip⟩
  | .removeIp ip => return b.removeIp ⟨ip⟩

section
variable [SortUnstableByKey (IpRange Ipv4Addr) Ipv4Addr]

/-- `fuzz_targets/ipset_builder.rs`. -/
def ipsetBuilder (ops : List Op) : Except Crash Unit := do
  let b ← ops.foldlM Op.apply IpSetBuilder.new
  let set ← crate b.build
  assertNormalized set
  let count ← crate set.count
  assert (decide (set.len ≤ count.toNat))
  assert (← crate (set.isSubsetOf set))

/-! ## Section 3: `ipset_ops` -/

/-- `FuzzInput`. -/
structure FuzzInput where
  rangesA : List (BitVec 32 × BitVec 32)
  rangesB : List (BitVec 32 × BitVec 32)

/-- `build`. -/
def build (pairs : List (BitVec 32 × BitVec 32)) : Result (IpSet Ipv4Addr) :=
  (pairs.foldl (fun b pair => b.addRange (ordered pair.1 pair.2)) IpSetBuilder.new).build

/-- The laws of the set operations. -/
def checkLaws (a b : IpSet Ipv4Addr) : Except Crash Unit := do
  -- Commutativity
  assertEq (a.union b) (b.union a)
  assertEq (a.intersection b) (b.intersection a)
  -- Idempotence
  assertEq (a.union a) (.ok a)
  assertEq (a.intersection a) (.ok a)
  -- Double complement
  assertEq (do (← a.complement).complement) (.ok a)
  -- De Morgan
  assertEq (do (← a.union b).complement) (do (← a.complement).intersection (← b.complement))
  -- difference == intersection with complement
  assertEq (a.difference b) (do a.intersection (← b.complement))

/-- The laws of the counts. -/
def checkCounts (a b : IpSet Ipv4Addr) : Except Crash Unit := do
  -- Inclusion–exclusion
  assertEq (do Word.add (← (← a.union b).count) (← (← a.intersection b).count))
    (do Word.add (← a.count) (← b.count))
  -- Complement law
  assertEq (do Word.add (← a.count) (← (← a.complement).count)) (.ok (1#128 <<< 32))

/-- `fuzz_targets/ipset_ops.rs`. -/
def ipsetOps (input : FuzzInput) : Except Crash Unit := do
  let a ← crate (build input.rangesA)
  let b ← crate (build input.rangesB)
  checkLaws a b
  checkCounts a b
  -- Subset / superset consistency
  assertEq (a.isSubsetOf b) (b.isSupersetOf a)
  let union ← crate (a.union b)
  let intersection ← crate (a.intersection b)
  let difference ← crate (a.difference b)
  [a, b, union, intersection, difference].forM assertNormalized

end

/-! ## Section 4: `parse_prefix` and `parse_range` -/

section
variable (A : Type) [IpAddress A] [AddressText A]

/-- The checks on one family; `maxMask` is its literal. -/
def reparsePrefix (maxMask : BitVec 8) (s : Text) : Except Crash Unit :=
  match (IpPrefix.fromStr s : Except ParsePrefixError (IpPrefix A)) with
  | .error _ => return ()
  | .ok p => do
      let reparsed ← expect (IpPrefix.fromStr p.fmt)
      assert (decide (p = reparsed))
      assert (decide (p.mask ≤ maxMask))
      assertEq p.masked (do (← p.masked).masked)

/-- The checks on one family. -/
def reparseRange (s : Text) : Except Crash Unit :=
  match (IpRange.fromStr s : Except ParseRangeError (IpRange A)) with
  | .error _ => return ()
  | .ok r => do
      let reparsed ← expect (IpRange.fromStr r.fmt)
      assert (decide (r = reparsed))
      if r.isValid then assert (decide (r.start ≤ r.end_))

end

/-- `fuzz_targets/parse_prefix.rs`. -/
def parsePrefix (data : ByteArray) : Except Crash Unit :=
  match String.fromUTF8? data with
  | none => return ()
  | some s => do
      reparsePrefix Ipv4Addr 32 s.toList
      reparsePrefix Ipv6Addr 128 s.toList

/-- `fuzz_targets/parse_range.rs`. -/
def parseRange (data : ByteArray) : Except Crash Unit :=
  match String.fromUTF8? data with
  | none => return ()
  | some s => do
      reparseRange Ipv4Addr s.toList
      reparseRange Ipv6Addr s.toList

end Fuzz

end Ipnetx
