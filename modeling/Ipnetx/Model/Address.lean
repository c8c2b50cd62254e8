import Mathlib.Order.Lattice
import Ipnetx.Machine.Word

/-! # Addresses

    Model of `interfaces.rs`: the sealed trait `IpAddress` and its two
    implementations.

    The class carries, besides the trait's items, what the two
    implementations have in common and the crate relies on: `Ord` is the
    numeric order of `to_bits`, and `to_u128` / `from_u128` are inverse to
    each other on the low `BITS` bits.  `from_u128` itself truncates, as the
    source does for IPv4.  The crate's own calls go through `fromU128Exact`,
    which records a fault when the argument is above the family's maximum
    address, so that a computation without fault never dropped a bit. -/

namespace Ipnetx

open Machine

/-- The trait `IpAddress`. -/
class IpAddress (A : Type) extends LinearOrder A where
  /-- Number of bits in this address type. -/
  BITS : BitVec 8
  isUnspecified : A → Bool
  toU128 : A → BitVec 128
  fromU128 : BitVec 128 → A
  bits_pos : 0 < BITS.toNat
  bits_le : BITS.toNat ≤ 128
  toU128_lt : ∀ a, (toU128 a).toNat < 2 ^ BITS.toNat
  fromU128_toU128 : ∀ a, fromU128 (toU128 a) = a
  toU128_fromU128 : ∀ x : BitVec 128, x.toNat < 2 ^ BITS.toNat → toU128 (fromU128 x) = x
  le_iff : ∀ a b : A, a ≤ b ↔ toU128 a ≤ toU128 b
  isUnspecified_iff : ∀ a, isUnspecified a = true ↔ toU128 a = 0

/-! ## Section 1: The two families -/

/-- `Ipv4Addr`, by its `to_bits`. -/
structure Ipv4Addr where
  bits : BitVec 32
  deriving DecidableEq, Repr

/-- `Ipv6Addr`, by its `to_bits`. -/
structure Ipv6Addr where
  bits : BitVec 128
  deriving DecidableEq, Repr

instance : LinearOrder Ipv4Addr :=
  LinearOrder.lift' (fun a => a.bits.toNat) fun a b h => by
    cases a
    cases b
    exact congrArg _ (BitVec.eq_of_toNat_eq h)

instance : LinearOrder Ipv6Addr :=
  LinearOrder.lift' (fun a => a.bits.toNat) fun a b h => by
    cases a
    cases b
    exact congrArg _ (BitVec.eq_of_toNat_eq h)

instance : IpAddress Ipv4Addr where
  BITS := 32
  isUnspecified a := decide (a.bits = 0)
  toU128 a := a.bits.setWidth 128
  fromU128 x := ⟨x.setWidth 32⟩
  bits_pos := by decide
  bits_le := by decide
  toU128_lt a := by
    have h := a.bits.isLt
    rw [BitVec.toNat_setWidth_of_le (by decide)]
    exact h
  fromU128_toU128 a := by
    rw [BitVec.setWidth_setWidth_of_le _ (by decide), BitVec.setWidth_eq]
  toU128_fromU128 x h := by
    apply BitVec.eq_of_toNat_eq
    rw [BitVec.toNat_setWidth_of_le (by decide), BitVec.toNat_setWidth]
    exact Nat.mod_eq_of_lt h
  le_iff a b := by
    rw [BitVec.le_def, BitVec.toNat_setWidth_of_le (by decide),
      BitVec.toNat_setWidth_of_le (by decide)]
    exact Iff.rfl
  isUnspecified_iff a := by
    rw [decide_eq_true_iff, ← BitVec.toNat_inj, ← BitVec.toNat_inj,
      BitVec.toNat_setWidth_of_le (by decide)]
    exact Iff.rfl

instance : IpAddress Ipv6Addr where
  BITS := 128
  isUnspecified a := decide (a.bits = 0)
  toU128 a := a.bits
  fromU128 x := ⟨x⟩
  bits_pos := by decide
  bits_le := by decide
  toU128_lt a := a.bits.isLt
  fromU128_toU128 _ := rfl
  toU128_fromU128 _ _ := rfl
  le_iff _ _ := BitVec.le_def.symm
  isUnspecified_iff _ := by rw [decide_eq_true_iff]

/-! ## Section 2: Numeric values -/

namespace IpAddress

/-- The width of the family as a number. -/
def bits (A : Type) [IpAddress A] : ℕ := (BITS A).toNat

variable {A : Type} [IpAddress A]

/-- The address as a number. -/
def val (a : A) : ℕ := (toU128 a).toNat

theorem val_lt (a : A) : val a < 2 ^ bits A := toU128_lt a

theorem bits_le_128 : bits A ≤ 128 := bits_le

theorem two_pow_bits_le : 2 ^ bits A ≤ 2 ^ 128 :=
  Nat.pow_le_pow_right (by decide) bits_le

theorem val_injective : Function.Injective (val : A → ℕ) := by
  intro a b h
  have hu : toU128 a = toU128 b := BitVec.eq_of_toNat_eq h
  rw [← fromU128_toU128 a, hu, fromU128_toU128]

theorem val_inj {a b : A} : val a = val b ↔ a = b := val_injective.eq_iff

theorem le_iff_val {a b : A} : a ≤ b ↔ val a ≤ val b := by
  rw [le_iff, BitVec.le_def]
  exact Iff.rfl

theorem lt_iff_val {a b : A} : a < b ↔ val a < val b := by
  rw [← not_le, le_iff_val, not_le]

theorem val_strictMono : StrictMono (val : A → ℕ) := fun _ _ h => lt_iff_val.mp h

theorem val_max (a b : A) : val (max a b) = max (val a) (val b) :=
  val_strictMono.monotone.map_max

theorem val_min (a b : A) : val (min a b) = min (val a) (val b) :=
  val_strictMono.monotone.map_min

/-- Every number of the family's width is an address. -/
theorem exists_val {n : ℕ} (h : n < 2 ^ bits A) : ∃ a : A, val a = n := by
  have hn : (BitVec.ofNat 128 n).toNat = n := by
    rw [BitVec.toNat_ofNat, Nat.mod_eq_of_lt (h.trans_le two_pow_bits_le)]
  refine ⟨fromU128 (BitVec.ofNat 128 n), ?_⟩
  unfold val
  rw [toU128_fromU128 _ (by rw [hn]; exact h), hn]

/-- The family's maximum address as a word. -/
def maxAddr (A : Type) [IpAddress A] : BitVec 128 := BitVec.allOnes 128 >>> (128 - bits A)

theorem toNat_maxAddr : (maxAddr A).toNat = 2 ^ bits A - 1 :=
  Word.toNat_allOnes_shr bits_le

theorem toNat_bits_setWidth : ((BITS A).setWidth 32).toNat = bits A := by
  rw [BitVec.toNat_setWidth_of_le (by decide)]
  rfl

/-- `u128::MAX` shifted down to the family's width. -/
theorem shr_eq_maxAddr {shift : BitVec 32} (h : shift.toNat = 128 - bits A) :
    Word.shr (BitVec.allOnes 128) shift = .ok (maxAddr A) := by
  have hpos : 0 < bits A := bits_pos
  rw [Word.shr_eq_ok (by omega), h]
  rfl

/-- A call `A::from_u128(x)` of the crate. -/
def fromU128Exact (x : BitVec 128) : Result A :=
  if x ≤ maxAddr A then .ok (fromU128 x) else .error .lossyCast

theorem fromU128Exact_eq_ok {x : BitVec 128} (h : x.toNat < 2 ^ bits A) :
    fromU128Exact x = .ok (fromU128 x : A) := by
  have hle : x ≤ maxAddr A := by
    rw [BitVec.le_def, toNat_maxAddr]
    omega
  simp [fromU128Exact, hle]

theorem val_fromU128 {x : BitVec 128} (h : x.toNat < 2 ^ bits A) :
    val (fromU128 x : A) = x.toNat := by
  unfold val
  rw [toU128_fromU128 x h]

end IpAddress

end Ipnetx
