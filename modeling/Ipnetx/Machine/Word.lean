import Mathlib.Data.Nat.Log
import Mathlib.Tactic

/-! # Checked Machine Words

    Fixed-width unsigned arithmetic with the faults of a checked build made
    explicit.  A word of width `w` is a `BitVec w`; an operation that can go
    wrong returns a `Result`, so that "no operation overflows" is the
    statement that a computation is `.ok`.

    * `add`, `sub`, `shr`, `ilog2`, `narrow`: the plain operators, which fault.
    * `checkedAdd`, `checkedMul`, `checkedShl`: the variants that return an `Option`.
    * `saturatingAdd`, `wrappingAdd`: the total variants.

    Every operation has one lemma that says what it does on the numeric
    values (`toNat`); later modules use these and never unfold a word
    operation. -/

namespace Machine

/-- What a checked computation can do wrong. -/
inductive Fault where
  /-- `+` or `-` left the range of the type. -/
  | overflow
  /-- A shift by at least the width of the type. -/
  | shift
  /-- `ilog2` of zero. -/
  | ilog2Zero
  /-- A slice index out of bounds. -/
  | index
  /-- `unwrap` of an absent value. -/
  | unwrap
  /-- A narrowing cast that drops a set bit.  The running program truncates
      silently; the fault is recorded to prove that it never happens. -/
  | lossyCast
  deriving DecidableEq, Repr

/-- A computation that either faults or returns. -/
abbrev Result (α : Type) : Type := Except Fault α

namespace Result

variable {ε α β : Type}

@[simp] theorem ok_bind (a : α) (f : α → Except ε β) : (Except.ok a >>= f) = f a := rfl

@[simp] theorem error_bind (e : ε) (f : α → Except ε β) : (Except.error e >>= f) = .error e := rfl

@[simp] theorem pure_eq_ok (a : α) : (pure a : Except ε α) = .ok a := rfl

@[simp] theorem mapError_ok {δ : Type} (f : ε → δ) (a : α) :
    (Except.ok a).mapError f = .ok a := rfl

/-- A run that returned ran its first step. -/
theorem bind_eq_ok {x : Except ε α} {f : α → Except ε β} {b : β} (h : (x >>= f) = .ok b) :
    ∃ a, x = .ok a ∧ f a = .ok b := by
  cases x with
  | error e => cases h
  | ok a => exact ⟨a, rfl, h⟩

/-- The computation ends without a fault. -/
def Returns (x : Result α) : Prop := ∃ a, x = .ok a

theorem Returns.intro {x : Result α} {a : α} (h : x = .ok a) : x.Returns := ⟨a, h⟩

/-- `Option::unwrap`. -/
def unwrap : Option α → Result α
  | some a => .ok a
  | none => .error .unwrap

@[simp] theorem unwrap_some (a : α) : unwrap (some a) = .ok a := rfl

/-- `Result::unwrap`. -/
def unwrapOk : Except ε α → Result α
  | .ok a => .ok a
  | .error _ => .error .unwrap

@[simp] theorem unwrapOk_ok (a : α) : unwrapOk (.ok a : Except ε α) = .ok a := rfl

end Result

namespace Word

variable {w : Nat}

/-! ## Section 1: Operators that fault -/

/-- `a + b`. -/
def add (a b : BitVec w) : Result (BitVec w) :=
  if a.toNat + b.toNat < 2 ^ w then .ok (a + b) else .error .overflow

/-- `a - b`. -/
def sub (a b : BitVec w) : Result (BitVec w) :=
  if b ≤ a then .ok (a - b) else .error .overflow

/-- `a >> n`. -/
def shr (a : BitVec w) (n : BitVec 32) : Result (BitVec w) :=
  if n.toNat < w then .ok (a >>> n.toNat) else .error .shift

/-- `a.ilog2()`. -/
def ilog2 (a : BitVec w) : Result (BitVec 32) :=
  if a.toNat = 0 then .error .ilog2Zero else .ok (BitVec.ofNat 32 a.toNat.log2)

/-- `a as uN` to the narrower width `v`. -/
def narrow (v : Nat) (a : BitVec w) : Result (BitVec v) :=
  if a.toNat < 2 ^ v then .ok (a.setWidth v) else .error .lossyCast

theorem add_eq_ok {a b : BitVec w} (h : a.toNat + b.toNat < 2 ^ w) :
    add a b = .ok (a + b) := by
  simp [add, h]

theorem toNat_add_of_lt {a b : BitVec w} (h : a.toNat + b.toNat < 2 ^ w) :
    (a + b).toNat = a.toNat + b.toNat := by
  rw [BitVec.toNat_add, Nat.mod_eq_of_lt h]

theorem sub_eq_ok {a b : BitVec w} (h : b.toNat ≤ a.toNat) :
    sub a b = .ok (a - b) := by
  simp [sub, BitVec.le_def, h]

theorem toNat_sub_of_le {a b : BitVec w} (h : b.toNat ≤ a.toNat) :
    (a - b).toNat = a.toNat - b.toNat :=
  BitVec.toNat_sub_of_le (BitVec.le_def.mpr h)

theorem shr_eq_ok {a : BitVec w} {n : BitVec 32} (h : n.toNat < w) :
    shr a n = .ok (a >>> n.toNat) := by
  simp [shr, h]

theorem narrow_eq_ok {v : Nat} {a : BitVec w} (h : a.toNat < 2 ^ v) :
    narrow v a = .ok (a.setWidth v) := by
  simp [narrow, h]

theorem toNat_setWidth_of_lt {v : Nat} {a : BitVec w} (h : a.toNat < 2 ^ v) :
    (a.setWidth v).toNat = a.toNat := by
  rw [BitVec.toNat_setWidth, Nat.mod_eq_of_lt h]

/-- The low `h` bits set: all ones shifted down to width `h`. -/
theorem toNat_allOnes_shr {h : Nat} (hle : h ≤ w) :
    (BitVec.allOnes w >>> (w - h)).toNat = 2 ^ h - 1 := by
  have hpow : 2 ^ w = 2 ^ h * 2 ^ (w - h) := by
    rw [← pow_add, Nat.add_sub_cancel' hle]
  obtain ⟨n, hn⟩ := Nat.exists_eq_add_of_lt (Nat.two_pow_pos h)
  have hsucc : (n + 1) * 2 ^ (w - h) = n * 2 ^ (w - h) + 2 ^ (w - h) := by ring
  have hpos := Nat.two_pow_pos (w - h)
  rw [BitVec.toNat_ushiftRight, BitVec.toNat_allOnes, Nat.shiftRight_eq_div_pow, hpow,
    hn, Nat.zero_add, Nat.div_eq_iff hpos, Nat.add_sub_cancel, hsucc]
  omega

theorem ilog2_eq_ok {a : BitVec w} (h : 0 < a.toNat) :
    ilog2 a = .ok (BitVec.ofNat 32 a.toNat.log2) := by
  have hne : a.toNat ≠ 0 := Nat.ne_of_gt h
  simp [ilog2, hne]

/-! ## Section 2: Operators that return an option, saturate or wrap -/

/-- `a.checked_add(b)`. -/
def checkedAdd (a b : BitVec w) : Option (BitVec w) :=
  if a.toNat + b.toNat < 2 ^ w then some (a + b) else none

/-- `a.checked_mul(b)`. -/
def checkedMul (a b : BitVec w) : Option (BitVec w) :=
  if a.toNat * b.toNat < 2 ^ w then some (a * b) else none

/-- `a.checked_shl(n)`. -/
def checkedShl (a : BitVec w) (n : BitVec 32) : Option (BitVec w) :=
  if n.toNat < w then some (a <<< n.toNat) else none

/-- `a.saturating_add(b)`. -/
def saturatingAdd (a b : BitVec w) : BitVec w :=
  if a.toNat + b.toNat < 2 ^ w then a + b else BitVec.allOnes w

/-- `a.saturating_sub(b)`. -/
def saturatingSub (a b : BitVec w) : BitVec w :=
  if b ≤ a then a - b else 0

/-- `a.wrapping_add(b)`. -/
def wrappingAdd (a b : BitVec w) : BitVec w := a + b

/-- `a.min(b)`. -/
def umin (a b : BitVec w) : BitVec w := if a ≤ b then a else b

/-- `a.max(b)`. -/
def umax (a b : BitVec w) : BitVec w := if a ≤ b then b else a

theorem checkedAdd_eq_some {a b c : BitVec w} :
    checkedAdd a b = some c ↔ c.toNat = a.toNat + b.toNat := by
  unfold checkedAdd
  split
  · next h =>
    rw [Option.some.injEq, ← BitVec.toNat_inj, toNat_add_of_lt h]
    exact eq_comm
  · next h =>
    -- the exact sum is no word, so no word equals it
    have hc := c.isLt
    constructor
    · intro hn; cases hn
    · intro hn; omega

theorem checkedAdd_eq_none {a b : BitVec w} :
    checkedAdd a b = none ↔ 2 ^ w ≤ a.toNat + b.toNat := by
  unfold checkedAdd
  split <;> simp <;> omega

theorem checkedMul_eq_some {a b c : BitVec w} :
    checkedMul a b = some c ↔ c.toNat = a.toNat * b.toNat := by
  unfold checkedMul
  split
  · next h =>
    rw [Option.some.injEq, ← BitVec.toNat_inj, BitVec.toNat_mul, Nat.mod_eq_of_lt h]
    exact eq_comm
  · next h =>
    -- the exact product is no word, so no word equals it
    have hc := c.isLt
    constructor
    · intro hn; cases hn
    · intro hn; omega

theorem toNat_saturatingAdd (a b : BitVec w) :
    (saturatingAdd a b).toNat = min (a.toNat + b.toNat) (2 ^ w - 1) := by
  unfold saturatingAdd
  split
  · next h =>
    rw [toNat_add_of_lt h]
    omega
  · next h =>
    rw [BitVec.toNat_allOnes]
    omega

/-- The saturated sum bounds a word exactly when the exact sum does. -/
theorem le_saturatingAdd {a b c : BitVec w} :
    c ≤ saturatingAdd a b ↔ c.toNat ≤ a.toNat + b.toNat := by
  have hc := c.isLt
  rw [BitVec.le_def, toNat_saturatingAdd]
  omega

theorem toNat_umin (a b : BitVec w) : (umin a b).toNat = min a.toNat b.toNat := by
  unfold umin
  split
  · next h => exact (Nat.min_eq_left (BitVec.le_def.mp h)).symm
  · next h =>
    have hlt := BitVec.le_def.not.mp h
    omega

theorem toNat_umax (a b : BitVec w) : (umax a b).toNat = max a.toNat b.toNat := by
  unfold umax
  split
  · next h => exact (Nat.max_eq_right (BitVec.le_def.mp h)).symm
  · next h =>
    have hlt := BitVec.le_def.not.mp h
    omega

/-! ## Section 3: Counting zeros, powers of two -/

/-- The number of trailing zeros of `n` among its low `fuel` bits. -/
def lowZeros : Nat → Nat → Nat
  | 0, _ => 0
  | fuel + 1, n => if n % 2 = 0 then lowZeros fuel (n / 2) + 1 else 0

/-- `a.trailing_zeros()`; the width of the type for zero. -/
def trailingZeros (a : BitVec w) : BitVec 32 := BitVec.ofNat 32 (lowZeros w a.toNat)

/-- `a.is_power_of_two()`. -/
def isPowerOfTwo (a : BitVec w) : Bool := decide (a.toNat = 2 ^ a.toNat.log2)

theorem le_lowZeros {fuel n k : Nat} : k ≤ lowZeros fuel n ↔ k ≤ fuel ∧ 2 ^ k ∣ n := by
  induction fuel generalizing n k with
  | zero =>
    constructor
    · intro h
      have hk : k = 0 := Nat.le_zero.mp h
      subst hk
      simp
    · exact fun h => h.1
  | succ fuel ih =>
    cases k with
    | zero => simp
    | succ k =>
      unfold lowZeros
      split
      · next heven =>
        -- one more factor of two: compare the halves
        have hn : n = 2 * (n / 2) := by omega
        have hdvd : 2 ^ (k + 1) ∣ n ↔ 2 ^ k ∣ n / 2 := by
          rw [pow_succ']
          constructor
          · exact fun h => Nat.dvd_div_of_mul_dvd h
          · intro h
            rw [hn]
            exact Nat.mul_dvd_mul_left 2 h
        rw [hdvd, Nat.add_le_add_iff_right, ih, Nat.add_le_add_iff_right]
      · next hodd =>
        -- an odd number has no factor of two
        have hnot : ¬ 2 ^ (k + 1) ∣ n := by
          intro h
          have h2 : 2 ∣ n := (dvd_pow_self 2 (Nat.succ_ne_zero k)).trans h
          omega
        simp [hnot]

theorem toNat_trailingZeros (a : BitVec w) (hw : w < 2 ^ 32) :
    (trailingZeros a).toNat = lowZeros w a.toNat := by
  have hle : lowZeros w a.toNat ≤ w := (le_lowZeros.mp le_rfl).1
  unfold trailingZeros
  rw [BitVec.toNat_ofNat, Nat.mod_eq_of_lt (by omega)]

/-- The trailing zeros of a word measure its largest power-of-two divisor. -/
theorem le_trailingZeros {a : BitVec w} (hw : w < 2 ^ 32) {k : Nat} :
    k ≤ (trailingZeros a).toNat ↔ k ≤ w ∧ 2 ^ k ∣ a.toNat := by
  rw [toNat_trailingZeros a hw, le_lowZeros]

theorem isPowerOfTwo_iff {a : BitVec w} :
    isPowerOfTwo a = true ↔ ∃ k, a.toNat = 2 ^ k := by
  unfold isPowerOfTwo
  rw [decide_eq_true_iff]
  constructor
  · exact fun h => ⟨_, h⟩
  · intro hin
    obtain ⟨k, hk⟩ := hin
    rw [hk, Nat.log2_two_pow]

theorem toNat_log2 {n : Nat} (hn : n < 2 ^ 128) :
    (BitVec.ofNat 32 n.log2).toNat = n.log2 := by
  have hlog : n.log2 ≤ 128 := by
    by_cases h : n = 0
    · simp [h]
    · exact ((Nat.log2_lt h).mpr hn).le
  rw [BitVec.toNat_ofNat, Nat.mod_eq_of_lt (by omega)]

/-! ## Section 4: Masks -/

/-- The bits from position `h` up to but not including `b` are set, no others. -/
def IsField (n : BitVec w) (h b : Nat) : Prop :=
  ∀ i, n.getLsbD i = (decide (h ≤ i) && decide (i < b))

/-- All ones shifted down are a field from bit 0. -/
theorem isField_allOnes_shr {b : Nat} (hb : b ≤ w) :
    IsField (BitVec.allOnes w >>> (w - b)) 0 b := by
  intro i
  rw [BitVec.getLsbD_ushiftRight, BitVec.getLsbD_allOnes, Bool.eq_iff_iff]
  simp only [Bool.and_eq_true, decide_eq_true_iff]
  omega

/-- `checked_shl` of all ones, with 0 where the shift is too large: a field up to
    the top. -/
theorem isField_allOnes_shl {n : BitVec 32} :
    IsField ((checkedShl (BitVec.allOnes w) n).getD 0) n.toNat w := by
  intro i
  unfold checkedShl
  split
  · next hlt =>
    rw [Option.getD_some, BitVec.getLsbD_shiftLeft, BitVec.getLsbD_allOnes, Bool.eq_iff_iff]
    simp only [Bool.and_eq_true, Bool.not_eq_true', decide_eq_true_iff, decide_eq_false_iff_not]
    omega
  · next hge =>
    -- the shift is too large, and the field is empty
    have hzero : (0 : BitVec w).getLsbD i = false := BitVec.getLsbD_zero
    rw [Option.getD_none, hzero, eq_comm, Bool.eq_false_iff]
    simp only [ne_eq, Bool.and_eq_true, decide_eq_true_iff]
    omega

theorem IsField.and {m n : BitVec w} {g h b c : Nat} (hm : IsField m g b) (hn : IsField n h c) :
    IsField (m &&& n) (max g h) (min b c) := by
  intro i
  rw [BitVec.getLsbD_and, hm i, hn i, Bool.eq_iff_iff]
  simp only [Bool.and_eq_true, decide_eq_true_iff]
  omega

/-- What a field from bit 0 has below another field of the same end. -/
theorem IsField.and_not {m n : BitVec w} {h b : Nat} (hm : IsField m 0 b) (hn : IsField n h b)
    (hbw : b ≤ w) (hhb : h ≤ b) : IsField (m &&& ~~~n) 0 h := by
  intro i
  rw [BitVec.getLsbD_and, BitVec.getLsbD_not, hm i, hn i, Bool.eq_iff_iff]
  simp only [Bool.and_eq_true, Bool.not_eq_true', Bool.and_eq_false_iff, decide_eq_true_iff,
    decide_eq_false_iff_not]
  omega

/-- Masking with the high field rounds down to a multiple of `2 ^ h`. -/
theorem IsField.toNat_and {a n : BitVec w} {h b : Nat} (hn : IsField n h b)
    (ha : a.toNat < 2 ^ b) : (a &&& n).toNat = a.toNat / 2 ^ h * 2 ^ h := by
  apply Nat.eq_of_testBit_eq
  intro i
  have hni : n.toNat.testBit i = (decide (h ≤ i) && decide (i < b)) := hn i
  rw [BitVec.toNat_and, Nat.testBit_and, hni, Nat.testBit_mul_two_pow, Nat.testBit_div_two_pow]
  by_cases hib : i < b
  · by_cases hhi : h ≤ i
    · simp [hib, hhi, Nat.sub_add_cancel hhi]
    · simp [hhi]
  · -- `a` has no bits at or above `b`
    have hzero : a.toNat.testBit i = false :=
      Nat.testBit_lt_two_pow (ha.trans_le (Nat.pow_le_pow_right (by decide) (not_lt.mp hib)))
    by_cases hhi : h ≤ i
    · simp [hzero, Nat.sub_add_cancel hhi]
    · simp [hhi]

/-- Setting the low field rounds up to the end of the block of `2 ^ h`. -/
theorem IsField.toNat_or {a m : BitVec w} {h : Nat} (hm : IsField m 0 h) :
    (a ||| m).toNat = a.toNat / 2 ^ h * 2 ^ h + (2 ^ h - 1) := by
  apply Nat.eq_of_testBit_eq
  intro i
  have hpos := Nat.two_pow_pos h
  have hmi : m.toNat.testBit i = (decide (0 ≤ i) && decide (i < h)) := hm i
  rw [BitVec.toNat_or, Nat.testBit_or, hmi, Nat.mul_comm,
    Nat.testBit_two_pow_mul_add _ (Nat.sub_lt hpos Nat.one_pos), Nat.testBit_two_pow_sub_one,
    Nat.testBit_div_two_pow]
  by_cases hih : i < h
  · simp [hih]
  · simp [hih, Nat.sub_add_cancel (not_lt.mp hih)]

end Word

end Machine
