import Ipnetx.Model.Parsing
import Ipnetx.Refinement.AddressText

/-! # Parsing

    What the two `from_str` accept, how they fail, and that they read back
    what `fmt` prints.

    Both split at the first separator, and an address text never reaches into
    it (`IsAddressText.firstSplit_slash`, `IsAddressText.firstSplit_dots`).
    So the first split is the only one with an address before the separator,
    and whatever the grammar says about some split holds of that one. -/

namespace Ipnetx

open Machine AddressText

variable {A : Type} [AddressText A]

variable (A) in
/-- What stands before the first `sep` is not an address. -/
def InvalidBefore (sep s : Text) : Prop :=
  ∃ before after, FirstSplit sep s before after ∧ (parseAddr before : Option A) = none

theorem InvalidBefore.sep_infix {sep s : Text} (h : InvalidBefore A sep s) : sep <:+: s := by
  obtain ⟨a, b, hsplit, _⟩ := h
  exact ⟨a, b, hsplit.eq.symm⟩

/-! ## Section 1: Prefixes -/

section
variable [IpAddress A] (Len : Text → ℕ → Prop)

/-- `s` is a text of the address `ip`, a slash and a text of the length `n`, which the family
    has. -/
def PrefixText (s : Text) (ip : A) (n : ℕ) : Prop :=
  ∃ addr len, s = addr ++ '/' :: len ∧ parseAddr addr = some ip ∧ Len len n ∧
    n ≤ (IpAddress.BITS A).toNat

variable (A) in
/-- `IpPrefix::from_str` decides at `s` the grammar with the length texts `Len`, and fails for
    the first part that is wrong. -/
structure PrefixGrammar (s : Text) : Prop where
  succeeds : (∃ p : IpPrefix A, IpPrefix.fromStr s = .ok p) ↔
    ∃ (ip : A) (n : ℕ), PrefixText Len s ip n
  ok : ∀ p : IpPrefix A, IpPrefix.fromStr s = .ok p ↔ PrefixText Len s p.ip p.mask.toNat
  missingSeparator : (IpPrefix.fromStr s : Except _ (IpPrefix A)) = .error .missingSeparator ↔
    '/' ∉ s
  invalidAddress : (IpPrefix.fromStr s : Except _ (IpPrefix A)) = .error .invalidAddress ↔
    '/' ∈ s ∧ InvalidBefore A ['/'] s
  invalidMask : (IpPrefix.fromStr s : Except _ (IpPrefix A)) = .error .invalidMask ↔
    '/' ∈ s ∧ ¬ InvalidBefore A ['/'] s ∧ ¬ ∃ (ip : A) (n : ℕ), PrefixText Len s ip n

end

/-- A length text: digits, with or without a leading `+`. -/
def OptionalPlus (len : Text) (n : ℕ) : Prop := ∃ ds, (len = ds ∨ len = '+' :: ds) ∧ Decimal ds n

/-- A length text with a sign. -/
def WithPlus (len : Text) (n : ℕ) : Prop := ∃ ds, len = '+' :: ds ∧ Decimal ds n

theorem optionalPlus_iff {len : Text} {n : ℕ} :
    OptionalPlus len n ↔ Decimal len n ∨ WithPlus len n := by
  constructor
  · intro h
    obtain ⟨ds, rfl | rfl, hds⟩ := h
    · exact Or.inl hds
    · exact Or.inr ⟨ds, rfl, hds⟩
  · intro h
    rcases h with hds | ⟨ds, hlen, hds⟩
    · exact ⟨len, Or.inl rfl, hds⟩
    · exact ⟨ds, Or.inr hlen, hds⟩

/-- Digits have no sign. -/
theorem not_withPlus_of_decimal {len : Text} {m n : ℕ} (h : Decimal len m) : ¬ WithPlus len n := by
  intro hplus
  obtain ⟨ds, rfl, _⟩ := hplus
  exact absurd (h.digits '+' List.mem_cons_self) (by decide)

section
variable [IpAddress A]

namespace IpPrefix

omit [AddressText A] in
theorem new_eq_ok {ip : A} {mask : BitVec 8} {p : IpPrefix A} :
    new ip mask = .ok p ↔ ip = p.ip ∧ mask = p.mask := by
  unfold new
  constructor
  · intro h
    split at h
    · cases h
    · cases h
      exact ⟨rfl, rfl⟩
  · intro h
    obtain ⟨rfl, rfl⟩ := h
    rw [dif_neg (BitVec.not_lt.mpr p.mask_le)]

theorem fromStr_eq_ok {s : Text} {p : IpPrefix A} :
    fromStr s = .ok p ↔ ∃ a b, FirstSplit ['/'] s a b ∧ parseAddr a = some p.ip ∧
      parseUnsigned 8 b = some p.mask := by
  unfold fromStr
  simp only [okOr_bind_eq_ok, mapError_eq_ok, Prod.exists, splitOnce_eq_some, new_eq_ok]
  constructor
  · intro h
    obtain ⟨a, b, hsplit, ip, hip, mask, hmask, rfl, rfl⟩ := h
    exact ⟨a, b, hsplit, hip, hmask⟩
  · intro h
    obtain ⟨a, b, hsplit, hip, hmask⟩ := h
    exact ⟨a, b, hsplit, p.ip, hip, p.mask, hmask, rfl, rfl⟩

theorem fromStr_eq_missingSeparator {s : Text} :
    (fromStr s : Except _ (IpPrefix A)) = .error .missingSeparator ↔ '/' ∉ s := by
  unfold fromStr
  simp [okOr_bind_eq_error, mapError_eq_error, splitOnce_eq_none, List.singleton_infix_iff]

theorem fromStr_eq_invalidAddress {s : Text} :
    (fromStr s : Except _ (IpPrefix A)) = .error .invalidAddress ↔ InvalidBefore A ['/'] s := by
  unfold fromStr InvalidBefore
  simp [okOr_bind_eq_error, mapError_eq_error, splitOnce_eq_some]

/-- There is no other way to fail. -/
theorem fromStr_eq_invalidMask {s : Text} :
    (fromStr s : Except _ (IpPrefix A)) = .error .invalidMask ↔
      '/' ∈ s ∧ ¬ InvalidBefore A ['/'] s ∧ ¬ ∃ p : IpPrefix A, fromStr s = .ok p := by
  rw [← fromStr_eq_invalidAddress, ← Decidable.not_not (p := '/' ∈ s),
    ← fromStr_eq_missingSeparator (A := A)]
  cases (fromStr s : Except _ (IpPrefix A)) with
  | ok p => simp
  | error e => cases e <;> simp

end IpPrefix

theorem PrefixText.le {Len : Text → ℕ → Prop} {s : Text} {ip : A} {n : ℕ}
    (h : PrefixText Len s ip n) : n ≤ (IpAddress.BITS A).toNat := by
  obtain ⟨_, _, _, _, _, hn⟩ := h
  exact hn

theorem prefixText_optionalPlus_iff {s : Text} {ip : A} {n : ℕ} :
    PrefixText OptionalPlus s ip n ↔ PrefixText Decimal s ip n ∨ PrefixText WithPlus s ip n := by
  constructor
  · intro h
    obtain ⟨addr, len, hs, haddr, hlen, hn⟩ := h
    exact (optionalPlus_iff.mp hlen).imp (fun hd => ⟨addr, len, hs, haddr, hd, hn⟩)
      (fun hp => ⟨addr, len, hs, haddr, hp, hn⟩)
  · intro h
    rcases h with ⟨addr, len, hs, haddr, hlen, hn⟩ | ⟨addr, len, hs, haddr, hlen, hn⟩
    · exact ⟨addr, len, hs, haddr, optionalPlus_iff.mpr (Or.inl hlen), hn⟩
    · exact ⟨addr, len, hs, haddr, optionalPlus_iff.mpr (Or.inr hlen), hn⟩

/-- Grammars with the same texts are decided alike. -/
theorem PrefixGrammar.congr {Len Len' : Text → ℕ → Prop} {s : Text} (h : PrefixGrammar A Len s)
    (hsame : ∀ (ip : A) (n : ℕ), PrefixText Len s ip n ↔ PrefixText Len' s ip n) :
    PrefixGrammar A Len' s where
  succeeds := by simpa only [hsame] using h.succeeds
  ok := by simpa only [hsame] using h.ok
  missingSeparator := h.missingSeparator
  invalidAddress := h.invalidAddress
  invalidMask := by simpa only [hsame] using h.invalidMask

variable [LawfulAddressText A]

/-- Where the text splits first, no other slash can be the separator. -/
theorem prefixText_iff {Len : Text → ℕ → Prop} {s : Text} {ip : A} {n : ℕ} :
    PrefixText Len s ip n ↔ ∃ a b, FirstSplit ['/'] s a b ∧ parseAddr a = some ip ∧ Len b n ∧
      n ≤ (IpAddress.BITS A).toNat := by
  constructor
  · intro h
    obtain ⟨addr, len, rfl, haddr, hlen⟩ := h
    exact ⟨addr, len, (LawfulAddressText.shape haddr).firstSplit_slash len, haddr, hlen⟩
  · intro h
    obtain ⟨a, b, hsplit, ha, hb⟩ := h
    exact ⟨a, b, (firstSplit_singleton.mp hsplit).1, ha, hb⟩

/-- The length text of a text is signed or not. -/
theorem PrefixText.not_withPlus {s : Text} {ip ip' : A} {n n' : ℕ} (h : PrefixText Decimal s ip n) :
    ¬ PrefixText WithPlus s ip' n' := by
  intro h'
  obtain ⟨a, b, hsplit, _, hb, _⟩ := prefixText_iff.mp h
  obtain ⟨a', b', hsplit', _, hb', _⟩ := prefixText_iff.mp h'
  rw [← (hsplit.unique hsplit').2] at hb'
  exact not_withPlus_of_decimal hb hb'

/-- A prefix is read from its texts, with or without a `+`. -/
theorem IpPrefix.fromStr_eq_ok_iff_text {s : Text} {p : IpPrefix A} :
    IpPrefix.fromStr s = .ok p ↔ PrefixText OptionalPlus s p.ip p.mask.toNat := by
  have hmask : p.mask.toNat ≤ (IpAddress.BITS A).toNat := p.mask_le
  rw [IpPrefix.fromStr_eq_ok, prefixText_iff]
  simp only [parseUnsigned_eq_some (show 10 < 2 ^ 8 by decide), OptionalPlus, hmask, and_true]

theorem IpPrefix.exists_fromStr_eq_ok {s : Text} :
    (∃ p : IpPrefix A, IpPrefix.fromStr s = .ok p) ↔
      ∃ (ip : A) (n : ℕ), PrefixText OptionalPlus s ip n := by
  constructor
  · intro h
    obtain ⟨p, hp⟩ := h
    exact ⟨p.ip, p.mask.toNat, IpPrefix.fromStr_eq_ok_iff_text.mp hp⟩
  · intro h
    obtain ⟨ip, n, htext⟩ := h
    have hn := htext.le
    -- the lengths of a family fit into the eight bits
    have hmask : (BitVec.ofNat 8 n).toNat = n := by
      rw [BitVec.toNat_ofNat, Nat.mod_eq_of_lt (hn.trans_lt (IpAddress.BITS A).isLt)]
    have hle : BitVec.ofNat 8 n ≤ IpAddress.BITS A := by
      rw [BitVec.le_def, hmask]
      exact hn
    have htext' : PrefixText OptionalPlus s ip (BitVec.ofNat 8 n).toNat := by
      rw [hmask]
      exact htext
    exact ⟨⟨ip, BitVec.ofNat 8 n, hle⟩, IpPrefix.fromStr_eq_ok_iff_text.mpr htext'⟩

/-- The grammar that `from_str` decides on every text. -/
theorem prefixGrammar_optionalPlus (s : Text) : PrefixGrammar A OptionalPlus s where
  succeeds := IpPrefix.exists_fromStr_eq_ok
  ok _ := IpPrefix.fromStr_eq_ok_iff_text
  missingSeparator := IpPrefix.fromStr_eq_missingSeparator
  invalidAddress := by
    rw [IpPrefix.fromStr_eq_invalidAddress]
    exact ⟨fun h => ⟨h.sep_infix.subset List.mem_cons_self, h⟩, And.right⟩
  invalidMask := by
    rw [IpPrefix.fromStr_eq_invalidMask, IpPrefix.exists_fromStr_eq_ok]

/-- **Prefixes.**  `from_str` decides the grammar of an address, a slash and a decimal length in
    the family's range, and reports the first part that is wrong, for every text but those that
    are right up to a `+` before the length. -/
theorem prefixGrammar_decimal_iff (s : Text) :
    PrefixGrammar A Decimal s ↔ ¬ ∃ (ip : A) (n : ℕ), PrefixText WithPlus s ip n := by
  have hplus := prefixGrammar_optionalPlus (A := A) s
  constructor
  · intro hdecimal hin
    obtain ⟨ip, n, htext⟩ := hin
    -- the text is accepted, but its length has a sign
    obtain ⟨p, hp⟩ := hplus.succeeds.mpr ⟨ip, n, prefixText_optionalPlus_iff.mpr (Or.inr htext)⟩
    exact ((hdecimal.ok p).mp hp).not_withPlus htext
  · intro hno
    apply hplus.congr
    intro ip n
    rw [prefixText_optionalPlus_iff]
    exact or_iff_left fun htext => hno ⟨ip, n, htext⟩

/-- A `+` before the length is not noticed. -/
theorem prefixGrammar_decimal_plus :
    ¬ PrefixGrammar Ipv4Addr Decimal "192.168.1.0/+24".toList := by
  intro h
  have haddr : (parseAddr "192.168.1.0".toList : Option Ipv4Addr) = some ⟨0xc0a80100#32⟩ := by
    decide +kernel
  have hlen : WithPlus ['+', '2', '4'] 24 := ⟨['2', '4'], rfl, by simp, by simp, rfl⟩
  have hok : IpPrefix.fromStr "192.168.1.0/+24".toList =
      .ok (⟨⟨0xc0a80100#32⟩, 24#8, by decide⟩ : IpPrefix Ipv4Addr) := by
    decide +kernel
  have htext : PrefixText WithPlus "192.168.1.0/+24".toList (⟨0xc0a80100#32⟩ : Ipv4Addr) 24 :=
    ⟨_, _, by decide, haddr, hlen, by decide⟩
  exact ((h.ok _).mp hok).not_withPlus htext

/-- The text from the documentation has no sign. -/
theorem prefixGrammar_decimal_unsigned :
    PrefixGrammar Ipv4Addr Decimal "192.168.1.0/24".toList := by
  have haddr : (parseAddr "192.168.1.0".toList : Option Ipv4Addr) = some ⟨0xc0a80100#32⟩ := by
    decide +kernel
  have hlen : Decimal ['2', '4'] 24 := ⟨by simp, by simp, rfl⟩
  have htext : PrefixText Decimal "192.168.1.0/24".toList (⟨0xc0a80100#32⟩ : Ipv4Addr) 24 :=
    ⟨_, _, by decide, haddr, hlen, by decide⟩
  exact (prefixGrammar_decimal_iff _).mpr fun hin => htext.not_withPlus hin.choose_spec.choose_spec

end

/-! ## Section 2: Ranges -/

/-- `s` is a text of the addresses `x` and `y` with `..` between them. -/
def RangeText (s : Text) (x y : A) : Prop :=
  ∃ a b, s = a ++ ['.', '.'] ++ b ∧ parseAddr a = some x ∧ parseAddr b = some y

variable (A) in
/-- `IpRange::from_str` decides at `s` the grammar of two addresses around `..`, and fails for
    the first part that is wrong. -/
structure RangeGrammar (s : Text) : Prop where
  ok : ∀ x y : A, IpRange.fromStr s = .ok (IpRange.new x y) ↔ RangeText s x y
  unique : ∀ a b a' b', s = a ++ ['.', '.'] ++ b → s = a' ++ ['.', '.'] ++ b' →
    (parseAddr a : Option A).isSome → (parseAddr b : Option A).isSome →
    (parseAddr a' : Option A).isSome → (parseAddr b' : Option A).isSome → a = a' ∧ b = b'
  missingSeparator : (IpRange.fromStr s : Except _ (IpRange A)) = .error .missingSeparator ↔
    ¬ ['.', '.'] <:+: s
  invalidStart : (IpRange.fromStr s : Except _ (IpRange A)) = .error .invalidStart ↔
    ['.', '.'] <:+: s ∧ InvalidBefore A ['.', '.'] s
  invalidEnd : (IpRange.fromStr s : Except _ (IpRange A)) = .error .invalidEnd ↔
    ['.', '.'] <:+: s ∧ ¬ InvalidBefore A ['.', '.'] s ∧ ¬ ∃ x y : A, RangeText s x y

namespace IpRange

theorem fromStr_eq_ok {s : Text} {x y : A} :
    fromStr s = .ok (new x y) ↔ ∃ a b, FirstSplit ['.', '.'] s a b ∧ parseAddr a = some x ∧
      parseAddr b = some y := by
  unfold fromStr
  simp only [okOr_bind_eq_ok, Prod.exists, splitOnce_eq_some]
  constructor
  · intro h
    obtain ⟨a, b, hsplit, x', hx, y', hy, hr⟩ := h
    cases hr
    exact ⟨a, b, hsplit, hx, hy⟩
  · intro h
    obtain ⟨a, b, hsplit, hx, hy⟩ := h
    exact ⟨a, b, hsplit, x, hx, y, hy, rfl⟩

theorem fromStr_eq_missingSeparator {s : Text} :
    (fromStr s : Except _ (IpRange A)) = .error .missingSeparator ↔ ¬ ['.', '.'] <:+: s := by
  unfold fromStr
  simp [okOr_bind_eq_error, splitOnce_eq_none, pure, Except.pure]

theorem fromStr_eq_invalidStart {s : Text} :
    (fromStr s : Except _ (IpRange A)) = .error .invalidStart ↔
      InvalidBefore A ['.', '.'] s := by
  unfold fromStr InvalidBefore
  simp [okOr_bind_eq_error, splitOnce_eq_some, pure, Except.pure]

/-- There is no other way to fail. -/
theorem fromStr_eq_invalidEnd {s : Text} :
    (fromStr s : Except _ (IpRange A)) = .error .invalidEnd ↔
      ['.', '.'] <:+: s ∧ ¬ InvalidBefore A ['.', '.'] s ∧
        ¬ ∃ x y : A, fromStr s = .ok (new x y) := by
  rw [← fromStr_eq_invalidStart, ← not_not (a := ['.', '.'] <:+: s),
    ← fromStr_eq_missingSeparator (A := A)]
  cases (fromStr s : Except _ (IpRange A)) with
  | ok r => exact iff_of_false (fun h => nomatch h) (fun h => h.2.2 ⟨r.start, r.end_, rfl⟩)
  | error e => cases e <;> simp

end IpRange

section
variable [LawfulAddressText A]

/-- Where the text splits first, no other two dots can be the separator. -/
theorem rangeText_iff {s : Text} {x y : A} :
    RangeText s x y ↔ ∃ a b, FirstSplit ['.', '.'] s a b ∧ parseAddr a = some x ∧
      parseAddr b = some y := by
  constructor
  · intro h
    obtain ⟨a, b, rfl, ha, hb⟩ := h
    exact ⟨a, b, (LawfulAddressText.shape ha).firstSplit_dots b, ha, hb⟩
  · intro h
    obtain ⟨a, b, hsplit, ha, hb⟩ := h
    exact ⟨a, b, hsplit.eq, ha, hb⟩

/-- A range is read from its texts. -/
theorem IpRange.fromStr_eq_ok_iff_text {s : Text} {x y : A} :
    IpRange.fromStr s = .ok (IpRange.new x y) ↔ RangeText s x y := by
  rw [IpRange.fromStr_eq_ok, rangeText_iff]

/-- **Ranges.**  `from_str` decides the grammar of two addresses around `..`, in any order, and
    reports the first part that is wrong; a text has one split into two addresses at most. -/
theorem rangeGrammar (s : Text) : RangeGrammar A s where
  ok _ _ := IpRange.fromStr_eq_ok_iff_text
  unique := by
    intro a b a' b' hs hs' ha _ ha' _
    obtain ⟨x, hx⟩ := Option.isSome_iff_exists.mp ha
    obtain ⟨x', hx'⟩ := Option.isSome_iff_exists.mp ha'
    have hsplit := (LawfulAddressText.shape hx).firstSplit_dots b
    have hsplit' := (LawfulAddressText.shape hx').firstSplit_dots b'
    rw [← hs] at hsplit
    rw [← hs'] at hsplit'
    exact hsplit.unique hsplit'
  missingSeparator := IpRange.fromStr_eq_missingSeparator
  invalidStart := by
    rw [IpRange.fromStr_eq_invalidStart]
    exact ⟨fun h => ⟨h.sep_infix, h⟩, And.right⟩
  invalidEnd := by
    simp only [IpRange.fromStr_eq_invalidEnd, IpRange.fromStr_eq_ok_iff_text]

/-- The first address ends in a dotted part, right before the separator, and is the greater. -/
theorem rangeGrammar_mapped :
    IpRange.fromStr "::ffff:1.2.3.4..::1".toList =
      .ok (IpRange.new (⟨0xffff01020304#128⟩ : Ipv6Addr) ⟨1#128⟩) := by
  have hx : (parseAddr "::ffff:1.2.3.4".toList : Option Ipv6Addr) = some ⟨0xffff01020304#128⟩ := by
    decide +kernel
  have hy : (parseAddr "::1".toList : Option Ipv6Addr) = some ⟨1#128⟩ := by
    decide +kernel
  exact ((rangeGrammar _).ok _ _).mpr ⟨_, _, rfl, hx, hy⟩

/-! ## Section 3: Printing and parsing -/

/-- The text of a range is read back. -/
theorem IpRange.readsBack : ReadsBack IpRange.fromStr (IpRange.fmt : IpRange A → Text) := by
  intro r
  have htext : RangeText r.fmt r.start r.end_ :=
    ⟨_, _, rfl, LawfulAddressText.parseAddr_fmt _, LawfulAddressText.parseAddr_fmt _⟩
  exact IpRange.fromStr_eq_ok_iff_text.mpr htext

/-- The text of a prefix is read back. -/
theorem IpPrefix.readsBack [IpAddress A] :
    ReadsBack IpPrefix.fromStr (IpPrefix.fmt : IpPrefix A → Text) := by
  intro p
  have haddr : parseAddr (AddressText.fmt p.ip) = some p.ip :=
    LawfulAddressText.parseAddr_fmt p.ip
  have hsplit : FirstSplit ['/'] p.fmt (AddressText.fmt p.ip) (displayUnsigned p.mask) := by
    have h := (LawfulAddressText.shape haddr).firstSplit_slash (displayUnsigned p.mask)
    unfold IpPrefix.fmt
    rwa [List.append_assoc]
  exact IpPrefix.fromStr_eq_ok.mpr
    ⟨_, _, hsplit, haddr, parseUnsigned_displayUnsigned (by decide) p.mask⟩

/-- **Round trip.**  Ranges and prefixes are read back from what they print, also those that
    were themselves read, and distinct ones print differently. -/
theorem fromStr_fmt [IpAddress A] :
    (∀ r : IpRange A, IpRange.fromStr r.fmt = .ok r) ∧
    (∀ (ip : A) (mask : BitVec 8) (p : IpPrefix A), IpPrefix.new ip mask = .ok p →
      IpPrefix.fromStr p.fmt = .ok p) ∧
    (∀ (s : Text) (r : IpRange A), IpRange.fromStr s = .ok r → IpRange.fromStr r.fmt = .ok r) ∧
    (∀ (s : Text) (p : IpPrefix A), IpPrefix.fromStr s = .ok p →
      IpPrefix.fromStr p.fmt = .ok p) ∧
    Function.Injective (IpRange.fmt : IpRange A → Text) ∧
    Function.Injective (IpPrefix.fmt : IpPrefix A → Text) := by
  have hrange : ReadsBack IpRange.fromStr (IpRange.fmt : IpRange A → Text) := IpRange.readsBack
  have hpre : ReadsBack IpPrefix.fromStr (IpPrefix.fmt : IpPrefix A → Text) :=
    IpPrefix.readsBack
  exact ⟨hrange, fun _ _ p _ => hpre p, fun _ r _ => hrange r, fun _ p _ => hpre p,
    hrange.injective, hpre.injective⟩

/-- An inverted range, and a prefix all of whose bits are host bits. -/
theorem fromStr_fmt_mapped :
    (∃ r : IpRange Ipv6Addr, r.isValid = false ∧ IpRange.fromStr r.fmt = .ok r) ∧
      ∃ p : IpPrefix Ipv6Addr, p.mask = 0 ∧ p.ip ≠ ⟨0⟩ ∧ IpPrefix.fromStr p.fmt = .ok p := by
  have hnew : IpPrefix.new (⟨0xffff01020304#128⟩ : Ipv6Addr) 0 =
      .ok ⟨⟨0xffff01020304#128⟩, 0, by decide⟩ := rfl
  exact ⟨⟨IpRange.new ⟨0xffff01020304#128⟩ ⟨1#128⟩, by decide, fromStr_fmt.1 _⟩,
    ⟨_, rfl, by decide, fromStr_fmt.2.1 _ _ _ hnew⟩⟩

end

end Ipnetx
