import Mathlib.Data.List.Chain
import Ipnetx.Model.AddressText

/-! # Address Texts

    Both address families are lawful: what they print is read back, and what
    they accept has the shape of an address text.

    The shape is closed under concatenation, and under joining two non-empty
    texts with a dot (`IsAddressText.append`, `IsAddressText.dot`), so every
    reader consumes an address text. -/

namespace Ipnetx

open Machine

/-! ## Section 1: Address texts -/

namespace IsAddressText

variable {s t : Text}

/-- There are no two dots in a row exactly when no dot follows a dot. -/
private theorem not_dots_iff :
    ¬ ['.', '.'] <:+: s ↔ s.IsChain fun c d => ¬ (c = '.' ∧ d = '.') := by
  rw [List.isChain_iff_forall_rel_of_append_cons_cons]
  constructor
  · intro h c d u v heq hcd
    rw [hcd.1, hcd.2] at heq
    exact h ⟨u, v, by rw [heq, List.append_assoc]; rfl⟩
  · intro h hin
    obtain ⟨u, v, heq⟩ := hin
    rw [List.append_assoc] at heq
    exact h heq.symm ⟨rfl, rfl⟩

theorem slash_not_mem (hs : IsAddressText s) : '/' ∉ s := by
  intro hin
  exact absurd (hs.chars '/' hin) (by decide)

/-- A text without dots. -/
theorem of_no_dot (h : ∀ c ∈ s, c.isHexDigit = true ∨ c = ':') : IsAddressText s := by
  have hdot : '.' ∉ s := by
    intro hin
    exact absurd (h '.' hin) (by decide)
  exact {
    chars := fun c hc => (h c hc).imp_right Or.inl
    single := fun hin => hdot (hin.subset List.mem_cons_self)
    head := fun hhead => hdot (List.mem_of_mem_head? hhead)
    last := fun hlast => hdot (List.mem_of_getLast? hlast) }

theorem append (hs : IsAddressText s) (ht : IsAddressText t) : IsAddressText (s ++ t) where
  chars := by
    intro c hc
    exact (List.mem_append.mp hc).elim (hs.chars c) (ht.chars c)
  single := by
    have hjoin : ∀ c ∈ s.getLast?, ∀ d ∈ t.head?, ¬ (c = '.' ∧ d = '.') := by
      intro c hc d _ hcd
      exact hs.last (hcd.1 ▸ hc)
    rw [not_dots_iff, List.isChain_append]
    exact ⟨not_dots_iff.mp hs.single, not_dots_iff.mp ht.single, hjoin⟩
  head := by
    rw [List.head?_append]
    cases h : s.head? with
    | none => simpa using ht.head
    | some c =>
      rw [Option.some_or, ← h]
      exact hs.head
  last := by
    rw [List.getLast?_append]
    cases h : t.getLast? with
    | none => simpa using hs.last
    | some c =>
      rw [Option.some_or, ← h]
      exact ht.last

/-- A dot may stand between two non-empty texts. -/
theorem dot (hs : IsAddressText s) (ht : IsAddressText t) (hsne : s ≠ []) (htne : t ≠ []) :
    IsAddressText (s ++ '.' :: t) where
  chars := by
    intro c hc
    rcases List.mem_append.mp hc with h | h
    · exact hs.chars c h
    · rcases List.mem_cons.mp h with rfl | h
      · exact Or.inr (Or.inr rfl)
      · exact ht.chars c h
  single := by
    have hbefore : ∀ c ∈ s.getLast?, ∀ d ∈ ('.' :: t).head?, ¬ (c = '.' ∧ d = '.') := by
      intro c hc d _ hcd
      exact hs.last (hcd.1 ▸ hc)
    have hafter : ∀ c ∈ t.head?, ¬ ('.' = '.' ∧ c = '.') := by
      intro c hc hcd
      exact ht.head (hcd.2 ▸ hc)
    rw [not_dots_iff, List.isChain_append, List.isChain_cons]
    exact ⟨not_dots_iff.mp hs.single, ⟨hafter, not_dots_iff.mp ht.single⟩, hbefore⟩
  head := by
    rw [List.head?_append_of_ne_nil _ hsne]
    exact hs.head
  last := by
    rw [List.getLast?_append_of_ne_nil _ (List.cons_ne_nil _ _), List.getLast?_cons_of_ne_nil htne]
    exact ht.last

/-- The first slash after an address is the separator, whatever follows it. -/
theorem firstSplit_slash (hs : IsAddressText s) (t : Text) :
    FirstSplit ['/'] (s ++ '/' :: t) s t :=
  firstSplit_singleton.mpr ⟨rfl, hs.slash_not_mem⟩

/-- The first `..` after an address is the separator, also when more dots follow it. -/
theorem firstSplit_dots (hs : IsAddressText s) (t : Text) :
    FirstSplit ['.', '.'] (s ++ ['.', '.'] ++ t) s t := by
  have hjoin : ∀ c ∈ s.getLast?, ∀ d ∈ ['.'].head?, ¬ (c = '.' ∧ d = '.') := by
    intro c hc d _ hcd
    exact hs.last (hcd.1 ▸ hc)
  have hno : ¬ ['.', '.'] <:+: s ++ ['.'] := by
    rw [not_dots_iff, List.isChain_append]
    exact ⟨not_dots_iff.mp hs.single, List.isChain_singleton _, hjoin⟩
  exact FirstSplit.intro (List.cons_ne_nil _ _) rfl hno

end IsAddressText

/-- Digits are hexadecimal digits. -/
theorem isHexDigit_of_isDigitIn {radix : ℕ} (h16 : radix ≤ 16) {c : Char}
    (h : isDigitIn radix c = true) : c.isHexDigit = true := by
  obtain ⟨d, hd⟩ := Option.isSome_iff_exists.mp h
  obtain ⟨hval, hlt⟩ := Option.filter_eq_some_iff.mp hd
  have hlt' : d < radix := of_decide_eq_true hlt
  unfold alnumValue at hval
  unfold Char.isHexDigit
  simp only [Bool.or_eq_true, Bool.and_eq_true, decide_eq_true_eq, ge_iff_le,
    UInt32.le_iff_toNat_le]
  split at hval
  · next hc => exact Or.inl (Or.inl hc)
  · split at hval
    · next hc =>
      cases hval
      unfold Char.isLower at hc
      simp only [Bool.and_eq_true, decide_eq_true_eq, ge_iff_le, UInt32.le_iff_toNat_le] at hc
      have ha : 'a'.toNat = 97 := rfl
      have hf : 'f'.val.toNat = 102 := rfl
      have hv : c.toNat = c.val.toNat := rfl
      exact Or.inl (Or.inr ⟨hc.1, by omega⟩)
    · split at hval
      · next hc =>
        cases hval
        unfold Char.isUpper at hc
        simp only [decide_eq_true_eq, ge_iff_le, UInt32.le_iff_toNat_le] at hc
        have ha : 'A'.toNat = 65 := rfl
        have hf : 'F'.val.toNat = 70 := rfl
        have hv : c.toNat = c.val.toNat := rfl
        exact Or.inr ⟨hc.1, by omega⟩
      · cases hval

/-- What `readNumber` takes off the front. -/
theorem readNumber_consumes {w radix maxDigits : ℕ} {z : Bool} {s rest : Text} {n : BitVec w}
    (h16 : radix ≤ 16) (h : readNumber w radix maxDigits z s = some (n, rest)) :
    ∃ t, s = t ++ rest ∧ t ≠ [] ∧ IsAddressText t := by
  obtain ⟨ds, hs, hne, hds, _⟩ := readNumber_eq_some h
  exact ⟨ds, hs, hne, .of_no_dot fun c hc => Or.inl (isHexDigit_of_isDigitIn h16 (hds c hc))⟩

/-! ## Section 2: `Ipv4Addr` -/

namespace Ipv4Addr

theorem new_octets (a : Ipv4Addr) : new (a.octet 0) (a.octet 1) (a.octet 2) (a.octet 3) = a := by
  have hbits : a.octet 0 ++ a.octet 1 ++ a.octet 2 ++ a.octet 3 = a.bits := by
    apply BitVec.eq_of_getLsbD_eq
    intro i hi
    simp only [octet, BitVec.getLsbD_append, BitVec.getLsbD_extractLsb']
    grind
  show Ipv4Addr.mk _ = a
  rw [hbits]

/-- An octet is read back, up to a dot or another character that is no digit. -/
theorem readOctet_displayUnsigned (n : BitVec 8) {rest : Text}
    (hrest : ∀ c ∈ rest.head?, isDigitIn 10 c = false) :
    readOctet (displayUnsigned n ++ rest) = some (n, rest) :=
  readNumber_toDigits (by decide) (by decide) n (by decide) (n.isLt.trans (by decide)) hrest

/-- The address is read back when no digit follows it. -/
theorem read_fmt (a : Ipv4Addr) {rest : Text} (hrest : ∀ c ∈ rest.head?, isDigitIn 10 c = false) :
    read (a.fmt ++ rest) = some (a, rest) := by
  have hdot : ∀ t : Text, ∀ c ∈ ('.' :: t).head?, isDigitIn 10 c = false := by
    intro t c hc
    cases hc
    decide
  unfold read fmt
  simp only [readSeparator_zero, readSeparator_succ, List.append_assoc, List.cons_append,
    readOctet_displayUnsigned _ (hdot _), readOctet_displayUnsigned _ hrest,
    Option.bind_eq_bind, Option.bind_some, readGivenChar_cons_self, new_octets]
  rfl

theorem read_fmt_self (a : Ipv4Addr) : read a.fmt = some (a, []) := by
  have h : read (a.fmt ++ []) = some (a, []) := a.read_fmt fun _ hc => absurd hc (by simp)
  rwa [List.append_nil] at h

/-- What `read` takes off the front: four groups of digits joined by dots. -/
theorem read_consumes {s rest : Text} {a : Ipv4Addr} (h : read s = some (a, rest)) :
    ∃ t, s = t ++ rest ∧ t ≠ [] ∧ IsAddressText t := by
  unfold read at h
  simp only [readSeparator_zero, readSeparator_succ, Option.bind_eq_bind, Option.bind_eq_some_iff,
    Prod.exists, readGivenChar_eq_some] at h
  obtain ⟨n₀, s₀, h₀, n₁, s₁, ⟨u₁, rfl, h₁⟩, n₂, s₂, ⟨u₂, rfl, h₂⟩, n₃, s₃, ⟨u₃, rfl, h₃⟩,
    hend⟩ := h
  obtain ⟨t₀, rfl, hne₀, ht₀⟩ := readNumber_consumes (by decide) h₀
  obtain ⟨t₁, rfl, hne₁, ht₁⟩ := readNumber_consumes (by decide) h₁
  obtain ⟨t₂, rfl, hne₂, ht₂⟩ := readNumber_consumes (by decide) h₂
  obtain ⟨t₃, rfl, hne₃, ht₃⟩ := readNumber_consumes (by decide) h₃
  cases hend
  have h23 := ht₂.dot ht₃ hne₂ hne₃
  have h13 := ht₁.dot h23 hne₁ (List.append_ne_nil_of_left_ne_nil hne₂ _)
  have h03 := ht₀.dot h13 hne₀ (List.append_ne_nil_of_left_ne_nil hne₁ _)
  exact ⟨_, by simp, List.append_ne_nil_of_left_ne_nil hne₀ _, h03⟩

instance : LawfulAddressText Ipv4Addr where
  parseAddr_fmt a := parseWith_eq_some.mpr a.read_fmt_self
  shape h := by
    obtain ⟨t, hs, _, ht⟩ := read_consumes (parseWith_eq_some.mp h)
    rw [hs, List.append_nil]
    exact ht

end Ipv4Addr

/-! ## Section 3: `Ipv6Addr`, what is accepted -/

namespace Ipv6Addr

theorem isAddressText_colon : IsAddressText [':'] :=
  .of_no_dot fun _ hc => Or.inr (List.mem_singleton.mp hc)

/-- A separator is a colon, so it is consumed as an address text as well. -/
theorem readSeparator_consumes {β : Type} {inner : Text → Option (β × Text)}
    (hinner : ∀ {s rest : Text} {a : β}, inner s = some (a, rest) →
      ∃ t, s = t ++ rest ∧ t ≠ [] ∧ IsAddressText t)
    {i : ℕ} {s rest : Text} {a : β} (h : readSeparator ':' i inner s = some (a, rest)) :
    ∃ t, s = t ++ rest ∧ IsAddressText t := by
  cases i with
  | zero =>
    obtain ⟨t, hs, _, ht⟩ := hinner h
    exact ⟨t, hs, ht⟩
  | succ i =>
    rw [readSeparator_succ, Option.bind_eq_some_iff] at h
    obtain ⟨s', hs', h'⟩ := h
    obtain ⟨t, rfl, _, ht⟩ := hinner h'
    exact ⟨':' :: t, readGivenChar_eq_some.mp hs', isAddressText_colon.append ht⟩

theorem readGroups_consumes (i n : ℕ) (s : Text) :
    ∃ t, s = t ++ (readGroups i n s).rest ∧ IsAddressText t := by
  have hnil : IsAddressText [] := .of_no_dot fun _ hc => absurd hc List.not_mem_nil
  induction n generalizing i s with
  | zero => exact ⟨[], rfl, hnil⟩
  | succ n ih =>
    unfold readGroups
    split
    · next ipv4 s' h =>
      -- the groups end with an IPv4 address
      split at h
      · exact readSeparator_consumes Ipv4Addr.read_consumes h
      · cases h
    · split
      · next group s' h =>
        obtain ⟨t, rfl, ht⟩ :=
          readSeparator_consumes (readNumber_consumes (by decide)) h
        obtain ⟨t', hs', ht'⟩ := ih (i + 1) s'
        have hs : t ++ s' = t ++ t' ++ (readGroups (i + 1) n s').rest := by
          rw [List.append_assoc, ← hs']
        exact ⟨t ++ t', hs, ht.append ht'⟩
      · exact ⟨[], rfl, hnil⟩

theorem read_consumes {s rest : Text} {a : Ipv6Addr} (h : read s = some (a, rest)) :
    ∃ t, s = t ++ rest ∧ IsAddressText t := by
  obtain ⟨t, hs, ht⟩ := readGroups_consumes 0 8 s
  unfold read at h
  simp only at h
  split at h
  · rw [Option.some.injEq, Prod.mk.injEq] at h
    exact ⟨t, h.2 ▸ hs, ht⟩
  · split at h
    · cases h
    · simp only [Option.bind_eq_bind, Option.bind_eq_some_iff, readGivenChar_eq_some] at h
      obtain ⟨s₁, h₁, s₂, h₂, hend⟩ := h
      obtain ⟨t', hs', ht'⟩ := readGroups_consumes 0 (8 - ((readGroups 0 8 s).groups.length + 1)) s₂
      cases hend
      have htext : IsAddressText (t ++ ([':'] ++ ([':'] ++ t'))) :=
        ht.append (isAddressText_colon.append (isAddressText_colon.append ht'))
      refine ⟨_, ?_, htext⟩
      calc s = t ++ (readGroups 0 8 s).rest := hs
        _ = t ++ ':' :: ':' :: s₂ := by rw [h₁, h₂]
        _ = t ++ ':' :: ':' :: (t' ++ _) := congrArg (fun u => t ++ ':' :: ':' :: u) hs'
        _ = _ := by simp

/-! ## Section 4: `Ipv6Addr`, what is printed -/

/-- A colon is no digit. -/
theorem isDigitIn_colon {radix : ℕ} (h16 : radix ≤ 16) {rest : Text}
    (hrest : ∀ c ∈ rest.head?, c = ':') : ∀ c ∈ rest.head?, isDigitIn radix c = false := by
  intro c hc
  rw [hrest c hc]
  by_contra hdigit
  rw [Bool.not_eq_false] at hdigit
  exact absurd (isHexDigit_of_isDigitIn h16 hdigit) (by decide)

theorem dot_not_mem_fmtSegment (segment : BitVec 16) : '.' ∉ fmtSegment segment := by
  intro hin
  have hdigit := isDigitIn_of_mem_toDigits (by decide) (by decide) hin
  exact absurd (isHexDigit_of_isDigitIn le_rfl hdigit) (by decide)

/-- A segment is read back. -/
theorem readNumber_fmtSegment (segment : BitVec 16) {rest : Text}
    (hrest : ∀ c ∈ rest.head?, c = ':') :
    readNumber 16 16 4 true (fmtSegment segment ++ rest) = some (segment, rest) := by
  have hlt : segment.toNat < 16 ^ 4 := segment.isLt
  exact readNumber_toDigits (by decide) le_rfl segment (by decide) hlt
    (isDigitIn_colon le_rfl hrest)

/-- A segment is not mistaken for the start of an IPv4 address: no dot follows its digits. -/
theorem read_fmtSegment (segment : BitVec 16) {rest : Text} (hrest : ∀ c ∈ rest.head?, c = ':') :
    Ipv4Addr.read (fmtSegment segment ++ rest) = none := by
  by_contra hread
  obtain ⟨r, hr⟩ := Option.ne_none_iff_exists'.mp hread
  unfold Ipv4Addr.read at hr
  simp only [readSeparator_zero, readSeparator_succ, Option.bind_eq_bind, Option.bind_eq_some_iff,
    Prod.exists, readGivenChar_eq_some] at hr
  obtain ⟨_, _, hoctet, _, _, ⟨u, rfl, _⟩, _⟩ := hr
  obtain ⟨ds, heq, _, hds, _⟩ := readNumber_eq_some hoctet
  rcases List.append_eq_append_iff.mp heq with ⟨x, hx, hrx⟩ | ⟨x, hx, hux⟩
  · -- the digits go on after the segment
    cases x with
    | nil => exact absurd (hrest '.' (by rw [hrx]; rfl)) (by decide)
    | cons c x =>
      have hc := hrest c (by rw [hrx]; rfl)
      have hdigit := hds c (by rw [hx]; simp)
      rw [hc] at hdigit
      exact absurd hdigit (by decide)
  · -- the dot is in the segment, or comes right after it
    cases x with
    | nil => exact absurd (hrest '.' (by rw [List.nil_append] at hux; rw [← hux]; rfl)) (by decide)
    | cons c x =>
      rw [List.cons_append, List.cons.injEq] at hux
      exact dot_not_mem_fmtSegment segment (by rw [hx, hux.1]; simp)

/-- A list of groups ends here: at the end of the text, or at `::`. -/
def Stops (rest : Text) : Prop := rest = [] ∨ ∃ t, rest = ':' :: ':' :: t

theorem Stops.head {rest : Text} (h : Stops rest) : ∀ c ∈ rest.head?, c = ':' := by
  intro c hc
  rcases h with rfl | ⟨t, rfl⟩
  · cases hc
  · cases hc
    rfl

theorem readSeparator_stops {β : Type} {inner : Text → Option (β × Text)} {rest : Text}
    (hrest : Stops rest) (hnil : inner [] = none) (hcolon : ∀ t, inner (':' :: t) = none) (i : ℕ) :
    readSeparator ':' i inner rest = none := by
  rcases hrest with rfl | ⟨t, rfl⟩
  · cases i with
    | zero => exact hnil
    | succ i => rfl
  · cases i with
    | zero => exact hcolon _
    | succ i => exact hcolon t

theorem readGroups_stops {rest : Text} (hrest : Stops rest) (i n : ℕ) :
    readGroups i n rest = { groups := [], ipv4 := false, rest } := by
  have h4 : readSeparator ':' i Ipv4Addr.read rest = none :=
    readSeparator_stops hrest rfl (fun _ => rfl) i
  have h6 : readSeparator ':' i (readNumber 16 16 4 true) rest = none :=
    readSeparator_stops hrest rfl (fun _ => rfl) i
  cases n with
  | zero => rfl
  | succ n =>
    unfold readGroups
    simp only [h4, h6, ite_self]

/-- The first segment of a list is read, and the reader goes on after it. -/
theorem readGroups_zero_fmtSegment (segment : BitVec 16) (n : ℕ) {rest : Text}
    (hrest : ∀ c ∈ rest.head?, c = ':') :
    readGroups 0 (n + 1) (fmtSegment segment ++ rest) =
      { readGroups 1 n rest with groups := segment :: (readGroups 1 n rest).groups } := by
  rw [readGroups]
  simp only [readSeparator_zero, read_fmtSegment segment hrest,
    readNumber_fmtSegment segment hrest, ite_self]

/-- Any other one is read with the colon before it. -/
theorem readGroups_succ_fmtSegment (segment : BitVec 16) (i n : ℕ) {rest : Text}
    (hrest : ∀ c ∈ rest.head?, c = ':') :
    readGroups (i + 1) (n + 1) (':' :: (fmtSegment segment ++ rest)) =
      { readGroups (i + 2) n rest with
        groups := segment :: (readGroups (i + 2) n rest).groups } := by
  rw [readGroups]
  simp only [readSeparator_succ, readGivenChar_cons_self, Option.bind_some,
    read_fmtSegment segment hrest, readNumber_fmtSegment segment hrest, ite_self]

/-- The texts of the segments after the first one. -/
theorem flatMap_head {segments : List (BitVec 16)} {rest : Text} (hrest : Stops rest) :
    ∀ c ∈ (segments.flatMap (fun segment => ':' :: fmtSegment segment) ++ rest).head?,
      c = ':' := by
  cases segments with
  | nil => exact hrest.head
  | cons segment segments =>
    intro c hc
    cases hc
    rfl

theorem readGroups_flatMap {rest : Text} (hrest : Stops rest) (i : ℕ) {n : ℕ}
    {segments : List (BitVec 16)} (h : segments.length ≤ n) :
    readGroups (i + 1) n (segments.flatMap (fun segment => ':' :: fmtSegment segment) ++ rest) =
      { groups := segments, ipv4 := false, rest } := by
  induction segments generalizing i n with
  | nil => exact readGroups_stops hrest _ _
  | cons segment segments ih =>
    cases n with
    | zero => exact absurd h (by simp)
    | succ n =>
      rw [List.flatMap_cons, List.cons_append, List.cons_append, List.append_assoc,
        readGroups_succ_fmtSegment segment i n (flatMap_head hrest),
        ih (i + 1) (Nat.le_of_succ_le_succ h)]

/-- Printed segments are read back, as many as there is room for. -/
theorem readGroups_fmtSubslice {rest : Text} (hrest : Stops rest) {n : ℕ}
    {segments : List (BitVec 16)} (h : segments.length ≤ n) :
    readGroups 0 n (fmtSubslice segments ++ rest) =
      { groups := segments, ipv4 := false, rest } := by
  cases segments with
  | nil => exact readGroups_stops hrest 0 n
  | cons first tail =>
    cases n with
    | zero => exact absurd h (by simp)
    | succ n =>
      rw [fmtSubslice, List.append_assoc,
        readGroups_zero_fmtSegment first n (flatMap_head hrest),
        readGroups_flatMap hrest 0 (Nat.le_of_succ_le_succ h)]

theorem readGroups_fmtSubslice_self {n : ℕ} {segments : List (BitVec 16)}
    (h : segments.length ≤ n) :
    readGroups 0 n (fmtSubslice segments) = { groups := segments, ipv4 := false, rest := [] } := by
  have hread := readGroups_fmtSubslice (Or.inl rfl : Stops []) h
  rwa [List.append_nil] at hread

/-- The segments of a run are zero. -/
def ZeroRun (segments : List (BitVec 16)) (run : Span) : Prop :=
  ∀ j, j < run.len → segments[run.start + j]? = some 0

/-- A run that ends in front of a zero grows by it. -/
theorem ZeroRun.grow {segments before after : List (BitVec 16)} {start len : ℕ}
    (h : ZeroRun segments ⟨start, len⟩) (hsegments : segments = before ++ 0 :: after)
    (hend : start + len = before.length) : ZeroRun segments ⟨start, len + 1⟩ := by
  intro j hj
  by_cases hlast : j = len
  · show segments[start + j]? = some 0
    rw [hlast, hend, hsegments, List.getElem?_append_right le_rfl, Nat.sub_self]
    rfl
  · have hj' : j < len + 1 := hj
    have hold : j < len := by omega
    exact h j hold

/-- Both runs that the loop carries are runs of zeros, and the current one ends at position `i`
    unless it is empty. -/
theorem zeroRun_longestZeros {segments before after : List (BitVec 16)}
    {longest current : Span} (hsegments : segments = before ++ after)
    (hlongest : ZeroRun segments longest) (hcurrent : ZeroRun segments current)
    (hend : current.len = 0 ∨ current.start + current.len = before.length) :
    ZeroRun segments (longestZeros before.length longest current after) := by
  induction after generalizing before longest current with
  | nil => exact hlongest
  | cons segment after ih =>
    have hlen : (before ++ [segment]).length = before.length + 1 := by
      rw [List.length_append, List.length_singleton]
    have hsegments' : segments = before ++ [segment] ++ after := by
      rw [hsegments, List.append_assoc, List.singleton_append]
    unfold longestZeros
    rw [← hlen]
    by_cases hzero : segment = 0
    · -- the current run grows by this segment
      rw [if_pos hzero]
      generalize hstart : (if current.len = 0 then before.length else current.start) = start
      have hends : start + current.len = before.length := by
        rw [← hstart]
        split
        · omega
        · omega
      have hrun : ZeroRun segments ⟨start, current.len⟩ := by
        intro j hj
        have hj' : j < current.len := hj
        have hsame : start = current.start := by
          rw [← hstart, if_neg (by omega)]
        rw [hsame]
        exact hcurrent j hj
      have hgrown := hrun.grow (hzero ▸ hsegments) hends
      refine ih hsegments' ?_ hgrown (Or.inr ?_)
      · split
        · exact hgrown
        · exact hlongest
      · show start + (current.len + 1) = (before ++ [segment]).length
        omega
    · rw [if_neg hzero]
      exact ih hsegments' hlongest (fun j hj => absurd hj (Nat.not_lt_zero j)) (Or.inl rfl)

/-- The segments around a run of zeros. -/
theorem ZeroRun.split {segments : List (BitVec 16)} {run : Span} (h : ZeroRun segments run) :
    segments = segments.take run.start ++ List.replicate run.len 0 ++
      segments.drop (run.start + run.len) := by
  have hzero : (segments.drop run.start).take run.len = List.replicate run.len 0 := by
    apply List.ext_getElem?
    intro j
    rw [List.getElem?_take, List.getElem?_drop, List.getElem?_replicate]
    by_cases hj : j < run.len
    · rw [if_pos hj, if_pos hj, h j hj]
    · rw [if_neg hj, if_neg hj]
  rw [← hzero, List.append_assoc, ← List.drop_drop, List.take_append_drop,
    List.take_append_drop]

theorem ZeroRun.le_length {segments : List (BitVec 16)} {run : Span} (h : ZeroRun segments run)
    (hpos : 0 < run.len) : run.start + run.len ≤ segments.length := by
  have hlast := h (run.len - 1) (by omega)
  have hlt := (List.getElem?_eq_some_iff.mp hlast).1
  omega

theorem ofSegments_segments (a : Ipv6Addr) : ofSegments a.segments = a := by
  have hbits : BitVec.ofNat 128
      (a.segments.foldl (fun n segment => n * 2 ^ 16 + segment.toNat) 0) = a.bits := by
    apply BitVec.eq_of_toNat_eq
    have hlt := a.bits.isLt
    simp only [segments, List.foldl_cons, List.foldl_nil, BitVec.extractLsb'_toNat,
      Nat.shiftRight_eq_div_pow, BitVec.toNat_ofNat]
    omega
  show Ipv6Addr.mk _ = a
  rw [hbits]

/-- An IPv4-mapped address is its IPv4 address after ten zero bytes and two bytes of ones. -/
theorem segments_toIpv4Mapped {a : Ipv6Addr} {ipv4 : Ipv4Addr} (h : a.toIpv4Mapped = some ipv4) :
    a.segments = List.replicate 5 0 ++ 0xffff :: ipv4Groups ipv4 := by
  unfold toIpv4Mapped at h
  split at h
  · next hmapped =>
    cases h
    have hhigh : ∀ k, k + 16 ≤ 96 →
        a.bits.extractLsb' (k + 32) 16 = (0xffff : BitVec 96).extractLsb' k 16 := by
      intro k hk
      rw [← hmapped]
      apply BitVec.eq_of_getLsbD_eq
      intro i hi
      have hin : k + i < 96 := by omega
      rw [BitVec.getLsbD_extractLsb', BitVec.getLsbD_extractLsb', BitVec.getLsbD_extractLsb',
        decide_eq_true hin, Bool.true_and]
      congr 2
      omega
    have hlow : ∀ k, k + 16 ≤ 32 →
        (a.bits.extractLsb' 0 32).extractLsb' k 16 = a.bits.extractLsb' k 16 :=
      fun k hk => BitVec.extractLsb'_extractLsb'_of_le hk
    unfold segments ipv4Groups
    rw [hhigh 80 (by decide), hhigh 64 (by decide), hhigh 48 (by decide), hhigh 32 (by decide),
      hhigh 16 (by decide), hhigh 0 (by decide), hlow 16 (by decide), hlow 0 (by decide)]
    rfl
  · cases h

/-- An address is read back from the segments around a run of zeros. -/
theorem read_zeros {a : Ipv6Addr} {head tail : List (BitVec 16)} {z : ℕ} {ipv4 : Bool} {s : Text}
    (hsegments : a.segments = head ++ List.replicate z 0 ++ tail) (hz : 0 < z)
    (hs : readGroups 0 (8 - (head.length + 1)) s = { groups := tail, ipv4, rest := [] }) :
    read (fmtSubslice head ++ ':' :: ':' :: s) = some (a, []) := by
  have hlen : head.length + z + tail.length = 8 := by
    have h : a.segments.length = 8 := rfl
    rwa [hsegments, List.length_append, List.length_append, List.length_replicate] at h
  have hroom : head.length ≤ 8 := by omega
  have hzeroes : 8 - head.length - tail.length = z := by omega
  have hhead : readGroups 0 8 (fmtSubslice head ++ ':' :: ':' :: s) =
      { groups := head, ipv4 := false, rest := ':' :: ':' :: s } :=
    readGroups_fmtSubslice (Or.inr ⟨s, rfl⟩) hroom
  unfold read
  simp only [hhead]
  rw [if_neg (show head.length ≠ 8 by omega), if_neg Bool.false_ne_true]
  simp only [readGivenChar_cons_self, Option.bind_eq_bind, Option.bind_some, hs, hzeroes,
    ← hsegments, ofSegments_segments]
  rfl

/-- An IPv4-mapped address is read back: one group, then an IPv4 address. -/
theorem read_mapped {a : Ipv6Addr} {ipv4 : Ipv4Addr} (h : a.toIpv4Mapped = some ipv4) :
    read ([':', ':', 'f', 'f', 'f', 'f', ':'] ++ ipv4.fmt) = some (a, []) := by
  have hipv4 : readGroups 1 6 (':' :: ipv4.fmt) =
      { groups := ipv4Groups ipv4, ipv4 := true, rest := [] } := by
    rw [readGroups]
    simp only [readSeparator_succ, readGivenChar_cons_self, Option.bind_some,
      ipv4.read_fmt_self]
    rfl
  have hgroups : readGroups 0 7 (fmtSegment 0xffff ++ ':' :: ipv4.fmt) =
      { groups := 0xffff :: ipv4Groups ipv4, ipv4 := true, rest := [] } := by
    rw [readGroups_zero_fmtSegment 0xffff 6 (by simp), hipv4]
  have hsegments : a.segments = [] ++ List.replicate 5 0 ++ 0xffff :: ipv4Groups ipv4 :=
    segments_toIpv4Mapped h
  exact read_zeros hsegments (by decide) hgroups

/-- The address is read back. -/
theorem read_fmt (a : Ipv6Addr) : read a.fmt = some (a, []) := by
  have hlen : a.segments.length = 8 := rfl
  unfold fmt
  split
  · next ipv4 hmapped => exact read_mapped hmapped
  · simp only
    have hrun : ZeroRun a.segments (longestZeros 0 ⟨0, 0⟩ ⟨0, 0⟩ a.segments) :=
      zeroRun_longestZeros (List.nil_append a.segments).symm
        (fun j hj => absurd hj (Nat.not_lt_zero j)) (fun j hj => absurd hj (Nat.not_lt_zero j))
        (Or.inl rfl)
    generalize longestZeros 0 ⟨0, 0⟩ ⟨0, 0⟩ a.segments = zeroes at hrun
    split
    · next hlong =>
      have hle := hrun.le_length (by omega)
      have hstart : (a.segments.take zeroes.start).length = zeroes.start := by
        rw [List.length_take]
        omega
      have htail : (a.segments.drop (zeroes.start + zeroes.len)).length ≤
          8 - ((a.segments.take zeroes.start).length + 1) := by
        rw [hstart, List.length_drop]
        omega
      rw [List.append_assoc]
      exact read_zeros hrun.split (by omega) (readGroups_fmtSubslice_self htail)
    · -- all eight segments are printed
      unfold read
      simp only [readGroups_fmtSubslice_self hlen.le]
      rw [if_pos hlen, ofSegments_segments]

instance : LawfulAddressText Ipv6Addr where
  parseAddr_fmt a := parseWith_eq_some.mpr (read_fmt a)
  shape h := by
    obtain ⟨t, hs, ht⟩ := read_consumes (parseWith_eq_some.mp h)
    rw [hs, List.append_nil]
    exact ht

end Ipv6Addr

end Ipnetx
