import Ipnetx.Properties.Parsing

/-! # The Two Families in Text

    No text is read in both address families: an IPv4 address has no colon,
    and an IPv6 address has one.  A text of a range or of a prefix is split
    in the same place whatever the family, so at most one of the two readers
    gets past the first address (`families_disjoint`). -/

namespace Ipnetx

open Machine AddressText

/-! ## Section 1: Addresses -/

/-- Where a number was read there was no colon. -/
theorem readNumber_no_colon {w radix maxDigits : ℕ} {z : Bool} {s rest : Text} {n : BitVec w}
    (h16 : radix ≤ 16) (h : readNumber w radix maxDigits z s = some (n, rest)) :
    ∃ t, s = t ++ rest ∧ ':' ∉ t := by
  obtain ⟨ds, hs, _, hds, _⟩ := readNumber_eq_some h
  have hno : ':' ∉ ds := by
    intro hin
    exact absurd (isHexDigit_of_isDigitIn h16 (hds ':' hin)) (by decide)
  exact ⟨ds, hs, hno⟩

theorem Ipv4Addr.colon_not_mem {s : Text} {a : Ipv4Addr} (h : parseAddr s = some a) :
    ':' ∉ s := by
  have hread : read s = some (a, []) := parseWith_eq_some.mp h
  unfold read at hread
  simp only [readSeparator_zero, readSeparator_succ, Option.bind_eq_bind, Option.bind_eq_some_iff,
    Prod.exists, readGivenChar_eq_some] at hread
  obtain ⟨n₀, s₀, h₀, n₁, s₁, ⟨u₁, rfl, h₁⟩, n₂, s₂, ⟨u₂, rfl, h₂⟩, n₃, s₃, ⟨u₃, rfl, h₃⟩,
    hend⟩ := hread
  obtain ⟨t₀, rfl, ht₀⟩ := readNumber_no_colon (by decide) h₀
  obtain ⟨t₁, rfl, ht₁⟩ := readNumber_no_colon (by decide) h₁
  obtain ⟨t₂, rfl, ht₂⟩ := readNumber_no_colon (by decide) h₂
  obtain ⟨t₃, rfl, ht₃⟩ := readNumber_no_colon (by decide) h₃
  cases hend
  simp [ht₀, ht₁, ht₂, ht₃]

namespace Ipv6Addr

/-- Every group but the first one follows a colon. -/
theorem colon_mem_of_readGroups_succ {i n : ℕ} {s : Text}
    (h : (readGroups (i + 1) n s).groups ≠ []) : ':' ∈ s := by
  have hseparator : ∀ {β : Type} {inner : Text → Option (β × Text)} {r : β × Text},
      readSeparator ':' (i + 1) inner s = some r → ':' ∈ s := by
    intro β inner r hr
    rw [readSeparator_succ, Option.bind_eq_some_iff] at hr
    obtain ⟨u, hu, _⟩ := hr
    rw [readGivenChar_eq_some.mp hu]
    exact List.mem_cons_self
  cases n with
  | zero => exact absurd rfl h
  | succ n =>
    unfold readGroups at h
    split at h
    · next hread =>
      split at hread
      · exact hseparator hread
      · cases hread
    · split at h
      · next hread => exact hseparator hread
      · exact absurd rfl h

/-- More groups than an embedded IPv4 address has need a colon. -/
theorem colon_mem_of_readGroups {n : ℕ} {s : Text} (h : 2 < (readGroups 0 n s).groups.length) :
    ':' ∈ s := by
  cases n with
  | zero => exact absurd h (Nat.not_lt_zero 2)
  | succ n =>
    unfold readGroups at h
    split at h
    · exact absurd h (lt_irrefl 2)
    · split at h
      · next group s' hread =>
        obtain ⟨t, rfl, _⟩ := readNumber_no_colon (by decide) hread
        have hgroups : (readGroups 1 n s').groups ≠ [] := by
          intro hnil
          rw [List.length_cons, hnil, List.length_nil] at h
          omega
        exact List.mem_append_right t (colon_mem_of_readGroups_succ hgroups)
      · exact absurd h (Nat.not_lt_zero 2)

theorem colon_mem {s : Text} {a : Ipv6Addr} (h : parseAddr s = some a) : ':' ∈ s := by
  have hread : read s = some (a, []) := parseWith_eq_some.mp h
  unfold read at hread
  simp only at hread
  split at hread
  · next hlen => exact colon_mem_of_readGroups (n := 8) (by omega)
  · split at hread
    · cases hread
    · -- the colons of `::` come after the groups that were read
      simp only [Option.bind_eq_bind, Option.bind_eq_some_iff, readGivenChar_eq_some] at hread
      obtain ⟨s', hs', _⟩ := hread
      obtain ⟨t, hs, _⟩ := readGroups_consumes 0 8 s
      rw [hs, hs']
      exact List.mem_append_right t List.mem_cons_self

end Ipv6Addr

/-- No text is an address in both families. -/
theorem parseAddr_eq_none_or (s : Text) :
    (parseAddr s : Option Ipv4Addr) = none ∨ (parseAddr s : Option Ipv6Addr) = none := by
  cases h4 : (parseAddr s : Option Ipv4Addr) with
  | none => exact Or.inl rfl
  | some a =>
    cases h6 : (parseAddr s : Option Ipv6Addr) with
    | none => exact Or.inr rfl
    | some b => exact absurd (Ipv6Addr.colon_mem h6) (Ipv4Addr.colon_not_mem h4)

/-! ## Section 2: Ranges and prefixes -/

/-- What stands before the separator is not an address in one of the families. -/
theorem invalidBefore_or {sep s : Text} (h : sep <:+: s) :
    InvalidBefore Ipv4Addr sep s ∨ InvalidBefore Ipv6Addr sep s := by
  obtain ⟨⟨a, b⟩, hp⟩ : ∃ p, splitOnce sep s = some p := by
    rw [← Option.ne_none_iff_exists', Ne, splitOnce_eq_none, not_not]
    exact h
  have hsplit := splitOnce_eq_some.mp hp
  exact (parseAddr_eq_none_or a).imp (fun h4 => ⟨a, b, hsplit, h4⟩) fun h6 => ⟨a, b, hsplit, h6⟩

/-- At most one family gets past the first address of a range. -/
theorem ranges_one_family (s : Text) :
    IpRange.fromStr (A := Ipv4Addr) s = .error .missingSeparator ∧
        IpRange.fromStr (A := Ipv6Addr) s = .error .missingSeparator ∨
      IpRange.fromStr (A := Ipv4Addr) s = .error .invalidStart ∨
      IpRange.fromStr (A := Ipv6Addr) s = .error .invalidStart := by
  simp only [IpRange.fromStr_eq_missingSeparator, IpRange.fromStr_eq_invalidStart, and_self]
  exact (em (['.', '.'] <:+: s)).symm.imp id invalidBefore_or

/-- At most one family gets past the address of a prefix. -/
theorem prefixes_one_family (s : Text) :
    IpPrefix.fromStr (A := Ipv4Addr) s = .error .missingSeparator ∧
        IpPrefix.fromStr (A := Ipv6Addr) s = .error .missingSeparator ∨
      IpPrefix.fromStr (A := Ipv4Addr) s = .error .invalidAddress ∨
      IpPrefix.fromStr (A := Ipv6Addr) s = .error .invalidAddress := by
  simp only [IpPrefix.fromStr_eq_missingSeparator, IpPrefix.fromStr_eq_invalidAddress, and_self,
    ← List.singleton_infix_iff]
  exact (em (['/'] <:+: s)).symm.imp id invalidBefore_or

/-- **Families.**  A text without the separator is rejected as such in both families.  Any other
    one is rejected for its first address in at least one of them, and what one family prints
    in the other one. -/
theorem families_disjoint :
    (∀ s : Text,
      IpRange.fromStr (A := Ipv4Addr) s = .error .missingSeparator ∧
          IpRange.fromStr (A := Ipv6Addr) s = .error .missingSeparator ∨
        IpRange.fromStr (A := Ipv4Addr) s = .error .invalidStart ∨
        IpRange.fromStr (A := Ipv6Addr) s = .error .invalidStart) ∧
    (∀ s : Text,
      IpPrefix.fromStr (A := Ipv4Addr) s = .error .missingSeparator ∧
          IpPrefix.fromStr (A := Ipv6Addr) s = .error .missingSeparator ∨
        IpPrefix.fromStr (A := Ipv4Addr) s = .error .invalidAddress ∨
        IpPrefix.fromStr (A := Ipv6Addr) s = .error .invalidAddress) ∧
    (∀ r : IpRange Ipv4Addr, IpRange.fromStr (A := Ipv6Addr) r.fmt = .error .invalidStart) ∧
    (∀ r : IpRange Ipv6Addr, IpRange.fromStr (A := Ipv4Addr) r.fmt = .error .invalidStart) ∧
    (∀ p : IpPrefix Ipv4Addr, IpPrefix.fromStr (A := Ipv6Addr) p.fmt = .error .invalidAddress) ∧
    ∀ p : IpPrefix Ipv6Addr, IpPrefix.fromStr (A := Ipv4Addr) p.fmt = .error .invalidAddress := by
  refine ⟨ranges_one_family, prefixes_one_family, ?_, ?_, ?_, ?_⟩
  · intro r
    have hread : IpRange.fromStr r.fmt = .ok r := IpRange.readsBack r
    simpa [hread] using ranges_one_family r.fmt
  · intro r
    have hread : IpRange.fromStr r.fmt = .ok r := IpRange.readsBack r
    simpa [hread] using ranges_one_family r.fmt
  · intro p
    have hread : IpPrefix.fromStr p.fmt = .ok p := IpPrefix.readsBack p
    simpa [hread] using prefixes_one_family p.fmt
  · intro p
    have hread : IpPrefix.fromStr p.fmt = .ok p := IpPrefix.readsBack p
    simpa [hread] using prefixes_one_family p.fmt

end Ipnetx
