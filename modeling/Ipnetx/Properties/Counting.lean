import Ipnetx.Properties.Queries

/-! # Counting Laws

    `IpSet::count` saturates on one set only, the full IPv6 space, where it
    is one too low.  That one value is enough to break the laws of counting;
    `count_laws` says for which arguments each of them holds.

    The laws are proved for `satCount` first, the saturated cardinality of a
    set of addresses; `lost` is what saturation takes from it. -/

namespace Ipnetx

open Machine IpAddress

variable {A : Type} [IpAddress A]

/-! ## Section 1: The saturated cardinality -/

/-- What `count` returns for the addresses `S`. -/
noncomputable def satCount (S : Set A) : ℕ := min S.ncard (2 ^ 128 - 1)

/-- `S` is the one set that is too large. -/
def Saturates (S : Set A) : Prop := bits A = 128 ∧ S = Set.univ

open Classical in
/-- What is missing in the saturated cardinality. -/
noncomputable def lost (S : Set A) : ℕ := if Saturates S then 1 else 0

section
variable {S T : Set A}

theorem lost_eq_one (h : Saturates S) : lost S = 1 := if_pos h

theorem lost_eq_zero (h : ¬ Saturates S) : lost S = 0 := if_neg h

theorem satCount_add_lost (S : Set A) : satCount S + lost S = S.ncard := by
  unfold satCount
  by_cases h : Saturates S
  · rw [lost_eq_one h, h.2, IpSet.ncard_univ, h.1]
    decide
  · have hlt : S.ncard < 2 ^ 128 := by
      rw [← not_le]
      exact fun hle => h (IpSet.two_pow_le_ncard_iff.mp hle)
    rw [lost_eq_zero h]
    omega

theorem Saturates.mono (h : Saturates S) (hST : S ⊆ T) : Saturates T :=
  ⟨h.1, Set.eq_univ_of_univ_subset (h.2 ▸ hST)⟩

omit [IpAddress A] in
theorem satCount_empty : satCount (∅ : Set A) = 0 := by
  unfold satCount
  rw [Set.ncard_empty]
  exact Nat.zero_min _

/-! ## Section 2: The laws of the saturated cardinality -/

/-- Inclusion and exclusion fail when two smaller sets make the full space. -/
theorem satCount_union_add_inter (S T : Set A) :
    satCount (S ∪ T) + satCount (S ∩ T) = satCount S + satCount T ↔
      ¬ (Saturates (S ∪ T) ∧ ¬ Saturates S ∧ ¬ Saturates T) := by
  have hfinite : Finite A := IpSet.finite_addresses
  have hexact := Set.ncard_union_add_ncard_inter S T
  rw [← satCount_add_lost, ← satCount_add_lost (S ∩ T), ← satCount_add_lost S,
    ← satCount_add_lost T] at hexact
  by_cases hS : Saturates S
  · -- the union saturates as well, and the intersection is `T`
    have hunion : Saturates (S ∪ T) := hS.mono Set.subset_union_left
    rw [hS.2, Set.univ_inter, ← hS.2, lost_eq_one hunion, lost_eq_one hS] at hexact
    rw [hS.2, Set.univ_inter, ← hS.2]
    exact iff_of_true (by omega) fun h => h.2.1 hS
  · have hinter : ¬ Saturates (S ∩ T) := fun h => hS (h.mono Set.inter_subset_left)
    rw [lost_eq_zero hinter, lost_eq_zero hS] at hexact
    by_cases hT : Saturates T
    · have hunion : Saturates (S ∪ T) := hT.mono Set.subset_union_right
      rw [lost_eq_one hunion, lost_eq_one hT] at hexact
      exact iff_of_true (by omega) fun h => h.2.2 hT
    · rw [lost_eq_zero hT] at hexact
      by_cases hunion : Saturates (S ∪ T)
      · rw [lost_eq_one hunion] at hexact
        exact iff_of_false (by omega) fun h => h ⟨hunion, hS, hT⟩
      · rw [lost_eq_zero hunion] at hexact
        exact iff_of_true (by omega) fun h => hunion h.1

/-- The count of a difference fails when a part of the full space is taken away. -/
theorem satCount_diff_add_inter (S T : Set A) :
    satCount (S \ T) + satCount (S ∩ T) = satCount S ↔
      ¬ (Saturates S ∧ T ≠ ∅ ∧ T ≠ Set.univ) := by
  have hfinite : Finite A := IpSet.finite_addresses
  have hexact := Set.ncard_inter_add_ncard_sdiff_eq_ncard S T
  rw [← satCount_add_lost, ← satCount_add_lost (S \ T), ← satCount_add_lost S] at hexact
  by_cases hS : Saturates S
  · by_cases hempty : T = ∅
    · rw [hempty, Set.sdiff_empty, Set.inter_empty, satCount_empty]
      exact iff_of_true (Nat.add_zero _) fun h => h.2.1 rfl
    · by_cases huniv : T = Set.univ
      · rw [huniv, Set.inter_univ, Set.sdiff_univ, satCount_empty]
        exact iff_of_true (Nat.zero_add _) fun h => h.2.2 rfl
      · have hinter : ¬ Saturates (S ∩ T) := by
          intro h
          exact huniv (h.mono Set.inter_subset_right).2
        have hdiff : ¬ Saturates (S \ T) := by
          intro h
          have hcompl : Tᶜ = Set.univ := by
            rw [Set.compl_eq_univ_sdiff, ← hS.2, h.2, hS.2]
          exact hempty (Set.compl_univ_iff.mp hcompl)
        rw [lost_eq_zero hinter, lost_eq_zero hdiff, lost_eq_one hS] at hexact
        exact iff_of_false (by omega) fun h => h ⟨hS, hempty, huniv⟩
  · have hinter : ¬ Saturates (S ∩ T) := fun h => hS (h.mono Set.inter_subset_left)
    have hdiff : ¬ Saturates (S \ T) := fun h => hS (h.mono Set.sdiff_subset)
    rw [lost_eq_zero hinter, lost_eq_zero hdiff, lost_eq_zero hS] at hexact
    exact iff_of_true (by omega) fun h => hS h.1

/-- The counts of a set and its complement make the whole, unless one of them is all of it. -/
theorem satCount_add_compl (S : Set A) :
    satCount S + satCount Sᶜ = 2 ^ bits A ↔
      ¬ (bits A = 128 ∧ (S = ∅ ∨ S = Set.univ)) := by
  have hfinite : Finite A := IpSet.finite_addresses
  have hexact := Set.ncard_add_ncard_compl S
  rw [← Set.ncard_univ, IpSet.ncard_univ, ← satCount_add_lost, ← satCount_add_lost Sᶜ] at hexact
  by_cases hbits : bits A = 128
  · by_cases huniv : S = Set.univ
    · have hone : lost S = 1 := lost_eq_one ⟨hbits, huniv⟩
      exact iff_of_false (by omega) fun h => h ⟨hbits, Or.inr huniv⟩
    · have hzero : lost S = 0 := lost_eq_zero fun h => huniv h.2
      by_cases hempty : S = ∅
      · have hone : lost Sᶜ = 1 := lost_eq_one ⟨hbits, by rw [hempty, Set.compl_empty]⟩
        exact iff_of_false (by omega) fun h => h ⟨hbits, Or.inl hempty⟩
      · have hzero' : lost Sᶜ = 0 :=
          lost_eq_zero fun h => hempty (Set.compl_univ_iff.mp h.2)
        exact iff_of_true (by omega) fun h => h.2.elim hempty huniv
  · have hzero : lost S = 0 := lost_eq_zero fun h => hbits h.1
    have hzero' : lost Sᶜ = 0 := lost_eq_zero fun h => hbits h.1
    exact iff_of_true (by omega) fun h => hbits h.1

theorem satCount_mono (h : S ⊆ T) : satCount S ≤ satCount T := by
  have hfinite : Finite A := IpSet.finite_addresses
  have := Set.ncard_le_ncard h
  unfold satCount
  omega

/-- Among a set and a subset, equal counts mean equal sets, unless the larger one saturates and
    the other misses a single address. -/
theorem satCount_eq_iff (h : S ⊆ T) :
    satCount S = satCount T ↔ S = T ∨ (Saturates T ∧ Sᶜ.ncard = 1) := by
  have hfinite : Finite A := IpSet.finite_addresses
  have hS := satCount_add_lost S
  have hT := satCount_add_lost T
  have hle := Set.ncard_le_ncard h
  have heq : S.ncard = T.ncard ↔ S = T := by
    have hmp : S.ncard = T.ncard → S = T := fun hcard => Set.eq_of_subset_of_ncard_le h hcard.ge
    exact ⟨hmp, fun hST => by rw [hST]⟩
  by_cases hsat : Saturates T
  · by_cases hsat' : Saturates S
    · have hST : S = T := hsat'.2.trans hsat.2.symm
      exact iff_of_true (by rw [hST]) (Or.inl hST)
    · rw [lost_eq_one hsat] at hT
      rw [lost_eq_zero hsat'] at hS
      have hne : S ≠ T := fun hST => hsat' (hST ▸ hsat)
      have hcompl := Set.ncard_add_ncard_compl S
      rw [← Set.ncard_univ, ← hsat.2] at hcompl
      have hmp : satCount S = satCount T → S = T ∨ (Saturates T ∧ Sᶜ.ncard = 1) :=
        fun hcount => Or.inr ⟨hsat, by omega⟩
      have hmpr : S = T ∨ (Saturates T ∧ Sᶜ.ncard = 1) → satCount S = satCount T := by
        rintro (hST | ⟨_, hone⟩)
        · exact absurd hST hne
        · omega
      exact ⟨hmp, hmpr⟩
  · have hsat' : ¬ Saturates S := fun hs => hsat (hs.mono h)
    rw [lost_eq_zero hsat] at hT
    rw [lost_eq_zero hsat'] at hS
    rw [show satCount S = S.ncard by omega, show satCount T = T.ncard by omega, heq]
    exact ⟨Or.inl, fun hin => hin.elim id fun hs => absurd hs.1 hsat⟩

end

/-! ## Section 3: The laws of `count` -/

/-- The counts of `a`, `b` and what is made of them. -/
structure CountLaws (a b : IpSet A) : Prop where
  /-- Inclusion and exclusion. -/
  union : ∃ u i cu ci ca cb, a.union b = .ok u ∧ a.intersection b = .ok i ∧
    u.count = .ok cu ∧ i.count = .ok ci ∧ a.count = .ok ca ∧ b.count = .ok cb ∧
    (cu.toNat + ci.toNat = ca.toNat + cb.toNat ↔
      ¬ (bits A = 128 ∧ u.addrs = Set.univ ∧ a.addrs ≠ Set.univ ∧ b.addrs ≠ Set.univ))
  difference : ∃ d i cd ci ca, a.difference b = .ok d ∧ a.intersection b = .ok i ∧
    d.count = .ok cd ∧ i.count = .ok ci ∧ a.count = .ok ca ∧
    (cd.toNat + ci.toNat = ca.toNat ↔
      ¬ (bits A = 128 ∧ a.addrs = Set.univ ∧ b.addrs ≠ ∅ ∧ b.addrs ≠ Set.univ))
  complement : ∃ c cc ca, a.complement = .ok c ∧ c.count = .ok cc ∧ a.count = .ok ca ∧
    (ca.toNat + cc.toNat = 2 ^ bits A ↔
      ¬ (bits A = 128 ∧ (a.addrs = ∅ ∨ a.addrs = Set.univ)))
  /-- Counting a subset. -/
  subset : a.isSubsetOf b = .ok true → ∃ ca cb, a.count = .ok ca ∧ b.count = .ok cb ∧ ca ≤ cb ∧
    (ca = cb ↔ a = b ∨ (bits A = 128 ∧ b.addrs = Set.univ ∧ a.addrsᶜ.ncard = 1))

theorem union_exception_iff {U S T : Set A} : Saturates U ∧ ¬ Saturates S ∧ ¬ Saturates T ↔
    bits A = 128 ∧ U = Set.univ ∧ S ≠ Set.univ ∧ T ≠ Set.univ := by
  have hmp : Saturates U ∧ ¬ Saturates S ∧ ¬ Saturates T →
      bits A = 128 ∧ U = Set.univ ∧ S ≠ Set.univ ∧ T ≠ Set.univ :=
    fun h => ⟨h.1.1, h.1.2, fun hS => h.2.1 ⟨h.1.1, hS⟩, fun hT => h.2.2 ⟨h.1.1, hT⟩⟩
  have hmpr : bits A = 128 ∧ U = Set.univ ∧ S ≠ Set.univ ∧ T ≠ Set.univ →
      Saturates U ∧ ¬ Saturates S ∧ ¬ Saturates T :=
    fun h => ⟨⟨h.1, h.2.1⟩, fun hS => h.2.2.1 hS.2, fun hT => h.2.2.2 hT.2⟩
  exact ⟨hmp, hmpr⟩

/-- A representation of `S` has the addresses `S`. -/
theorem IpSet.Represents.addrs_eq {s : IpSet A} {S : Set A} (h : s.Represents S) : s.addrs = S :=
  Set.ext h.mem_iff

theorem IpSet.Represents.count_eq {s : IpSet A} {S : Set A} (h : s.Represents S) :
    ∃ c, s.count = .ok c ∧ c.toNat = satCount S :=
  IpSet.count_represents h

/-- **Counting laws.**  Each law holds for all sets of the two families but those named, and for
    these it is off by one. -/
theorem count_laws [SortUnstableByKey (IpRange A) A] {a b : IpSet A} (ha : Reachable a)
    (hb : Reachable b) : CountLaws a b := by
  obtain ⟨u, hu, hru⟩ := IpSet.union_represents ha.represents hb.represents
  obtain ⟨i, hi, hri⟩ := IpSet.intersection_represents ha.represents hb.represents
  obtain ⟨d, hd, hrd⟩ := IpSet.difference_represents ha.represents hb.represents
  obtain ⟨c, hc, hrc⟩ := IpSet.complement_represents ha.represents
  obtain ⟨cu, hcu, hvu⟩ := hru.count_eq
  obtain ⟨ci, hci, hvi⟩ := hri.count_eq
  obtain ⟨cd, hcd, hvd⟩ := hrd.count_eq
  obtain ⟨cc, hcc, hvc⟩ := hrc.count_eq
  obtain ⟨ca, hca, hva⟩ := ha.represents.count_eq
  obtain ⟨cb, hcb, hvb⟩ := hb.represents.count_eq
  have hunion := satCount_union_add_inter a.addrs b.addrs
  have hdiff := satCount_diff_add_inter a.addrs b.addrs
  have hcompl := satCount_add_compl a.addrs
  rw [← hvu, ← hvi, ← hva, ← hvb, ← hru.addrs_eq] at hunion
  rw [← hvd, ← hvi, ← hva] at hdiff
  rw [← hva, ← hvc] at hcompl
  have hsubset : a.isSubsetOf b = .ok true → ∃ ca cb, a.count = .ok ca ∧ b.count = .ok cb ∧
      ca ≤ cb ∧ (ca = cb ↔ a = b ∨ (bits A = 128 ∧ b.addrs = Set.univ ∧ a.addrsᶜ.ncard = 1)) := by
    intro hin
    obtain ⟨o, ho, hiff⟩ := IpSet.isSubsetOf_represents ha.represents hb.represents
    rw [hin, Except.ok.injEq] at ho
    have hsub : a.addrs ⊆ b.addrs := hiff.mp ho.symm
    have hle : ca ≤ cb := by
      rw [BitVec.le_def, hva, hvb]
      exact satCount_mono hsub
    have heq := satCount_eq_iff hsub
    rw [← hva, ← hvb, BitVec.toNat_inj, ← ha.represents.eq_iff hb.represents] at heq
    exact ⟨ca, cb, hca, hcb, hle, heq.trans (or_congr Iff.rfl and_assoc)⟩
  exact
    { union := ⟨u, i, cu, ci, ca, cb, hu, hi, hcu, hci, hca, hcb,
        hunion.trans (not_congr union_exception_iff)⟩
      difference := ⟨d, i, cd, ci, ca, hd, hi, hcd, hci, hca,
        hdiff.trans (not_congr and_assoc)⟩
      complement := ⟨c, cc, ca, hc, hcc, hca, hcompl⟩
      subset := hsubset }

theorem count_laws_sampleSet : CountLaws sampleSet oddSet :=
  @count_laws Ipv4Addr _ (.ofInsertionSort _ _) _ _ reachable_sampleSet reachable_oddSet

end Ipnetx
