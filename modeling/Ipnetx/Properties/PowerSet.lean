import Mathlib.Data.List.TFAE
import Mathlib.Data.Set.Card
import Ipnetx.Properties.Queries
import Ipnetx.Properties.SetOperations

/-! # The Power Set

    The reachable sets are the sets of addresses, each represented once.

    - `reachable_tfae`: the representation invariant is exact.  What
      satisfies it is reachable, by single addresses alone or by its own
      ranges in any order.
    - `powerSet_iso`: the operations and queries of the crate are those of
      the power set of the addresses. -/

namespace Ipnetx

open Machine IpAddress IpSetBuilder

variable {A : Type} [IpAddress A] [SortUnstableByKey (IpRange A) A]

/-! ## Section 1: What is reachable -/

/-- Every set of addresses is built from single addresses. -/
theorem exists_run_addIp (S : Set A) :
    ∃ (ips : List A) (s : IpSet A), run .new (ips.map .addIp) = .ok s ∧ s.Represents S := by
  have hfinite : Finite A := IpSet.finite_addresses
  obtain ⟨ips, hips⟩ : ∃ ips : List A, ∀ ip, ip ∈ ips ↔ ip ∈ S :=
    ⟨S.toFinite.toFinset.toList, by simp⟩
  have hsets : SetsSatisfy IpSet.Normalized (ips.map (Call.addIp (A := A))) := by
    intro c hc t ht
    obtain ⟨ip, _, rfl⟩ := List.mem_map.mp hc
    cases ht
  obtain ⟨s, hs, hrep⟩ := run_represents .new hsets
  have hadded : added ((Source.new : Source A).calls ++ ips.map .addIp) \
      removed (ips.map .addIp) = S := by
    apply Set.ext
    intro ip
    simp [added, removed, Source.calls, Call.adds, Call.removes, hips]
  exact ⟨ips, s, hs, hadded ▸ hrep⟩

/-- Collecting the ranges of a normalized set, in any order, builds the set. -/
theorem IpSet.Normalized.run_fromRanges {s : IpSet A} (hs : s.Normalized) {rs : List (IpRange A)}
    (hperm : rs.Perm s.ranges) : run (.fromRanges rs) [] = .ok s := by
  obtain ⟨t, ht, hrep⟩ := run_represents (.fromRanges rs) setsSatisfy_nil
  have hadded : added ((Source.fromRanges rs).calls ++ []) \ removed [] = s.addrs := by
    rw [List.append_nil]
    show added (rs.map .addRange) \ removed [] = s.addrs
    rw [added_map_addRange, rangesSet_perm hperm, hs.represents.rangesSet_eq]
    simp [removed]
  rw [hadded] at hrep
  rw [ht, hrep.unique hs.represents]

/-- **Exact invariant.**  A set is reachable if and only if its ranges are valid, ascending and
    not adjacent; and then single addresses are enough to build it, and so is collecting its own
    ranges, in whatever order. -/
theorem reachable_tfae (s : IpSet A) : List.TFAE [
    Reachable s,
    (∀ r ∈ s.ranges, r.start ≤ r.end_) ∧
      s.ranges.IsChain fun r q => val r.end_ + 1 < val q.start,
    ∀ rs : List (IpRange A), rs.Perm s.ranges → run (.fromRanges rs) [] = .ok s,
    ∃ ips : List A, run .new (ips.map .addIp) = .ok s] := by
  tfae_have 1 → 2 := by
    intro hs
    have hvalid : ∀ r ∈ s.ranges, r.start ≤ r.end_ :=
      fun r hr => of_decide_eq_true (hs.normalized.isValid hr)
    have hpair := List.pairwise_map.mp hs.normalized.separated
    exact ⟨hvalid, (hpair.imp fun h => Segment.separated_iff.mp h).isChain⟩
  tfae_have 2 → 3 := by
    intro hin rs hperm
    obtain ⟨hvalid, hchain⟩ := hin
    have hnorm : s.Normalized := by
      apply Segment.Canonical.of_isChain
      · intro x hx
        obtain ⟨r, hr, rfl⟩ := mem_segs.mp hx
        exact IpRange.isValid_iff.mp (decide_eq_true (hvalid r hr))
      · exact List.isChain_map_of_isChain _ (fun _ _ h => Segment.separated_iff.mpr h) hchain
    exact hnorm.run_fromRanges hperm
  tfae_have 3 → 1 := fun h => Reachable.of_source (h s.ranges (List.Perm.refl _))
  tfae_have 1 → 4 := by
    intro hs
    obtain ⟨ips, t, ht, hrep⟩ := exists_run_addIp s.addrs
    exact ⟨ips, by rw [ht, hrep.unique hs.represents]⟩
  tfae_have 4 → 1 := by
    intro hin
    obtain ⟨ips, hrun⟩ := hin
    have hsets : ∀ c ∈ ips.map (Call.addIp (A := A)), ∀ t, c.ipset? = some t → Reachable t := by
      intro c hc t ht
      obtain ⟨ip, _, rfl⟩ := List.mem_map.mp hc
      cases ht
    exact .build hsets hrun
  tfae_finish

/-! ## Section 2: The isomorphism -/

theorem IpSet.Represents.reachable {s : IpSet A} {S : Set A} (h : s.Represents S) :
    Reachable s :=
  Reachable.of_source (h.normalized.run_fromRanges (List.Perm.refl _))

/-- The sets a program can get hold of. -/
abbrev ReachableSet (A : Type) [IpAddress A] [SortUnstableByKey (IpRange A) A] : Type :=
  {s : IpSet A // Reachable s}

/-- The reachable sets by the addresses they contain. -/
noncomputable def addrsEquiv : ReachableSet A ≃ Set A :=
  Equiv.ofBijective (fun s => s.1.addrs) (by
    have hinj : Function.Injective fun s : ReachableSet A => s.1.addrs := by
      intro s t hst
      exact Subtype.ext ((s.2.represents.eq_iff t.2.represents).mpr hst)
    have hsurj : Function.Surjective fun s : ReachableSet A => s.1.addrs := by
      intro S
      obtain ⟨_, s, _, hrep⟩ := exists_run_addIp S
      exact ⟨⟨s, hrep.reachable⟩, Set.ext hrep.mem_iff⟩
    exact ⟨hinj, hsurj⟩)

/-- A representation is the inverse image of its addresses. -/
theorem IpSet.Represents.eq_symm {s : IpSet A} {S : Set A} (h : s.Represents S) :
    s = (addrsEquiv.symm S).1 := by
  have haddrs : addrsEquiv ⟨s, h.reachable⟩ = S := Set.ext h.mem_iff
  rw [← haddrs, Equiv.symm_apply_apply]

theorem addrsEquiv_represents (s : ReachableSet A) :
    s.1.Represents (addrsEquiv s) :=
  s.2.represents

/-- An operation that returns the representation of `S` returns the inverse image of `S`. -/
private theorem eq_ok_symm {x : Result (IpSet A)} {S : Set A}
    (h : ∃ u, x = .ok u ∧ u.Represents S) : x = .ok (addrsEquiv.symm S).1 := by
  obtain ⟨u, hu, hrep⟩ := h
  rw [hu, hrep.eq_symm]

/-- The crate computes in the power set of the addresses. -/
structure PowerSetIso (e : ReachableSet A ≃ Set A) : Prop where
  containsIp : ∀ (s : ReachableSet A) ip, s.1.containsIp ip = true ↔ ip ∈ e s
  union : ∀ s t : ReachableSet A, s.1.union t.1 = .ok (e.symm (e s ∪ e t)).1
  intersection : ∀ s t : ReachableSet A, s.1.intersection t.1 = .ok (e.symm (e s ∩ e t)).1
  difference : ∀ s t : ReachableSet A, s.1.difference t.1 = .ok (e.symm (e s \ e t)).1
  complement : ∀ s : ReachableSet A, s.1.complement = .ok (e.symm (e s)ᶜ).1
  isSubsetOf : ∀ s t : ReachableSet A, s.1.isSubsetOf t.1 = .ok true ↔ e s ⊆ e t
  overlapsIpSet : ∀ s t : ReachableSet A, s.1.overlapsIpSet t.1 = .ok true ↔ (e s ∩ e t).Nonempty
  build : ∀ source calls, SetsSatisfy Reachable calls →
    run source calls = .ok (e.symm (added (source.calls ++ calls) \ removed calls)).1
  empty : run .new [] = .ok (e.symm ∅).1
  full : (e.symm Set.univ).1.ranges = [fullRange A]

/-- **Power set.**  The reachable sets are the power set of the family, as many as there are sets
    of addresses, and the operations and queries are those of the power set. -/
theorem powerSet_iso :
    (∃ e : ReachableSet A ≃ Set A, PowerSetIso e) ∧ Nat.card (ReachableSet A) = 2 ^ 2 ^ bits A := by
  have hbool : ∀ {x : Result Bool} {P : Prop}, (∃ b, x = .ok b ∧ (b = true ↔ P)) →
      (x = .ok true ↔ P) := by
    intro x P hx
    obtain ⟨b, hb, hiff⟩ := hx
    rw [hb, Except.ok.injEq]
    exact hiff
  have hbuild : ∀ (source : Source A) calls, SetsSatisfy Reachable calls → run source calls =
      .ok (addrsEquiv.symm (added (source.calls ++ calls) \ removed calls)).1 :=
    fun source _ hsets => eq_ok_symm (run_represents source (hsets.imp fun _ ht => ht.normalized))
  have hempty : run .new [] = .ok (addrsEquiv.symm (∅ : Set A)).1 := by
    rw [hbuild .new [] setsSatisfy_nil]
    simp [added, removed, Source.calls]
  have hcard : Nat.card (ReachableSet A) = 2 ^ 2 ^ bits A := by
    have hfinite : Finite A := IpSet.finite_addresses
    have hfintype : Fintype A := Fintype.ofFinite A
    rw [Nat.card_congr addrsEquiv, ← IpSet.ncard_univ (A := A), Set.ncard_univ,
      Nat.card_eq_fintype_card, Nat.card_eq_fintype_card, Fintype.card_set]
  refine ⟨⟨addrsEquiv, ?_⟩, hcard⟩
  exact
    { containsIp := fun s ip => (addrsEquiv_represents s).mem_iff ip
      union := fun s t => eq_ok_symm
        (IpSet.union_represents (addrsEquiv_represents s) (addrsEquiv_represents t))
      intersection := fun s t => eq_ok_symm
        (IpSet.intersection_represents (addrsEquiv_represents s) (addrsEquiv_represents t))
      difference := fun s t => eq_ok_symm
        (IpSet.difference_represents (addrsEquiv_represents s) (addrsEquiv_represents t))
      complement := fun s => eq_ok_symm (IpSet.complement_represents (addrsEquiv_represents s))
      isSubsetOf := fun s t => hbool
        (IpSet.isSubsetOf_represents (addrsEquiv_represents s) (addrsEquiv_represents t))
      overlapsIpSet := fun s t => hbool
        (IpSet.overlapsIpSet_represents (addrsEquiv_represents s) (addrsEquiv_represents t))
      build := hbuild
      empty := hempty
      full := congrArg IpSet.ranges (fullRange_represents (A := A)).eq_symm.symm }

end Ipnetx
