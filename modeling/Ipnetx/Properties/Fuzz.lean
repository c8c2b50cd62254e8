import Ipnetx.Model.Fuzz
import Ipnetx.Properties.Counting
import Ipnetx.Properties.Parsing
import Ipnetx.Refinement.AddressText

/-! # The Fuzz Targets Never Crash

    `fuzz_targets_pass`: no input makes one of the four targets fail an
    assertion or the crate fault.

    A chain of set operations is followed by the set of addresses that it
    computes (`Computes`); an equality of results holds as soon as the two
    sets are the same. -/

namespace Ipnetx

open Machine IpAddress IpSetBuilder

namespace Fuzz

/-! ## Section 1: Assertions -/

section
variable {α : Type}

@[simp] theorem assert_true : assert true = .ok () := rfl

@[simp] theorem expect_ok {ε : Type} (a : α) : expect (.ok a : Except ε α) = .ok a := rfl

theorem assert_decide {P : Prop} [Decidable P] (h : P) : assert (decide P) = .ok () := by
  rw [decide_eq_true h, assert_true]

theorem assertEq_ok [DecidableEq α] {left right : Result α} {a : α} (hl : left = .ok a)
    (hr : right = .ok a) : assertEq left right = .ok () := by
  simp [assertEq, hl, hr]

theorem forM_ok {f : α → Except Crash Unit} {l : List α} (h : ∀ a ∈ l, f a = .ok ()) :
    l.forM f = .ok () := by
  induction l with
  | nil => rfl
  | cons a l ih =>
    show (f a >>= fun _ => l.forM f) = .ok ()
    rw [h a List.mem_cons_self]
    exact ih fun b hb => h b (List.mem_cons_of_mem _ hb)

/-- A check of every pair of neighbours. -/
theorem forM_windows {R : α → α → Prop} {f : α × α → Except Crash Unit} {l : List α}
    (hl : l.IsChain R) (hf : ∀ a b, R a b → f (a, b) = .ok ()) :
    (l.zip l.tail).forM f = .ok () := by
  induction l with
  | nil => rfl
  | cons a l ih =>
    cases l with
    | nil => rfl
    | cons b l =>
      rw [List.isChain_cons_cons] at hl
      have htail := ih hl.2
      show (f (a, b) >>= fun _ => ((b :: l).zip l).forM f) = .ok ()
      rw [hf a b hl.1]
      exact htail

end

theorem assertNormalized_ok {s : IpSet Ipv4Addr} (hs : s.Normalized) :
    assertNormalized s = .ok () := by
  have hchain := (List.pairwise_map.mp hs.separated).isChain
  apply forM_windows hchain
  intro r q hsep
  have hgap : val r.end_ + 1 < val q.start := Segment.separated_iff.mp hsep
  have hend : val r.end_ = r.end_.bits.toNat := BitVec.toNat_setWidth_of_le (by decide)
  have hstart : val q.start = q.start.bits.toNat := BitVec.toNat_setWidth_of_le (by decide)
  apply assert_decide
  show Word.saturatingAdd r.end_.bits 1 < q.start.bits
  rw [BitVec.lt_def, Word.toNat_saturatingAdd, show (1 : BitVec 32).toNat = 1 from rfl]
  omega

/-! ## Section 2: What a chain of operations computes -/

/-- The computation returns the set with the addresses `S`. -/
def Computes (x : Result (IpSet Ipv4Addr)) (S : Set Ipv4Addr) : Prop :=
  ∃ u, x = .ok u ∧ u.Represents S

section
variable {x y : Result (IpSet Ipv4Addr)} {S T : Set Ipv4Addr}

theorem Computes.union (hx : Computes x S) (hy : Computes y T) :
    Computes (do (← x).union (← y)) (S ∪ T) := by
  obtain ⟨u, hu, hrep⟩ := hx
  obtain ⟨v, hv, hrep'⟩ := hy
  rw [hu, hv]
  exact IpSet.union_represents hrep hrep'

theorem Computes.intersection (hx : Computes x S) (hy : Computes y T) :
    Computes (do (← x).intersection (← y)) (S ∩ T) := by
  obtain ⟨u, hu, hrep⟩ := hx
  obtain ⟨v, hv, hrep'⟩ := hy
  rw [hu, hv]
  exact IpSet.intersection_represents hrep hrep'

theorem Computes.difference (hx : Computes x S) (hy : Computes y T) :
    Computes (do (← x).difference (← y)) (S \ T) := by
  obtain ⟨u, hu, hrep⟩ := hx
  obtain ⟨v, hv, hrep'⟩ := hy
  rw [hu, hv]
  exact IpSet.difference_represents hrep hrep'

theorem Computes.complement (hx : Computes x S) : Computes (do (← x).complement) Sᶜ := by
  obtain ⟨u, hu, hrep⟩ := hx
  rw [hu]
  exact IpSet.complement_represents hrep

theorem Computes.assertEq (hx : Computes x S) (hy : Computes y T) (hST : S = T) :
    assertEq x y = .ok () := by
  obtain ⟨u, hu, hrep⟩ := hx
  obtain ⟨v, hv, hrep'⟩ := hy
  exact assertEq_ok hu (hv.trans (congrArg Except.ok ((hrep'.eq_iff hrep).mpr hST.symm)))

/-- A set of IPv4 addresses is far from the largest count. -/
theorem satCount_ipv4 (S : Set Ipv4Addr) : satCount S = S.ncard := by
  have h := satCount_add_lost S
  rw [lost_eq_zero fun hs => absurd hs.1 (by decide)] at h
  omega

theorem ncard_le_ipv4 (S : Set Ipv4Addr) : S.ncard ≤ 2 ^ 32 := by
  have hfinite : Finite Ipv4Addr := IpSet.finite_addresses
  have h := Set.ncard_le_ncard (Set.subset_univ S)
  rw [IpSet.ncard_univ] at h
  exact h

/-- The sum of two counts. -/
theorem Computes.add_counts (hx : Computes x S) (hy : Computes y T) :
    (do Word.add (← (← x).count) (← (← y).count)) = .ok (BitVec.ofNat 128 (S.ncard + T.ncard)) := by
  obtain ⟨u, hu, hrep⟩ := hx
  obtain ⟨v, hv, hrep'⟩ := hy
  obtain ⟨c, hc, hval⟩ := hrep.count_eq
  obtain ⟨d, hd, hval'⟩ := hrep'.count_eq
  rw [satCount_ipv4] at hval hval'
  have hS := ncard_le_ipv4 S
  have hT := ncard_le_ipv4 T
  have hlt : c.toNat + d.toNat < 2 ^ 128 := by omega
  have hsum : c + d = BitVec.ofNat 128 (S.ncard + T.ncard) := by
    apply BitVec.eq_of_toNat_eq
    rw [Word.toNat_add_of_lt hlt, BitVec.toNat_ofNat, hval, hval', Nat.mod_eq_of_lt (by omega)]
  simp [hu, hv, hc, hd, Word.add_eq_ok hlt, hsum]

end

/-! ## Section 3: Set operations -/

section
variable {a b : IpSet Ipv4Addr} {S T : Set Ipv4Addr}

theorem checkLaws_ok (ha : a.Represents S) (hb : b.Represents T) : checkLaws a b = .ok () := by
  have ca : Computes (.ok a) S := ⟨a, rfl, ha⟩
  have cb : Computes (.ok b) T := ⟨b, rfl, hb⟩
  have hunion := (ca.union cb).assertEq (cb.union ca) (Set.union_comm S T)
  have hinter := (ca.intersection cb).assertEq (cb.intersection ca) (Set.inter_comm S T)
  have hunion_self := (ca.union ca).assertEq ca (Set.union_self S)
  have hinter_self := (ca.intersection ca).assertEq ca (Set.inter_self S)
  have hcompl := ca.complement.complement.assertEq ca (compl_compl S)
  have hmorgan := (ca.union cb).complement.assertEq
    (ca.complement.intersection cb.complement) (Set.compl_union S T)
  have hdiff := (ca.difference cb).assertEq (ca.intersection cb.complement)
    (Set.sdiff_eq_compl_inter.trans (Set.inter_comm _ _))
  simp only [Result.ok_bind] at hunion hinter hunion_self hinter_self hcompl hmorgan hdiff
  simp only [checkLaws, hunion, hinter, hunion_self, hinter_self, hcompl, hmorgan, hdiff,
    Result.ok_bind]

theorem checkCounts_ok (ha : a.Represents S) (hb : b.Represents T) :
    checkCounts a b = .ok () := by
  have hfinite : Finite Ipv4Addr := IpSet.finite_addresses
  have ca : Computes (.ok a) S := ⟨a, rfl, ha⟩
  have cb : Computes (.ok b) T := ⟨b, rfl, hb⟩
  have hboth := (ca.union cb).add_counts (ca.intersection cb)
  have hsum := ca.add_counts cb
  have hcompl := ca.add_counts ca.complement
  rw [Set.ncard_union_add_ncard_inter] at hboth
  rw [Set.ncard_add_ncard_compl, ← Set.ncard_univ, IpSet.ncard_univ] at hcompl
  simp only [Result.ok_bind] at hboth hsum hcompl
  have hinclusion := assertEq_ok hboth hsum
  have hwhole := assertEq_ok hcompl (show .ok (1#128 <<< 32) = Except.ok _ from rfl)
  simp only [checkCounts, hinclusion, hwhole, Result.ok_bind]

variable [SortUnstableByKey (IpRange Ipv4Addr) Ipv4Addr]

theorem build_computes (pairs : List (BitVec 32 × BitVec 32)) :
    ∃ S, Computes (build pairs) S := by
  have hfold : ∀ b : IpSetBuilder Ipv4Addr,
      pairs.foldl (fun b pair => b.addRange (ordered pair.1 pair.2)) b =
        (pairs.map fun pair => ordered pair.1 pair.2).foldl addRange b := by
    intro b
    rw [List.foldl_map]
  obtain ⟨s, hs, hrep⟩ :=
    run_represents (.fromRanges (pairs.map fun pair => ordered pair.1 pair.2)) setsSatisfy_nil
  have hrun : build pairs = .ok s := by
    unfold build
    rw [hfold]
    exact hs
  exact ⟨_, s, hrun, hrep⟩

theorem ipsetOps_ok (input : FuzzInput) : ipsetOps input = .ok () := by
  obtain ⟨S, a, ha, hra⟩ := build_computes input.rangesA
  obtain ⟨T, b, hb, hrb⟩ := build_computes input.rangesB
  obtain ⟨u, hu, hru⟩ := IpSet.union_represents hra hrb
  obtain ⟨i, hi, hri⟩ := IpSet.intersection_represents hra hrb
  obtain ⟨d, hd, hrd⟩ := IpSet.difference_represents hra hrb
  obtain ⟨o, ho, _⟩ := IpSet.isSubsetOf_represents hra hrb
  have hsubset : assertEq (a.isSubsetOf b) (b.isSupersetOf a) = .ok () := assertEq_ok ho ho
  have hnormal : [a, b, u, i, d].forM assertNormalized = .ok () := by
    apply forM_ok
    have hall : ∀ s ∈ [a, b, u, i, d], s.Normalized := by
      simp [hra.normalized, hrb.normalized, hru.normalized, hri.normalized, hrd.normalized]
    exact fun s hs => assertNormalized_ok (hall s hs)
  simp only [ipsetOps, ha, hb, hu, hi, hd, hsubset, hnormal, checkLaws_ok hra hrb,
    checkCounts_ok hra hrb, Result.mapError_ok, Result.ok_bind]

end

/-! ## Section 4: Builder calls -/

theorem maskOf_le (mask : BitVec 8) : mask % 33 ≤ BITS Ipv4Addr := by
  rw [BitVec.le_def, BitVec.toNat_umod]
  exact Nat.le_of_lt_succ (Nat.mod_lt _ (by decide))

/-- The call that an operation makes. -/
def Op.toCall : Op → Call Ipv4Addr
  | .addRange s e => .addRange (ordered s e)
  | .removeRange s e => .removeRange (ordered s e)
  | .addPrefix ip mask => .addPrefix ⟨⟨ip⟩, mask % 33, maskOf_le mask⟩
  | .removePrefix ip mask => .removePrefix ⟨⟨ip⟩, mask % 33, maskOf_le mask⟩
  | .addIp ip => .addIp ⟨ip⟩
  | .removeIp ip => .removeIp ⟨ip⟩

theorem apply_eq_call (b : IpSetBuilder Ipv4Addr) (op : Op) :
    op.apply b = crate (b.call op.toCall) := by
  have hnew : ∀ (ip : BitVec 32) (mask : BitVec 8), IpPrefix.new (⟨ip⟩ : Ipv4Addr) (mask % 33) =
      .ok ⟨⟨ip⟩, mask % 33, maskOf_le mask⟩ :=
    fun ip mask => dif_neg (BitVec.not_lt.mpr (maskOf_le mask))
  cases op with
  | addRange => rfl
  | removeRange => rfl
  | addPrefix ip mask =>
    simp only [Op.apply, hnew]
    rfl
  | removePrefix ip mask =>
    simp only [Op.apply, hnew]
    rfl
  | addIp => rfl
  | removeIp => rfl

theorem toCall_ipset? (op : Op) : op.toCall.ipset? = none := by
  cases op with
  | addRange => rfl
  | removeRange => rfl
  | addPrefix => rfl
  | removePrefix => rfl
  | addIp => rfl
  | removeIp => rfl

/-- The operations leave a builder that holds valid ranges. -/
theorem foldlM_apply_holds (ops : List Op) {b : IpSetBuilder Ipv4Addr} {S T : Set Ipv4Addr}
    (hb : b.Holds S T) : ∃ b' S' T', ops.foldlM Op.apply b = .ok b' ∧ b'.Holds S' T' := by
  induction ops generalizing b S T with
  | nil => exact ⟨b, S, T, rfl, hb⟩
  | cons op ops ih =>
    obtain ⟨c, hc, hholds⟩ := call_holds hb op.toCall (by simp [toCall_ipset?])
    obtain ⟨b', S', T', hrun, hholds'⟩ := ih hholds
    have hcons : (op :: ops).foldlM Op.apply b = .ok b' := by
      rw [List.foldlM_cons, apply_eq_call, hc]
      exact hrun
    exact ⟨b', S', T', hcons, hholds'⟩

/-- Every segment counts for at least one. -/
theorem length_le_total (l : List (Segment ℕ)) : l.length ≤ Segment.total l := by
  induction l with
  | nil => exact Nat.le_refl 0
  | cons s l ih =>
    show l.length + 1 ≤ s.hi - s.lo + 1 + Segment.total l
    omega

theorem len_le_ncard {A : Type} [IpAddress A] {s : IpSet A} {S : Set A} (hs : s.Represents S) :
    s.len ≤ S.ncard := by
  have h := length_le_total s.view
  rw [hs.ncard_eq]
  rwa [IpSet.view, segs, List.length_map] at h

theorem ipsetBuilder_ok [SortUnstableByKey (IpRange Ipv4Addr) Ipv4Addr] (ops : List Op) :
    ipsetBuilder ops = .ok () := by
  obtain ⟨b, S, T, hrun, hholds⟩ := foldlM_apply_holds ops new_holds
  obtain ⟨s, hs, hrep⟩ := build_represents hholds
  obtain ⟨c, hc, hval⟩ := hrep.count_eq
  obtain ⟨o, ho, hiff⟩ := IpSet.isSubsetOf_represents hrep hrep
  rw [satCount_ipv4] at hval
  have hlen : s.len ≤ c.toNat := hval ▸ len_le_ncard hrep
  rw [hiff.mpr (Set.Subset.refl _)] at ho
  simp only [ipsetBuilder, hrun, hs, hc, ho, assertNormalized_ok hrep.normalized,
    assert_decide hlen, Result.mapError_ok, Result.ok_bind, assert_true]

/-! ## Section 5: Parsing -/

section
variable {A : Type} [IpAddress A] [AddressText A] [LawfulAddressText A]

theorem reparsePrefix_ok {maxMask : BitVec 8} (hmax : BITS A ≤ maxMask) (s : Text) :
    reparsePrefix A maxMask s = .ok () := by
  unfold reparsePrefix
  split
  · rfl
  · next p _ =>
    have hread : IpPrefix.fromStr p.fmt = .ok p := IpPrefix.readsBack p
    obtain ⟨q, hq, _, haligned⟩ := p.masked_spec
    have hmasked : assertEq p.masked (do (← p.masked).masked) = .ok () := by
      rw [hq]
      exact assertEq_ok rfl (IpPrefix.masked_eq_self_iff.mpr haligned)
    simp only [hread, expect_ok, decide_true, assert_true,
      assert_decide (BitVec.le_trans p.mask_le hmax), hmasked, Result.ok_bind]

theorem reparseRange_ok (s : Text) : reparseRange A s = .ok () := by
  unfold reparseRange
  split
  · rfl
  · next r _ =>
    have hread : IpRange.fromStr r.fmt = .ok r := IpRange.readsBack r
    simp only [hread, expect_ok, decide_true, assert_true, Result.ok_bind]
    split
    · next hvalid => exact assert_decide (of_decide_eq_true hvalid)
    · rfl

end

theorem parsePrefix_ok (data : ByteArray) : parsePrefix data = .ok () := by
  unfold parsePrefix
  split
  · rfl
  · next s _ =>
    rw [reparsePrefix_ok (A := Ipv4Addr) (by decide), Result.ok_bind]
    exact reparsePrefix_ok (A := Ipv6Addr) (by decide) _

theorem parseRange_ok (data : ByteArray) : parseRange data = .ok () := by
  unfold parseRange
  split
  · rfl
  · rw [reparseRange_ok, Result.ok_bind, reparseRange_ok]

end Fuzz

/-- **Fuzz targets.**  No input crashes one of the four targets: no assertion of theirs fails, and
    no operation they call faults. -/
theorem fuzz_targets_pass [SortUnstableByKey (IpRange Ipv4Addr) Ipv4Addr] :
    (∀ ops, Fuzz.ipsetBuilder ops = .ok ()) ∧ (∀ input, Fuzz.ipsetOps input = .ok ()) ∧
    (∀ data, Fuzz.parsePrefix data = .ok ()) ∧ ∀ data, Fuzz.parseRange data = .ok () :=
  ⟨Fuzz.ipsetBuilder_ok, Fuzz.ipsetOps_ok, Fuzz.parsePrefix_ok, Fuzz.parseRange_ok⟩

end Ipnetx
