import Ipnetx.Segment.Length
import Ipnetx.Properties.Normalization
import Ipnetx.Properties.Runs

/-! # Fragmentation

    How many ranges the sets of a program can have.  Every operation keeps the
    number of stored ranges linear in that of its arguments, and a builder
    stores at most one range for each range in its queues, removals included.

    The bounds for `union` and for normalization come from minimality
    (`IpSet.Represents.length_le`), the others from the walks
    (`Ipnetx.Segment.Length`). -/

namespace Ipnetx

open Machine IpAddress

variable {A : Type} [IpAddress A]

/-! ## Section 1: The set operations -/

namespace IpSet

theorem len_eq_length_view (s : IpSet A) : s.len = s.view.length := by
  rw [view, segs, List.length_map]
  rfl

variable {s t : IpSet A} {S T : Set A}

theorem union_len_le (hs : s.Represents S) (ht : t.Represents T) :
    ∃ u, s.union t = .ok u ∧ u.len ≤ s.len + t.len := by
  obtain ⟨u, hu, hrep⟩ := union_represents hs ht
  rw [← hs.rangesSet_eq, ← ht.rangesSet_eq, ← rangesSet_append] at hrep
  have hlen := hrep.length_le
  rw [List.length_append] at hlen
  exact ⟨u, hu, hlen⟩

theorem difference_len_le (s t : IpSet A) :
    ∃ d, s.difference t = .ok d ∧ d.len ≤ s.len + t.len := by
  obtain ⟨d, hd, hview⟩ := difference_refines s t
  have hlen : d.len ≤ s.len + t.len := by
    rw [len_eq_length_view, len_eq_length_view, len_eq_length_view, hview]
    exact Segment.subtract_length_le s.view t.view
  exact ⟨d, hd, hlen⟩

theorem intersection_len_le (s t : IpSet A) :
    ∃ i, s.intersection t = .ok i ∧ i.len ≤ s.len + t.len - 1 ∧
      (s.len = 0 ∨ t.len = 0 → i.len = 0) := by
  obtain ⟨i, hi, hview⟩ := intersection_refines s t
  have hlen : i.len ≤ s.len + t.len - 1 := by
    rw [len_eq_length_view, len_eq_length_view, len_eq_length_view, hview]
    exact Segment.intersect_length_le s.view t.view
  have hzero : s.len = 0 ∨ t.len = 0 → i.len = 0 := by
    rw [len_eq_length_view, len_eq_length_view, len_eq_length_view, hview,
      List.length_eq_zero_iff, List.length_eq_zero_iff, List.length_eq_zero_iff]
    intro hnil
    rcases hnil with h | h
    · rw [h, Segment.intersect_nil_left]
    · rw [h, Segment.intersect_nil_right]
  exact ⟨i, hi, hlen, hzero⟩

theorem complement_len (hs : s.Normalized) (hpos : 1 ≤ s.len) :
    ∃ c, s.complement = .ok c ∧
      c.len + (s.containsIp (fromU128 0)).toNat + (s.containsIp (fromU128 (maxAddr A))).toNat =
        s.len + 1 := by
  obtain ⟨c, hc, hview⟩ := complement_refines hs
  have hne : s.view ≠ [] := by
    rw [← List.length_pos_iff, ← len_eq_length_view]
    exact hpos
  have hfirst : s.containsIp (fromU128 0) = true ↔ 0 ∈ Segment.cover s.view := by
    rw [containsIp_iff hs, val_fromU128 (Nat.two_pow_pos _)]
    rfl
  have hlast : s.containsIp (fromU128 (maxAddr A)) = true ↔
      2 ^ bits A - 1 ∈ Segment.cover s.view := by
    have hlt : (maxAddr A).toNat < 2 ^ bits A := by
      rw [toNat_maxAddr]
      exact Nat.sub_one_lt (Nat.two_pow_pos _).ne'
    rw [containsIp_iff hs, val_fromU128 hlt, toNat_maxAddr]
  refine ⟨c, hc, ?_⟩
  rw [len_eq_length_view, len_eq_length_view, hview]
  exact Segment.gaps_length hne hs (fun x _ => Nat.zero_le x.lo) view_hi_le hfirst hlast

end IpSet

/-! ## Section 2: The queues of a builder -/

namespace IpSetBuilder

namespace Call

/-- The number of ranges an add call queues: one, none for an invalid range, and each
    range of a passed set. -/
def queuedAdds : Call A → ℕ
  | .addIp _ => 1
  | .addRange range => if range.isValid then 1 else 0
  | .addPrefix _ => 1
  | .addIpset other => other.len
  | _ => 0

/-- The number of ranges a remove call queues. -/
def queuedRemoves : Call A → ℕ
  | .removeIp _ => 1
  | .removeRange range => if range.isValid then 1 else 0
  | .removePrefix _ => 1
  | .removeIpset other => other.len
  | _ => 0

end Call

/-- The ranges that the add calls of a list queue. -/
def queuedAdds (calls : List (Call A)) : ℕ := (calls.map Call.queuedAdds).sum

/-- The ranges that the remove calls of a list queue. -/
def queuedRemoves (calls : List (Call A)) : ℕ := (calls.map Call.queuedRemoves).sum

/-- The queues have `k` and `l` ranges. -/
def Queued (b : IpSetBuilder A) (k l : ℕ) : Prop := b.adds.length = k ∧ b.removes.length = l

variable {b : IpSetBuilder A} {k l : ℕ}

/-- The range of a prefix is valid. -/
theorem toRange_isValid {p : IpPrefix A} {r : IpRange A} (h : p.toRange = .ok r) :
    r.isValid = true := by
  obtain ⟨r', hr', hseg⟩ := p.toRange_spec
  rw [h, Except.ok.injEq] at hr'
  rw [IpRange.isValid_iff, hr', hseg]
  exact p.block.lo_le_hi

/-- The number of valid ranges that a call offers. -/
theorem Offers.length_filter {c : Call A} {rs ts : List (IpRange A)} (h : Offers c rs ts)
    (hsets : ∀ t, c.ipset? = some t → t.Normalized) :
    (rs.filter (·.isValid)).length = c.queuedAdds ∧
      (ts.filter (·.isValid)).length = c.queuedRemoves := by
  have hrange : ∀ r : IpRange A,
      ([r].filter (·.isValid)).length = if r.isValid then 1 else 0 := by
    intro r
    rw [List.filter_singleton]
    cases r.isValid <;> rfl
  have hip : ∀ ip : A, ([IpRange.new ip ip].filter (·.isValid)).length = 1 := by
    intro ip
    have hvalid : (IpRange.new ip ip).isValid = true := decide_eq_true le_rfl
    rw [hrange, if_pos hvalid]
  have hpre : ∀ {p : IpPrefix A} {r : IpRange A}, p.toRange = .ok r →
      ([r].filter (·.isValid)).length = 1 := by
    intro p r hr
    rw [hrange, if_pos (toRange_isValid hr)]
  have hset : ∀ {s : IpSet A}, s.Normalized → (s.ranges.filter (·.isValid)).length = s.len := by
    intro s hs
    rw [List.filter_eq_self.mpr fun r hr => hs.isValid hr]
    rfl
  cases h with
  | addIp ip => exact ⟨hip ip, rfl⟩
  | addRange range => exact ⟨hrange range, rfl⟩
  | addPrefix hr => exact ⟨hpre hr, rfl⟩
  | addIpset other => exact ⟨hset (hsets other rfl), rfl⟩
  | removeIp ip => exact ⟨rfl, hip ip⟩
  | removeRange range => exact ⟨rfl, hrange range⟩
  | removePrefix hr => exact ⟨rfl, hpre hr⟩
  | removeIpset other => exact ⟨rfl, hset (hsets other rfl)⟩

/-- One call: the queues grow by what it queues. -/
theorem call_queued (hb : b.Queued k l) (c : Call A)
    (hsets : ∀ t, c.ipset? = some t → t.Normalized) :
    ∃ b', b.call c = .ok b' ∧ b'.Queued (k + c.queuedAdds) (l + c.queuedRemoves) := by
  obtain ⟨rs, ts, hoffers, hcall⟩ := call_eq_ok b c
  obtain ⟨hadds, hremoves⟩ := hoffers.length_filter hsets
  have hk : (b.adds ++ rs.filter (·.isValid)).length = k + c.queuedAdds := by
    rw [List.length_append, hb.1, hadds]
  have hl : (b.removes ++ ts.filter (·.isValid)).length = l + c.queuedRemoves := by
    rw [List.length_append, hb.2, hremoves]
  exact ⟨_, hcall, hk, hl⟩

theorem calls_queued (hb : b.Queued k l) (calls : List (Call A))
    (hsets : SetsSatisfy IpSet.Normalized calls) :
    ∃ b', calls.foldlM call b = .ok b' ∧
      b'.Queued (k + queuedAdds calls) (l + queuedRemoves calls) := by
  induction calls generalizing b k l with
  | nil => exact ⟨b, rfl, hb⟩
  | cons c calls ih =>
    obtain ⟨b₁, h₁, hb₁⟩ := call_queued hb c (hsets c List.mem_cons_self)
    obtain ⟨b₂, h₂, hb₂⟩ := ih hb₁ fun c' hc' => hsets c' (List.mem_cons_of_mem _ hc')
    have hrun : (c :: calls).foldlM call b = .ok b₂ := by
      rw [List.foldlM_cons, h₁]
      exact h₂
    have hqueued : b₂.Queued (k + queuedAdds (c :: calls)) (l + queuedRemoves (c :: calls)) := by
      unfold queuedAdds queuedRemoves
      rw [List.map_cons, List.map_cons, List.sum_cons, List.sum_cons, ← Nat.add_assoc,
        ← Nat.add_assoc]
      exact hb₂
    exact ⟨b₂, hrun, hqueued⟩

/-- Collecting an iterator queues no removals. -/
theorem queuedRemoves_source (source : Source A) : queuedRemoves source.calls = 0 := by
  cases source with
  | new => rfl
  | fromRanges ranges => simp [queuedRemoves, Source.calls, Call.queuedRemoves, Function.comp_def]
  | fromPrefixes prefixes =>
    simp [queuedRemoves, Source.calls, Call.queuedRemoves, Function.comp_def]

variable [SortUnstableByKey (IpRange A) A]

/-- `build` stores at most one range for each queued range. -/
theorem build_len_le {S T : Set A} (hb : b.Holds S T) (hq : b.Queued k l) :
    ∃ s, b.build = .ok s ∧ s.len ≤ k + l := by
  have hadds := (normalize_represents hb.adds_valid).length_le
  have hremoves := (normalize_represents hb.removes_valid).length_le
  rw [hq.1] at hadds
  rw [hq.2] at hremoves
  unfold build
  split
  · exact ⟨_, rfl, hadds.trans (Nat.le_add_right k l)⟩
  · obtain ⟨d, hd, hlen⟩ :=
      IpSet.difference_len_le (IpSet.new (normalize b.adds)) (IpSet.new (normalize b.removes))
    exact ⟨d, hd, hlen.trans (Nat.add_le_add hadds hremoves)⟩

theorem run_len_le (source : Source A) {calls : List (Call A)}
    (hsets : SetsSatisfy IpSet.Normalized calls) :
    ∃ s, run source calls = .ok s ∧
      s.len ≤ queuedAdds (source.calls ++ calls) + queuedRemoves calls := by
  have hall := hsets.append_source source
  obtain ⟨b, hb, hholds⟩ := calls_holds new_holds _ hall
  have hnew : (new : IpSetBuilder A).Queued 0 0 := ⟨rfl, rfl⟩
  obtain ⟨b', hb', hqueued⟩ := calls_queued hnew _ hall
  rw [hb, Except.ok.injEq] at hb'
  obtain ⟨s, hs, hlen⟩ := build_len_le hholds (hb' ▸ hqueued)
  have hremoves : queuedRemoves (source.calls ++ calls) = queuedRemoves calls := by
    have hsource := queuedRemoves_source source
    unfold queuedRemoves at *
    rw [List.map_append, List.sum_append, hsource, Nat.zero_add]
  rw [Nat.zero_add, Nat.zero_add, hremoves] at hlen
  have hrun : run source calls = .ok s := by
    rw [run_eq_calls, hb]
    exact hs
  exact ⟨s, hrun, hlen⟩

end IpSetBuilder

/-! ## Section 3: Reachable sets -/

open IpSetBuilder

variable [SortUnstableByKey (IpRange A) A]

/-- **Fragmentation.**  On sets of `m` and `n` ranges, union and difference store at most
    `m + n` ranges and intersection at most `m + n - 1`; the complement of a non-empty set
    stores exactly `m + 1` less one for each covered end of the address space.  A run stores
    at most as many ranges as its calls queue. -/
theorem len_bounds {a b : IpSet A} (ha : Reachable a) (hb : Reachable b) :
    (∃ u, a.union b = .ok u ∧ u.len ≤ a.len + b.len) ∧
    (∃ d, a.difference b = .ok d ∧ d.len ≤ a.len + b.len) ∧
    (∃ i, a.intersection b = .ok i ∧
      (a.isEmpty = false ∧ b.isEmpty = false → i.len ≤ a.len + b.len - 1) ∧
      (¬ (a.isEmpty = false ∧ b.isEmpty = false) → i.len = 0)) ∧
    (1 ≤ a.len → ∃ c, a.complement = .ok c ∧
      c.len + (a.containsIp (fromU128 0)).toNat + (a.containsIp (fromU128 (maxAddr A))).toNat =
        a.len + 1) ∧
    ∀ (source : Source A) (calls : List (Call A)), SetsSatisfy Reachable calls →
      ∃ s, run source calls = .ok s ∧
        s.len ≤ queuedAdds (source.calls ++ calls) + queuedRemoves calls := by
  have hempty : ∀ s : IpSet A, s.isEmpty = true → s.len = 0 := by
    intro s hs
    rw [IpSet.len, List.isEmpty_iff.mp hs, List.length_nil]
  have hunion := IpSet.union_len_le ha.represents hb.represents
  have hdiff := IpSet.difference_len_le a b
  obtain ⟨i, hi, hle, hzero⟩ := IpSet.intersection_len_le a b
  refine ⟨hunion, hdiff, ⟨i, hi, fun _ => hle, ?_⟩, IpSet.complement_len ha.normalized, ?_⟩
  · intro hnot
    rw [not_and_or, Bool.not_eq_false, Bool.not_eq_false] at hnot
    exact hzero (hnot.imp (hempty a) (hempty b))
  · intro source calls hsets
    exact run_len_le source (hsets.imp fun _ ht => ht.normalized)

/-- The complement of the sample set, which covers neither end, has three ranges. -/
theorem len_bounds_sampleSet : ∃ c, sampleSet.complement = .ok c ∧ c.len = 3 := by
  obtain ⟨c, hc, hlen⟩ := (@len_bounds Ipv4Addr _ (.ofInsertionSort _ _) _ _
    reachable_sampleSet reachable_sampleSet).2.2.2.1 (by decide)
  have hfirst : sampleSet.containsIp (fromU128 0) = false := by decide +kernel
  have hlast : sampleSet.containsIp (fromU128 (maxAddr Ipv4Addr)) = false := by decide +kernel
  rw [hfirst, hlast] at hlen
  exact ⟨c, hc, hlen⟩

end Ipnetx
