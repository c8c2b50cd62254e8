import Ipnetx.Model.Builder
import Ipnetx.Refinement.Represents
import Ipnetx.Refinement.Prefixes

/-! # The Builder

    A call appends the valid ranges it offers to the two queues, and does
    nothing else (`call_eq_ok`).  A builder holds two sets of addresses, one
    for each queue, so a call adds what it covers to one of the two
    (`call_holds`, the step lemma), a sequence of calls adds what its members
    cover (`calls_holds`, the run lemma), and `build` returns the
    representation of the difference.

    From there every reachable set is normalized (`Reachable.normalized`). -/

namespace Ipnetx

open Machine IpAddress

variable {A : Type} [IpAddress A]

/-! ## Section 1: What a call covers -/

/-- The addresses of a range, by `IpRange::contains`. -/
def IpRange.addrs (r : IpRange A) : Set A := {ip | r.contains ip = true}

/-- The addresses of a prefix, by the bit comparison `IpPrefix::contains`. -/
def IpPrefix.addrs (p : IpPrefix A) : Set A := {ip | p.contains ip = .ok true}

theorem IpPrefix.mem_addrs {p : IpPrefix A} {ip : A} : ip ∈ p.addrs ↔ val ip ∈ p.block :=
  contains_eq_true_iff

/-- `to_range` has the addresses of the prefix. -/
theorem IpPrefix.toRange_addrs (p : IpPrefix A) : ∃ r, p.toRange = .ok r ∧ r.addrs = p.addrs := by
  obtain ⟨r, hr, hseg⟩ := p.toRange_spec
  refine ⟨r, hr, ?_⟩
  apply Set.ext
  intro ip
  rw [p.mem_addrs, ← Block.mem_seg, ← hseg]
  exact IpRange.contains_iff

theorem IpRange.addrs_new_self (ip : A) : (IpRange.new ip ip).addrs = {ip} := by
  apply Set.ext
  intro x
  have hmem : x ∈ (IpRange.new ip ip).addrs ↔ val x ∈ (IpRange.new ip ip).seg :=
    IpRange.contains_iff
  rw [hmem, Set.mem_singleton_iff, ← val_inj, IpRange.seg_new, Segment.mem_def]
  exact ⟨fun h => le_antisymm h.2 h.1, fun h => ⟨h.ge, h.le⟩⟩

@[simp] theorem rangesSet_nil : rangesSet ([] : List (IpRange A)) = ∅ := by
  simp [rangesSet]

@[simp] theorem rangesSet_singleton (r : IpRange A) : rangesSet [r] = r.addrs := by
  simp [rangesSet, IpRange.addrs]

/-- Only a valid range has addresses. -/
theorem IpRange.isValid_of_contains {r : IpRange A} {ip : A} (h : r.contains ip = true) :
    r.isValid = true := by
  by_contra hvalid
  have hcontains : r.contains ip = false := by simp [contains, hvalid]
  rw [hcontains] at h
  cases h

/-- Leaving out the inverted ranges changes nothing. -/
theorem rangesSet_filter_isValid (rs : List (IpRange A)) :
    rangesSet (rs.filter (·.isValid)) = rangesSet rs := by
  apply Set.ext
  intro ip
  constructor
  · intro hin
    obtain ⟨r, hr, hip⟩ := hin
    exact ⟨r, List.mem_of_mem_filter hr, hip⟩
  · intro hin
    obtain ⟨r, hr, hip⟩ := hin
    exact ⟨r, List.mem_filter.mpr ⟨hr, IpRange.isValid_of_contains hip⟩, hip⟩

namespace IpSetBuilder

namespace Call

/-- The addresses an add call covers. -/
def adds : Call A → Set A
  | .addIp ip => {ip}
  | .addRange range => range.addrs
  | .addPrefix p => p.addrs
  | .addIpset other => other.addrs
  | _ => ∅

/-- The addresses a remove call covers. -/
def removes : Call A → Set A
  | .removeIp ip => {ip}
  | .removeRange range => range.addrs
  | .removePrefix p => p.addrs
  | .removeIpset other => other.addrs
  | _ => ∅

end Call

/-- The addresses covered by some add call. -/
def added (calls : List (Call A)) : Set A := {ip | ∃ c ∈ calls, ip ∈ c.adds}

/-- The addresses covered by some remove call. -/
def removed (calls : List (Call A)) : Set A := {ip | ∃ c ∈ calls, ip ∈ c.removes}

/-- The calls that collecting an iterator makes. -/
def Source.calls : Source A → List (Call A)
  | .new => []
  | .fromRanges ranges => ranges.map .addRange
  | .fromPrefixes prefixes => prefixes.map .addPrefix

/-! ## Section 2: The two queues -/

/-- The queues hold valid ranges with the addresses `S` and `T`. -/
structure Holds (b : IpSetBuilder A) (S T : Set A) : Prop where
  adds_valid : ∀ r ∈ b.adds, r.isValid = true
  removes_valid : ∀ r ∈ b.removes, r.isValid = true
  added : rangesSet b.adds = S
  removed : rangesSet b.removes = T

variable {b : IpSetBuilder A} {S T : Set A}

theorem new_holds : (new : IpSetBuilder A).Holds ∅ ∅ :=
  ⟨by simp [new], by simp [new], by simp [new, rangesSet], by simp [new, rangesSet]⟩

/-- A queue after a range is offered to it: an invalid range is ignored. -/
def push (rs : List (IpRange A)) (r : IpRange A) : List (IpRange A) :=
  if r.isValid then rs ++ [r] else rs

/-- After several ranges, the valid ones are at the end of the queue. -/
theorem foldl_push (rs : List (IpRange A)) (queue : List (IpRange A)) :
    rs.foldl push queue = queue ++ rs.filter (·.isValid) := by
  induction rs generalizing queue with
  | nil => exact (List.append_nil queue).symm
  | cons r rs ih =>
    rw [List.foldl_cons, ih]
    unfold push
    by_cases hvalid : r.isValid = true
    · rw [if_pos hvalid, List.filter_cons_of_pos hvalid, List.append_assoc]
      rfl
    · rw [if_neg hvalid, List.filter_cons_of_neg hvalid]

theorem foldl_addRange (rs : List (IpRange A)) (b : IpSetBuilder A) :
    rs.foldl addRange b = { b with adds := b.adds ++ rs.filter (·.isValid) } := by
  rw [← foldl_push]
  induction rs generalizing b with
  | nil => rfl
  | cons r rs ih =>
    have hstep : b.addRange r = { b with adds := push b.adds r } := by
      unfold addRange push
      split <;> rfl
    rw [List.foldl_cons, ih, hstep]
    rfl

theorem foldl_removeRange (rs : List (IpRange A)) (b : IpSetBuilder A) :
    rs.foldl removeRange b = { b with removes := b.removes ++ rs.filter (·.isValid) } := by
  rw [← foldl_push]
  induction rs generalizing b with
  | nil => rfl
  | cons r rs ih =>
    have hstep : b.removeRange r = { b with removes := push b.removes r } := by
      unfold removeRange push
      split <;> rfl
    rw [List.foldl_cons, ih, hstep]
    rfl

/-- The ranges that a call offers to the additions and to the removals. -/
inductive Offers : Call A → List (IpRange A) → List (IpRange A) → Prop where
  | addIp (ip : A) : Offers (.addIp ip) [IpRange.new ip ip] []
  | addRange (range : IpRange A) : Offers (.addRange range) [range] []
  | addPrefix {p : IpPrefix A} {range : IpRange A} (h : p.toRange = .ok range) :
      Offers (.addPrefix p) [range] []
  | addIpset (other : IpSet A) : Offers (.addIpset other) other.ranges []
  | removeIp (ip : A) : Offers (.removeIp ip) [] [IpRange.new ip ip]
  | removeRange (range : IpRange A) : Offers (.removeRange range) [] [range]
  | removePrefix {p : IpPrefix A} {range : IpRange A} (h : p.toRange = .ok range) :
      Offers (.removePrefix p) [] [range]
  | removeIpset (other : IpSet A) : Offers (.removeIpset other) [] other.ranges

/-- All that a call does: the valid ranges it offers go to the ends of the queues. -/
theorem call_eq_ok (b : IpSetBuilder A) (c : Call A) :
    ∃ rs ts, Offers c rs ts ∧ b.call c = .ok
      { adds := b.adds ++ rs.filter (·.isValid),
        removes := b.removes ++ ts.filter (·.isValid) } := by
  have hadd : ∀ rs : List (IpRange A), (.ok (rs.foldl addRange b) : Result _) = .ok
      { adds := b.adds ++ rs.filter (·.isValid),
        removes := b.removes ++ ([] : List (IpRange A)).filter (·.isValid) } := by
    intro rs
    rw [foldl_addRange, List.filter_nil, List.append_nil]
  have hremove : ∀ ts : List (IpRange A), (.ok (ts.foldl removeRange b) : Result _) = .ok
      { adds := b.adds ++ ([] : List (IpRange A)).filter (·.isValid),
        removes := b.removes ++ ts.filter (·.isValid) } := by
    intro ts
    rw [foldl_removeRange, List.filter_nil, List.append_nil]
  cases c with
  | addIp ip => exact ⟨_, _, .addIp ip, hadd [IpRange.new ip ip]⟩
  | addRange range => exact ⟨_, _, .addRange range, hadd [range]⟩
  | addPrefix p =>
    obtain ⟨range, hrange, _⟩ := p.toRange_spec
    have hcall : b.call (.addPrefix p) = .ok (b.addRange range) := by
      show b.addPrefix p = _
      unfold addPrefix
      rw [hrange]
      rfl
    exact ⟨_, _, .addPrefix hrange, hcall.trans (hadd [range])⟩
  | addIpset other => exact ⟨_, _, .addIpset other, hadd other.ranges⟩
  | removeIp ip => exact ⟨_, _, .removeIp ip, hremove [IpRange.new ip ip]⟩
  | removeRange range => exact ⟨_, _, .removeRange range, hremove [range]⟩
  | removePrefix p =>
    obtain ⟨range, hrange, _⟩ := p.toRange_spec
    have hcall : b.call (.removePrefix p) = .ok (b.removeRange range) := by
      show b.removePrefix p = _
      unfold removePrefix
      rw [hrange]
      rfl
    exact ⟨_, _, .removePrefix hrange, hcall.trans (hremove [range])⟩
  | removeIpset other => exact ⟨_, _, .removeIpset other, hremove other.ranges⟩

/-- The ranges that a call offers have the addresses it covers. -/
theorem Offers.rangesSet_eq {c : Call A} {rs ts : List (IpRange A)} (h : Offers c rs ts)
    (hsets : ∀ t, c.ipset? = some t → t.Normalized) :
    rangesSet rs = c.adds ∧ rangesSet ts = c.removes := by
  have hpre : ∀ {p : IpPrefix A} {range : IpRange A}, p.toRange = .ok range →
      rangesSet [range] = p.addrs := by
    intro p range hrange
    obtain ⟨r, hr, haddrs⟩ := p.toRange_addrs
    rw [hr, Except.ok.injEq] at hrange
    rw [rangesSet_singleton, ← hrange, haddrs]
  have hip : ∀ ip : A, rangesSet [IpRange.new ip ip] = {ip} := by
    intro ip
    rw [rangesSet_singleton, IpRange.addrs_new_self]
  cases h with
  | addIp ip => exact ⟨hip ip, rangesSet_nil⟩
  | addRange range => exact ⟨rangesSet_singleton range, rangesSet_nil⟩
  | addPrefix hrange => exact ⟨hpre hrange, rangesSet_nil⟩
  | addIpset other => exact ⟨(hsets other rfl).represents.rangesSet_eq, rangesSet_nil⟩
  | removeIp ip => exact ⟨rangesSet_nil, hip ip⟩
  | removeRange range => exact ⟨rangesSet_nil, rangesSet_singleton range⟩
  | removePrefix hrange => exact ⟨rangesSet_nil, hpre hrange⟩
  | removeIpset other => exact ⟨rangesSet_nil, (hsets other rfl).represents.rangesSet_eq⟩

/-- The queues stay valid. -/
theorem valid_append_filter {queue : List (IpRange A)} (hqueue : ∀ x ∈ queue, x.isValid = true)
    (rs : List (IpRange A)) : ∀ x ∈ queue ++ rs.filter (·.isValid), x.isValid = true := by
  intro x hx
  rcases List.mem_append.mp hx with h | h
  · exact hqueue x h
  · exact List.of_mem_filter h

/-! ## Section 3: Calls -/

/-- Every set passed to a call of the list satisfies `P`. -/
def SetsSatisfy (P : IpSet A → Prop) (calls : List (Call A)) : Prop :=
  ∀ c ∈ calls, ∀ t, c.ipset? = some t → P t

theorem setsSatisfy_nil {P : IpSet A → Prop} : SetsSatisfy P ([] : List (Call A)) :=
  fun _ hc => absurd hc List.not_mem_nil

/-- Calls that pass no sets. -/
theorem setsSatisfy_of_none {P : IpSet A → Prop} {calls : List (Call A)}
    (h : ∀ c ∈ calls, c.ipset? = none) : SetsSatisfy P calls := by
  intro c hc t ht
  rw [h c hc] at ht
  cases ht

theorem SetsSatisfy.imp {P Q : IpSet A → Prop} {calls : List (Call A)}
    (h : SetsSatisfy P calls) (hPQ : ∀ t, P t → Q t) : SetsSatisfy Q calls :=
  fun c hc t ht => hPQ t (h c hc t ht)

theorem SetsSatisfy.perm {P : IpSet A → Prop} {calls calls' : List (Call A)}
    (h : SetsSatisfy P calls) (hperm : calls'.Perm calls) : SetsSatisfy P calls' :=
  fun c hc => h c (hperm.mem_iff.mp hc)

/-- Collecting an iterator makes add calls only, and passes no sets. -/
theorem Source.calls_spec {source : Source A} {c : Call A} (hc : c ∈ source.calls) :
    c.ipset? = none ∧ c.removes = ∅ := by
  cases source with
  | new => cases hc
  | fromRanges ranges =>
    obtain ⟨r, _, rfl⟩ := List.mem_map.mp hc
    exact ⟨rfl, rfl⟩
  | fromPrefixes prefixes =>
    obtain ⟨p, _, rfl⟩ := List.mem_map.mp hc
    exact ⟨rfl, rfl⟩

theorem SetsSatisfy.append_source {P : IpSet A → Prop} {calls : List (Call A)}
    (h : SetsSatisfy P calls) (source : Source A) : SetsSatisfy P (source.calls ++ calls) := by
  intro c hc t ht
  rcases List.mem_append.mp hc with hs | hcalls
  · rw [(Source.calls_spec hs).1] at ht
    cases ht
  · exact h c hcalls t ht

/-- One call: what it covers is added to its queue. -/
theorem call_holds (hb : b.Holds S T) (c : Call A)
    (hsets : ∀ t, c.ipset? = some t → t.Normalized) :
    ∃ b', b.call c = .ok b' ∧ b'.Holds (S ∪ c.adds) (T ∪ c.removes) := by
  obtain ⟨rs, ts, hoffers, hcall⟩ := call_eq_ok b c
  obtain ⟨hadds, hremoves⟩ := hoffers.rangesSet_eq hsets
  have hadded : rangesSet (b.adds ++ rs.filter (·.isValid)) = S ∪ c.adds := by
    rw [rangesSet_append, rangesSet_filter_isValid, hb.added, hadds]
  have hremoved : rangesSet (b.removes ++ ts.filter (·.isValid)) = T ∪ c.removes := by
    rw [rangesSet_append, rangesSet_filter_isValid, hb.removed, hremoves]
  exact ⟨_, hcall, valid_append_filter hb.adds_valid rs, valid_append_filter hb.removes_valid ts,
    hadded, hremoved⟩

theorem added_cons (c : Call A) (calls : List (Call A)) :
    added (c :: calls) = c.adds ∪ added calls := by
  apply Set.ext
  intro ip
  simp [added]

/-- Collecting an iterator removes nothing. -/
theorem removed_append_source (source : Source A) (calls : List (Call A)) :
    removed (source.calls ++ calls) = removed calls := by
  apply Set.ext
  intro ip
  constructor
  · intro hin
    obtain ⟨c, hc, hip⟩ := hin
    rcases List.mem_append.mp hc with hs | hcalls
    · rw [(Source.calls_spec hs).2] at hip
      cases hip
    · exact ⟨c, hcalls, hip⟩
  · intro hin
    obtain ⟨c, hc, hip⟩ := hin
    exact ⟨c, List.mem_append_right _ hc, hip⟩

/-- What a list of calls covers does not depend on their order. -/
theorem added_perm {calls calls' : List (Call A)} (h : calls.Perm calls') :
    added calls = added calls' := by
  apply Set.ext
  intro ip
  simp only [added, Set.mem_ofPred_eq, h.mem_iff]

theorem removed_perm {calls calls' : List (Call A)} (h : calls.Perm calls') :
    removed calls = removed calls' := by
  apply Set.ext
  intro ip
  simp only [removed, Set.mem_ofPred_eq, h.mem_iff]

theorem removed_cons (c : Call A) (calls : List (Call A)) :
    removed (c :: calls) = c.removes ∪ removed calls := by
  apply Set.ext
  intro ip
  simp [removed]

theorem added_map_addRange (rs : List (IpRange A)) :
    added (rs.map Call.addRange) = rangesSet rs := by
  apply Set.ext
  intro ip
  simp [added, rangesSet, Call.adds, IpRange.addrs]

theorem removed_map_addRange (rs : List (IpRange A)) :
    removed (rs.map (Call.addRange (A := A))) = ∅ := by
  apply Set.ext
  intro ip
  simp [removed, Call.removes]

/-- A sequence of calls. -/
theorem calls_holds (hb : b.Holds S T) (calls : List (Call A))
    (hsets : SetsSatisfy IpSet.Normalized calls) :
    ∃ b', calls.foldlM call b = .ok b' ∧ b'.Holds (S ∪ added calls) (T ∪ removed calls) := by
  induction calls generalizing b S T with
  | nil => exact ⟨b, rfl, by simpa [added, removed] using hb⟩
  | cons c calls ih =>
    obtain ⟨b₁, h₁, hb₁⟩ := call_holds hb c (hsets c List.mem_cons_self)
    obtain ⟨b₂, h₂, hb₂⟩ := ih hb₁ fun c' hc' => hsets c' (List.mem_cons_of_mem _ hc')
    have hrun : (c :: calls).foldlM call b = .ok b₂ := by
      rw [List.foldlM_cons, h₁]
      exact h₂
    rw [Set.union_assoc, Set.union_assoc, ← added_cons, ← removed_cons] at hb₂
    exact ⟨b₂, hrun, hb₂⟩

/-- Collecting an iterator is a sequence of calls on the new builder. -/
theorem start_eq_calls (source : Source A) : start source = source.calls.foldlM call new := by
  cases source with
  | new => rfl
  | fromRanges ranges =>
    have hfold : ∀ b : IpSetBuilder A, Except.ok (ranges.foldl addRange b) =
        (ranges.map Call.addRange).foldlM call b := by
      induction ranges with
      | nil => exact fun _ => rfl
      | cons r ranges ih => exact fun b => ih (b.addRange r)
    exact hfold new
  | fromPrefixes prefixes =>
    show prefixes.foldlM addPrefix new = (prefixes.map Call.addPrefix).foldlM call new
    rw [List.foldlM_map]
    rfl

/-! ## Section 4: Building -/

variable [SortUnstableByKey (IpRange A) A]

/-- `build` subtracts the removals from the additions, whichever path it takes. -/
theorem build_represents (hb : b.Holds S T) : ∃ s, b.build = .ok s ∧ s.Represents (S \ T) := by
  have hadds := normalize_represents hb.adds_valid
  have hremoves := normalize_represents hb.removes_valid
  rw [hb.added] at hadds
  rw [hb.removed] at hremoves
  unfold build
  split
  · next hempty =>
    have hT : T = ∅ := by
      rw [← hb.removed, List.isEmpty_iff.mp hempty]
      simp [rangesSet]
    rw [hT, Set.sdiff_empty]
    exact ⟨_, rfl, hadds⟩
  · exact IpSet.difference_represents hadds hremoves

/-- Collecting and then calling is calling on a new builder. -/
theorem run_eq_calls (source : Source A) (calls : List (Call A)) :
    run source calls = (source.calls ++ calls).foldlM call new >>= build := by
  unfold run
  rw [start_eq_calls, List.foldlM_append, bind_assoc]

/-- **Builder semantics.**  A run returns the added addresses less the removed ones. -/
theorem run_represents (source : Source A) {calls : List (Call A)}
    (hsets : SetsSatisfy IpSet.Normalized calls) :
    ∃ s, run source calls = .ok s ∧
      s.Represents (added (source.calls ++ calls) \ removed calls) := by
  obtain ⟨b', hb', hholds⟩ := calls_holds new_holds _ (hsets.append_source source)
  rw [Set.empty_union, Set.empty_union, removed_append_source] at hholds
  obtain ⟨s, hs, hrep⟩ := build_represents hholds
  have hrun : run source calls = .ok s := by
    rw [run_eq_calls, hb']
    exact hs
  exact ⟨s, hrun, hrep⟩

end IpSetBuilder

/-! ## Section 5: Reachable sets -/

/-- An operation that returns a representation returns a normalized set. -/
private theorem normalized_of_ok {x : Result (IpSet A)} {s : IpSet A} {S : Set A}
    (h : x = .ok s) (hx : ∃ u, x = .ok u ∧ u.Represents S) : s.Normalized := by
  obtain ⟨u, hu, hrep⟩ := hx
  rw [h, Except.ok.injEq] at hu
  exact hu ▸ hrep.normalized

section
variable [SortUnstableByKey (IpRange A) A]

/-- What a collected iterator builds is reachable. -/
theorem Reachable.of_source {source : IpSetBuilder.Source A} {s : IpSet A}
    (h : IpSetBuilder.run source [] = .ok s) : Reachable s :=
  .build (fun _ hc => absurd hc List.not_mem_nil) h

/-- **Representation invariant.**  Every reachable set is normalized. -/
theorem Reachable.normalized {s : IpSet A} (h : Reachable s) : s.Normalized := by
  induction h with
  | build _ hrun ih => exact normalized_of_ok hrun (IpSetBuilder.run_represents _ ih)
  | union _ _ hop iha ihb =>
    exact normalized_of_ok hop (IpSet.union_represents iha.represents ihb.represents)
  | difference _ _ hop iha ihb =>
    exact normalized_of_ok hop (IpSet.difference_represents iha.represents ihb.represents)
  | intersection _ _ hop iha ihb =>
    exact normalized_of_ok hop (IpSet.intersection_represents iha.represents ihb.represents)
  | complement _ hop iha =>
    exact normalized_of_ok hop (IpSet.complement_represents iha.represents)

/-- A reachable set represents the addresses it contains. -/
theorem Reachable.represents {s : IpSet A} (h : Reachable s) : s.Represents s.addrs :=
  h.normalized.represents

end

end Ipnetx
