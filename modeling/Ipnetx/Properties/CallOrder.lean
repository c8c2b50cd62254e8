import Ipnetx.Properties.Runs
import Ipnetx.Refinement.Queries

/-! # Removals Always Win

    A builder queues its calls and `build` applies all removals last.  A
    program that applies each call to a set at once, by `union` and
    `difference`, lets the last call win instead.

    - `build_eq_runNow_iff`: when the two agree.
    - `resume_iff`: when a program may `build` in the middle and go on with
      a new builder that starts from the set built. -/

namespace Ipnetx

open Machine IpAddress IpSetBuilder

variable {A : Type} [IpAddress A]

/-! ## Section 1: The last call wins -/

/-- The addresses after the calls, each applied at once. -/
def applied (S : Set A) (calls : List (Call A)) : Set A :=
  calls.foldl (fun S c => (S ∪ c.adds) \ c.removes) S

/-- A call adds or removes. -/
theorem IpSetBuilder.Call.removes_eq_empty {c : Call A} {ip : A} (h : ip ∈ c.adds) :
    c.removes = ∅ := by
  cases c with
  | addIp => rfl
  | addRange => rfl
  | addPrefix => rfl
  | addIpset => rfl
  | removeIp => cases h
  | removeRange => cases h
  | removePrefix => cases h
  | removeIpset => cases h

/-- An address is there at the end if some call adds it, or it was there, and no later call
    removes it. -/
theorem mem_applied_iff {S : Set A} {calls : List (Call A)} {ip : A} :
    ip ∈ applied S calls ↔ (ip ∈ S ∧ ip ∉ removed calls) ∨
      ∃ xs c ys, calls = xs ++ c :: ys ∧ ip ∈ c.adds ∧ ip ∉ removed ys := by
  induction calls generalizing S with
  | nil => simp [applied, removed]
  | cons c calls ih =>
    have hstep : ip ∈ applied S (c :: calls) ↔
        ip ∈ applied ((S ∪ c.adds) \ c.removes) calls := Iff.rfl
    rw [hstep, ih, removed_cons]
    have hmp : (ip ∈ (S ∪ c.adds) \ c.removes ∧ ip ∉ removed calls) ∨
        (∃ xs d ys, calls = xs ++ d :: ys ∧ ip ∈ d.adds ∧ ip ∉ removed ys) →
        (ip ∈ S ∧ ip ∉ c.removes ∪ removed calls) ∨
          ∃ xs d ys, c :: calls = xs ++ d :: ys ∧ ip ∈ d.adds ∧ ip ∉ removed ys := by
      rintro (⟨⟨hS | hadd, hc⟩, hcalls⟩ | ⟨xs, d, ys, hsplit, hadd, hys⟩)
      · exact Or.inl ⟨hS, fun hin => hin.elim hc hcalls⟩
      · exact Or.inr ⟨[], c, calls, rfl, hadd, hcalls⟩
      · exact Or.inr ⟨c :: xs, d, ys, by rw [hsplit, List.cons_append], hadd, hys⟩
    have hmpr : (ip ∈ S ∧ ip ∉ c.removes ∪ removed calls) ∨
        (∃ xs d ys, c :: calls = xs ++ d :: ys ∧ ip ∈ d.adds ∧ ip ∉ removed ys) →
        (ip ∈ (S ∪ c.adds) \ c.removes ∧ ip ∉ removed calls) ∨
          ∃ xs d ys, calls = xs ++ d :: ys ∧ ip ∈ d.adds ∧ ip ∉ removed ys := by
      rintro (⟨hS, hno⟩ | ⟨xs, d, ys, hsplit, hadd, hys⟩)
      · exact Or.inl ⟨⟨Or.inl hS, fun h => hno (Or.inl h)⟩, fun h => hno (Or.inr h)⟩
      · cases xs with
        | nil =>
          cases hsplit
          exact Or.inl ⟨⟨Or.inr hadd, by simp [Call.removes_eq_empty hadd]⟩, hys⟩
        | cons x xs =>
          cases hsplit
          exact Or.inr ⟨xs, d, ys, rfl, hadd, hys⟩
    exact ⟨hmp, hmpr⟩

theorem mem_added_iff {calls : List (Call A)} {ip : A} :
    ip ∈ added calls ↔ ∃ xs c ys, calls = xs ++ c :: ys ∧ ip ∈ c.adds := by
  have hmp : ip ∈ added calls → ∃ xs c ys, calls = xs ++ c :: ys ∧ ip ∈ c.adds := by
    intro hin
    obtain ⟨c, hc, hip⟩ := hin
    obtain ⟨xs, ys, hsplit⟩ := List.append_of_mem hc
    exact ⟨xs, c, ys, hsplit, hip⟩
  have hmpr : (∃ xs c ys, calls = xs ++ c :: ys ∧ ip ∈ c.adds) → ip ∈ added calls := by
    intro hin
    obtain ⟨xs, c, ys, rfl, hip⟩ := hin
    exact ⟨c, by simp, hip⟩
  exact ⟨hmp, hmpr⟩

theorem removed_append (xs ys : List (Call A)) :
    removed (xs ++ ys) = removed xs ∪ removed ys := by
  apply Set.ext
  intro ip
  simp only [removed, List.mem_append, Set.mem_ofPred_eq, or_and_right, exists_or, Set.mem_union]

theorem added_append (xs ys : List (Call A)) : added (xs ++ ys) = added xs ∪ added ys := by
  apply Set.ext
  intro ip
  simp only [added, List.mem_append, Set.mem_ofPred_eq, or_and_right, exists_or, Set.mem_union]

/-- What no call removes stays. -/
theorem added_diff_removed_subset (calls : List (Call A)) :
    added calls \ removed calls ⊆ applied ∅ calls := by
  intro ip hip
  obtain ⟨xs, c, ys, rfl, hadd⟩ := mem_added_iff.mp hip.1
  rw [mem_applied_iff]
  refine Or.inr ⟨xs, c, ys, rfl, hadd, ?_⟩
  intro hys
  apply hip.2
  rw [removed_append, removed_cons]
  exact Or.inr (Or.inr hys)

/-- The calls that can be applied at once: what is removed and added again is removed again. -/
def RemovalsLast (calls : List (Call A)) : Prop :=
  ∀ xs c ys, calls = xs ++ c :: ys → removed xs ∩ c.adds ⊆ removed ys

theorem applied_eq_iff {calls : List (Call A)} :
    added calls \ removed calls = applied ∅ calls ↔ RemovalsLast calls := by
  have hmp : added calls \ removed calls = applied ∅ calls → RemovalsLast calls := by
    intro heq xs c ys hsplit ip hip
    by_contra hys
    have hin : ip ∈ applied ∅ calls := mem_applied_iff.mpr (Or.inr ⟨xs, c, ys, hsplit, hip.2, hys⟩)
    rw [← heq] at hin
    apply hin.2
    rw [hsplit, removed_append]
    exact Or.inl hip.1
  have hmpr : RemovalsLast calls → added calls \ removed calls = applied ∅ calls := by
    intro hlast
    apply Set.Subset.antisymm (added_diff_removed_subset calls)
    intro ip hip
    rcases mem_applied_iff.mp hip with ⟨hempty, _⟩ | ⟨xs, c, ys, hsplit, hadd, hys⟩
    · cases hempty
    · refine ⟨mem_added_iff.mpr ⟨xs, c, ys, hsplit, hadd⟩, ?_⟩
      rw [hsplit, removed_append, removed_cons, Call.removes_eq_empty hadd, Set.empty_union]
      rintro (hxs | hin)
      · exact hys (hlast xs c ys hsplit ⟨hxs, hadd⟩)
      · exact hys hin
  exact ⟨hmp, hmpr⟩

/-! ## Section 2: Applying calls at once -/

variable [SortUnstableByKey (IpRange A) A]

/-- The call as a set operation. -/
def applyNow (s : IpSet A) : Call A → Result (IpSet A)
  | .addIp ip => do s.union (← run .new [.addIp ip])
  | .addRange range => do s.union (← run .new [.addRange range])
  | .addPrefix p => do s.union (← run .new [.addPrefix p])
  | .addIpset other => s.union other
  | .removeIp ip => do s.difference (← run .new [.addIp ip])
  | .removeRange range => do s.difference (← run .new [.addRange range])
  | .removePrefix p => do s.difference (← run .new [.addPrefix p])
  | .removeIpset other => s.difference other

/-- Every call at once, from the empty set. -/
def runNow (calls : List (Call A)) : Result (IpSet A) := do
  let empty ← run .new []
  calls.foldlM applyNow empty

/-- The set of one add call. -/
theorem run_single_represents {c : Call A} (hremoves : c.removes = ∅)
    (hsets : ∀ t, c.ipset? = some t → t.Normalized) :
    ∃ s, run .new [c] = .ok s ∧ s.Represents c.adds := by
  have hall : SetsSatisfy IpSet.Normalized [c] := by
    intro d hd
    rw [List.mem_singleton.mp hd]
    exact hsets
  obtain ⟨s, hs, hrep⟩ := run_represents .new hall
  have haddrs : added ((Source.new : Source A).calls ++ [c]) \ removed [c] = c.adds := by
    simp [added, removed, Source.calls, hremoves]
  exact ⟨s, hs, haddrs ▸ hrep⟩

theorem applyNow_represents {s : IpSet A} {S : Set A} (hs : s.Represents S) (c : Call A)
    (hsets : ∀ t, c.ipset? = some t → t.Normalized) :
    ∃ u, applyNow s c = .ok u ∧ u.Represents ((S ∪ c.adds) \ c.removes) := by
  have hadd : ∀ d : Call A, d.removes = ∅ → d.ipset? = none →
      ∃ u, (do s.union (← run .new [d])) = .ok u ∧ u.Represents ((S ∪ d.adds) \ ∅) := by
    intro d hd hnone
    obtain ⟨t, ht, hrep⟩ := run_single_represents hd (by simp [hnone])
    obtain ⟨u, hu, hrepu⟩ := IpSet.union_represents hs hrep
    exact ⟨u, by simp [ht, hu], by rwa [Set.sdiff_empty]⟩
  have hremove : ∀ d : Call A, d.removes = ∅ → d.ipset? = none →
      ∃ u, (do s.difference (← run .new [d])) = .ok u ∧ u.Represents ((S ∪ ∅) \ d.adds) := by
    intro d hd hnone
    obtain ⟨t, ht, hrep⟩ := run_single_represents hd (by simp [hnone])
    obtain ⟨u, hu, hrepu⟩ := IpSet.difference_represents hs hrep
    exact ⟨u, by simp [ht, hu], by rwa [Set.union_empty]⟩
  cases c with
  | addIp ip => exact hadd (.addIp ip) rfl rfl
  | addRange range => exact hadd (.addRange range) rfl rfl
  | addPrefix p => exact hadd (.addPrefix p) rfl rfl
  | addIpset other =>
    obtain ⟨u, hu, hrep⟩ := IpSet.union_represents hs (hsets other rfl).represents
    exact ⟨u, hu, (Set.sdiff_empty (s := S ∪ other.addrs)).symm ▸ hrep⟩
  | removeIp ip => exact hremove (.addIp ip) rfl rfl
  | removeRange range => exact hremove (.addRange range) rfl rfl
  | removePrefix p => exact hremove (.addPrefix p) rfl rfl
  | removeIpset other =>
    obtain ⟨u, hu, hrep⟩ := IpSet.difference_represents hs (hsets other rfl).represents
    exact ⟨u, hu, (Set.union_empty S).symm ▸ hrep⟩

theorem foldlM_applyNow_represents (calls : List (Call A)) {s : IpSet A} {S : Set A}
    (hs : s.Represents S) (hsets : SetsSatisfy IpSet.Normalized calls) :
    ∃ u, calls.foldlM applyNow s = .ok u ∧ u.Represents (applied S calls) := by
  induction calls generalizing s S with
  | nil => exact ⟨s, rfl, hs⟩
  | cons c calls ih =>
    obtain ⟨t, ht, hrep⟩ := applyNow_represents hs c (hsets c List.mem_cons_self)
    obtain ⟨u, hu, hrepu⟩ := ih hrep fun d hd => hsets d (List.mem_cons_of_mem _ hd)
    have hrun : (c :: calls).foldlM applyNow s = .ok u := by
      rw [List.foldlM_cons, ht]
      exact hu
    exact ⟨u, hrun, hrepu⟩

theorem runNow_represents {calls : List (Call A)} (hsets : SetsSatisfy IpSet.Normalized calls) :
    ∃ u, runNow calls = .ok u ∧ u.Represents (applied ∅ calls) := by
  obtain ⟨s, hs, hrep⟩ := run_represents (.new : Source A) setsSatisfy_nil
  have hempty : added ((Source.new : Source A).calls ++ []) \ removed [] = ∅ := by
    simp [added, Source.calls]
  rw [hempty] at hrep
  obtain ⟨u, hu, hrepu⟩ := foldlM_applyNow_represents calls hrep hsets
  have hrun : runNow calls = .ok u := by
    unfold runNow
    rw [hs]
    exact hu
  exact ⟨u, hrun, hrepu⟩

/-! ## Section 3: Queued and immediate calls -/

/-- **Queued or at once.**  What a builder builds is a subset of what the same calls make when
    each is applied at once; the two are equal if and only if every address that is added after a
    removal is removed again later. -/
theorem build_eq_runNow_iff {calls : List (Call A)} (hsets : SetsSatisfy Reachable calls) :
    ∃ s t, run .new calls = .ok s ∧ runNow calls = .ok t ∧ s.isSubsetOf t = .ok true ∧
      (s = t ↔ RemovalsLast calls) := by
  have hnorm := hsets.imp fun _ ht => ht.normalized
  obtain ⟨s, hs, hrep⟩ := run_represents .new hnorm
  obtain ⟨t, ht, hrept⟩ := runNow_represents hnorm
  rw [show (Source.new : Source A).calls ++ calls = calls from rfl] at hrep
  obtain ⟨b, hb, hiff⟩ := IpSet.isSubsetOf_represents hrep hrept
  rw [hiff.mpr (added_diff_removed_subset calls)] at hb
  exact ⟨s, t, hs, ht, hb, (hrep.eq_iff hrept).trans applied_eq_iff⟩

/-- The removed address comes back only in the set that is changed at once. -/
theorem build_eq_runNow_iff_addIp :
    ∃ s t, @run Ipv4Addr _ (.ofInsertionSort _ _) .new [.removeIp ⟨4⟩, .addIp ⟨4⟩] = .ok s ∧
      @runNow Ipv4Addr _ (.ofInsertionSort _ _) [.removeIp ⟨4⟩, .addIp ⟨4⟩] = .ok t ∧ s ≠ t := by
  have hsets : SetsSatisfy (@Reachable Ipv4Addr _ (.ofInsertionSort _ _))
      [.removeIp ⟨4⟩, .addIp ⟨4⟩] :=
    setsSatisfy_of_none (by simp [Call.ipset?])
  obtain ⟨s, t, hs, ht, _, hiff⟩ :=
    @build_eq_runNow_iff Ipv4Addr _ (.ofInsertionSort _ _) _ hsets
  refine ⟨s, t, hs, ht, fun heq => ?_⟩
  have hlast := hiff.mp heq [.removeIp ⟨4⟩] (.addIp ⟨4⟩) [] rfl
  have hin : (⟨4⟩ : Ipv4Addr) ∈ removed [.removeIp (⟨4⟩ : Ipv4Addr)] ∩
      (Call.addIp (⟨4⟩ : Ipv4Addr)).adds :=
    ⟨⟨.removeIp ⟨4⟩, List.mem_singleton_self _, rfl⟩, rfl⟩
  obtain ⟨c, hc, _⟩ := hlast hin
  cases hc

section
omit [IpAddress A] [SortUnstableByKey (IpRange A) A]

/-- `S` and `T` are added and removed before the break, `S'` and `T'` after it. -/
theorem interrupted_subset (S T S' T' : Set A) :
    (S ∪ S') \ (T ∪ T') ⊆ (S \ T ∪ S') \ T' := by
  rintro ip ⟨hin | hin, hout⟩
  · exact ⟨Or.inl ⟨hin, fun h => hout (Or.inl h)⟩, fun h => hout (Or.inr h)⟩
  · exact ⟨Or.inr hin, fun h => hout (Or.inr h)⟩

theorem interrupted_eq_iff {S T S' T' : Set A} :
    (S ∪ S') \ (T ∪ T') = (S \ T ∪ S') \ T' ↔ T ∩ S' ⊆ T' := by
  have hmp : (S ∪ S') \ (T ∪ T') = (S \ T ∪ S') \ T' → T ∩ S' ⊆ T' := by
    intro h ip hip
    by_contra hnot
    have hin : ip ∈ (S \ T ∪ S') \ T' := ⟨Or.inr hip.2, hnot⟩
    rw [← h] at hin
    exact hin.2 (Or.inl hip.1)
  have hmpr : T ∩ S' ⊆ T' → (S ∪ S') \ (T ∪ T') = (S \ T ∪ S') \ T' := by
    intro h
    apply Set.Subset.antisymm (interrupted_subset S T S' T')
    rintro ip ⟨hin | hin, hout⟩
    · exact ⟨Or.inl hin.1, fun hr => hr.elim hin.2 hout⟩
    · exact ⟨Or.inr hin, fun hr => hr.elim (fun hT => hout (h ⟨hT, hin⟩)) hout⟩
  exact ⟨hmp, hmpr⟩

end

/-- **Building in the middle.**  A run that builds after `cs` and goes on with a new builder from
    the set loses no address; it ends with the set of the uninterrupted run if and only if the
    calls after the break remove again what they add of the addresses removed before it. -/
theorem resume_iff (source : Source A) {cs ds : List (Call A)} (hcs : SetsSatisfy Reachable cs)
    (hds : SetsSatisfy Reachable ds) :
    ∃ s t u, run source cs = .ok s ∧ run .new (.addIpset s :: ds) = .ok t ∧
      run source (cs ++ ds) = .ok u ∧ u.isSubsetOf t = .ok true ∧
      (u = t ↔ removed cs ∩ added ds ⊆ removed ds) := by
  have hncs := hcs.imp fun _ ht => ht.normalized
  have hnds := hds.imp fun _ ht => ht.normalized
  obtain ⟨s, hs, hrep⟩ := run_represents source hncs
  have hresumed : SetsSatisfy IpSet.Normalized (.addIpset s :: ds) := by
    intro c hc t ht
    rcases List.mem_cons.mp hc with rfl | hc
    · cases ht
      exact hrep.normalized
    · exact hnds c hc t ht
  have hwhole : SetsSatisfy IpSet.Normalized (cs ++ ds) := by
    intro c hc
    rcases List.mem_append.mp hc with hc | hc
    · exact hncs c hc
    · exact hnds c hc
  obtain ⟨t, ht, hrept⟩ := run_represents .new hresumed
  obtain ⟨u, hu, hrepu⟩ := run_represents source hwhole
  -- the addresses of the two sets, in terms of those before and after the break
  have haddrs : (Call.addIpset s).adds = added (source.calls ++ cs) \ removed cs :=
    Set.ext hrep.mem_iff
  rw [show (Source.new : Source A).calls ++ .addIpset s :: ds = .addIpset s :: ds from rfl,
    added_cons, removed_cons, haddrs, show (Call.addIpset s).removes = ∅ from rfl,
    Set.empty_union] at hrept
  rw [← List.append_assoc, added_append, removed_append] at hrepu
  obtain ⟨b, hb, hiff⟩ := IpSet.isSubsetOf_represents hrepu hrept
  rw [hiff.mpr (interrupted_subset ..)] at hb
  exact ⟨s, t, u, hs, ht, hu, hb, (hrepu.eq_iff hrept).trans interrupted_eq_iff⟩

/-- An address removed before the break and added after it comes back. -/
theorem resume_iff_addIp :
    ∃ s t u, @run Ipv4Addr _ (.ofInsertionSort _ _) .new [.removeIp ⟨4⟩] = .ok s ∧
      @run Ipv4Addr _ (.ofInsertionSort _ _) .new [.addIpset s, .addIp ⟨4⟩] = .ok t ∧
      @run Ipv4Addr _ (.ofInsertionSort _ _) .new [.removeIp ⟨4⟩, .addIp ⟨4⟩] = .ok u ∧ u ≠ t := by
  have hsets : ∀ c : Call Ipv4Addr, c.ipset? = none →
      SetsSatisfy (@Reachable Ipv4Addr _ (.ofInsertionSort _ _)) [c] :=
    fun c hnone => setsSatisfy_of_none (by simpa using hnone)
  obtain ⟨s, t, u, hs, ht, hu, _, hiff⟩ := @resume_iff Ipv4Addr _ (.ofInsertionSort _ _) .new
    [.removeIp ⟨4⟩] [.addIp ⟨4⟩] (hsets _ rfl) (hsets _ rfl)
  refine ⟨s, t, u, hs, ht, hu, fun heq => ?_⟩
  have hin : (⟨4⟩ : Ipv4Addr) ∈ removed [.removeIp (⟨4⟩ : Ipv4Addr)] ∩
      added [.addIp (⟨4⟩ : Ipv4Addr)] :=
    ⟨⟨.removeIp ⟨4⟩, List.mem_singleton_self _, rfl⟩,
      ⟨.addIp ⟨4⟩, List.mem_singleton_self _, rfl⟩⟩
  obtain ⟨c, hc, hip⟩ := hiff.mp heq hin
  rw [List.mem_singleton.mp hc] at hip
  cases hip

end Ipnetx
