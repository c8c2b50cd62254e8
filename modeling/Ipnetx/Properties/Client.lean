import Ipnetx.Properties.IdealClient
import Ipnetx.Properties.SetOperations

/-! # Client Programs

    Every program of a client, whatever builders and sets it mixes, behaves
    as the ideal client says.  The proof is a forward simulation: `Tracks`
    relates a builder to the statuses of the addresses, `Represents` a set
    to its addresses, and `step_cases` has one case for each statement.

    - `client_replies_iff`: a program gets the replies of the specification, and the
      crate never faults.
    - `builders_interchangeable_iff`: two builders cannot be told apart exactly when they
      give every address the same status. -/

namespace Ipnetx

open Machine IpAddress IpSetBuilder

namespace Client

variable {A : Type} [IpAddress A]

/-! ## Section 1: Builders -/

/-- The builder gives the addresses these statuses. -/
def Tracks (b : IpSetBuilder A) (st : A → Status) : Prop :=
  ∃ S T, b.Holds S T ∧ st = Ideal.statusOf S T

/-- A call on a builder adds or removes. -/
inductive Side where
  | add
  | remove

namespace Side

/-- The statement that makes the call. -/
def command : Side → ℕ → Arg A → Command A
  | add => .add
  | remove => .remove

def argCall : Side → (ℕ → Option (IpSet A)) → Arg A → Except Stop (Call A)
  | add => fun sets arg => arg.addCall sets
  | remove => fun sets arg => arg.removeCall sets

/-- What the call does to the statuses. -/
noncomputable def update {A : Type} : Side → (A → Status) → Set A → A → Status
  | add => Ideal.add
  | remove => Ideal.remove

/-- The call covers `S` on this side and nothing on the other. -/
def Covers : Side → Call A → Set A → Prop
  | add, c, S => c.adds = S ∧ c.removes = ∅
  | remove, c, S => c.removes = S ∧ c.adds = ∅

end Side

theorem Tracks.call {b : IpSetBuilder A} {st : A → Status} (h : Tracks b st) {side : Side}
    {c : Call A} {S : Set A} (hc : side.Covers c S)
    (hsets : ∀ t, c.ipset? = some t → t.Normalized) :
    ∃ b', b.call c = .ok b' ∧ Tracks b' (side.update st S) := by
  obtain ⟨X, T, hb, rfl⟩ := h
  obtain ⟨b', hb', hholds⟩ := call_holds hb c hsets
  cases side with
  | add =>
    rw [hc.1, hc.2, Set.union_empty] at hholds
    exact ⟨b', hb', X ∪ S, T, hholds, Ideal.add_statusOf X T S⟩
  | remove =>
    rw [hc.1, hc.2, Set.union_empty] at hholds
    exact ⟨b', hb', X, T ∪ S, hholds, Ideal.remove_statusOf X T S⟩

theorem addrs_eq_interval (r : IpRange A) : r.addrs = {ip | r.start ≤ ip ∧ ip ≤ r.end_} := by
  apply Set.ext
  intro ip
  show r.contains ip = true ↔ r.start ≤ ip ∧ ip ≤ r.end_
  rw [IpRange.contains_iff, le_iff_val, le_iff_val]
  exact Iff.rfl

theorem start_tracks (source : Source A) :
    ∃ b, start source = .ok b ∧ Tracks b (Ideal.statusOf (Ideal.sourceAddrs source) ∅) := by
  have hsets : SetsSatisfy IpSet.Normalized source.calls := by
    intro c hc t ht
    rw [(Source.calls_spec hc).1] at ht
    cases ht
  obtain ⟨b, hb, hholds⟩ := calls_holds new_holds source.calls hsets
  have hadded : added source.calls = Ideal.sourceAddrs source := by
    cases source with
    | new => simp [added, Source.calls, Ideal.sourceAddrs]
    | fromRanges rs =>
      show added (rs.map .addRange) = {ip | ∃ r ∈ rs, r.start ≤ ip ∧ ip ≤ r.end_}
      rw [added_map_addRange]
      apply Set.ext
      intro ip
      have hmem : ∀ r : IpRange A, r.contains ip = true ↔ r.start ≤ ip ∧ ip ≤ r.end_ :=
        fun r => Set.ext_iff.mp (addrs_eq_interval r) ip
      show (∃ r ∈ rs, r.contains ip = true) ↔ ∃ r ∈ rs, r.start ≤ ip ∧ ip ≤ r.end_
      simp only [hmem]
    | fromPrefixes ps =>
      apply Set.ext
      intro ip
      simp [added, Source.calls, Ideal.sourceAddrs, Call.adds, IpPrefix.addrs, prefixesSet]
  have hremoved : removed source.calls = ∅ := by
    have h := removed_append_source source []
    rw [List.append_nil] at h
    rw [h]
    simp [removed]
  rw [Set.empty_union, Set.empty_union, hadded, hremoved] at hholds
  exact ⟨b, (start_eq_calls source).trans hb, _, _, hholds, rfl⟩

/-! ## Section 2: Variables -/

/-- Every builder is tracked, every set represented. -/
structure Related (s : Store A) (t : Ideal.Store A) : Prop where
  builders : ∀ x, Option.Rel Tracks (s.builders x) (t.builders x)
  sets : ∀ x, Option.Rel IpSet.Represents (s.sets x) (t.sets x)

theorem related_empty : Related (Store.empty : Store A) Ideal.Store.empty :=
  ⟨fun _ => .none, fun _ => .none⟩

/-- A bound variable is bound in the ideal program as well, to what its value stands for. -/
theorem lookup_cases {α β : Type} {P : α → β → Prop} {vars : ℕ → Option α}
    {vars' : ℕ → Option β} (h : ∀ x, Option.Rel P (vars x) (vars' x)) (x : ℕ) :
    (∃ a b, lookup vars x = .ok a ∧ vars' x = some b ∧ P a b) ∨
      (lookup vars x = .error (.unbound x) ∧ vars' x = none) := by
  have hx := h x
  unfold lookup
  cases hv : vars x with
  | none =>
    rw [hv] at hx
    cases hv' : vars' x with
    | none => exact Or.inr ⟨rfl, rfl⟩
    | some b =>
      rw [hv'] at hx
      cases hx
  | some a =>
    rw [hv] at hx
    cases hv' : vars' x with
    | none =>
      rw [hv'] at hx
      cases hx
    | some b =>
      rw [hv'] at hx
      cases hx with
      | some hab => exact Or.inl ⟨a, b, rfl, rfl, hab⟩

/-- An assignment to related values keeps the variables related. -/
theorem rel_update {α β : Type} {P : α → β → Prop} {vars : ℕ → Option α} {vars' : ℕ → Option β}
    (h : ∀ y, Option.Rel P (vars y) (vars' y)) {a : Option α} {b : Option β}
    (hab : Option.Rel P a b) (x y : ℕ) :
    Option.Rel P (Function.update vars x a y) (Function.update vars' x b y) := by
  simp only [Function.update_apply]
  split
  · exact hab
  · exact h y

section
variable {s : Store A} {t : Ideal.Store A}

theorem Related.setBuilder (h : Related s t) (x : ℕ) {b : Option (IpSetBuilder A)}
    {st : Option (A → Status)} (hb : Option.Rel Tracks b st) :
    Related (s.setBuilder x b) (t.setBuilder x st) :=
  ⟨rel_update h.builders hb x, h.sets⟩

theorem Related.setSet (h : Related s t) (x : ℕ) {u : Option (IpSet A)} {S : Option (Set A)}
    (hu : Option.Rel IpSet.Represents u S) : Related (s.setSet x u) (t.setSet x S) :=
  ⟨h.builders, rel_update h.sets hu x⟩

end

/-! ## Section 3: Queries -/

/-- A query is answered right. -/
theorem answer_spec {u : IpSet A} {S : Set A} (hu : u.Represents S) (query : Query A) :
    ∃ o, query.answer u = .ok o ∧ Ideal.Answers S query o := by
  have hranges : Ideal.CanonicalRanges u.ranges S := ⟨hu.normalized, hu.rangesSet_eq⟩
  cases query with
  | containsIp ip => exact ⟨_, rfl, .containsIp (hu.mem_iff ip)⟩
  | containsRange range =>
    obtain ⟨b, hb, hiff⟩ := IpSet.containsRange_represents hu range
    have hspec : b = true ↔ range.start ≤ range.end_ ∧ Set.Icc range.start range.end_ ⊆ S := by
      have haddrs : Set.Icc range.start range.end_ = range.addrs := (addrs_eq_interval range).symm
      rw [hiff, haddrs]
      exact and_congr_left fun _ => decide_eq_true_iff
    exact ⟨.bool b, by simp [Query.answer, hb], .containsRange hspec⟩
  | isEmpty => exact ⟨_, rfl, .isEmpty hu.isEmpty_iff⟩
  | len => exact ⟨_, rfl, .len hranges⟩
  | count =>
    obtain ⟨n, hn, hval⟩ := IpSet.count_represents hu
    exact ⟨.count n, by simp [Query.answer, hn], .count hval⟩
  | countChecked =>
    obtain ⟨o, ho, hiff⟩ := IpSet.countChecked_represents hu
    exact ⟨.countChecked o, by simp [Query.answer, ho], .countChecked hiff⟩
  | ranges => exact ⟨_, rfl, .ranges hranges⟩
  | prefixes =>
    obtain ⟨ps, hps, hlargest, _⟩ := hu.shortest
    exact ⟨.prefixes ps, by simp [Query.answer, hps], .prefixes hlargest⟩

/-- A comparison is decided right. -/
theorem compare_spec {u v : IpSet A} {S T : Set A} (hu : u.Represents S) (hv : v.Represents T)
    (comparison : Comparison) :
    ∃ b, comparison.answer u v = .ok b ∧ (b = true ↔ Ideal.Compares S T comparison) := by
  cases comparison with
  | overlapsIpSet => exact IpSet.overlapsIpSet_represents hu hv
  | isSubsetOf => exact IpSet.isSubsetOf_represents hu hv
  | isSupersetOf => exact IpSet.isSubsetOf_represents hv hu
  | eq => exact ⟨_, rfl, decide_eq_true_iff.trans (hu.eq_iff hv)⟩

theorem combine_spec {u v : IpSet A} {S T : Set A} (hu : u.Represents S) (hv : v.Represents T)
    (op : SetOp) : ∃ w, op.call u v = .ok w ∧ w.Represents (Ideal.combine op S T) := by
  cases op with
  | union => exact IpSet.union_represents hu hv
  | intersection => exact IpSet.intersection_represents hu hv
  | difference => exact IpSet.difference_represents hu hv

/-! ## Section 4: Arguments -/

/-- The call made with an argument covers the addresses of the argument. -/
theorem argCall_cases {sets : ℕ → Option (IpSet A)} {sets' : ℕ → Option (Set A)}
    (h : ∀ x, Option.Rel IpSet.Represents (sets x) (sets' x)) (side : Side) (arg : Arg A) :
    (∃ c S, side.argCall sets arg = .ok c ∧ Ideal.argAddrs sets' arg = some S ∧
      side.Covers c S ∧ ∀ u, c.ipset? = some u → u.Normalized) ∨
      ∃ x, side.argCall sets arg = .error (.unbound x) ∧ Ideal.argAddrs sets' arg = none := by
  cases arg with
  | ip a =>
    cases side with
    | add => exact Or.inl ⟨.addIp a, _, rfl, rfl, ⟨rfl, rfl⟩, by simp [Call.ipset?]⟩
    | remove => exact Or.inl ⟨.removeIp a, _, rfl, rfl, ⟨rfl, rfl⟩, by simp [Call.ipset?]⟩
  | range r =>
    have haddrs := addrs_eq_interval r
    cases side with
    | add => exact Or.inl ⟨.addRange r, _, rfl, rfl, ⟨haddrs, rfl⟩, by simp [Call.ipset?]⟩
    | remove => exact Or.inl ⟨.removeRange r, _, rfl, rfl, ⟨haddrs, rfl⟩, by simp [Call.ipset?]⟩
  | ofPrefix p =>
    cases side with
    | add => exact Or.inl ⟨.addPrefix p, _, rfl, rfl, ⟨rfl, rfl⟩, by simp [Call.ipset?]⟩
    | remove => exact Or.inl ⟨.removePrefix p, _, rfl, rfl, ⟨rfl, rfl⟩, by simp [Call.ipset?]⟩
  | ipset y =>
    rcases lookup_cases h y with ⟨u, S, hu, hS, hrep⟩ | ⟨hu, hS⟩
    · have haddrs : {ip | u.containsIp ip = true} = S := Set.ext hrep.mem_iff
      have hnormalized : ∀ v, some u = some v → v.Normalized :=
        fun v hv => Option.some.inj hv ▸ hrep.normalized
      cases side with
      | add =>
        have hcall : Side.add.argCall sets (.ipset y) = .ok (.addIpset u) := by
          simp [Side.argCall, Arg.addCall, hu]
        exact Or.inl ⟨.addIpset u, S, hcall, hS, ⟨haddrs, rfl⟩, hnormalized⟩
      | remove =>
        have hcall : Side.remove.argCall sets (.ipset y) = .ok (.removeIpset u) := by
          simp [Side.argCall, Arg.removeCall, hu]
        exact Or.inl ⟨.removeIpset u, S, hcall, hS, ⟨haddrs, rfl⟩, hnormalized⟩
    · cases side with
      | add => exact Or.inr ⟨y, by simp [Side.argCall, Arg.addCall, hu], hS⟩
      | remove => exact Or.inr ⟨y, by simp [Side.argCall, Arg.removeCall, hu], hS⟩

/-! ## Section 5: Statements -/

/-- The program named a variable that is not bound. -/
def IsUnbound : Stop → Prop
  | .unbound _ => True
  | .fault _ => False

variable [SortUnstableByKey (IpRange A) A]

theorem Tracks.build {b : IpSetBuilder A} {st : A → Status} (h : Tracks b st) :
    ∃ u, b.build = .ok u ∧ u.Represents (Ideal.live st) := by
  obtain ⟨S, T, hb, rfl⟩ := h
  obtain ⟨u, hu, hrep⟩ := build_represents hb
  exact ⟨u, hu, Ideal.live_statusOf S T ▸ hrep⟩

/-- The statement is answered as in the ideal program. -/
def Answered (s : Store A) (t : Ideal.Store A) (c : Command A) : Prop :=
  ∃ s' t' o, step s c = .ok (s', o) ∧ Ideal.Step t c t' o ∧ Related s' t'

/-- The statement names an unbound variable, and the ideal program stops as well. -/
def Stuck (s : Store A) (t : Ideal.Store A) (c : Command A) : Prop :=
  ∃ e, step s c = .error e ∧ IsUnbound e ∧ ∀ t' o, ¬ Ideal.Step t c t' o

section
variable {s : Store A} {t : Ideal.Store A}

theorem Stuck.of_unbound {c : Command A} {x : ℕ} (h : step s c = .error (.unbound x))
    (hno : ∀ t' o, ¬ Ideal.Step t c t' o) : Stuck s t c :=
  ⟨.unbound x, h, trivial, hno⟩

theorem start_cases (h : Related s t) (x : ℕ) (source : Source A) :
    Answered s t (.start x source) := by
  obtain ⟨b, hb, htracks⟩ := start_tracks source
  have hstep : step s (.start x source) = .ok (s.setBuilder x (some b), .unit) := by
    simp [step, hb]
  exact ⟨_, _, _, hstep, .start, h.setBuilder x (.some htracks)⟩

theorem collect_cases (h : Related s t) (x y : ℕ) :
    Answered s t (.collect x y) ∨ Stuck s t (.collect x y) := by
  rcases lookup_cases h.sets y with ⟨u, S, hu, hS, hrep⟩ | ⟨hu, hS⟩
  · obtain ⟨b, hb, htracks⟩ := start_tracks (.fromRanges u.ranges)
    have haddrs : Ideal.sourceAddrs (.fromRanges u.ranges) = S := by
      rw [← hrep.rangesSet_eq]
      show {ip | ∃ r ∈ u.ranges, r.start ≤ ip ∧ ip ≤ r.end_} = {ip | ∃ r ∈ u.ranges, ip ∈ r.addrs}
      simp only [addrs_eq_interval, Set.mem_ofPred_eq]
    rw [haddrs] at htracks
    have hfrom : fromRanges u.ranges = b := Except.ok.inj hb
    have hstep : step s (.collect x y) =
        .ok ((s.setSet y none).setBuilder x (some b), .unit) := by
      simp [step, hu, hfrom]
    exact Or.inl ⟨_, _, _, hstep, .collect hS, (h.setSet y .none).setBuilder x (.some htracks)⟩
  · refine Or.inr (.of_unbound (x := y) (by simp [step, hu]) ?_)
    intro t' o hspec
    cases hspec with
    | collect hy => simp [hS] at hy

theorem collectPrefixes_cases (h : Related s t) (x y : ℕ) :
    Answered s t (.collectPrefixes x y) ∨ Stuck s t (.collectPrefixes x y) := by
  rcases lookup_cases h.sets y with ⟨u, S, hu, hS, hrep⟩ | ⟨hu, hS⟩
  · obtain ⟨ps, hps, hlargest, _⟩ := hrep.shortest
    obtain ⟨b, hb, htracks⟩ := start_tracks (.fromPrefixes ps)
    have haddrs : Ideal.sourceAddrs (.fromPrefixes ps) = S := hlargest.cover
    rw [haddrs] at htracks
    have hfrom : fromPrefixes ps = .ok b := hb
    have hstep : step s (.collectPrefixes x y) = .ok (s.setBuilder x (some b), .unit) := by
      simp [step, hu, hps, hfrom]
    exact Or.inl ⟨_, _, _, hstep, .collectPrefixes hS, h.setBuilder x (.some htracks)⟩
  · refine Or.inr (.of_unbound (x := y) (by simp [step, hu]) ?_)
    intro t' o hspec
    cases hspec with
    | collectPrefixes hy => simp [hS] at hy

/-- A call on a builder, step by step. -/
theorem step_command (side : Side) (x : ℕ) (arg : Arg A) :
    step s (side.command x arg) = (do
      let b ← lookup s.builders x
      let b ← crate (b.call (← side.argCall s.sets arg))
      return (s.setBuilder x (some b), .unit)) := by
  cases side with
  | add => rfl
  | remove => rfl

omit [SortUnstableByKey (IpRange A) A] in
/-- The ideal program has one step for a call on a builder. -/
theorem ideal_command_iff {side : Side} {x : ℕ} {arg : Arg A} {t' : Ideal.Store A} {o : Reply A} :
    Ideal.Step t (side.command x arg) t' o ↔ ∃ st S, t.builders x = some st ∧
      Ideal.argAddrs t.sets arg = some S ∧ t' = t.setBuilder x (some (side.update st S)) ∧
        o = .unit := by
  cases side with
  | add =>
    refine ⟨?_, ?_⟩
    · intro hspec
      cases hspec with
      | add hx harg => exact ⟨_, _, hx, harg, rfl, rfl⟩
    · rintro ⟨st, S, hx, harg, rfl, rfl⟩
      exact .add hx harg
  | remove =>
    refine ⟨?_, ?_⟩
    · intro hspec
      cases hspec with
      | remove hx harg => exact ⟨_, _, hx, harg, rfl, rfl⟩
    · rintro ⟨st, S, hx, harg, rfl, rfl⟩
      exact .remove hx harg

theorem command_cases (h : Related s t) (side : Side) (x : ℕ) (arg : Arg A) :
    Answered s t (side.command x arg) ∨ Stuck s t (side.command x arg) := by
  rcases lookup_cases h.builders x with ⟨b, st, hb, hst, htracks⟩ | ⟨hb, hst⟩
  · rcases argCall_cases h.sets side arg with ⟨c, S, hc, haddrs, hcovers, hsets⟩ | ⟨z, hc, haddrs⟩
    · obtain ⟨b', hb', htracks'⟩ := htracks.call hcovers hsets
      have hstep : step s (side.command x arg) = .ok (s.setBuilder x (some b'), .unit) := by
        simp [step_command, hb, hc, hb']
      have hspec : Ideal.Step t (side.command x arg)
          (t.setBuilder x (some (side.update st S))) .unit :=
        ideal_command_iff.mpr ⟨st, S, hst, haddrs, rfl, rfl⟩
      exact Or.inl ⟨_, _, _, hstep, hspec, h.setBuilder x (.some htracks')⟩
    · refine Or.inr (.of_unbound (x := z) (by simp [step_command, hb, hc]) ?_)
      intro t' o hspec
      obtain ⟨_, _, _, harg, _⟩ := ideal_command_iff.mp hspec
      simp [haddrs] at harg
  · refine Or.inr (.of_unbound (x := x) (by simp [step_command, hb]) ?_)
    intro t' o hspec
    obtain ⟨_, _, hx, _⟩ := ideal_command_iff.mp hspec
    simp [hst] at hx

theorem build_cases (h : Related s t) (y x : ℕ) :
    Answered s t (.build y x) ∨ Stuck s t (.build y x) := by
  rcases lookup_cases h.builders x with ⟨b, st, hb, hst, htracks⟩ | ⟨hb, hst⟩
  · obtain ⟨u, hu, hrep⟩ := htracks.build
    have hstep : step s (.build y x) = .ok ((s.setBuilder x none).setSet y (some u), .unit) := by
      simp [step, hb, hu]
    exact Or.inl ⟨_, _, _, hstep, .build hst, (h.setBuilder x .none).setSet y (.some hrep)⟩
  · refine Or.inr (.of_unbound (x := x) (by simp [step, hb]) ?_)
    intro t' o hspec
    cases hspec with
    | build hx => simp [hst] at hx

theorem clone_cases (h : Related s t) (z x : ℕ) :
    Answered s t (.clone z x) ∨ Stuck s t (.clone z x) := by
  rcases lookup_cases h.sets x with ⟨u, S, hu, hS, hrep⟩ | ⟨hu, hS⟩
  · have hstep : step s (.clone z x) = .ok (s.setSet z (some u), .unit) := by simp [step, hu]
    exact Or.inl ⟨_, _, _, hstep, .clone hS, h.setSet z (.some hrep)⟩
  · refine Or.inr (.of_unbound (x := x) (by simp [step, hu]) ?_)
    intro t' o hspec
    cases hspec with
    | clone hx => simp [hS] at hx

theorem combine_cases (h : Related s t) (op : SetOp) (z x y : ℕ) :
    Answered s t (.combine op z x y) ∨ Stuck s t (.combine op z x y) := by
  rcases lookup_cases h.sets x with ⟨u, S, hu, hS, hrep⟩ | ⟨hu, hS⟩
  · rcases lookup_cases h.sets y with ⟨v, T, hv, hT, hrep'⟩ | ⟨hv, hT⟩
    · obtain ⟨w, hw, hrepw⟩ := combine_spec hrep hrep' op
      have hstep : step s (.combine op z x y) = .ok (s.setSet z (some w), .unit) := by
        simp [step, hu, hv, hw]
      exact Or.inl ⟨_, _, _, hstep, .combine hS hT, h.setSet z (.some hrepw)⟩
    · refine Or.inr (.of_unbound (x := y) (by simp [step, hu, hv]) ?_)
      intro t' o hspec
      cases hspec with
      | combine _ hy => simp [hT] at hy
  · refine Or.inr (.of_unbound (x := x) (by simp [step, hu]) ?_)
    intro t' o hspec
    cases hspec with
    | combine hx _ => simp [hS] at hx

theorem complement_cases (h : Related s t) (z x : ℕ) :
    Answered s t (.complement z x) ∨ Stuck s t (.complement z x) := by
  rcases lookup_cases h.sets x with ⟨u, S, hu, hS, hrep⟩ | ⟨hu, hS⟩
  · obtain ⟨w, hw, hrepw⟩ := IpSet.complement_represents hrep
    have hstep : step s (.complement z x) = .ok (s.setSet z (some w), .unit) := by
      simp [step, hu, hw]
    exact Or.inl ⟨_, _, _, hstep, .complement hS, h.setSet z (.some hrepw)⟩
  · refine Or.inr (.of_unbound (x := x) (by simp [step, hu]) ?_)
    intro t' o hspec
    cases hspec with
    | complement hx => simp [hS] at hx

theorem ask_cases (h : Related s t) (query : Query A) (x : ℕ) :
    Answered s t (.ask query x) ∨ Stuck s t (.ask query x) := by
  rcases lookup_cases h.sets x with ⟨u, S, hu, hS, hrep⟩ | ⟨hu, hS⟩
  · obtain ⟨o, ho, hanswers⟩ := answer_spec hrep query
    have hstep : step s (.ask query x) = .ok (s, o) := by simp [step, hu, ho]
    exact Or.inl ⟨_, _, _, hstep, .ask hS hanswers, h⟩
  · refine Or.inr (.of_unbound (x := x) (by simp [step, hu]) ?_)
    intro t' o hspec
    cases hspec with
    | ask hx _ => simp [hS] at hx

theorem compare_cases (h : Related s t) (comparison : Comparison) (x y : ℕ) :
    Answered s t (.compare comparison x y) ∨ Stuck s t (.compare comparison x y) := by
  rcases lookup_cases h.sets x with ⟨u, S, hu, hS, hrep⟩ | ⟨hu, hS⟩
  · rcases lookup_cases h.sets y with ⟨v, T, hv, hT, hrep'⟩ | ⟨hv, hT⟩
    · obtain ⟨b, hb, hiff⟩ := compare_spec hrep hrep' comparison
      have hstep : step s (.compare comparison x y) = .ok (s, .bool b) := by
        simp [step, hu, hv, hb]
      exact Or.inl ⟨_, _, _, hstep, .compare hS hT hiff, h⟩
    · refine Or.inr (.of_unbound (x := y) (by simp [step, hu, hv]) ?_)
      intro t' o hspec
      cases hspec with
      | compare _ hy _ => simp [hT] at hy
  · refine Or.inr (.of_unbound (x := x) (by simp [step, hu]) ?_)
    intro t' o hspec
    cases hspec with
    | compare hx _ _ => simp [hS] at hx

/-- **Step lemma.**  One case for each statement. -/
theorem step_cases (h : Related s t) (c : Command A) : Answered s t c ∨ Stuck s t c := by
  cases c with
  | start x source => exact Or.inl (start_cases h x source)
  | collect x y => exact collect_cases h x y
  | collectPrefixes x y => exact collectPrefixes_cases h x y
  | add x arg => exact command_cases h .add x arg
  | remove x arg => exact command_cases h .remove x arg
  | build y x => exact build_cases h y x
  | clone z x => exact clone_cases h z x
  | combine op z x y => exact combine_cases h op z x y
  | complement z x => exact complement_cases h z x
  | ask query x => exact ask_cases h query x
  | compare comparison x y => exact compare_cases h comparison x y

end

theorem simulates :
    Simulates (step (A := A)) Ideal.Step Related IsUnbound :=
  { step_cases := fun c h => step_cases h c
    deterministic := Ideal.Step.deterministic }

/-! ## Section 6: What a builder shows -/

omit [SortUnstableByKey (IpRange A) A] in
theorem fullRange_addrs : (fullRange A).addrs = Set.univ := by
  rw [← (fullRange_represents (A := A)).rangesSet_eq]
  apply Set.ext
  intro ip
  show (fullRange A).contains ip = true ↔ ∃ r ∈ [fullRange A], r.contains ip = true
  simp

section
variable {s s' : Store A} {t t' : Ideal.Store A} {x : ℕ} {st st' : A → Status}

/-- Build the builder, and there is a set with the live addresses to ask. -/
theorem build_step (h : Related s t) (hst : t.builders x = some st) :
    ∃ (s₁ : Store A) (u : IpSet A), step s (.build x x) = .ok (s₁, .unit) ∧
      step s₁ (.ask .ranges x) = .ok (s₁, .ranges u.ranges) ∧ u.Represents (Ideal.live st) := by
  rcases lookup_cases h.builders x with ⟨b, st₁, hb, hst₁, htracks⟩ | ⟨_, hnone⟩
  · obtain rfl : st₁ = st := Option.some.inj (hst₁.symm.trans hst)
    obtain ⟨u, hu, hrep⟩ := htracks.build
    have hstep : step s (.build x x) = .ok ((s.setBuilder x none).setSet x (some u), .unit) := by
      simp [step, hb, hu]
    have hvar : ((s.setBuilder x none).setSet x (some u)).sets x = some u :=
      Function.update_self ..
    exact ⟨_, u, hstep, by simp [step, lookup, hvar, Query.answer], hrep⟩
  · rw [hnone] at hst
    cases hst

/-- Add the whole family to the builder. -/
theorem add_full_step (h : Related s t) (hst : t.builders x = some st) :
    ∃ s₁ t₁, step s (.add x (.range (fullRange A))) = .ok (s₁, .unit) ∧ Related s₁ t₁ ∧
      t₁.builders x = some (Ideal.add st Set.univ) := by
  have hfull : Ideal.argAddrs t.sets (.range (fullRange A)) = some Set.univ := by
    rw [← fullRange_addrs, addrs_eq_interval]
    rfl
  rcases command_cases h .add x (.range (fullRange A)) with ⟨s₁, t₁, o, hstep, hspec, hrel⟩ | hstuck
  · obtain ⟨st', S, hst', hS, rfl, rfl⟩ := ideal_command_iff.mp hspec
    obtain rfl : st' = st := Option.some.inj (hst'.symm.trans hst)
    obtain rfl : S = Set.univ := Option.some.inj (hS.symm.trans hfull)
    exact ⟨s₁, _, hstep, hrel, Function.update_self ..⟩
  · obtain ⟨_, _, _, hno⟩ := hstuck
    exact absurd (Ideal.Step.add hst hfull) (hno _ _)

/-- Builders that are not told apart have the same live addresses. -/
theorem live_eq_of_sameReplies (h : Related s t) (h' : Related s' t')
    (hst : t.builders x = some st) (hst' : t'.builders x = some st')
    (hsame : SameReplies step s s') : Ideal.live st = Ideal.live st' := by
  obtain ⟨s₁, u, hbuild, hask, hrep⟩ := build_step h hst
  obtain ⟨s₁', u', hbuild', hask', hrep'⟩ := build_step h' hst'
  have hreply : Reply.ranges u.ranges = Reply.ranges u'.ranges :=
    (hsame.after hbuild hbuild').reply_eq hask hask'
  have hranges : u.ranges = u'.ranges := Reply.ranges.inj hreply
  rw [← hrep.rangesSet_eq, hranges, hrep'.rangesSet_eq]

/-- Builders that are not told apart give every address the same status. -/
theorem status_eq_of_sameReplies (h : Related s t) (h' : Related s' t')
    (hst : t.builders x = some st) (hst' : t'.builders x = some st')
    (hsame : SameReplies step s s') : st = st' := by
  have hlive := live_eq_of_sameReplies h h' hst hst' hsame
  -- what is still missing after the whole family was added is banned
  obtain ⟨s₁, t₁, hadd, hrel, hb⟩ := add_full_step h hst
  obtain ⟨s₁', t₁', hadd', hrel', hb'⟩ := add_full_step h' hst'
  have hnotBanned := live_eq_of_sameReplies hrel hrel' hb hb' (hsame.after hadd hadd')
  rw [Ideal.live_add_univ, Ideal.live_add_univ] at hnotBanned
  funext ip
  have hpresent : st ip = .present ↔ st' ip = .present := Set.ext_iff.mp hlive ip
  have hbanned : st ip ≠ .banned ↔ st' ip ≠ .banned := Set.ext_iff.mp hnotBanned ip
  cases hip : st ip with
  | absent =>
    cases hip' : st' ip with
    | absent => rfl
    | present => simp [hip, hip'] at hpresent
    | banned => simp [hip, hip'] at hbanned
  | present => exact (hpresent.mp hip).symm
  | banned =>
    by_contra hne
    exact hbanned.mpr (Ne.symm hne) hip

end

end Client

/-! ## Section 7: Programs -/

variable {A : Type} [IpAddress A] [SortUnstableByKey (IpRange A) A]

/-- **Client programs.**  A program that mixes any builders and sets gets the replies of the ideal
    client and no others.  When it stops, it named an unbound variable: the crate does not
    fault. -/
theorem client_replies_iff (cs : List (Client.Command A)) :
    (∀ os, Replies Client.step Client.Store.empty cs os ↔
      ∃ t', Runs Client.Ideal.Step Client.Ideal.Store.empty cs t' os) ∧
    ∀ f, runAll Client.step Client.Store.empty cs ≠ .error (.fault f) := by
  refine ⟨Client.simulates.run_iff Client.related_empty cs, ?_⟩
  intro f hfault
  exact Client.simulates.run_error Client.related_empty hfault

/-- The store a program reaches is related to a store of the ideal client. -/
theorem Client.related_of_run {cs : List (Client.Command A)} {s : Client.Store A}
    {os : List (Client.Reply A)} (h : runAll Client.step Client.Store.empty cs = .ok (s, os)) :
    ∃ t, Client.Related s t := by
  rcases Client.simulates.run_cases cs Client.related_empty with
    ⟨s', t', os', hrun, _, hrel⟩ | ⟨e, hrun, _, _⟩
  · rw [h] at hrun
    cases hrun
    exact ⟨t', hrel⟩
  · rw [h] at hrun
    cases hrun

/-- Builders after sequences of calls. -/
theorem Client.tracks_of_calls {calls : List (Call A)} {b : IpSetBuilder A}
    (hsets : SetsSatisfy Reachable calls) (h : calls.foldlM call new = .ok b) :
    Client.Tracks b (Client.Ideal.statusOf (added calls) (removed calls)) := by
  obtain ⟨b', hb', hholds⟩ := calls_holds new_holds calls (hsets.imp fun _ ht => ht.normalized)
  rw [h] at hb'
  cases hb'
  rw [Set.empty_union, Set.empty_union] at hholds
  exact ⟨_, _, hholds, rfl⟩

/-- **What a builder shows.**  Put the builders of two sequences of calls into the same program
    state: the rest of the program can tell them apart exactly when the calls remove different
    addresses, or leave different addresses.  Order, repetition and the split into ranges are
    not seen. -/
theorem builders_interchangeable_iff {cs : List (Client.Command A)} {s : Client.Store A}
    {os : List (Client.Reply A)} (hs : runAll Client.step Client.Store.empty cs = .ok (s, os))
    {calls calls' : List (Call A)} (hsets : SetsSatisfy Reachable calls)
    (hsets' : SetsSatisfy Reachable calls') {b b' : IpSetBuilder A}
    (hb : calls.foldlM call new = .ok b) (hb' : calls'.foldlM call new = .ok b') (x : ℕ) :
    SameReplies Client.step (s.setBuilder x (some b)) (s.setBuilder x (some b')) ↔
      removed calls = removed calls' ∧
        added calls \ removed calls = added calls' \ removed calls' := by
  obtain ⟨t, hrel⟩ := Client.related_of_run hs
  have htracks := Client.tracks_of_calls hsets hb
  have htracks' := Client.tracks_of_calls hsets' hb'
  have hr := hrel.setBuilder x (.some htracks)
  have hr' := hrel.setBuilder x (.some htracks')
  rw [← Client.Ideal.statusOf_eq_iff]
  have hmp : SameReplies Client.step (s.setBuilder x (some b)) (s.setBuilder x (some b')) →
      Client.Ideal.statusOf (added calls) (removed calls) =
        Client.Ideal.statusOf (added calls') (removed calls') := by
    intro hsame
    exact Client.status_eq_of_sameReplies hr hr' (Function.update_self ..)
      (Function.update_self ..) hsame
  have hmpr : Client.Ideal.statusOf (added calls) (removed calls) =
      Client.Ideal.statusOf (added calls') (removed calls') →
      SameReplies Client.step (s.setBuilder x (some b)) (s.setBuilder x (some b')) := by
    intro heq
    rw [← heq] at hr'
    exact Client.simulates.indistinguishable hr hr'
  exact ⟨hmp, hmpr⟩

/-- A builder that removed an address is not a new builder, though both build the empty set. -/
theorem builders_interchangeable_iff_removeIp :
    ¬ SameReplies (@Client.step Ipv4Addr _ (.ofInsertionSort _ _))
      (Client.Store.empty.setBuilder 0 (some new))
      (Client.Store.empty.setBuilder 0 (some (new.removeIp ⟨1⟩))) := by
  have hsets' : SetsSatisfy (@Reachable Ipv4Addr _ (.ofInsertionSort _ _)) [.removeIp ⟨1⟩] :=
    setsSatisfy_of_none (by simp [Call.ipset?])
  intro hsame
  obtain ⟨hremoved, _⟩ := (@builders_interchangeable_iff Ipv4Addr _ (.ofInsertionSort _ _) []
    Client.Store.empty [] rfl _ _ setsSatisfy_nil hsets' _ _ rfl rfl 0).mp hsame
  have hin : (⟨1⟩ : Ipv4Addr) ∈ removed [.removeIp (⟨1⟩ : Ipv4Addr)] :=
    ⟨.removeIp ⟨1⟩, List.mem_singleton_self _, rfl⟩
  rw [← hremoved] at hin
  obtain ⟨c, hc, _⟩ := hin
  cases hc

end Ipnetx
