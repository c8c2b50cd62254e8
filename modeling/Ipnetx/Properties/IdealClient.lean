import Ipnetx.Model.Client
import Ipnetx.Properties.PrefixLists

/-! # The Ideal Client

    What a client program means, without vectors, indices or words.  A set
    is a set of addresses.  A builder gives every address a status: `absent`
    at first, `present` once it is added, and `banned` for good once it is
    removed.  `build` returns the addresses that are present.

    `Step` is the specification of `Client.step`.  It is deterministic
    (`Step.deterministic`), so it says exactly what every statement
    returns. -/

namespace Ipnetx

open Machine IpAddress IpSetBuilder

namespace Client

/-! ## Section 1: Builders -/

/-- What a builder knows about an address. -/
inductive Status where
  | absent
  | present
  | banned
  deriving DecidableEq

namespace Ideal

section
variable {A : Type}

open Classical in
/-- The statuses after `S` was added and `T` removed, in any order. -/
noncomputable def statusOf (S T : Set A) : A → Status := fun ip =>
  if ip ∈ T then .banned else if ip ∈ S then .present else .absent

open Classical in
/-- Adding changes the addresses that are absent. -/
noncomputable def add (st : A → Status) (S : Set A) : A → Status := fun ip =>
  if ip ∈ S ∧ st ip = .absent then .present else st ip

open Classical in
/-- Removing is final. -/
noncomputable def remove (st : A → Status) (S : Set A) : A → Status := fun ip =>
  if ip ∈ S then .banned else st ip

/-- The addresses that `build` returns. -/
def live (st : A → Status) : Set A := {ip | st ip = .present}

theorem add_statusOf (S T X : Set A) : add (statusOf S T) X = statusOf (S ∪ X) T := by
  classical
  funext ip
  unfold add statusOf
  by_cases hT : ip ∈ T
  · simp [hT]
  · by_cases hS : ip ∈ S
    · simp [hT, hS]
    · simp [hT, hS]

theorem remove_statusOf (S T X : Set A) : remove (statusOf S T) X = statusOf S (T ∪ X) := by
  classical
  funext ip
  unfold remove statusOf
  by_cases hX : ip ∈ X
  · simp [hX]
  · simp [hX]

theorem statusOf_eq_banned {S T : Set A} {ip : A} : statusOf S T ip = .banned ↔ ip ∈ T := by
  unfold statusOf
  by_cases hT : ip ∈ T
  · simp [hT]
  · by_cases hS : ip ∈ S
    · simp [hT, hS]
    · simp [hT, hS]

theorem live_statusOf (S T : Set A) : live (statusOf S T) = S \ T := by
  apply Set.ext
  intro ip
  show statusOf S T ip = .present ↔ ip ∈ S ∧ ip ∉ T
  unfold statusOf
  by_cases hT : ip ∈ T
  · simp [hT]
  · by_cases hS : ip ∈ S
    · simp [hT, hS]
    · simp [hT, hS]

/-- Adding every address leaves out those that are banned. -/
theorem live_add_univ (st : A → Status) : live (add st Set.univ) = {ip | st ip ≠ .banned} := by
  classical
  apply Set.ext
  intro ip
  show add st Set.univ ip = .present ↔ st ip ≠ .banned
  unfold add
  cases hip : st ip with
  | absent => simp
  | present => simp
  | banned => simp

/-- Statuses agree when the same addresses are banned and the same are present. -/
theorem statusOf_eq_iff {S T S' T' : Set A} :
    statusOf S T = statusOf S' T' ↔ T = T' ∧ S \ T = S' \ T' := by
  have hmp : statusOf S T = statusOf S' T' → T = T' ∧ S \ T = S' \ T' := by
    intro h
    have hban : T = T' := by
      apply Set.ext
      intro ip
      rw [← statusOf_eq_banned (S := S), h, statusOf_eq_banned]
    have hlive : S \ T = S' \ T' := by rw [← live_statusOf, h, live_statusOf]
    exact ⟨hban, hlive⟩
  have hmpr : T = T' ∧ S \ T = S' \ T' → statusOf S T = statusOf S' T' := by
    classical
    rintro ⟨rfl, hlive⟩
    funext ip
    unfold statusOf
    by_cases hT : ip ∈ T
    · simp [hT]
    · have hiff : ip ∈ S ↔ ip ∈ S' := by
        have hmem := Set.ext_iff.mp hlive ip
        simpa [hT] using hmem
      simp [hT, hiff]
  exact ⟨hmp, hmpr⟩

/-! ## Section 2: The specification -/

/-- The variables of a program. -/
structure Store (A : Type) where
  builders : ℕ → Option (A → Status)
  sets : ℕ → Option (Set A)

namespace Store

def empty : Store A := { builders := fun _ => none, sets := fun _ => none }

def setBuilder (t : Store A) (x : ℕ) (b : Option (A → Status)) : Store A :=
  { t with builders := Function.update t.builders x b }

def setSet (t : Store A) (x : ℕ) (S : Option (Set A)) : Store A :=
  { t with sets := Function.update t.sets x S }

end Store

/-- The meaning of a binary operation. -/
def combine : SetOp → Set A → Set A → Set A
  | .union, S, T => S ∪ T
  | .intersection, S, T => S ∩ T
  | .difference, S, T => S \ T

/-- The meaning of a comparison. -/
def Compares (S T : Set A) : Comparison → Prop
  | .overlapsIpSet => (S ∩ T).Nonempty
  | .isSubsetOf => S ⊆ T
  | .isSupersetOf => T ⊆ S
  | .eq => S = T

end

variable {A : Type} [IpAddress A]

/-- The ranges of `S`: ascending, with gaps between them. -/
structure CanonicalRanges (rs : List (IpRange A)) (S : Set A) : Prop where
  canonical : Segment.Canonical (segs rs)
  cover : rangesSet rs = S

/-- The reply to a query is right for `S`. -/
inductive Answers (S : Set A) : Query A → Reply A → Prop where
  | containsIp {ip : A} {b : Bool} (h : b = true ↔ ip ∈ S) : Answers S (.containsIp ip) (.bool b)
  | containsRange {range : IpRange A} {b : Bool}
      (h : b = true ↔ range.start ≤ range.end_ ∧ Set.Icc range.start range.end_ ⊆ S) :
      Answers S (.containsRange range) (.bool b)
  | isEmpty {b : Bool} (h : b = true ↔ S = ∅) : Answers S .isEmpty (.bool b)
  | len {rs : List (IpRange A)} (h : CanonicalRanges rs S) : Answers S .len (.size rs.length)
  | count {n : BitVec 128} (h : n.toNat = min S.ncard (2 ^ 128 - 1)) : Answers S .count (.count n)
  | countChecked {o : Option (BitVec 128)} (h : ∀ n, o = some n ↔ n.toNat = S.ncard) :
      Answers S .countChecked (.countChecked o)
  | ranges {rs : List (IpRange A)} (h : CanonicalRanges rs S) : Answers S .ranges (.ranges rs)
  | prefixes {ps : List (IpPrefix A)} (h : LargestPrefixes ps S) :
      Answers S .prefixes (.prefixes ps)

/-- The addresses of an argument. -/
def argAddrs (sets : ℕ → Option (Set A)) : Arg A → Option (Set A)
  | .ip a => some {a}
  | .range r => some {ip | r.start ≤ ip ∧ ip ≤ r.end_}
  | .ofPrefix p => some p.addrs
  | .ipset y => sets y

/-- The addresses a new builder starts with. -/
def sourceAddrs : Source A → Set A
  | .new => ∅
  | .fromRanges rs => {ip | ∃ r ∈ rs, r.start ≤ ip ∧ ip ≤ r.end_}
  | .fromPrefixes ps => prefixesSet ps

/-- One statement. -/
inductive Step : Store A → Command A → Store A → Reply A → Prop where
  | start {t : Store A} {x : ℕ} {source : Source A} :
      Step t (.start x source)
        (t.setBuilder x (some (statusOf (sourceAddrs source) ∅))) .unit
  | collect {t : Store A} {x y : ℕ} {S : Set A} (hy : t.sets y = some S) :
      Step t (.collect x y) ((t.setSet y none).setBuilder x (some (statusOf S ∅))) .unit
  | collectPrefixes {t : Store A} {x y : ℕ} {S : Set A} (hy : t.sets y = some S) :
      Step t (.collectPrefixes x y) (t.setBuilder x (some (statusOf S ∅))) .unit
  | add {t : Store A} {x : ℕ} {st : A → Status} {arg : Arg A} {S : Set A}
      (hx : t.builders x = some st) (harg : argAddrs t.sets arg = some S) :
      Step t (.add x arg) (t.setBuilder x (some (Ideal.add st S))) .unit
  | remove {t : Store A} {x : ℕ} {st : A → Status} {arg : Arg A} {S : Set A}
      (hx : t.builders x = some st) (harg : argAddrs t.sets arg = some S) :
      Step t (.remove x arg) (t.setBuilder x (some (Ideal.remove st S))) .unit
  | build {t : Store A} {x y : ℕ} {st : A → Status} (hx : t.builders x = some st) :
      Step t (.build y x) ((t.setBuilder x none).setSet y (some (live st))) .unit
  | clone {t : Store A} {x z : ℕ} {S : Set A} (hx : t.sets x = some S) :
      Step t (.clone z x) (t.setSet z (some S)) .unit
  | combine {t : Store A} {op : SetOp} {x y z : ℕ} {S T : Set A} (hx : t.sets x = some S)
      (hy : t.sets y = some T) :
      Step t (.combine op z x y) (t.setSet z (some (Ideal.combine op S T))) .unit
  | complement {t : Store A} {x z : ℕ} {S : Set A} (hx : t.sets x = some S) :
      Step t (.complement z x) (t.setSet z (some Sᶜ)) .unit
  | ask {t : Store A} {query : Query A} {x : ℕ} {S : Set A} {o : Reply A}
      (hx : t.sets x = some S) (h : Answers S query o) : Step t (.ask query x) t o
  | compare {t : Store A} {comparison : Comparison} {x y : ℕ} {S T : Set A} {b : Bool}
      (hx : t.sets x = some S) (hy : t.sets y = some T)
      (h : b = true ↔ Compares S T comparison) : Step t (.compare comparison x y) t (.bool b)

/-! ## Section 3: The specification is deterministic -/

theorem CanonicalRanges.represents {rs : List (IpRange A)} {S : Set A}
    (h : CanonicalRanges rs S) : (IpSet.new rs).Represents S :=
  IpSet.represents_of_cover h.canonical fun ip => by
    rw [← h.cover, mem_rangesSet]
    rfl

theorem CanonicalRanges.unique {rs ss : List (IpRange A)} {S : Set A}
    (hrs : CanonicalRanges rs S) (hss : CanonicalRanges ss S) : rs = ss :=
  congrArg IpSet.ranges (hrs.represents.unique hss.represents)

/-- A truth value is determined by what it decides. -/
private theorem bool_unique {b c : Bool} {P : Prop} (hb : b = true ↔ P) (hc : c = true ↔ P) :
    b = c :=
  Bool.eq_iff_iff.mpr (hb.trans hc.symm)

theorem Answers.unique {S : Set A} {query : Query A} {o o' : Reply A} (h : Answers S query o)
    (h' : Answers S query o') : o = o' := by
  cases h with
  | containsIp h =>
    cases h' with
    | containsIp h' => rw [bool_unique h h']
  | containsRange h =>
    cases h' with
    | containsRange h' => rw [bool_unique h h']
  | isEmpty h =>
    cases h' with
    | isEmpty h' => rw [bool_unique h h']
  | len h =>
    cases h' with
    | len h' => rw [h.unique h']
  | count h =>
    cases h' with
    | count h' => rw [BitVec.eq_of_toNat_eq (h.trans h'.symm)]
  | countChecked h =>
    cases h' with
    | countChecked h' => rw [Option.ext fun n => (h n).trans (h' n).symm]
  | ranges h =>
    cases h' with
    | ranges h' => rw [h.unique h']
  | prefixes h =>
    cases h' with
    | prefixes h' => rw [h.unique h']

/-- A variable has one value. -/
private theorem some_unique {α : Type} {o : Option α} {a b : α} (ha : o = some a)
    (hb : o = some b) : a = b :=
  Option.some.inj (ha.symm.trans hb)

/-- Every statement has one outcome. -/
theorem Step.deterministic {t t₁ t₂ : Store A} {c : Command A} {o₁ o₂ : Reply A}
    (h₁ : Step t c t₁ o₁) (h₂ : Step t c t₂ o₂) : t₁ = t₂ ∧ o₁ = o₂ := by
  cases h₁ with
  | start =>
    cases h₂
    exact ⟨rfl, rfl⟩
  | collect hy =>
    cases h₂ with
    | collect hy' => exact ⟨by rw [some_unique hy hy'], rfl⟩
  | collectPrefixes hy =>
    cases h₂ with
    | collectPrefixes hy' => exact ⟨by rw [some_unique hy hy'], rfl⟩
  | add hx harg =>
    cases h₂ with
    | add hx' harg' => exact ⟨by rw [some_unique hx hx', some_unique harg harg'], rfl⟩
  | remove hx harg =>
    cases h₂ with
    | remove hx' harg' => exact ⟨by rw [some_unique hx hx', some_unique harg harg'], rfl⟩
  | build hx =>
    cases h₂ with
    | build hx' => exact ⟨by rw [some_unique hx hx'], rfl⟩
  | clone hx =>
    cases h₂ with
    | clone hx' => exact ⟨by rw [some_unique hx hx'], rfl⟩
  | combine hx hy =>
    cases h₂ with
    | combine hx' hy' => exact ⟨by rw [some_unique hx hx', some_unique hy hy'], rfl⟩
  | complement hx =>
    cases h₂ with
    | complement hx' => exact ⟨by rw [some_unique hx hx'], rfl⟩
  | ask hx h =>
    cases h₂ with
    | ask hx' h' =>
      rw [some_unique hx' hx] at h'
      exact ⟨rfl, h.unique h'⟩
  | compare hx hy h =>
    cases h₂ with
    | compare hx' hy' h' =>
      rw [some_unique hx' hx, some_unique hy' hy] at h'
      exact ⟨rfl, by rw [bool_unique h h']⟩

end Ideal

end Client

end Ipnetx
