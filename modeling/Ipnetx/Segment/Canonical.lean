import Mathlib.Combinatorics.Enumerative.DoubleCounting
import Mathlib.Data.List.TakeWhile
import Mathlib.Order.Interval.Set.OrdConnected
import Mathlib.Tactic

/-! # Canonical Segment Lists

    A segment is a pair of endpoints, both inclusive, over any linear order.
    A list of segments covers the union of their points.  It is *canonical*
    when every segment is valid and any earlier segment is separated from
    any later one by a point that lies strictly between them: the segments
    are ascending, disjoint and do not touch.

    Separation needs no successor function, so the theory is one of linear
    orders; over the naturals it reads `r.hi + 1 < s.lo`.

    Main results:
    - `Canonical.ext`: a set has at most one canonical list.
    - `Canonical.ordConnected_subset`: a connected part of the cover lies in
      a single segment.
    - `Canonical.length_le`: no list of segments with the same points is shorter. -/

/-- Inclusive endpoints.  A segment with `hi < lo` is empty. -/
structure Segment (α : Type*) where
  lo : α
  hi : α
  deriving DecidableEq, Repr

namespace Segment

variable {α : Type*} [LinearOrder α]

/-! ## Section 1: Points, covers, separation -/

instance : Membership α (Segment α) := ⟨fun s x => s.lo ≤ x ∧ x ≤ s.hi⟩

theorem mem_def {s : Segment α} {x : α} : x ∈ s ↔ s.lo ≤ x ∧ x ≤ s.hi := Iff.rfl

/-- The segment has a point. -/
def Valid (s : Segment α) : Prop := s.lo ≤ s.hi

/-- Some point lies strictly between `r` and the later segment `s`. -/
def Separated (r s : Segment α) : Prop := ∃ x, r.hi < x ∧ x < s.lo

/-- The points of a list of segments. -/
def cover (l : List (Segment α)) : Set α := {x | ∃ s ∈ l, x ∈ s}

theorem mem_cover {l : List (Segment α)} {x : α} : x ∈ cover l ↔ ∃ s ∈ l, x ∈ s := Iff.rfl

@[simp] theorem cover_nil : cover ([] : List (Segment α)) = ∅ := by
  apply Set.ext
  intro x
  simp [mem_cover]

theorem mem_cover_cons {s : Segment α} {l : List (Segment α)} {x : α} :
    x ∈ cover (s :: l) ↔ x ∈ s ∨ x ∈ cover l := by
  simp [mem_cover]

theorem not_mem_cover_nil (x : α) : x ∉ cover ([] : List (Segment α)) := by
  simp

theorem mem_cover_singleton {s : Segment α} {x : α} : x ∈ cover [s] ↔ s.lo ≤ x ∧ x ≤ s.hi := by
  simp [mem_cover, mem_def]

theorem mem_cover_append {l m : List (Segment α)} {x : α} :
    x ∈ cover (l ++ m) ↔ x ∈ cover l ∨ x ∈ cover m := by
  simp only [mem_cover, List.mem_append, or_and_right, exists_or]

/-- The cover does not depend on the order of the segments. -/
theorem cover_perm {l m : List (Segment α)} (h : l.Perm m) : cover l = cover m := by
  apply Set.ext
  intro x
  simp only [mem_cover, h.mem_iff]

theorem Separated.hi_lt_lo {r s : Segment α} (h : Separated r s) : r.hi < s.lo := by
  obtain ⟨x, h1, h2⟩ := h
  exact h1.trans h2

/-! ## Section 2: Canonical lists -/

/-- Valid segments, each separated from all later ones. -/
structure Canonical (l : List (Segment α)) : Prop where
  valid : ∀ s ∈ l, s.Valid
  separated : l.Pairwise Separated

theorem Canonical.nil : Canonical ([] : List (Segment α)) :=
  ⟨by simp, List.Pairwise.nil⟩

theorem Canonical.singleton {s : Segment α} (h : s.Valid) : Canonical [s] :=
  ⟨by simpa using h, List.pairwise_singleton _ _⟩

theorem Canonical.cons {s : Segment α} {l : List (Segment α)} (hs : s.Valid)
    (hsep : ∀ t ∈ l, Separated s t) (hl : Canonical l) : Canonical (s :: l) :=
  ⟨by simpa using ⟨hs, hl.valid⟩, List.pairwise_cons.mpr ⟨hsep, hl.separated⟩⟩

/-- It is enough that consecutive segments are separated. -/
theorem Canonical.of_isChain {l : List (Segment α)} (hvalid : ∀ s ∈ l, s.Valid)
    (hchain : l.IsChain Separated) : Canonical l := by
  induction l with
  | nil => exact .nil
  | cons s l ih =>
    have hl : Canonical l := ih (fun t ht => hvalid t (List.mem_cons_of_mem _ ht)) hchain.tail
    apply Canonical.cons (hvalid s List.mem_cons_self) _ hl
    intro t ht
    cases l with
    | nil => cases ht
    | cons b bs =>
      obtain ⟨x, hsx, hxb⟩ := (List.isChain_cons_cons.mp hchain).1
      rcases List.mem_cons.mp ht with rfl | ht
      · exact ⟨x, hsx, hxb⟩
      · have hbt : b.hi < t.lo := (List.rel_of_pairwise_cons hl.separated ht).hi_lt_lo
        have hb : b.lo ≤ b.hi := hl.valid b List.mem_cons_self
        exact ⟨x, hsx, (hxb.trans_le hb).trans hbt⟩

theorem Canonical.append {l m : List (Segment α)} (hl : Canonical l) (hm : Canonical m)
    (hsep : ∀ s ∈ l, ∀ t ∈ m, Separated s t) : Canonical (l ++ m) := by
  refine ⟨?_, List.pairwise_append.mpr ⟨hl.separated, hm.separated, hsep⟩⟩
  intro s hs
  rcases List.mem_append.mp hs with h | h
  · exact hl.valid s h
  · exact hm.valid s h

theorem Canonical.head_valid {s : Segment α} {l : List (Segment α)} (h : Canonical (s :: l)) :
    s.Valid :=
  h.valid s List.mem_cons_self

theorem Canonical.tail {s : Segment α} {l : List (Segment α)} (h : Canonical (s :: l)) :
    Canonical l :=
  ⟨fun t ht => h.valid t (List.mem_cons_of_mem _ ht), h.separated.tail⟩

theorem Canonical.head_separated {s t : Segment α} {l : List (Segment α)}
    (h : Canonical (s :: l)) (ht : t ∈ l) : Separated s t :=
  List.rel_of_pairwise_cons h.separated ht

theorem Canonical.of_suffix {l m : List (Segment α)} (h : Canonical (l ++ m)) : Canonical m :=
  ⟨fun t ht => h.valid t (List.mem_append_right _ ht), (List.pairwise_append.mp h.separated).2.1⟩

theorem Canonical.of_prefix {l m : List (Segment α)} (h : Canonical (l ++ m)) : Canonical l :=
  ⟨fun t ht => h.valid t (List.mem_append_left _ ht), (List.pairwise_append.mp h.separated).1⟩

/-- The first endpoint of a canonical list is its least point. -/
theorem Canonical.head_lo_le {s : Segment α} {l : List (Segment α)} {x : α}
    (h : Canonical (s :: l)) (hx : x ∈ cover (s :: l)) : s.lo ≤ x := by
  rcases mem_cover_cons.mp hx with hs | ⟨t, ht, htx⟩
  · exact hs.1
  · have hv : s.lo ≤ s.hi := h.head_valid
    exact hv.trans ((h.head_separated ht).hi_lt_lo.le.trans htx.1)

theorem Canonical.lo_mem {s : Segment α} {l : List (Segment α)} (h : Canonical l) (hs : s ∈ l) :
    s.lo ∈ cover l :=
  ⟨s, hs, le_rfl, h.valid s hs⟩

theorem Canonical.hi_mem {s : Segment α} {l : List (Segment α)} (h : Canonical l) (hs : s ∈ l) :
    s.hi ∈ cover l :=
  ⟨s, hs, h.valid s hs, le_rfl⟩

/-- Between the head and any later point of the cover there is an uncovered point. -/
theorem Canonical.gap {s : Segment α} {l : List (Segment α)} {x : α}
    (h : Canonical (s :: l)) (hx : x ∈ cover l) :
    ∃ z, s.hi < z ∧ z < x ∧ z ∉ cover (s :: l) := by
  cases l with
  | nil => simp at hx
  | cons t l =>
    obtain ⟨z, hsz, hzt⟩ := h.head_separated (t := t) List.mem_cons_self
    refine ⟨z, hsz, hzt.trans_le (h.tail.head_lo_le hx), ?_⟩
    intro hz
    rcases mem_cover_cons.mp hz with hz | hz
    · exact absurd hz.2 (not_le.mpr hsz)
    · exact absurd (h.tail.head_lo_le hz) (not_le.mpr hzt)

/-- The points of the tail are the covered points past the head. -/
theorem Canonical.mem_tail_iff {s : Segment α} {l : List (Segment α)} {x : α}
    (h : Canonical (s :: l)) : x ∈ cover l ↔ x ∈ cover (s :: l) ∧ s.hi < x := by
  constructor
  · intro hx
    obtain ⟨z, hsz, hzx, _⟩ := h.gap hx
    exact ⟨mem_cover_cons.mpr (Or.inr hx), hsz.trans hzx⟩
  · intro hin
    obtain ⟨hx, hlt⟩ := hin
    rcases mem_cover_cons.mp hx with hs | hl
    · exact absurd hs.2 (not_le.mpr hlt)
    · exact hl

/-! ## Section 3: Uniqueness -/

/-- Two canonical lists with the same points: the first ends no later than the second. -/
private theorem Canonical.head_hi_le {s t : Segment α} {l m : List (Segment α)}
    (hl : Canonical (s :: l)) (hm : Canonical (t :: m))
    (hcover : cover (s :: l) = cover (t :: m)) (hlo : s.lo = t.lo) : t.hi ≤ s.hi := by
  by_contra hlt
  rw [not_le] at hlt
  have hmem : t.hi ∈ cover (s :: l) := hcover ▸ hm.hi_mem List.mem_cons_self
  obtain ⟨z, hsz, hzt, hz⟩ := hl.gap (hl.mem_tail_iff.mpr ⟨hmem, hlt⟩)
  -- the uncovered point after `s` would be inside `t`
  have hsv : s.lo ≤ s.hi := hl.head_valid
  have hzm : z ∈ cover (t :: m) :=
    mem_cover_cons.mpr (Or.inl ⟨hlo ▸ (hsv.trans hsz.le), hzt.le⟩)
  exact hz (hcover ▸ hzm)

/-- **Uniqueness.**  A set of points has at most one canonical list of segments. -/
theorem Canonical.ext {l m : List (Segment α)} (hl : Canonical l) (hm : Canonical m)
    (hcover : cover l = cover m) : l = m := by
  induction l generalizing m with
  | nil =>
    cases m with
    | nil => rfl
    | cons t m =>
      have ht := hm.lo_mem (s := t) List.mem_cons_self
      rw [← hcover] at ht
      simp at ht
  | cons s l ih =>
    cases m with
    | nil =>
      have hs := hl.lo_mem (s := s) List.mem_cons_self
      rw [hcover] at hs
      simp at hs
    | cons t m =>
      -- each first start is the least point of the common cover
      have hlo : s.lo = t.lo := by
        apply le_antisymm
        · exact hl.head_lo_le (hcover ▸ hm.lo_mem List.mem_cons_self)
        · exact hm.head_lo_le (hcover ▸ hl.lo_mem List.mem_cons_self)
      have hhi : s.hi = t.hi :=
        le_antisymm (hm.head_hi_le hl hcover.symm hlo.symm) (hl.head_hi_le hm hcover hlo)
      have hst : s = t := by
        cases s
        cases t
        simp_all
      subst hst
      -- equal heads, so the tails cover the same points past them
      have htail : cover l = cover m := by
        apply Set.ext
        intro x
        rw [hl.mem_tail_iff, hm.mem_tail_iff, hcover]
      rw [ih hl.tail hm.tail htail]

/-! ## Section 4: Connected parts -/

/-- A connected set inside the cover that meets a segment lies inside that segment. -/
theorem Canonical.ordConnected_subset {l : List (Segment α)} (h : Canonical l) {T : Set α}
    (hT : T.OrdConnected) (hsub : T ⊆ cover l) {s : Segment α} (hs : s ∈ l) {x : α}
    (hxT : x ∈ T) (hxs : x ∈ s) {y : α} (hyT : y ∈ T) : y ∈ s := by
  induction l with
  | nil => simp at hs
  | cons a l ih =>
    rcases List.mem_cons.mp hs with rfl | hsl
    · rcases mem_cover_cons.mp (hsub hyT) with hy | hy
      · exact hy
      · obtain ⟨z, hsz, hzy, hz⟩ := h.gap hy
        exact absurd (hsub (hT.out hxT hyT ⟨hxs.2.trans hsz.le, hzy.le⟩)) hz
    · -- `T` avoids the head, which the gap before `x` cuts off
      refine ih h.tail ?_ hsl
      intro w hw
      rcases mem_cover_cons.mp (hsub hw) with hwa | hwl
      · obtain ⟨z, haz, hzx, hz⟩ := h.gap (x := x) ⟨s, hsl, hxs⟩
        exact absurd (hsub (hT.out hw hxT ⟨hwa.2.trans haz.le, hzx.le⟩)) hz
      · exact hwl

/-! ## Section 5: The shortest list -/

theorem Canonical.nodup {l : List (Segment α)} (h : Canonical l) : l.Nodup := by
  refine h.separated.imp_of_mem ?_
  intro r s hr _ hsep heq
  subst heq
  have hv : r.lo ≤ r.hi := h.valid r hr
  exact absurd hsep.hi_lt_lo (not_lt.mpr hv)

/-- Two segments of a canonical list that share a point are equal. -/
theorem Canonical.eq_of_mem {l : List (Segment α)} (h : Canonical l) {r s : Segment α}
    (hr : r ∈ l) (hs : s ∈ l) {x : α} (hxr : x ∈ r) (hxs : x ∈ s) : r = s := by
  have hdisjoint : l.Pairwise fun a b => ∀ y, y ∈ a → ¬ y ∈ b := by
    refine h.separated.imp ?_
    intro a b hsep y hya hyb
    exact absurd (hya.2.trans_lt hsep.hi_lt_lo) (not_lt.mpr hyb.1)
  by_contra hne
  have hsymm : Std.Symm fun a b : Segment α => ∀ y, y ∈ a → ¬ y ∈ b :=
    ⟨fun _ _ hab y hyb hya => hab y hya hyb⟩
  exact hdisjoint.forall hr hs hne x hxr hxs

/-- **Shortest list.**  A segment inside the cover meets only one segment of the canonical
    list, so a list with the same points has at least as many segments. -/
theorem Canonical.length_le {l m : List (Segment α)} (hl : Canonical l)
    (hcover : cover m = cover l) : l.length ≤ m.length := by
  have hcard : l.toFinset.card ≤ m.toFinset.card := by
    apply Finset.card_le_card_of_forall_subsingleton fun s t => s.lo ∈ t
    · -- the first point of a segment of `l` lies in some segment of `m`
      intro s hs
      have hlo : s.lo ∈ cover m := hcover ▸ hl.lo_mem (List.mem_toFinset.mp hs)
      obtain ⟨t, ht, hmem⟩ := hlo
      exact ⟨t, List.mem_toFinset.mpr ht, hmem⟩
    · -- two such points in one `t` put all of `t` into one segment of `l`
      intro t ht s hs s' hs'
      have hsub : {x | x ∈ t} ⊆ cover l := by
        intro x hx
        exact hcover ▸ ⟨t, List.mem_toFinset.mp ht, hx⟩
      have hsl : s ∈ l := List.mem_toFinset.mp hs.1
      have hsl' : s' ∈ l := List.mem_toFinset.mp hs'.1
      have hmem : s'.lo ∈ s := hl.ordConnected_subset Set.ordConnected_Icc hsub hsl
        (x := s.lo) hs.2 ⟨le_rfl, hl.valid s hsl⟩ hs'.2
      exact hl.eq_of_mem hsl hsl' hmem ⟨le_rfl, hl.valid s' hsl'⟩
  rw [List.toFinset_card_of_nodup hl.nodup] at hcard
  exact hcard.trans (List.toFinset_card_le m)

/-! ## Section 6: Skipping -/

/-- Dropping segments that end before `x` leaves the membership of `x` alone. -/
theorem mem_cover_of_done {done rest : List (Segment α)} {x : α}
    (h : ∀ d ∈ done, d.hi < x) : x ∈ cover (done ++ rest) ↔ x ∈ cover rest := by
  rw [mem_cover_append]
  constructor
  · intro hin
    rcases hin with ⟨d, hd, hx⟩ | hx
    · exact absurd hx.2 (not_le.mpr (h d hd))
    · exact hx
  · exact Or.inr

/-- The segments skipped before `lo` all end before it. -/
theorem dropWhile_split (lo : α) (bs : List (Segment α)) :
    ∃ done, bs = done ++ bs.dropWhile (fun b => decide (b.hi < lo)) ∧
      ∀ d ∈ done, d.hi < lo := by
  refine ⟨bs.takeWhile fun b => decide (b.hi < lo), List.takeWhile_append_dropWhile.symm, ?_⟩
  intro d hd
  simpa using List.mem_takeWhile_imp hd

/-- After the skip every segment ends at or past `lo`. -/
theorem le_hi_of_mem_dropWhile {lo : α} {bs : List (Segment α)} (hbs : Canonical bs) :
    ∀ b ∈ bs.dropWhile (fun b => decide (b.hi < lo)), lo ≤ b.hi := by
  induction bs with
  | nil => simp
  | cons c bs ih =>
    by_cases h : c.hi < lo
    · rw [List.dropWhile_cons_of_pos (by simpa using h)]
      exact ih hbs.tail
    · rw [List.dropWhile_cons_of_neg (by simpa using h)]
      intro b hb
      rcases List.mem_cons.mp hb with rfl | hb
      · exact not_lt.mp h
      · have hbv : b.lo ≤ b.hi := hbs.tail.valid b hb
        exact (not_lt.mp h).trans ((hbs.head_separated hb).hi_lt_lo.le.trans hbv)

end Segment
