import Mathlib.Algebra.Order.BigOperators.Group.Finset
import Mathlib.Algebra.Order.Floor.Div
import Ipnetx.Dyadic.Siblings
import Ipnetx.Dyadic.Staircase

/-! # Tiles of a Level

    The blocks of one level that lie inside an interval are consecutive.  Two
    of them that are siblings lie in their parent, so only the first and the
    last one can be tiles: the first one when its index is odd, the last one
    when the index after it is odd.  How many tiles of a level there are is
    therefore read off two indices (`tilesOfLevel`).

    Main results:
    - `Tiling.count_level`: the number of tiles of each level.
    - `Tiling.length_eq_iff`: all levels but the top two have two tiles in a
      single interval, the one without its two end points. -/

namespace Block

/-! ## Section 1: Blocks inside an interval -/

/-- The index of the first block that starts at `lo` or later. -/
def firstIndex (lo h : ℕ) : ℕ := lo ⌈/⌉ 2 ^ h

/-- The index of the first block that ends after `hi`. -/
def endIndex (hi h : ℕ) : ℕ := (hi + 1) / 2 ^ h

theorem firstIndex_le_iff {lo h i : ℕ} : firstIndex lo h ≤ i ↔ lo ≤ i * 2 ^ h := by
  rw [Nat.mul_comm]
  exact ceilDiv_le_iff_le_mul (Nat.two_pow_pos h)

theorem le_endIndex_iff {hi h i : ℕ} : i ≤ endIndex hi h ↔ i * 2 ^ h ≤ hi + 1 :=
  Nat.le_div_iff_mul_le (Nat.two_pow_pos h)

@[simp] theorem firstIndex_zero (lo : ℕ) : firstIndex lo 0 = lo := ceilDiv_one lo

@[simp] theorem endIndex_zero (hi : ℕ) : endIndex hi 0 = hi + 1 := Nat.div_one _

/-- A parent starts late enough when its first half does. -/
theorem firstIndex_succ (lo h : ℕ) : firstIndex lo (h + 1) = (firstIndex lo h + 1) / 2 := by
  apply eq_of_forall_ge_iff
  intro i
  have hhalf : (firstIndex lo h + 1) / 2 ≤ i ↔ firstIndex lo h ≤ i * 2 := by omega
  rw [hhalf, firstIndex_le_iff, firstIndex_le_iff, pow_succ, Nat.mul_assoc, Nat.mul_comm 2]

theorem endIndex_succ (hi h : ℕ) : endIndex hi (h + 1) = endIndex hi h / 2 := by
  unfold endIndex
  rw [pow_succ, Nat.div_div_eq_div_mul]

theorem subset_Icc_iff {b : Block} {lo hi : ℕ} :
    (∀ x ∈ b, x ∈ Set.Icc lo hi) ↔
      firstIndex lo b.level ≤ b.index ∧ b.index < endIndex hi b.level := by
  have hends : (∀ x ∈ b, x ∈ Set.Icc lo hi) ↔ lo ≤ b.lo ∧ b.hi ≤ hi := by
    have hmp : (∀ x ∈ b, x ∈ Set.Icc lo hi) → lo ≤ b.lo ∧ b.hi ≤ hi :=
      fun h => ⟨(h _ b.lo_mem).1, (h _ b.hi_mem).2⟩
    have hmpr : lo ≤ b.lo ∧ b.hi ≤ hi → ∀ x ∈ b, x ∈ Set.Icc lo hi := by
      intro h x hx
      have hin := mem_iff.mp hx
      exact ⟨h.1.trans hin.1, hin.2.trans h.2⟩
    exact ⟨hmp, hmpr⟩
  have hsize := b.lo_add_size
  have hlast : (b.index + 1) * 2 ^ b.level = b.lo + 2 ^ b.level := Nat.succ_mul _ _
  rw [hends, firstIndex_le_iff, ← Nat.succ_le_iff, le_endIndex_iff]
  show lo ≤ b.lo ∧ b.hi ≤ hi ↔ lo ≤ b.lo ∧ (b.index + 1) * 2 ^ b.level ≤ hi + 1
  omega

/-- Only the first and the last block of a level are not in a pair of siblings. -/
theorem maximal_Icc_iff {b : Block} {lo hi : ℕ} :
    Maximal b (Set.Icc lo hi) ↔
      firstIndex lo b.level < endIndex hi b.level ∧
        (b.index = firstIndex lo b.level ∧ firstIndex lo b.level % 2 = 1 ∨
          b.index + 1 = endIndex hi b.level ∧ endIndex hi b.level % 2 = 1) := by
  rw [maximal_iff, subset_Icc_iff, subset_Icc_iff]
  show _ ∧ ¬ (firstIndex lo (b.level + 1) ≤ b.index / 2 ∧
    b.index / 2 < endIndex hi (b.level + 1)) ↔ _
  rw [firstIndex_succ, endIndex_succ]
  omega

/-! ## Section 2: How many tiles -/

/-- The number of blocks of level `h` inside `[lo, hi]` that have no sibling inside it. -/
def tilesOfLevel (lo hi h : ℕ) : ℕ :=
  if firstIndex lo h < endIndex hi h then firstIndex lo h % 2 + endIndex hi h % 2 else 0

theorem tilesOfLevel_le_two (lo hi h : ℕ) : tilesOfLevel lo hi h ≤ 2 := by
  unfold tilesOfLevel
  split
  · omega
  · omega

/-- The tiles are the maximal blocks of the interval. -/
theorem Tiling.shortest {hi lo : ℕ} {bs : List Block} (ht : Tiling hi lo bs) :
    Shortest bs (Set.Icc lo hi) where
  nodup := Ascending.nodup ht.ascending
  maximal := ht.maximal le_rfl (unstraddled_start lo hi)
  points_eq := Set.ext fun _ => ht.mem_points

private theorem length_of_mem_iff {l m : List ℕ} (hl : l.Nodup) (hm : m.Nodup)
    (h : ∀ i, i ∈ l ↔ i ∈ m) : l.length = m.length :=
  ((List.perm_ext_iff_of_nodup hl hm).mpr h).length_eq

/-- **Tiles of a level.** -/
theorem Tiling.count_level {hi lo : ℕ} {bs : List Block} (ht : Tiling hi lo bs) (h : ℕ) :
    (bs.map level).count h = tilesOfLevel lo hi h := by
  have hmem : ∀ i, i ∈ (bs.filter fun b => b.level = h).map index ↔
      firstIndex lo h < endIndex hi h ∧ (i = firstIndex lo h ∧ firstIndex lo h % 2 = 1 ∨
        i + 1 = endIndex hi h ∧ endIndex hi h % 2 = 1) := by
    intro i
    rw [← maximal_Icc_iff (b := ⟨h, i⟩), ← ht.shortest.mem_iff]
    simp only [List.mem_map, List.mem_filter, decide_eq_true_eq]
    have hmp : (∃ b, (b ∈ bs ∧ b.level = h) ∧ b.index = i) → (⟨h, i⟩ : Block) ∈ bs := by
      intro hin
      obtain ⟨b, ⟨hb, rfl⟩, rfl⟩ := hin
      exact hb
    exact ⟨hmp, fun hb => ⟨_, ⟨hb, rfl⟩, rfl⟩⟩
  have hnodup : ((bs.filter fun b => b.level = h).map index).Nodup := by
    apply List.Nodup.map_on _ (ht.shortest.nodup.filter _)
    intro b hb c hc heq
    have hbl : b.level = h := of_decide_eq_true (List.mem_filter.mp hb).2
    have hcl : c.level = h := of_decide_eq_true (List.mem_filter.mp hc).2
    show (⟨b.level, b.index⟩ : Block) = ⟨c.level, c.index⟩
    rw [hbl, hcl, heq]
  have hcount : (bs.map level).count h = ((bs.filter fun b => b.level = h).map index).length := by
    rw [List.length_map, ← List.countP_eq_length_filter, List.count, List.countP_map]
    exact List.countP_congr fun b _ => by simp
  rw [hcount]
  unfold tilesOfLevel
  by_cases hlt : firstIndex lo h < endIndex hi h
  · rw [if_pos hlt]
    rcases Nat.mod_two_eq_zero_or_one (firstIndex lo h) with hfirst | hfirst
    · rcases Nat.mod_two_eq_zero_or_one (endIndex hi h) with hend | hend
      · rw [hfirst, hend]
        exact length_of_mem_iff (m := []) hnodup List.nodup_nil (by simp [hmem]; omega)
      · rw [hfirst, hend]
        exact length_of_mem_iff (m := [endIndex hi h - 1]) hnodup (List.nodup_singleton _)
          (by simp [hmem]; omega)
    · rcases Nat.mod_two_eq_zero_or_one (endIndex hi h) with hend | hend
      · rw [hfirst, hend]
        exact length_of_mem_iff (m := [firstIndex lo h]) hnodup (List.nodup_singleton _)
          (by simp [hmem]; omega)
      · rw [hfirst, hend]
        exact length_of_mem_iff (m := [firstIndex lo h, endIndex hi h - 1]) hnodup
          (by simp; omega) (by simp [hmem]; omega)
  · rw [if_neg hlt]
    exact length_of_mem_iff (m := []) hnodup List.nodup_nil (by simp [hmem]; omega)

/-! ## Section 3: The longest tilings -/

/-- An interval that starts at zero has no first tile without a sibling. -/
theorem tilesOfLevel_zero_le (hi h : ℕ) : tilesOfLevel 0 hi h ≤ 1 := by
  have hfirst : firstIndex 0 h = 0 := zero_ceilDiv _
  unfold tilesOfLevel
  rw [hfirst]
  split
  · omega
  · omega

/-- An interval that reaches the top has no last one. -/
theorem tilesOfLevel_top_le {hi B : ℕ} (htop : hi + 1 = 2 ^ B) (lo : ℕ) {h : ℕ} (hh : h ≤ B) :
    tilesOfLevel lo hi h ≤ 1 := by
  have hend : endIndex hi h = 2 ^ (B - h) := by
    unfold endIndex
    rw [htop, Nat.pow_div hh (by decide)]
  unfold tilesOfLevel
  rw [hend]
  rcases Nat.eq_or_lt_of_le hh with rfl | hlt
  · rw [Nat.sub_self, pow_zero]
    split
    · omega
    · omega
  · -- a power of two is even
    have heven : 2 ^ (B - h) % 2 = 0 := by
      have hpow : 2 ^ (B - h) = 2 ^ (B - h - 1) * 2 := by
        rw [← pow_succ]
        congr 1
        omega
      omega
    split
    · omega
    · omega

/-- An interval without the two ends has no tile of the top two levels. -/
theorem tilesOfLevel_inner {lo hi B h : ℕ} (hlo : 1 ≤ lo) (hhi : hi + 1 < 2 ^ B) (hh : B ≤ h + 1) :
    tilesOfLevel lo hi h = 0 := by
  have hfirst : firstIndex lo h ≠ 0 := by
    intro hzero
    have hle := firstIndex_le_iff.mp hzero.le
    omega
  have hend : endIndex hi h < 2 := by
    apply Nat.div_lt_of_lt_mul
    calc hi + 1 < 2 ^ B := hhi
      _ ≤ 2 ^ (h + 1) := Nat.pow_le_pow_right (by decide) hh
      _ = 2 ^ h * 2 := pow_succ 2 h
  unfold tilesOfLevel
  rw [if_neg (by omega)]

theorem Tiling.length_eq_sum {hi lo B : ℕ} {bs : List Block} (ht : Tiling hi lo bs)
    (hhi : hi < 2 ^ B) : bs.length = ∑ h ∈ Finset.range (B + 1), tilesOfLevel lo hi h := by
  have hlevels : ∀ h ∈ (bs.map level : Multiset ℕ), h ∈ Finset.range (B + 1) := by
    intro h hin
    have hpos : 0 < tilesOfLevel lo hi h := by
      rw [← ht.count_level]
      exact List.count_pos_iff.mpr hin
    by_contra hout
    have hbig : B + 1 ≤ h := not_lt.mp (Finset.mem_range.not.mp hout)
    have hpow : 2 ^ (B + 1) ≤ 2 ^ h := Nat.pow_le_pow_right (by decide) hbig
    have hend : endIndex hi h = 0 := Nat.div_eq_of_lt (by rw [pow_succ] at hpow; omega)
    unfold tilesOfLevel at hpos
    rw [hend, if_neg (Nat.not_lt_zero _)] at hpos
    omega
  have hsum := Multiset.sum_count_eq_card hlevels
  rw [Multiset.coe_card, List.length_map] at hsum
  rw [← hsum]
  apply Finset.sum_congr rfl
  intro h _
  rw [Multiset.coe_count, ht.count_level]

/-- Two tiles of each level below put the ends of the interval right beside the ends of a block. -/
theorem ends_of_two_tiles {lo hi n : ℕ} (h2 : ∀ h < n, tilesOfLevel lo hi h = 2) :
    lo + 2 ^ n = 1 + 2 ^ n * firstIndex lo n ∧ hi + 2 = 2 ^ n * (endIndex hi n + 1) := by
  induction n with
  | zero =>
    rw [firstIndex_zero, endIndex_zero]
    omega
  | succ n ih =>
    obtain ⟨hlo, hhi⟩ := ih fun h hh => h2 h (Nat.lt_succ_of_lt hh)
    have htwo := h2 n (Nat.lt_succ_self n)
    unfold tilesOfLevel at htwo
    split at htwo
    · -- both indices are odd
      have hfirst : firstIndex lo n + 1 = 2 * firstIndex lo (n + 1) := by
        rw [firstIndex_succ]
        omega
      have hend : endIndex hi n = 2 * endIndex hi (n + 1) + 1 := by
        rw [endIndex_succ]
        omega
      have hlo' : lo + 2 ^ n + 2 ^ n = 1 + 2 ^ n * (firstIndex lo n + 1) := by
        rw [hlo]
        ring
      rw [hfirst] at hlo'
      rw [hend] at hhi
      rw [pow_succ]
      exact ⟨by rw [Nat.mul_two, ← Nat.add_assoc, hlo']; ring, by rw [hhi]; ring⟩
    · omega

/-- The interval without the two ends has two tiles of each level. -/
theorem two_tiles_inner {hi B h : ℕ} (hhi : hi + 2 = 2 ^ B) (hh : h + 2 ≤ B) :
    tilesOfLevel 1 hi h = 2 := by
  obtain ⟨k, rfl⟩ := Nat.exists_eq_add_of_le hh
  have hpos := Nat.two_pow_pos h
  have hfirst : firstIndex 1 h = 1 := by
    apply eq_of_forall_ge_iff
    intro i
    rw [firstIndex_le_iff]
    exact ⟨fun hi => Nat.pos_of_mul_pos_right hi, fun hi => Nat.mul_pos hi hpos⟩
  have hpow : 2 ^ (h + 2 + k) = (4 * 2 ^ k) * 2 ^ h := by ring
  have hend : endIndex hi h = 4 * 2 ^ k - 1 := by
    apply Nat.div_eq_of_lt_le
    · rw [Nat.sub_mul]
      omega
    · rw [Nat.sub_add_cancel (by have := Nat.two_pow_pos k; omega)]
      omega
  have hk := Nat.two_pow_pos k
  unfold tilesOfLevel
  rw [hfirst, hend, if_pos (by omega)]
  omega

/-- **The longest tiling.**  The interval of numbers of `B` bits without the two ends takes
    `2 * B - 2` tiles, and no other one does. -/
theorem Tiling.length_eq_iff {hi lo B : ℕ} {bs : List Block} (ht : Tiling hi lo bs) (hB : 4 ≤ B)
    (hhi : hi < 2 ^ B) : bs.length = 2 * B - 2 ↔ lo = 1 ∧ hi + 2 = 2 ^ B := by
  obtain ⟨n, rfl⟩ : ∃ n, B = n + 2 := ⟨B - 2, by omega⟩
  have hsum := ht.length_eq_sum hhi
  -- the top two levels have no tiles unless the interval touches an end
  have hinner : 1 ≤ lo → hi + 1 < 2 ^ (n + 2) →
      bs.length = ∑ h ∈ Finset.range (n + 1), tilesOfLevel lo hi h := by
    intro hlo htop
    rw [hsum, Finset.sum_range_succ, Finset.sum_range_succ,
      tilesOfLevel_inner hlo htop (by omega), tilesOfLevel_inner hlo htop (by omega)]
    rfl
  have htwos : ∑ h ∈ Finset.range (n + 1), 2 = 2 * (n + 2) - 2 := by
    rw [Finset.sum_const, Finset.card_range, smul_eq_mul]
    omega
  have hmp : bs.length = 2 * (n + 2) - 2 → lo = 1 ∧ hi + 2 = 2 ^ (n + 2) := by
    intro hlen
    have hends : ¬ ∀ h ∈ Finset.range (n + 2 + 1), tilesOfLevel lo hi h ≤ 1 := by
      intro hle
      have := Finset.sum_le_card_nsmul _ _ 1 hle
      rw [← hsum, Finset.card_range, smul_eq_mul] at this
      omega
    have hlo : 1 ≤ lo := by
      by_contra hzero
      have hzero' : lo = 0 := by omega
      subst hzero'
      exact hends fun h _ => tilesOfLevel_zero_le hi h
    have htop : hi + 1 < 2 ^ (n + 2) := by
      by_contra hge
      have htop' : hi + 1 = 2 ^ (n + 2) := by omega
      exact hends fun h hh =>
        tilesOfLevel_top_le htop' lo (Nat.le_of_lt_succ (Finset.mem_range.mp hh))
    rw [hinner hlo htop, ← htwos,
      Finset.sum_eq_sum_iff_of_le fun h _ => tilesOfLevel_le_two lo hi h] at hlen
    have hall : ∀ h < n + 1, tilesOfLevel lo hi h = 2 :=
      fun h hh => hlen h (Finset.mem_range.mpr hh)
    obtain ⟨hlo', hhi'⟩ := ends_of_two_tiles fun h hh => hall h (Nat.lt_succ_of_lt hh)
    have hlast := hall n (Nat.lt_succ_self n)
    have hend : endIndex hi n < 4 :=
      Nat.div_lt_of_lt_mul (by rw [pow_add] at htop; exact htop)
    unfold tilesOfLevel at hlast
    split at hlast
    · have hfirst1 : firstIndex lo n = 1 := by omega
      have hend3 : endIndex hi n = 3 := by omega
      rw [hfirst1] at hlo'
      rw [hend3] at hhi'
      rw [pow_add]
      exact ⟨by omega, hhi'⟩
    · omega
  have hmpr : lo = 1 ∧ hi + 2 = 2 ^ (n + 2) → bs.length = 2 * (n + 2) - 2 := by
    intro hin
    obtain ⟨rfl, htop⟩ := hin
    rw [hinner le_rfl (by omega), ← htwos]
    apply Finset.sum_congr rfl
    intro h hh
    exact two_tiles_inner htop (by have := Finset.mem_range.mp hh; omega)
  exact ⟨hmp, hmpr⟩

/-! ## Section 4: The tilings of a list -/

section
variable {l : List (Segment ℕ)} {bss : List (List Block)}

theorem Tilings.count_level (h : Tilings l bss) (k : ℕ) :
    (bss.flatten.map level).count k = (l.map fun s => tilesOfLevel s.lo s.hi k).sum := by
  induction h with
  | nil => rfl
  | cons ht _ ih =>
    rw [List.flatten_cons, List.map_append, List.count_append, ht.count_level, ih, List.map_cons,
      List.sum_cons]

variable {B : ℕ} (hl : ∀ s ∈ l, s.hi < 2 ^ B)
include hl

theorem Tilings.length_le (h : Tilings l bss) (hB : 2 ≤ B) :
    bss.flatten.length ≤ (2 * B - 2) * l.length := by
  induction h with
  | nil => exact Nat.le_refl 0
  | cons ht _ ih =>
    have h1 := ht.length_le hB (hl _ List.mem_cons_self)
    have h2 := ih fun s hs => hl s (List.mem_cons_of_mem _ hs)
    rw [List.flatten_cons, List.length_append, List.length_cons, Nat.mul_succ]
    omega

/-- The bound is reached when every segment reaches it. -/
theorem Tilings.length_eq_iff (h : Tilings l bss) (hB : 4 ≤ B) :
    bss.flatten.length = (2 * B - 2) * l.length ↔ ∀ s ∈ l, s.lo = 1 ∧ s.hi + 2 = 2 ^ B := by
  induction h with
  | nil => simp
  | @cons s bs l bss ht hts ih =>
    have hB' : 2 ≤ B := by omega
    have hs := hl s List.mem_cons_self
    have hl' : ∀ s ∈ l, s.hi < 2 ^ B := fun s hs => hl s (List.mem_cons_of_mem _ hs)
    have h1 := ht.length_le hB' hs
    have h2 := Tilings.length_le hl' hts hB'
    have hboth : (bs ++ bss.flatten).length = (2 * B - 2) * (l.length + 1) ↔
        bs.length = 2 * B - 2 ∧ bss.flatten.length = (2 * B - 2) * l.length := by
      rw [List.length_append, Nat.mul_succ]
      omega
    rw [List.flatten_cons, List.length_cons, hboth, ht.length_eq_iff hB hs, ih hl',
      List.forall_mem_cons]

end

end Block
