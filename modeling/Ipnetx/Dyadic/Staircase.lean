import Ipnetx.Dyadic.Tiling

/-! # The Shape of a Tiling

    The levels of a greedy tiling go strictly up and then strictly down.
    Each block is limited by the alignment of the cursor or by the space that
    is left.  Past a block limited by alignment the cursor is aligned to the
    next level, so the levels go up.  Past a block limited by space less than
    its size is left, so the levels go down and the limit stays space.

    Distinct powers of two add up quickly, so the size of the interval bounds
    the lengths of the two flights.

    Main results:
    - `Tiling.staircase`: the shape.
    - `Tiling.length_le`: at most `2 * B - 2` blocks tile an interval below `2 ^ B`. -/

namespace Block

/-! ## Section 1: Staircases -/

/-- `l` goes strictly up through `up` and then strictly down through `down`. -/
structure Staircase (l up down : List ℕ) : Prop where
  split : l = up ++ down
  ascends : up.Pairwise (· < ·)
  descends : down.Pairwise (· > ·)

theorem Staircase.up_nodup {l up down : List ℕ} (h : Staircase l up down) : up.Nodup :=
  h.ascends.imp fun hlt => ne_of_lt hlt

theorem Staircase.down_nodup {l up down : List ℕ} (h : Staircase l up down) : down.Nodup :=
  h.descends.imp fun hlt => ne_of_gt hlt

/-- Each flight has a level at most once. -/
theorem Staircase.count_le {l up down : List ℕ} (h : Staircase l up down) (n : ℕ) :
    l.count n ≤ 2 := by
  have hup := List.nodup_iff_count_le_one.mp h.up_nodup n
  have hdown := List.nodup_iff_count_le_one.mp h.down_nodup n
  rw [h.split, List.count_append]
  omega

/-- Consecutive levels are equal at the top only. -/
theorem Staircase.eq_top {l up down : List ℕ} (h : Staircase l up down) {i : ℕ}
    (hi : i + 1 < l.length) (heq : l[i] = l[i + 1]) : i + 1 = up.length := by
  obtain ⟨hsplit, hascends, hdescends⟩ := h
  subst hsplit
  rw [List.length_append] at hi
  rw [List.getElem_append, List.getElem_append] at heq
  by_contra hne
  rcases Nat.lt_or_gt_of_ne hne with hlt | hgt
  · -- both on the way up
    rw [dif_pos (by omega), dif_pos hlt] at heq
    have := List.pairwise_iff_getElem.mp hascends i (i + 1) (by omega) hlt (Nat.lt_succ_self i)
    omega
  · -- both on the way down
    rw [dif_neg (by omega), dif_neg (by omega)] at heq
    have := List.pairwise_iff_getElem.mp hdescends (i - up.length) (i + 1 - up.length)
      (by omega) (by omega) (by omega)
    omega

/-! ## Section 2: Tilings are staircases -/

/-- When the next level is aligned as well, the greedy block is limited by space. -/
theorem IsGreedy.limited {lo hi h : ℕ} (hg : IsGreedy lo hi h) (halign : 2 ^ (h + 1) ∣ lo) :
    hi + 1 < lo + 2 ^ (h + 1) := by
  by_contra hge
  have := hg.greatest (h + 1) halign (not_lt.mp hge)
  omega

/-- Past a block whose cursor is not aligned to the next level, the cursor is. -/
theorem IsGreedy.next_aligned {lo hi h : ℕ} (hg : IsGreedy lo hi h) (hodd : ¬ 2 ^ (h + 1) ∣ lo) :
    2 ^ (h + 1) ∣ lo + 2 ^ h := by
  obtain ⟨q, rfl⟩ := hg.dvd
  have hq : ¬ 2 ∣ q := by
    intro h2
    exact hodd (by rw [pow_succ]; exact Nat.mul_dvd_mul_left _ h2)
  have hsum : 2 ∣ q + 1 := by omega
  have hfactor : 2 ^ h * q + 2 ^ h = 2 ^ h * (q + 1) := by ring
  rw [pow_succ, hfactor]
  exact Nat.mul_dvd_mul_left _ hsum

/-- From an aligned cursor with less than `2 ^ H` left, the levels go strictly down. -/
theorem Tiling.descends {hi lo : ℕ} {bs : List Block} (ht : Tiling hi lo bs) {H : ℕ}
    (halign : 2 ^ H ∣ lo) (hroom : hi + 1 < lo + 2 ^ H) :
    (∀ b ∈ bs, b.level < H) ∧ (bs.map level).Pairwise (· > ·) := by
  induction ht generalizing H with
  | done _ => simp
  | @step lo h bs hg _ ih =>
    have hfits := hg.fits
    have hlt : h < H :=
      (Nat.pow_lt_pow_iff_right (by omega)).mp (show 2 ^ h < 2 ^ H by omega)
    -- the next level is aligned as well, so it was the space that limited the block
    have hspace : hi + 1 < lo + 2 ^ (h + 1) := hg.limited ((Nat.pow_dvd_pow 2 hlt).trans halign)
    have hpow : 2 ^ (h + 1) = 2 ^ h + 2 ^ h := by ring
    obtain ⟨hbelow, hdescends⟩ := ih (H := h) (hg.dvd.add (dvd_refl _)) (by omega)
    constructor
    · intro b hb
      rcases List.mem_cons.mp hb with rfl | hb
      · exact hlt
      · exact (hbelow b hb).trans hlt
    · rw [List.map_cons]
      refine List.pairwise_cons.mpr ⟨?_, hdescends⟩
      intro n hn
      obtain ⟨b, hb, rfl⟩ := List.mem_map.mp hn
      exact hbelow b hb

/-- **Shape.**  The levels form a staircase, and the way up starts at the alignment of
    the cursor or above. -/
theorem Tiling.staircase {hi lo : ℕ} {bs : List Block} (ht : Tiling hi lo bs) :
    ∃ up down, Staircase (bs.map level) up down ∧ ∀ k, 2 ^ k ∣ lo → ∀ h ∈ up, k ≤ h := by
  induction ht with
  | done _ => exact ⟨[], [], ⟨rfl, List.Pairwise.nil, List.Pairwise.nil⟩, by simp⟩
  | @step lo h bs hg ht ih =>
    have hpow : 2 ^ (h + 1) = 2 ^ h + 2 ^ h := by ring
    by_cases hroom : hi + 1 < lo + 2 ^ (h + 1)
    · -- limited by space: from here on down
      obtain ⟨hbelow, hdescends⟩ := ht.descends (H := h) (hg.dvd.add (dvd_refl _)) (by omega)
      refine ⟨[], h :: bs.map level, ⟨rfl, List.Pairwise.nil, ?_⟩, by simp⟩
      refine List.pairwise_cons.mpr ⟨?_, hdescends⟩
      intro n hn
      obtain ⟨b, hb, rfl⟩ := List.mem_map.mp hn
      exact hbelow b hb
    · -- limited by alignment: the next cursor is aligned to a higher level
      have hodd : ¬ 2 ^ (h + 1) ∣ lo := fun hdvd => hroom (hg.limited hdvd)
      have hnext := hg.next_aligned hodd
      obtain ⟨up, down, hstairs, habove⟩ := ih
      refine ⟨h :: up, down, ⟨?_, ?_, hstairs.descends⟩, ?_⟩
      · rw [List.map_cons, hstairs.split]
        rfl
      · exact List.pairwise_cons.mpr ⟨fun n hn => habove (h + 1) hnext n hn, hstairs.ascends⟩
      · intro k hk n hn
        have hkh : k ≤ h := by
          by_contra hlt
          exact hodd ((Nat.pow_dvd_pow 2 (not_le.mp hlt)).trans hk)
        rcases List.mem_cons.mp hn with rfl | hn
        · exact hkh
        · have := habove (h + 1) hnext n hn
          omega

/-! ## Section 3: The number of blocks -/

/-- The sizes of the tiles add up to the size of the interval. -/
theorem Tiling.sum_sizes {hi lo : ℕ} {bs : List Block} (ht : Tiling hi lo bs) :
    ((bs.map level).map (2 ^ ·)).sum = hi + 1 - lo := by
  induction ht with
  | done h =>
    simp only [List.map_nil, List.sum_nil]
    omega
  | @step lo h bs hg _ ih =>
    have hfits := hg.fits
    have hpos := Nat.two_pow_pos h
    simp only [List.map_cons, List.sum_cons, ih, around_level]
    omega

/-- Ascending powers of two from `2 ^ k` on add up to at least `2 ^ k + 2 ^ (k + 1) + ...`. -/
theorem two_pow_length_le {l : List ℕ} (hl : l.Pairwise (· < ·)) {k : ℕ} (hk : ∀ h ∈ l, k ≤ h) :
    2 ^ (k + l.length) ≤ 2 ^ k + (l.map (2 ^ ·)).sum := by
  induction l generalizing k with
  | nil => simp
  | cons h l ih =>
    have hkh : 2 ^ k ≤ 2 ^ h := Nat.pow_le_pow_right (by omega) (hk h List.mem_cons_self)
    have habove : ∀ n ∈ l, k + 1 ≤ n := by
      intro n hn
      have h1 := hk h List.mem_cons_self
      have h2 := List.rel_of_pairwise_cons hl hn
      omega
    have hrest := ih hl.tail habove
    have hpow : 2 ^ (k + 1) = 2 ^ k + 2 ^ k := by ring
    rw [List.length_cons, List.map_cons, List.sum_cons, ← Nat.add_assoc, Nat.add_right_comm]
    omega

/-- Each flight is short compared to the sum of its powers of two. -/
theorem Staircase.two_pow_le {l up down : List ℕ} (h : Staircase l up down) :
    2 ^ up.length + 2 ^ down.length ≤ (l.map (2 ^ ·)).sum + 2 := by
  have hup := two_pow_length_le (k := 0) h.ascends (fun _ _ => Nat.zero_le _)
  have hdown := two_pow_length_le (k := 0) (List.pairwise_reverse.mpr h.descends)
    (fun _ _ => Nat.zero_le _)
  rw [List.map_reverse, List.sum_reverse, List.length_reverse] at hdown
  rw [h.split, List.map_append, List.sum_append]
  simp only [Nat.zero_add, pow_zero] at hup hdown
  omega

/-- An exponent is bounded by that of a power not much smaller. -/
private theorem exponent_le {n B : ℕ} (hB : 1 ≤ B) (h : 2 ^ n ≤ 2 ^ B + 1) : n ≤ B := by
  by_contra hlt
  have hpow : 2 ^ (B + 1) ≤ 2 ^ n := Nat.pow_le_pow_right (by omega) (not_le.mp hlt)
  have hB' : 2 ^ 1 ≤ 2 ^ B := Nat.pow_le_pow_right (by omega) hB
  have hsucc : 2 ^ (B + 1) = 2 ^ B + 2 ^ B := by ring
  omega

/-- **Number of blocks.**  An interval of numbers of `B` bits is tiled by at most
    `2 * B - 2` blocks. -/
theorem Tiling.length_le {hi lo B : ℕ} {bs : List Block} (ht : Tiling hi lo bs) (hB : 2 ≤ B)
    (hhi : hi < 2 ^ B) : bs.length ≤ 2 * B - 2 := by
  obtain ⟨up, down, hstairs, habove⟩ := ht.staircase
  have hsum := hstairs.two_pow_le
  rw [ht.sum_sizes] at hsum
  have hlen : bs.length = up.length + down.length := by
    rw [← List.length_map (f := level), hstairs.split, List.length_append]
  have hup := Nat.two_pow_pos up.length
  have hdown := Nat.two_pow_pos down.length
  rw [hlen]
  by_cases hlo : lo = 0
  · -- zero is aligned to every level, so there is no way up
    have hnil : up = [] := by
      cases up with
      | nil => rfl
      | cons h up =>
        have := habove (h + 1) (hlo ▸ dvd_zero _) h List.mem_cons_self
        omega
    subst hnil
    have hd := exponent_le (B := B) (n := down.length) (by omega)
      (by simp only [List.length_nil, pow_zero] at hsum; omega)
    simp only [List.length_nil]
    omega
  · have hu := exponent_le (B := B) (n := up.length) (by omega) (by omega)
    have hd := exponent_le (B := B) (n := down.length) (by omega) (by omega)
    -- a flight of `B` blocks leaves no room for the other one
    have hu_full : up.length = B → down.length = 0 := by
      intro h
      rw [h] at hsum
      exact Nat.pow_right_injective le_rfl (show 2 ^ down.length = 2 ^ 0 by omega)
    have hd_full : down.length = B → up.length = 0 := by
      intro h
      rw [h] at hsum
      exact Nat.pow_right_injective le_rfl (show 2 ^ up.length = 2 ^ 0 by omega)
    omega

end Block
