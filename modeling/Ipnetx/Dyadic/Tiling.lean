import Mathlib.Data.List.Chain
import Ipnetx.Dyadic.Block

/-! # Greedy Tilings

    The greedy tiling of `[lo, hi]` places, again and again, the largest
    aligned block that starts at the cursor and still fits.  Each block it
    places is maximal inside the interval.  The invariant that carries this
    along the cursor is `Unstraddled`: no block inside the interval reaches
    across the cursor.

    Main results:
    - `Tiling.mem_points`: the tiles cover the interval exactly.
    - `shortest_of_tilings`: the tilings of the segments of a canonical list
      form its unique shortest cover by blocks. -/

namespace Block

/-! ## Section 1: The greedy step -/

/-- `h` is the largest level at which a block can start at `lo` and end within `hi`. -/
structure IsGreedy (lo hi h : ℕ) : Prop where
  dvd : 2 ^ h ∣ lo
  fits : lo + 2 ^ h ≤ hi + 1
  greatest : ∀ k, 2 ^ k ∣ lo → lo + 2 ^ k ≤ hi + 1 → k ≤ h

/-- Blocks placed greedily from the cursor up to `hi`. -/
inductive Tiling (hi : ℕ) : ℕ → List Block → Prop where
  | done {lo : ℕ} : hi < lo → Tiling hi lo []
  | step {lo h : ℕ} {bs : List Block} :
      IsGreedy lo hi h → Tiling hi (lo + 2 ^ h) bs → Tiling hi lo (around h lo :: bs)

/-- No block inside `[start, hi]` reaches across the cursor. -/
def Unstraddled (start cursor hi : ℕ) : Prop :=
  ∀ b : Block, (∀ x ∈ b, x ∈ Set.Icc start hi) → (∃ x ∈ b, cursor ≤ x) → ∀ x ∈ b, cursor ≤ x

theorem unstraddled_start (start hi : ℕ) : Unstraddled start start hi :=
  fun _ hb _ x hx => (hb x hx).1

theorem IsGreedy.mem_iff {lo hi h : ℕ} (hg : IsGreedy lo hi h) {x : ℕ} :
    x ∈ around h lo ↔ lo ≤ x ∧ x < lo + 2 ^ h := by
  have hhi := around_hi hg.dvd
  rw [Block.mem_iff, around_lo hg.dvd]
  omega

/-- The greedy block is maximal inside the interval. -/
theorem IsGreedy.maximal {start lo hi h : ℕ} (hg : IsGreedy lo hi h) (hstart : start ≤ lo)
    (hun : Unstraddled start lo hi) : Maximal (around h lo) (Set.Icc start hi) := by
  have hfits := hg.fits
  constructor
  · intro x hx
    have := hg.mem_iff.mp hx
    exact ⟨by omega, by omega⟩
  · intro c hc hsub
    have hlo : lo ∈ c := hsub _ (mem_around h lo)
    -- no point of `c` lies before the cursor, so `c` starts at it
    have hclo : c.lo = lo :=
      le_antisymm (Block.mem_iff.mp hlo).1 (hun c hc ⟨lo, hlo, le_rfl⟩ _ c.lo_mem)
    have hchi : c.hi ≤ hi := (hc _ c.hi_mem).2
    have hsize := c.lo_add_size
    have hle : c.level ≤ h := hg.greatest _ (hclo ▸ c.dvd_lo) (by omega)
    have hge : h ≤ c.level := level_le_of_subset hsub
    exact eq_of_level_eq (le_antisymm hle hge) hlo (mem_around h lo)

/-- Past the greedy block the cursor is again not straddled. -/
theorem IsGreedy.unstraddled {start lo hi h : ℕ} (hg : IsGreedy lo hi h) (hstart : start ≤ lo)
    (hun : Unstraddled start lo hi) : Unstraddled start (lo + 2 ^ h) hi := by
  rintro b hb ⟨x, hxb, hx⟩ y hyb
  have hpos := Nat.two_pow_pos h
  have hylo : lo ≤ y := hun b hb ⟨x, hxb, by omega⟩ y hyb
  by_contra hlt
  -- `b` meets the greedy block at `y`, hence lies inside it, but `x` does not
  have hy : y ∈ around h lo := hg.mem_iff.mpr ⟨hylo, by omega⟩
  have hxin := (hg.maximal hstart hun).absorbs hb hy hyb hxb
  have := hg.mem_iff.mp hxin
  omega

/-! ## Section 2: Whole tilings -/

theorem Tiling.mem_points {hi lo : ℕ} {bs : List Block} (ht : Tiling hi lo bs) {x : ℕ} :
    x ∈ points bs ↔ lo ≤ x ∧ x ≤ hi := by
  induction ht with
  | done h =>
    simp only [Block.mem_points, List.not_mem_nil, false_and, exists_false, false_iff]
    omega
  | @step lo h bs hg _ ih =>
    have hfits := hg.fits
    have hpos := Nat.two_pow_pos h
    rw [Block.mem_points] at ih ⊢
    simp only [List.mem_cons, exists_eq_or_imp, hg.mem_iff, ih]
    omega

theorem Tiling.ne_nil {hi lo : ℕ} {bs : List Block} (ht : Tiling hi lo bs) (h : lo ≤ hi) :
    bs ≠ [] := by
  rintro rfl
  cases ht
  omega

theorem Tiling.maximal {start hi lo : ℕ} {bs : List Block} (ht : Tiling hi lo bs)
    (hstart : start ≤ lo) (hun : Unstraddled start lo hi) :
    ∀ b ∈ bs, Maximal b (Set.Icc start hi) := by
  induction ht with
  | done _ => simp
  | @step lo h bs hg _ ih =>
    have hpos := Nat.two_pow_pos h
    intro b hb
    rcases List.mem_cons.mp hb with rfl | hb
    · exact hg.maximal hstart hun
    · exact ih (by omega) (hg.unstraddled hstart hun) b hb

/-- Tiles are in ascending order. -/
theorem Tiling.ascending {hi lo : ℕ} {bs : List Block} (ht : Tiling hi lo bs) :
    bs.Pairwise fun b c => b.hi < c.lo := by
  induction ht with
  | done _ => exact List.Pairwise.nil
  | @step lo h bs hg ht ih =>
    refine List.pairwise_cons.mpr ⟨?_, ih⟩
    intro c hc
    have hlo := (ht.mem_points.mp ⟨c, hc, c.lo_mem⟩).1
    have hhi := around_hi hg.dvd
    omega

/-- The first tile starts at the cursor. -/
theorem Tiling.head_lo {hi lo : ℕ} {bs : List Block} (ht : Tiling hi lo bs) :
    ∀ b ∈ bs.head?, b.lo = lo := by
  intro b hb
  cases ht with
  | done _ => cases hb
  | step hg _ =>
    cases hb
    exact around_lo hg.dvd

/-- Each tile starts right after the one before it. -/
theorem Tiling.consecutive {hi lo : ℕ} {bs : List Block} (ht : Tiling hi lo bs) :
    bs.IsChain fun b c => c.lo = b.hi + 1 := by
  induction ht with
  | done _ => exact List.isChain_nil
  | step hg ht ih =>
    rw [List.isChain_cons]
    refine ⟨?_, ih⟩
    intro c hc
    rw [ht.head_lo c hc, around_hi hg.dvd]

/-- The last tile ends at `hi`. -/
theorem Tiling.last_hi {hi lo : ℕ} {bs : List Block} (ht : Tiling hi lo bs) :
    ∀ b ∈ bs.getLast?, b.hi = hi := by
  induction ht with
  | done _ => simp
  | @step lo h bs hg ht ih =>
    cases bs with
    | nil =>
      -- nothing is left, so the block reached the end
      cases ht with
      | done hlt =>
        have hfits := hg.fits
        have hhi := around_hi hg.dvd
        intro b hb
        rw [List.getLast?_singleton] at hb
        cases hb
        omega
    | cons c bs =>
      rw [List.getLast?_cons_cons]
      exact ih

/-- A tiling has a single tile exactly when that block is the whole interval. -/
theorem Tiling.eq_singleton_iff {hi lo : ℕ} {bs : List Block} (ht : Tiling hi lo bs) {b : Block} :
    bs = [b] ↔ b.seg = ⟨lo, hi⟩ := by
  constructor
  · rintro rfl
    have hlo : b.lo = lo := ht.head_lo b rfl
    have hhi : b.hi = hi := ht.last_hi b rfl
    show (⟨b.lo, b.hi⟩ : Segment ℕ) = ⟨lo, hi⟩
    rw [hlo, hhi]
  · intro h
    have hlo : b.lo = lo := congrArg Segment.lo h
    have hhi : b.hi = hi := congrArg Segment.hi h
    have hsize := b.lo_add_size
    have hle := b.lo_le_hi
    cases ht with
    | done hlt => omega
    | @step _ k bs hg ht =>
      have hfits := hg.fits
      -- the greedy level is that of `b`, and nothing is left past it
      have hge : b.level ≤ k := hg.greatest b.level (hlo ▸ b.dvd_lo) (by omega)
      have hle : k ≤ b.level :=
        (Nat.pow_le_pow_iff_right (by omega)).mp (show 2 ^ k ≤ 2 ^ b.level by omega)
      have hk : k = b.level := le_antisymm hle hge
      subst hk
      have hb : b = around b.level lo := eq_around_of_mem (hlo ▸ b.lo_mem)
      cases ht with
      | done _ => rw [← hb]
      | @step _ k' bs hg' _ =>
        have hfits' := hg'.fits
        have hpos := Nat.two_pow_pos k'
        omega

/-! ## Section 3: Tilings of a canonical list -/

/-- One tiling for each segment. -/
abbrev Tilings (l : List (Segment ℕ)) (bss : List (List Block)) : Prop :=
  List.Forall₂ (fun s bs => Tiling s.hi s.lo bs) l bss

theorem Tilings.points_eq {l : List (Segment ℕ)} {bss : List (List Block)}
    (h : Tilings l bss) : points bss.flatten = Segment.cover l := by
  induction h with
  | nil => simp [points]
  | @cons s bs l bss ht _ ih =>
    apply Set.ext
    intro x
    have hx := Set.ext_iff.mp ih x
    rw [Segment.mem_cover_cons, ← hx, Segment.mem_def, ← ht.mem_points]
    simp only [List.flatten_cons, Block.mem_points, List.mem_append, or_and_right, exists_or]

theorem Tilings.ascending {l : List (Segment ℕ)} {bss : List (List Block)}
    (h : Tilings l bss) (hl : Segment.Canonical l) :
    bss.flatten.Pairwise fun b c => b.hi < c.lo := by
  induction h with
  | nil => exact List.Pairwise.nil
  | @cons s bs l bss ht hts ih =>
    rw [List.flatten_cons]
    refine List.pairwise_append.mpr ⟨ht.ascending, ih hl.tail, ?_⟩
    intro b hb c hc
    have hbs := (ht.mem_points.mp ⟨b, hb, b.hi_mem⟩).2
    have hcl : c.lo ∈ Segment.cover l := Tilings.points_eq hts ▸ ⟨c, hc, c.lo_mem⟩
    have := (hl.mem_tail_iff.mp hcl).2
    omega

theorem Tilings.nodup {l : List (Segment ℕ)} {bss : List (List Block)}
    (h : Tilings l bss) (hl : Segment.Canonical l) : bss.flatten.Nodup := by
  refine (h.ascending hl).imp ?_
  rintro b _ hlt rfl
  have := b.lo_le_hi
  omega

/-- Segments of a canonical list do not touch, so a tile that is maximal in its
    segment is maximal in the whole cover. -/
theorem Tilings.maximal {l : List (Segment ℕ)} {bss : List (List Block)}
    (h : Tilings l bss) (hl : Segment.Canonical l) :
    ∀ b ∈ bss.flatten, Maximal b (Segment.cover l) := by
  intro b hb
  obtain ⟨bs, hbs, hb⟩ := List.mem_flatten.mp hb
  obtain ⟨i, hi, rfl⟩ := List.mem_iff_getElem.mp hbs
  have hlen := h.length_eq
  have ht := (List.forall₂_iff_get.mp h).2 i (by omega) hi
  have hmem : l[i] ∈ l := List.getElem_mem (by omega)
  have hmax := ht.maximal le_rfl (unstraddled_start _ _) b hb
  constructor
  · intro x hx
    exact ⟨l[i], hmem, hmax.subset x hx⟩
  · -- a larger block is connected, so it stays inside the same segment
    intro c hc hsub
    refine hmax.eq_of_subset c ?_ hsub
    intro x hx
    exact hl.ordConnected_subset c.ordConnected hc hmem (hsub _ b.lo_mem)
      (hmax.subset _ b.lo_mem) hx

/-- **Shortest cover of a canonical list.** -/
theorem shortest_of_tilings {l : List (Segment ℕ)} {bss : List (List Block)}
    (h : Tilings l bss) (hl : Segment.Canonical l) {cs : List Block}
    (hcs : points cs = Segment.cover l) :
    bss.flatten.length ≤ cs.length ∧
      (cs.length = bss.flatten.length → cs.Perm bss.flatten) :=
  shortest_cover (h.nodup hl) (h.maximal hl) h.points_eq hcs

end Block
