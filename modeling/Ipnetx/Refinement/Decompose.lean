import Ipnetx.Refinement.Prefixes

/-! # The Decomposition of a Range

    `IpRange::prefixes` places the greedy tiling of the range: each of the
    three branches of the loop computes the largest level at which a block
    starts at the cursor and still fits (`hostBits_spec`), and the cursor
    advances by exactly that block (`prefixesLoop_spec`), so it visits the
    addresses of the prefixes it returns (`visits_iff`).

    `IpRange::prefix` recognizes the ranges that are a single block
    (`asPrefix_spec`). -/

namespace Ipnetx

open Machine IpAddress

variable {A : Type} [IpAddress A]

namespace IpRange

/-! ## Section 1: One iteration of the loop -/

/-- The levels up to `h` are those at which an aligned block fits: `h` is greedy. -/
theorem isGreedy_of_le_iff {lo hi h : ℕ}
    (hk : ∀ k, k ≤ h ↔ 2 ^ k ∣ lo ∧ lo + 2 ^ k ≤ hi + 1) : Block.IsGreedy lo hi h :=
  ⟨((hk h).mp le_rfl).1, ((hk h).mp le_rfl).2, fun k h1 h2 => (hk k).mpr ⟨h1, h2⟩⟩

/-- `max_host_bits`: the alignment of the cursor, capped by the family's width. -/
theorem le_maxHostBits {start : BitVec 128} {k : ℕ} :
    k ≤ (Word.umin (Word.trailingZeros start) ((BITS A).setWidth 32)).toNat ↔
      2 ^ k ∣ start.toNat ∧ k ≤ bits A := by
  have hbits := bits_le_128 (A := A)
  rw [Word.toNat_umin, toNat_bits_setWidth, le_min_iff, Word.le_trailingZeros (by decide)]
  constructor
  · exact fun h => ⟨h.1.2, h.2⟩
  · exact fun h => ⟨⟨h.2.trans hbits, h.1⟩, h.2⟩

/-- A block that fits is no larger than the address space. -/
theorem le_bits_of_fits (lo : ℕ) {hi k : ℕ} (hhi : hi < 2 ^ bits A) (hk : lo + 2 ^ k ≤ hi + 1) :
    k ≤ bits A :=
  (Nat.pow_le_pow_iff_right (by omega)).mp (show 2 ^ k ≤ 2 ^ bits A by omega)

/-- The branches that take a logarithm: the smaller of the two bounds is greedy. -/
private theorem isGreedy_umin_log2 {start : BitVec 128} {hi : ℕ} (hle : start.toNat ≤ hi)
    (hhi : hi < 2 ^ bits A) (hsize : hi - start.toNat + 1 < 2 ^ 128) :
    Block.IsGreedy start.toNat hi
      (Word.umin (Word.umin (Word.trailingZeros start) ((BITS A).setWidth 32))
        (BitVec.ofNat 32 (hi - start.toNat + 1).log2)).toNat := by
  apply isGreedy_of_le_iff
  intro k
  have hlog : k ≤ (hi - start.toNat + 1).log2 ↔ start.toNat + 2 ^ k ≤ hi + 1 := by
    rw [Nat.le_log2 (Nat.succ_ne_zero _)]
    omega
  rw [Word.toNat_umin, le_min_iff, le_maxHostBits, Word.toNat_log2 hsize, hlog]
  constructor
  · exact fun h => ⟨h.1.1, h.2⟩
  · exact fun h => ⟨⟨h.1, le_bits_of_fits _ hhi h.2⟩, h.2⟩

/-- The full span: the cursor is 0 and the block is the whole space. -/
private theorem isGreedy_of_full_span {start : BitVec 128} {hi : ℕ} (hhi : hi < 2 ^ bits A)
    (hspan : hi - start.toNat = 2 ^ 128 - 1) :
    Block.IsGreedy start.toNat hi
      (Word.umin (Word.trailingZeros start) ((BITS A).setWidth 32)).toNat := by
  apply isGreedy_of_le_iff
  intro k
  have hspace := two_pow_bits_le (A := A)
  -- only the 128-bit family has a span of all ones
  have hbits : bits A = 128 := by
    refine le_antisymm bits_le_128 ?_
    exact (Nat.pow_le_pow_iff_right (by omega)).mp (show 2 ^ 128 ≤ 2 ^ bits A by omega)
  rw [le_maxHostBits]
  constructor
  · intro hin
    obtain ⟨h1, h2⟩ := hin
    have hpow : 2 ^ k ≤ 2 ^ 128 := Nat.pow_le_pow_right (by decide) (hbits ▸ h2)
    exact ⟨h1, by omega⟩
  · exact fun h => ⟨h.1, le_bits_of_fits _ hhi h.2⟩

/-- The three-way branch computes the greedy level. -/
theorem hostBits_spec {start end_ : BitVec 128} (hle : start.toNat ≤ end_.toNat)
    (hend : end_.toNat < 2 ^ bits A) :
    ∃ h, hostBits ((BITS A).setWidth 32) start end_ = .ok h ∧
      Block.IsGreedy start.toNat end_.toNat h.toNat := by
  have hspan := Word.toNat_sub_of_le hle
  have hend128 := hend.trans_le two_pow_bits_le
  unfold hostBits
  rw [Word.sub_eq_ok hle]
  simp only [Result.ok_bind]
  split
  · next hfull =>
    refine ⟨_, rfl, isGreedy_of_full_span hend ?_⟩
    rw [← hspan, hfull, BitVec.toNat_allOnes]
  · next hfull =>
    -- the span is not all ones, so the size fits in a word
    have hne : (end_ - start).toNat ≠ 2 ^ 128 - 1 := by
      intro h
      exact hfull (BitVec.eq_of_toNat_eq (by rw [h, BitVec.toNat_allOnes]))
    have hfit : (end_ - start).toNat + (1 : BitVec 128).toNat < 2 ^ 128 := by
      show (end_ - start).toNat + 1 < 2 ^ 128
      omega
    have hsize : (end_ - start + 1).toNat = end_.toNat - start.toNat + 1 := by
      rw [Word.toNat_add_of_lt hfit, hspan]
      rfl
    have hgreedy := isGreedy_umin_log2 (A := A) hle hend (by omega)
    rw [← hsize] at hgreedy
    split
    · next hshort =>
      -- the fast path: the size fits in 64 bits
      have hsmall : (end_ - start).toNat < 2 ^ 63 := by
        have h0 := congrArg BitVec.toNat hshort
        rw [BitVec.toNat_ushiftRight, Nat.shiftRight_eq_div_pow] at h0
        exact (Nat.div_eq_zero_iff.mp h0).resolve_left (by decide)
      have hnarrow : (end_ - start + 1).toNat < 2 ^ 64 := by omega
      have hcast := Word.toNat_setWidth_of_lt hnarrow
      rw [Word.add_eq_ok hfit, Result.ok_bind, Word.narrow_eq_ok hnarrow, Result.ok_bind,
        Word.ilog2_eq_ok (by omega), hcast]
      exact ⟨_, rfl, hgreedy⟩
    · next hlong =>
      -- the same computation on the full word
      rw [Word.add_eq_ok hfit, Result.ok_bind, Word.ilog2_eq_ok (by omega)]
      exact ⟨_, rfl, hgreedy⟩

/-- `host_mask` is `2 ^ h - 1`. -/
theorem hostMask_spec {h : BitVec 32} (hle : h.toNat ≤ 128) :
    ∃ m, hostMask h = .ok m ∧ m.toNat = 2 ^ h.toNat - 1 := by
  unfold hostMask
  split
  · next hzero => exact ⟨0, rfl, by rw [hzero]; rfl⟩
  · next hzero =>
    have hpos : h.toNat ≠ 0 := fun h0 => hzero (BitVec.eq_of_toNat_eq h0)
    have hle' : h.toNat ≤ (128 : BitVec 32).toNat := hle
    have hshift : (128 - h : BitVec 32).toNat = 128 - h.toNat := Word.toNat_sub_of_le hle'
    refine ⟨BitVec.allOnes 128 >>> (128 - h.toNat), ?_, Word.toNat_allOnes_shr hle⟩
    rw [Word.sub_eq_ok hle', Result.ok_bind, Word.shr_eq_ok (by omega), hshift]

/-- The prefix of a block: a start without host bits and the level as a mask. -/
theorem newPrefix_spec {start : BitVec 128} (hstart : start.toNat < 2 ^ bits A)
    {h : BitVec 32} (hle : h.toNat ≤ bits A) :
    ∃ bits8 h8 mask p, Word.narrow 8 ((BITS A).setWidth 32) = .ok bits8 ∧
      Word.narrow 8 h = .ok h8 ∧ Word.sub bits8 h8 = .ok mask ∧
      IpPrefix.new (fromU128 start : A) mask = .ok p ∧
      p.level = h.toNat ∧ val p.ip = start.toNat := by
  have hwidth := bits_le_128 (A := A)
  have hbits : ((BITS A).setWidth 32).toNat < 2 ^ 8 := by
    rw [toNat_bits_setWidth]
    omega
  have hh : h.toNat < 2 ^ 8 := by omega
  have hcast : (((BITS A).setWidth 32).setWidth 8) = BITS A := by
    rw [BitVec.setWidth_setWidth_of_le _ (by decide), BitVec.setWidth_eq]
  have h8 := Word.toNat_setWidth_of_lt hh
  have hle8 : (h.setWidth 8).toNat ≤ (BITS A).toNat := h8 ▸ hle
  have hmask : (BITS A - h.setWidth 8).toNat = bits A - h.toNat := by
    rw [Word.toNat_sub_of_le hle8, h8]
    rfl
  have hmask_le : ¬ BITS A - h.setWidth 8 > BITS A := by
    rw [gt_iff_lt, BitVec.not_lt, BitVec.le_def, hmask]
    exact Nat.sub_le _ _
  refine ⟨BITS A, h.setWidth 8, BITS A - h.setWidth 8,
    ⟨fromU128 start, BITS A - h.setWidth 8, BitVec.not_lt.mp hmask_le⟩, ?_, Word.narrow_eq_ok hh,
    Word.sub_eq_ok hle8, dif_neg hmask_le, ?_, val_fromU128 hstart⟩
  · rw [Word.narrow_eq_ok hbits, hcast]
  · unfold IpPrefix.level
    dsimp only
    rw [hmask]
    omega

/-- The checked step to the next cursor fails only past the largest word. -/
private theorem nextCursor (start : BitVec 128) {hostMask : BitVec 128} {h : ℕ}
    (hmask : hostMask.toNat = 2 ^ h - 1) :
    (∀ next, (Word.checkedAdd start hostMask).bind (Word.checkedAdd · 1) = some next →
        next.toNat = start.toNat + 2 ^ h) ∧
      ((Word.checkedAdd start hostMask).bind (Word.checkedAdd · 1) = none →
        2 ^ 128 ≤ start.toNat + 2 ^ h) := by
  have hpos := Nat.two_pow_pos h
  constructor
  · intro next hnext
    obtain ⟨n, hn, hsucc⟩ := Option.bind_eq_some_iff.mp hnext
    have h1 := Word.checkedAdd_eq_some.mp hn
    have h2 : _ = n.toNat + 1 := Word.checkedAdd_eq_some.mp hsucc
    omega
  · intro hnone
    rw [Option.bind_eq_none_iff] at hnone
    by_cases hfit : start.toNat + hostMask.toNat < 2 ^ 128
    · -- the first addition passed, so the second one failed
      have hadd : Word.checkedAdd start hostMask = some (start + hostMask) :=
        Word.checkedAdd_eq_some.mpr (Word.toNat_add_of_lt hfit)
      have hfull : 2 ^ 128 ≤ (start + hostMask).toNat + 1 :=
        Word.checkedAdd_eq_none.mp (hnone _ hadd)
      rw [Word.toNat_add_of_lt hfit] at hfull
      omega
    · omega

/-- One iteration: the greedy level at the cursor, its mask, and the prefix of its block. -/
theorem iteration_spec {start end_ : BitVec 128} (hle : start.toNat ≤ end_.toNat)
    (hend : end_.toNat < 2 ^ bits A) :
    ∃ h m bits8 h8 mask p, hostBits ((BITS A).setWidth 32) start end_ = .ok h ∧
      hostMask h = .ok m ∧ Word.narrow 8 ((BITS A).setWidth 32) = .ok bits8 ∧
      Word.narrow 8 h = .ok h8 ∧ Word.sub bits8 h8 = .ok mask ∧
      IpPrefix.new (fromU128 start : A) mask = .ok p ∧
      Block.IsGreedy start.toNat end_.toNat h.toNat ∧ m.toNat = 2 ^ h.toNat - 1 ∧
      p.block = Block.around h.toNat start.toNat ∧ p.Aligned := by
  obtain ⟨h, hh, hgreedy⟩ := hostBits_spec hle hend
  have hbits : h.toNat ≤ bits A := le_bits_of_fits _ hend hgreedy.fits
  obtain ⟨m, hm, hmask⟩ := hostMask_spec (hbits.trans bits_le_128)
  obtain ⟨bits8, h8, mask, p, hb8, hh8, hsub, hnew, hlevel, hip⟩ :=
    newPrefix_spec (hle.trans_lt hend) hbits
  have hblock : p.block = Block.around h.toNat start.toNat := by
    unfold IpPrefix.block
    rw [hlevel, hip]
  have haligned : p.Aligned := by
    unfold IpPrefix.Aligned
    rw [hblock, hip, Block.around_lo hgreedy.dvd]
  exact ⟨h, m, bits8, h8, mask, p, hh, hm, hb8, hh8, hsub, hnew, hgreedy, hmask, hblock, haligned⟩

/-! ## Section 2: The loop -/

/-- The loop appends the greedy tiling of `[start, end_]`, every tile without host bits. -/
theorem prefixesLoop_spec {end_ : BitVec 128} (hend : end_.toNat < 2 ^ bits A)
    (start : BitVec 128) (result : List (IpPrefix A)) :
    ∃ ps : List (IpPrefix A), prefixesLoop start end_ result = .ok (result ++ ps) ∧
      Block.Tiling end_.toNat start.toNat (ps.map IpPrefix.block) ∧
      ∀ p ∈ ps, p.Aligned := by
  -- on the number of addresses left
  induction hn : end_.toNat + 1 - start.toNat using Nat.strong_induction_on
      generalizing start result with
  | _ n ih =>
    subst hn
    unfold prefixesLoop
    by_cases hle : start ≤ end_
    · have hle' : start.toNat ≤ end_.toNat := BitVec.le_def.mp hle
      obtain ⟨h, m, bits8, h8, mask, p, hh, hm, hb8, hh8, hsub, hnew, hgreedy, hmask, hblock,
        haligned⟩ := iteration_spec hle' hend
      obtain ⟨hsome, hnone⟩ := nextCursor start hmask
      have hpos := Nat.two_pow_pos h.toNat
      rw [dif_pos hle]
      simp only [hh, hm, hb8, hh8, hsub, fromU128Exact_eq_ok (hle'.trans_lt hend), hnew,
        Result.ok_bind, Result.unwrapOk_ok]
      split
      · next next hnext =>
        have hcur := hsome next hnext
        obtain ⟨ps, hps, htiling, hall⟩ := ih _ (by omega) next (result ++ [p]) rfl
        refine ⟨p :: ps, ?_, ?_, ?_⟩
        · rw [hps, List.append_assoc]
          rfl
        · rw [List.map_cons, hblock]
          exact .step hgreedy (hcur ▸ htiling)
        · simpa using ⟨haligned, hall⟩
      · next hstop =>
        -- the block ends at the largest word, hence at `end_`
        have hpast := hnone hstop
        refine ⟨[p], rfl, ?_, by simpa using haligned⟩
        rw [List.map_cons, hblock]
        exact .step hgreedy (.done (by have := end_.isLt; omega))
    · rw [dif_neg hle]
      refine ⟨[], by simp, ?_, by simp⟩
      exact .done (not_le.mp (BitVec.le_def.not.mp hle))

/-- `prefixes` lists the greedy tiling of a valid range, and nothing for an inverted one. -/
theorem prefixes_spec (r : IpRange A) :
    ∃ ps : List (IpPrefix A), r.prefixes = .ok ps ∧
      Block.Tiling r.seg.hi r.seg.lo (ps.map IpPrefix.block) ∧ ∀ p ∈ ps, p.Aligned := by
  unfold prefixes
  by_cases h : r.isValid = true
  · obtain ⟨ps, hps, hspec⟩ := prefixesLoop_spec r.seg_hi_lt (toU128 r.start) []
    refine ⟨ps, ?_, hspec⟩
    rw [h]
    exact hps
  · refine ⟨[], ?_, .done ?_, by simp⟩
    · simp [h]
    · exact not_le.mp (IpRange.isValid_iff.not.mp h)

/-! ## Section 3: The cursors -/

theorem Visits.le {end_ start cur : BitVec 128} (h : Visits A end_ start cur) : cur ≤ end_ := by
  induction h with
  | here hle => exact hle
  | later _ _ _ _ _ ih => exact ih

/-- The loop that has an iteration to run runs it and goes on at the next cursor, if any. -/
theorem visits_cons_iff {end_ start hostMask_ cur : BitVec 128} {hostBits_ : BitVec 32}
    (hle : start ≤ end_)
    (hbits : hostBits ((BITS A).setWidth 32) start end_ = .ok hostBits_)
    (hmask : hostMask hostBits_ = .ok hostMask_) :
    Visits A end_ start cur ↔ start = cur ∨
      ∃ next, (Word.checkedAdd start hostMask_).bind (Word.checkedAdd · 1) = some next ∧
        Visits A end_ next cur := by
  constructor
  · intro hv
    cases hv with
    | here _ => exact Or.inl rfl
    | later _ hbits' hmask' hnext hrest =>
      rw [hbits, Except.ok.injEq] at hbits'
      subst hbits'
      rw [hmask, Except.ok.injEq] at hmask'
      subst hmask'
      exact Or.inr ⟨_, hnext, hrest⟩
  · intro hin
    rcases hin with rfl | ⟨next, hnext, hrest⟩
    · exact .here hle
    · exact .later hle hbits hmask hnext hrest

/-- The loop runs an iteration at the start of each tile, and nowhere else. -/
theorem visits_iff_of_tiling {end_ : BitVec 128} (hend : end_.toNat < 2 ^ bits A) {lo : ℕ}
    {bs : List Block} (ht : Block.Tiling end_.toNat lo bs) {start : BitVec 128}
    (hstart : start.toNat = lo) (cur : BitVec 128) :
    Visits A end_ start cur ↔ ∃ b ∈ bs, b.lo = cur.toNat := by
  induction ht generalizing start with
  | done hlt =>
    have hgt : ¬ start ≤ end_ := by
      rw [BitVec.le_def]
      omega
    have hnot : ¬ Visits A end_ start cur := by
      intro hv
      cases hv with
      | here hle => exact hgt hle
      | later hle => exact hgt hle
    exact iff_of_false hnot (by simp)
  | @step lo h bs hg ht ih =>
    subst hstart
    have hpos := Nat.two_pow_pos h
    have hfits := hg.fits
    have hle : start.toNat ≤ end_.toNat := by omega
    obtain ⟨h', m, _, _, _, _, hh', hm, _, _, _, _, hg', hmask, _⟩ :=
      iteration_spec (A := A) hle hend
    -- the greedy level is unique
    have hlevel : h'.toNat = h :=
      le_antisymm (hg.greatest _ hg'.dvd hg'.fits) (hg'.greatest _ hg.dvd hg.fits)
    rw [hlevel] at hmask
    obtain ⟨hsome, hnone⟩ := nextCursor start hmask
    have hlo : (Block.around h start.toNat).lo = start.toNat := Block.around_lo hg.dvd
    rw [visits_cons_iff hle hh' hm, List.exists_mem_cons_iff, hlo, BitVec.toNat_inj]
    apply or_congr_right
    constructor
    · intro hin
      obtain ⟨next, hnext, hrest⟩ := hin
      exact (ih (hsome next hnext)).mp hrest
    · intro hin
      obtain ⟨b, hb, hcur⟩ := hin
      -- a later tile starts past this one, so the next cursor is a word
      have hpast := (ht.mem_points.mp ⟨b, hb, b.lo_mem⟩).1
      have hlt := cur.isLt
      cases hnext : (Word.checkedAdd start m).bind (Word.checkedAdd · 1) with
      | none =>
        have := hnone hnext
        omega
      | some next => exact ⟨next, rfl, (ih (hsome next hnext)).mpr ⟨b, hb, hcur⟩⟩

/-- An iteration is run for each returned prefix, at the cursor that is its address. -/
theorem visits_iff {r : IpRange A} {ps : List (IpPrefix A)} (hps : r.prefixes = .ok ps)
    (cur : BitVec 128) :
    Visits A (toU128 r.end_) (toU128 r.start) cur ↔ ∃ p ∈ ps, toU128 p.ip = cur := by
  obtain ⟨ps', hps', htiling, haligned⟩ := r.prefixes_spec
  rw [hps, Except.ok.injEq] at hps'
  subst hps'
  rw [visits_iff_of_tiling r.seg_hi_lt htiling rfl]
  constructor
  · intro hin
    obtain ⟨b, hb, hcur⟩ := hin
    obtain ⟨p, hp, rfl⟩ := List.mem_map.mp hb
    exact ⟨p, hp, BitVec.eq_of_toNat_eq ((haligned p hp).symm.trans hcur)⟩
  · intro hin
    obtain ⟨p, hp, rfl⟩ := hin
    exact ⟨p.block, List.mem_map_of_mem hp, haligned p hp⟩

/-! ## Section 4: A single block -/

/-- The range is a single block of level `h`. -/
def IsBlock (r : IpRange A) (h : ℕ) : Prop :=
  2 ^ h ∣ r.seg.lo ∧ r.seg.lo + 2 ^ h = r.seg.hi + 1

/-- A range is the block of an aligned prefix. -/
theorem block_seg_eq_iff {p : IpPrefix A} (hp : p.Aligned) {r : IpRange A} :
    p.block.seg = r.seg ↔ val p.ip = r.seg.lo ∧ r.IsBlock p.level := by
  have hsize := p.block.lo_add_size
  have hdvd := p.block.dvd_lo
  rw [hp] at hsize hdvd
  constructor
  · intro h
    have hlo : p.block.lo = r.seg.lo := congrArg Segment.lo h
    have hhi : p.block.hi = r.seg.hi := congrArg Segment.hi h
    rw [hp] at hlo
    exact ⟨hlo, hlo ▸ hdvd, by rw [← hlo, ← hhi]; exact hsize⟩
  · intro hin
    obtain ⟨hlo, _, hhi⟩ := hin
    have h1 : p.block.lo = r.seg.lo := hp.trans hlo
    have h2 : p.block.hi = r.seg.hi := by
      have hlevel : p.block.level = p.level := rfl
      rw [hlevel] at hsize
      omega
    show (⟨p.block.lo, p.block.hi⟩ : Segment ℕ) = ⟨r.seg.lo, r.seg.hi⟩
    rw [h1, h2]

/-- The wrapped size: 0 stands for 2^128. -/
private theorem wrappedSize {size : BitVec 128} {n : ℕ} (hsize : size.toNat = n % 2 ^ 128)
    (hpos : 0 < n) (hle : n ≤ 2 ^ 128) :
    (size = 0 ∧ n = 2 ^ 128) ∨ (size ≠ 0 ∧ size.toNat = n) := by
  rcases Nat.eq_or_lt_of_le hle with heq | hlt
  · left
    refine ⟨BitVec.eq_of_toNat_eq ?_, heq⟩
    rw [hsize, heq]
    rfl
  · right
    rw [Nat.mod_eq_of_lt hlt] at hsize
    refine ⟨?_, hsize⟩
    rintro rfl
    have h0 : (0 : BitVec 128).toNat = 0 := rfl
    omega

/-- The trailing zeros of a power of two are its exponent. -/
private theorem trailingZeros_of_pow {size : BitVec 128} {k : ℕ} (h : size.toNat = 2 ^ k) :
    (Word.trailingZeros size).toNat = k := by
  have hk : k ≤ 128 := by
    have hlt := size.isLt
    rw [h] at hlt
    exact ((Nat.pow_lt_pow_iff_right (by decide)).mp hlt).le
  have hle : ∀ j, j ≤ (Word.trailingZeros size).toNat ↔ j ≤ k := by
    intro j
    rw [Word.le_trailingZeros (by decide), h, Nat.pow_dvd_pow_iff_le_right (by decide)]
    omega
  exact le_antisymm ((hle _).mp le_rfl) ((hle _).mpr le_rfl)

/-- The exponent the code computes, when the size test passes. -/
private theorem size_eq_pow {size : BitVec 128} {n : ℕ} (hsize : size.toNat = n % 2 ^ 128)
    (hpos : 0 < n) (hle : n ≤ 2 ^ 128)
    (htest : ¬ (size ≠ 0 ∧ (!Word.isPowerOfTwo size) = true)) :
    n = 2 ^ (if size = 0 then (128 : BitVec 32) else Word.trailingZeros size).toNat := by
  rcases wrappedSize hsize hpos hle with ⟨hzero, hn⟩ | ⟨hne, hn⟩
  · rw [if_pos hzero, hn]
    rfl
  · have hpow : Word.isPowerOfTwo size = true := by
      by_contra hnot
      exact htest ⟨hne, by simpa using hnot⟩
    obtain ⟨k, hk⟩ := Word.isPowerOfTwo_iff.mp hpow
    rw [if_neg hne, trailingZeros_of_pow hk, ← hn, hk]

/-- The size of a block passes the size test. -/
private theorem size_test_of_pow {size : BitVec 128} {n h : ℕ} (hsize : size.toNat = n % 2 ^ 128)
    (hn : n = 2 ^ h) (hle : n ≤ 2 ^ 128) :
    ¬ (size ≠ 0 ∧ (!Word.isPowerOfTwo size) = true) := by
  rintro ⟨hne, htest⟩
  rcases wrappedSize hsize (hn ▸ Nat.two_pow_pos h) hle with ⟨hzero, _⟩ | ⟨_, hsz⟩
  · exact hne hzero
  · have hpow := Word.isPowerOfTwo_iff.mpr ⟨h, hsz.trans hn⟩
    simp [hpow] at htest

/-- The prefix made for a range that is a block of level `h` is the one with its addresses. -/
private theorem newPrefix_of_isBlock {r : IpRange A} {h : BitVec 32} (hblock : r.IsBlock h.toNat) :
    ∃ bits8 h8 mask p, Word.narrow 8 ((BITS A).setWidth 32) = .ok bits8 ∧
      Word.narrow 8 h = .ok h8 ∧ Word.sub bits8 h8 = .ok mask ∧
      IpPrefix.new (fromU128 (toU128 r.start) : A) mask = .ok p ∧
      ∀ q, p = q ↔ q.Aligned ∧ q.block.seg = r.seg := by
  have hbits : h.toNat ≤ bits A := le_bits_of_fits r.seg.lo r.seg_hi_lt hblock.2.le
  obtain ⟨bits8, h8, mask, p, hb8, hh8, hsub, hnew, hlevel, hip⟩ :=
    newPrefix_spec r.seg_lo_lt hbits
  have hpblock : r.IsBlock p.level := by
    rw [hlevel]
    exact hblock
  have haligned : p.Aligned := by
    unfold IpPrefix.Aligned IpPrefix.block
    exact Block.around_lo (hip ▸ hpblock.1)
  have hseg : p.block.seg = r.seg := (block_seg_eq_iff haligned).mpr ⟨hip, hpblock⟩
  refine ⟨bits8, h8, mask, p, hb8, hh8, hsub, hnew, ?_⟩
  intro q
  constructor
  · rintro rfl
    exact ⟨haligned, hseg⟩
  · intro hin
    obtain ⟨hq, hqseg⟩ := hin
    exact haligned.eq_of_block_eq hq (Block.seg_injective (hseg.trans hqseg.symm))

/-- A range that is no block has no prefix. -/
private theorem none_spec {r : IpRange A} (hno : ∀ h, ¬ r.IsBlock h) (p : IpPrefix A) :
    none = some p ↔ p.Aligned ∧ p.block.seg = r.seg := by
  constructor
  · intro h
    cases h
  · intro hin
    obtain ⟨hp, hseg⟩ := hin
    exact absurd ((block_seg_eq_iff hp).mp hseg).2 (hno _)

/-- `prefix` finds the aligned prefix whose block is the range, if there is one. -/
theorem asPrefix_spec (r : IpRange A) :
    ∃ o, r.asPrefix = .ok o ∧ ∀ p, o = some p ↔ p.Aligned ∧ p.block.seg = r.seg := by
  unfold asPrefix
  by_cases hvalid : r.isValid = true
  · have hle : r.seg.lo ≤ r.seg.hi := IpRange.isValid_iff.mp hvalid
    have hhi := r.seg_hi_lt
    have hspace := two_pow_bits_le (A := A)
    have hsub : Word.sub (toU128 r.end_) (toU128 r.start) = .ok (toU128 r.end_ - toU128 r.start) :=
      Word.sub_eq_ok hle
    have hspan : (toU128 r.end_ - toU128 r.start).toNat = r.seg.hi - r.seg.lo :=
      Word.toNat_sub_of_le hle
    have hsize : (Word.wrappingAdd (toU128 r.end_ - toU128 r.start) 1).toNat =
        (r.seg.hi - r.seg.lo + 1) % 2 ^ 128 := by
      unfold Word.wrappingAdd
      rw [BitVec.toNat_add, hspan]
      rfl
    simp only [hvalid, hsub, Result.ok_bind, Bool.not_true, Bool.false_eq_true, if_false]
    generalize Word.wrappingAdd (toU128 r.end_ - toU128 r.start) 1 = size at *
    by_cases htest : size ≠ 0 ∧ (!Word.isPowerOfTwo size) = true
    · -- the size is no power of two
      rw [if_pos htest]
      refine ⟨none, rfl, none_spec ?_⟩
      rintro h ⟨_, hh⟩
      exact size_test_of_pow (h := h) hsize (by omega) (by omega) htest
    · have hpow := size_eq_pow hsize (by omega) (by omega) htest
      rw [if_neg htest]
      generalize (if size = 0 then (128 : BitVec 32) else Word.trailingZeros size) = h at *
      have hbits : h.toNat ≤ bits A := le_bits_of_fits r.seg.lo hhi (by omega)
      have haligned : ¬ Word.trailingZeros (toU128 r.start) < h ↔ 2 ^ h.toNat ∣ r.seg.lo := by
        rw [BitVec.not_lt, BitVec.le_def, Word.le_trailingZeros (by decide)]
        exact and_iff_right (hbits.trans bits_le_128)
      by_cases hmis : Word.trailingZeros (toU128 r.start) < h
      · -- the start is not aligned to the size
        rw [if_pos hmis]
        refine ⟨none, rfl, none_spec ?_⟩
        rintro k ⟨hdvd, hk⟩
        have hkh : k = h.toNat := Nat.pow_right_injective le_rfl (show 2 ^ k = 2 ^ h.toNat by omega)
        exact haligned.mpr (hkh ▸ hdvd) hmis
      · rw [if_neg hmis]
        have hblock : r.IsBlock h.toNat := ⟨haligned.mp hmis, by omega⟩
        obtain ⟨bits8, h8, mask, p, hb8, hh8, hmask, hnew, hunique⟩ := newPrefix_of_isBlock hblock
        refine ⟨some p, ?_, fun q => (Option.some.injEq p q).to_iff.trans (hunique q)⟩
        simp only [hb8, hh8, hmask, Result.ok_bind, fromU128Exact_eq_ok r.seg_lo_lt, hnew]
        rfl
  · refine ⟨none, by simp [hvalid], none_spec ?_⟩
    rintro h ⟨_, hh⟩
    have hpos := Nat.two_pow_pos h
    have hlt := not_le.mp (IpRange.isValid_iff.not.mp hvalid)
    omega

end IpRange

end Ipnetx
