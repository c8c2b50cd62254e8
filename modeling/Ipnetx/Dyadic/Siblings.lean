import Mathlib.Data.List.Range
import Ipnetx.Dyadic.Tiling

/-! # Siblings

    Blocks form a binary tree: two siblings are the halves of their parent.
    A block inside a set is maximal exactly when its parent is not inside,
    so whether a list of blocks is a shortest cover shows locally, in its
    consecutive pairs.

    Cutting a block out of a larger one leaves the siblings along the path
    between the two.

    Main results:
    - `maximal_iff_isChain`: an ascending list holds maximal blocks only when no two
      consecutive ones are siblings.
    - `maximal_of_mem_hole`: the siblings along the path are what a hole leaves.
    - `Shortest.exists_diff`, `Shortest.exists_inter`: how long a cover of a difference or of
      an intersection has to be. -/

namespace Block

/-! ## Section 1: The tree -/

/-- The block of the next level around the block. -/
def parent (b : Block) : Block := ⟨b.level + 1, b.index / 2⟩

/-- The other half of the parent. -/
def sibling (b : Block) : Block :=
  ⟨b.level, if b.index % 2 = 0 then b.index + 1 else b.index - 1⟩

@[simp] theorem parent_level (b : Block) : b.parent.level = b.level + 1 := rfl

@[simp] theorem sibling_level (b : Block) : b.sibling.level = b.level := rfl

theorem parent_around (h x : ℕ) : (around h x).parent = around (h + 1) x := by
  unfold parent around
  rw [pow_succ, Nat.div_div_eq_div_mul]

theorem mem_parent_iff {b : Block} {x : ℕ} : x ∈ b.parent ↔ x ∈ b ∨ x ∈ b.sibling := by
  show x / 2 ^ (b.level + 1) = b.index / 2 ↔ x / 2 ^ b.level = b.index ∨
    x / 2 ^ b.level = if b.index % 2 = 0 then b.index + 1 else b.index - 1
  rw [pow_succ, ← Nat.div_div_eq_div_mul]
  split <;> omega

theorem not_mem_sibling {b : Block} {x : ℕ} (hx : x ∈ b) : x ∉ b.sibling := by
  intro hsib
  have h1 : x / 2 ^ b.level = b.index := hx
  have h2 : x / 2 ^ b.level = if b.index % 2 = 0 then b.index + 1 else b.index - 1 := hsib
  split at h2 <;> omega

theorem mem_parent {b : Block} {x : ℕ} (hx : x ∈ b) : x ∈ b.parent :=
  mem_parent_iff.mpr (Or.inl hx)

/-- A larger block that meets a block contains its parent. -/
theorem parent_subset {b c : Block} (hlevel : b.level < c.level) {x : ℕ} (hxb : x ∈ b)
    (hxc : x ∈ c) : ∀ y ∈ b.parent, y ∈ c :=
  fun _ hy => subset_of_level_le (b := b.parent) hlevel (mem_parent hxb) hxc hy

/-- Blocks with one parent are equal or siblings. -/
theorem eq_sibling_of_parent_eq {b c : Block} (h : b.parent = c.parent) (hne : c ≠ b) :
    c = b.sibling := by
  have hlevel : b.level + 1 = c.level + 1 := congrArg level h
  have hsame : c.level = b.level := by omega
  have hmem : c.lo ∈ b.parent := h ▸ mem_parent c.lo_mem
  rcases mem_parent_iff.mp hmem with hb | hs
  · exact absurd (eq_of_level_eq hsame c.lo_mem hb) hne
  · exact eq_of_level_eq hsame c.lo_mem hs

theorem parent_sibling (b : Block) : b.sibling.parent = b.parent := by
  have hmem : b.sibling.lo ∈ b.parent := mem_parent_iff.mpr (Or.inr b.sibling.lo_mem)
  exact eq_of_level_eq rfl (mem_parent b.sibling.lo_mem) hmem

theorem sibling_ne (b : Block) : b.sibling ≠ b := by
  intro heq
  have hlo : b.lo ∈ b.sibling := by
    rw [heq]
    exact b.lo_mem
  exact not_mem_sibling b.lo_mem hlo

theorem sibling_sibling (b : Block) : b.sibling.sibling = b :=
  (eq_sibling_of_parent_eq (parent_sibling b) (sibling_ne b).symm).symm

private theorem parent_eq_of_union_of_le {b c d : Block} (hle : b.level ≤ c.level)
    (hdisjoint : ∀ x ∈ b, x ∉ c) (hunion : ∀ x, x ∈ d ↔ x ∈ b ∨ x ∈ c) : b.parent = c.parent := by
  have hbd : ∀ x ∈ b, x ∈ d := fun x hx => (hunion x).mpr (Or.inl hx)
  have hlt : b.level < d.level := by
    by_contra hge
    have hlevel : b.level = d.level := le_antisymm (level_le_of_subset hbd) (not_lt.mp hge)
    have hsame : b = d := eq_of_level_eq hlevel b.lo_mem (hbd _ b.lo_mem)
    have hclo : c.lo ∈ b := hsame ▸ (hunion c.lo).mpr (Or.inr c.lo_mem)
    exact hdisjoint _ hclo c.lo_mem
  -- the sibling of `b` lies in the union, hence meets `c`
  have hparent : b.sibling.lo ∈ b.parent := mem_parent_iff.mpr (Or.inr b.sibling.lo_mem)
  have hsib : b.sibling.lo ∈ c := by
    have hin := parent_subset hlt b.lo_mem (hbd _ b.lo_mem) _ hparent
    rcases (hunion _).mp hin with hb | hc
    · exact absurd b.sibling.lo_mem (not_mem_sibling hb)
    · exact hc
  have hlevel : b.level = c.level := by
    by_contra hne
    have hsub : b.parent.level ≤ c.level := Nat.lt_of_le_of_ne hle hne
    exact hdisjoint _ b.lo_mem (subset_of_level_le hsub hparent hsib (mem_parent b.lo_mem))
  have hsame : c = b.sibling := eq_of_level_eq hlevel.symm hsib b.sibling.lo_mem
  rw [hsame, parent_sibling]

/-- When two blocks make up a third one, they are its halves. -/
theorem parent_eq_of_union {b c d : Block} (hdisjoint : ∀ x ∈ b, x ∉ c)
    (hunion : ∀ x, x ∈ d ↔ x ∈ b ∨ x ∈ c) : b.parent = c.parent := by
  rcases Nat.le_total b.level c.level with hle | hle
  · exact parent_eq_of_union_of_le hle hdisjoint hunion
  · exact (parent_eq_of_union_of_le hle (fun x hx hxb => hdisjoint x hxb hx)
      fun x => (hunion x).trans or_comm).symm

/-- A block inside `S` is maximal when its parent is not inside. -/
theorem maximal_iff {b : Block} {S : Set ℕ} :
    Maximal b S ↔ (∀ x ∈ b, x ∈ S) ∧ ¬ ∀ x ∈ b.parent, x ∈ S := by
  have hmp : Maximal b S → (∀ x ∈ b, x ∈ S) ∧ ¬ ∀ x ∈ b.parent, x ∈ S := by
    intro hb
    refine ⟨hb.subset, ?_⟩
    intro hparent
    have heq := hb.eq_of_subset b.parent hparent fun x hx => mem_parent hx
    have := congrArg level heq
    rw [parent_level] at this
    omega
  have hmpr : ((∀ x ∈ b, x ∈ S) ∧ ¬ ∀ x ∈ b.parent, x ∈ S) → Maximal b S := by
    intro hb
    refine ⟨hb.1, ?_⟩
    intro c hc hsub
    rcases Nat.lt_or_ge b.level c.level with hlt | hge
    · exact absurd (fun x hx => hc x (parent_subset hlt b.lo_mem (hsub _ b.lo_mem) x hx)) hb.2
    · exact eq_of_level_eq (le_antisymm hge (level_le_of_subset hsub)) (hsub _ b.lo_mem) b.lo_mem
  exact ⟨hmp, hmpr⟩

/-! ## Section 2: Ascending lists -/

/-- Each block ends before the next ones start. -/
abbrev Ascending (bs : List Block) : Prop := bs.Pairwise fun b c => b.hi < c.lo

/-- Blocks of an ascending list that meet are equal. -/
theorem Ascending.eq_of_mem {bs : List Block} (h : Ascending bs) {b c : Block} (hb : b ∈ bs)
    (hc : c ∈ bs) {x : ℕ} (hxb : x ∈ b) (hxc : x ∈ c) : b = c := by
  obtain ⟨i, hi, rfl⟩ := List.mem_iff_getElem.mp hb
  obtain ⟨j, hj, rfl⟩ := List.mem_iff_getElem.mp hc
  have h1 := mem_iff.mp hxb
  have h2 := mem_iff.mp hxc
  rcases Nat.lt_trichotomy i j with hlt | rfl | hgt
  · have := List.pairwise_iff_getElem.mp h i j hi hj hlt
    omega
  · rfl
  · have := List.pairwise_iff_getElem.mp h j i hj hi hgt
    omega

theorem Ascending.nodup {bs : List Block} (h : Ascending bs) : bs.Nodup := by
  refine h.imp ?_
  rintro b _ hlt rfl
  have := b.lo_le_hi
  omega

/-- An ascending list is determined by its members. -/
theorem Ascending.ext {bs cs : List Block} (hbs : Ascending bs) (hcs : Ascending cs)
    (h : ∀ b, b ∈ bs ↔ b ∈ cs) : bs = cs := by
  have hperm : bs.Perm cs := (List.perm_ext_iff_of_nodup hbs.nodup hcs.nodup).mpr h
  have hirrefl : ∀ b c : Block, b ∈ bs → c ∈ cs → b.hi < c.lo → c.hi < b.lo → b = c := by
    intro b c _ _ hlt hgt
    have h1 := b.lo_le_hi
    have h2 := c.lo_le_hi
    omega
  exact hperm.eq_of_pairwise hirrefl hbs hcs

/-- In an ascending list a block is next to its sibling. -/
theorem Ascending.getElem_succ_eq {bs : List Block} (h : Ascending bs) {i j : ℕ}
    (hi : i < bs.length) (hj : j < bs.length) (hij : i < j) (hsib : bs[j] = bs[i].sibling) :
    i + 1 = j := by
  have hlt := List.pairwise_iff_getElem.mp h i j hi hj hij
  -- the parent is the two halves in a row
  have hnext : bs[j].lo = bs[i].hi + 1 := by
    have hlo : bs[j].lo ∈ bs[i].sibling := by
      rw [← hsib]
      exact bs[j].lo_mem
    have hmem : bs[i].hi + 1 ∈ bs[i].parent := by
      have h1 := mem_iff.mp (mem_parent bs[i].hi_mem)
      have h2 := mem_iff.mp (mem_parent_iff.mpr (Or.inr hlo))
      exact mem_iff.mpr ⟨by omega, by omega⟩
    rcases mem_parent_iff.mp hmem with hin | hin
    · have := (mem_iff.mp hin).2
      omega
    · rw [← hsib] at hin
      have := (mem_iff.mp hin).1
      omega
  by_contra hne
  have h1 := List.pairwise_iff_getElem.mp h i (i + 1) hi (by omega) (Nat.lt_succ_self i)
  have h2 := List.pairwise_iff_getElem.mp h (i + 1) j (by omega) hj (by omega)
  have h3 := bs[i + 1].lo_le_hi
  omega

/-- Where no block has its sibling in the list, no parent is covered: the smallest block
    with a covered parent would have a smaller one, inside its sibling. -/
theorem Ascending.not_parent_subset {bs : List Block} (h : Ascending bs)
    (hsib : ∀ b ∈ bs, b.sibling ∉ bs) :
    ∀ n, ∀ b ∈ bs, b.level = n → ¬ ∀ x ∈ b.parent, x ∈ points bs := by
  intro n
  induction n using Nat.strong_induction_on with
  | _ n ih =>
    intro b hb hn hparent
    have hlo : b.sibling.lo ∈ b.parent := mem_parent_iff.mpr (Or.inr b.sibling.lo_mem)
    obtain ⟨d, hd, hmem⟩ := hparent _ hlo
    rcases Nat.lt_trichotomy d.level b.level with hlt | heq | hgt
    · -- `d` is inside the sibling, and so is its parent
      have hsub : ∀ x ∈ d.parent, x ∈ b.sibling :=
        parent_subset (c := b.sibling) hlt hmem b.sibling.lo_mem
      have hcovered : ∀ x ∈ d.parent, x ∈ points bs :=
        fun x hx => hparent x (mem_parent_iff.mpr (Or.inr (hsub x hx)))
      exact ih d.level (by omega) d hd rfl hcovered
    · have hd' : d = b.sibling := eq_of_level_eq heq hmem b.sibling.lo_mem
      exact hsib b hb (hd' ▸ hd)
    · -- `d` contains the parent and with it the block
      have hsub : ∀ x ∈ b.sibling.parent, x ∈ d := parent_subset hgt b.sibling.lo_mem hmem
      rw [parent_sibling] at hsub
      have hbd : b = d := h.eq_of_mem hb hd b.lo_mem (hsub _ (mem_parent b.lo_mem))
      rw [hbd] at hgt
      exact lt_irrefl _ hgt

/-- **Local criterion.**  An ascending list holds the maximal blocks of what it covers exactly
    when no two consecutive blocks have the same parent. -/
theorem maximal_iff_isChain {bs : List Block} (h : Ascending bs) :
    (∀ b ∈ bs, Maximal b (points bs)) ↔ bs.IsChain fun b c => b.parent ≠ c.parent := by
  have hmp : (∀ b ∈ bs, Maximal b (points bs)) → bs.IsChain fun b c => b.parent ≠ c.parent := by
    intro hmax
    rw [List.isChain_iff_getElem]
    intro i hi heq
    have hlt := List.pairwise_iff_getElem.mp h i (i + 1) (by omega) hi (Nat.lt_succ_self i)
    have hne : bs[i + 1] ≠ bs[i] := by
      intro hsame
      rw [hsame] at hlt
      have := bs[i].lo_le_hi
      omega
    have hsib := eq_sibling_of_parent_eq heq hne
    -- the two halves cover the parent
    have hcovered : ∀ x ∈ bs[i].parent, x ∈ points bs := by
      intro x hx
      rcases mem_parent_iff.mp hx with hin | hin
      · exact ⟨bs[i], List.getElem_mem _, hin⟩
      · exact ⟨bs[i + 1], List.getElem_mem _, hsib ▸ hin⟩
    exact (maximal_iff.mp (hmax bs[i] (List.getElem_mem _))).2 hcovered
  have hmpr : (bs.IsChain fun b c => b.parent ≠ c.parent) → ∀ b ∈ bs, Maximal b (points bs) := by
    intro hchain
    have hstep : ∀ i j (hi : i < bs.length) (hj : j < bs.length), i < j →
        bs[j] ≠ bs[i].sibling := by
      intro i j hi hj hij hsib
      have hj' := h.getElem_succ_eq hi hj hij hsib
      subst hj'
      apply List.isChain_iff_getElem.mp hchain i hj
      rw [hsib, parent_sibling]
    have hsib : ∀ b ∈ bs, b.sibling ∉ bs := by
      intro b hb hin
      obtain ⟨i, hi, rfl⟩ := List.mem_iff_getElem.mp hb
      obtain ⟨j, hj, hij⟩ := List.mem_iff_getElem.mp hin
      rcases Nat.lt_trichotomy i j with hlt | rfl | hgt
      · exact hstep i j hi hj hlt hij
      · exact sibling_ne bs[i] hij.symm
      · exact hstep j i hj hi hgt (by rw [hij, sibling_sibling])
    intro b hb
    exact maximal_iff.mpr ⟨fun x hx => ⟨b, hb, hx⟩, h.not_parent_subset hsib b.level b hb rfl⟩
  exact ⟨hmp, hmpr⟩

/-! ## Section 3: Holes -/

theorem points_append {bs cs : List Block} {x : ℕ} :
    x ∈ points (bs ++ cs) ↔ x ∈ points bs ∨ x ∈ points cs := by
  simp only [mem_points, List.mem_append, or_and_right, exists_or]

/-- The siblings along the path from `q` to the block `n` levels above it. -/
def hole (q : Block) (n : ℕ) : List Block :=
  (List.range n).map fun k => (around (q.level + k) q.lo).sibling

theorem hole_length (q : Block) (n : ℕ) : (hole q n).length = n := by
  rw [hole, List.length_map, List.length_range]

/-- One sibling of each level of the path. -/
theorem hole_levels (q : Block) (n : ℕ) :
    (hole q n).map level = (List.range n).map (q.level + ·) := by
  rw [hole, List.map_map]
  rfl

theorem hole_nodup (q : Block) (n : ℕ) : (hole q n).Nodup := by
  have hlevels : ((hole q n).map level).Nodup := by
    rw [hole_levels]
    exact List.nodup_range.map fun _ _ h => Nat.add_left_cancel h
  exact hlevels.of_map level

theorem level_lt_of_mem_hole {q b : Block} {n : ℕ} (hb : b ∈ hole q n) : b.level < q.level + n := by
  obtain ⟨k, hk, rfl⟩ := List.mem_map.mp hb
  have := List.mem_range.mp hk
  show q.level + k < q.level + n
  omega

theorem around_self (q : Block) : around q.level q.lo = q := (eq_around_of_mem q.lo_mem).symm

/-- The block is on the path. -/
theorem mem_path {q : Block} {x : ℕ} (hx : x ∈ q) (n : ℕ) : x ∈ around (q.level + n) q.lo :=
  subset_of_level_le (c := around (q.level + n) q.lo) (Nat.le_add_right _ n) q.lo_mem
    (mem_around _ _) hx

/-- The siblings are what the hole leaves. -/
theorem mem_points_hole {q : Block} {n x : ℕ} :
    x ∈ points (hole q n) ↔ x ∈ around (q.level + n) q.lo ∧ x ∉ q := by
  induction n with
  | zero =>
    show x ∈ points [] ↔ x ∈ around q.level q.lo ∧ x ∉ q
    rw [around_self]
    simp [points]
  | succ n ih =>
    have hsplit : hole q (n + 1) = hole q n ++ [(around (q.level + n) q.lo).sibling] := by
      rw [hole, List.range_succ, List.map_append]
      rfl
    have hparent : x ∈ around (q.level + (n + 1)) q.lo ↔
        x ∈ around (q.level + n) q.lo ∨ x ∈ (around (q.level + n) q.lo).sibling := by
      rw [← mem_parent_iff, parent_around]
      rfl
    have hdisjoint : x ∈ (around (q.level + n) q.lo).sibling → x ∉ q :=
      fun hsib hxq => not_mem_sibling (mem_path hxq n) hsib
    have hlast : x ∈ points [(around (q.level + n) q.lo).sibling] ↔
        x ∈ (around (q.level + n) q.lo).sibling := by
      simp [points]
    rw [hsplit, points_append, ih, hlast, hparent]
    tauto

/-- The parent of a sibling on the path contains the hole. -/
theorem maximal_of_mem_hole {q b : Block} {n : ℕ} {S : Set ℕ} (hb : b ∈ hole q n)
    (hsub : ∀ x ∈ b, x ∈ S) (hq : q.lo ∉ S) : Maximal b S := by
  have hparent : q.lo ∈ b.parent := by
    obtain ⟨k, _, rfl⟩ := List.mem_map.mp hb
    rw [parent_sibling, parent_around]
    exact mem_around _ _
  exact maximal_iff.mpr ⟨hsub, fun h => hq (h _ hparent)⟩

/-! ## Section 4: Shortest covers -/

/-- `ms` holds the maximal blocks of `S`, each once, and they cover it. -/
structure Shortest (ms : List Block) (S : Set ℕ) : Prop where
  nodup : ms.Nodup
  maximal : ∀ m ∈ ms, Maximal m S
  points_eq : points ms = S

theorem Tilings.shortest {l : List (Segment ℕ)} {bss : List (List Block)} (h : Tilings l bss)
    (hl : Segment.Canonical l) : Shortest bss.flatten (Segment.cover l) :=
  ⟨h.nodup hl, h.maximal hl, h.points_eq⟩

section
variable {ms ns : List Block} {S T : Set ℕ}

theorem Shortest.length_le (h : Shortest ms S) {cs : List Block} (hcs : points cs = S) :
    ms.length ≤ cs.length :=
  (shortest_cover h.nodup h.maximal h.points_eq hcs).1

/-- A maximal block is in the list. -/
theorem Shortest.mem_iff (h : Shortest ms S) {b : Block} : b ∈ ms ↔ Maximal b S := by
  have hmem : Maximal b S → b ∈ ms := by
    intro hb
    have hlo : b.lo ∈ points ms := h.points_eq ▸ hb.subset _ b.lo_mem
    obtain ⟨m, hm, hmlo⟩ := hlo
    exact hb.unique (h.maximal m hm) b.lo_mem hmlo ▸ hm
  exact ⟨h.maximal b, hmem⟩

/-- The list is determined up to order. -/
theorem Shortest.perm (h : Shortest ms S) (h' : Shortest ns S) : ms.Perm ns :=
  (List.perm_ext_iff_of_nodup h.nodup h'.nodup).mpr fun _ => h.mem_iff.trans h'.mem_iff.symm

theorem Shortest.singleton (b : Block) : Shortest [b] {x | x ∈ b} where
  nodup := List.nodup_singleton b
  maximal := by
    intro m hm
    rw [List.mem_singleton.mp hm]
    exact ⟨fun _ hx => hx, fun c hc hsub => eq_of_subset_of_subset hc hsub⟩
  points_eq := by simp [points]

/-- Every block inside the set lies in a block of the list. -/
theorem Shortest.subset_iff (h : Shortest ms S) {b : Block} :
    (∀ x ∈ b, x ∈ S) ↔ ∃ m ∈ ms, ∀ x ∈ b, x ∈ m := by
  have hmp : (∀ x ∈ b, x ∈ S) → ∃ m ∈ ms, ∀ x ∈ b, x ∈ m := by
    intro hb
    have hlo : b.lo ∈ points ms := h.points_eq ▸ hb _ b.lo_mem
    obtain ⟨m, hm, hmlo⟩ := hlo
    exact ⟨m, hm, fun x hx => (h.maximal m hm).absorbs hb hmlo b.lo_mem hx⟩
  have hmpr : (∃ m ∈ ms, ∀ x ∈ b, x ∈ m) → ∀ x ∈ b, x ∈ S := by
    intro hin x hx
    obtain ⟨m, hm, hsub⟩ := hin
    exact (h.maximal m hm).subset x (hsub x hx)
  exact ⟨hmp, hmpr⟩

/-- A maximal block that the removed one does not meet stays maximal. -/
theorem Maximal.diff {m q : Block} (hm : Maximal m S) (hmq : ∀ x ∈ m, x ∉ q) :
    Maximal m (S \ {x | x ∈ q}) where
  subset := fun x hx => ⟨hm.subset x hx, hmq x hx⟩
  eq_of_subset := fun c hc hsub => hm.eq_of_subset c (fun x hx => (hc x hx).1) hsub

/-- Without `q`, a block around `q` splits into the siblings along the path. -/
theorem Shortest.punch (h : Shortest ms S) {p q : Block} (hp : p ∈ ms) (hqp : ∀ x ∈ q, x ∈ p) :
    Shortest (ms.erase p ++ hole q (p.level - q.level)) (S \ {x | x ∈ q}) := by
  have hlevel := level_le_of_subset hqp
  have hpath : around (q.level + (p.level - q.level)) q.lo = p := by
    rw [Nat.add_sub_cancel' hlevel]
    exact (eq_around_of_mem (hqp _ q.lo_mem)).symm
  have hhole : ∀ x, x ∈ points (hole q (p.level - q.level)) ↔ x ∈ p ∧ x ∉ q := by
    intro x
    rw [mem_points_hole, hpath]
  have hrest : ∀ m ∈ ms.erase p, m ∈ ms ∧ ∀ x ∈ m, x ∉ p := by
    intro m hm
    obtain ⟨hne, hmem⟩ := h.nodup.mem_erase_iff.mp hm
    exact ⟨hmem, fun x hxm hxp => hne ((h.maximal m hmem).unique (h.maximal p hp) hxm hxp)⟩
  have hnodup : (ms.erase p ++ hole q (p.level - q.level)).Nodup := by
    refine (h.nodup.erase p).append (hole_nodup q _) ?_
    intro b hb hbhole
    exact (hrest b hb).2 _ b.lo_mem ((hhole _).mp ⟨b, hbhole, b.lo_mem⟩).1
  have hmaximal : ∀ m ∈ ms.erase p ++ hole q (p.level - q.level),
      Maximal m (S \ {x | x ∈ q}) := by
    intro m hm
    rcases List.mem_append.mp hm with hm | hm
    · exact (h.maximal m (hrest m hm).1).diff fun x hx hxq => (hrest m hm).2 x hx (hqp x hxq)
    · have hsub : ∀ x ∈ m, x ∈ S \ {x | x ∈ q} := by
        intro x hx
        have hin := (hhole x).mp ⟨m, hm, hx⟩
        exact ⟨(h.maximal p hp).subset x hin.1, hin.2⟩
      exact maximal_of_mem_hole hm hsub fun hlo => hlo.2 q.lo_mem
  have hpoints : points (ms.erase p ++ hole q (p.level - q.level)) = S \ {x | x ∈ q} := by
    apply Set.ext
    intro x
    have hx : x ∈ S ↔ ∃ m ∈ ms, x ∈ m := by
      rw [← h.points_eq]
      rfl
    show _ ↔ x ∈ S ∧ x ∉ q
    rw [points_append, hhole, hx]
    have hsplit : (∃ m ∈ ms, x ∈ m) ↔ x ∈ points (ms.erase p) ∨ x ∈ p := by
      simp only [mem_points]
      have hmem : ∀ m, m ∈ ms ↔ m ∈ ms.erase p ∨ m = p := by
        intro m
        rw [h.nodup.mem_erase_iff]
        by_cases heq : m = p
        · simp [heq, hp]
        · simp [heq]
      simp only [hmem, or_and_right, exists_or, exists_eq_left]
    have hout : x ∈ points (ms.erase p) → x ∉ q := by
      intro hin hxq
      obtain ⟨m, hm, hxm⟩ := hin
      exact (hrest m hm).2 x hxm (hqp x hxq)
    rw [hsplit]
    tauto
  exact ⟨hnodup, hmaximal, hpoints⟩

instance (b : Block) (x : ℕ) : Decidable (x ∈ b) :=
  inferInstanceAs (Decidable (x / 2 ^ b.level = b.index))

/-- Where no block is around `q`, the blocks that meet `q` are inside and go. -/
theorem Shortest.swallow (h : Shortest ms S) {q : Block}
    (hq : ¬ ∃ p ∈ ms, ∀ x ∈ q, x ∈ p) :
    Shortest (ms.filter fun m => m.lo ∉ q) (S \ {x | x ∈ q}) := by
  have hmeets : ∀ m ∈ ms, ∀ x ∈ m, x ∈ q → m.lo ∈ q := by
    intro m hm x hxm hxq
    rcases Nat.le_total q.level m.level with hle | hle
    · exact absurd ⟨m, hm, fun y hy => subset_of_level_le hle hxq hxm hy⟩ hq
    · exact subset_of_level_le hle hxm hxq m.lo_mem
  have hout : ∀ m ∈ ms.filter (fun m => m.lo ∉ q), m ∈ ms ∧ ∀ x ∈ m, x ∉ q := by
    intro m hm
    obtain ⟨hmem, hlo⟩ := List.mem_filter.mp hm
    exact ⟨hmem, fun x hx hxq => of_decide_eq_true hlo (hmeets m hmem x hx hxq)⟩
  have hpoints : points (ms.filter fun m => m.lo ∉ q) = S \ {x | x ∈ q} := by
    apply Set.ext
    intro x
    show _ ↔ x ∈ S ∧ x ∉ q
    rw [← h.points_eq]
    have hmp : x ∈ points (ms.filter fun m => m.lo ∉ q) → x ∈ points ms ∧ x ∉ q := by
      intro hin
      obtain ⟨m, hm, hx⟩ := hin
      exact ⟨⟨m, (hout m hm).1, hx⟩, (hout m hm).2 x hx⟩
    have hmpr : x ∈ points ms ∧ x ∉ q → x ∈ points (ms.filter fun m => m.lo ∉ q) := by
      intro hin
      obtain ⟨⟨m, hm, hx⟩, hxq⟩ := hin
      -- a block that starts in `q` is not around it, hence inside
      have hlo : m.lo ∉ q := by
        intro hlo
        rcases Nat.le_total q.level m.level with hle | hle
        · exact hq ⟨m, hm, fun y hy => subset_of_level_le hle hlo m.lo_mem hy⟩
        · exact hxq (subset_of_level_le hle m.lo_mem hlo hx)
      exact ⟨m, List.mem_filter.mpr ⟨hm, decide_eq_true hlo⟩, hx⟩
    exact ⟨hmp, hmpr⟩
  exact ⟨h.nodup.filter _, fun m hm => (h.maximal m (hout m hm).1).diff (hout m hm).2, hpoints⟩

/-- One removed block costs at most `B - 1` blocks more. -/
theorem Shortest.exists_diff_block {B : ℕ} (h : Shortest ms S) (hlevels : ∀ m ∈ ms, m.level ≤ B)
    (hB : 1 ≤ B) (q : Block) :
    ∃ us, Shortest us (S \ {x | x ∈ q}) ∧ (∀ m ∈ us, m.level ≤ B) ∧
      us.length ≤ ms.length + (B - 1) := by
  by_cases hq : ∃ p ∈ ms, ∀ x ∈ q, x ∈ p
  · obtain ⟨p, hp, hqp⟩ := hq
    have hle := level_le_of_subset hqp
    have hpB := hlevels p hp
    have hpos : 0 < ms.length := List.length_pos_of_mem hp
    have hbound : ∀ m ∈ ms.erase p ++ hole q (p.level - q.level), m.level ≤ B := by
      intro m hm
      rcases List.mem_append.mp hm with hm | hm
      · exact hlevels m (List.mem_of_mem_erase hm)
      · have := level_lt_of_mem_hole hm
        omega
    have hlen : (ms.erase p ++ hole q (p.level - q.level)).length ≤ ms.length + (B - 1) := by
      rw [List.length_append, List.length_erase_of_mem hp, hole_length]
      omega
    exact ⟨_, h.punch hp hqp, hbound, hlen⟩
  · have hbound : ∀ m ∈ ms.filter (fun m => m.lo ∉ q), m.level ≤ B :=
      fun m hm => hlevels m (List.mem_of_mem_filter hm)
    have hlen := List.length_filter_le (fun m => decide (m.lo ∉ q)) ms
    exact ⟨_, h.swallow hq, hbound, hlen.trans (Nat.le_add_right _ _)⟩

/-- **Differences.**  Removing `n` blocks costs at most `(B - 1) * n` blocks more. -/
theorem Shortest.exists_diff {B : ℕ} (h : Shortest ms S) (hlevels : ∀ m ∈ ms, m.level ≤ B)
    (hB : 1 ≤ B) (qs : List Block) :
    ∃ us, Shortest us (S \ points qs) ∧ us.length ≤ ms.length + (B - 1) * qs.length := by
  induction qs generalizing ms S with
  | nil =>
    have hnone : S \ points [] = S := by simp [points]
    exact ⟨ms, hnone.symm ▸ h, Nat.le_add_right _ _⟩
  | cons q qs ih =>
    obtain ⟨us, hus, hbound, hlen⟩ := h.exists_diff_block hlevels hB q
    obtain ⟨vs, hvs, hlen'⟩ := ih hus hbound
    have hsplit : (S \ {x | x ∈ q}) \ points qs = S \ points (q :: qs) := by
      apply Set.ext
      intro x
      show (x ∈ S ∧ x ∉ q) ∧ x ∉ points qs ↔ x ∈ S ∧ x ∉ points (q :: qs)
      simp only [mem_points, List.mem_cons, exists_eq_or_imp, not_or, and_assoc]
    rw [hsplit] at hvs
    have hsize : vs.length ≤ ms.length + (B - 1) * (q :: qs).length := by
      rw [List.length_cons, Nat.mul_succ]
      omega
    exact ⟨vs, hvs, hsize⟩

/-- **Intersections.**  Two blocks that meet are nested, so the smaller of the two covers the
    overlap, and not every block of both lists is the smaller one. -/
theorem Shortest.exists_inter (h : Shortest ms S) (h' : Shortest ns T) (hne : ms ≠ []) :
    ∃ us, points us = S ∩ T ∧ us.length ≤ ms.length + ns.length - 1 := by
  classical
  -- the blocks inside one of the other list, strictly inside on the right
  let left := ms.filter fun m => ∃ n ∈ ns, ∀ x ∈ m, x ∈ n
  let right := ns.filter fun n => ∃ m ∈ ms, n ≠ m ∧ ∀ x ∈ n, x ∈ m
  have hleft : ∀ m, m ∈ left ↔ m ∈ ms ∧ ∃ n ∈ ns, ∀ x ∈ m, x ∈ n := by
    intro m
    rw [List.mem_filter, decide_eq_true_iff]
  have hright : ∀ n, n ∈ right ↔ n ∈ ns ∧ ∃ m ∈ ms, n ≠ m ∧ ∀ x ∈ n, x ∈ m := by
    intro n
    rw [List.mem_filter, decide_eq_true_iff]
  have hpoints : points (left ++ right) = S ∩ T := by
    rw [← h.points_eq, ← h'.points_eq]
    apply Set.ext
    intro x
    have hmp : x ∈ points (left ++ right) → x ∈ points ms ∩ points ns := by
      intro hin
      obtain ⟨b, hb, hx⟩ := hin
      rcases List.mem_append.mp hb with hb | hb
      · obtain ⟨hm, n, hn, hsub⟩ := (hleft b).mp hb
        exact ⟨⟨b, hm, hx⟩, ⟨n, hn, hsub x hx⟩⟩
      · obtain ⟨hn, m, hm, _, hsub⟩ := (hright b).mp hb
        exact ⟨⟨m, hm, hsub x hx⟩, ⟨b, hn, hx⟩⟩
    have hmpr : x ∈ points ms ∩ points ns → x ∈ points (left ++ right) := by
      intro hin
      obtain ⟨⟨m, hm, hxm⟩, ⟨n, hn, hxn⟩⟩ := hin
      rcases Nat.le_total m.level n.level with hle | hle
      · have hmem := (hleft m).mpr ⟨hm, n, hn, fun y => subset_of_level_le hle hxm hxn⟩
        exact ⟨m, List.mem_append_left _ hmem, hxm⟩
      · by_cases heq : n = m
        · have hmem := (hleft m).mpr ⟨hm, n, hn, fun y hy => heq ▸ hy⟩
          exact ⟨m, List.mem_append_left _ hmem, hxm⟩
        · have hmem := (hright n).mpr ⟨hn, m, hm, heq, fun y => subset_of_level_le hle hxn hxm⟩
          exact ⟨n, List.mem_append_right _ hmem, hxn⟩
    exact ⟨hmp, hmpr⟩
  have hlen : (left ++ right).length ≤ ms.length + ns.length - 1 := by
    have h1 : left.length ≤ ms.length := List.length_filter_le _ _
    have h2 : right.length ≤ ns.length := List.length_filter_le _ _
    have hpos : 0 < ms.length := List.length_pos_iff.mpr hne
    rw [List.length_append]
    rcases Nat.lt_or_ge right.length ns.length with hlt | hge
    · omega
    · -- every block on the right is strictly inside, so none on the left is inside it
      have hall := List.length_filter_eq_length_iff.mp (le_antisymm h2 hge)
      have hnil : left = [] := by
        rw [List.eq_nil_iff_forall_not_mem]
        intro m hm
        obtain ⟨hmem, n, hn, hsub⟩ := (hleft m).mp hm
        obtain ⟨m', hm', hne', hsub'⟩ := of_decide_eq_true (hall n hn)
        have hsame : m = m' :=
          (h.maximal m hmem).unique (h.maximal m' hm') m.lo_mem (hsub' _ (hsub _ m.lo_mem))
        exact hne' (eq_of_subset_of_subset (hsame ▸ hsub') (fun x hx => hsub x (hsame ▸ hx)))
      rw [hnil]
      show 0 + right.length ≤ _
      omega
  exact ⟨left ++ right, hpoints, hlen⟩

end

end Block
