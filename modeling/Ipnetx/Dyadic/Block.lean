import Mathlib.Data.List.Perm.Subperm
import Mathlib.Data.List.Nodup
import Ipnetx.Segment.Canonical

/-! # Dyadic Blocks

    A block of level `h` and index `q` is the set of naturals `x` with
    `x / 2 ^ h = q`: an aligned run of `2 ^ h` numbers.  Blocks are laminar
    (two blocks that meet are nested), so inside any set every point lies in
    a unique *maximal* block.

    Main result: a duplicate-free list of maximal blocks that covers a set
    is its unique shortest cover by blocks (`shortest_cover`). -/

/-- The naturals that agree with `index` above the low `level` bits. -/
structure Block where
  level : ℕ
  index : ℕ
  deriving DecidableEq, Repr

namespace Block

/-! ## Section 1: Points and endpoints -/

instance : Membership ℕ Block := ⟨fun b x => x / 2 ^ b.level = b.index⟩

theorem mem_def {b : Block} {x : ℕ} : x ∈ b ↔ x / 2 ^ b.level = b.index := Iff.rfl

/-- The block of level `h` around `x`. -/
def around (h x : ℕ) : Block := ⟨h, x / 2 ^ h⟩

@[simp] theorem around_level (h x : ℕ) : (around h x).level = h := rfl

theorem mem_around (h x : ℕ) : x ∈ around h x := rfl

/-- A block is the block of its level around any of its points. -/
theorem eq_around_of_mem {b : Block} {x : ℕ} (hx : x ∈ b) : b = around b.level x := by
  cases b
  exact congrArg _ (mem_def.mp hx).symm

/-- The block of level `h` around `x` holds the numbers with the bits of `x` from `h` on. -/
theorem mem_around_iff_testBit {h x y : ℕ} :
    y ∈ around h x ↔ ∀ i, h ≤ i → y.testBit i = x.testBit i := by
  show y / 2 ^ h = x / 2 ^ h ↔ _
  constructor
  · intro heq i hi
    have hbit := congrArg (fun n => n.testBit (i - h)) heq
    simpa only [Nat.testBit_div_two_pow, Nat.sub_add_cancel hi] using hbit
  · intro hbits
    apply Nat.eq_of_testBit_eq
    intro i
    rw [Nat.testBit_div_two_pow, Nat.testBit_div_two_pow]
    exact hbits (i + h) (Nat.le_add_left h i)

def lo (b : Block) : ℕ := b.index * 2 ^ b.level

def hi (b : Block) : ℕ := b.index * 2 ^ b.level + (2 ^ b.level - 1)

/-- The block as a segment. -/
def seg (b : Block) : Segment ℕ := ⟨b.lo, b.hi⟩

theorem lo_add_size (b : Block) : b.lo + 2 ^ b.level = b.hi + 1 := by
  have := Nat.two_pow_pos b.level
  unfold lo hi
  omega

theorem lo_le_hi (b : Block) : b.lo ≤ b.hi := Nat.le_add_right _ _

theorem mem_iff {b : Block} {x : ℕ} : x ∈ b ↔ b.lo ≤ x ∧ x ≤ b.hi := by
  have hpos := Nat.two_pow_pos b.level
  have hsize := b.lo_add_size
  rw [mem_def, Nat.div_eq_iff hpos]
  unfold lo hi
  omega

theorem mem_seg {b : Block} {x : ℕ} : x ∈ b.seg ↔ x ∈ b := mem_iff.symm

theorem lo_mem (b : Block) : b.lo ∈ b := mem_iff.mpr ⟨le_rfl, b.lo_le_hi⟩

theorem hi_mem (b : Block) : b.hi ∈ b := mem_iff.mpr ⟨b.lo_le_hi, le_rfl⟩

theorem dvd_lo (b : Block) : 2 ^ b.level ∣ b.lo := Dvd.intro_left _ rfl

/-- The block around an aligned number starts there. -/
theorem around_lo {h x : ℕ} (hx : 2 ^ h ∣ x) : (around h x).lo = x :=
  Nat.div_mul_cancel hx

theorem around_hi {h x : ℕ} (hx : 2 ^ h ∣ x) : (around h x).hi + 1 = x + 2 ^ h := by
  rw [← lo_add_size, around_lo hx, around_level]

/-- A block is an interval. -/
theorem ordConnected (b : Block) : {x | x ∈ b}.OrdConnected := by
  constructor
  intro x hx y hy z hz
  have hxb := mem_iff.mp hx
  have hyb := mem_iff.mp hy
  exact mem_iff.mpr ⟨hxb.1.trans hz.1, hz.2.trans hyb.2⟩

/-! ## Section 2: Laminarity -/

/-- Of two blocks that share a point the smaller one lies inside the larger one. -/
theorem subset_of_level_le {b c : Block} (hlevel : b.level ≤ c.level) {x : ℕ}
    (hxb : x ∈ b) (hxc : x ∈ c) {y : ℕ} (hy : y ∈ b) : y ∈ c := by
  have hsplit : 2 ^ c.level = 2 ^ b.level * 2 ^ (c.level - b.level) := by
    rw [← pow_add, Nat.add_sub_cancel' hlevel]
  have hquot : ∀ z, z / 2 ^ c.level = z / 2 ^ b.level / 2 ^ (c.level - b.level) := by
    intro z
    rw [hsplit, Nat.div_div_eq_div_mul]
  rw [mem_def] at hxb hxc hy ⊢
  rw [hquot, hy, ← hxb, ← hquot, hxc]

/-- A block inside another one is no larger. -/
theorem level_le_of_subset {b c : Block} (h : ∀ x ∈ b, x ∈ c) : b.level ≤ c.level := by
  have hlo := (mem_iff.mp (h _ b.lo_mem)).1
  have hhi := (mem_iff.mp (h _ b.hi_mem)).2
  have hb := b.lo_add_size
  have hc := c.lo_add_size
  exact (Nat.pow_le_pow_iff_right (by omega)).mp (show 2 ^ b.level ≤ 2 ^ c.level by omega)

theorem eq_of_level_eq {b c : Block} (hlevel : b.level = c.level) {x : ℕ}
    (hb : x ∈ b) (hc : x ∈ c) : b = c := by
  rw [eq_around_of_mem hb, eq_around_of_mem hc, hlevel]

/-- Blocks with the same points are equal. -/
theorem eq_of_subset_of_subset {b c : Block} (hbc : ∀ x ∈ b, x ∈ c) (hcb : ∀ x ∈ c, x ∈ b) :
    b = c :=
  eq_of_level_eq (le_antisymm (level_le_of_subset hbc) (level_le_of_subset hcb))
    b.lo_mem (hbc _ b.lo_mem)

/-- The endpoints determine the block. -/
theorem seg_injective : Function.Injective seg := by
  intro b c h
  have hmem : ∀ x, x ∈ b ↔ x ∈ c := fun x => by rw [← mem_seg, h, mem_seg]
  exact eq_of_subset_of_subset (fun x => (hmem x).mp) (fun x => (hmem x).mpr)

/-! ## Section 3: Maximal blocks -/

/-- A block inside `S` that no larger block inside `S` contains. -/
structure Maximal (b : Block) (S : Set ℕ) : Prop where
  subset : ∀ x ∈ b, x ∈ S
  eq_of_subset : ∀ c : Block, (∀ x ∈ c, x ∈ S) → (∀ x ∈ b, x ∈ c) → c = b

/-- Every block inside `S` that meets a maximal block lies inside it. -/
theorem Maximal.absorbs {b c : Block} {S : Set ℕ} (hb : Maximal b S) (hc : ∀ x ∈ c, x ∈ S)
    {x : ℕ} (hxb : x ∈ b) (hxc : x ∈ c) {y : ℕ} (hy : y ∈ c) : y ∈ b := by
  rcases Nat.le_total c.level b.level with hle | hle
  · exact subset_of_level_le hle hxc hxb hy
  · have hsub : ∀ z ∈ b, z ∈ c := fun z hz => subset_of_level_le hle hxb hxc hz
    rwa [hb.eq_of_subset c hc hsub] at hy

theorem Maximal.unique {b c : Block} {S : Set ℕ} (hb : Maximal b S) (hc : Maximal c S)
    {x : ℕ} (hxb : x ∈ b) (hxc : x ∈ c) : b = c :=
  eq_of_subset_of_subset (fun _ => hc.absorbs hb.subset hxc hxb)
    (fun _ => hb.absorbs hc.subset hxb hxc)

/-! ## Section 4: The shortest cover -/

/-- The points of a list of blocks. -/
def points (bs : List Block) : Set ℕ := {x | ∃ b ∈ bs, x ∈ b}

theorem mem_points {bs : List Block} {x : ℕ} : x ∈ points bs ↔ ∃ b ∈ bs, x ∈ b := Iff.rfl

/-- Send every block of a cover to the maximal block it lies in. -/
private theorem exists_absorbing {ms cs : List Block} {S : Set ℕ} (hms : ∀ m ∈ ms, Maximal m S)
    (hmcover : points ms = S) (hcsub : ∀ c ∈ cs, ∀ x ∈ c, x ∈ S) :
    ∃ f : Block → Block, ∀ c ∈ cs, f c ∈ ms ∧ ∀ x ∈ c, x ∈ f c := by
  have hex : ∀ c : Block, ∃ m : Block, c ∈ cs → m ∈ ms ∧ ∀ x ∈ c, x ∈ m := by
    intro c
    by_cases hc : c ∈ cs
    · have hlo : c.lo ∈ points ms := hmcover ▸ hcsub c hc _ c.lo_mem
      obtain ⟨m, hm, hmem⟩ := hlo
      exact ⟨m, fun _ => ⟨hm, fun x hx => (hms m hm).absorbs (hcsub c hc) hmem c.lo_mem hx⟩⟩
    · exact ⟨c, fun h => absurd h hc⟩
  exact ⟨fun c => (hex c).choose, fun c hc => (hex c).choose_spec hc⟩

/-- **Shortest cover.**  A duplicate-free list of maximal blocks of `S` that covers `S`
    is no longer than any other cover of `S`, and a cover of the same length is a
    rearrangement of it. -/
theorem shortest_cover {ms cs : List Block} {S : Set ℕ} (hnodup : ms.Nodup)
    (hms : ∀ m ∈ ms, Maximal m S) (hmcover : points ms = S) (hccover : points cs = S) :
    ms.length ≤ cs.length ∧ (cs.length = ms.length → cs.Perm ms) := by
  have hcsub : ∀ c ∈ cs, ∀ x ∈ c, x ∈ S := fun c hc x hx => hccover ▸ ⟨c, hc, hx⟩
  obtain ⟨f, hf⟩ := exists_absorbing hms hmcover hcsub
  -- `f` is onto: the block of `cs` that covers a point of `m` is sent to `m`
  have honto : ∀ m ∈ ms, ∀ x ∈ m, ∃ c ∈ cs, x ∈ c ∧ f c = m := by
    intro m hm x hx
    have hxS : x ∈ points cs := hccover ▸ (hms m hm).subset x hx
    obtain ⟨c, hc, hxc⟩ := hxS
    exact ⟨c, hc, hxc, (hms _ (hf c hc).1).unique (hms m hm) ((hf c hc).2 x hxc) hx⟩
  have hsubset : ms ⊆ cs.map f := by
    intro m hm
    obtain ⟨c, hc, _, hfc⟩ := honto m hm m.lo m.lo_mem
    exact List.mem_map.mpr ⟨c, hc, hfc⟩
  have hsubperm : ms.Subperm (cs.map f) := List.subperm_of_subset hnodup hsubset
  refine ⟨by simpa using hsubperm.length_le, ?_⟩
  intro hlen
  have hperm : ms.Perm (cs.map f) := hsubperm.perm_of_length_le (by simp [hlen])
  -- so `f` is one-to-one on `cs`, and each block fills its maximal block alone
  have hinj := List.inj_on_of_nodup_map (hperm.nodup_iff.mp hnodup)
  have hid : ∀ c ∈ cs, f c = c := by
    intro c hc
    refine eq_of_subset_of_subset ?_ (hf c hc).2
    intro x hx
    obtain ⟨d, hd, hxd, hfd⟩ := honto (f c) (hf c hc).1 x hx
    rwa [hinj hd hc hfd] at hxd
  have hmap : cs.map f = cs := (List.map_congr_left hid).trans (List.map_id' cs)
  exact (hmap ▸ hperm).symm

end Block
