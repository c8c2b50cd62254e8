import Mathlib.Data.Nat.Log
import Ipnetx.Machine.Slice

/-! # Loops

    A loop by its passes: one pass tests the condition and runs the body,
    and the loop is left with a value or goes on in a new state.
    `Ends pass s n x` counts the passes that go on.

    A function computes a loop with a variant (`HasVariant`) if it unfolds
    into one pass and itself, and every pass that goes on decreases the
    variant.  Then the loop ends, with what the function returns, after at
    most as many passes as the variant says (`HasVariant.ends`).  The halving
    loop of a binary search is the first example. -/

namespace Machine

variable {σ ρ : Type}

/-! ## Section 1: Passes -/

/-- How a pass ends. -/
inductive Next (σ ρ : Type) where
  | leave (r : ρ)
  | again (s : σ)

/-- The loop goes on `n` times from `s` and ends with `x`. -/
inductive Ends (pass : σ → Result (Next σ ρ)) : σ → ℕ → Result ρ → Prop where
  | leave {s : σ} {r : ρ} : pass s = .ok (.leave r) → Ends pass s 0 (.ok r)
  | fault {s : σ} {e : Fault} : pass s = .error e → Ends pass s 0 (.error e)
  | again {s s' : σ} {n : ℕ} {x : Result ρ} :
      pass s = .ok (.again s') → Ends pass s' n x → Ends pass s (n + 1) x

/-- What is left to compute after a pass. -/
def follow (f : σ → Result ρ) : Next σ ρ → Result ρ
  | .leave r => .ok r
  | .again s => f s

/-- `f` computes the loop, and `variant` bounds the passes. -/
structure HasVariant (pass : σ → Result (Next σ ρ)) (f : σ → Result ρ) (variant : σ → ℕ) :
    Prop where
  unfolds : ∀ s, f s = pass s >>= follow f
  decreases : ∀ {s s'}, pass s = .ok (.again s') → variant s' < variant s

section
variable {pass : σ → Result (Next σ ρ)} {f : σ → Result ρ} {variant : σ → ℕ}

/-- **Variant rule.**  The loop ends with the value of `f` before the variant runs out. -/
theorem HasVariant.ends (h : HasVariant pass f variant) (s : σ) :
    ∃ n, n ≤ variant s ∧ Ends pass s n (f s) := by
  induction hv : variant s using Nat.strong_induction_on generalizing s with
  | _ v ih =>
    cases hpass : pass s with
    | error e =>
      have hf : f s = .error e := by rw [h.unfolds, hpass]; rfl
      exact ⟨0, Nat.zero_le _, hf ▸ .fault hpass⟩
    | ok next =>
      cases next with
      | leave r =>
        have hf : f s = .ok r := by rw [h.unfolds, hpass]; rfl
        exact ⟨0, Nat.zero_le _, hf ▸ .leave hpass⟩
      | again s' =>
        have hf : f s = f s' := by rw [h.unfolds, hpass]; rfl
        have hlt : variant s' < v := hv ▸ h.decreases hpass
        obtain ⟨n, hn, hends⟩ := ih _ hlt s' rfl
        exact ⟨n + 1, by omega, hf ▸ .again hpass hends⟩

end

/-! ## Section 2: Binary search -/

/-- The part of a slice of length `n` that is still searched. -/
structure Window (n : ℕ) where
  base : ℕ
  size : ℕ
  pos : 0 < size
  le : base + size ≤ n

/-- A pass of the halving loop: one call of the comparator. -/
def halvingPass {α : Type} (xs : List α) (cmp : α → Ordering) (w : Window xs.length) :
    Result (Next (Window xs.length) ℕ) :=
  if h : 1 < w.size then
    let half := w.size / 2
    let mid := w.base + half
    have hle := w.le
    have hmid : mid < xs.length := by omega
    if cmp xs[mid] = .gt then
      return .again ⟨w.base, w.size - half, by omega, by omega⟩
    else
      return .again ⟨mid, w.size - half, by omega, by omega⟩
  else
    return .leave w.base

/-- The result of the search from a window. -/
def halving {α : Type} (xs : List α) (cmp : α → Ordering) (w : Window xs.length) : Result ℕ :=
  return (binarySearchLoop xs cmp w.base w.size w.pos w.le).val

/-- Half of a window, rounded up, is left. -/
theorem clog_half_lt {size : ℕ} (h : 1 < size) :
    Nat.clog 2 (size - size / 2) < Nat.clog 2 size := by
  have hhalf : (size + 2 - 1) / 2 = size - size / 2 := by omega
  rw [Nat.clog_of_two_le (by decide) h, hhalf]
  exact Nat.lt_succ_self _

theorem halving_hasVariant {α : Type} (xs : List α) (cmp : α → Ordering) :
    HasVariant (halvingPass xs cmp) (halving xs cmp) fun w => Nat.clog 2 w.size := by
  have hunfolds : ∀ w, halving xs cmp w = halvingPass xs cmp w >>= follow (halving xs cmp) := by
    intro w
    unfold halving halvingPass
    rw [binarySearchLoop]
    by_cases h : 1 < w.size
    · simp only [dif_pos h]
      split
      · rfl
      · rfl
    · simp only [dif_neg h]
      rfl
  have hdecreases : ∀ {w w' : Window xs.length}, halvingPass xs cmp w = .ok (.again w') →
      Nat.clog 2 w'.size < Nat.clog 2 w.size := by
    intro w w' hpass
    unfold halvingPass at hpass
    by_cases h : 1 < w.size
    · simp only [dif_pos h] at hpass
      split at hpass
      · cases hpass
        exact clog_half_lt h
      · cases hpass
        exact clog_half_lt h
    · simp only [dif_neg h] at hpass
      cases hpass
  exact ⟨hunfolds, hdecreases⟩

/-- The search ends where the loop does, and the comparator decides there. -/
theorem binarySearchBy_halving {α : Type} (xs : List α) (cmp : α → Ordering)
    (hlen : 0 < xs.length) :
    ∃ base : Fin xs.length,
      halving xs cmp ⟨0, xs.length, hlen, (Nat.zero_add _).le⟩ = .ok base.val ∧
      (cmp xs[base] = .eq → binarySearchBy xs cmp = .ok base.val) ∧
      (cmp xs[base] ≠ .eq → ∃ i, binarySearchBy xs cmp = .error i) := by
  refine ⟨binarySearchLoop xs cmp 0 xs.length hlen (Nat.zero_add _).le, rfl, ?_, ?_⟩
  · intro heq
    unfold binarySearchBy
    rw [dif_neg hlen.ne']
    dsimp only
    rw [heq]
  · intro hne
    unfold binarySearchBy
    rw [dif_neg hlen.ne']
    dsimp only
    generalize cmp xs[binarySearchLoop xs cmp 0 xs.length hlen (Nat.zero_add _).le] = o at hne
    cases o with
    | lt => exact ⟨_, rfl⟩
    | eq => exact absurd rfl hne
    | gt => exact ⟨_, rfl⟩

end Machine
