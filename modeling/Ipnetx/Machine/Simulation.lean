/-! # Simulation

    A machine takes commands one after the other; each command changes the
    state and is answered, or stops the run with an error.  Its
    specification is a step relation on states of its own.

    If every step from related states either answers as the specification
    does, or stops where the specification has no step, then whole runs give
    the replies that the specification allows and no others
    (`Simulates.run_iff`).  States that are related to one state of the
    specification cannot be told apart (`Simulates.indistinguishable`). -/

namespace Machine

variable {σ τ κ ω ε : Type}

/-! ## Section 1: Runs -/

/-- Run commands from a state and collect the replies. -/
def runAll (step : σ → κ → Except ε (σ × ω)) : σ → List κ → Except ε (σ × List ω)
  | s, [] => .ok (s, [])
  | s, c :: cs => do
      let (s, o) ← step s c
      let (s, os) ← runAll step s cs
      return (s, o :: os)

theorem runAll_cons_ok {step : σ → κ → Except ε (σ × ω)} {s s' : σ} {c : κ} {o : ω}
    (h : step s c = .ok (s', o)) (cs : List κ) :
    runAll step s (c :: cs) = (do
      let (s'', os) ← runAll step s' cs
      return (s'', o :: os)) := by
  rw [runAll, h]
  rfl

theorem runAll_cons_error {step : σ → κ → Except ε (σ × ω)} {s : σ} {c : κ} {e : ε}
    (h : step s c = .error e) (cs : List κ) : runAll step s (c :: cs) = .error e := by
  rw [runAll, h]
  rfl

/-- A run from `s` through `cs` gives the replies `os`. -/
def Replies (step : σ → κ → Except ε (σ × ω)) (s : σ) (cs : List κ) (os : List ω) : Prop :=
  ∃ s', runAll step s cs = .ok (s', os)

theorem replies_cons_iff {step : σ → κ → Except ε (σ × ω)} {s s' : σ} {c : κ} {o : ω}
    (h : step s c = .ok (s', o)) (cs : List κ) (os : List ω) :
    Replies step s (c :: cs) (o :: os) ↔ Replies step s' cs os := by
  unfold Replies
  rw [runAll_cons_ok h]
  cases hrun : runAll step s' cs with
  | error e =>
    have hno : ¬ ∃ s'', (Except.error e : Except ε (σ × List ω)) = .ok (s'', os) := by
      intro hin
      cases hin.choose_spec
    exact iff_of_false (fun hin => by cases hin.choose_spec) hno
  | ok r =>
    have hmp : (∃ s'', Except.ok (r.1, o :: r.2) = (.ok (s'', o :: os) : Except ε (σ × List ω))) →
        ∃ s'', Except.ok r = (.ok (s'', os) : Except ε (σ × List ω)) := by
      intro hin
      obtain ⟨s'', hs''⟩ := hin
      cases hs''
      exact ⟨_, rfl⟩
    have hmpr : (∃ s'', Except.ok r = (.ok (s'', os) : Except ε (σ × List ω))) →
        ∃ s'', Except.ok (r.1, o :: r.2) = (.ok (s'', o :: os) : Except ε (σ × List ω)) := by
      intro hin
      obtain ⟨s'', hs''⟩ := hin
      cases hs''
      exact ⟨_, rfl⟩
    exact ⟨hmp, hmpr⟩

/-- No program tells the states apart by its replies. -/
def SameReplies (step : σ → κ → Except ε (σ × ω)) (s₁ s₂ : σ) : Prop :=
  ∀ cs os, Replies step s₁ cs os ↔ Replies step s₂ cs os

/-- States that are not told apart are not told apart after a common step. -/
theorem SameReplies.after {step : σ → κ → Except ε (σ × ω)} {s₁ s₂ s₁' s₂' : σ} {c : κ} {o : ω}
    (h : SameReplies step s₁ s₂) (h₁ : step s₁ c = .ok (s₁', o)) (h₂ : step s₂ c = .ok (s₂', o)) :
    SameReplies step s₁' s₂' := by
  intro cs os
  rw [← replies_cons_iff h₁, ← replies_cons_iff h₂]
  exact h (c :: cs) (o :: os)

/-- States that are not told apart answer alike. -/
theorem SameReplies.reply_eq {step : σ → κ → Except ε (σ × ω)} {s₁ s₂ s₁' s₂' : σ} {c : κ}
    {o₁ o₂ : ω} (h : SameReplies step s₁ s₂) (h₁ : step s₁ c = .ok (s₁', o₁))
    (h₂ : step s₂ c = .ok (s₂', o₂)) : o₁ = o₂ := by
  have hone : Replies step s₁ [c] [o₁] := (replies_cons_iff h₁ [] []).mpr ⟨s₁', rfl⟩
  obtain ⟨s'', hs''⟩ := (h [c] [o₁]).mp hone
  rw [runAll_cons_ok h₂] at hs''
  cases hs''
  rfl

/-- Runs of a specification. -/
inductive Runs (Step : τ → κ → τ → ω → Prop) : τ → List κ → τ → List ω → Prop where
  | nil (t : τ) : Runs Step t [] t []
  | cons {t t' t'' : τ} {c : κ} {cs : List κ} {o : ω} {os : List ω} :
      Step t c t' o → Runs Step t' cs t'' os → Runs Step t (c :: cs) t'' (o :: os)

/-! ## Section 2: From steps to runs -/

/-- From related states every command is answered as in the specification, or stops with an
    allowed error where the specification has no step. -/
structure Simulates (step : σ → κ → Except ε (σ × ω)) (Step : τ → κ → τ → ω → Prop)
    (R : σ → τ → Prop) (Allowed : ε → Prop) : Prop where
  step_cases : ∀ {s : σ} {t : τ} (c : κ), R s t →
    (∃ s' t' o, step s c = .ok (s', o) ∧ Step t c t' o ∧ R s' t') ∨
    ∃ e, step s c = .error e ∧ Allowed e ∧ ∀ t' o, ¬ Step t c t' o
  deterministic : ∀ {t t₁ t₂ : τ} {c : κ} {o₁ o₂ : ω},
    Step t c t₁ o₁ → Step t c t₂ o₂ → t₁ = t₂ ∧ o₁ = o₂

section
variable {step : σ → κ → Except ε (σ × ω)} {Step : τ → κ → τ → ω → Prop} {R : σ → τ → Prop}
  {Allowed : ε → Prop}

/-- A run either finishes along a run of the specification, or stops with an allowed error where
    the specification has no run. -/
theorem Simulates.run_cases (h : Simulates step Step R Allowed) (cs : List κ) {s : σ} {t : τ}
    (hst : R s t) :
    (∃ s' t' os, runAll step s cs = .ok (s', os) ∧ Runs Step t cs t' os ∧ R s' t') ∨
    ∃ e, runAll step s cs = .error e ∧ Allowed e ∧ ∀ t' os, ¬ Runs Step t cs t' os := by
  induction cs generalizing s t with
  | nil => exact Or.inl ⟨s, t, [], rfl, .nil t, hst⟩
  | cons c cs ih =>
    rcases h.step_cases c hst with ⟨s₁, t₁, o, hstep, hspec, hst₁⟩ | ⟨e, hstep, he, hnone⟩
    · rcases ih hst₁ with ⟨s₂, t₂, os, hrun, hruns, hst₂⟩ | ⟨e, hrun, he, hnone⟩
      · have hall : runAll step s (c :: cs) = .ok (s₂, o :: os) := by
          rw [runAll_cons_ok hstep, hrun]
          rfl
        exact Or.inl ⟨s₂, t₂, o :: os, hall, .cons hspec hruns, hst₂⟩
      · have hall : runAll step s (c :: cs) = .error e := by
          rw [runAll_cons_ok hstep, hrun]
          rfl
        refine Or.inr ⟨e, hall, he, ?_⟩
        intro t' os hruns
        cases hruns with
        | cons hspec' hruns' =>
          -- the specification has no other first step
          obtain ⟨rfl, rfl⟩ := h.deterministic hspec hspec'
          exact hnone _ _ hruns'
    · refine Or.inr ⟨e, runAll_cons_error hstep cs, he, ?_⟩
      intro t' os hruns
      cases hruns with
      | cons hspec _ => exact hnone _ _ hspec

/-- Runs of the specification have one outcome. -/
theorem Simulates.runs_unique (h : Simulates step Step R Allowed) {t t₁ t₂ : τ} {cs : List κ}
    {os₁ os₂ : List ω} (h₁ : Runs Step t cs t₁ os₁) (h₂ : Runs Step t cs t₂ os₂) :
    t₁ = t₂ ∧ os₁ = os₂ := by
  induction h₁ generalizing t₂ os₂ with
  | nil t =>
    cases h₂
    exact ⟨rfl, rfl⟩
  | cons hspec _ ih =>
    cases h₂ with
    | cons hspec' hruns' =>
      obtain ⟨rfl, rfl⟩ := h.deterministic hspec hspec'
      obtain ⟨rfl, rfl⟩ := ih hruns'
      exact ⟨rfl, rfl⟩

/-- **Trace equality.**  The machine gives exactly the replies of the specification. -/
theorem Simulates.run_iff (h : Simulates step Step R Allowed) {s : σ} {t : τ} (hst : R s t)
    (cs : List κ) (os : List ω) : Replies step s cs os ↔ ∃ t', Runs Step t cs t' os := by
  rcases h.run_cases cs hst with ⟨s', t', os', hrun, hruns, _⟩ | ⟨e, hrun, _, hnone⟩
  · have hmp : Replies step s cs os → ∃ t', Runs Step t cs t' os := by
      intro hin
      obtain ⟨s'', hs''⟩ := hin
      rw [hrun, Except.ok.injEq, Prod.mk.injEq] at hs''
      exact ⟨t', hs''.2 ▸ hruns⟩
    have hmpr : (∃ t', Runs Step t cs t' os) → Replies step s cs os := by
      intro hin
      obtain ⟨t'', ht''⟩ := hin
      exact ⟨s', (h.runs_unique hruns ht'').2 ▸ hrun⟩
    exact ⟨hmp, hmpr⟩
  · have hno : ¬ Replies step s cs os := by
      intro hin
      obtain ⟨s'', hs''⟩ := hin
      rw [hrun] at hs''
      cases hs''
    exact iff_of_false hno fun hin => hnone _ _ hin.choose_spec

/-- A run stops with allowed errors only. -/
theorem Simulates.run_error (h : Simulates step Step R Allowed) {s : σ} {t : τ} (hst : R s t)
    {cs : List κ} {e : ε} (hrun : runAll step s cs = .error e) : Allowed e := by
  rcases h.run_cases cs hst with ⟨s', t', os, hok, _⟩ | ⟨e', herror, he', _⟩
  · rw [hok] at hrun
    cases hrun
  · rw [herror, Except.error.injEq] at hrun
    exact hrun ▸ he'

/-- **Indistinguishable states.**  States related to one state of the specification give the same
    replies to all commands. -/
theorem Simulates.indistinguishable (h : Simulates step Step R Allowed) {s₁ s₂ : σ} {t : τ}
    (h₁ : R s₁ t) (h₂ : R s₂ t) : SameReplies step s₁ s₂ :=
  fun cs os => (h.run_iff h₁ cs os).trans (h.run_iff h₂ cs os).symm

end

end Machine
