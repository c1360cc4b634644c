/-
  MulleFifo.Lib.Runs — runs of a machine that shows one event a step.

  A machine is a partial step function `σ → α → Option (σ × ε)`: from a
  state, an action is either not enabled or leads to ONE next state and
  shows ONE event.  A schedule is a list of actions; `run` executes it and
  collects the trace.  Nondeterminism lives in the schedule alone, so a
  theorem about every schedule is a theorem about every interleaving.

  The rules:

    • `run_snoc`/`run_append` — a run grows at its end, and composes,
    • `run_invariant`   — an assertion about (trace, state) that starts
      true and survives every step holds after every run,
    • `run_split_event` — the state in which a given event of the trace
      was shown, with the run before it and the run after it,
    • `replay_of_run`   — forward simulation: a second machine that reads
      the events of the first accepts the whole trace,
    • `run_lockstep`    — two machines under one schedule that agree step
      by step agree on whole runs (both stuck, or same events),
    • `run_view`        — the same through views of the states, each machine
      with its own invariant,
    • `run_map`         — a machine embedded in another,
    • `run_choose`      — a machine whose steps are those of another, under
      another schedule that looks the same,
    • `run_congr`       — machines that take equal steps wherever an
      invariant holds have equal runs.
-/
import Mathlib.Data.List.Induction
import Mathlib.Data.Option.Basic

namespace Lib

variable {σ τ α ε : Type*}

/-! ## §1. Running a schedule. -/

/-- Execute a schedule: the last state and the trace of events, or `none`
when some action is not enabled. -/
def run (step : σ → α → Option (σ × ε)) : σ → List α → Option (σ × List ε)
  | s, [] => some (s, [])
  | s, a :: as =>
      match step s a with
      | none => none
      | some (s', e) => (run step s' as).map fun r => (r.1, e :: r.2)

variable {step : σ → α → Option (σ × ε)}

theorem run_nil (s : σ) : run step s [] = some (s, []) := rfl

theorem run_cons_some {s s' : σ} {a : α} {as : List α} {tr : List ε} :
    run step s (a :: as) = some (s', tr) ↔
      ∃ m e es, step s a = some (m, e) ∧ run step m as = some (s', es) ∧ tr = e :: es := by
  cases hs : step s a with
  | none => simp [run, hs]
  | some r =>
      obtain ⟨m, e⟩ := r
      simp only [run, hs, Option.map_eq_some_iff, Prod.mk.injEq, Option.some.injEq]
      constructor
      · rintro ⟨⟨t, es⟩, hr, rfl, rfl⟩
        exact ⟨m, e, es, ⟨rfl, rfl⟩, hr, rfl⟩
      · rintro ⟨_, _, es, ⟨rfl, rfl⟩, hr, rfl⟩
        exact ⟨(s', es), hr, rfl, rfl⟩

/-- **Runs compose**, and a run of a concatenation splits. -/
theorem run_append {s s' : σ} {as bs : List α} {tr : List ε} :
    run step s (as ++ bs) = some (s', tr) ↔
      ∃ m es fs, run step s as = some (m, es) ∧ run step m bs = some (s', fs)
        ∧ tr = es ++ fs := by
  induction as generalizing s tr with
  | nil => simp [run_nil]
  | cons a as ih =>
      rw [List.cons_append, run_cons_some]
      constructor
      · rintro ⟨m, e, es, ha, hr, rfl⟩
        obtain ⟨k, fs, gs, h1, h2, rfl⟩ := ih.mp hr
        exact ⟨k, e :: fs, gs, run_cons_some.mpr ⟨m, e, fs, ha, h1, rfl⟩, h2, rfl⟩
      · rintro ⟨k, es, fs, h1, h2, rfl⟩
        obtain ⟨m, e, es', ha, hr, rfl⟩ := run_cons_some.mp h1
        exact ⟨m, e, es' ++ fs, ha, ih.mpr ⟨k, es', fs, hr, h2, rfl⟩, rfl⟩

/-- A run ending in one more action. -/
theorem run_snoc {s s' : σ} {as : List α} {a : α} {tr : List ε} :
    run step s (as ++ [a]) = some (s', tr) ↔
      ∃ m es e, run step s as = some (m, es) ∧ step m a = some (s', e)
        ∧ tr = es ++ [e] := by
  rw [run_append]
  constructor
  · rintro ⟨m, es, fs, h1, h2, rfl⟩
    obtain ⟨k, e, gs, ha, hn, rfl⟩ := run_cons_some.mp h2
    simp only [run_nil, Option.some.injEq, Prod.mk.injEq] at hn
    obtain ⟨rfl, rfl⟩ := hn
    exact ⟨m, es, e, h1, ha, rfl⟩
  · rintro ⟨m, es, e, h1, ha, rfl⟩
    exact ⟨m, es, [e], h1, run_cons_some.mpr ⟨s', e, [], ha, rfl, rfl⟩, rfl⟩

/-! ## §2. Invariants of runs. -/

/-- **The invariant rule**: an assertion about the trace so far and the
state, true at the start and kept by every step, holds after every run. -/
theorem run_invariant {P : List ε → σ → Prop} {s₀ : σ} (h0 : P [] s₀)
    (hstep : ∀ tr s a s' e, P tr s → step s a = some (s', e) → P (tr ++ [e]) s')
    {as : List α} {s : σ} {tr : List ε} (h : run step s₀ as = some (s, tr)) :
    P tr s := by
  induction as using List.reverseRecOn generalizing s tr with
  | nil =>
      simp only [run_nil, Option.some.injEq, Prod.mk.injEq] at h
      obtain ⟨rfl, rfl⟩ := h
      exact h0
  | append_singleton as a ih =>
      obtain ⟨m, es, e, hr, ha, rfl⟩ := run_snoc.mp h
      exact hstep es m a s e (ih hr) ha

/-! ## §3. Taking a run apart at its trace. -/

/-- A run splits wherever its trace does. -/
theorem run_split {s s' : σ} {as : List α} {es fs : List ε}
    (h : run step s as = some (s', es ++ fs)) :
    ∃ m as₁ as₂, as = as₁ ++ as₂ ∧ run step s as₁ = some (m, es)
      ∧ run step m as₂ = some (s', fs) := by
  induction es generalizing s as with
  | nil => exact ⟨s, [], as, rfl, rfl, h⟩
  | cons e es ih =>
      cases as with
      | nil => simp [run_nil] at h
      | cons a as =>
          obtain ⟨m, e', tr, ha, hr, he⟩ := run_cons_some.mp h
          obtain ⟨rfl, rfl⟩ := List.cons.inj he
          obtain ⟨k, as₁, as₂, rfl, h1, h2⟩ := ih hr
          exact ⟨k, a :: as₁, as₂, rfl, run_cons_some.mpr ⟨m, e, es, ha, h1, rfl⟩, h2⟩

/-- **The step that showed an event**, with the run before and after it. -/
theorem run_split_event {s s' : σ} {as : List α} {es fs : List ε} {e : ε}
    (h : run step s as = some (s', es ++ e :: fs)) :
    ∃ m m' as₁ a as₂, as = as₁ ++ a :: as₂ ∧ run step s as₁ = some (m, es)
      ∧ step m a = some (m', e) ∧ run step m' as₂ = some (s', fs) := by
  obtain ⟨m, as₁, as₂, rfl, h1, h2⟩ := run_split h
  cases as₂ with
  | nil => simp [run_nil] at h2
  | cons a as₂ =>
      obtain ⟨m', e', tr, ha, hr, he⟩ := run_cons_some.mp h2
      obtain ⟨rfl, rfl⟩ := List.cons.inj he
      exact ⟨m, m', as₁, a, as₂, rfl, h1, ha, hr⟩

/-! ## §4. Simulations. -/

/-- A second machine fed with events. -/
def replay (accept : τ → ε → Option τ) : τ → List ε → Option τ
  | t, [] => some t
  | t, e :: es => (accept t e).bind fun t' => replay accept t' es

theorem replay_append (accept : τ → ε → Option τ) (t : τ) (es fs : List ε) :
    replay accept t (es ++ fs)
      = (replay accept t es).bind fun t' => replay accept t' fs := by
  induction es generalizing t with
  | nil => rfl
  | cons e es ih =>
      simp only [List.cons_append, replay, Option.bind_assoc]
      congr 1
      funext t'
      exact ih t'

/-- **Forward simulation**: when every step of the machine can be followed
by the second machine reading its event, the second machine accepts the
trace of every run. -/
theorem replay_of_run {accept : τ → ε → Option τ} {R : List ε → σ → τ → Prop}
    {s₀ : σ} {t₀ : τ} (h0 : R [] s₀ t₀)
    (hstep : ∀ tr s t a s' e, R tr s t → step s a = some (s', e) →
      ∃ t', accept t e = some t' ∧ R (tr ++ [e]) s' t')
    {as : List α} {s : σ} {tr : List ε} (h : run step s₀ as = some (s, tr)) :
    ∃ t, replay accept t₀ tr = some t ∧ R tr s t := by
  induction as using List.reverseRecOn generalizing s tr with
  | nil =>
      simp only [run_nil, Option.some.injEq, Prod.mk.injEq] at h
      obtain ⟨rfl, rfl⟩ := h
      exact ⟨t₀, rfl, h0⟩
  | append_singleton as a ih =>
      obtain ⟨m, es, e, hr, ha, rfl⟩ := run_snoc.mp h
      obtain ⟨t, ht, hR⟩ := ih hr
      obtain ⟨t', ht', hR'⟩ := hstep es m t a s e hR ha
      refine ⟨t', ?_, hR'⟩
      rw [replay_append, ht]
      simp [replay, ht']

/-- **Lockstep**: two machines under one schedule.  When related states
take every action the same way — both refuse it, or both show the same
event and stay related — whole runs do. -/
theorem run_lockstep {step' : τ → α → Option (τ × ε)} {R : List ε → σ → τ → Prop}
    {s₀ : σ} {t₀ : τ} (h0 : R [] s₀ t₀)
    (hstep : ∀ tr s t a, R tr s t →
      Option.Rel (fun x y => x.2 = y.2 ∧ R (tr ++ [x.2]) x.1 y.1) (step s a) (step' t a))
    (as : List α) :
    Option.Rel (fun x y => x.2 = y.2 ∧ R x.2 x.1 y.1)
      (run step s₀ as) (run step' t₀ as) := by
  -- generalised over the trace that led to the two states
  have key : ∀ (as : List α) (tr : List ε) (s : σ) (t : τ), R tr s t →
      Option.Rel (fun x y => x.2 = y.2 ∧ R (tr ++ x.2) x.1 y.1)
        (run step s as) (run step' t as) := by
    intro as
    induction as with
    | nil => intro tr s t hR; exact .some ⟨rfl, by simpa using hR⟩
    | cons a as ih =>
        intro tr s t hR
        have h := hstep tr s t a hR
        cases hs : step s a with
        | none =>
            rw [hs] at h
            cases ht : step' t a with
            | none => simp only [run, hs, ht]; exact .none
            | some y => rw [ht] at h; cases h
        | some x =>
            rw [hs] at h
            cases ht : step' t a with
            | none => rw [ht] at h; cases h
            | some y =>
                rw [ht] at h
                obtain ⟨s', e⟩ := x
                obtain ⟨t', e'⟩ := y
                cases h with
                | some hxy =>
                    obtain ⟨he, hR'⟩ := hxy
                    simp only at he hR'
                    subst he
                    have hrest := ih (tr ++ [e]) s' t' hR'
                    simp only [run, hs, ht]
                    generalize run step s' as = rs at hrest ⊢
                    generalize run step' t' as = rt at hrest ⊢
                    cases hrest with
                    | none => exact .none
                    | some hr =>
                        refine .some ⟨?_, ?_⟩
                        · simp [hr.1]
                        · simpa using hr.2
  simpa using key as [] s₀ t₀ h0

/-- A machine embedded in another: its runs are those of the other. -/
theorem run_map {step' : τ → α → Option (τ × ε)} {f : σ → τ}
    (hstep : ∀ s a, step' (f s) a = (step s a).map fun x => (f x.1, x.2)) (s : σ) (as : List α) :
    run step' (f s) as = (run step s as).map fun x => (f x.1, x.2) := by
  induction as generalizing s with
  | nil => rfl
  | cons a as ih =>
      unfold run
      rw [hstep]
      cases hs : step s a with
      | none => rfl
      | some x =>
          show (run step' (f x.1) as).map _ = ((run step x.1 as).map _).map _
          rw [ih x.1, Option.map_map, Option.map_map]
          rfl

/-- **Choices**: where every step is a step of the second machine, for an
action that looks the same, every run is a run of the second machine. -/
theorem run_choose {β γ : Type*} {step' : σ → β → Option (σ × ε)} {f : α → γ} {g : β → γ}
    (hstep : ∀ s a r, step s a = some r → ∃ b, g b = f a ∧ step' s b = some r) {s s' : σ}
    {as : List α} {tr : List ε} (h : run step s as = some (s', tr)) :
    ∃ bs, bs.map g = as.map f ∧ run step' s bs = some (s', tr) := by
  induction as generalizing s tr with
  | nil => exact ⟨[], rfl, h⟩
  | cons a as ih =>
      obtain ⟨m, e, es, ha, hr, rfl⟩ := run_cons_some.mp h
      obtain ⟨b, hb, hs⟩ := hstep s a _ ha
      obtain ⟨bs, hbs, hrun⟩ := ih hr
      refine ⟨b :: bs, ?_, run_cons_some.mpr ⟨m, e, es, hs, hrun, rfl⟩⟩
      rw [List.map_cons, List.map_cons, hb, hbs]

/-- **Lockstep of two views**: two machines whose states satisfy their own
invariants and look the same after equal steps look the same after runs. -/
theorem run_view {γ : Type*} {step' : τ → α → Option (τ × ε)} {P : List ε → σ → Prop}
    {P' : List ε → τ → Prop} (v : σ → γ) (v' : τ → γ) {s₀ : σ} {t₀ : τ}
    (h0 : P [] s₀) (h0' : P' [] t₀) (hv : v s₀ = v' t₀)
    (hkeep : ∀ tr s a s' e, P tr s → step s a = some (s', e) → P (tr ++ [e]) s')
    (hkeep' : ∀ tr t a t' e, P' tr t → step' t a = some (t', e) → P' (tr ++ [e]) t')
    (hstep : ∀ tr s t a, P tr s → P' tr t → v s = v' t →
      (step s a).map (fun x => (v x.1, x.2)) = (step' t a).map fun y => (v' y.1, y.2))
    (as : List α) :
    (run step s₀ as).map (fun x => (v x.1, x.2))
      = (run step' t₀ as).map fun y => (v' y.1, y.2) := by
  have hlock : Option.Rel (fun x y => x.2 = y.2 ∧ P x.2 x.1 ∧ P' x.2 y.1 ∧ v x.1 = v' y.1)
      (run step s₀ as) (run step' t₀ as) := by
    refine run_lockstep (R := fun tr s t => P tr s ∧ P' tr t ∧ v s = v' t) ⟨h0, h0', hv⟩ ?_ as
    intro tr s t a hR
    obtain ⟨hP, hP', hview⟩ := hR
    have hmap := hstep tr s t a hP hP' hview
    cases hs : step s a with
    | none =>
        rw [hs, Option.map_none, eq_comm, Option.map_eq_none_iff] at hmap
        rw [hmap]
        exact .none
    | some x =>
        rw [hs, Option.map_some, eq_comm, Option.map_eq_some_iff] at hmap
        obtain ⟨y, hy, hxy⟩ := hmap
        obtain ⟨hvy, hey⟩ := Prod.mk.inj hxy
        rw [hy]
        refine .some ⟨hey.symm, hkeep tr s a x.1 x.2 hP hs, ?_, hvy.symm⟩
        rw [← hey]
        exact hkeep' tr t a y.1 y.2 hP' hy
  generalize run step s₀ as = r at hlock ⊢
  generalize run step' t₀ as = r' at hlock ⊢
  cases hlock with
  | none => rfl
  | some hxy => exact congrArg some (Prod.ext hxy.2.2.2 hxy.1)

/-- **Two machines that agree where an invariant holds** have the same runs. -/
theorem run_congr {step' : σ → α → Option (σ × ε)} {P : List ε → σ → Prop} {s₀ : σ}
    (h0 : P [] s₀) (hkeep : ∀ tr s a s' e, P tr s → step' s a = some (s', e) → P (tr ++ [e]) s')
    (hagree : ∀ tr s a, P tr s → step s a = step' s a) (as : List α) :
    run step s₀ as = run step' s₀ as := by
  have hkeep' : ∀ tr s a s' e, P tr s → step s a = some (s', e) → P (tr ++ [e]) s' := by
    intro tr s a s' e hP hs
    rw [hagree tr s a hP] at hs
    exact hkeep tr s a s' e hP hs
  have hview : (run step s₀ as).map (fun x => (x.1, x.2))
      = (run step' s₀ as).map fun x => (x.1, x.2) := by
    refine run_view (fun s => s) (fun s => s) h0 h0 rfl hkeep' hkeep ?_ as
    intro tr s t a hP _ heq
    rw [hagree tr s a hP, heq]
  simpa using hview

end Lib
