/-
  MulleFifo.Lib.Fairness — threads that take turns, and getting done.

  A system of threads is a total function `turn`: the state after thread
  `t` had its turn.  (A thread that cannot do anything lets its turn pass.)
  A schedule is an infinite sequence of threads:

    • `Fair`       — every thread has a turn again and again,
    • `FairWithin` — every thread has one in any `w` consecutive turns.

  To show that a system gets done, name in every state ONE thread that is
  helpful, and a rank (`Ranking`): the turn of the helpful thread lowers the
  rank, and nobody else raises it, or, leaving the rank as it is, makes
  another thread the helpful one.  What the others do in between — polling,
  say — does not matter.

    • `Ranking.eventually_done` — a fair schedule gets the system done,
    • `Ranking.done_within`     — in at most `w` turns for each rank.

  Where a turn may also see old values (`θ × Nat`: who, and how new a message
  it is ready for), what the helpful thread does may help nobody, and no
  rank goes down.  Then a schedule must not withhold a message for ever
  (`Attended`), and one counts the steps that last (`Advance`):

    • `Advance.eventually_done` — a fair schedule that withholds nothing for
      ever gets the system done.
-/
import Mathlib.Data.Nat.Init
import Mathlib.Order.OrderIsoNat
import MulleFifo.Lib.Runs

namespace Lib

variable {σ θ : Type*}

/-! ## §1. Schedules. -/

/-- The state after `k` turns. -/
def afterTurns (turn : σ → θ → σ) (s : σ) (turns : Nat → θ) : Nat → σ
  | 0 => s
  | k + 1 => turn (afterTurns turn s turns k) (turns k)

/-- Every thread has a turn again and again. -/
def Fair (turns : Nat → θ) : Prop := ∀ t k, ∃ d, turns (k + d) = t

/-- Every thread has a turn within any `w` consecutive turns. -/
def FairWithin (w : Nat) (turns : Nat → θ) : Prop := ∀ t k, ∃ d < w, turns (k + d) = t

variable {turn : σ → θ → σ} {s : σ} {turns : Nat → θ}

/-- **A run is a beginning of turns**, if every step is one. -/
theorem afterTurns_run {ε : Type*} {step : σ → θ → Option (σ × ε)} {s' : σ} {as : List θ}
    {tr : List ε} (hturn : ∀ s a s' e, step s a = some (s', e) → turn s a = s')
    (h : run step s as = some (s', tr)) (hbegin : ∀ j (hj : j < as.length), turns j = as[j]) :
    afterTurns turn s turns as.length = s' := by
  induction as using List.reverseRecOn generalizing s' tr with
  | nil =>
      simp only [run_nil, Option.some.injEq, Prod.mk.injEq] at h
      exact h.1
  | append_singleton as a ih =>
      obtain ⟨m, es, e, hr, ha, rfl⟩ := run_snoc.mp h
      have hbefore : afterTurns turn s turns as.length = m := by
        refine ih hr fun j hj => ?_
        rw [hbegin j (by rw [List.length_append]; omega), List.getElem_append_left hj]
      have hlast : turns as.length = a := by
        rw [hbegin as.length (by simp)]
        simp
      rw [List.length_append]
      show turn (afterTurns turn s turns as.length) (turns as.length) = s'
      rw [hbefore, hlast]
      exact hturn m a s' e ha

/-- What every turn keeps holds all the time. -/
theorem afterTurns_keep {P : σ → Prop} (h0 : P s) (hkeep : ∀ s t, P s → P (turn s t)) (k : Nat) :
    P (afterTurns turn s turns k) := by
  induction k with
  | zero => exact h0
  | succ k ih => exact hkeep _ _ ih

/-- What every turn keeps holds from the moment on at which it first does. -/
theorem afterTurns_keep_from {P : σ → Prop} {k j : Nat} (hkj : k ≤ j)
    (hk : P (afterTurns turn s turns k)) (hkeep : ∀ s t, P s → P (turn s t)) :
    P (afterTurns turn s turns j) := by
  induction j, hkj using Nat.le_induction with
  | base => exact hk
  | succ j _ ih => exact hkeep _ _ ih

/-- What no turn changes any more stays as it is. -/
theorem afterTurns_stay {k j : Nat} (hkj : k ≤ j)
    (hstay : ∀ t, turn (afterTurns turn s turns k) t = afterTurns turn s turns k) :
    afterTurns turn s turns j = afterTurns turn s turns k := by
  induction j, hkj using Nat.le_induction with
  | base => rfl
  | succ j _ ih =>
      show turn (afterTurns turn s turns j) (turns j) = _
      rw [ih]
      exact hstay _

/-! ## §2. Ranking. -/

/-- A rank and a helpful thread, for the states that satisfy `Inv`. -/
structure Ranking (turn : σ → θ → σ) (Inv Done : σ → Prop) where
  rank : σ → Nat
  helpful : σ → θ
  /-- The turn of the helpful thread lowers the rank. -/
  lower : ∀ s, Inv s → ¬ Done s → rank (turn s (helpful s)) < rank s
  /-- The turn of another thread lowers it, too, or changes neither. -/
  wait : ∀ s t, Inv s → ¬ Done s → t ≠ helpful s →
    rank (turn s t) < rank s ∨ (rank (turn s t) = rank s ∧ helpful (turn s t) = helpful s)
  keep : ∀ s t, Inv s → Inv (turn s t)

namespace Ranking

variable {Inv Done : σ → Prop}

/-- **Until the helpful thread has had its turn** the system got done, or
the rank was lowered. -/
theorem lowered (R : Ranking turn Inv Done) (h0 : Inv s) {d k : Nat}
    (hturn : turns (k + d) = R.helpful (afterTurns turn s turns k)) :
    ∃ i ≤ d, Done (afterTurns turn s turns (k + i))
      ∨ R.rank (afterTurns turn s turns (k + i + 1)) < R.rank (afterTurns turn s turns k) := by
  -- on the number of turns to wait; the helpful thread stays the same
  induction d generalizing k with
  | zero =>
      refine ⟨0, Nat.le_refl 0, ?_⟩
      by_cases hdone : Done (afterTurns turn s turns k)
      · exact .inl hdone
      · right
        show R.rank (turn (afterTurns turn s turns k) (turns k)) < _
        rw [show turns k = _ from hturn]
        exact R.lower _ (afterTurns_keep h0 R.keep k) hdone
  | succ d ih =>
      have hI : Inv (afterTurns turn s turns k) := afterTurns_keep h0 R.keep k
      by_cases hdone : Done (afterTurns turn s turns k)
      · exact ⟨0, Nat.zero_le _, .inl hdone⟩
      by_cases hnow : turns k = R.helpful (afterTurns turn s turns k)
      · refine ⟨0, Nat.zero_le _, .inr ?_⟩
        show R.rank (turn (afterTurns turn s turns k) (turns k)) < _
        rw [hnow]
        exact R.lower _ hI hdone
      · rcases R.wait _ _ hI hdone hnow with hlow | ⟨hrank, hsame⟩
        · exact ⟨0, Nat.zero_le _, .inr hlow⟩
        · have hlater : turns (k + 1 + d) = R.helpful (afterTurns turn s turns (k + 1)) := by
            rw [Nat.add_assoc, Nat.add_comm 1 d, hturn]
            exact hsame.symm
          obtain ⟨i, hi, hout⟩ := ih hlater
          refine ⟨i + 1, Nat.succ_le_succ hi, ?_⟩
          rw [show k + (i + 1) = k + 1 + i by omega]
          rcases hout with hdone' | hlow
          · exact .inl hdone'
          · right
            rw [← hrank]
            exact hlow

/-- **A schedule that is fair to the helpful threads gets the system done.** -/
theorem eventually_done (R : Ranking turn Inv Done) (h0 : Inv s)
    (hfair : ∀ s k, ∃ d, turns (k + d) = R.helpful s) :
    ∃ k, Done (afterTurns turn s turns k) := by
  -- on the rank, from any moment on
  have hfrom : ∀ n k, R.rank (afterTurns turn s turns k) ≤ n →
      ∃ j, Done (afterTurns turn s turns j) := by
    intro n
    induction n with
    | zero =>
        intro k hk
        obtain ⟨d, hd⟩ := hfair (afterTurns turn s turns k) k
        obtain ⟨i, _, hdone | hlow⟩ := R.lowered h0 hd
        · exact ⟨_, hdone⟩
        · omega
    | succ n ih =>
        intro k hk
        obtain ⟨d, hd⟩ := hfair (afterTurns turn s turns k) k
        obtain ⟨i, _, hdone | hlow⟩ := R.lowered h0 hd
        · exact ⟨_, hdone⟩
        · exact ih (k + i + 1) (by omega)
  exact hfrom _ 0 (Nat.le_refl _)

/-- **At most `w` turns for each rank.** -/
theorem done_within (R : Ranking turn Inv Done) (h0 : Inv s) {w : Nat}
    (hfair : ∀ s k, ∃ d < w, turns (k + d) = R.helpful s) :
    ∃ k ≤ w * R.rank s, Done (afterTurns turn s turns k) := by
  have hfrom : ∀ n k, R.rank (afterTurns turn s turns k) ≤ n →
      ∃ j ≤ k + w * n, Done (afterTurns turn s turns j) := by
    intro n
    induction n with
    | zero =>
        intro k hk
        by_cases hdone : Done (afterTurns turn s turns k)
        · exact ⟨k, Nat.le_add_right _ _, hdone⟩
        · have hlow := R.lower _ (afterTurns_keep h0 R.keep k) hdone
          omega
    | succ n ih =>
        intro k hk
        obtain ⟨d, hdw, hd⟩ := hfair (afterTurns turn s turns k) k
        have hmul : w * (n + 1) = w * n + w := Nat.mul_succ w n
        obtain ⟨i, hi, hdone | hlow⟩ := R.lowered h0 hd
        · exact ⟨k + i, by omega, hdone⟩
        · obtain ⟨j, hj, hdone⟩ := ih (k + i + 1) (by omega)
          exact ⟨j, by omega, hdone⟩
  obtain ⟨k, hk, hdone⟩ := hfrom _ 0 (Nat.le_refl _)
  refine ⟨k, ?_, hdone⟩
  rw [Nat.zero_add] at hk
  exact hk

end Ranking

/-! ## §3. Turns that may see old values. -/

/-- No message is withheld for ever: from some turn on a thread is ready for
the message at `time`, whatever `time` is. -/
def Attended (turns : Nat → θ × Nat) : Prop :=
  ∀ t time, ∃ k, ∀ j ≥ k, (turns j).1 = t → time ≤ (turns j).2

/-- What does not go up from some turn on stays as it is in the end. -/
theorem settles {f : Nat → Nat} {k : Nat} (h : ∀ j ≥ k, f (j + 1) ≤ f j) :
    ∃ k' ≥ k, ∀ j ≥ k', f j = f k' := by
  have hanti : Antitone fun i => f (k + i) :=
    antitone_nat_of_succ_le fun i => h (k + i) (Nat.le_add_right k i)
  obtain ⟨n, hn⟩ := WellFoundedLT.antitone_chain_condition hanti
  refine ⟨k + n, Nat.le_add_right k n, ?_⟩
  intro j hj
  obtain ⟨i, rfl⟩ := Nat.exists_eq_add_of_le ((Nat.le_add_right k n).trans hj)
  exact (hn i (by omega)).symm

/-- The steps that last, and a helpful thread for the states in which none
is made.  `newest` is the message it has to see, and `ahead` bounds the
turns it needs until then. -/
structure Advance (turn : σ → θ × Nat → σ) (Inv Done : σ → Prop) where
  made : σ → Nat
  bound : Nat
  helpful : σ → θ
  newest : σ → Nat
  ahead : σ → Nat
  bounded : ∀ s, Inv s → made s ≤ bound
  grows : ∀ s t, Inv s → made s ≤ made (turn s t)
  /-- A turn that does not last leaves everybody where they were. -/
  stands : ∀ s t, Inv s → made (turn s t) = made s →
    helpful (turn s t) = helpful s ∧ newest (turn s t) = newest s
      ∧ (t.1 ≠ helpful s → ahead (turn s t) = ahead s)
  /-- Only the helpful thread gets ahead, if it is ready for the newest message. -/
  helps : ∀ s t, Inv s → ¬ Done s → made (turn s t) = made s → t.1 = helpful s →
    newest s ≤ t.2 → ahead (turn s t) < ahead s
  keep : ∀ s t, Inv s → Inv (turn s t)

/-- **A fair schedule that withholds nothing for ever gets the system done.** -/
theorem Advance.eventually_done {turn : σ → θ × Nat → σ} {Inv Done : σ → Prop}
    {turns : Nat → θ × Nat} (A : Advance turn Inv Done) (h0 : Inv s)
    (hfair : Fair fun k => (turns k).1) (hseen : Attended turns) :
    ∃ k, Done (afterTurns turn s turns k) := by
  by_contra hnever
  have hI (k : Nat) : Inv (afterTurns turn s turns k) := afterTurns_keep h0 A.keep k
  have hnot (k : Nat) : ¬ Done (afterTurns turn s turns k) := fun hdone => hnever ⟨k, hdone⟩
  -- in the end no step lasts any more
  obtain ⟨k₁, _, hmade⟩ := @settles (fun k => A.bound - A.made (afterTurns turn s turns k)) 0
    fun j _ => Nat.sub_le_sub_left (A.grows _ (turns j) (hI j)) _
  have hstill (j : Nat) (hj : k₁ ≤ j) :
      A.made (afterTurns turn s turns (j + 1)) = A.made (afterTurns turn s turns j) := by
    have hnow : A.bound - _ = A.bound - _ := hmade j hj
    have hnext : A.bound - _ = A.bound - _ := hmade (j + 1) (Nat.le_succ_of_le hj)
    have hle := A.bounded _ (hI j)
    have hle' := A.bounded _ (hI (j + 1))
    omega
  -- so the same thread stays helpful, and needs to see the same message
  have hstands (j : Nat) (hj : k₁ ≤ j) := A.stands _ (turns j) (hI j) (hstill j hj)
  have hsame (j : Nat) (hj : k₁ ≤ j) :
      A.helpful (afterTurns turn s turns j) = A.helpful (afterTurns turn s turns k₁)
        ∧ A.newest (afterTurns turn s turns j) = A.newest (afterTurns turn s turns k₁) := by
    induction j, hj using Nat.le_induction with
    | base => exact ⟨rfl, rfl⟩
    | succ j hj ih => exact ⟨(hstands j hj).1.trans ih.1, (hstands j hj).2.1.trans ih.2⟩
  -- from some turn on it is ready for that message
  obtain ⟨k₂, hready⟩ := hseen (A.helpful (afterTurns turn s turns k₁))
    (A.newest (afterTurns turn s turns k₁))
  have hhelps (j : Nat) (hj : k₁ ≤ j) (hj' : k₂ ≤ j)
      (hturn : (turns j).1 = A.helpful (afterTurns turn s turns k₁)) :
      A.ahead (afterTurns turn s turns (j + 1)) < A.ahead (afterTurns turn s turns j) := by
    refine A.helps _ (turns j) (hI j) (hnot j) (hstill j hj) ?_ ?_
    · rw [(hsame j hj).1]
      exact hturn
    · rw [(hsame j hj).2]
      exact hready j hj' hturn
  -- and each of its turns gets it ahead
  obtain ⟨k₃, hk₃, hahead⟩ := @settles (fun k => A.ahead (afterTurns turn s turns k))
    (max k₁ k₂) fun j hj => by
      have hj₁ : k₁ ≤ j := (Nat.le_max_left _ _).trans hj
      by_cases hturn : (turns j).1 = A.helpful (afterTurns turn s turns k₁)
      · exact (hhelps j hj₁ ((Nat.le_max_right _ _).trans hj) hturn).le
      · refine ((hstands j hj₁).2.2 ?_).le
        rw [(hsame j hj₁).1]
        exact hturn
  obtain ⟨d, hd⟩ := hfair (A.helpful (afterTurns turn s turns k₁)) k₃
  have hlow := hhelps (k₃ + d) (by omega) (by omega) hd
  have hstay := hahead (k₃ + d) (Nat.le_add_right _ _)
  have hstay' := hahead (k₃ + d + 1) (by omega)
  omega

end Lib
