/-
  MulleFifo.Lib.StaleRegister — a register that is read late.

  Every value the register ever had is kept, oldest first.  A reader may get
  an old value, but none that is older than what it got before: how far it
  has seen is remembered, and `read?` says whether a value can be what it
  reads now.  Where the value occurs more than once the earliest occurrence
  is taken, which leaves the reader the most for later.

  A writer has seen what it wrote (`record`).
-/
import Mathlib.Data.List.Basic
import Mathlib.Data.Option.Basic
import Mathlib.Logic.Function.Basic

namespace Lib

/-- The values of a register, and how far every reader has seen. -/
structure StaleRegister (θ α : Type*) where
  values : List α
  seen : θ → Nat

namespace StaleRegister

variable {θ α : Type*} [DecidableEq θ]

/-- Reader `t` gets `x`, if it can. -/
def read? [DecidableEq α] (r : StaleRegister θ α) (t : θ) (x : α) :
    Option (StaleRegister θ α) :=
  ((r.values.drop (r.seen t)).findIdx? fun y => decide (y = x)).map fun k =>
    { r with seen := Function.update r.seen t (r.seen t + k) }

/-- Thread `t` writes `x`. -/
def record (r : StaleRegister θ α) (t : θ) (x : α) : StaleRegister θ α where
  values := r.values ++ [x]
  seen := Function.update r.seen t r.values.length

/-- **What a reader can get**: any value from where it has seen on. -/
theorem read?_of_getElem? [DecidableEq α] {r : StaleRegister θ α} {t : θ} {x : α} {time : Nat}
    (hseen : r.seen t ≤ time) (hx : r.values[time]? = some x) :
    ∃ r', r.read? t x = some r' ∧ r'.values = r.values ∧ r'.seen t ≤ time
      ∧ ∀ t', t' ≠ t → r'.seen t' = r.seen t' := by
  have hget : (r.values.drop (r.seen t))[time - r.seen t]? = some x := by
    rw [List.getElem?_drop, Nat.add_sub_cancel' hseen]
    exact hx
  cases hfind : (r.values.drop (r.seen t)).findIdx? fun y => decide (y = x) with
  | none =>
      -- then `x` is nowhere
      have hnone := List.findIdx?_eq_none_iff.mp hfind x (List.mem_of_getElem? hget)
      simp at hnone
  | some k =>
      obtain ⟨hk, _, hfirst⟩ := List.findIdx?_eq_some_iff_getElem.mp hfind
      refine ⟨_, congrArg (Option.map _) hfind, rfl, ?_, ?_⟩
      · show Function.update r.seen t (r.seen t + k) t ≤ time
        rw [Function.update_self]
        by_contra hlate
        have hlt : time - r.seen t < k := by omega
        apply hfirst (time - r.seen t) hlt
        have hat := (List.getElem?_eq_some_iff.mp hget).2
        simpa using hat
      · intro t' ht
        show Function.update r.seen t (r.seen t + k) t' = r.seen t'
        rw [Function.update_of_ne ht]

end StaleRegister

end Lib
