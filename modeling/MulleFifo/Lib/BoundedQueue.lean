/-
  MulleFifo.Lib.BoundedQueue — a bounded FIFO queue, and callers of an
  atomic object.

  `BoundedQueue α cap` carries its bound: a value with more than `cap`
  items cannot be built, so `push?` refuses exactly when the queue is full
  and `pop?` exactly when it is empty.

  `Caller` is one caller of an ATOMIC object.  A call is invoked, takes
  effect once, and is answered with the result fixed when it took effect:

      idle → pending op → answered op result → idle

  An object whose operations change its state only when a pending call is
  answered is linearizable by construction: the effects are totally
  ordered and each lies between its invocation and its response.
-/
import Mathlib.Data.List.Basic
import Mathlib.Data.Option.Basic

namespace Lib

/-! ## §1. The bounded queue. -/

/-- A queue of at most `cap` items, oldest first. -/
structure BoundedQueue (α : Type*) (cap : Nat) where
  items : List α
  bounded : items.length ≤ cap

namespace BoundedQueue

variable {α : Type*} {cap : Nat}

/-- The empty queue. -/
def empty (α : Type*) (cap : Nat) : BoundedQueue α cap := ⟨[], Nat.zero_le cap⟩

@[ext] theorem ext {q q' : BoundedQueue α cap} (h : q.items = q'.items) : q = q' := by
  cases q
  cases q'
  cases h
  rfl

/-- Append an item, unless the queue is full. -/
def push? (q : BoundedQueue α cap) (x : α) : Option (BoundedQueue α cap) :=
  if h : q.items.length < cap then
    some ⟨q.items ++ [x], by simpa [Nat.succ_le_iff] using h⟩
  else none

/-- Remove the oldest item, unless the queue is empty. -/
def pop? (q : BoundedQueue α cap) : Option (α × BoundedQueue α cap) :=
  match q with
  | ⟨[], _⟩ => none
  | ⟨x :: xs, h⟩ => some (x, ⟨xs, Nat.le_of_succ_le h⟩)

theorem push?_some {q q' : BoundedQueue α cap} {x : α} (h : q'.items = q.items ++ [x]) :
    q.push? x = some q' := by
  have hlt : q.items.length < cap := by
    have hb := q'.bounded
    rw [h, List.length_append, List.length_singleton] at hb
    omega
  rw [push?, dif_pos hlt]
  exact congrArg some (ext h.symm)

theorem pop?_some {q q' : BoundedQueue α cap} {x : α} (h : q.items = x :: q'.items) :
    q.pop? = some (x, q') := by
  obtain ⟨items, hb⟩ := q
  subst h
  rfl

end BoundedQueue

/-! ## §2. Callers of an atomic object. -/

/-- One caller: between calls, waiting for its call to take effect, or
about to return the result. -/
inductive Caller (op res : Type*)
  | idle
  | pending (o : op)
  | answered (o : op) (r : res)
  deriving DecidableEq

namespace Caller

variable {op res : Type*}

/-- Invoke an operation. -/
def invoke (o : op) : Caller op res → Option (Caller op res)
  | .idle => some (.pending o)
  | _ => none

/-- The operation is under way and has not taken effect. -/
def waiting [DecidableEq op] (o : op) : Caller op res → Bool
  | .pending o' => o' = o
  | _ => false

/-- The operation takes effect and its result is fixed. -/
def answer [DecidableEq op] (o : op) (r : res) : Caller op res → Option (Caller op res)
  | .pending o' => if o' = o then some (.answered o r) else none
  | _ => none

/-- Return the result that was fixed. -/
def respond [DecidableEq op] [DecidableEq res] (o : op) (r : res) :
    Caller op res → Option (Caller op res)
  | .answered o' r' => if o' = o ∧ r' = r then some .idle else none
  | _ => none

@[simp] theorem invoke_idle (o : op) : (idle : Caller op res).invoke o = some (.pending o) := rfl

@[simp] theorem waiting_pending [DecidableEq op] (o : op) :
    (pending o : Caller op res).waiting o = true := by
  simp [waiting]

@[simp] theorem answer_pending [DecidableEq op] (o : op) (r : res) :
    (pending o : Caller op res).answer o r = some (.answered o r) := by
  simp [answer]

@[simp] theorem respond_answered [DecidableEq op] [DecidableEq res] (o : op) (r : res) :
    (answered o r : Caller op res).respond o r = some .idle := by
  simp [respond]

end Caller

end Lib
