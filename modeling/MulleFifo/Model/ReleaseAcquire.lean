/-
  MulleFifo.Model.ReleaseAcquire — the FIFO over weak memory.

  Less is assumed about mulle-thread here than in `Model.SeqCst`: the
  memory keeps histories, and a load of `n` or of a slot may return any
  value that is not older than what the loading thread knows of (see
  `Lib.ViewMemory`).  The accesses to the slots are plain relaxed accesses;
  an `Order` says how the accesses to `n` are ordered:

    • `releaseAcquire` — a load of `n` acquires, an increment or decrement
      releases.  Whether an update acquires too is left open: results hold
      for both, since an update always carries on what it acted on.

  The choice of the scheduler at a load is the time of the message that is
  loaded.
-/
import MulleFifo.Model.Trace
import MulleFifo.Lib.ViewMemory

namespace MulleFifo

open Lib

/-! ## §1. The memory. -/

/-- The shared atomic locations of `struct mulle_pointerfifo`. -/
inductive Loc
  /-- `p->n`. -/
  | n
  /-- `p->storage[ i]`. -/
  | slot (i : Nat)
  deriving DecidableEq, Repr

/-- What a location holds. -/
abbrev Loc.Val : Loc → Type
  | .n => Int
  | .slot _ => Ptr

/-- The weak memory of the FIFO. -/
abbrev RaMem := ViewMemory Loc Thread Loc.Val

/-- How the accesses to `n` are ordered. -/
structure Order where
  /-- A load of `n` acquires. -/
  loadAcquires : Bool
  /-- An increment or decrement of `n` acquires. -/
  updateAcquires : Bool
  /-- An increment or decrement of `n` releases. -/
  updateReleases : Bool
  deriving DecidableEq, Repr

/-- Release/acquire on `n`. -/
def releaseAcquire (updateAcquires : Bool) : Order := ⟨true, updateAcquires, true⟩

/-- The atomic accesses over a memory of histories and views. -/
def viewAtomics (o : Order) (W : Words) : MemoryModel RaMem Nat := fun t time =>
  { readN := fun m => m.load o.loadAcquires t Loc.n time
    readSlot := fun i m => m.load false t (Loc.slot i) time
    writeSlot := fun i pointer m => some (m.store false t (Loc.slot i) pointer)
    incrementN := fun m => m.modify o.updateAcquires o.updateReleases t Loc.n W.increment
    decrementN := fun m => m.modify o.updateAcquires o.updateReleases t Loc.n W.decrement }

/-! ## §2. The initial state. -/

/-- Every location holds one message, known to everybody: 0 in `n`, and in
the slots what the block `malloc` returned held. -/
def initialMessage (storage : Nat → Ptr) : (l : Loc) → Message Loc l.Val
  | .n => ⟨0, fun _ => 0⟩
  | .slot i => ⟨storage i, fun _ => 0⟩

/-- `_mulle_pointerfifo_init( p, size, allocator)` over weak memory. -/
def pointerfifoInitRa (size : Nat) (storage : Nat → Ptr) : Config RaMem where
  size := size
  mem := { hist := fun l => [initialMessage storage l], view := fun _ _ => 0 }
  prod := { pc := .idle, write := 0 }
  cons := { pc := .idle, read := 0 }

/-- Run a schedule on a freshly initialised FIFO. -/
abbrev raRun (o : Order) (size : Nat) (storage : Nat → Ptr) (as : List (Action Nat)) :
    Option (Config RaMem × List Event) :=
  run (step (viewAtomics o .exact) .exact) (pointerfifoInitRa size storage) as

/-! ## §3. The history of the counter. -/

/-- The changes of `n`: `true` for an increment, `false` for a decrement. -/
@[simp] def Event.update? : Event → Option Bool
  | .prod (.increment _) => some true
  | .cons (.decrement _) => some false
  | _ => none

/-- The increments and decrements of `n`, in order. -/
def updates (tr : List Event) : List Bool := tr.filterMap Event.update?

/-- The increments that the value of `n` at `time` counts. -/
def pushesAt (tr : List Event) (time : Nat) : Nat := ((updates tr).take time).count true

/-- The decrements that the value of `n` at `time` counts. -/
def popsAt (tr : List Event) (time : Nat) : Nat := ((updates tr).take time).count false

@[simp] theorem updates_snoc (tr : List Event) (e : Event) :
    updates (tr ++ [e]) = updates tr ++ e.update?.toList := filterMap_snoc _ tr e

/-- The increments are the pushed pointers, the decrements the popped ones. -/
theorem count_updates (tr : List Event) :
    (updates tr).count true = (pushed tr).length
      ∧ (updates tr).count false = (popped tr).length := by
  induction tr using List.reverseRecOn with
  | nil => exact ⟨rfl, rfl⟩
  | append_singleton tr e ih =>
      obtain ⟨hpush, hpop⟩ := ih
      rw [updates_snoc, pushed_snoc, popped_snoc]
      cases e with
      | prod w => cases w <;> simp [hpush, hpop]
      | cons r => cases r <;> simp [hpush, hpop]
      | _ => simp [hpush, hpop]

/-- Only updates are counted. -/
theorem pushesAt_congr {tr tr' : List Event} (h : updates tr = updates tr') :
    pushesAt tr = pushesAt tr' := by
  unfold pushesAt
  rw [h]

theorem popsAt_congr {tr tr' : List Event} (h : updates tr = updates tr') :
    popsAt tr = popsAt tr' := by
  unfold popsAt
  rw [h]

/-- Later values count more. -/
theorem pushesAt_mono (tr : List Event) {i j : Nat} (h : i ≤ j) :
    pushesAt tr i ≤ pushesAt tr j :=
  (List.take_sublist_take_left h).count_le true

theorem popsAt_mono (tr : List Event) {i j : Nat} (h : i ≤ j) : popsAt tr i ≤ popsAt tr j :=
  (List.take_sublist_take_left h).count_le false

/-- The newest value counts everything. -/
theorem pushesAt_newest (tr : List Event) {time : Nat} (h : (updates tr).length ≤ time) :
    pushesAt tr time = (pushed tr).length := by
  unfold pushesAt
  rw [List.take_of_length_le h, (count_updates tr).1]

theorem popsAt_newest (tr : List Event) {time : Nat} (h : (updates tr).length ≤ time) :
    popsAt tr time = (popped tr).length := by
  unfold popsAt
  rw [List.take_of_length_le h, (count_updates tr).2]

theorem pushesAt_le (tr : List Event) (time : Nat) : pushesAt tr time ≤ (pushed tr).length := by
  rw [← (count_updates tr).1]
  exact (List.take_sublist _ _).count_le true

theorem popsAt_le (tr : List Event) (time : Nat) : popsAt tr time ≤ (popped tr).length := by
  rw [← (count_updates tr).2]
  exact (List.take_sublist _ _).count_le false

/-- What an old value counts does not change any more. -/
theorem pushesAt_snoc (tr : List Event) (e : Event) {time : Nat}
    (h : time ≤ (updates tr).length) : pushesAt (tr ++ [e]) time = pushesAt tr time := by
  unfold pushesAt
  rw [updates_snoc, List.take_append_of_le_length h]

theorem popsAt_snoc (tr : List Event) (e : Event) {time : Nat}
    (h : time ≤ (updates tr).length) : popsAt (tr ++ [e]) time = popsAt tr time := by
  unfold popsAt
  rw [updates_snoc, List.take_append_of_le_length h]

/-- It never counts less later. -/
theorem pushesAt_le_snoc (tr : List Event) (e : Event) (time : Nat) :
    pushesAt tr time ≤ pushesAt (tr ++ [e]) time := by
  unfold pushesAt
  rw [updates_snoc, List.take_append, List.count_append]
  omega

theorem popsAt_le_snoc (tr : List Event) (e : Event) (time : Nat) :
    popsAt tr time ≤ popsAt (tr ++ [e]) time := by
  unfold popsAt
  rw [updates_snoc, List.take_append, List.count_append]
  omega

end MulleFifo
