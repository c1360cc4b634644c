/-
  MulleFifo.Model.Lifecycle — init, use, done, and again.

  One struct is used through any number of epochs.  `_mulle_pointerfifo_init`
  sets every field and mallocs the storage, but clears neither the storage
  nor anything else; `_mulle_pointerfifo_done` frees the storage if there is
  one and sets only the pointer to NULL, so it may be called again.

  The storage is a block of a heap that others use too.  What the model
  assumes of the allocator is what the code does: malloc returns a block of
  the requested size that nobody else touches until it is freed (with
  whatever contents are there), or it does not return at all.  Everything
  outside the FIFO's block may change at any time (`env`).

  The fixed FIFO carries its storage in the struct: its init leaves the old
  contents in place and its done does nothing.
-/
import MulleFifo.Model.FixedFamily

namespace MulleFifo

open Lib

/-! ## §1. The storage as a block of the heap. -/

/-- The shared part of `struct mulle_pointerfifo`, and the heap. -/
structure HeapMem where
  n : Int
  /-- `p->storage`: the address of the block, or NULL. -/
  storage : Option Nat
  /-- How many slots were requested for it. -/
  slots : Nat
  /-- The contents of the heap, by block and slot. -/
  heap : Nat → Nat → Ptr

/-- Sequentially consistent atomics on the block: outside of it, and
without a block, there is no slot. -/
def heapAtomics (W : Words) : MemoryModel HeapMem Unit := fun _ _ =>
  { readN := fun m => some (m.n, m)
    readSlot := fun i m => m.storage.bind fun block =>
      if i < m.slots then some (m.heap block i, m) else none
    writeSlot := fun i pointer m => m.storage.bind fun block =>
      if i < m.slots then
        some { m with
          heap := Function.update m.heap block (Function.update (m.heap block) i pointer) }
      else none
    incrementN := fun m => { m with n := W.increment m.n }
    decrementN := fun m => { m with n := W.decrement m.n } }

/-! ## §2. The life of a dynamic FIFO. -/

/-- Where the struct is in its life. -/
inductive Phase
  /-- Never initialised. -/
  | raw
  /-- Between `init` and the first `done`. -/
  | opened
  /-- After a `done`. -/
  | closed
  /-- malloc did not return. -/
  | aborted
  deriving DecidableEq, Repr

/-- `struct mulle_pointerfifo` and its allocator. -/
structure Life where
  fifo : Config HeapMem
  /-- `p->allocator`. -/
  allocator : Nat
  phase : Phase

/-- The block that belongs to the FIFO. -/
def Life.owned (s : Life) : Option Nat :=
  if s.phase = .opened then s.fifo.mem.storage else none

/-- Both threads are between calls. -/
def AtRest (p : Producer) (c : Consumer) : Prop := p.pc = .idle ∧ c.pc = .idle

instance (p : Producer) (c : Consumer) : Decidable (AtRest p c) :=
  inferInstanceAs (Decidable (_ ∧ _))

/-- What happens to the struct. -/
inductive LifeAction
  /-- `_mulle_pointerfifo_init( p, size, allocator)`; malloc returns the
  block in `answer`, or aborts. -/
  | init (size allocator : Nat) (answer : Option Nat)
  /-- A step of the threads that use the FIFO. -/
  | fifo (a : Action Unit)
  /-- `_mulle_pointerfifo_done( p)`. -/
  | done
  /-- Others write to their blocks, or to free ones. -/
  | env (heap : Nat → Nat → Ptr)

/-- What it shows: a malloc or free comes with its allocator and block. -/
inductive LifeEvent
  | init (size : Nat) (malloc : Option (Nat × Nat))
  | abort
  | fifo (e : Event)
  | done (free : Option (Nat × Nat))
  | env
  deriving DecidableEq, Repr

/-- `_mulle_pointerfifo_init`, when malloc returned `block`. -/
def Life.init (s : Life) (size allocator block : Nat) : Life where
  fifo :=
    { size := size
      mem := { n := 0, storage := some block, slots := size, heap := s.fifo.mem.heap }
      prod := { pc := .idle, write := 0 }
      cons := { pc := .idle, read := 0 } }
  allocator := allocator
  phase := .opened

/-- `_mulle_pointerfifo_done`: `n`, `read`, `write` and `size` stay. -/
def Life.done (s : Life) : Life × LifeEvent :=
  match s.fifo.mem.storage with
  -- mulle_allocator_free( p->allocator, p->storage); p->storage = NULL;
  | some block =>
      ({ s with
          fifo := { s.fifo with mem := { s.fifo.mem with storage := none } }
          phase := .closed },
        .done (some (s.allocator, block)))
  -- if( p->storage) fails: nothing is freed twice
  | none => ({ s with phase := .closed }, .done none)

/-- Others write `heap` to all blocks but the FIFO's. -/
def Life.scribble (s : Life) (heap : Nat → Nat → Ptr) : Life :=
  let heap' block := if s.owned = some block then s.fifo.mem.heap block else heap block
  { s with fifo := { s.fifo with mem := { s.fifo.mem with heap := heap' } } }

/-- One step in the life of the struct.  `init` and `done` are called while
no thread is inside a call, `init` not on an open FIFO, `done` only on one
that was initialised; `init` asserts `size >= 2`. -/
def lifeStep (s : Life) : LifeAction → Option (Life × LifeEvent)
  | .init size allocator answer =>
      if (s.phase = .raw ∨ s.phase = .closed) ∧ AtRest s.fifo.prod s.fifo.cons ∧ 2 ≤ size then
        match answer with
        | some block =>
            some (s.init size allocator block, .init size (some (allocator, block)))
        | none => some ({ s with phase := .aborted }, .abort)
      else none
  | .fifo a =>
      if s.phase = .opened then
        (step (heapAtomics .exact) .exact s.fifo a).map fun r =>
          ({ s with fifo := r.1 }, .fifo r.2)
      else none
  | .done =>
      if (s.phase = .opened ∨ s.phase = .closed) ∧ AtRest s.fifo.prod s.fifo.cons then
        some s.done
      else none
  | .env heap =>
      some (s.scribble heap, .env)

/-! ## §3. The life of a fixed FIFO. -/

/-- `struct mulle__pointerfifo64`, used again and again. -/
structure FixedLife where
  fifo : FixedConfig ScMem
  phase : Phase

/-- What happens to it. -/
inductive FixedLifeAction
  | init
  | fifo (a : Action Unit)
  | done

/-- One step in its life: init leaves the storage in place, done does
nothing. -/
def fixedLifeStep (h : Header) (s : FixedLife) : FixedLifeAction → Option (FixedLife × LifeEvent)
  | .init =>
      if (s.phase = .raw ∨ s.phase = .closed) ∧ AtRest s.fifo.prod s.fifo.cons then
        some (⟨fixedInit s.fifo.mem.storage, .opened⟩, .init h.arrayLength.value none)
      else none
  | .fifo a =>
      if s.phase = .opened then
        (fixedStep h (seqCstArray .exact h.arrayLength.value) .exact s.fifo a).map fun r =>
          ({ s with fifo := r.1 }, .fifo r.2)
      else none
  | .done =>
      if (s.phase = .opened ∨ s.phase = .closed) ∧ AtRest s.fifo.prod s.fifo.cons then
        some ({ s with phase := .closed }, .done none)
      else none

/-! ## §4. Reading a life off its trace. -/

/-- What the event does to the events of the current epoch. -/
def LifeEvent.extend (es : List Event) : LifeEvent → List Event
  | .init _ _ => []
  | .fifo e => es ++ [e]
  | _ => es

/-- The events of the FIFO since the last init. -/
def epoch (tr : List LifeEvent) : List Event := tr.foldl LifeEvent.extend []

@[simp] theorem epoch_snoc (tr : List LifeEvent) (e : LifeEvent) :
    epoch (tr ++ [e]) = e.extend (epoch tr) := by
  unfold epoch
  rw [List.foldl_append]
  rfl

/-- A call of an allocator. -/
inductive AllocEvent
  | malloc (allocator block : Nat)
  | free (allocator block : Nat)
  deriving DecidableEq, Repr

/-- The call of an allocator the event shows. -/
def LifeEvent.alloc? : LifeEvent → Option AllocEvent
  | .init _ (some (allocator, block)) => some (.malloc allocator block)
  | .done (some (allocator, block)) => some (.free allocator block)
  | _ => none

/-- All calls of allocators, in order. -/
def allocLog (tr : List LifeEvent) : List AllocEvent := tr.filterMap LifeEvent.alloc?

@[simp] theorem allocLog_snoc (tr : List LifeEvent) (e : LifeEvent) :
    allocLog (tr ++ [e]) = allocLog tr ++ e.alloc?.toList := by
  unfold allocLog
  rw [List.filterMap_append]
  cases h : e.alloc? with
  | none => simp [h]
  | some x => simp [h]

end MulleFifo
