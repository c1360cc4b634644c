/-
  MulleFifo.Model.Threads — the program `threads.c`, from `main` to its end.

  `main` initialises a FIFO, creates the producer thread and reads until it
  gets the pointer `last` (1024 in the source), printing every pointer.  Then
  it calls `done`, and only AFTERWARDS joins the producer: the storage is
  freed while the producer may still be inside its last call of `write`.

  The two threads decide at random (`rand() % 8`) whether to use the FIFO or
  to sleep; here the scheduler decides.  The storage is a block of the heap,
  the block malloc answers with, and others may write to every block that is
  not the FIFO's at any time — to the freed one, too.
-/
import MulleFifo.Model.Lifecycle

namespace MulleFifo

open Lib

/-! ## §1. The state. -/

/-- Where `main` is. -/
inductive MainPc
  /-- Before `_mulle_pointerfifo_init`. -/
  | start
  /-- malloc did not return. -/
  | aborted
  /-- In its loop. -/
  | reading
  /-- `goto done;`, about to call `_mulle_pointerfifo_done`. -/
  | tearDown
  /-- In `mulle_thread_join`. -/
  | joining
  /-- Returned. -/
  | finished
  deriving DecidableEq, Repr

/-- The FIFO, the local variables of the two threads and the output. -/
structure ThreadsState where
  life : Life
  /-- The producer's `i`. -/
  i : Nat
  /-- The producer has returned. -/
  quit : Bool
  main : MainPc
  /-- What `main` printed. -/
  printed : List Ptr

/-- What the scheduler and the environment decide. -/
inductive ThreadsAction
  /-- malloc answers, with a block or by aborting. -/
  | init (answer : Option Nat)
  /-- The producer goes on; between calls it may sleep. -/
  | producer (sleep : Bool)
  /-- `main` goes on; between calls it may sleep. -/
  | main (sleep : Bool)
  /-- Others write to their blocks, or to free ones. -/
  | env (heap : Nat → Nat → Ptr)

/-! ## §2. The program. -/

/-- What the return from a call does to the loops. -/
def ThreadsState.after (last : Nat) (s : ThreadsState) : Event → ThreadsState
  | .prod (.ret _ rval) =>
      -- if( ... == -1) ... else { if( i == 1024) goto done; ++i; }
      if rval = -1 then s
      else if s.i = last then { s with quit := true }
      else { s with i := s.i + 1 }
  | .cons (.ret pointer) =>
      -- if( ! pointer) continue;
      if pointer = NULL then s
      else
        { s with
          printed := s.printed ++ [pointer]
          main := if pointer = last then .tearDown else s.main }
  | _ => s

/-- A step of one of the threads in or around the FIFO. -/
def useStep (last : Nat) (s : ThreadsState) (a : Action Unit) :
    Option (ThreadsState × LifeEvent) :=
  (step (heapAtomics .exact) .exact s.life.fifo a).map fun r =>
    ({ s.after last r.2 with life := { s.life with fifo := r.1 } }, .fifo r.2)

/-- The producer's loop. -/
def producerTurn (last : Nat) (s : ThreadsState) (sleep : Bool) :
    Option (ThreadsState × LifeEvent) :=
  if s.quit then none
  else if s.life.fifo.prod.pc = .idle then
    useStep last s (if sleep then .work .producer 0 else .callWrite s.i)
  else useStep last s (.prod ())

/-- `main`, from its loop on. -/
def mainTurn (last : Nat) (s : ThreadsState) (sleep : Bool) :
    Option (ThreadsState × LifeEvent) :=
  match s.main with
  | .reading =>
      if s.life.fifo.cons.pc = .idle then
        useStep last s (if sleep then .work .consumer 0 else .callRead)
      else useStep last s (.cons ())
  -- _mulle_pointerfifo_done( &fifo);
  | .tearDown => some ({ s with life := s.life.done.1, main := .joining }, s.life.done.2)
  -- mulle_thread_join( producer_thread);
  | .joining =>
      if s.quit then some ({ s with main := .finished }, .fifo (.work .consumer 1)) else none
  | _ => none

/-- One step of the program. -/
def threadsStep (size allocator last : Nat) (s : ThreadsState) :
    ThreadsAction → Option (ThreadsState × LifeEvent)
  | .init answer =>
      if s.main = .start then
        match answer with
        | some block =>
            some ({ s with life := s.life.init size allocator block, main := .reading },
              .init size (some (allocator, block)))
        | none =>
            some ({ s with life := { s.life with phase := .aborted }, main := .aborted }, .abort)
      else none
  | .producer sleep =>
      if s.main = .start ∨ s.main = .aborted then none else producerTurn last s sleep
  | .main sleep => mainTurn last s sleep
  | .env heap => some ({ s with life := s.life.scribble heap }, .env)

/-- The program at its start; the struct is on the stack, uninitialised. -/
def threadsInit (life : Life) : ThreadsState where
  life := life
  i := 1
  quit := false
  main := .start
  printed := []

end MulleFifo
