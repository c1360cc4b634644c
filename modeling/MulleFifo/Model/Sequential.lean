/-
  MulleFifo.Model.Sequential — the API as one thread calls it.

  Read from top to bottom, `_mulle_pointerfifo_write` and `_read` are
  straight-line code (`writeCall`, `readCall`).  `Plain` holds the functions
  with an underscore, on a struct: they dereference `p` and load what is in
  it, so on a struct that was never initialised, or on a slot of a storage
  that is gone, they have no result (`none`), nor have they when `p` is NULL.
  Only the write of NULL returns before it looks at `p`.  `Safe` holds the
  functions without an underscore: they test `p` first, and NULL gets a
  fixed result.

  The struct, its heap and its life are those of `Model.Lifecycle`; a malloc
  that does not return ends the program and is left out here.  `Fixed` holds
  the functions of a header, which has no function without an underscore.
-/
import MulleFifo.Model.Lifecycle
import MulleFifo.Lib.BoundedQueue

namespace MulleFifo

open Lib

/-! ## §1. The calls, straight through. -/

section Calls

variable {μ : Type}

/-- `_mulle_pointerfifo_write( p, pointer)`: the result, and `p->write` and
the memory after it. -/
def writeCall (A : Atomics μ) (W : Words) (full modulus : Nat) (pointer : Ptr) (write : Nat)
    (m : μ) : Option (Int × Nat × μ) :=
  -- if( ! pointer) return( -2);
  if pointer = NULL then some (-2, write, m)
  else
    (getCount A W m).bind fun r =>
      -- if( _mulle_pointerfifo_get_count( p) == p->size) return( -1);
      if r.1 = full then some (-1, write, r.2)
      else
        (A.writeSlot write pointer r.2).map fun m' =>
          (0, W.succ write % modulus, A.incrementN m')

/-- `_mulle_pointerfifo_read( p)`: the result, and `p->read` and the memory
after it. -/
def readCall (A : Atomics μ) (W : Words) (modulus read : Nat) (m : μ) :
    Option (Ptr × Nat × μ) :=
  (getCount A W m).bind fun r =>
    -- if( ! _mulle_pointerfifo_get_count( p)) return( NULL);
    if r.1 = 0 then some (NULL, read, r.2)
    else
      (A.readSlot read r.2).map fun q => (q.1, W.succ read % modulus, A.decrementN q.2)

end Calls

/-! ## §2. The functions of the header. -/

/-- `init` has set the fields, so they can be loaded. -/
def Life.Initialised (s : Life) : Prop := s.phase = .opened ∨ s.phase = .closed

instance (s : Life) : Decidable s.Initialised := inferInstanceAs (Decidable (_ ∨ _))

namespace Plain

/-- `_mulle_pointerfifo_init( p, size, allocator)`; malloc returns `block`. -/
def init (size allocator block : Nat) (s : Life) : Option (Unit × Life) :=
  -- assert( size >= 2);
  if 2 ≤ size then some ((), s.init size allocator block) else none

/-- `_mulle_pointerfifo_done( p)`. -/
def done (s : Life) : Option (Unit × Life) :=
  if s.Initialised then some ((), s.done.1) else none

/-- `_mulle_pointerfifo_get_count( p)`. -/
def getCount (s : Life) : Option (Nat × Life) :=
  if s.Initialised then
    (MulleFifo.getCount (heapAtomics .exact .producer ()) .exact s.fifo.mem).map fun r => (r.1, s)
  else none

/-- `_mulle_pointerfifo_read( p)`. -/
def read (s : Life) : Option (Ptr × Life) :=
  if s.Initialised then
    (readCall (heapAtomics .exact .consumer ()) .exact s.fifo.size s.fifo.cons.read
        s.fifo.mem).map fun r =>
      (r.1, { s with fifo :=
        { s.fifo with cons := { s.fifo.cons with read := r.2.1 }, mem := r.2.2 } })
  else none

/-- `_mulle_pointerfifo_write( p, pointer)`: NULL is refused before anything
is loaded. -/
def write (pointer : Ptr) (s : Life) : Option (Int × Life) :=
  if pointer = NULL ∨ s.Initialised then
    (writeCall (heapAtomics .exact .producer ()) .exact s.fifo.size s.fifo.size pointer
        s.fifo.prod.write s.fifo.mem).map fun r =>
      (r.1, { s with fifo :=
        { s.fifo with prod := { s.fifo.prod with write := r.2.1 }, mem := r.2.2 } })
  else none

/-- `_mulle_pointerfifo_write( NULL, pointer)`: the pointer is tested first,
and only then is `p` dereferenced. -/
def writeNull (pointer : Ptr) : Option Int :=
  -- if( ! pointer) return( -2);
  if pointer = NULL then some (-2) else none

end Plain

namespace Safe

variable {ρ : Type}

/-- `if( ! p) return( result);`, and then the function with the underscore. -/
def unlessNull (result : ρ) (plain : Life → Option (ρ × Life)) :
    Option Life → Option (ρ × Option Life)
  | none => some (result, none)
  | some s => (plain s).map fun r => (r.1, some r.2)

/-- `mulle_pointerfifo_init( p, size, allocator)`. -/
def init (size allocator block : Nat) : Option Life → Option (Unit × Option Life) :=
  unlessNull () (Plain.init size allocator block)

/-- `mulle_pointerfifo_done( p)`. -/
def done : Option Life → Option (Unit × Option Life) := unlessNull () Plain.done

/-- `mulle_pointerfifo_get_count( p)`. -/
def getCount : Option Life → Option (Nat × Option Life) := unlessNull 0 Plain.getCount

/-- `mulle_pointerfifo_read( p)`. -/
def read : Option Life → Option (Ptr × Option Life) := unlessNull NULL Plain.read

/-- `mulle_pointerfifo_write( p, pointer)`. -/
def write (pointer : Ptr) : Option Life → Option (Int × Option Life) :=
  unlessNull (-1) (Plain.write pointer)

end Safe

/-! ## §3. A program of calls. -/

/-- A call of the API, with the block that malloc returns. -/
inductive ApiCall
  | init (size allocator block : Nat)
  | done
  | getCount
  | read
  | write (pointer : Ptr)
  deriving DecidableEq, Repr

/-- What a call returns. -/
inductive ApiResult
  | unit
  | count (n : Nat)
  | pointer (pointer : Ptr)
  | rval (rval : Int)
  deriving DecidableEq, Repr

/-- A call, with an underscore or without. -/
structure ApiAction where
  safe : Bool
  call : ApiCall
  deriving DecidableEq, Repr

/-- The function with the underscore, on a struct. -/
def ApiCall.plain (s : Life) : ApiCall → Option (ApiResult × Life)
  | .init size allocator block => (Plain.init size allocator block s).map fun r => (.unit, r.2)
  | .done => (Plain.done s).map fun r => (.unit, r.2)
  | .getCount => (Plain.getCount s).map fun r => (.count r.1, r.2)
  | .read => (Plain.read s).map fun r => (.pointer r.1, r.2)
  | .write pointer => (Plain.write pointer s).map fun r => (.rval r.1, r.2)

/-- The function without, on a pointer to one, or NULL. -/
def ApiCall.safe (p : Option Life) : ApiCall → Option (ApiResult × Option Life)
  | .init size allocator block => (Safe.init size allocator block p).map fun r => (.unit, r.2)
  | .done => (Safe.done p).map fun r => (.unit, r.2)
  | .getCount => (Safe.getCount p).map fun r => (.count r.1, r.2)
  | .read => (Safe.read p).map fun r => (.pointer r.1, r.2)
  | .write pointer => (Safe.write pointer p).map fun r => (.rval r.1, r.2)

/-- The function with the underscore, when `p` is NULL: all of them
dereference it, but a write that refuses its pointer returns before. -/
def ApiCall.plainNull : ApiCall → Option ApiResult
  | .write pointer => (Plain.writeNull pointer).map .rval
  | .init _ _ _ | .done | .getCount | .read => none

/-- One call of a program with one thread: `p` is tested, or dereferenced. -/
def apiStep (p : Option Life) (a : ApiAction) : Option (Option Life × ApiResult) :=
  if a.safe then (a.call.safe p).map fun r => (r.2, r.1)
  else
    match p with
    | some s => (a.call.plain s).map fun r => (some r.2, r.1)
    | none => a.call.plainNull.map fun r => (none, r)

/-! ## §4. The fixed FIFO. -/

namespace Fixed

/-- `_mulle__pointerfifo64_init( p)`: the storage is left as it is. -/
def init (s : FixedLife) : Option (Unit × FixedLife) :=
  some ((), ⟨fixedInit s.fifo.mem.storage, .opened⟩)

/-- `_mulle__pointerfifo64_done( p)` does not even look at `p`. -/
def done (s : FixedLife) : Option (Unit × FixedLife) := some ((), s)

/-- `_mulle__pointerfifo64_get_count( p)`. -/
def getCount (h : Header) (s : FixedLife) : Option (Nat × FixedLife) :=
  if s.phase = .opened then
    (MulleFifo.getCount (seqCstArray .exact h.arrayLength.value .producer ()) .exact
        s.fifo.mem).map fun r => (r.1, s)
  else none

/-- `_mulle__pointerfifo64_read( p)`. -/
def read (h : Header) (s : FixedLife) : Option (Ptr × FixedLife) :=
  if s.phase = .opened then
    (readCall (seqCstArray .exact h.arrayLength.value .consumer ()) .exact h.readModulus.value
        s.fifo.cons.read s.fifo.mem).map fun r =>
      (r.1, { s with fifo :=
        { s.fifo with cons := { s.fifo.cons with read := r.2.1 }, mem := r.2.2 } })
  else none

/-- `_mulle__pointerfifo64_write( p, pointer)`. -/
def write (h : Header) (pointer : Ptr) (s : FixedLife) : Option (Int × FixedLife) :=
  if pointer = NULL ∨ s.phase = .opened then
    (writeCall (seqCstArray .exact h.arrayLength.value .producer ()) .exact h.fullCheck.value
        h.writeModulus.value pointer s.fifo.prod.write s.fifo.mem).map fun r =>
      (r.1, { s with fifo :=
        { s.fifo with prod := { s.fifo.prod with write := r.2.1 }, mem := r.2.2 } })
  else none

end Fixed

/-- A call of the API of a header. -/
inductive FixedCall
  | init
  | done
  | getCount
  | read
  | write (pointer : Ptr)
  deriving DecidableEq, Repr

/-- One call of a program with one thread. -/
def fixedApiStep (h : Header) (s : FixedLife) : FixedCall → Option (FixedLife × ApiResult)
  | .init => (Fixed.init s).map fun r => (r.2, .unit)
  | .done => (Fixed.done s).map fun r => (r.2, .unit)
  | .getCount => (Fixed.getCount h s).map fun r => (r.2, .count r.1)
  | .read => (Fixed.read h s).map fun r => (r.2, .pointer r.1)
  | .write pointer => (Fixed.write h pointer s).map fun r => (r.2, .rval r.1)

/-! ## §5. What the API is for. -/

section Queue

variable {size : Nat}

/-- What a write does to a queue. -/
def queueWrite (q : BoundedQueue Ptr size) (pointer : Ptr) : Int × BoundedQueue Ptr size :=
  if pointer = NULL then (-2, q)
  else
    match q.push? pointer with
    | some q' => (0, q')
    | none => (-1, q)

/-- What a read does to it. -/
def queueRead (q : BoundedQueue Ptr size) : Ptr × BoundedQueue Ptr size :=
  match q.pop? with
  | some r => r
  | none => (NULL, q)

end Queue

/-- A bounded queue with a life of its own. -/
inductive ApiQueue
  | raw
  | opened {size : Nat} (q : BoundedQueue Ptr size)
  /-- `done` takes the storage, and nothing else. -/
  | closed {size : Nat} (q : BoundedQueue Ptr size)

/-- What a call does to it; `none` where it must not be made. -/
def ApiQueue.call : ApiQueue → ApiCall → Option (ApiResult × ApiQueue)
  | _, .init size _ _ => if 2 ≤ size then some (.unit, .opened (.empty Ptr size)) else none
  | .raw, .write pointer => if pointer = NULL then some (.rval (-2), .raw) else none
  | .raw, _ => none
  | .opened q, .done => some (.unit, .closed q)
  | .opened q, .getCount => some (.count q.items.length, .opened q)
  | .opened q, .read => some (.pointer (queueRead q).1, .opened (queueRead q).2)
  | .opened q, .write pointer =>
      some (.rval (queueWrite q pointer).1, .opened (queueWrite q pointer).2)
  | .closed q, .done => some (.unit, .closed q)
  | .closed q, .getCount => some (.count q.items.length, .closed q)
  -- without a storage only those calls that do not reach for it
  | .closed q, .read => if q.items = [] then some (.pointer NULL, .closed q) else none
  | .closed q, .write pointer =>
      if (queueWrite q pointer).1 = 0 then none
      else some (.rval (queueWrite q pointer).1, .closed q)

/-- What NULL gets from the safe functions. -/
def ApiCall.ofNull : ApiCall → ApiResult
  | .init _ _ _ | .done => .unit
  | .getCount => .count 0
  | .read => .pointer NULL
  | .write _ => .rval (-1)

/-- One call; there may be no queue at all.  Then only the safe functions
may be called, and the write of NULL, which is refused in any case. -/
def queueStep : Option ApiQueue → ApiAction → Option (Option ApiQueue × ApiResult)
  | none, ⟨true, call⟩ => some (none, call.ofNull)
  | none, ⟨false, call⟩ =>
      if call = .write NULL then some (none, .rval (-2)) else none
  | some q, a => (q.call a.call).map fun r => (some r.2, r.1)

/-- One call of the queue behind a fixed FIFO; before `init` there is none.
`done` does nothing, so the queue can be used on. -/
def fixedQueueStep (size : Nat) (q : Option (BoundedQueue Ptr size)) :
    FixedCall → Option (Option (BoundedQueue Ptr size) × ApiResult)
  | .init => some (some (.empty Ptr size), .unit)
  | .done => some (q, .unit)
  | .getCount => q.map fun q => (some q, .count q.items.length)
  | .read => q.map fun q => (some (queueRead q).2, .pointer (queueRead q).1)
  | .write pointer =>
      match q with
      | some q => some (some (queueWrite q pointer).2, .rval (queueWrite q pointer).1)
      | none => if pointer = NULL then some (none, .rval (-2)) else none

end MulleFifo
