/-
  MulleFifo.Model.Pointerfifo — `src/mulle-pointerfifo.h`, access by access.

  The dynamic FIFO is a struct of a counter `n`, a storage of `size` slots,
  an index `write` "only accessed by producer" and an index `read` "only
  accessed by consumer".  A call of `_mulle_pointerfifo_write` or `_read`
  is here a program that is interrupted after every memory access:

      enter → load `n` → store/load the slot → update the index
            → increment/decrement `n` → return

  and `step` interleaves one producer, one consumer and any number of
  other threads at that granularity.

  Two things are parameters of the code, as they are in C:

    • `Atomics` — what the FIFO uses of mulle-thread: the atomic accesses
      to `n` and to the slots.  A `MemoryModel` says what they do,
    • `Words`   — the machine arithmetic of `unsigned int` and of the
      counter word.  `Words.exact` is arithmetic without overflow.
-/
import Mathlib.Logic.Function.Basic
import Mathlib.Tactic.Common

namespace MulleFifo

/-! ## §1. Pointers and words. -/

/-- `void *`, as the address it holds. -/
abbrev Ptr := Nat

/-- The null pointer: never stored, and what a read of an empty FIFO returns. -/
abbrev NULL : Ptr := 0

/-- The word arithmetic the code is compiled to. -/
structure Words where
  /-- `i + 1` on `unsigned int`. -/
  succ : Nat → Nat
  /-- What `_mulle_atomic_pointer_increment` does to the counter word. -/
  increment : Int → Int
  /-- What `_mulle_atomic_pointer_decrement` does to the counter word. -/
  decrement : Int → Int
  /-- The cast `(unsigned int) (uintptr_t)` of the counter word. -/
  toUnsigned : Int → Nat

/-- Arithmetic without overflow. -/
def Words.exact : Words where
  succ i := i + 1
  increment n := n + 1
  decrement n := n - 1
  toUnsigned n := n.toNat

/-! ## §2. What the FIFO uses of mulle-thread. -/

/-- The threads: the one producer, the one consumer, and the others, which
may only ask for the count. -/
inductive Thread
  | producer
  | consumer
  | observer (id : Nat)
  deriving DecidableEq, Repr

/-- The atomic accesses of one thread to a memory `μ`.  An access that the
memory does not allow (or not with the choice the scheduler made) is `none`. -/
structure Atomics (μ : Type) where
  /-- `_mulle_atomic_pointer_read( &p->n)`. -/
  readN : μ → Option (Int × μ)
  /-- `_mulle_atomic_pointer_read( &p->storage[ i])`. -/
  readSlot : Nat → μ → Option (Ptr × μ)
  /-- `_mulle_atomic_pointer_write( &p->storage[ i], pointer)`. -/
  writeSlot : Nat → Ptr → μ → Option μ
  /-- `_mulle_atomic_pointer_increment( &p->n)`. -/
  incrementN : μ → μ
  /-- `_mulle_atomic_pointer_decrement( &p->n)`. -/
  decrementN : μ → μ

/-- The accesses of every thread; `χ` is what the scheduler may choose at
an access (which of several admissible values a load returns). -/
abbrev MemoryModel (μ χ : Type) := Thread → χ → Atomics μ

/-! ## §3. Program points and what a step shows. -/

/-- Where the producer is inside `_mulle_pointerfifo_write( p, pointer)`. -/
inductive WritePc
  /-- Between calls. -/
  | idle
  /-- About to load `n` for the full check. -/
  | getCount (pointer : Ptr)
  /-- Past the full check, about to store into `storage[ write]`. -/
  | store (pointer : Ptr)
  /-- About to update `write`. -/
  | index (pointer : Ptr)
  /-- About to increment `n`. -/
  | increment (pointer : Ptr)
  /-- No access left, about to return `rval`. -/
  | ret (pointer : Ptr) (rval : Int)
  deriving DecidableEq, Repr

/-- Where the consumer is inside `_mulle_pointerfifo_read( p)`. -/
inductive ReadPc
  /-- Between calls. -/
  | idle
  /-- About to load `n` for the empty check. -/
  | getCount
  /-- Past the empty check, about to load `storage[ read]`. -/
  | load
  /-- About to update `read`. -/
  | index (pointer : Ptr)
  /-- About to decrement `n`. -/
  | decrement (pointer : Ptr)
  /-- No access left, about to return `pointer`. -/
  | ret (pointer : Ptr)
  deriving DecidableEq, Repr

/-- The producer: its program point and the index only it accesses. -/
structure Producer where
  pc : WritePc
  write : Nat
  deriving DecidableEq, Repr

/-- The consumer: its program point and the index only it accesses. -/
structure Consumer where
  pc : ReadPc
  read : Nat
  deriving DecidableEq, Repr

/-- What a step of the producer shows. -/
inductive WriteEvent
  | call (pointer : Ptr)
  /-- The load of `n` found the FIFO full. -/
  | full (count : Nat)
  /-- The load of `n` found room: the write will be accepted. -/
  | room (pointer : Ptr) (count : Nat)
  | store (slot : Nat) (pointer : Ptr)
  | index
  | increment (pointer : Ptr)
  | ret (pointer : Ptr) (rval : Int)
  deriving DecidableEq, Repr

/-- What a step of the consumer shows. -/
inductive ReadEvent
  | call
  /-- The load of `n` found the FIFO empty. -/
  | empty
  /-- The load of `n` found something to read: the read will succeed. -/
  | avail (count : Nat)
  | load (slot : Nat) (pointer : Ptr)
  | index
  | decrement (pointer : Ptr)
  | ret (pointer : Ptr)
  deriving DecidableEq, Repr

/-- What a step of the whole system shows. -/
inductive Event
  | prod (e : WriteEvent)
  | cons (e : ReadEvent)
  /-- Thread `t` called `_mulle_pointerfifo_get_count` and got `count`. -/
  | count (t : Thread) (count : Nat)
  /-- Thread `t` did something of its own, outside the FIFO. -/
  | work (t : Thread) (tag : Nat)
  deriving DecidableEq, Repr

/-! ## §4. The calls. -/

variable {μ χ : Type}

/-- `_mulle_pointerfifo_get_count`: one atomic load and the cast. -/
def getCount (A : Atomics μ) (W : Words) (m : μ) : Option (Nat × μ) :=
  (A.readN m).map fun r => (W.toUnsigned r.1, r.2)

/-- Enter `_mulle_pointerfifo_write( p, pointer)`: a NULL pointer fails
with -2 before any access. -/
def enterWrite (pointer : Ptr) (s : Producer) : Option Producer :=
  if s.pc = .idle then
    -- if( ! pointer) return( -2);
    if pointer = NULL then some { s with pc := .ret pointer (-2) }
    else some { s with pc := .getCount pointer }
  else none

/-- The next access of a call of `_mulle_pointerfifo_write`.  `full` is the
count the full check compares with, `modulus` what the index is taken
modulo; both are `p->size` in the dynamic FIFO. -/
def writeStep (A : Atomics μ) (W : Words) (full modulus : Nat) (s : Producer) (m : μ) :
    Option (Producer × μ × WriteEvent) :=
  match s.pc with
  | .idle => none
  -- if( _mulle_pointerfifo_get_count( p) == p->size) return( -1);
  | .getCount pointer =>
      (getCount A W m).map fun r =>
        if r.1 = full then ({ s with pc := .ret pointer (-1) }, r.2, .full r.1)
        else ({ s with pc := .store pointer }, r.2, .room pointer r.1)
  -- _mulle_atomic_pointer_write( &p->storage[ p->write], pointer);
  | .store pointer =>
      (A.writeSlot s.write pointer m).map fun m' =>
        ({ s with pc := .index pointer }, m', .store s.write pointer)
  -- p->write = (p->write + 1) % p->size;
  | .index pointer =>
      some ({ pc := .increment pointer, write := W.succ s.write % modulus }, m, .index)
  -- _mulle_atomic_pointer_increment( &p->n);
  | .increment pointer =>
      some ({ s with pc := .ret pointer 0 }, A.incrementN m, .increment pointer)
  -- return( rval);
  | .ret pointer rval => some ({ s with pc := .idle }, m, .ret pointer rval)

/-- Enter `_mulle_pointerfifo_read( p)`. -/
def enterRead (s : Consumer) : Option Consumer :=
  if s.pc = .idle then some { s with pc := .getCount } else none

/-- The next access of a call of `_mulle_pointerfifo_read`; `modulus` is
what the index is taken modulo, `p->size` in the dynamic FIFO. -/
def readStep (A : Atomics μ) (W : Words) (modulus : Nat) (s : Consumer) (m : μ) :
    Option (Consumer × μ × ReadEvent) :=
  match s.pc with
  | .idle => none
  -- if( ! _mulle_pointerfifo_get_count( p)) return( NULL);
  | .getCount =>
      (getCount A W m).map fun r =>
        if r.1 = 0 then ({ s with pc := .ret NULL }, r.2, .empty)
        else ({ s with pc := .load }, r.2, .avail r.1)
  -- pointer = _mulle_atomic_pointer_read( &p->storage[ p->read]);
  | .load =>
      (A.readSlot s.read m).map fun r =>
        ({ s with pc := .index r.1 }, r.2, .load s.read r.1)
  -- p->read = (p->read + 1) % p->size;
  | .index pointer =>
      some ({ pc := .decrement pointer, read := W.succ s.read % modulus }, m, .index)
  -- _mulle_atomic_pointer_decrement( &p->n);
  | .decrement pointer =>
      some ({ s with pc := .ret pointer }, A.decrementN m, .decrement pointer)
  -- return( pointer);
  | .ret pointer => some ({ s with pc := .idle }, m, .ret pointer)

/-! ## §5. The system. -/

/-- `struct mulle_pointerfifo` in use: `n` and `storage` live in the memory
`mem`, `write` and `read` with the thread that owns them. -/
structure Config (μ : Type) where
  size : Nat
  mem : μ
  prod : Producer
  cons : Consumer

/-- One action of the scheduler. -/
inductive Action (χ : Type)
  /-- The producer enters a write. -/
  | callWrite (pointer : Ptr)
  /-- The producer executes its next access, or returns. -/
  | prod (choice : χ)
  /-- The consumer enters a read. -/
  | callRead
  /-- The consumer executes its next access, or returns. -/
  | cons (choice : χ)
  /-- A thread between calls asks for the count. -/
  | getCount (t : Thread) (choice : χ)
  /-- A thread between calls does something of its own. -/
  | work (t : Thread) (tag : Nat)
  deriving DecidableEq, Repr

/-- Whether thread `t` is between calls. -/
def betweenCalls (p : Producer) (c : Consumer) : Thread → Prop
  | .producer => p.pc = .idle
  | .consumer => c.pc = .idle
  | .observer _ => True

instance (p : Producer) (c : Consumer) (t : Thread) : Decidable (betweenCalls p c t) :=
  match t with
  | .producer => inferInstanceAs (Decidable (p.pc = .idle))
  | .consumer => inferInstanceAs (Decidable (c.pc = .idle))
  | .observer _ => inferInstanceAs (Decidable True)

/-- One step of the dynamic FIFO and the threads that use it. -/
def step (M : MemoryModel μ χ) (W : Words) (c : Config μ) :
    Action χ → Option (Config μ × Event)
  | .callWrite pointer =>
      (enterWrite pointer c.prod).map fun p => ({ c with prod := p }, .prod (.call pointer))
  | .prod ch =>
      (writeStep (M .producer ch) W c.size c.size c.prod c.mem).map fun r =>
        ({ c with prod := r.1, mem := r.2.1 }, .prod r.2.2)
  | .callRead =>
      (enterRead c.cons).map fun s => ({ c with cons := s }, .cons .call)
  | .cons ch =>
      (readStep (M .consumer ch) W c.size c.cons c.mem).map fun r =>
        ({ c with cons := r.1, mem := r.2.1 }, .cons r.2.2)
  | .getCount t ch =>
      if betweenCalls c.prod c.cons t then
        (getCount (M t ch) W c.mem).map fun r => ({ c with mem := r.2 }, .count t r.1)
      else none
  | .work t tag =>
      if betweenCalls c.prod c.cons t then some (c, .work t tag) else none

/-! ## §6. Everything a step can do. -/

/-- The transitions of `step`, one constructor for each branch of the code. -/
inductive Transition (M : MemoryModel μ χ) (W : Words) (c : Config μ) : Event → Config μ → Prop
  | callNull (hpc : c.prod.pc = .idle) :
      Transition M W c (.prod (.call NULL)) { c with prod := ⟨.ret NULL (-2), c.prod.write⟩ }
  | call {pointer : Ptr} (hpc : c.prod.pc = .idle) (hp : pointer ≠ NULL) :
      Transition M W c (.prod (.call pointer))
        { c with prod := ⟨.getCount pointer, c.prod.write⟩ }
  | full {pointer : Ptr} {ch : χ} {n : Int} {m : μ} (hpc : c.prod.pc = .getCount pointer)
      (hread : (M .producer ch).readN c.mem = some (n, m)) (hn : W.toUnsigned n = c.size) :
      Transition M W c (.prod (.full (W.toUnsigned n)))
        { c with prod := ⟨.ret pointer (-1), c.prod.write⟩, mem := m }
  | room {pointer : Ptr} {ch : χ} {n : Int} {m : μ} (hpc : c.prod.pc = .getCount pointer)
      (hread : (M .producer ch).readN c.mem = some (n, m)) (hn : W.toUnsigned n ≠ c.size) :
      Transition M W c (.prod (.room pointer (W.toUnsigned n)))
        { c with prod := ⟨.store pointer, c.prod.write⟩, mem := m }
  | store {pointer : Ptr} {ch : χ} {m : μ} (hpc : c.prod.pc = .store pointer)
      (hwrite : (M .producer ch).writeSlot c.prod.write pointer c.mem = some m) :
      Transition M W c (.prod (.store c.prod.write pointer))
        { c with prod := ⟨.index pointer, c.prod.write⟩, mem := m }
  | indexWrite {pointer : Ptr} (hpc : c.prod.pc = .index pointer) :
      Transition M W c (.prod .index)
        { c with prod := ⟨.increment pointer, W.succ c.prod.write % c.size⟩ }
  | increment {pointer : Ptr} (ch : χ) (hpc : c.prod.pc = .increment pointer) :
      Transition M W c (.prod (.increment pointer))
        { c with prod := ⟨.ret pointer 0, c.prod.write⟩, mem := (M .producer ch).incrementN c.mem }
  | retWrite {pointer : Ptr} {rval : Int} (hpc : c.prod.pc = .ret pointer rval) :
      Transition M W c (.prod (.ret pointer rval)) { c with prod := ⟨.idle, c.prod.write⟩ }
  | callRead (hpc : c.cons.pc = .idle) :
      Transition M W c (.cons .call) { c with cons := ⟨.getCount, c.cons.read⟩ }
  | empty {ch : χ} {n : Int} {m : μ} (hpc : c.cons.pc = .getCount)
      (hread : (M .consumer ch).readN c.mem = some (n, m)) (hn : W.toUnsigned n = 0) :
      Transition M W c (.cons .empty) { c with cons := ⟨.ret NULL, c.cons.read⟩, mem := m }
  | avail {ch : χ} {n : Int} {m : μ} (hpc : c.cons.pc = .getCount)
      (hread : (M .consumer ch).readN c.mem = some (n, m)) (hn : W.toUnsigned n ≠ 0) :
      Transition M W c (.cons (.avail (W.toUnsigned n)))
        { c with cons := ⟨.load, c.cons.read⟩, mem := m }
  | load {pointer : Ptr} {ch : χ} {m : μ} (hpc : c.cons.pc = .load)
      (hread : (M .consumer ch).readSlot c.cons.read c.mem = some (pointer, m)) :
      Transition M W c (.cons (.load c.cons.read pointer))
        { c with cons := ⟨.index pointer, c.cons.read⟩, mem := m }
  | indexRead {pointer : Ptr} (hpc : c.cons.pc = .index pointer) :
      Transition M W c (.cons .index)
        { c with cons := ⟨.decrement pointer, W.succ c.cons.read % c.size⟩ }
  | decrement {pointer : Ptr} (ch : χ) (hpc : c.cons.pc = .decrement pointer) :
      Transition M W c (.cons (.decrement pointer))
        { c with cons := ⟨.ret pointer, c.cons.read⟩, mem := (M .consumer ch).decrementN c.mem }
  | retRead {pointer : Ptr} (hpc : c.cons.pc = .ret pointer) :
      Transition M W c (.cons (.ret pointer)) { c with cons := ⟨.idle, c.cons.read⟩ }
  | count {t : Thread} {ch : χ} {n : Int} {m : μ} (ht : betweenCalls c.prod c.cons t)
      (hread : (M t ch).readN c.mem = some (n, m)) :
      Transition M W c (.count t (W.toUnsigned n)) { c with mem := m }
  | work {t : Thread} {tag : Nat} (ht : betweenCalls c.prod c.cons t) :
      Transition M W c (.work t tag) c

/-- The size never changes. -/
theorem Transition.size_eq {M : MemoryModel μ χ} {W : Words} {c c' : Config μ} {e : Event}
    (h : Transition M W c e c') : c'.size = c.size := by
  cases h <;> rfl

/-- A step of the producer's code is one of its transitions. -/
theorem writeStep_transition {M : MemoryModel μ χ} {W : Words} {c : Config μ} {ch : χ}
    {r : Producer × μ × WriteEvent}
    (h : writeStep (M .producer ch) W c.size c.size c.prod c.mem = some r) :
    Transition M W c (.prod r.2.2) { c with prod := r.1, mem := r.2.1 } := by
  cases hpc : c.prod.pc with
  | idle => simp [writeStep, hpc] at h
  | getCount pointer =>
      simp only [writeStep, hpc, getCount, Option.map_map, Option.map_eq_some_iff,
        Function.comp] at h
      obtain ⟨⟨n, m⟩, hread, rfl⟩ := h
      by_cases hn : W.toUnsigned n = c.size
      · simpa only [hn, if_true] using Transition.full hpc hread hn
      · simpa only [hn, if_false] using Transition.room hpc hread hn
  | store pointer =>
      simp only [writeStep, hpc, Option.map_eq_some_iff] at h
      obtain ⟨m, hwrite, rfl⟩ := h
      exact .store hpc hwrite
  | index pointer =>
      simp only [writeStep, hpc, Option.some.injEq] at h
      subst h
      exact .indexWrite hpc
  | increment pointer =>
      simp only [writeStep, hpc, Option.some.injEq] at h
      subst h
      exact .increment ch hpc
  | ret pointer rval =>
      simp only [writeStep, hpc, Option.some.injEq] at h
      subst h
      exact .retWrite hpc

/-- A step of the consumer's code is one of its transitions. -/
theorem readStep_transition {M : MemoryModel μ χ} {W : Words} {c : Config μ} {ch : χ}
    {r : Consumer × μ × ReadEvent}
    (h : readStep (M .consumer ch) W c.size c.cons c.mem = some r) :
    Transition M W c (.cons r.2.2) { c with cons := r.1, mem := r.2.1 } := by
  cases hpc : c.cons.pc with
  | idle => simp [readStep, hpc] at h
  | getCount =>
      simp only [readStep, hpc, getCount, Option.map_map, Option.map_eq_some_iff,
        Function.comp] at h
      obtain ⟨⟨n, m⟩, hread, rfl⟩ := h
      by_cases hn : W.toUnsigned n = 0
      · simpa only [hn, if_true] using Transition.empty hpc hread hn
      · simpa only [hn, if_false] using Transition.avail hpc hread hn
  | load =>
      simp only [readStep, hpc, Option.map_eq_some_iff] at h
      obtain ⟨⟨pointer, m⟩, hread, rfl⟩ := h
      exact .load hpc hread
  | index pointer =>
      simp only [readStep, hpc, Option.some.injEq] at h
      subst h
      exact .indexRead hpc
  | decrement pointer =>
      simp only [readStep, hpc, Option.some.injEq] at h
      subst h
      exact .decrement ch hpc
  | ret pointer =>
      simp only [readStep, hpc, Option.some.injEq] at h
      subst h
      exact .retRead hpc

/-- **Inversion of `step`**: whatever the scheduler did, it was one of the
transitions. -/
theorem step_transition {M : MemoryModel μ χ} {W : Words} {c c' : Config μ} {a : Action χ}
    {e : Event} (h : step M W c a = some (c', e)) : Transition M W c e c' := by
  cases a with
  | callWrite pointer =>
      simp only [step, enterWrite, Option.map_eq_some_iff, Prod.mk.injEq] at h
      obtain ⟨p, hp, rfl, rfl⟩ := h
      split at hp
      next hpc =>
        split at hp
        next hnull =>
          obtain rfl : pointer = NULL := hnull
          obtain rfl := (Option.some.inj hp).symm
          exact .callNull hpc
        next hnull =>
          obtain rfl := (Option.some.inj hp).symm
          exact .call hpc hnull
      next => exact absurd hp (by simp)
  | prod ch =>
      simp only [step, Option.map_eq_some_iff, Prod.mk.injEq] at h
      obtain ⟨r, hr, rfl, rfl⟩ := h
      exact writeStep_transition hr
  | callRead =>
      simp only [step, enterRead, Option.map_eq_some_iff, Prod.mk.injEq] at h
      obtain ⟨s, hs, rfl, rfl⟩ := h
      split at hs
      next hpc =>
        obtain rfl := (Option.some.inj hs).symm
        exact .callRead hpc
      next => exact absurd hs (by simp)
  | cons ch =>
      simp only [step, Option.map_eq_some_iff, Prod.mk.injEq] at h
      obtain ⟨r, hr, rfl, rfl⟩ := h
      exact readStep_transition hr
  | getCount t ch =>
      simp only [step, getCount] at h
      split at h
      next ht =>
        simp only [Option.map_map, Option.map_eq_some_iff, Function.comp, Prod.mk.injEq] at h
        obtain ⟨⟨n, m⟩, hread, rfl, rfl⟩ := h
        exact .count ht hread
      next => exact absurd h (by simp)
  | work t tag =>
      simp only [step] at h
      split at h
      next ht =>
        obtain ⟨rfl, rfl⟩ := Prod.mk.inj (Option.some.inj h)
        exact .work ht
      next => exact absurd h (by simp)

/-! ## §7. One memory seen through another. -/

section Seen

variable {ν : Type}

/-- The same FIFO over the memory `f` makes of its own. -/
def Config.seen (f : μ → ν) (c : Config μ) : Config ν := ⟨c.size, f c.mem, c.prod, c.cons⟩

/-- In the state `c`, the accesses that can come next do to `f` of the
memory in `M'` what they do to the memory in `M`. -/
structure SeenAs (M : MemoryModel μ χ) (M' : MemoryModel ν χ) (f : μ → ν) (c : Config μ) :
    Prop where
  readN : ∀ t ch, (M' t ch).readN (f c.mem) = ((M t ch).readN c.mem).map fun r => (r.1, f r.2)
  readSlot : c.cons.pc = .load → ∀ ch, (M' .consumer ch).readSlot c.cons.read (f c.mem)
    = ((M .consumer ch).readSlot c.cons.read c.mem).map fun r => (r.1, f r.2)
  writeSlot : ∀ pointer, c.prod.pc = .store pointer → ∀ ch,
    (M' .producer ch).writeSlot c.prod.write pointer (f c.mem)
      = ((M .producer ch).writeSlot c.prod.write pointer c.mem).map f
  incrementN : ∀ ch, (M' .producer ch).incrementN (f c.mem) = f ((M .producer ch).incrementN c.mem)
  decrementN : ∀ ch, (M' .consumer ch).decrementN (f c.mem) = f ((M .consumer ch).decrementN c.mem)

namespace SeenAs

variable {M : MemoryModel μ χ} {M' : MemoryModel ν χ} {f : μ → ν} {c : Config μ}

theorem getCount_eq (h : SeenAs M M' f c) (W : Words) (t : Thread) (ch : χ) :
    getCount (M' t ch) W (f c.mem) = (getCount (M t ch) W c.mem).map fun r => (r.1, f r.2) := by
  unfold getCount
  rw [h.readN, Option.map_map, Option.map_map]
  rfl

theorem writeStep_eq (h : SeenAs M M' f c) (W : Words) (ch : χ) (full modulus : Nat) :
    writeStep (M' .producer ch) W full modulus c.prod (f c.mem)
      = (writeStep (M .producer ch) W full modulus c.prod c.mem).map
          fun r => (r.1, f r.2.1, r.2.2) := by
  unfold writeStep
  cases hpc : c.prod.pc with
  | getCount pointer =>
      simp only [h.getCount_eq, Option.map_map]
      congr 1
      funext r
      by_cases hr : r.1 = full
      · simp [hr]
      · simp [hr]
  | store pointer =>
      simp only [h.writeSlot pointer hpc, Option.map_map]
      rfl
  | increment pointer =>
      simp only [h.incrementN, Option.map_some]
  | _ => rfl

theorem readStep_eq (h : SeenAs M M' f c) (W : Words) (ch : χ) (modulus : Nat) :
    readStep (M' .consumer ch) W modulus c.cons (f c.mem)
      = (readStep (M .consumer ch) W modulus c.cons c.mem).map
          fun r => (r.1, f r.2.1, r.2.2) := by
  unfold readStep
  cases hpc : c.cons.pc with
  | getCount =>
      simp only [h.getCount_eq, Option.map_map]
      congr 1
      funext r
      by_cases hr : r.1 = 0
      · simp [hr]
      · simp [hr]
  | load =>
      simp only [h.readSlot hpc, Option.map_map]
      rfl
  | decrement pointer =>
      simp only [h.decrementN, Option.map_some]
  | _ => rfl

/-- **One step over `M'` is the step over `M`, seen through `f`.** -/
theorem step_eq (h : SeenAs M M' f c) (W : Words) (a : Action χ) :
    step M' W (c.seen f) a = (step M W c a).map fun x => (x.1.seen f, x.2) := by
  cases a with
  | prod ch =>
      show (writeStep (M' .producer ch) W c.size c.size c.prod (f c.mem)).map _ = _
      rw [h.writeStep_eq]
      simp only [step, Option.map_map]
      rfl
  | cons ch =>
      show (readStep (M' .consumer ch) W c.size c.cons (f c.mem)).map _ = _
      rw [h.readStep_eq]
      simp only [step, Option.map_map]
      rfl
  | callWrite pointer =>
      simp only [step, Option.map_map]
      rfl
  | callRead =>
      simp only [step, Option.map_map]
      rfl
  | getCount t ch =>
      by_cases ht : betweenCalls c.prod c.cons t
      · have hseen : betweenCalls (c.seen f).prod (c.seen f).cons t := ht
        simp only [step]
        rw [if_pos hseen, if_pos ht]
        show (getCount (M' t ch) W (f c.mem)).map _ = _
        rw [h.getCount_eq, Option.map_map, Option.map_map]
        rfl
      · have hseen : ¬ betweenCalls (c.seen f).prod (c.seen f).cons t := ht
        simp only [step]
        rw [if_neg hseen, if_neg ht]
        rfl
  | work t tag =>
      by_cases ht : betweenCalls c.prod c.cons t
      · have hseen : betweenCalls (c.seen f).prod (c.seen f).cons t := ht
        simp only [step]
        rw [if_pos hseen, if_pos ht]
        rfl
      · have hseen : ¬ betweenCalls (c.seen f).prod (c.seen f).cons t := ht
        simp only [step]
        rw [if_neg hseen, if_neg ht]
        rfl

end SeenAs

end Seen

end MulleFifo
