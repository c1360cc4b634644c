/-
  MulleFifo.Linearizability — the FIFO is an atomic bounded queue.

  `AtomicFifo` says what the component is for: a queue of at most `size`
  pointers, one writer, one reader, anybody may ask for the length.  It
  reads the events of the code and accepts or refuses them:

    • a write of NULL is answered -2 when it is called,
    • a write is answered -1 at its load of `n`, and only in a state whose
      queue is full; otherwise it is answered 0 at its INCREMENT, where
      its pointer is appended,
    • a read is answered NULL at its load of `n`, and only in a state whose
      queue is empty; otherwise it is answered at its DECREMENT, with the
      head of the queue, which is removed,
    • a count is the length of the queue,
    • whatever a call was answered is what it returns.

  Every other access (slot, index) leaves the queue alone.  A trace that is
  accepted is a linearization: the effects are in one order, each inside
  its own call.  `pointerfifo_linearizable`: every trace of the code is
  accepted — for every interleaving of the single accesses.
-/
import MulleFifo.Model.SeqCst
import MulleFifo.Lib.BoundedQueue

namespace MulleFifo

open Lib

/-! ## §1. The atomic FIFO. -/

/-- The specification's state: the queue and where its two callers stand. -/
structure AtomicFifo (size : Nat) where
  q : BoundedQueue Ptr size
  writer : Caller Ptr Int
  reader : Caller Unit Ptr

namespace AtomicFifo

variable {size : Nat}

/-- Empty, nobody calling. -/
def init (size : Nat) : AtomicFifo size := ⟨BoundedQueue.empty Ptr size, .idle, .idle⟩

/-- The event is possible here, and leads there. -/
def accept (a : AtomicFifo size) : Event → Option (AtomicFifo size)
  | .prod (.call pointer) => do
      let w ← a.writer.invoke pointer
      if pointer = NULL then
        let w' ← w.answer NULL (-2)
        pure { a with writer := w' }
      else pure { a with writer := w }
  | .prod (.full count) =>
      match a.writer with
      | .pending pointer =>
          if a.q.items.length = size ∧ count = size then
            (a.writer.answer pointer (-1)).map fun w => { a with writer := w }
          else none
      | _ => none
  | .prod (.room pointer count) =>
      if a.writer.waiting pointer ∧ a.q.items.length < size ∧ count = a.q.items.length then some a
      else none
  | .prod (.store _ pointer) => if a.writer.waiting pointer then some a else none
  | .prod .index => match a.writer with | .pending _ => some a | _ => none
  | .prod (.increment pointer) => do
      let w ← a.writer.answer pointer 0
      let q ← a.q.push? pointer
      pure { a with writer := w, q := q }
  | .prod (.ret pointer rval) =>
      (a.writer.respond pointer rval).map fun w => { a with writer := w }
  | .cons .call => (a.reader.invoke ()).map fun r => { a with reader := r }
  | .cons .empty =>
      if a.q.items = [] then (a.reader.answer () NULL).map fun r => { a with reader := r }
      else none
  | .cons (.avail count) =>
      if a.reader.waiting () ∧ a.q.items ≠ [] ∧ count = a.q.items.length then some a else none
  | .cons (.load _ _) => if a.reader.waiting () then some a else none
  | .cons .index => if a.reader.waiting () then some a else none
  | .cons (.decrement pointer) => do
      let (head, q) ← a.q.pop?
      if head = pointer then
        let r ← a.reader.answer () head
        pure { a with reader := r, q := q }
      else none
  | .cons (.ret pointer) =>
      (a.reader.respond () pointer).map fun r => { a with reader := r }
  | .count _ count => if count = a.q.items.length then some a else none
  | .work _ _ => some a

end AtomicFifo

/-! ## §2. The simulation relation. -/

/-- Where a write stands for the specification. -/
@[simp] def WritePc.caller : WritePc → Caller Ptr Int
  | .idle => .idle
  | .getCount pointer | .store pointer | .index pointer | .increment pointer => .pending pointer
  | .ret pointer rval => .answered pointer rval

/-- Where a read stands for the specification. -/
@[simp] def ReadPc.caller : ReadPc → Caller Unit Ptr
  | .idle => .idle
  | .getCount | .load | .index _ | .decrement _ => .pending ()
  | .ret pointer => .answered () pointer

/-- The pointers in the FIFO: pushed and not popped, oldest first. -/
def unread (tr : List Event) : List Ptr := (pushed tr).drop (popped tr).length

/-- The code after the trace `tr` and the specification. -/
structure Simulates (size : Nat) (storage : Nat → Ptr) (tr : List Event) (c : Config ScMem)
    (a : AtomicFifo size) : Prop where
  inv : Inv size storage tr c
  queue : a.q.items = unread tr
  writer : a.writer = c.prod.pc.caller
  reader : a.reader = c.cons.pc.caller

theorem unread_length (tr : List Event) :
    (unread tr).length = (pushed tr).length - (popped tr).length := by
  simp [unread]

/-- What stays unread when `l` moves nothing. -/
theorem unread_same {tr l : List Event} (hpush : pushed l = []) (hpop : popped l = []) :
    unread (tr ++ l) = unread tr := by
  unfold unread
  rw [pushed_append, popped_append, hpush, hpop, List.append_nil, List.append_nil]

/-- A pushed pointer joins at the end. -/
theorem unread_pushed {tr l : List Event} {pointer : Ptr}
    (hle : (popped tr).length ≤ (pushed tr).length) (hpush : pushed l = [pointer])
    (hpop : popped l = []) : unread (tr ++ l) = unread tr ++ [pointer] := by
  unfold unread
  rw [pushed_append, popped_append, hpush, hpop, List.append_nil,
    List.drop_append_of_le_length hle]

/-- A popped pointer was the oldest. -/
theorem unread_popped {tr l : List Event} {pointer : Ptr} (hpush : pushed l = [])
    (hpop : popped l = [pointer]) (hle : popped (tr ++ l) <+: pushed (tr ++ l)) :
    unread tr = pointer :: unread (tr ++ l) := by
  rw [pushed_append, popped_append, hpush, hpop, List.append_nil] at hle
  obtain ⟨rest, hrest⟩ := hle
  unfold unread
  rw [pushed_append, popped_append, hpush, hpop, List.append_nil, ← hrest]
  simp

namespace Inv

variable {size : Nat} {storage : Nat → Ptr} {tr : List Event} {c : Config ScMem}

/-- The counter counts the unread pointers. -/
theorem toNat_counter_unread (hI : Inv size storage tr c) :
    c.mem.n.toNat = (unread tr).length := by
  rw [hI.toNat_counter, unread_length]

theorem unread_bounded (hI : Inv size storage tr c) : (unread tr).length ≤ size := by
  have hbd := hI.bounded
  rw [unread_length]
  omega

end Inv

/-! ## §3. Every step is accepted. -/

/-- **One step of the code is one event of the specification.** -/
theorem Simulates.step {size : Nat} {storage : Nat → Ptr} {tr : List Event}
    {c c' : Config ScMem} {a : AtomicFifo size} {e : Event}
    (hS : Simulates size storage tr c a) (h : Transition (seqCst .exact) .exact c e c') :
    ∃ a', a.accept e = some a' ∧ Simulates size storage (tr ++ [e]) c' a' := by
  obtain ⟨hI, hq, hw, hr⟩ := hS
  have hI' := hI.step h
  -- what a load of `n` shows is the length of the queue
  have hlen : Words.exact.toUnsigned c.mem.n = a.q.items.length := by
    rw [hq]
    exact hI.toNat_counter_unread
  cases h with
  | callNull hpc =>
      simp only [hpc, WritePc.caller] at hw
      exact ⟨{ a with writer := .answered NULL (-2) }, by simp [AtomicFifo.accept, hw],
        hI', by simpa [unread] using hq, rfl, hr⟩
  | @call pointer hpc hp =>
      simp only [hpc, WritePc.caller] at hw
      exact ⟨{ a with writer := .pending pointer }, by simp [AtomicFifo.accept, hw, hp],
        hI', by simpa [unread] using hq, rfl, hr⟩
  | @full pointer ch n m hpc hread hfull =>
      obtain ⟨rfl, rfl⟩ := Prod.mk.inj (Option.some.inj hread)
      simp only [hpc, WritePc.caller] at hw
      have hsize : Words.exact.toUnsigned c.mem.n = size := hfull.trans hI.size_eq
      have hqueue : a.q.items.length = size := hlen.symm.trans hsize
      exact ⟨{ a with writer := .answered pointer (-1) },
        by simp [AtomicFifo.accept, hw, hqueue, hsize],
        hI', by simpa [unread] using hq, rfl, hr⟩
  | @room pointer ch n m hpc hread hfull =>
      obtain ⟨rfl, rfl⟩ := Prod.mk.inj (Option.some.inj hread)
      simp only [hpc, WritePc.caller] at hw
      have hlt : a.q.items.length < size := by
        have hle := a.q.bounded
        have hne : a.q.items.length ≠ size := by rw [← hlen, ← hI.size_eq]; exact hfull
        omega
      exact ⟨a, by simp [AtomicFifo.accept, hw, hlen, hlt],
        hI', by simpa [unread] using hq, hw, hr⟩
  | store hpc hwrite =>
      simp only [hpc, WritePc.caller] at hw
      exact ⟨a, by simp [AtomicFifo.accept, hw], hI', by simpa [unread] using hq, hw, hr⟩
  | indexWrite hpc =>
      simp only [hpc, WritePc.caller] at hw
      exact ⟨a, by simp [AtomicFifo.accept, hw], hI', by simpa [unread] using hq, hw, hr⟩
  | @increment pointer ch hpc =>
      -- the write takes effect: its pointer joins the queue
      simp only [hpc, WritePc.caller] at hw
      have hjoin : unread (tr ++ [.prod (.increment pointer)]) = unread tr ++ [pointer] :=
        unread_pushed hI.popped_length_le rfl rfl
      let q' : BoundedQueue Ptr size :=
        ⟨unread (tr ++ [.prod (.increment pointer)]), hI'.unread_bounded⟩
      have hpush : a.q.push? pointer = some q' :=
        BoundedQueue.push?_some (by rw [hq]; exact hjoin)
      exact ⟨{ a with writer := .answered pointer 0, q := q' },
        by simp [AtomicFifo.accept, hw, hpush], hI', rfl, rfl, hr⟩
  | retWrite hpc =>
      simp only [hpc, WritePc.caller] at hw
      exact ⟨{ a with writer := .idle }, by simp [AtomicFifo.accept, hw],
        hI', by simpa [unread] using hq, rfl, hr⟩
  | callRead hpc =>
      simp only [hpc, ReadPc.caller] at hr
      exact ⟨{ a with reader := .pending () }, by simp [AtomicFifo.accept, hr],
        hI', by simpa [unread] using hq, hw, rfl⟩
  | empty hpc hread hz =>
      obtain ⟨rfl, rfl⟩ := Prod.mk.inj (Option.some.inj hread)
      simp only [hpc, ReadPc.caller] at hr
      have hnil : a.q.items = [] := by
        rw [← List.length_eq_zero_iff, ← hlen]
        exact hz
      exact ⟨{ a with reader := .answered () NULL }, by simp [AtomicFifo.accept, hr, hnil],
        hI', by simpa [unread] using hq, hw, rfl⟩
  | avail hpc hread hz =>
      obtain ⟨rfl, rfl⟩ := Prod.mk.inj (Option.some.inj hread)
      simp only [hpc, ReadPc.caller] at hr
      have hne : a.q.items ≠ [] := by
        intro hnil
        rw [hlen, hnil] at hz
        exact hz rfl
      exact ⟨a, by simp [AtomicFifo.accept, hr, hne, hlen],
        hI', by simpa [unread] using hq, hw, hr⟩
  | load hpc hread =>
      obtain ⟨rfl, rfl⟩ := Prod.mk.inj (Option.some.inj hread)
      simp only [hpc, ReadPc.caller] at hr
      exact ⟨a, by simp [AtomicFifo.accept, hr], hI', by simpa [unread] using hq, hw, hr⟩
  | indexRead hpc =>
      simp only [hpc, ReadPc.caller] at hr
      exact ⟨a, by simp [AtomicFifo.accept, hr], hI', by simpa [unread] using hq, hw, hr⟩
  | @decrement pointer ch hpc =>
      -- the read takes effect: the pointer in its hand is the head of the queue
      simp only [hpc, ReadPc.caller] at hr
      have hhead : unread tr = pointer :: unread (tr ++ [.cons (.decrement pointer)]) :=
        unread_popped rfl rfl hI'.popped_le
      let q' : BoundedQueue Ptr size :=
        ⟨unread (tr ++ [.cons (.decrement pointer)]), hI'.unread_bounded⟩
      have hpop : a.q.pop? = some (pointer, q') :=
        BoundedQueue.pop?_some (by rw [hq]; exact hhead)
      exact ⟨{ a with reader := .answered () pointer, q := q' },
        by simp [AtomicFifo.accept, hr, hpop], hI', rfl, hw, rfl⟩
  | retRead hpc =>
      simp only [hpc, ReadPc.caller] at hr
      exact ⟨{ a with reader := .idle }, by simp [AtomicFifo.accept, hr],
        hI', by simpa [unread] using hq, hw, rfl⟩
  | count ht hread =>
      obtain ⟨rfl, rfl⟩ := Prod.mk.inj (Option.some.inj hread)
      exact ⟨a, by simp [AtomicFifo.accept, hlen], hI', by simpa [unread] using hq, hw, hr⟩
  | work ht =>
      exact ⟨a, by simp [AtomicFifo.accept], hI', by simpa [unread] using hq, hw, hr⟩

/-! ## §4. The theorem. -/

/-- **THE FIFO IS LINEARIZABLE TO A BOUNDED QUEUE.**  Whatever the storage
held and however the accesses of one producer, one consumer and any number
of counting threads are interleaved, the atomic FIFO accepts the trace; its
queue is what the counter counts, and the reads returned the oldest
pointers pushed, in order. -/
theorem pointerfifo_linearizable (size : Nat) (storage : Nat → Ptr) (as : List (Action Unit))
    (c : Config ScMem) (tr : List Event) (h : scRun size storage as = some (c, tr)) :
    ∃ a : AtomicFifo size, replay AtomicFifo.accept (AtomicFifo.init size) tr = some a
      ∧ a.q.items = unread tr ∧ c.mem.n = a.q.items.length
      ∧ a.writer = c.prod.pc.caller ∧ a.reader = c.cons.pc.caller
      ∧ received tr <+: pushed tr := by
  have hinit : Simulates size storage [] (pointerfifoInit size storage) (AtomicFifo.init size) :=
    ⟨Inv.init size storage, rfl, rfl, rfl⟩
  obtain ⟨a, hacc, hI, hq, hw, hr⟩ := replay_of_run hinit
    (fun _ _ _ _ _ _ hS hs => hS.step (step_transition hs)) h
  have hn : c.mem.n = a.q.items.length := by
    have hle := hI.popped_length_le
    rw [hq, unread_length, hI.counter]
    omega
  exact ⟨a, hacc, hq, hn, hw, hr, hI.received_le⟩

/-- The two calls of `overlap` take effect in the order write, read. -/
theorem overlap_linearizable :
    ∃ c tr, scRun 2 (fun _ => 77) overlap = some (c, tr) ∧ reads tr = [5]
      ∧ ∃ a : AtomicFifo 2, replay AtomicFifo.accept (AtomicFifo.init 2) tr = some a
        ∧ a.q.items = unread tr ∧ c.mem.n = a.q.items.length
        ∧ a.writer = c.prod.pc.caller ∧ a.reader = c.cons.pc.caller
        ∧ received tr <+: pushed tr :=
  ⟨_, _, rfl, rfl, pointerfifo_linearizable 2 (fun _ => 77) overlap _ _ rfl⟩

end MulleFifo
