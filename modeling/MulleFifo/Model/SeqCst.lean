/-
  MulleFifo.Model.SeqCst — the FIFO over sequentially consistent atomics.

  The documented assumption about mulle-thread: there is one memory, every
  access sees the newest value, an increment adds 1 and a decrement
  subtracts 1.  `seqCst` is that memory, `pointerfifoInit` the state that
  `_mulle_pointerfifo_init` leaves behind, and `scRun` runs a schedule.

  The file ends in the invariant everything else is read off: in terms of
  the stations of `Model.Trace`,

      n        = pushed − popped,   0 ≤ n ≤ size
      storage  = the ring after storing `stored`, one by one
      popped (plus the pointer in the consumer's hand) is a prefix of pushed

  and each side's check stays true until its own counter update: once the
  producer found room only the consumer changes `n`, downwards; once the
  consumer found something only the producer changes it, upwards.
-/
import MulleFifo.Model.Trace

namespace MulleFifo

open Lib

/-! ## §1. The memory and the initial state. -/

/-- The shared part of `struct mulle_pointerfifo`: the counter and the
memory at `p->storage`. -/
structure ScMem where
  n : Int
  storage : Nat → Ptr

/-- Sequentially consistent atomics: every access is to the one memory. -/
def seqCst (W : Words) : MemoryModel ScMem Unit := fun _ _ =>
  { readN := fun m => some (m.n, m)
    readSlot := fun i m => some (m.storage i, m)
    writeSlot := fun i pointer m =>
      some { m with storage := Function.update m.storage i pointer }
    incrementN := fun m => { m with n := W.increment m.n }
    decrementN := fun m => { m with n := W.decrement m.n } }

/-- `_mulle_pointerfifo_init( p, size, allocator)`: every field is set but
the contents of the storage, which are those of the block `malloc`
returned.  The two asserts are hypotheses of the results that need them. -/
def pointerfifoInit (size : Nat) (storage : Nat → Ptr) : Config ScMem where
  size := size
  mem := { n := 0, storage := storage }
  prod := { pc := .idle, write := 0 }
  cons := { pc := .idle, read := 0 }

/-- Run a schedule on a freshly initialised FIFO. -/
abbrev scRun (size : Nat) (storage : Nat → Ptr) (as : List (Action Unit)) :
    Option (Config ScMem × List Event) :=
  run (step (seqCst .exact) .exact) (pointerfifoInit size storage) as

/-! ## §2. The invariant. -/

/-- The FIFO after the trace `tr`, at any point of any two calls. -/
structure Inv (size : Nat) (storage : Nat → Ptr) (tr : List Event) (c : Config ScMem) :
    Prop where
  size_eq : c.size = size
  producer : ProducerInv size tr c.prod
  consumer : ConsumerInv size tr c.cons
  counter : c.mem.n = (pushed tr).length - (popped tr).length
  storage_eq : c.mem.storage = Ring.contents size storage (stored tr)
  taken_le : popped tr ++ c.cons.pc.taken <+: pushed tr
  bounded : (pushed tr).length ≤ (popped tr).length + size
  room : c.prod.pc.inFlight ≠ [] → (pushed tr).length < (popped tr).length + size
  avail : 0 < c.cons.pc.inFlight → (popped tr).length < (pushed tr).length

namespace Inv

variable {size : Nat} {storage : Nat → Ptr} {tr : List Event} {c c' : Config ScMem} {e : Event}

theorem init (size : Nat) (storage : Nat → Ptr) :
    Inv size storage [] (pointerfifoInit size storage) where
  size_eq := rfl
  producer := ProducerInv.init size
  consumer := ConsumerInv.init size
  counter := rfl
  storage_eq := rfl
  taken_le := List.nil_prefix
  bounded := by simp [pushed]
  room h := absurd rfl h
  avail h := absurd h (by simp [pointerfifoInit])

/-- Nothing is popped that was not pushed. -/
theorem popped_le (hI : Inv size storage tr c) : popped tr <+: pushed tr :=
  (List.prefix_append _ _).trans hI.taken_le

theorem popped_length_le (hI : Inv size storage tr c) :
    (popped tr).length ≤ (pushed tr).length := hI.popped_le.length_le

/-- The count an observer sees, as a number of pointers. -/
theorem toNat_counter (hI : Inv size storage tr c) :
    c.mem.n.toNat = (pushed tr).length - (popped tr).length := by
  rw [hI.counter]
  omega

/-- The loads are the stores, in order. -/
theorem loaded_le (hI : Inv size storage tr c) : loaded tr <+: stored tr := by
  rw [hI.consumer.loaded_eq, hI.producer.stored_eq]
  exact hI.taken_le.trans (List.prefix_append _ _)

/-- Nothing is stored beyond the pushed pointers and the one in flight. -/
theorem stored_length_le (hI : Inv size storage tr c) :
    (stored tr).length ≤ (popped tr).length + size :=
  hI.producer.stored_length_le hI.bounded hI.room

/-- The slot of a pushed, unpopped position holds its pointer. -/
theorem storage_holds (hI : Inv size storage tr c) {k : Nat} (hlo : (popped tr).length ≤ k)
    (hhi : k < (pushed tr).length) : c.mem.storage (k % size) = (pushed tr)[k] := by
  have hstored := hI.producer.stored_eq
  have hlen := hI.stored_length_le
  have hk : k < (stored tr).length := by
    rw [hstored, List.length_append]
    omega
  rw [hI.storage_eq, Ring.contents_window storage hk (by omega)]
  simp only [hstored, List.getElem_append_left hhi]

/-- What the consumer is about to load: the oldest pushed pointer that was
not popped. -/
theorem load_value (hI : Inv size storage tr c) (hpc : c.cons.pc = .load) :
    (pushed tr)[(popped tr).length]? = some (c.mem.storage c.cons.read) := by
  have hlt : (popped tr).length < (pushed tr).length := hI.avail (by simp [hpc])
  have hread : c.cons.read = (popped tr).length % size := by
    simpa [hpc] using hI.consumer.read_eq
  rw [hread, hI.storage_holds (Nat.le_refl _) hlt, List.getElem?_eq_getElem hlt]

/-- A producer about to store is inside the storage. -/
theorem store_lt (hI : Inv size storage tr c) {pointer : Ptr} (hpc : c.prod.pc = .store pointer) :
    c.prod.write < c.size := by
  have hroom := hI.room (by simp [hpc])
  have hle := hI.popped_length_le
  rw [hI.producer.write_eq, hI.size_eq]
  exact Nat.mod_lt _ (by omega)

/-- A consumer about to load is inside the storage. -/
theorem load_lt (hI : Inv size storage tr c) (hpc : c.cons.pc = .load) :
    c.cons.read < c.size := by
  have hlt := hI.avail (by simp [hpc])
  have hbd := hI.bounded
  rw [hI.consumer.read_eq, hI.size_eq]
  exact Nat.mod_lt _ (by omega)

/-! ## §3. The step lemma. -/

theorem counter_step (hI : Inv size storage tr c)
    (h : Transition (seqCst .exact) .exact c e c') :
    c'.mem.n = (pushed (tr ++ [e])).length - (popped (tr ++ [e])).length := by
  have hn := hI.counter
  cases h with
  | full hpc hread | room hpc hread | empty hpc hread | avail hpc hread | load hpc hread
  | count hpc hread =>
      obtain ⟨rfl, rfl⟩ := Prod.mk.inj (Option.some.inj hread)
      simpa using hn
  | store hpc hwrite =>
      obtain rfl := Option.some.inj hwrite
      simpa using hn
  | increment =>
      show c.mem.n + 1 = _
      rw [hn, pushed_snoc, popped_snoc]
      simp
      omega
  | decrement =>
      show c.mem.n - 1 = _
      rw [hn, pushed_snoc, popped_snoc]
      simp
      omega
  | _ => simpa using hn

theorem storage_step (hI : Inv size storage tr c)
    (h : Transition (seqCst .exact) .exact c e c') :
    c'.mem.storage = Ring.contents size storage (stored (tr ++ [e])) := by
  have heq := hI.storage_eq
  cases h with
  | full hpc hread | room hpc hread | empty hpc hread | avail hpc hread | load hpc hread
  | count hpc hread =>
      obtain ⟨rfl, rfl⟩ := Prod.mk.inj (Option.some.inj hread)
      simpa using heq
  | @store pointer _ _ hpc hwrite =>
      obtain rfl := Option.some.inj hwrite
      have hslot : c.prod.write = (stored tr).length % size := by
        simpa [hpc, hI.producer.stored_eq] using hI.producer.write_eq
      show Function.update c.mem.storage c.prod.write pointer = _
      rw [stored_snoc, heq, hslot]
      exact (Ring.contents_snoc size storage (stored tr) pointer).symm
  | increment | decrement => simpa [seqCst] using heq
  | _ => simpa using heq

theorem taken_step (hI : Inv size storage tr c)
    (h : Transition (seqCst .exact) .exact c e c') :
    popped (tr ++ [e]) ++ c'.cons.pc.taken <+: pushed (tr ++ [e]) := by
  refine taken_kept h hI.taken_le ?_
  intro slot pointer he
  cases h with
  | load hpc hread =>
      obtain ⟨rfl, rfl⟩ := ReadEvent.load.inj (Event.cons.inj he)
      obtain ⟨rfl, rfl⟩ := Prod.mk.inj (Option.some.inj hread)
      exact hI.load_value hpc
  | _ => simp at he

theorem bounded_step (hI : Inv size storage tr c)
    (h : Transition (seqCst .exact) .exact c e c') :
    (pushed (tr ++ [e])).length ≤ (popped (tr ++ [e])).length + size := by
  have hbd := hI.bounded
  cases h with
  | increment _ hpc =>
      have hroom := hI.room (by simp [hpc])
      simp
      omega
  | decrement =>
      simp
      omega
  | _ => simpa using hbd

/-- The full check itself: `n ≠ size`, and `n ≤ size` always. -/
theorem room_step (hI : Inv size storage tr c)
    (h : Transition (seqCst .exact) .exact c e c') (hfl : c'.prod.pc.inFlight ≠ []) :
    (pushed (tr ++ [e])).length < (popped (tr ++ [e])).length + size := by
  refine room_kept h hI.room ?_ hfl
  intro pointer n he
  have hsize := hI.size_eq
  cases h with
  | room hpc hread hfull =>
      obtain ⟨rfl, rfl⟩ := Prod.mk.inj (Option.some.inj hread)
      have hcnt : Words.exact.toUnsigned c.mem.n = _ := hI.toNat_counter
      have hbd := hI.bounded
      have hle := hI.popped_length_le
      omega
  | _ => simp at he

/-- The empty check itself: `n ≠ 0`. -/
theorem avail_step (hI : Inv size storage tr c)
    (h : Transition (seqCst .exact) .exact c e c') (hfl : 0 < c'.cons.pc.inFlight) :
    (popped (tr ++ [e])).length < (pushed (tr ++ [e])).length := by
  refine avail_kept h hI.avail ?_ hfl
  intro n he
  cases h with
  | avail hpc hread hz =>
      obtain ⟨rfl, rfl⟩ := Prod.mk.inj (Option.some.inj hread)
      have hcnt : Words.exact.toUnsigned c.mem.n = _ := hI.toNat_counter
      omega
  | _ => simp at he

/-- **The step lemma.** -/
theorem step (hI : Inv size storage tr c)
    (h : Transition (seqCst .exact) .exact c e c') : Inv size storage (tr ++ [e]) c' := by
  have hsize : c'.size = size := h.size_eq.trans hI.size_eq
  have hprod := hI.producer
  have hcons := hI.consumer
  rw [← hI.size_eq] at hprod hcons
  have hprod' := hprod.step h
  have hcons' := hcons.step h
  rw [hsize] at hprod' hcons'
  exact ⟨hsize, hprod', hcons', hI.counter_step h, hI.storage_step h, hI.taken_step h,
    hI.bounded_step h, hI.room_step h, hI.avail_step h⟩

/-- Whoever loads `n` sees the number of pushed, unpopped pointers. -/
theorem observed (hI : Inv size storage tr c)
    (h : Transition (seqCst .exact) .exact c e c') {v : Nat} (hv : e.observed? = some v) :
    v = (pushed tr).length - (popped tr).length := by
  have hcnt := hI.toNat_counter
  cases h with
  | full hpc hread hn | room hpc hread hn | avail hpc hread hn | count ht hread =>
      obtain ⟨rfl, rfl⟩ := Prod.mk.inj (Option.some.inj hread)
      rw [← hcnt]
      exact (Option.some.inj hv).symm
  | empty hpc hread hz =>
      obtain ⟨rfl, rfl⟩ := Prod.mk.inj (Option.some.inj hread)
      rw [← hcnt, ← Option.some.inj hv]
      exact hz.symm
  | _ => exact absurd hv (by simp)

/-- No popped pointer is NULL, so everything popped is received or in hand. -/
theorem popped_eq (hI : Inv size storage tr c) :
    popped tr = received tr ++ c.cons.pc.unreturned :=
  hI.consumer.popped_eq fun pointer hmem =>
    hI.producer.pushed_ne pointer (hI.popped_le.subset hmem)

/-- What was received is a prefix of what was pushed. -/
theorem received_le (hI : Inv size storage tr c) : received tr <+: pushed tr := by
  refine List.IsPrefix.trans ?_ hI.popped_le
  rw [hI.popped_eq]
  exact List.prefix_append _ _

/-- A producer between calls has pushed exactly what it had accepted. -/
theorem pushed_eq_accepted (hI : Inv size storage tr c)
    (hpc : c.prod.pc = .idle) : pushed tr = accepted tr := by
  have heq := hI.producer.pushed_eq
  rw [hpc] at heq
  simpa using heq

/-- A consumer between calls has received exactly what it popped. -/
theorem popped_eq_received (hI : Inv size storage tr c)
    (hpc : c.cons.pc = .idle) : popped tr = received tr := by
  have heq := hI.popped_eq
  rw [hpc] at heq
  simpa using heq

end Inv

/-- **Every run satisfies the invariant.** -/
theorem scRun_inv {size : Nat} {storage : Nat → Ptr} {as : List (Action Unit)}
    {c : Config ScMem} {tr : List Event} (h : scRun size storage as = some (c, tr)) :
    Inv size storage tr c :=
  run_invariant (Inv.init size storage)
    (fun _ _ _ _ _ hI hs => hI.step (step_transition hs)) h

/-- **The moment an event was shown**: the state before it and the state
after it, both with the invariant. -/
theorem scRun_event {size : Nat} {storage : Nat → Ptr} {as : List (Action Unit)}
    {c : Config ScMem} {pre post : List Event} {e : Event}
    (h : scRun size storage as = some (c, pre ++ e :: post)) :
    ∃ c₁ c₂, Inv size storage pre c₁ ∧ Transition (seqCst .exact) .exact c₁ e c₂
      ∧ Inv size storage (pre ++ [e]) c₂ := by
  obtain ⟨c₁, c₂, as₁, a, as₂, rfl, h1, ha, _⟩ := run_split_event h
  have hI := scRun_inv h1
  have ht := step_transition ha
  exact ⟨c₁, c₂, hI, ht, hI.step ht⟩

/-- A schedule in which the write of 5 and a read overlap: the read is
called first, and finds the pointer although the write has not returned. -/
def overlap : List (Action Unit) :=
  [.callRead, .callWrite 5, .prod (), .prod (), .prod (), .prod (), .cons (), .cons (),
    .cons (), .getCount (.observer 0) (), .cons (), .prod (), .cons ()]

end MulleFifo
