/-
  MulleFifo.StaleQueue — over weak memory the FIFO is a queue whose length
  is read late.

  `AtomicFifo` is too strict a specification for release/acquire: a write
  may be refused although a read has just made room, and a count may be an
  old one.  `StaleFifo` says what is left.  Its queue is the same, with the
  same effects at the same places.  But its length is a `StaleRegister`:

    • every check and every count gets SOME length the queue had, and no
      thread ever gets an older one than it got before,
    • whoever changed the queue has seen the length it left,
    • a write goes on only where the length it got is at least the true one
      and below `size`, a read only where it got one that is at most the
      true one and not 0.

  So all that staleness can do is to let a call fail on a queue that WAS
  full, or empty.  `pointerfifo_stale_queue`: with release/acquire on `n`
  every trace is accepted.
-/
import MulleFifo.StaleCounts
import MulleFifo.Linearizability
import MulleFifo.Lib.StaleRegister

namespace MulleFifo

open Lib

/-! ## §1. The queue with a stale length. -/

/-- The queue, the lengths it had, and where its two callers stand. -/
structure StaleFifo (size : Nat) where
  q : BoundedQueue Ptr size
  lengths : StaleRegister Thread Nat
  writer : Caller Ptr Int
  reader : Caller Unit Ptr

namespace StaleFifo

variable {size : Nat}

/-- Empty, nobody calling, and everybody knows. -/
def init (size : Nat) : StaleFifo size where
  q := BoundedQueue.empty Ptr size
  lengths := ⟨[0], fun _ => 0⟩
  writer := .idle
  reader := .idle

/-- Thread `t` gets the length `count`. -/
def readLength (a : StaleFifo size) (t : Thread) (count : Nat) : Option (StaleFifo size) :=
  (a.lengths.read? t count).map fun l => { a with lengths := l }

/-- The event is possible here, and leads there. -/
def accept (a : StaleFifo size) : Event → Option (StaleFifo size)
  | .prod (.call pointer) => do
      let w ← a.writer.invoke pointer
      if pointer = NULL then
        let w' ← w.answer NULL (-2)
        pure { a with writer := w' }
      else pure { a with writer := w }
  | .prod (.full count) =>
      match a.writer with
      | .pending pointer => do
          let a' ← a.readLength .producer count
          let w ← a.writer.answer pointer (-1)
          if count = size then pure { a' with writer := w } else none
      | _ => none
  | .prod (.room pointer count) =>
      if a.writer.waiting pointer ∧ a.q.items.length ≤ count ∧ count < size then
        a.readLength .producer count
      else none
  | .prod (.store _ pointer) => if a.writer.waiting pointer then some a else none
  | .prod .index => match a.writer with | .pending _ => some a | _ => none
  | .prod (.increment pointer) => do
      let w ← a.writer.answer pointer 0
      let q ← a.q.push? pointer
      pure { a with writer := w, q := q, lengths := a.lengths.record .producer q.items.length }
  | .prod (.ret pointer rval) =>
      (a.writer.respond pointer rval).map fun w => { a with writer := w }
  | .cons .call => (a.reader.invoke ()).map fun r => { a with reader := r }
  | .cons .empty => do
      let a' ← a.readLength .consumer 0
      let r ← a.reader.answer () NULL
      pure { a' with reader := r }
  | .cons (.avail count) =>
      if a.reader.waiting () ∧ count ≤ a.q.items.length ∧ count ≠ 0 then
        a.readLength .consumer count
      else none
  | .cons (.load _ _) => if a.reader.waiting () then some a else none
  | .cons .index => if a.reader.waiting () then some a else none
  | .cons (.decrement pointer) => do
      let (head, q) ← a.q.pop?
      if head = pointer then
        let r ← a.reader.answer () head
        pure { a with reader := r, q := q, lengths := a.lengths.record .consumer q.items.length }
      else none
  | .cons (.ret pointer) =>
      (a.reader.respond () pointer).map fun r => { a with reader := r }
  | .count t count => a.readLength t count
  | .work _ _ => some a

end StaleFifo

/-! ## §2. The simulation relation. -/

/-- The code over release/acquire after the trace `tr`, and the specification. -/
structure FollowsLate (size : Nat) (storage : Nat → Ptr) (tr : List Event) (c : Config RaMem)
    (a : StaleFifo size) : Prop where
  inv : RaInv size storage tr c
  queue : a.q.items = unread tr
  /-- The history of `n` is the history of the length. -/
  lengths : a.lengths.values = (c.mem.hist .n).map fun msg => Words.exact.toUnsigned msg.value
  /-- A thread knows more than it is held to. -/
  seen : ∀ t, a.lengths.seen t ≤ c.mem.view t .n
  writer : a.writer = c.prod.pc.caller
  reader : a.reader = c.cons.pc.caller

/-- A load of `n` and the time of the message it got. -/
theorem loaded_time {o : Order} {c c' : Config RaMem} {e : Event}
    (h : Transition (viewAtomics o .exact) .exact c e c') {n : Nat} (hn : e.observed? = some n) :
    ∃ (time : Nat) (msg : Message Loc Int), c.mem.view e.thread .n ≤ time
      ∧ (c.mem.hist .n)[time]? = some msg ∧ Words.exact.toUnsigned msg.value = n
      ∧ time ≤ c'.mem.view e.thread .n ∧ c'.mem.hist .n = c.mem.hist .n := by
  cases h with
  | full hpc hread hcheck | room hpc hread hcheck | avail hpc hread hcheck | count ht hread =>
      obtain ⟨msg, hmsg, rfl, hknown, hhist, _, hnow, _⟩ := ViewMemory.load_some hread
      exact ⟨_, msg, hknown, hmsg, Option.some.inj hn, hnow, by rw [hhist]⟩
  | empty hpc hread hz =>
      obtain ⟨msg, hmsg, rfl, hknown, hhist, _, hnow, _⟩ := ViewMemory.load_some hread
      exact ⟨_, msg, hknown, hmsg, hz.trans (Option.some.inj hn), hnow, by rw [hhist]⟩
  | _ => exact absurd hn (by simp)

/-- An update of `n` appends one message, and its thread knows it. -/
theorem appended_n {o : Order} {c c' : Config RaMem} {e : Event}
    (h : Transition (viewAtomics o .exact) .exact c e c') {up : Bool} (hup : e.update? = some up)
    {last : Message Loc Int} (hlast : (c.mem.hist .n).getLast? = some last) :
    ∃ (x : Int) (v : View Loc), c'.mem.hist .n = c.mem.hist .n ++ [⟨x, v⟩]
      ∧ (c.mem.hist .n).length ≤ c'.mem.view e.thread .n := by
  cases h with
  | increment ch hpc =>
      obtain ⟨v, hhist, _, _, _, hself⟩ := ViewMemory.modify_spec o.updateAcquires
        o.updateReleases Thread.producer Words.exact.increment hlast
      exact ⟨_, v, (congrFun hhist .n).trans (Function.update_self _ _ _), hself⟩
  | decrement ch hpc =>
      obtain ⟨v, hhist, _, _, _, hself⟩ := ViewMemory.modify_spec o.updateAcquires
        o.updateReleases Thread.consumer Words.exact.decrement hlast
      exact ⟨_, v, (congrFun hhist .n).trans (Function.update_self _ _ _), hself⟩
  | _ => simp at hup

namespace FollowsLate

variable {b : Bool} {size : Nat} {storage : Nat → Ptr} {tr : List Event} {c c' : Config RaMem}
  {a : StaleFifo size} {e : Event}

theorem init (size : Nat) (storage : Nat → Ptr) :
    FollowsLate size storage [] (pointerfifoInitRa size storage) (StaleFifo.init size) :=
  ⟨RaInv.init size storage, rfl, rfl, fun _ => Nat.zero_le _, rfl, rfl⟩

/-- The length of the queue is the true count. -/
theorem length_eq (hF : FollowsLate size storage tr c a) :
    a.q.items.length + (popped tr).length = (pushed tr).length := by
  have hle := hF.inv.history.bounded.1
  rw [hF.queue, unread_length]
  omega

/-- A step that leaves the counter alone leaves the lengths alone. -/
theorem lengths_quiet (hF : FollowsLate size storage tr c a)
    (h : Transition (viewAtomics (releaseAcquire b) .exact) .exact c e c')
    (hup : e.update? = none) :
    a.lengths.values = (c'.mem.hist .n).map (fun msg => Words.exact.toUnsigned msg.value)
      ∧ ∀ t, a.lengths.seen t ≤ c'.mem.view t .n := by
  rw [h.hist_n_eq hup]
  exact ⟨hF.lengths, fun t => (hF.seen t).trans (h.view_le t .n)⟩

/-- **What a thread loads from `n` it can read from the lengths.** -/
theorem observed (hF : FollowsLate size storage tr c a)
    (h : Transition (viewAtomics (releaseAcquire b) .exact) .exact c e c') {count : Nat}
    (hcount : e.observed? = some count) :
    ∃ l, a.lengths.read? e.thread count = some l
      ∧ l.values = (c'.mem.hist .n).map (fun msg => Words.exact.toUnsigned msg.value)
      ∧ ∀ t, l.seen t ≤ c'.mem.view t .n := by
  obtain ⟨time, msg, hknown, hmsg, hval, hnow, hsame⟩ := loaded_time h hcount
  have hat : a.lengths.values[time]? = some count := by
    rw [hF.lengths, List.getElem?_map, hmsg]
    exact congrArg some hval
  obtain ⟨l, hl, hvalues, hself, hothers⟩ :=
    StaleRegister.read?_of_getElem? ((hF.seen e.thread).trans hknown) hat
  refine ⟨l, hl, ?_, ?_⟩
  · rw [hvalues, hF.lengths, hsame]
  · intro t
    by_cases ht : t = e.thread
    · rw [ht]
      exact hself.trans hnow
    · rw [hothers t ht]
      exact (hF.seen t).trans (h.view_le t .n)

/-- **An update of `n` records the new length.** -/
theorem updated (hF : FollowsLate size storage tr c a)
    (h : Transition (viewAtomics (releaseAcquire b) .exact) .exact c e c') {up : Bool}
    (hup : e.update? = some up) (length : Nat)
    (hlength : length + (popped (tr ++ [e])).length = (pushed (tr ++ [e])).length) :
    (a.lengths.record e.thread length).values
        = (c'.mem.hist .n).map (fun msg => Words.exact.toUnsigned msg.value)
      ∧ ∀ t, (a.lengths.record e.thread length).seen t ≤ c'.mem.view t .n := by
  have hH' := hF.inv.history_step h
  have hlen : a.lengths.values.length = (c.mem.hist .n).length := by
    rw [hF.lengths, List.length_map]
  obtain ⟨_, hlast, _⟩ := hF.inv.history.newest
  obtain ⟨x, v, hhist, hself⟩ := appended_n h hup hlast
  have hx : Words.exact.toUnsigned x = length := by
    obtain ⟨newest, hnewest, _, hval⟩ := hH'.newest
    rw [hhist, List.getLast?_concat] at hnewest
    obtain rfl := Option.some.inj hnewest
    show x.toNat = length
    have hval' : x = (pushed (tr ++ [e])).length - (popped (tr ++ [e])).length := hval
    omega
  constructor
  · show a.lengths.values ++ [length] = _
    rw [hhist, List.map_append, hF.lengths, List.map_singleton]
    rw [hx]
  · intro t
    show Function.update a.lengths.seen e.thread a.lengths.values.length t ≤ _
    by_cases ht : t = e.thread
    · rw [ht, Function.update_self, hlen]
      exact hself
    · rw [Function.update_of_ne ht]
      exact (hF.seen t).trans (h.view_le t .n)

/-! ## §3. Every step is accepted. -/

/-- **One step of the code is one event of the specification.** -/
theorem step (hF : FollowsLate size storage tr c a)
    (h : Transition (viewAtomics (releaseAcquire b) .exact) .exact c e c') :
    ∃ a', a.accept e = some a' ∧ FollowsLate size storage (tr ++ [e]) c' a' := by
  have hI' := hF.inv.step_keeps h
  have hlen := hF.length_eq
  have hq := hF.queue
  have hw := hF.writer
  have hr := hF.reader
  have hquiet := hF.lengths_quiet h
  have hsees (count : Nat) (hcount : e.observed? = some count) := hF.observed h hcount
  have hupdated (up : Bool) (hup : e.update? = some up) (length : Nat) :=
    hF.updated h hup length
  cases h with
  | callNull hpc =>
      obtain ⟨hvalues, hseen⟩ := hquiet rfl
      simp only [hpc, WritePc.caller] at hw
      exact ⟨{ a with writer := .answered NULL (-2) }, by simp [StaleFifo.accept, hw],
        hI', by simpa [unread] using hq, hvalues, hseen, rfl, hr⟩
  | @call pointer hpc hp =>
      obtain ⟨hvalues, hseen⟩ := hquiet rfl
      simp only [hpc, WritePc.caller] at hw
      exact ⟨{ a with writer := .pending pointer }, by simp [StaleFifo.accept, hw, hp],
        hI', by simpa [unread] using hq, hvalues, hseen, rfl, hr⟩
  | @full pointer ch n m hpc hread hfull =>
      obtain ⟨l, hl, hvalues, hseen⟩ := hsees _ rfl
      simp only [hpc, WritePc.caller] at hw
      have hsize : Words.exact.toUnsigned n = size := hfull.trans hF.inv.size_eq
      rw [hsize] at hl
      have hget : a.lengths.read? .producer size = some l := hl
      exact ⟨{ a with writer := .answered pointer (-1), lengths := l },
        by simp [StaleFifo.accept, StaleFifo.readLength, hw, hget, hsize],
        hI', by simpa [unread] using hq, hvalues, hseen, rfl, hr⟩
  | @room pointer ch n m hpc hread hfull =>
      obtain ⟨l, hl, hvalues, hseen⟩ := hsees _ rfl
      simp only [hpc, WritePc.caller] at hw
      have hget : a.lengths.read? .producer (Words.exact.toUnsigned n) = some l := hl
      -- the count is not too low, and not `size`
      obtain ⟨msg, hmsg, rfl, hknown, _⟩ := ViewMemory.load_some hread
      obtain ⟨hlow, hhigh⟩ := hF.inv.producer_count hknown hmsg rfl
      have hsize := hF.inv.size_eq
      have hbetween : a.q.items.length ≤ Words.exact.toUnsigned msg.value
          ∧ Words.exact.toUnsigned msg.value < size := by omega
      exact ⟨{ a with lengths := l },
        by simp [StaleFifo.accept, StaleFifo.readLength, hw, hget, hbetween],
        hI', by simpa [unread] using hq, hvalues, hseen, hw, hr⟩
  | store hpc hwrite =>
      obtain ⟨hvalues, hseen⟩ := hquiet rfl
      simp only [hpc, WritePc.caller] at hw
      exact ⟨a, by simp [StaleFifo.accept, hw],
        hI', by simpa [unread] using hq, hvalues, hseen, hw, hr⟩
  | indexWrite hpc =>
      obtain ⟨hvalues, hseen⟩ := hquiet rfl
      simp only [hpc, WritePc.caller] at hw
      exact ⟨a, by simp [StaleFifo.accept, hw],
        hI', by simpa [unread] using hq, hvalues, hseen, hw, hr⟩
  | @increment pointer ch hpc =>
      -- the write takes effect: its pointer joins the queue
      simp only [hpc, WritePc.caller] at hw
      have hbd := hI'.history.bounded
      have hjoin : unread (tr ++ [.prod (.increment pointer)]) = unread tr ++ [pointer] :=
        unread_pushed hF.inv.history.bounded.1 rfl rfl
      let q' : BoundedQueue Ptr size :=
        ⟨unread (tr ++ [.prod (.increment pointer)]), by rw [unread_length]; omega⟩
      have hpush : a.q.push? pointer = some q' :=
        BoundedQueue.push?_some (by rw [hq]; exact hjoin)
      obtain ⟨hvalues, hseen⟩ := hupdated true rfl q'.items.length
        (by rw [show q'.items = unread _ from rfl, unread_length]; omega)
      exact ⟨{ a with
          writer := .answered pointer 0
          q := q'
          lengths := a.lengths.record .producer q'.items.length },
        by simp [StaleFifo.accept, hw, hpush], hI', rfl, hvalues, hseen, rfl, hr⟩
  | retWrite hpc =>
      obtain ⟨hvalues, hseen⟩ := hquiet rfl
      simp only [hpc, WritePc.caller] at hw
      exact ⟨{ a with writer := .idle }, by simp [StaleFifo.accept, hw],
        hI', by simpa [unread] using hq, hvalues, hseen, rfl, hr⟩
  | callRead hpc =>
      obtain ⟨hvalues, hseen⟩ := hquiet rfl
      simp only [hpc, ReadPc.caller] at hr
      exact ⟨{ a with reader := .pending () }, by simp [StaleFifo.accept, hr],
        hI', by simpa [unread] using hq, hvalues, hseen, hw, rfl⟩
  | empty hpc hread hz =>
      obtain ⟨l, hl, hvalues, hseen⟩ := hsees 0 rfl
      simp only [hpc, ReadPc.caller] at hr
      have hget : a.lengths.read? .consumer 0 = some l := hl
      exact ⟨{ a with reader := .answered () NULL, lengths := l },
        by simp [StaleFifo.accept, StaleFifo.readLength, hr, hget],
        hI', by simpa [unread] using hq, hvalues, hseen, hw, rfl⟩
  | @avail ch n m hpc hread hz =>
      obtain ⟨l, hl, hvalues, hseen⟩ := hsees _ rfl
      simp only [hpc, ReadPc.caller] at hr
      have hget : a.lengths.read? .consumer (Words.exact.toUnsigned n) = some l := hl
      -- the count is not too high
      obtain ⟨msg, hmsg, rfl, hknown, _⟩ := ViewMemory.load_some hread
      obtain ⟨_, hhigh⟩ := hF.inv.consumer_count hknown hmsg rfl
      have hbetween : Words.exact.toUnsigned msg.value ≤ a.q.items.length := by omega
      exact ⟨{ a with lengths := l },
        by simp [StaleFifo.accept, StaleFifo.readLength, hr, hget, hbetween, hz],
        hI', by simpa [unread] using hq, hvalues, hseen, hw, hr⟩
  | load hpc hread =>
      obtain ⟨hvalues, hseen⟩ := hquiet rfl
      simp only [hpc, ReadPc.caller] at hr
      exact ⟨a, by simp [StaleFifo.accept, hr],
        hI', by simpa [unread] using hq, hvalues, hseen, hw, hr⟩
  | indexRead hpc =>
      obtain ⟨hvalues, hseen⟩ := hquiet rfl
      simp only [hpc, ReadPc.caller] at hr
      exact ⟨a, by simp [StaleFifo.accept, hr],
        hI', by simpa [unread] using hq, hvalues, hseen, hw, hr⟩
  | @decrement pointer ch hpc =>
      -- the read takes effect: the pointer in its hand is the head of the queue
      simp only [hpc, ReadPc.caller] at hr
      have hbd := hI'.history.bounded
      have hpopped := hI'.taken_le
      simp only [ReadPc.taken, List.append_nil] at hpopped
      have hhead : unread tr = pointer :: unread (tr ++ [.cons (.decrement pointer)]) :=
        unread_popped rfl rfl hpopped
      let q' : BoundedQueue Ptr size :=
        ⟨unread (tr ++ [.cons (.decrement pointer)]), by rw [unread_length]; omega⟩
      have hpop : a.q.pop? = some (pointer, q') :=
        BoundedQueue.pop?_some (by rw [hq]; exact hhead)
      obtain ⟨hvalues, hseen⟩ := hupdated false rfl q'.items.length
        (by rw [show q'.items = unread _ from rfl, unread_length]; omega)
      exact ⟨{ a with
          reader := .answered () pointer
          q := q'
          lengths := a.lengths.record .consumer q'.items.length },
        by simp [StaleFifo.accept, hr, hpop], hI', rfl, hvalues, hseen, hw, rfl⟩
  | retRead hpc =>
      obtain ⟨hvalues, hseen⟩ := hquiet rfl
      simp only [hpc, ReadPc.caller] at hr
      exact ⟨{ a with reader := .idle }, by simp [StaleFifo.accept, hr],
        hI', by simpa [unread] using hq, hvalues, hseen, hw, rfl⟩
  | count ht hread =>
      obtain ⟨l, hl, hvalues, hseen⟩ := hsees _ rfl
      exact ⟨{ a with lengths := l }, congrArg (Option.map _) hl,
        hI', by simpa [unread] using hq, hvalues, hseen, hw, hr⟩
  | work ht =>
      obtain ⟨hvalues, hseen⟩ := hquiet rfl
      exact ⟨a, by simp [StaleFifo.accept],
        hI', by simpa [unread] using hq, hvalues, hseen, hw, hr⟩

end FollowsLate

/-! ## §4. The theorem. -/

/-- What was received is a prefix of what was pushed, stale as the slots are. -/
theorem RaInv.received_le {size : Nat} {storage : Nat → Ptr} {tr : List Event} {c : Config RaMem}
    (hI : RaInv size storage tr c) : received tr <+: pushed tr := by
  have hpopped : popped tr <+: pushed tr := (List.prefix_append _ _).trans hI.taken_le
  have heq : popped tr = received tr ++ c.cons.pc.unreturned :=
    hI.consumer.popped_eq fun pointer hmem =>
      hI.producer.pushed_ne pointer (hpopped.subset hmem)
  refine List.IsPrefix.trans ?_ hpopped
  rw [heq]
  exact List.prefix_append _ _

/-- **OVER WEAK MEMORY THE FIFO IS A QUEUE WITH A STALE LENGTH.**  With
release/acquire on `n`, coherence on the slots and nothing more, for every
interleaving and every stale value the memory may return: the trace is
accepted by the stale FIFO, whose queue holds the pointers pushed and not
popped, and whose last length is the true one; and the reads returned the
oldest pointers pushed, in order. -/
theorem pointerfifo_stale_queue (updateAcquires : Bool) (size : Nat) (storage : Nat → Ptr)
    (as : List (Action Nat)) (c : Config RaMem) (tr : List Event)
    (h : raRun (releaseAcquire updateAcquires) size storage as = some (c, tr)) :
    ∃ a : StaleFifo size, replay StaleFifo.accept (StaleFifo.init size) tr = some a
      ∧ a.q.items = unread tr ∧ a.lengths.values.getLast? = some a.q.items.length
      ∧ a.writer = c.prod.pc.caller ∧ a.reader = c.cons.pc.caller
      ∧ received tr <+: pushed tr := by
  obtain ⟨a, hacc, hF⟩ := replay_of_run (FollowsLate.init size storage)
    (fun _ _ _ _ _ _ hF hs => hF.step (step_transition hs)) h
  refine ⟨a, hacc, hF.queue, ?_, hF.writer, hF.reader, hF.inv.received_le⟩
  obtain ⟨last, hlast, _, hval⟩ := hF.inv.history.newest
  have hlen := hF.length_eq
  rw [hF.lengths, List.getLast?_map, hlast]
  refine congrArg some ?_
  show last.value.toNat = a.q.items.length
  omega

/-- In `lagging` the last write is refused, and the queue has room: no atomic
queue does that. -/
theorem lagging_stale_queue :
    ∃ c tr, raRun (releaseAcquire false) 2 (fun _ => 77) lagging = some (c, tr)
      ∧ writes tr = [(5, 0), (6, 0), (7, -1)]
      ∧ replay AtomicFifo.accept (AtomicFifo.init 2) tr = none
      ∧ ∃ a : StaleFifo 2, replay StaleFifo.accept (StaleFifo.init 2) tr = some a
        ∧ a.q.items = unread tr ∧ a.lengths.values.getLast? = some a.q.items.length
        ∧ a.writer = c.prod.pc.caller ∧ a.reader = c.cons.pc.caller
        ∧ received tr <+: pushed tr :=
  ⟨_, _, rfl, rfl, rfl, pointerfifo_stale_queue false 2 (fun _ => 77) lagging _ _ rfl⟩

end MulleFifo
