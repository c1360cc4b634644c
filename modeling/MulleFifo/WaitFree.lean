/-
  MulleFifo.WaitFree — a call is a few steps of its own thread.

  Nothing in the code waits: there is no loop and no lock, an access is
  never retried.  What a thread shows is therefore a list of whole calls,
  each of one of a few forms, and the beginning of one more:

      write:  call ret(-2)  |  call full ret(-1)
                            |  call room store index increment ret(0)
      read:   call empty ret(NULL)
                            |  call avail load index decrement ret

  (`WriteCall`, `ReadCall`).  That is a fact about the code alone, over
  every memory and every arithmetic.  A call in progress returns after the
  steps that are left in it (`WritePc.left`), whatever the others do in
  between, and it can always take the next one, over sequentially
  consistent and over weak memory.
-/
import MulleFifo.Newest
import MulleFifo.StaleCounts

namespace MulleFifo

open Lib

/-! ## §1. The forms of a call. -/

/-- What the producer shows. -/
@[simp] def Event.prod? : Event → Option WriteEvent
  | .prod e => some e
  | _ => none

/-- What the consumer shows. -/
@[simp] def Event.cons? : Event → Option ReadEvent
  | .cons e => some e
  | _ => none

/-- The steps of the producer. -/
def writeEvents (tr : List Event) : List WriteEvent := tr.filterMap Event.prod?

/-- The steps of the consumer. -/
def readEvents (tr : List Event) : List ReadEvent := tr.filterMap Event.cons?

@[simp] theorem writeEvents_snoc (tr : List Event) (e : Event) :
    writeEvents (tr ++ [e]) = writeEvents tr ++ e.prod?.toList := filterMap_snoc _ tr e

@[simp] theorem readEvents_snoc (tr : List Event) (e : Event) :
    readEvents (tr ++ [e]) = readEvents tr ++ e.cons?.toList := filterMap_snoc _ tr e

/-- A call of `_mulle_pointerfifo_write`, by how it ends. -/
inductive WriteCall
  | null
  | full (pointer : Ptr) (count : Nat)
  | done (pointer : Ptr) (count slot : Nat)

/-- A call of `_mulle_pointerfifo_read`, by how it ends. -/
inductive ReadCall
  | empty
  | done (count slot : Nat) (pointer : Ptr)

/-- What the call shows. -/
def WriteCall.events : WriteCall → List WriteEvent
  | .null => [.call NULL, .ret NULL (-2)]
  | .full pointer count => [.call pointer, .full count, .ret pointer (-1)]
  | .done pointer count slot =>
      [.call pointer, .room pointer count, .store slot pointer, .index, .increment pointer,
        .ret pointer 0]

/-- Its argument and result. -/
def WriteCall.result : WriteCall → Ptr × Int
  | .null => (NULL, -2)
  | .full pointer _ => (pointer, -1)
  | .done pointer _ _ => (pointer, 0)

/-- What the call shows. -/
def ReadCall.events : ReadCall → List ReadEvent
  | .empty => [.call, .empty, .ret NULL]
  | .done count slot pointer =>
      [.call, .avail count, .load slot pointer, .index, .decrement pointer, .ret pointer]

/-- Its result. -/
def ReadCall.result : ReadCall → Ptr
  | .empty => NULL
  | .done _ _ pointer => pointer

/-- What a write shows up to a program point. -/
inductive OpenWrite : WritePc → List WriteEvent → Prop
  | idle : OpenWrite .idle []
  | getCount (pointer : Ptr) : OpenWrite (.getCount pointer) [.call pointer]
  | store (pointer : Ptr) (count : Nat) :
      OpenWrite (.store pointer) [.call pointer, .room pointer count]
  | index (pointer : Ptr) (count slot : Nat) :
      OpenWrite (.index pointer) [.call pointer, .room pointer count, .store slot pointer]
  | increment (pointer : Ptr) (count slot : Nat) :
      OpenWrite (.increment pointer)
        [.call pointer, .room pointer count, .store slot pointer, .index]
  | retNull : OpenWrite (.ret NULL (-2)) [.call NULL]
  | retFull (pointer : Ptr) (count : Nat) :
      OpenWrite (.ret pointer (-1)) [.call pointer, .full count]
  | retDone (pointer : Ptr) (count slot : Nat) :
      OpenWrite (.ret pointer 0)
        [.call pointer, .room pointer count, .store slot pointer, .index, .increment pointer]

/-- What a read shows up to a program point. -/
inductive OpenRead : ReadPc → List ReadEvent → Prop
  | idle : OpenRead .idle []
  | getCount : OpenRead .getCount [.call]
  | load (count : Nat) : OpenRead .load [.call, .avail count]
  | index (count slot : Nat) (pointer : Ptr) :
      OpenRead (.index pointer) [.call, .avail count, .load slot pointer]
  | decrement (count slot : Nat) (pointer : Ptr) :
      OpenRead (.decrement pointer) [.call, .avail count, .load slot pointer, .index]
  | retEmpty : OpenRead (.ret NULL) [.call, .empty]
  | retDone (count slot : Nat) (pointer : Ptr) :
      OpenRead (.ret pointer) [.call, .avail count, .load slot pointer, .index, .decrement pointer]

/-- The producer's steps are the calls that returned, with their results,
and the beginning of the one in progress. -/
abbrev WriteCalls (tr : List Event) (pc : WritePc) : Prop :=
  InCalls Event.prod? Event.writeResult? WriteCall.events WriteCall.result (OpenWrite pc) tr

/-- The consumer's steps are the calls that returned, with their results,
and the beginning of the one in progress. -/
abbrev ReadCalls (tr : List Event) (pc : ReadPc) : Prop :=
  InCalls Event.cons? Event.readResult? ReadCall.events ReadCall.result (OpenRead pc) tr

/-! ## §2. The steps of one thread. -/

section Steps

variable {μ χ : Type} {M : MemoryModel μ χ} {W : Words} {c c' : Config μ} {e : Event}
  {tr : List Event}

/-- A write that is about to return was a whole call. -/
theorem OpenWrite.whole {pointer : Ptr} {rval : Int} (rest : List WriteEvent)
    (h : OpenWrite (.ret pointer rval) rest) :
    ∃ call : WriteCall, call.events = rest ++ [.ret pointer rval]
      ∧ call.result = (pointer, rval) := by
  cases h with
  | retNull => exact ⟨.null, rfl, rfl⟩
  | retFull _ count => exact ⟨.full pointer count, rfl, rfl⟩
  | retDone _ count slot => exact ⟨.done pointer count slot, rfl, rfl⟩

/-- A read that is about to return was a whole call. -/
theorem OpenRead.whole {pointer : Ptr} (rest : List ReadEvent) (h : OpenRead (.ret pointer) rest) :
    ∃ call : ReadCall, call.events = rest ++ [.ret pointer] ∧ call.result = pointer := by
  cases h with
  | retEmpty => exact ⟨.empty, rfl, rfl⟩
  | retDone count slot => exact ⟨.done count slot pointer, rfl, rfl⟩

theorem OpenWrite.length_le {pc : WritePc} (rest : List WriteEvent) (h : OpenWrite pc rest) :
    rest.length ≤ 5 := by
  cases h <;> simp

theorem OpenRead.length_le {pc : ReadPc} (rest : List ReadEvent) (h : OpenRead pc rest) :
    rest.length ≤ 5 := by
  cases h <;> simp

/-- **The step lemma** of the writes. -/
theorem WriteCalls.step (h : WriteCalls tr c.prod.pc) (ht : Transition M W c e c') :
    WriteCalls (tr ++ [e]) c'.prod.pc := by
  cases ht with
  | callNull hpc | call hpc | full hpc | room hpc | store hpc | indexWrite hpc
  | increment _ hpc =>
      rw [hpc] at h
      refine h.go rfl rfl ?_
      rintro rest ⟨⟩
      constructor
  | retWrite hpc =>
      rw [hpc] at h
      exact h.ret rfl rfl OpenWrite.whole .idle
  | _ => exact h.others rfl rfl

/-- **The step lemma** of the reads. -/
theorem ReadCalls.step (h : ReadCalls tr c.cons.pc) (ht : Transition M W c e c') :
    ReadCalls (tr ++ [e]) c'.cons.pc := by
  cases ht with
  | callRead hpc | empty hpc | avail hpc | load hpc | indexRead hpc | decrement _ hpc =>
      rw [hpc] at h
      refine h.go rfl rfl ?_
      rintro rest ⟨⟩
      constructor
  | retRead hpc =>
      rw [hpc] at h
      exact h.ret rfl rfl OpenRead.whole .idle
  | _ => exact h.others rfl rfl

end Steps

/-! ## §3. What is left of a call. -/

/-- The steps a write has left, its return included. -/
@[simp] def WritePc.left : WritePc → Nat
  | .idle => 0
  | .getCount _ => 5
  | .store _ => 4
  | .index _ => 3
  | .increment _ => 2
  | .ret _ _ => 1

/-- The steps a read has left, its return included. -/
@[simp] def ReadPc.left : ReadPc → Nat
  | .idle => 0
  | .getCount => 5
  | .load => 4
  | .index _ => 3
  | .decrement _ => 2
  | .ret _ => 1

section Left

variable {μ χ : Type} {M : MemoryModel μ χ} {W : Words} {c c' : Config μ} {e : Event}
  {tr : List Event}

/-- A write of at most `bound` steps returned, or has that many left. -/
def WriteLeft (bound : Nat) (tr : List Event) (pc : WritePc) : Prop :=
  writes tr ≠ [] ∨ (pc ≠ .idle ∧ (writeEvents tr).length + pc.left ≤ bound)

/-- A read of at most `bound` steps returned, or has that many left. -/
def ReadLeft (bound : Nat) (tr : List Event) (pc : ReadPc) : Prop :=
  reads tr ≠ [] ∨ (pc ≠ .idle ∧ (readEvents tr).length + pc.left ≤ bound)

theorem WriteLeft.step {bound : Nat} (h : WriteLeft bound tr c.prod.pc)
    (ht : Transition M W c e c') : WriteLeft bound (tr ++ [e]) c'.prod.pc := by
  rcases h with hret | ⟨hbusy, hleft⟩
  · left
    rw [writes_snoc]
    exact List.append_ne_nil_of_left_ne_nil hret _
  · cases ht with
    | callNull hpc | call hpc => exact absurd hpc hbusy
    | retWrite hpc =>
        left
        simp
    | full hpc | room hpc | store hpc | indexWrite hpc | increment _ hpc =>
        right
        rw [hpc] at hleft
        simp only [WritePc.left] at hleft
        refine ⟨by simp, ?_⟩
        rw [writeEvents_snoc, List.length_append]
        simp only [Event.prod?, Option.toList_some, List.length_singleton, WritePc.left]
        omega
    | _ =>
        right
        refine ⟨hbusy, ?_⟩
        simpa using hleft

theorem ReadLeft.step {bound : Nat} (h : ReadLeft bound tr c.cons.pc)
    (ht : Transition M W c e c') : ReadLeft bound (tr ++ [e]) c'.cons.pc := by
  rcases h with hret | ⟨hbusy, hleft⟩
  · left
    rw [reads_snoc]
    exact List.append_ne_nil_of_left_ne_nil hret _
  · cases ht with
    | callRead hpc => exact absurd hpc hbusy
    | retRead hpc =>
        left
        simp
    | empty hpc | avail hpc | load hpc | indexRead hpc | decrement _ hpc =>
        right
        rw [hpc] at hleft
        simp only [ReadPc.left] at hleft
        refine ⟨by simp, ?_⟩
        rw [readEvents_snoc, List.length_append]
        simp only [Event.cons?, Option.toList_some, List.length_singleton, ReadPc.left]
        omega
    | _ =>
        right
        refine ⟨hbusy, ?_⟩
        simpa using hleft

variable {as : List (Action χ)}

/-- **A write returns within the steps it has left**, whatever the others do. -/
theorem write_returns (h : run (step M W) c as = some (c', tr)) (hbusy : c.prod.pc ≠ .idle)
    (hown : c.prod.pc.left ≤ (writeEvents tr).length) : writes tr ≠ [] := by
  have hstart : WriteLeft c.prod.pc.left [] c.prod.pc := by
    refine .inr ⟨hbusy, ?_⟩
    exact Nat.le_of_eq (Nat.zero_add _)
  have hend : WriteLeft c.prod.pc.left tr c'.prod.pc :=
    run_invariant (P := fun tr s => WriteLeft c.prod.pc.left tr s.prod.pc) hstart
      (fun _ _ _ _ _ hL hs => hL.step (step_transition hs)) h
  rcases hend with hret | ⟨hbusy', hleft⟩
  · exact hret
  · have hpos : 0 < c'.prod.pc.left := by
      cases hpc : c'.prod.pc with
      | idle => exact absurd hpc hbusy'
      | _ => exact Nat.succ_pos _
    omega

/-- **A read returns within the steps it has left**, whatever the others do. -/
theorem read_returns (h : run (step M W) c as = some (c', tr)) (hbusy : c.cons.pc ≠ .idle)
    (hown : c.cons.pc.left ≤ (readEvents tr).length) : reads tr ≠ [] := by
  have hstart : ReadLeft c.cons.pc.left [] c.cons.pc := by
    refine .inr ⟨hbusy, ?_⟩
    exact Nat.le_of_eq (Nat.zero_add _)
  have hend : ReadLeft c.cons.pc.left tr c'.cons.pc :=
    run_invariant (P := fun tr s => ReadLeft c.cons.pc.left tr s.cons.pc) hstart
      (fun _ _ _ _ _ hL hs => hL.step (step_transition hs)) h
  rcases hend with hret | ⟨hbusy', hleft⟩
  · exact hret
  · have hpos : 0 < c'.cons.pc.left := by
      cases hpc : c'.cons.pc with
      | idle => exact absurd hpc hbusy'
      | _ => exact Nat.succ_pos _
    omega

end Left

/-! ## §4. No access has to wait. -/

/-- Every access is answered at once, for some choice. -/
structure Answers {μ χ : Type} (M : MemoryModel μ χ) (m : μ) : Prop where
  readN : ∀ t, ∃ ch r, (M t ch).readN m = some r
  readSlot : ∀ t i, ∃ ch r, (M t ch).readSlot i m = some r
  writeSlot : ∀ t i pointer, ∃ ch m', (M t ch).writeSlot i pointer m = some m'

namespace Answers

variable {μ χ : Type} {M : MemoryModel μ χ} {W : Words} {c : Config μ}

theorem getCount (h : Answers M c.mem) (t : Thread) :
    ∃ ch r, MulleFifo.getCount (M t ch) W c.mem = some r := by
  obtain ⟨ch, r, hr⟩ := h.readN t
  exact ⟨ch, _, Option.map_eq_some_iff.mpr ⟨r, hr, rfl⟩⟩

/-- **A write can always take its next step.** -/
theorem write_next (h : Answers M c.mem) (hbusy : c.prod.pc ≠ .idle) :
    ∃ ch r, step M W c (.prod ch) = some r := by
  have hnext : ∃ ch r,
      writeStep (M .producer ch) W c.size c.size c.prod c.mem = some r := by
    obtain ⟨ch₀, _⟩ := h.readN .producer
    unfold writeStep
    cases hpc : c.prod.pc with
    | idle => exact absurd hpc hbusy
    | getCount pointer =>
        obtain ⟨ch, r, hr⟩ := h.getCount (W := W) .producer
        exact ⟨ch, _, Option.map_eq_some_iff.mpr ⟨r, hr, rfl⟩⟩
    | store pointer =>
        obtain ⟨ch, m', hm'⟩ := h.writeSlot .producer c.prod.write pointer
        exact ⟨ch, _, Option.map_eq_some_iff.mpr ⟨m', hm', rfl⟩⟩
    | index pointer | increment pointer | ret pointer rval => exact ⟨ch₀, _, rfl⟩
  obtain ⟨ch, r, hr⟩ := hnext
  exact ⟨ch, _, Option.map_eq_some_iff.mpr ⟨r, hr, rfl⟩⟩

/-- **A read can always take its next step.** -/
theorem read_next (h : Answers M c.mem) (hbusy : c.cons.pc ≠ .idle) :
    ∃ ch r, step M W c (.cons ch) = some r := by
  have hnext : ∃ ch r, readStep (M .consumer ch) W c.size c.cons c.mem = some r := by
    obtain ⟨ch₀, _⟩ := h.readN .consumer
    unfold readStep
    cases hpc : c.cons.pc with
    | idle => exact absurd hpc hbusy
    | getCount =>
        obtain ⟨ch, r, hr⟩ := h.getCount (W := W) .consumer
        exact ⟨ch, _, Option.map_eq_some_iff.mpr ⟨r, hr, rfl⟩⟩
    | load =>
        obtain ⟨ch, r, hr⟩ := h.readSlot .consumer c.cons.read
        exact ⟨ch, _, Option.map_eq_some_iff.mpr ⟨r, hr, rfl⟩⟩
    | index pointer | decrement pointer | ret pointer => exact ⟨ch₀, _, rfl⟩
  obtain ⟨ch, r, hr⟩ := hnext
  exact ⟨ch, _, Option.map_eq_some_iff.mpr ⟨r, hr, rfl⟩⟩

/-- A count is one step. -/
theorem count_next (h : Answers M c.mem) {t : Thread} (ht : betweenCalls c.prod c.cons t) :
    ∃ ch r, step M W c (.getCount t ch) = some r := by
  obtain ⟨ch, r, hr⟩ := h.getCount (W := W) t
  refine ⟨ch, ({ c with mem := r.2 }, .count t r.1), ?_⟩
  simp only [step, if_pos ht, hr, Option.map_some]

end Answers

theorem seqCst_answers (W : Words) (m : ScMem) : Answers (seqCst W) m where
  readN _ := ⟨(), _, rfl⟩
  readSlot _ _ := ⟨(), _, rfl⟩
  writeSlot _ _ _ := ⟨(), _, rfl⟩

/-- Over weak memory the newest message is there to be loaded. -/
theorem viewAtomics_answers (o : Order) (W : Words) {m : RaMem} (hG : m.Grounded) :
    Answers (viewAtomics o W) m where
  readN t := by
    obtain ⟨last, m', _, hload, _⟩ := hG.load o.loadAcquires t .n
    exact ⟨m.newestTime .n, _, hload⟩
  readSlot t i := by
    obtain ⟨last, m', _, hload, _⟩ := hG.load false t (.slot i)
    exact ⟨m.newestTime (.slot i), _, hload⟩
  writeSlot _ _ _ := ⟨0, _, rfl⟩

/-- The memory stays grounded, whatever is loaded. -/
theorem Transition.grounded {o : Order} {c c' : Config RaMem} {e : Event} (hG : c.mem.Grounded)
    (h : Transition (viewAtomics o .exact) .exact c e c') : c'.mem.Grounded := by
  cases h with
  | full hpc hread | room hpc hread | empty hpc hread | avail hpc hread | load hpc hread
  | count hpc hread => exact hG.loaded hread
  | store hpc hwrite =>
      obtain rfl := Option.some.inj hwrite
      exact (newest_writeSlot hG .producer _ _).1
  | increment => exact (newest_updateN (o := o) hG .producer _).1
  | decrement => exact (newest_updateN (o := o) hG .consumer _).1
  | _ => exact hG

/-! ## §5. The theorem. -/

/-- The calls of both threads, and how long the one in progress can take. -/
structure WaitFree {μ χ : Type} (M : MemoryModel μ χ) (W : Words) (tr : List Event)
    (c : Config μ) : Prop where
  write_calls : WriteCalls tr c.prod.pc
  read_calls : ReadCalls tr c.cons.pc
  /-- All but the last call returned, and none took more than 6 steps. -/
  write_steps : (writeEvents tr).length ≤ 6 * (writes tr).length + 5
  read_steps : (readEvents tr).length ≤ 6 * (reads tr).length + 5
  /-- A call in progress returns within 5 steps of its own. -/
  write_returns : c.prod.pc ≠ .idle → ∀ as c' es, run (step M W) c as = some (c', es) →
    5 ≤ (writeEvents es).length → writes es ≠ []
  read_returns : c.cons.pc ≠ .idle → ∀ as c' es, run (step M W) c as = some (c', es) →
    5 ≤ (readEvents es).length → reads es ≠ []
  /-- And can take them. -/
  write_next : c.prod.pc ≠ .idle → ∃ ch r, step M W c (.prod ch) = some r
  read_next : c.cons.pc ≠ .idle → ∃ ch r, step M W c (.cons ch) = some r
  count_next : ∀ t, betweenCalls c.prod c.cons t → ∃ ch r, step M W c (.getCount t ch) = some r

section Runs

variable {μ χ : Type} {M : MemoryModel μ χ} {W : Words} {c₀ c : Config μ} {as : List (Action χ)}
  {tr : List Event}

/-- From threads between calls, over any memory that answers. -/
theorem run_waitFree (hprod : c₀.prod.pc = .idle) (hcons : c₀.cons.pc = .idle)
    (h : run (step M W) c₀ as = some (c, tr)) (hM : Answers M c.mem) : WaitFree M W tr c := by
  have hwrites : WriteCalls tr c.prod.pc := by
    refine run_invariant (P := fun tr s => WriteCalls tr s.prod.pc) ?_
      (fun _ _ _ _ _ hC hs => WriteCalls.step hC (step_transition hs)) h
    rw [hprod]
    exact .init .idle
  have hreads : ReadCalls tr c.cons.pc := by
    refine run_invariant (P := fun tr s => ReadCalls tr s.cons.pc) ?_
      (fun _ _ _ _ _ hC hs => ReadCalls.step hC (step_transition hs)) h
    rw [hcons]
    exact .init .idle
  have hleft : c.prod.pc.left ≤ 5 := by
    cases c.prod.pc <;> simp
  have hleft' : c.cons.pc.left ≤ 5 := by
    cases c.cons.pc <;> simp
  refine ⟨hwrites, hreads, ?_, ?_, ?_, ?_, hM.write_next, hM.read_next, fun _ => hM.count_next⟩
  · refine hwrites.length_le ?_ OpenWrite.length_le
    intro call
    cases call <;> simp [WriteCall.events]
  · refine hreads.length_le ?_ OpenRead.length_le
    intro call
    cases call <;> simp [ReadCall.events]
  · intro hbusy bs c' es hrun hown
    exact write_returns hrun hbusy (hleft.trans hown)
  · intro hbusy bs c' es hrun hown
    exact read_returns hrun hbusy (hleft'.trans hown)

end Runs

/-- **EVERY CALL IS WAIT-FREE**, over sequentially consistent atomics and
over weak memory in any order.  What a thread showed is a list of whole
calls of the forms above, with their results, and the beginning of one
more; a call in progress can always take its next step, and returns within
five steps of its own, whatever the others do in between. -/
theorem calls_wait_free (size : Nat) (storage : Nat → Ptr) :
    (∀ as c tr, scRun size storage as = some (c, tr) → WaitFree (seqCst .exact) .exact tr c)
      ∧ ∀ o as c tr, raRun o size storage as = some (c, tr) →
          WaitFree (viewAtomics o .exact) .exact tr c := by
  constructor
  · intro as c tr h
    exact run_waitFree rfl rfl h (seqCst_answers .exact c.mem)
  · intro o as c tr h
    have hG : c.mem.Grounded :=
      run_invariant (P := fun _ c => c.mem.Grounded) (grounded_init size storage)
        (fun _ _ _ _ _ hG hs => Transition.grounded hG (step_transition hs)) h
    exact run_waitFree rfl rfl h (viewAtomics_answers o .exact hG)

/-- In `overlap` and in `lagging` a call of one thread is cut in pieces by
the other one. -/
theorem overlap_wait_free :
    (∃ c tr, scRun 2 (fun _ => 77) overlap = some (c, tr)
        ∧ (writeEvents tr).length = 6 ∧ WaitFree (seqCst .exact) .exact tr c)
      ∧ ∃ c tr, raRun (releaseAcquire false) 2 (fun _ => 77) lagging = some (c, tr)
        ∧ (writeEvents tr).length = 15
        ∧ WaitFree (viewAtomics (releaseAcquire false) .exact) .exact tr c :=
  ⟨⟨_, _, rfl, rfl, (calls_wait_free 2 fun _ => 77).1 overlap _ _ rfl⟩,
    ⟨_, _, rfl, rfl, (calls_wait_free 2 fun _ => 77).2 (releaseAcquire false) lagging _ _ rfl⟩⟩

end MulleFifo
