/-
  MulleFifo.ThreadsProgram — the program `threads.c` prints 1 to `last` and
  frees its storage in time.

  In its loops the program is a transfer of the list 1, 2, …, `last` with
  pauses (`asTransfer`), so all of `Model.Transfer` applies: what is printed
  is what was received, the first numbers of the list.  When `main` leaves
  its loop the last number was received, so the producer is past its last
  increment: it has returned, or it is about to return 0 for `last`
  (`producer_resting`).  It needs no storage for that, and `done` may run
  before `mulle_thread_join`, whatever becomes of the block.
-/
import MulleFifo.Model.Threads
import MulleFifo.Epochs
import MulleFifo.Completion

namespace MulleFifo

open Lib

/-! ## §1. The loops as a transfer. -/

/-- The pointers the producer writes. -/
abbrev numbers (last : Nat) : List Ptr := List.range' 1 last

/-- What the producer has to write, from the current pointer on. -/
def ThreadsState.offer (last : Nat) (s : ThreadsState) : List Ptr :=
  if s.quit then [] else List.range' s.i (last + 1 - s.i)

/-- The two loops, as a transfer of the numbers. -/
def ThreadsState.asTransfer (last block : Nat) (s : ThreadsState) : Transfer :=
  ⟨s.life.fifo.seen (blockMem block), s.offer last, s.printed⟩

/-- No step from `.done` on touches the FIFO. -/
def QuietAfterDone (tr : List LifeEvent) : Prop :=
  ∀ pre free post, tr = pre ++ .done free :: post → ∀ e, .fifo e ∈ post → e.touches = false

/-- While the FIFO is in use. -/
structure Using (size allocator last block : Nat) (tr : List LifeEvent) (s : ThreadsState) :
    Prop where
  storage : s.life.fifo.mem.storage = some block
  slots : s.life.fifo.mem.slots = size
  opened : s.life.phase = .opened
  allocator_eq : s.life.allocator = allocator
  transfer : ∃ garbage, TransferInv size garbage (numbers last) (epoch tr) (s.asTransfer last block)
  i_le : s.quit = false → 1 ≤ s.i ∧ s.i ≤ last
  not_done : ∀ free, .done free ∉ tr
  log : allocLog tr = [.malloc allocator block]

/-- The producer has at most its last return ahead of it. -/
def ProducerResting (last : Nat) (s : ThreadsState) : Prop :=
  (s.quit = true ∧ s.life.fifo.prod.pc = .idle)
    ∨ (s.quit = false ∧ s.i = last ∧ s.life.fifo.prod.pc = .ret last 0)

/-- After `done`. -/
structure Closed (allocator last : Nat) (tr : List LifeEvent) (s : ThreadsState) : Prop where
  resting : ProducerResting last s
  printed : s.printed = numbers last
  quiet : QuietAfterDone tr
  log : ∃ block, allocLog tr = [.malloc allocator block, .free allocator block]

/-- The program after the trace `tr`. -/
def ThreadsInv (size allocator last : Nat) (tr : List LifeEvent) (s : ThreadsState) : Prop :=
  match s.main with
  | .start => s.i = 1 ∧ s.quit = false ∧ s.printed = [] ∧ (∀ free, .done free ∉ tr)
      ∧ allocLog tr = []
  | .aborted => s.printed = [] ∧ (∀ free, .done free ∉ tr) ∧ allocLog tr = []
  | .reading => ∃ block, Using size allocator last block tr s ∧ s.printed.length < last
  | .tearDown => ∃ block, Using size allocator last block tr s ∧ s.printed = numbers last
  | .joining => Closed allocator last tr s
  | .finished => Closed allocator last tr s ∧ s.quit = true

/-! ## §2. Steps while the FIFO is in use. -/

namespace Using

variable {size allocator last block : Nat} {tr : List LifeEvent} {s : ThreadsState}

/-- The numbers printed so far tell the next one. -/
theorem snoc_numbers {last : Nat} {printed : List Ptr} {pointer : Nat}
    (h : printed ++ [pointer] <+: numbers last) :
    printed.length + 1 = pointer ∧ printed.length < last := by
  have hlen := h.length_le
  rw [List.length_append, List.length_singleton, List.length_range'] at hlen
  have hat : (numbers last)[printed.length]? = some pointer := by
    obtain ⟨rest, hrest⟩ := h
    rw [← hrest]
    simp
  rw [List.getElem?_range' (by omega)] at hat
  have heq : 1 + 1 * printed.length = pointer := Option.some.inj hat
  omega

theorem numbers_ne {last : Nat} : ∀ pointer ∈ numbers last, pointer ≠ NULL := by
  intro pointer hmem
  have h := (List.mem_range'_1.mp hmem).1
  exact Nat.ne_of_gt h

/-- The FIFO in the block is the FIFO of the transfer. -/
theorem seenAs (hU : Using size allocator last block tr s) :
    SeenAs (heapAtomics .exact) (seqCst .exact) (blockMem block) s.life.fifo := by
  obtain ⟨garbage, hT⟩ := hU.transfer
  exact seenAs_block hT.inv hU.storage hU.slots

/-- A step of the FIFO in the block. -/
theorem step_seen (hU : Using size allocator last block tr s) {a : Action Unit} {c : Config HeapMem}
    {e : Event} (hs : step (heapAtomics .exact) .exact s.life.fifo a = some (c, e)) :
    step (seqCst .exact) .exact (s.asTransfer last block).fifo a
      = some (c.seen (blockMem block), e) := by
  have h := hU.seenAs.step_eq .exact a
  rw [hs] at h
  exact h

/-- The loops of the program go on as the loops of the transfer do. -/
theorem after_eq (hU : Using size allocator last block tr s) {e : Event} {c : Config HeapMem}
    (hquit : s.quit = true → e.thread ≠ .producer) :
    ({ s.after last e with life := { s.life with fifo := c } } : ThreadsState).asTransfer last block
      = ⟨c.seen (blockMem block), offerAfter (s.offer last) e, gotAfter s.printed e⟩ := by
  have hoffer : (s.after last e).offer last = offerAfter (s.offer last) e := by
    cases e with
    | prod w =>
        cases w with
        | ret pointer rval =>
            have hrun : s.quit = false := by
              cases hq : s.quit with
              | false => rfl
              | true => exact absurd rfl (hquit hq)
            have hle := hU.i_le hrun
            unfold ThreadsState.after offerAfter
            by_cases hrefused : rval = -1
            · simp only [if_pos hrefused]
            · simp only [if_neg hrefused]
              unfold ThreadsState.offer
              by_cases hlast : s.i = last
              · rw [if_pos hlast, hrun, hlast]
                simp
              · rw [if_neg hlast, hrun]
                have hmore : last + 1 - s.i = (last + 1 - (s.i + 1)) + 1 := by omega
                simp only [Bool.false_eq_true, if_false]
                rw [hmore, List.range'_succ, List.tail_cons]
        | _ => rfl
    | cons r =>
        cases r with
        | ret pointer =>
            unfold ThreadsState.after offerAfter
            by_cases hnull : pointer = NULL
            · simp only [if_pos hnull]
            · simp only [if_neg hnull]
              rfl
        | _ => rfl
    | _ => rfl
  have hprinted : (s.after last e).printed = gotAfter s.printed e := by
    cases e with
    | prod w =>
        cases w with
        | ret pointer rval =>
            unfold ThreadsState.after gotAfter
            by_cases hrefused : rval = -1
            · simp only [if_pos hrefused]
            · simp only [if_neg hrefused]
              by_cases hlast : s.i = last
              · simp only [if_pos hlast]
              · simp only [if_neg hlast]
        | _ => rfl
    | cons r =>
        cases r with
        | ret pointer =>
            unfold ThreadsState.after gotAfter
            by_cases hnull : pointer = NULL
            · simp only [if_pos hnull]
            · simp only [if_neg hnull]
        | _ => rfl
    | _ => rfl
  show Transfer.mk _ ((s.after last e).offer last) (s.after last e).printed = _
  rw [hoffer, hprinted]

/-- The producer leaves `main` alone. -/
theorem after_producer {e : Event} (he : e.thread = .producer) :
    (s.after last e).main = s.main ∧ (s.after last e).printed = s.printed := by
  cases e with
  | prod w =>
      cases w with
      | ret pointer rval =>
          unfold ThreadsState.after
          by_cases hrefused : rval = -1
          · simp only [if_pos hrefused, and_self]
          · simp only [if_neg hrefused]
            by_cases hlast : s.i = last
            · simp only [if_pos hlast, and_self]
            · simp only [if_neg hlast, and_self]
      | _ => exact ⟨rfl, rfl⟩
  | cons r => simp at he
  | _ => exact ⟨rfl, rfl⟩

/-- The next pointer is one of the numbers, whatever the loops did. -/
theorem after_i_le (hle : s.quit = false → 1 ≤ s.i ∧ s.i ≤ last) (e : Event)
    (hrun : (s.after last e).quit = false) :
    1 ≤ (s.after last e).i ∧ (s.after last e).i ≤ last := by
  cases e with
  | prod w =>
      cases w with
      | ret pointer rval =>
          unfold ThreadsState.after at hrun ⊢
          by_cases hrefused : rval = -1
          · simp only [if_pos hrefused] at hrun ⊢
            exact hle hrun
          · simp only [if_neg hrefused] at hrun ⊢
            by_cases hlast : s.i = last
            · simp [hlast] at hrun
            · simp only [if_neg hlast] at hrun ⊢
              have hin := hle hrun
              show 1 ≤ s.i + 1 ∧ s.i + 1 ≤ last
              omega
      | _ => exact hle hrun
  | cons r =>
      cases r with
      | ret pointer =>
          unfold ThreadsState.after at hrun ⊢
          by_cases hnull : pointer = NULL
          · simp only [if_pos hnull] at hrun ⊢
            exact hle hrun
          · simp only [if_neg hnull] at hrun ⊢
            exact hle hrun
      | _ => exact hle hrun
  | _ => exact hle hrun

/-- **A step of the FIFO keeps it in use**, if the transfer goes on. -/
theorem use (hU : Using size allocator last block tr s) {e : Event} {c : Config HeapMem}
    {a : Action Unit} (hs : step (heapAtomics .exact) .exact s.life.fifo a = some (c, e))
    (hT : ∃ garbage, TransferInv size garbage (numbers last) (epoch tr ++ [e])
      (ThreadsState.asTransfer last block
        { s.after last e with life := { s.life with fifo := c } })) :
    Using size allocator last block (tr ++ [.fifo e])
      { s.after last e with life := { s.life with fifo := c } } := by
  obtain ⟨_, hstorage, hslots⟩ := heap_frame (step_transition hs)
  refine ⟨hstorage.trans hU.storage, hslots.trans hU.slots, hU.opened, hU.allocator_eq, ?_,
    after_i_le hU.i_le e, ?_, ?_⟩
  · rw [epoch_snoc]
    exact hT
  · intro free hmem
    rcases List.mem_append.mp hmem with hin | hnew
    · exact hU.not_done free hin
    · simp at hnew
  · rw [allocLog_snoc, hU.log]
    rfl

/-- What a step in or around the FIFO leads to. -/
theorem useStep_some {a : Action Unit} {s' : ThreadsState} {le : LifeEvent}
    (h : useStep last s a = some (s', le)) :
    ∃ c e, step (heapAtomics .exact) .exact s.life.fifo a = some (c, e) ∧ le = .fifo e
      ∧ s' = { s.after last e with life := { s.life with fifo := c } } ∧ e.thread = a.thread := by
  unfold useStep at h
  obtain ⟨⟨c, e⟩, hs, h⟩ := Option.map_eq_some_iff.mp h
  obtain ⟨rfl, rfl⟩ := Prod.mk.inj h
  exact ⟨c, e, hs, rfl, rfl, step_thread hs⟩

/-- A call of a loop, or a step in a call, is a step of the transfer. -/
theorem transferStep_eq (hU : Using size allocator last block tr s) {a : Action Unit} {side : Side}
    (ha : loopAction last (s.asTransfer last block) side = some a)
    (hquit : s.quit = true → a.thread ≠ .producer) {s' : ThreadsState} {e : Event}
    (h : useStep last s a = some (s', .fifo e)) :
    transferStep last (s.asTransfer last block) side = some (s'.asTransfer last block, e) := by
  obtain ⟨c, e, hs, he, rfl, hthread⟩ := useStep_some h
  obtain rfl := LifeEvent.fifo.inj he
  unfold transferStep
  rw [ha, Option.bind_some, hU.step_seen hs,
    hU.after_eq fun hq => by rw [hthread]; exact hquit hq]
  rfl

theorem use_loop (hU : Using size allocator last block tr s) {a : Action Unit} {side : Side}
    (ha : loopAction last (s.asTransfer last block) side = some a)
    (hquit : s.quit = true → a.thread ≠ .producer) {s' : ThreadsState} {le : LifeEvent}
    (h : useStep last s a = some (s', le)) :
    Using size allocator last block (tr ++ [le]) s' := by
  obtain ⟨c, e, hs, rfl, rfl, _⟩ := useStep_some h
  obtain ⟨garbage, hT⟩ := hU.transfer
  exact hU.use hs ⟨garbage, hT.step numbers_ne (hU.transferStep_eq ha hquit h)⟩

/-- A thread that sleeps changes nothing. -/
theorem useStep_sleep {t : Thread} {tag : Nat}
    (ht : betweenCalls s.life.fifo.prod s.life.fifo.cons t) :
    useStep last s (.work t tag) = some (s, .fifo (.work t tag)) := by
  unfold useStep
  simp only [step]
  rw [if_pos ht]
  rfl

/-- A thread that sleeps leaves the transfer where it is. -/
theorem use_sleep (hU : Using size allocator last block tr s) {t : Thread} {tag : Nat}
    {s' : ThreadsState} {le : LifeEvent} (h : useStep last s (.work t tag) = some (s', le)) :
    Using size allocator last block (tr ++ [le]) s' := by
  obtain ⟨c, e, hs, rfl, rfl, _⟩ := useStep_some h
  refine hU.use hs ?_
  obtain ⟨garbage, hT⟩ := hU.transfer
  obtain ⟨as, hrun⟩ := hT.run
  have hseen := hU.step_seen hs
  simp only [step] at hs
  split at hs
  case isFalse => simp at hs
  case isTrue hidle =>
    obtain ⟨rfl, rfl⟩ := Prod.mk.inj (Option.some.inj hs)
    have hgot : s.printed = received (epoch tr ++ [.work t tag]) := by
      rw [received_snoc]
      simpa using (show s.printed = received (epoch tr) from hT.got_eq)
    refine ⟨garbage, hT.quiet ?_ (by simp) rfl hT.current (by simp) hgot⟩
    exact ⟨as ++ [.work t tag], run_snoc.mpr ⟨_, _, _, hrun, hseen, rfl⟩⟩

/-- Others leave the FIFO's block alone. -/
theorem scribble (hU : Using size allocator last block tr s) (heap : Nat → Nat → Ptr) :
    Using size allocator last block (tr ++ [.env]) { s with life := s.life.scribble heap } := by
  have howned : s.life.owned = some block := by
    unfold Life.owned
    rw [if_pos hU.opened, hU.storage]
  have hseen : ({ s with life := s.life.scribble heap } : ThreadsState).asTransfer last block
      = s.asTransfer last block := by
    simp [ThreadsState.asTransfer, ThreadsState.offer, Life.scribble, Config.seen, blockMem, howned]
  refine ⟨hU.storage, hU.slots, hU.opened, hU.allocator_eq, ?_, hU.i_le, ?_, ?_⟩
  · rw [epoch_snoc, hseen]
    exact hU.transfer
  · intro free hmem
    rcases List.mem_append.mp hmem with hin | hnew
    · exact hU.not_done free hin
    · simp at hnew
  · rw [allocLog_snoc, hU.log]
    rfl

/-- What the producer still has to write. -/
theorem head_offer (hU : Using size allocator last block tr s) (hrun : s.quit = false) :
    (s.offer last).head? = some s.i := by
  have hle := hU.i_le hrun
  have hmore : last + 1 - s.i = (last - s.i) + 1 := by omega
  unfold ThreadsState.offer
  rw [hrun, hmore, List.range'_succ]
  rfl

/-- **The producer's turn**: it sleeps, or goes on with the transfer. -/
theorem producerTurn_cases (hU : Using size allocator last block tr s) (hrun : s.quit = false)
    (sleep : Bool) :
    (sleep = true ∧ s.life.fifo.prod.pc = .idle
        ∧ producerTurn last s sleep = useStep last s (.work .producer 0))
      ∨ ∃ a, loopAction last (s.asTransfer last block) .producer = some a ∧ a.thread = .producer
        ∧ producerTurn last s sleep = useStep last s a := by
  unfold producerTurn
  rw [hrun, if_neg Bool.false_ne_true]
  by_cases hidle : s.life.fifo.prod.pc = .idle
  · rw [if_pos hidle]
    cases sleep with
    | true => exact .inl ⟨rfl, hidle, rfl⟩
    | false =>
        refine .inr ⟨.callWrite s.i, ?_, rfl, rfl⟩
        show producerAction _ = _
        unfold producerAction
        have hhead : (s.asTransfer last block).offer.head? = some s.i := hU.head_offer hrun
        rw [hhead]
        exact if_pos hidle
  · rw [if_neg hidle]
    exact .inr ⟨.prod (), if_neg hidle, rfl, rfl⟩

theorem producerTurn_step (hU : Using size allocator last block tr s) {sleep : Bool}
    {s' : ThreadsState} {le : LifeEvent} (h : producerTurn last s sleep = some (s', le)) :
    Using size allocator last block (tr ++ [le]) s' ∧ s'.main = s.main
      ∧ s'.printed = s.printed := by
  have hkeep {a : Action Unit} (ha : a.thread = .producer)
      (h : useStep last s a = some (s', le)) : s'.main = s.main ∧ s'.printed = s.printed := by
    obtain ⟨c, e, _, rfl, rfl, hthread⟩ := useStep_some h
    exact after_producer (hthread.trans ha)
  have hrun : s.quit = false := by
    by_contra hquit
    unfold producerTurn at h
    simp [Bool.eq_true_of_not_eq_false hquit] at h
  rcases hU.producerTurn_cases hrun sleep with ⟨_, _, hsleep⟩ | ⟨a, ha, hthread, hloop⟩
  · rw [hsleep] at h
    exact ⟨hU.use_sleep h, hkeep rfl h⟩
  · rw [hloop] at h
    exact ⟨hU.use_loop ha (fun hquit => by simp [hrun] at hquit) h, hkeep hthread h⟩

/-- What a reading `main` goes on to. -/
theorem after_reading (hmain : s.main = .reading)
    (hlt : s.printed.length < last) {e : Event}
    (hle : (s.after last e).printed <+: numbers last) :
    ((s.after last e).main = .reading ∧ (s.after last e).printed.length < last)
      ∨ ((s.after last e).main = .tearDown ∧ (s.after last e).printed = numbers last) := by
  cases e with
  | cons r =>
      cases r with
      | ret pointer =>
          unfold ThreadsState.after at hle ⊢
          by_cases hnull : pointer = NULL
          · simp only [if_pos hnull]
            exact .inl ⟨hmain, hlt⟩
          · simp only [if_neg hnull] at hle ⊢
            -- what is printed is the next number
            obtain ⟨hnext, hmore⟩ := snoc_numbers hle
            by_cases hend : pointer = last
            · rw [hend] at hnext
              right
              refine ⟨if_pos hend, ?_⟩
              apply hle.eq_of_length
              rw [List.length_append, List.length_range', List.length_singleton]
              exact hnext
            · left
              refine ⟨?_, ?_⟩
              · rw [if_neg hend]
                exact hmain
              · rw [← hnext] at hend
                rw [List.length_append, List.length_singleton]
                exact Nat.lt_of_le_of_ne hmore hend
      | _ => exact .inl ⟨hmain, hlt⟩
  | prod w =>
      obtain ⟨hmain', hprinted⟩ := @after_producer last s (.prod w) rfl
      rw [hmain', hprinted]
      exact .inl ⟨hmain, hlt⟩
  | _ => exact .inl ⟨hmain, hlt⟩

/-- **The turn of a reading `main`**: it sleeps, or goes on with the transfer. -/
theorem mainTurn_cases (block : Nat) (hmain : s.main = .reading) (hlt : s.printed.length < last)
    (sleep : Bool) :
    (sleep = true ∧ s.life.fifo.cons.pc = .idle
        ∧ mainTurn last s sleep = useStep last s (.work .consumer 0))
      ∨ ∃ a, loopAction last (s.asTransfer last block) .consumer = some a ∧ a.thread = .consumer
        ∧ mainTurn last s sleep = useStep last s a := by
  unfold mainTurn
  rw [hmain]
  simp only
  by_cases hidle : s.life.fifo.cons.pc = .idle
  · rw [if_pos hidle]
    cases sleep with
    | true => exact .inl ⟨rfl, hidle, rfl⟩
    | false =>
        refine .inr ⟨.callRead, ?_, rfl, rfl⟩
        show consumerAction _ _ = _
        unfold consumerAction
        have hmissing : (s.asTransfer last block).got.length < last := hlt
        rw [if_pos hmissing]
        exact if_pos hidle
  · rw [if_neg hidle]
    exact .inr ⟨.cons (), if_neg hidle, rfl, rfl⟩

theorem mainTurn_step (hU : Using size allocator last block tr s) (hmain : s.main = .reading)
    (hlt : s.printed.length < last) {sleep : Bool} {s' : ThreadsState} {le : LifeEvent}
    (h : mainTurn last s sleep = some (s', le)) :
    Using size allocator last block (tr ++ [le]) s'
      ∧ ((s'.main = .reading ∧ s'.printed.length < last)
        ∨ (s'.main = .tearDown ∧ s'.printed = numbers last)) := by
  have hnext : ∃ a, useStep last s a = some (s', le)
      ∧ Using size allocator last block (tr ++ [le]) s' := by
    rcases mainTurn_cases block hmain hlt sleep with
      ⟨_, _, hsleep⟩ | ⟨a, ha, hthread, hloop⟩
    · rw [hsleep] at h
      exact ⟨_, h, hU.use_sleep h⟩
    · rw [hloop] at h
      exact ⟨a, h, hU.use_loop ha (fun _ => by rw [hthread]; exact Thread.noConfusion) h⟩
  obtain ⟨a, huse, hU'⟩ := hnext
  obtain ⟨c, e, _, rfl, rfl, _⟩ := useStep_some huse
  obtain ⟨garbage, hT⟩ := hU'.transfer
  exact ⟨hU', after_reading hmain hlt hT.got_le⟩

/-- **Everything printed, so the producer is resting**: it pushed `last`,
and its program point holds at most the return of that write. -/
theorem producer_resting (hU : Using size allocator last block tr s)
    (hprinted : s.printed = numbers last) : ProducerResting last s := by
  obtain ⟨garbage, hT⟩ := hU.transfer
  have hI := hT.inv
  have hgot : s.printed = received (epoch tr) := hT.got_eq
  have hoffered : accepted (epoch tr) ++ s.offer last = numbers last := hT.offered
  have hcur : s.life.fifo.prod.pc.current <+: s.offer last := hT.current
  -- all numbers are pushed
  have hpushed : pushed (epoch tr) = numbers last := by
    refine (hT.pushed_le.eq_of_length_le ?_)
    rw [← hprinted, hgot]
    exact hI.received_le.length_le
  have hunreturned : s.life.fifo.prod.pc.unreturned = s.offer last := by
    have heq : pushed (epoch tr) = accepted (epoch tr) ++ s.life.fifo.prod.pc.unreturned :=
      hI.producer.pushed_eq
    rw [hpushed, ← hoffered] at heq
    exact (List.append_cancel_left heq).symm
  unfold ProducerResting
  cases hrun : s.quit with
  | true =>
      left
      have hempty : s.offer last = [] := by
        unfold ThreadsState.offer
        rw [hrun]
        rfl
      rw [hempty] at hcur
      refine ⟨rfl, ?_⟩
      cases hpc : s.life.fifo.prod.pc with
      | idle => rfl
      | _ => simp [hpc] at hcur
  | false =>
      right
      have hle := hU.i_le hrun
      have hlen : (s.offer last).length = last + 1 - s.i := by
        unfold ThreadsState.offer
        rw [hrun]
        exact List.length_range'
      have hhead := hU.head_offer hrun
      rw [← hunreturned] at hlen hhead
      cases hpc : s.life.fifo.prod.pc with
      | ret pointer rval =>
          by_cases hzero : rval = 0
          · rw [hpc, hzero] at hlen hhead
            have hone : 1 = last + 1 - s.i := hlen
            have hlast : s.i = last := by omega
            obtain rfl : pointer = s.i := Option.some.inj hhead
            refine ⟨rfl, hlast, ?_⟩
            rw [hzero, hlast]
          · simp [hpc, hzero] at hhead
      | _ => simp [hpc] at hhead

/-- **done** frees the block, with the producer resting. -/
theorem done (hU : Using size allocator last block tr s) (hprinted : s.printed = numbers last) :
    Closed allocator last (tr ++ [s.life.done.2])
      { s with life := s.life.done.1, main := .joining } := by
  have hfreed : s.life.done
      = ({ s.life with
            fifo := { s.life.fifo with mem := { s.life.fifo.mem with storage := none } }
            phase := .closed }, .done (some (s.life.allocator, block))) := by
    unfold Life.done
    rw [hU.storage]
  rw [hfreed]
  refine ⟨hU.producer_resting hprinted, hprinted, ?_, block, ?_⟩
  · -- the first `done`, and nothing after it
    intro pre free post htr e hmem
    rcases List.eq_nil_or_concat post with hnil | ⟨post', last', hpost⟩
    · simp [hnil] at hmem
    · have hin : LifeEvent.done free ∈ tr := by
        rw [hpost, List.concat_eq_append, ← List.cons_append, ← List.append_assoc] at htr
        rw [(List.append_inj_left' htr rfl)]
        simp
      exact absurd hin (hU.not_done free)
  · rw [allocLog_snoc, hU.log, hU.allocator_eq]
    rfl

/-- No step of a loop is refused. -/
theorem useStep_isSome (hU : Using size allocator last block tr s) {a : Action Unit} {side : Side}
    (ha : loopAction last (s.asTransfer last block) side = some a) :
    (useStep last s a).isSome = true := by
  have hsome : transferStep last (s.asTransfer last block) side ≠ none := by
    intro hnone
    rw [LoopInv.transferStep_none.mp hnone] at ha
    exact absurd ha (by simp)
  unfold transferStep at hsome
  rw [ha, Option.bind_some] at hsome
  have hseen := hU.seenAs.step_eq .exact a
  unfold useStep
  cases hs : MulleFifo.step (heapAtomics .exact) .exact s.life.fifo a with
  | some r => rfl
  | none =>
      exfalso
      rw [hs] at hseen
      apply hsome
      show (MulleFifo.step (seqCst .exact) .exact (s.life.fifo.seen (blockMem block)) a).map _
        = none
      rw [hseen]
      rfl

end Using

/-! ## §3. Steps after `done`. -/

/-- One more quiet event. -/
theorem QuietAfterDone.snoc {tr : List LifeEvent} {le : LifeEvent} (hQ : QuietAfterDone tr)
    (hquiet : ∀ e, le = .fifo e → e.touches = false) : QuietAfterDone (tr ++ [le]) := by
  intro pre free post htr e hmem
  rcases List.eq_nil_or_concat post with hnil | ⟨post', last', hpost⟩
  · simp [hnil] at hmem
  · rw [hpost, List.concat_eq_append, ← List.cons_append, ← List.append_assoc] at htr
    obtain ⟨htr', hlast⟩ := List.append_inj' htr rfl
    obtain rfl : le = last' := List.cons.inj hlast |>.1
    rw [hpost, List.concat_eq_append] at hmem
    rcases List.mem_append.mp hmem with hin | hnew
    · exact hQ pre free post' htr' e hin
    · exact hquiet e (List.mem_singleton.mp hnew).symm

/-- What the resting producer has ahead of it. -/
theorem ProducerResting.producerTurn_eq {last : Nat} {s : ThreadsState}
    (hR : ProducerResting last s) (hrun : s.quit = false) (sleep : Bool) :
    producerTurn last s sleep
      = some ({ s with
          life := { s.life with
            fifo := { s.life.fifo with prod := ⟨.idle, s.life.fifo.prod.write⟩ } }
          quit := true }, .fifo (.prod (.ret last 0))) := by
  rcases hR with ⟨hquit, _⟩ | ⟨_, hlast, hpc⟩
  · rw [hrun] at hquit
    exact absurd hquit Bool.false_ne_true
  · unfold producerTurn useStep
    simp [hrun, hpc, step, writeStep, ThreadsState.after, hlast]

namespace Closed

variable {allocator last : Nat} {tr : List LifeEvent} {s s' : ThreadsState} {le : LifeEvent}

/-- **The producer's turn**: its last return, or none. -/
theorem producerTurn_step (hC : Closed allocator last tr s) {sleep : Bool}
    (h : producerTurn last s sleep = some (s', le)) :
    Closed allocator last (tr ++ [le]) s' ∧ s'.main = s.main := by
  cases hrun : s.quit with
  | true =>
      unfold producerTurn at h
      simp [hrun] at h
  | false =>
      rw [hC.resting.producerTurn_eq hrun] at h
      obtain ⟨rfl, rfl⟩ := Prod.mk.inj (Option.some.inj h)
      obtain ⟨block, hlog⟩ := hC.log
      refine ⟨⟨.inl ⟨rfl, rfl⟩, hC.printed, hC.quiet.snoc ?_, block, ?_⟩, rfl⟩
      · intro e he
        obtain rfl := LifeEvent.fifo.inj he
        rfl
      · rw [allocLog_snoc, hlog]
        rfl

/-- Others may write to the freed block. -/
theorem scribble (hC : Closed allocator last tr s) (heap : Nat → Nat → Ptr) :
    Closed allocator last (tr ++ [.env]) { s with life := s.life.scribble heap } := by
  obtain ⟨block, hlog⟩ := hC.log
  refine ⟨hC.resting, hC.printed, hC.quiet.snoc (by simp), block, ?_⟩
  rw [allocLog_snoc, hlog]
  rfl

/-- `main` returns from the join. -/
theorem join (hC : Closed allocator last tr s) {main : MainPc} :
    Closed allocator last (tr ++ [.fifo (.work .consumer 1)]) { s with main := main } := by
  obtain ⟨block, hlog⟩ := hC.log
  refine ⟨hC.resting, hC.printed, hC.quiet.snoc ?_, block, ?_⟩
  · intro e he
    obtain rfl := LifeEvent.fifo.inj he
    rfl
  · rw [allocLog_snoc, hlog]
    rfl

end Closed

/-! ## §4. Every step of the program. -/

namespace ThreadsInv

variable {size allocator last : Nat} {tr : List LifeEvent} {s s' : ThreadsState} {le : LifeEvent}

/-- Before the first step. -/
theorem init (size allocator last : Nat) (life : Life) :
    ThreadsInv size allocator last [] (threadsInit life) :=
  ⟨rfl, rfl, rfl, by simp, rfl⟩

/-! What it says, by the place where `main` is. -/

theorem start_iff (hmain : s.main = .start) : ThreadsInv size allocator last tr s ↔
    s.i = 1 ∧ s.quit = false ∧ s.printed = [] ∧ (∀ free, .done free ∉ tr) ∧ allocLog tr = [] := by
  unfold ThreadsInv
  rw [hmain]

theorem aborted_iff (hmain : s.main = .aborted) : ThreadsInv size allocator last tr s ↔
    s.printed = [] ∧ (∀ free, .done free ∉ tr) ∧ allocLog tr = [] := by
  unfold ThreadsInv
  rw [hmain]

theorem reading_iff (hmain : s.main = .reading) : ThreadsInv size allocator last tr s ↔
    ∃ block, Using size allocator last block tr s ∧ s.printed.length < last := by
  unfold ThreadsInv
  rw [hmain]

theorem tearDown_iff (hmain : s.main = .tearDown) : ThreadsInv size allocator last tr s ↔
    ∃ block, Using size allocator last block tr s ∧ s.printed = numbers last := by
  unfold ThreadsInv
  rw [hmain]

theorem joining_iff (hmain : s.main = .joining) :
    ThreadsInv size allocator last tr s ↔ Closed allocator last tr s := by
  unfold ThreadsInv
  rw [hmain]

theorem finished_iff (hmain : s.main = .finished) :
    ThreadsInv size allocator last tr s ↔ Closed allocator last tr s ∧ s.quit = true := by
  unfold ThreadsInv
  rw [hmain]

/-- The FIFO is initialised over whatever the block holds. -/
theorem step_init (hT : ThreadsInv size allocator last tr s) (hlast : 1 ≤ last)
    (hmain : s.main = .start) (block : Nat) :
    ThreadsInv size allocator last (tr ++ [.init size (some (allocator, block))])
      { s with life := s.life.init size allocator block, main := .reading } := by
  obtain ⟨hi, hquit, hprinted, hnot, hlog⟩ := (start_iff hmain).mp hT
  refine ⟨block, ⟨rfl, rfl, rfl, rfl, ⟨s.life.fifo.mem.heap block, ?_⟩, ?_, ?_, ?_⟩, ?_⟩
  · rw [epoch_snoc]
    have hstart : ({ s with life := s.life.init size allocator block, main := .reading } :
        ThreadsState).asTransfer last block
        = transferInit size (s.life.fifo.mem.heap block) (numbers last) := by
      unfold ThreadsState.asTransfer ThreadsState.offer
      simp only [hi, hquit, hprinted, Bool.false_eq_true, if_false, Nat.add_sub_cancel]
      rfl
    rw [hstart]
    exact TransferInv.init size _ _
  · intro _
    show 1 ≤ s.i ∧ s.i ≤ last
    omega
  · intro free hmem
    rcases List.mem_append.mp hmem with hin | hnew
    · exact hnot free hin
    · simp at hnew
  · rw [allocLog_snoc, hlog]
    rfl
  · show s.printed.length < last
    rw [hprinted]
    exact hlast

/-- The producer goes on. -/
theorem step_producer (hT : ThreadsInv size allocator last tr s) {sleep : Bool}
    (hstart : s.main ≠ .start) (haborted : s.main ≠ .aborted)
    (h : producerTurn last s sleep = some (s', le)) :
    ThreadsInv size allocator last (tr ++ [le]) s' := by
  cases hmain : s.main with
  | start => exact absurd hmain hstart
  | aborted => exact absurd hmain haborted
  | reading =>
      obtain ⟨block, hU, hlt⟩ := (reading_iff hmain).mp hT
      obtain ⟨hU', hmain', hprinted⟩ := hU.producerTurn_step h
      exact (reading_iff (hmain'.trans hmain)).mpr ⟨block, hU', by rw [hprinted]; exact hlt⟩
  | tearDown =>
      obtain ⟨block, hU, hall⟩ := (tearDown_iff hmain).mp hT
      obtain ⟨hU', hmain', hprinted⟩ := hU.producerTurn_step h
      exact (tearDown_iff (hmain'.trans hmain)).mpr ⟨block, hU', hprinted.trans hall⟩
  | joining =>
      have hC := (joining_iff hmain).mp hT
      obtain ⟨hC', hmain'⟩ := hC.producerTurn_step h
      exact (joining_iff (hmain'.trans hmain)).mpr hC'
  | finished =>
      -- the producer has returned
      have hquit := ((finished_iff hmain).mp hT).2
      unfold producerTurn at h
      simp [hquit] at h

/-- `main` goes on. -/
theorem step_main (hT : ThreadsInv size allocator last tr s) {sleep : Bool}
    (h : mainTurn last s sleep = some (s', le)) :
    ThreadsInv size allocator last (tr ++ [le]) s' := by
  cases hmain : s.main with
  | reading =>
      obtain ⟨block, hU, hlt⟩ := (reading_iff hmain).mp hT
      obtain ⟨hU', hnext⟩ := hU.mainTurn_step hmain hlt h
      rcases hnext with ⟨hmain', hlt'⟩ | ⟨hmain', hall⟩
      · exact (reading_iff hmain').mpr ⟨block, hU', hlt'⟩
      · exact (tearDown_iff hmain').mpr ⟨block, hU', hall⟩
  | tearDown =>
      obtain ⟨block, hU, hall⟩ := (tearDown_iff hmain).mp hT
      unfold mainTurn at h
      rw [hmain] at h
      obtain ⟨rfl, rfl⟩ := Prod.mk.inj (Option.some.inj h)
      exact hU.done hall
  | joining =>
      have hC := (joining_iff hmain).mp hT
      unfold mainTurn at h
      rw [hmain] at h
      simp only at h
      split at h
      case isFalse => simp at h
      case isTrue hquit =>
        obtain ⟨rfl, rfl⟩ := Prod.mk.inj (Option.some.inj h)
        exact ⟨hC.join, hquit⟩
  | _ =>
      unfold mainTurn at h
      rw [hmain] at h
      simp at h

/-- Others write to the heap. -/
theorem step_env (hT : ThreadsInv size allocator last tr s) (heap : Nat → Nat → Ptr)
    (hs' : s' = { s with life := s.life.scribble heap }) :
    ThreadsInv size allocator last (tr ++ [.env]) s' := by
  have hmain' : s'.main = s.main := by rw [hs']
  have hlog : allocLog (tr ++ [.env]) = allocLog tr := by
    rw [allocLog_snoc]
    exact List.append_nil _
  cases hmain : s.main with
  | start =>
      obtain ⟨hi, hquit, hprinted, hnot, hnone⟩ := (start_iff hmain).mp hT
      refine (start_iff (hmain'.trans hmain)).mpr ?_
      subst hs'
      exact ⟨hi, hquit, hprinted, by simpa using hnot, hlog.trans hnone⟩
  | aborted =>
      obtain ⟨hprinted, hnot, hnone⟩ := (aborted_iff hmain).mp hT
      refine (aborted_iff (hmain'.trans hmain)).mpr ?_
      subst hs'
      exact ⟨hprinted, by simpa using hnot, hlog.trans hnone⟩
  | reading =>
      obtain ⟨block, hU, hlt⟩ := (reading_iff hmain).mp hT
      refine (reading_iff (hmain'.trans hmain)).mpr ?_
      subst hs'
      exact ⟨block, hU.scribble heap, hlt⟩
  | tearDown =>
      obtain ⟨block, hU, hall⟩ := (tearDown_iff hmain).mp hT
      refine (tearDown_iff (hmain'.trans hmain)).mpr ?_
      subst hs'
      exact ⟨block, hU.scribble heap, hall⟩
  | joining =>
      have hC := (joining_iff hmain).mp hT
      refine (joining_iff (hmain'.trans hmain)).mpr ?_
      subst hs'
      exact hC.scribble heap
  | finished =>
      obtain ⟨hC, hquit⟩ := (finished_iff hmain).mp hT
      refine (finished_iff (hmain'.trans hmain)).mpr ?_
      subst hs'
      exact ⟨hC.scribble heap, hquit⟩

/-- malloc does not return. -/
theorem step_abort (hT : ThreadsInv size allocator last tr s) (hmain : s.main = .start) :
    ThreadsInv size allocator last (tr ++ [.abort])
      { s with life := { s.life with phase := .aborted }, main := .aborted } := by
  obtain ⟨_, _, hprinted, hnot, hlog⟩ := (start_iff hmain).mp hT
  refine ⟨hprinted, ?_, ?_⟩
  · simpa using hnot
  · rw [allocLog_snoc, hlog]
    rfl

/-- **The step lemma of the program.** -/
theorem step (hlast : 1 ≤ last) (hT : ThreadsInv size allocator last tr s) {a : ThreadsAction}
    (h : threadsStep size allocator last s a = some (s', le)) :
    ThreadsInv size allocator last (tr ++ [le]) s' := by
  cases a with
  | init answer =>
      simp only [threadsStep] at h
      split at h
      case isFalse => simp at h
      case isTrue hmain =>
        cases answer with
        | some block =>
            obtain ⟨rfl, rfl⟩ := Prod.mk.inj (Option.some.inj h)
            exact hT.step_init hlast hmain block
        | none =>
            obtain ⟨rfl, rfl⟩ := Prod.mk.inj (Option.some.inj h)
            exact hT.step_abort hmain
  | producer sleep =>
      simp only [threadsStep] at h
      split at h
      case isTrue => simp at h
      case isFalse hused =>
        rw [not_or] at hused
        exact hT.step_producer hused.1 hused.2 h
  | main sleep => exact hT.step_main h
  | env heap =>
      obtain ⟨rfl, rfl⟩ := Prod.mk.inj (Option.some.inj h)
      exact hT.step_env heap rfl

end ThreadsInv

end MulleFifo
