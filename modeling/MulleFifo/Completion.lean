/-
  MulleFifo.Completion — under fair scheduling the polling loops finish.

  `Progress` counts what active segments of a run move.  Here the scheduler
  is only asked to give both threads a turn again and again, and the loops
  are shown to END: both threads leave them, everything transferred.

  Polling defeats the obvious measures: a refused write and an empty read
  go around their loops without any effect.  So one thread is named the
  helpful one (`Transfer.helpful`):

    • the consumer, while there is something pushed that is not popped —
      however often the producer finds the FIFO full meanwhile,
    • else the producer, while it has something to push, or has not
      returned yet — however often the consumer finds nothing,
    • else the consumer, for its last return.

  `Transfer.left` counts the pushes, pops, accepting returns and receiving
  returns that are left; the accesses the helpful thread has ahead of it
  until its next update of `n` complete it to a rank.
-/
import MulleFifo.Lib.Fairness
import MulleFifo.Progress

namespace MulleFifo

open Lib

/-! ## §1. Turns, and what is left to do. -/

/-- A turn of one of the threads.  A thread that has left its loop lets it
pass. -/
def transferTurn (n_items : Nat) (t : Transfer) (side : Side) : Transfer :=
  ((transferStep n_items t side).map Prod.fst).getD t

/-- Both threads have left their loops. -/
def Transfer.Finished (n_items : Nat) (t : Transfer) : Prop :=
  producerAction t = none ∧ consumerAction n_items t = none

/-- The steps to the increment of a write, when it finds room. -/
def WritePc.ahead : WritePc → Nat
  | .ret _ _ => 6
  | .idle => 5
  | .getCount _ => 4
  | .store _ => 3
  | .index _ => 2
  | .increment _ => 1

/-- The steps to the decrement of a read, when it finds something. -/
def ReadPc.ahead : ReadPc → Nat
  | .ret _ => 6
  | .idle => 5
  | .getCount => 4
  | .load => 3
  | .index _ => 2
  | .decrement _ => 1

namespace Transfer

/-- The increments that are left. -/
def toPush (t : Transfer) : Nat := t.offer.length - t.fifo.prod.pc.unreturned.length

/-- The decrements that are left. -/
def toPop (n_items : Nat) (t : Transfer) : Nat :=
  n_items - (t.got.length + t.fifo.cons.pc.unreturned.length)

/-- Everything that is left: increments, decrements, and the returns after them. -/
def left (n_items : Nat) (t : Transfer) : Nat :=
  t.toPush + t.offer.length + t.toPop n_items + (n_items - t.got.length)

/-- The thread whose turn brings the transfer forward. -/
def helpful (n_items : Nat) (t : Transfer) : Side :=
  if t.toPush < t.toPop n_items then .consumer
  else if 0 < t.toPush ∨ t.fifo.prod.pc ≠ .idle then .producer
  else .consumer

/-- The steps a side has ahead of it to its next update of `n`. -/
def ahead (t : Transfer) : Side → Nat
  | .producer => t.fifo.prod.pc.ahead
  | .consumer => t.fifo.cons.pc.ahead

def rank (n_items : Nat) (t : Transfer) : Nat :=
  7 * t.left n_items + t.ahead (t.helpful n_items)

end Transfer

/-! ## §2. What a turn does. -/

/-- The loops, without the trace. -/
structure LoopInv (size : Nat) (storage : Nat → Ptr) (L : List Ptr) (t : Transfer) : Prop where
  transfer : ∃ tr, TransferInv size storage L tr t
  /-- A read was called because something was missing. -/
  missing : t.fifo.cons.pc ≠ .idle → t.got.length < L.length

theorem ReadPc.ahead_le (pc : ReadPc) : 1 ≤ pc.ahead ∧ pc.ahead ≤ 6 := by
  cases pc <;> simp [ReadPc.ahead]

theorem WritePc.ahead_le (pc : WritePc) : 1 ≤ pc.ahead ∧ pc.ahead ≤ 6 := by
  cases pc <;> simp [WritePc.ahead]

namespace LoopInv

variable {size : Nat} {storage : Nat → Ptr} {L : List Ptr} {t t' : Transfer} {tr : List Event}
  {e : Event}

theorem init (size : Nat) (storage : Nat → Ptr) (L : List Ptr) :
    LoopInv size storage L (transferInit size storage L) :=
  ⟨⟨[], TransferInv.init size storage L⟩, fun h => absurd rfl h⟩

/-- What is pushed and what is left to push. -/
theorem pushed_toPush (hT : TransferInv size storage L tr t) :
    (pushed tr).length + t.toPush = L.length := by
  have hle := hT.pushed_le.length_le
  have hpush := congrArg List.length hT.inv.producer.pushed_eq
  have hoffered := congrArg List.length hT.offered
  rw [List.length_append] at hpush hoffered
  unfold Transfer.toPush
  omega

/-- What is popped and what is left to pop. -/
theorem popped_toPop (hT : TransferInv size storage L tr t) :
    (popped tr).length + t.toPop L.length = L.length := by
  have hle := hT.popped_le.length_le
  have hpop := congrArg List.length hT.inv.popped_eq
  have hgot := congrArg List.length hT.got_eq
  rw [List.length_append] at hpop
  unfold Transfer.toPop
  omega

/-- What the threads' turns show. -/
theorem transferStep_thread {side : Side} {n_items : Nat}
    (h : transferStep n_items t side = some (t', e)) :
    (side = .producer → ∃ w, e = .prod w) ∧ (side = .consumer → ∃ r, e = .cons r) := by
  unfold transferStep at h
  obtain ⟨a, ha, h⟩ := Option.bind_eq_some_iff.mp h
  obtain ⟨r, hr, h⟩ := Option.map_eq_some_iff.mp h
  obtain ⟨rfl, rfl⟩ := Prod.mk.inj h
  constructor
  · intro hside
    subst hside
    simp only [loopAction, producerAction] at ha
    split at ha
    · obtain ⟨p, _, rfl⟩ := Option.map_eq_some_iff.mp ha
      simp only [step, Option.map_eq_some_iff] at hr
      obtain ⟨q, _, rfl⟩ := hr
      exact ⟨_, rfl⟩
    · obtain rfl := Option.some.inj ha
      simp only [step, Option.map_eq_some_iff] at hr
      obtain ⟨q, _, rfl⟩ := hr
      exact ⟨_, rfl⟩
  · intro hside
    subst hside
    simp only [loopAction, consumerAction] at ha
    split at ha
    · split at ha
      · obtain rfl := Option.some.inj ha
        simp only [step, Option.map_eq_some_iff] at hr
        obtain ⟨q, _, rfl⟩ := hr
        exact ⟨_, rfl⟩
      · simp at ha
    · obtain rfl := Option.some.inj ha
      simp only [step, Option.map_eq_some_iff] at hr
      obtain ⟨q, _, rfl⟩ := hr
      exact ⟨_, rfl⟩

/-- **A turn of the producer** pushes, or returns for what it pushed, or
goes one step ahead, or finds the FIFO full. -/
theorem producer_turn (hL : ∀ pointer ∈ L, pointer ≠ NULL)
    (hT : TransferInv size storage L tr t)
    (h : transferStep L.length t .producer = some (t', e)) :
    t'.fifo.cons = t.fifo.cons ∧ t'.got = t.got
      ∧ ((t'.offer.length = t.offer.length ∧ t'.toPush + 1 = t.toPush)
        ∨ (t'.offer.length + 1 = t.offer.length ∧ t'.toPush = t.toPush)
        ∨ (t'.offer.length = t.offer.length ∧ t'.toPush = t.toPush
          ∧ (t'.fifo.prod.pc.ahead + 1 = t.fifo.prod.pc.ahead
            ∨ t.toPop L.length = t.toPush + size))) := by
  obtain ⟨a, hs, hoffer, hgot, hcall⟩ := TransferInv.transferStep_step h
  obtain ⟨w, rfl⟩ := (transferStep_thread h).1 rfl
  have hI := hT.inv
  have hoffered (pointer : Ptr) (hmem : pointer ∈ t.offer) : pointer ≠ NULL := by
    apply hL
    rw [← hT.offered]
    exact List.mem_append_right _ hmem
  have hcur := hT.current.length_le
  have hpush := pushed_toPush hT
  have hpop := popped_toPop hT
  have hgot' : t'.got = t.got := hgot
  obtain ⟨c', offer', got'⟩ := t'
  simp only at hs hoffer hgot'
  cases step_transition hs with
  | callNull hpc => exact absurd rfl (hoffered NULL ((hcall NULL rfl).subset (by simp)))
  | call hpc | room hpc | store hpc | indexWrite hpc =>
      refine ⟨rfl, hgot', .inr (.inr ⟨?_, ?_, .inl ?_⟩)⟩
      · rw [hoffer]
        rfl
      · simp [Transfer.toPush, hoffer, offerAfter, hpc]
      · simp [WritePc.ahead, hpc]
  | @full pointer ch n m hpc hread hn =>
      refine ⟨rfl, hgot', .inr (.inr ⟨?_, ?_, .inr ?_⟩)⟩
      · rw [hoffer]
        rfl
      · simp [Transfer.toPush, hoffer, offerAfter, hpc]
      · -- the count it found is the true one
        obtain ⟨rfl, rfl⟩ := Prod.mk.inj (Option.some.inj hread)
        have hcnt : Words.exact.toUnsigned t.fifo.mem.n = _ := hI.toNat_counter
        have hle := hI.popped_length_le
        have hsize := hI.size_eq
        omega
  | increment ch hpc =>
      refine ⟨rfl, hgot', .inl ⟨?_, ?_⟩⟩
      · rw [hoffer]
        rfl
      · rw [hpc] at hcur
        simp only [WritePc.current, List.length_singleton] at hcur
        simp [Transfer.toPush, hoffer, offerAfter, hpc]
        omega
  | @retWrite pointer rval hpc =>
      rw [hpc] at hcur
      simp only [WritePc.current, List.length_singleton] at hcur
      by_cases hrefused : rval = -1
      · refine ⟨rfl, hgot', .inr (.inr ⟨?_, ?_, .inl ?_⟩)⟩
        · simp [hoffer, offerAfter, hrefused]
        · simp [Transfer.toPush, hoffer, offerAfter, hrefused, hpc]
        · simp [WritePc.ahead, hpc]
      · have hne : pointer ≠ NULL := hoffered pointer (hT.current.subset (by simp [hpc]))
        have hzero : rval = 0 := by
          rcases hI.producer.ret_ok pointer rval hpc with hnull | hok
          · exact absurd hnull.1 hne
          · exact hok.2.resolve_left hrefused
        refine ⟨rfl, hgot', .inr (.inl ⟨?_, ?_⟩)⟩
        · simp [hoffer, offerAfter, hzero]
          omega
        · simp [Transfer.toPush, hoffer, offerAfter, hzero, hpc]

/-- **A turn of the consumer** pops, or returns what it popped, or goes one
step ahead, or finds the FIFO empty. -/
theorem consumer_turn (hT : TransferInv size storage L tr t)
    (hmissing : t.fifo.cons.pc ≠ .idle → t.got.length < L.length)
    (h : transferStep L.length t .consumer = some (t', e)) :
    t'.fifo.prod = t.fifo.prod ∧ t'.offer = t.offer
      ∧ ((t'.got.length = t.got.length ∧ t'.toPop L.length + 1 = t.toPop L.length)
        ∨ (t'.got.length = t.got.length + 1 ∧ t'.toPop L.length = t.toPop L.length)
        ∨ (t'.got.length = t.got.length ∧ t'.toPop L.length = t.toPop L.length
          ∧ (t'.fifo.cons.pc.ahead + 1 = t.fifo.cons.pc.ahead
            ∨ (t.fifo.cons.pc = .getCount ∧ t.toPop L.length = t.toPush)))) := by
  obtain ⟨a, hs, hoffer, hgot, _⟩ := TransferInv.transferStep_step h
  obtain ⟨r, rfl⟩ := (transferStep_thread h).2 rfl
  have hI := hT.inv
  have hpush := pushed_toPush hT
  have hpop := popped_toPop hT
  have hoffer' : t'.offer = t.offer := hoffer
  obtain ⟨c', offer', got'⟩ := t'
  simp only at hs hoffer' hgot
  cases step_transition hs with
  | callRead hpc | avail hpc | load hpc | indexRead hpc =>
      refine ⟨rfl, hoffer', .inr (.inr ⟨?_, ?_, .inl ?_⟩)⟩
      · rw [hgot]
        rfl
      · simp [Transfer.toPop, hgot, gotAfter, hpc]
      · simp [ReadPc.ahead, hpc]
  | empty hpc hread hn =>
      refine ⟨rfl, hoffer', .inr (.inr ⟨?_, ?_, .inr ?_⟩)⟩
      · rw [hgot]
        rfl
      · simp [Transfer.toPop, hgot, gotAfter, hpc]
      · obtain ⟨rfl, rfl⟩ := Prod.mk.inj (Option.some.inj hread)
        have hcnt : Words.exact.toUnsigned t.fifo.mem.n = _ := hI.toNat_counter
        have hle := hI.popped_length_le
        exact ⟨hpc, by omega⟩
  | @decrement pointer ch hpc =>
      have hlt := hmissing (by simp [hpc])
      -- what is popped was pushed, and that is not NULL
      have hne : pointer ≠ NULL := by
        have htaken := hI.taken_le
        rw [hpc] at htaken
        exact hI.producer.pushed_ne pointer (htaken.subset (by simp))
      refine ⟨rfl, hoffer', .inl ⟨?_, ?_⟩⟩
      · rw [hgot]
        rfl
      · simp [Transfer.toPop, hgot, gotAfter, hpc, hne]
        omega
  | @retRead pointer hpc =>
      have hlt := hmissing (by simp [hpc])
      by_cases hnull : pointer = NULL
      · refine ⟨rfl, hoffer', .inr (.inr ⟨?_, ?_, .inl ?_⟩)⟩
        · simp [hgot, gotAfter, hnull]
        · simp [Transfer.toPop, hgot, gotAfter, hnull, hpc]
        · simp [ReadPc.ahead, hpc]
      · refine ⟨rfl, hoffer', .inr (.inl ⟨?_, ?_⟩)⟩
        · simp [hgot, gotAfter, hnull]
        · simp [Transfer.toPop, hgot, gotAfter, hnull, hpc]

/-- Turns keep the invariant. -/
theorem turn_keeps (hL : ∀ pointer ∈ L, pointer ≠ NULL) (hI : LoopInv size storage L t)
    (side : Side) : LoopInv size storage L (transferTurn L.length t side) := by
  obtain ⟨⟨tr, hT⟩, hmissing⟩ := hI
  unfold transferTurn
  cases h : transferStep L.length t side with
  | none => exact ⟨⟨tr, hT⟩, hmissing⟩
  | some r =>
      obtain ⟨t', e⟩ := r
      refine ⟨⟨tr ++ [e], hT.step hL h⟩, ?_⟩
      show t'.fifo.cons.pc ≠ .idle → t'.got.length < L.length
      obtain ⟨a, hs, _, hgot, _⟩ := TransferInv.transferStep_step h
      cases side with
      | producer =>
          obtain ⟨hcons, hgot', _⟩ := producer_turn hL hT h
          rw [hcons, hgot']
          exact hmissing
      | consumer =>
          obtain ⟨r, rfl⟩ := (transferStep_thread h).2 rfl
          intro hbusy
          by_cases hidle : t.fifo.cons.pc = .idle
          · -- the loop's condition was tested
            have hcond : t.got.length < L.length := by
              unfold transferStep at h
              obtain ⟨a, ha, _⟩ := Option.bind_eq_some_iff.mp h
              simp only [loopAction, consumerAction, hidle, if_true] at ha
              by_contra hge
              rw [if_neg hge] at ha
              exact absurd ha (by simp)
            rw [hgot]
            generalize t'.fifo = c' at hs hbusy
            cases step_transition hs with
            | callRead => exact hcond
            | empty hpc | avail hpc | load hpc | indexRead hpc | decrement _ hpc
            | retRead hpc => simp [hpc] at hidle
          · have hlt := hmissing hidle
            rw [hgot]
            generalize t'.fifo = c' at hs hbusy
            cases step_transition hs with
            | retRead => exact absurd rfl hbusy
            | _ => exact hlt

/-! ## §3. The rank. -/

/-- A side can take a step exactly if it has not left its loop. -/
theorem transferStep_none {n_items : Nat} {side : Side} :
    transferStep n_items t side = none ↔ loopAction n_items t side = none := by
  constructor
  · intro h
    cases ha : loopAction n_items t side with
    | none => rfl
    | some a =>
        -- a call is made between calls, and no access is refused
        exfalso
        unfold transferStep at h
        rw [ha] at h
        simp only [Option.bind_some, Option.map_eq_none_iff] at h
        cases side with
        | producer =>
            simp only [loopAction, producerAction] at ha
            split at ha
            next hidle =>
              obtain ⟨p, _, rfl⟩ := Option.map_eq_some_iff.mp ha
              by_cases hnull : p = NULL
              · simp [step, enterWrite, hidle, hnull] at h
              · simp [step, enterWrite, hidle, hnull] at h
            next hbusy =>
              obtain rfl := Option.some.inj ha
              cases hpc : t.fifo.prod.pc <;> simp_all [step, writeStep, getCount, seqCst]
        | consumer =>
            simp only [loopAction, consumerAction] at ha
            split at ha
            next hidle =>
              split at ha
              · obtain rfl := Option.some.inj ha
                simp [step, enterRead, hidle] at h
              · simp at ha
            next hbusy =>
              obtain rfl := Option.some.inj ha
              cases hpc : t.fifo.cons.pc <;> simp_all [step, readStep, getCount, seqCst]
  · intro h
    unfold transferStep
    rw [h]
    rfl

/-- A side that takes a step goes on to the state after it. -/
theorem transferTurn_some {n_items : Nat} {side : Side}
    (h : transferStep n_items t side = some (t', e)) : transferTurn n_items t side = t' := by
  unfold transferTurn
  rw [h]
  rfl

/-- A side that has left its loop changes nothing. -/
theorem transferTurn_none {n_items : Nat} {side : Side}
    (h : loopAction n_items t side = none) : transferTurn n_items t side = t := by
  unfold transferTurn
  rw [transferStep_none.mpr h]
  rfl

theorem ahead_le (t : Transfer) (side : Side) : 1 ≤ t.ahead side ∧ t.ahead side ≤ 6 := by
  cases side with
  | producer => exact WritePc.ahead_le _
  | consumer => exact ReadPc.ahead_le _

/-- One of the counted steps outweighs all accesses ahead. -/
theorem rank_lt_of_left {n_items : Nat} (h : t'.left n_items < t.left n_items) :
    t'.rank n_items < t.rank n_items := by
  have h1 := ahead_le t (t.helpful n_items)
  have h2 := ahead_le t' (t'.helpful n_items)
  unfold Transfer.rank
  omega

/-- The same helpful thread, with less ahead of it. -/
theorem rank_lt_of_ahead {n_items : Nat} {side : Side} (hleft : t'.left n_items = t.left n_items)
    (h : t.helpful n_items = side) (h' : t'.helpful n_items = side)
    (hahead : t'.ahead side + 1 = t.ahead side) : t'.rank n_items < t.rank n_items := by
  unfold Transfer.rank
  rw [h, h', hleft]
  omega

/-- A producer between calls that has nothing to push has left its loop. -/
theorem producer_left (hzero : ¬ 0 < t.toPush) (hidle : t.fifo.prod.pc = .idle) :
    producerAction t = none := by
  have hempty : t.offer = [] := by
    unfold Transfer.toPush at hzero
    rw [hidle] at hzero
    simpa using hzero
  simp [producerAction, hidle, hempty]

/-- The helpful thread has not left its loop. -/
theorem helpful_acts (hnot : ¬ t.Finished L.length) :
    loopAction L.length t (t.helpful L.length) ≠ none := by
  unfold Transfer.helpful
  by_cases hlead : t.toPush < t.toPop L.length
  · rw [if_pos hlead]
    -- something is left to pop, so something was not received
    have hlt : t.got.length < L.length := by
      unfold Transfer.toPop at hlead
      omega
    simp only [loopAction, consumerAction]
    by_cases hidle : t.fifo.cons.pc = .idle
    · rw [if_pos hidle, if_pos hlt]
      simp
    · rw [if_neg hidle]
      simp
  · rw [if_neg hlead]
    by_cases hpush : 0 < t.toPush ∨ t.fifo.prod.pc ≠ .idle
    · rw [if_pos hpush]
      simp only [loopAction, producerAction]
      split
      next hidle =>
        have hpos : 0 < t.offer.length := by
          rcases hpush with hpush | hbusy
          · unfold Transfer.toPush at hpush
            omega
          · exact absurd hidle hbusy
        obtain ⟨pointer, rest, hoffer⟩ := List.exists_cons_of_length_pos hpos
        simp [hoffer]
      next => simp
    · rw [if_neg hpush]
      rw [not_or, not_not] at hpush
      obtain ⟨hzero, hidle⟩ := hpush
      intro hnone
      apply hnot
      exact ⟨producer_left hzero hidle, hnone⟩

/-- A thread in a call has something to offer. -/
theorem offer_pos (hT : TransferInv size storage L tr t) (hbusy : t.fifo.prod.pc ≠ .idle) :
    0 < t.offer.length := by
  have hcur := hT.current.length_le
  cases hpc : t.fifo.prod.pc with
  | idle => exact absurd hpc hbusy
  | _ =>
      rw [hpc] at hcur
      exact hcur

/-- **The turn of the helpful thread lowers the rank.** -/
theorem rank_lower (hsize : 0 < size) (hL : ∀ pointer ∈ L, pointer ≠ NULL)
    (hI : LoopInv size storage L t) (hnot : ¬ t.Finished L.length) :
    (transferTurn L.length t (t.helpful L.length)).rank L.length < t.rank L.length := by
  obtain ⟨⟨tr, hT⟩, hmissing⟩ := hI
  have hacts := helpful_acts hnot
  rw [Ne, ← transferStep_none] at hacts
  obtain ⟨⟨t', e⟩, h⟩ := Option.ne_none_iff_exists'.mp hacts
  rw [transferTurn_some h]
  have hT' := hT.step hL h
  have hgot' := hT'.got_le.length_le
  cases hhelp : t.helpful L.length with
  | producer =>
      rw [hhelp] at h
      obtain ⟨hcons, hgot, hcase⟩ := producer_turn hL hT h
      have hpop : t'.toPop L.length = t.toPop L.length := by
        unfold Transfer.toPop
        rw [hcons, hgot]
      -- it is not behind, and has something to push or to return for
      have hwhy : ¬ t.toPush < t.toPop L.length ∧ (0 < t.toPush ∨ t.fifo.prod.pc ≠ .idle) := by
        unfold Transfer.helpful at hhelp
        split at hhelp
        next => exact Side.noConfusion hhelp
        next hlead =>
          split at hhelp
          next hpush => exact ⟨hlead, hpush⟩
          next => exact Side.noConfusion hhelp
      obtain ⟨hlead, hpush⟩ := hwhy
      rcases hcase with ⟨hoffer, hless⟩ | ⟨hoffer, hsame⟩ | ⟨hoffer, hsame, hahead | hfull⟩
      · apply rank_lt_of_left
        unfold Transfer.left
        rw [hpop, hgot]
        omega
      · apply rank_lt_of_left
        unfold Transfer.left
        rw [hpop, hgot]
        omega
      · have hleft : t'.left L.length = t.left L.length := by
          unfold Transfer.left
          rw [hpop, hgot, hsame, hoffer]
        refine rank_lt_of_ahead hleft hhelp ?_ hahead
        unfold Transfer.helpful
        rw [hpop, hsame, if_neg hlead]
        apply if_pos
        by_cases hzero : 0 < t.toPush
        · exact .inl hzero
        · -- nothing left to push: it is about to return for the last element
          right
          have hpos := offer_pos hT (hpush.resolve_left hzero)
          intro hidle
          have hnone : t'.fifo.prod.pc.unreturned.length = 0 := by
            rw [hidle]
            rfl
          unfold Transfer.toPush at hsame hzero
          omega
      · exact absurd hfull (by omega)
  | consumer =>
      rw [hhelp] at h
      obtain ⟨hprod, hoffer, hcase⟩ := consumer_turn hT hmissing h
      have hpush : t'.toPush = t.toPush := by
        unfold Transfer.toPush
        rw [hprod, hoffer]
      rcases hcase with ⟨hgot, hless⟩ | ⟨hgot, hsame⟩ | ⟨hgot, hsame, hahead | ⟨hpc, hempty⟩⟩
      · apply rank_lt_of_left
        unfold Transfer.left
        rw [hpush, hoffer, hgot]
        omega
      · apply rank_lt_of_left
        unfold Transfer.left
        rw [hpush, hoffer, hsame]
        omega
      · have hleft : t'.left L.length = t.left L.length := by
          unfold Transfer.left
          rw [hpush, hoffer, hsame, hgot]
        refine rank_lt_of_ahead hleft hhelp ?_ hahead
        rw [← hhelp]
        unfold Transfer.helpful
        rw [hpush, hsame, hprod]
      · -- it found nothing, although something was missing
        exfalso
        have hlt := hmissing (by simp [hpc])
        have hpos : 0 < t.toPop L.length := by
          unfold Transfer.toPop
          rw [hpc]
          simp only [ReadPc.unreturned, List.length_nil]
          omega
        unfold Transfer.helpful at hhelp
        rw [if_neg (by omega), if_pos (.inl (by omega))] at hhelp
        exact Side.noConfusion hhelp

/-- **The turn of the other thread** lowers the rank, or changes neither
the rank nor who is helpful. -/
theorem rank_wait (hL : ∀ pointer ∈ L, pointer ≠ NULL)
    (hI : LoopInv size storage L t) {side : Side} (hne : side ≠ t.helpful L.length) :
    (transferTurn L.length t side).rank L.length < t.rank L.length
      ∨ ((transferTurn L.length t side).rank L.length = t.rank L.length
        ∧ (transferTurn L.length t side).helpful L.length = t.helpful L.length) := by
  obtain ⟨⟨tr, hT⟩, hmissing⟩ := hI
  cases h : transferStep L.length t side with
  | none =>
      rw [transferTurn_none (transferStep_none.mp h)]
      exact .inr ⟨rfl, rfl⟩
  | some r =>
      obtain ⟨t', e⟩ := r
      rw [transferTurn_some h]
      have hgot' := (hT.step hL h).got_le.length_le
      cases side with
      | producer =>
          have hhelp : t.helpful L.length = .consumer := by
            cases hside : t.helpful L.length with
            | producer => exact absurd hside.symm hne
            | consumer => rfl
          obtain ⟨hcons, hgot, hcase⟩ := producer_turn hL hT h
          have hpop : t'.toPop L.length = t.toPop L.length := by
            unfold Transfer.toPop
            rw [hcons, hgot]
          rcases hcase with ⟨hoffer, hless⟩ | ⟨hoffer, hsame⟩ | ⟨hoffer, hsame, _⟩
          · left
            apply rank_lt_of_left
            unfold Transfer.left
            rw [hpop, hgot]
            omega
          · left
            apply rank_lt_of_left
            unfold Transfer.left
            rw [hpop, hgot]
            omega
          · right
            have hhelp' : t'.helpful L.length = .consumer := by
              have hlead : t.toPush < t.toPop L.length := by
                by_contra hlead
                unfold Transfer.helpful at hhelp
                rw [if_neg hlead] at hhelp
                split at hhelp
                next => exact Side.noConfusion hhelp
                next hpush =>
                  -- then the producer had left its loop
                  rw [not_or, not_not] at hpush
                  have hnone : loopAction L.length t .producer = none :=
                    producer_left hpush.1 hpush.2
                  rw [transferStep_none.mpr hnone] at h
                  exact absurd h (by simp)
              unfold Transfer.helpful
              rw [hpop, hsame, if_pos hlead]
            refine ⟨?_, hhelp'.trans hhelp.symm⟩
            unfold Transfer.rank Transfer.left
            rw [hhelp', hhelp, hpop, hgot, hsame, hoffer]
            unfold Transfer.ahead
            rw [hcons]
      | consumer =>
          have hhelp : t.helpful L.length = .producer := by
            cases hside : t.helpful L.length with
            | producer => rfl
            | consumer => exact absurd hside.symm hne
          obtain ⟨hprod, hoffer, hcase⟩ := consumer_turn hT hmissing h
          have hpush : t'.toPush = t.toPush := by
            unfold Transfer.toPush
            rw [hprod, hoffer]
          rcases hcase with ⟨hgot, hless⟩ | ⟨hgot, hsame⟩ | ⟨hgot, hsame, _⟩
          · left
            apply rank_lt_of_left
            unfold Transfer.left
            rw [hpush, hoffer, hgot]
            omega
          · left
            apply rank_lt_of_left
            unfold Transfer.left
            rw [hpush, hoffer, hsame]
            omega
          · right
            have hhelp' : t'.helpful L.length = t.helpful L.length := by
              unfold Transfer.helpful
              rw [hpush, hsame, hprod]
            refine ⟨?_, hhelp'⟩
            unfold Transfer.rank Transfer.left
            rw [hhelp', hhelp, hpush, hoffer, hsame, hgot]
            unfold Transfer.ahead
            rw [hprod]

/-- The rank of the loops. -/
def ranking (hsize : 0 < size) (hL : ∀ pointer ∈ L, pointer ≠ NULL) :
    Ranking (transferTurn L.length) (LoopInv size storage L) (Transfer.Finished L.length) where
  rank := Transfer.rank L.length
  helpful := Transfer.helpful L.length
  lower _ hI hnot := rank_lower hsize hL hI hnot
  wait _ _ hI _ hne := rank_wait hL hI hne
  keep _ side hI := turn_keeps hL hI side

/-- A finished transfer stays as it is. -/
theorem finished_stay {n_items : Nat} (h : t.Finished n_items) (side : Side) :
    transferTurn n_items t side = t := by
  cases side with
  | producer => exact transferTurn_none h.1
  | consumer => exact transferTurn_none h.2

/-- **Both threads leave their loops with everything transferred.** -/
theorem finished_got (hI : LoopInv size storage L t) (h : t.Finished L.length) :
    t.got = L ∧ t.offer = [] ∧ t.fifo.prod.pc = .idle ∧ t.fifo.cons.pc = .idle := by
  obtain ⟨⟨tr, hT⟩, _⟩ := hI
  obtain ⟨hprod, hcons⟩ := h
  unfold producerAction at hprod
  unfold consumerAction at hcons
  split at hprod
  next hidle =>
    split at hcons
    next hidle' =>
      split at hcons
      next => simp at hcons
      next hall =>
        refine ⟨hT.got_le.eq_of_length_le (by omega), ?_, hidle, hidle'⟩
        simpa using hprod
    next => simp at hcons
  next => simp at hprod

end LoopInv

/-! ## §4. The theorem. -/

/-- The rank at the start: four counted steps for each element. -/
theorem rank_transferInit (size : Nat) (storage : Nat → Ptr) (L : List Ptr) :
    (transferInit size storage L).rank L.length = 28 * L.length + 5 := by
  have hleft : (transferInit size storage L).left L.length = 4 * L.length := by
    simp [Transfer.left, Transfer.toPush, Transfer.toPop, transferInit, pointerfifoInit]
    omega
  have hahead (side : Side) : (transferInit size storage L).ahead side = 5 := by
    cases side <;> rfl
  unfold Transfer.rank
  rw [hleft, hahead]
  omega

/-- **UNDER FAIR SCHEDULING THE POLLING LOOPS FINISH.**  However the two
threads take turns, as long as each gets one again and again: from some turn
on both have left their loops, and the consumer has received exactly `L`, in
order.  If each gets one in any `w` consecutive turns, that is so after
`w * (28 * |L| + 5)` turns at the latest. -/
theorem transfer_completes (size : Nat) (hsize : 0 < size) (storage : Nat → Ptr) (L : List Ptr)
    (hL : ∀ pointer ∈ L, pointer ≠ NULL) (turns : Nat → Side) :
    (Fair turns → ∃ k, ∀ j ≥ k,
        (afterTurns (transferTurn L.length) (transferInit size storage L) turns j).Finished L.length
          ∧ (afterTurns (transferTurn L.length) (transferInit size storage L) turns j).got = L)
      ∧ ∀ w, FairWithin w turns → ∀ j ≥ w * (28 * L.length + 5),
        (afterTurns (transferTurn L.length) (transferInit size storage L) turns j).Finished L.length
          ∧ (afterTurns (transferTurn L.length) (transferInit size storage L) turns j).got = L := by
  let R : Ranking (transferTurn L.length) (LoopInv size storage L)
      (Transfer.Finished L.length) := LoopInv.ranking hsize hL
  have h0 := LoopInv.init size storage L
  -- once finished, finished with everything
  have hafter (k : Nat) (hdone : Transfer.Finished L.length
      (afterTurns (transferTurn L.length) (transferInit size storage L) turns k)) (j : Nat)
      (hkj : k ≤ j) :
      (afterTurns (transferTurn L.length) (transferInit size storage L) turns j).Finished L.length
        ∧ (afterTurns (transferTurn L.length) (transferInit size storage L) turns j).got = L := by
    rw [afterTurns_stay hkj (LoopInv.finished_stay hdone)]
    exact ⟨hdone, (LoopInv.finished_got (afterTurns_keep h0 R.keep k) hdone).1⟩
  constructor
  · intro hfair
    obtain ⟨k, hdone⟩ := R.eventually_done h0 fun t k => hfair (R.helpful t) k
    exact ⟨k, hafter k hdone⟩
  · intro w hfair j hj
    obtain ⟨k, hk, hdone⟩ := R.done_within h0 fun t k => hfair (R.helpful t) k
    have hrank : R.rank (transferInit size storage L) = 28 * L.length + 5 :=
      rank_transferInit size storage L
    rw [hrank] at hk
    exact hafter k hdone j (hk.trans hj)

/-- Turn by turn, the transfer of 5 and 6 through one slot is over after 122
turns. -/
theorem turnByTurn_completes :
    (afterTurns (transferTurn 2) (transferInit 1 (fun _ => 77) [5, 6])
      (fun k => if k % 2 = 0 then .producer else .consumer) 122).got = [5, 6] := by
  have hfair : FairWithin 2 fun k => if k % 2 = 0 then Side.producer else Side.consumer := by
    intro side k
    cases side with
    | producer =>
        refine ⟨k % 2, Nat.mod_lt _ (by decide), ?_⟩
        simp only [ite_eq_left_iff]
        omega
    | consumer =>
        refine ⟨1 - k % 2, by omega, ?_⟩
        simp only [ite_eq_right_iff]
        omega
  exact ((transfer_completes 1 (by decide) (fun _ => 77) [5, 6] (by decide) _).2 2 hfair 122
    (by decide)).2

end MulleFifo
