/-
  MulleFifo.Model.Transfer — the two polling loops of the stress tests.

  The producer offers the elements of a list `L` in order and repeats a
  write while it returns -1; the consumer reads until it has received as
  many pointers as `L` has, ignoring NULL.  `transferStep` runs the loops on
  the FIFO: a thread between calls makes the call its loop makes next, a
  thread in a call takes its next step.

  Every run of the loops is a run of the FIFO (`TransferInv.run`), so its
  invariant holds; in addition the loops keep

      accepted, followed by what is still to be offered, is `L`.
-/
import MulleFifo.Model.SeqCst

namespace MulleFifo

open Lib

/-! ## §1. The loops. -/

/-- Whose turn it is. -/
inductive Side
  | producer
  | consumer
  deriving DecidableEq, Repr

/-- The FIFO and the local variables of the two loops. -/
structure Transfer where
  fifo : Config ScMem
  /-- The elements of `L` from the current one on. -/
  offer : List Ptr
  /-- The pointers received so far. -/
  got : List Ptr

/-- `while( _mulle_pointerfifo_write( &fifo, p) == -1)`: only a -1 keeps
the producer at the current element. -/
def offerAfter (offer : List Ptr) : Event → List Ptr
  | .prod (.ret _ rval) => if rval = -1 then offer else offer.tail
  | _ => offer

/-- `if( ! p) continue;`: only a non-NULL result is received. -/
def gotAfter (got : List Ptr) : Event → List Ptr
  | .cons (.ret pointer) => if pointer = NULL then got else got ++ [pointer]
  | _ => got

/-- What the producer does next: its loop's call, or the next access. -/
def producerAction (t : Transfer) : Option (Action Unit) :=
  if t.fifo.prod.pc = .idle then t.offer.head?.map .callWrite else some (.prod ())

/-- What the consumer does next, of `n_items`. -/
def consumerAction (n_items : Nat) (t : Transfer) : Option (Action Unit) :=
  if t.fifo.cons.pc = .idle then
    if t.got.length < n_items then some .callRead else none
  else some (.cons ())

/-- What a side does next. -/
def loopAction (n_items : Nat) (t : Transfer) : Side → Option (Action Unit)
  | .producer => producerAction t
  | .consumer => consumerAction n_items t

/-- One step of one of the loops. -/
def transferStep (n_items : Nat) (t : Transfer) (side : Side) : Option (Transfer × Event) :=
  (loopAction n_items t side).bind fun a =>
    (step (seqCst .exact) .exact t.fifo a).map fun r =>
      (⟨r.1, offerAfter t.offer r.2, gotAfter t.got r.2⟩, r.2)

/-- Both loops at their start, on a freshly initialised FIFO. -/
def transferInit (size : Nat) (storage : Nat → Ptr) (L : List Ptr) : Transfer :=
  ⟨pointerfifoInit size storage, L, []⟩

/-- Run the loops. -/
abbrev transferRun (size : Nat) (storage : Nat → Ptr) (L : List Ptr) (turns : List Side) :
    Option (Transfer × List Event) :=
  run (transferStep L.length) (transferInit size storage L) turns

/-! ## §2. What the loops keep. -/

/-- The pointer of the call in progress, returning or not. -/
@[simp] def WritePc.current : WritePc → List Ptr
  | .idle => []
  | .getCount pointer | .store pointer | .index pointer | .increment pointer
  | .ret pointer _ => [pointer]

/-- The loops after the trace `tr`. -/
structure TransferInv (size : Nat) (storage : Nat → Ptr) (L : List Ptr) (tr : List Event)
    (t : Transfer) : Prop where
  run : ∃ as, scRun size storage as = some (t.fifo, tr)
  offered : accepted tr ++ t.offer = L
  current : t.fifo.prod.pc.current <+: t.offer
  called : ∀ pointer, .prod (.call pointer) ∈ tr → pointer ∈ L
  got_eq : t.got = received tr

namespace TransferInv

variable {size : Nat} {storage : Nat → Ptr} {L : List Ptr} {tr : List Event} {t t' : Transfer}

theorem init (size : Nat) (storage : Nat → Ptr) (L : List Ptr) :
    TransferInv size storage L [] (transferInit size storage L) where
  run := ⟨[], rfl⟩
  offered := rfl
  current := List.nil_prefix
  called := by simp
  got_eq := rfl

theorem inv (hT : TransferInv size storage L tr t) : Inv size storage tr t.fifo := by
  obtain ⟨as, h⟩ := hT.run
  exact scRun_inv h

/-- A step of a loop is a step of the FIFO; a call is of the current
element. -/
theorem transferStep_step {side : Side} {e : Event} {n_items : Nat}
    (h : transferStep n_items t side = some (t', e)) :
    ∃ a, step (seqCst .exact) .exact t.fifo a = some (t'.fifo, e)
      ∧ t'.offer = offerAfter t.offer e ∧ t'.got = gotAfter t.got e
      ∧ (∀ pointer, e = .prod (.call pointer) → [pointer] <+: t.offer) := by
  unfold transferStep at h
  obtain ⟨a, ha, h⟩ := Option.bind_eq_some_iff.mp h
  obtain ⟨r, hr, h⟩ := Option.map_eq_some_iff.mp h
  obtain ⟨rfl, rfl⟩ := Prod.mk.inj h
  refine ⟨a, hr, rfl, rfl, ?_⟩
  intro pointer hcall
  cases side with
  | producer =>
      simp only [loopAction, producerAction] at ha
      split at ha
      · obtain ⟨p, hp, rfl⟩ := Option.map_eq_some_iff.mp ha
        obtain ⟨rest, hrest⟩ := List.head?_eq_some_iff.mp hp
        simp only [step, Option.map_eq_some_iff] at hr
        obtain ⟨q, _, rfl⟩ := hr
        obtain rfl := WriteEvent.call.inj (Event.prod.inj hcall)
        rw [hrest]
        exact ⟨rest, rfl⟩
      · -- inside a call the next step is not a call
        rename_i hbusy
        obtain rfl := Option.some.inj ha
        have ht := step_transition hr
        rw [hcall] at ht
        generalize r.1 = c' at ht
        cases ht with
        | callNull hpc => exact absurd hpc hbusy
        | call hpc hp => exact absurd hpc hbusy
  | consumer =>
      simp only [loopAction, consumerAction] at ha
      split at ha
      · split at ha
        · obtain rfl := Option.some.inj ha
          simp only [step, Option.map_eq_some_iff] at hr
          obtain ⟨q, _, rfl⟩ := hr
          simp at hcall
        · simp at ha
      · obtain rfl := Option.some.inj ha
        simp only [step, Option.map_eq_some_iff] at hr
        obtain ⟨q, _, rfl⟩ := hr
        simp at hcall

/-- A step that neither calls nor returns a write keeps the current element. -/
theorem quiet (hT : TransferInv size storage L tr t) {e : Event}
    (hrun : ∃ as, scRun size storage as = some (t'.fifo, tr ++ [e]))
    (hacc : accepted (tr ++ [e]) = accepted tr) (hoffer : t'.offer = t.offer)
    (hcur : t'.fifo.prod.pc.current <+: t.offer) (he : ∀ pointer, e ≠ .prod (.call pointer))
    (hgot : t'.got = received (tr ++ [e])) : TransferInv size storage L (tr ++ [e]) t' where
  run := hrun
  offered := by rw [hacc, hoffer]; exact hT.offered
  current := by rw [hoffer]; exact hcur
  called := by
    intro pointer hmem
    rcases List.mem_append.mp hmem with hin | hlast
    · exact hT.called pointer hin
    · exact absurd (List.mem_singleton.mp hlast).symm (he pointer)
  got_eq := hgot

/-- **The loops' step lemma.** -/
theorem step (hL : ∀ pointer ∈ L, pointer ≠ NULL) (hT : TransferInv size storage L tr t)
    {side : Side} {e : Event} {n_items : Nat} (h : transferStep n_items t side = some (t', e)) :
    TransferInv size storage L (tr ++ [e]) t' := by
  obtain ⟨a, hs, hoffer, hgot, hcall⟩ := transferStep_step h
  obtain ⟨as, hrun⟩ := hT.run
  have hrun' : ∃ as, scRun size storage as = some (t'.fifo, tr ++ [e]) :=
    ⟨as ++ [a], run_snoc.mpr ⟨_, _, _, hrun, hs, rfl⟩⟩
  have hcur := hT.current
  have hI := scRun_inv hrun
  rw [hT.got_eq] at hgot
  obtain ⟨c', offer', got'⟩ := t'
  simp only at hs hoffer hgot hrun'
  have helement {pointer : Ptr} (hmem : pointer ∈ t.offer) : pointer ∈ L := by
    rw [← hT.offered]
    exact List.mem_append_right _ hmem
  cases step_transition hs with
  | callNull hpc =>
      have hmem := (hcall NULL rfl).subset (List.mem_singleton.mpr rfl)
      exact absurd rfl (hL NULL (helement hmem))
  | @call pointer hpc hp =>
      have hhead := hcall pointer rfl
      refine ⟨hrun', ?_, ?_, ?_, by simpa [gotAfter] using hgot⟩
      · rw [hoffer, accepted_snoc]
        simpa [offerAfter] using hT.offered
      · rw [hoffer]
        exact hhead
      · intro pointer' hmem
        rcases List.mem_append.mp hmem with hin | hlast
        · exact hT.called pointer' hin
        · obtain rfl : pointer' = pointer := by simpa using hlast
          exact helement (hhead.subset (List.mem_singleton.mpr rfl))
  | full hpc | room hpc | store hpc | indexWrite hpc | increment _ hpc =>
      rw [hpc] at hcur
      exact hT.quiet hrun' (by simp) hoffer hcur (by simp) (by simpa [gotAfter] using hgot)
  | @retWrite pointer rval hpc =>
      rw [hpc] at hcur
      obtain ⟨rest, hrest⟩ := hcur
      have hne := hL pointer (helement (by simp [← hrest]))
      have hoffered := hT.offered
      rw [← hrest] at hoffered hoffer
      refine ⟨hrun', ?_, List.nil_prefix, ?_, by simpa [gotAfter] using hgot⟩
      · rcases hI.producer.ret_ok pointer rval hpc with hnull | hok
        · exact absurd hnull.1 hne
        · rcases hok.2 with hrefused | hzero
          · -- refused: the same element again
            rw [hoffer, accepted_snoc]
            simpa [offerAfter, hrefused] using hoffered
          · -- accepted: on to the next element
            rw [hoffer, accepted_snoc]
            simpa [offerAfter, hzero] using hoffered
      · intro pointer' hmem
        rcases List.mem_append.mp hmem with hin | hlast
        · exact hT.called pointer' hin
        · simp at hlast
  | @retRead pointer hpc =>
      refine hT.quiet hrun' (by simp) hoffer hcur (by simp) ?_
      by_cases hnull : pointer = NULL
      · simpa [gotAfter, hnull] using hgot
      · simpa [gotAfter, hnull] using hgot
  | callRead | empty | avail | load | indexRead | decrement | count | work =>
      exact hT.quiet hrun' (by simp) hoffer hcur (by simp) (by simpa [gotAfter] using hgot)

end TransferInv

/-- **Every run of the loops keeps it.** -/
theorem transferRun_inv {size : Nat} {storage : Nat → Ptr} {L : List Ptr}
    (hL : ∀ pointer ∈ L, pointer ≠ NULL) {turns : List Side} {t : Transfer} {tr : List Event}
    (h : transferRun size storage L turns = some (t, tr)) : TransferInv size storage L tr t :=
  run_invariant (TransferInv.init size storage L) (fun _ _ _ _ _ hT hs => hT.step hL hs) h

end MulleFifo
