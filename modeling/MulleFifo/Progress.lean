/-
  MulleFifo.Progress — the two polling loops never stall together.

  A call can fail without moving anything: a write that returns -1, a read
  that returns NULL.  A SEGMENT of a run is active when each thread that
  was not finished at its start either finishes in it or completes a call
  it began in it.  An active segment in which `n` does not change would
  contain

    • a full check that saw `n = size`, if the producer was not finished,
    • an empty check that saw `n = 0`, if the consumer was not finished,

  and `n` is the same at both.  That is impossible for `size > 0`; and if
  only one thread was not finished, its check contradicts what the other
  has done.  So every active segment moves something until both threads
  are finished, and `2 * length L` of them are enough.
-/
import MulleFifo.Model.Transfer
import MulleFifo.Lib.Events

namespace MulleFifo

open Lib

/-! ## §1. Segments. -/

/-- The last increment has been executed. -/
def ProducerFinished (L : List Ptr) (tr : List Event) : Prop := (pushed tr).length = L.length

/-- The last decrement has been executed. -/
def ConsumerFinished (L : List Ptr) (tr : List Event) : Prop := (popped tr).length = L.length

/-- The segment contains a write from its call to its return. -/
def WriteCompletes (seg : List Event) : Prop :=
  ∃ before pointer after, seg = before ++ .prod (.call pointer) :: after
    ∧ ∃ pointer' rval, .prod (.ret pointer' rval) ∈ after

/-- The segment contains a read from its call to its return. -/
def ReadCompletes (seg : List Event) : Prop :=
  ∃ before after, seg = before ++ .cons .call :: after ∧ ∃ pointer, .cons (.ret pointer) ∈ after

/-- A thread that is not finished when the segment `seg` starts, after
`pre`, finishes in it or completes a call in it. -/
structure Active (L : List Ptr) (pre seg : List Event) : Prop where
  producer : ProducerFinished L pre ∨ ProducerFinished L (pre ++ seg) ∨ WriteCompletes seg
  consumer : ConsumerFinished L pre ∨ ConsumerFinished L (pre ++ seg) ∨ ReadCompletes seg

/-- After `pre`, the events contain this many active segments, one after
the other and disjoint, with anything between them. -/
inductive Segments (L : List Ptr) : List Event → List Event → Nat → Prop
  | none (pre rest : List Event) : Segments L pre rest 0
  | more {pre gap seg rest : List Event} {m : Nat} (hseg : Active L (pre ++ gap) seg)
      (h : Segments L (pre ++ gap ++ seg) rest m) : Segments L pre (gap ++ seg ++ rest) (m + 1)

/-! ## §2. A call that fails has seen why. -/

section Calls

variable {μ χ : Type} {M : MemoryModel μ χ}

/-- A write under way: it found the FIFO full, or incremented, or has not
returned. -/
def WriteOutcome (mid : List Event) (c : Config μ) : Prop :=
  (∃ n, .prod (.full n) ∈ mid) ∨ pushed mid ≠ []
    ∨ (c.prod.pc.arg ≠ [] ∧ ∀ pointer rval, .prod (.ret pointer rval) ∉ mid)

theorem WriteOutcome.step {mid : List Event} {c c' : Config μ} {e : Event}
    (hW : WriteOutcome mid c) (h : Transition M .exact c e c') :
    WriteOutcome (mid ++ [e]) c' := by
  rcases hW with hfull | hpushed | hopen
  · left
    obtain ⟨n, hn⟩ := hfull
    exact ⟨n, List.mem_append_left _ hn⟩
  · right
    left
    rw [pushed_snoc]
    simp [hpushed]
  · obtain ⟨harg, hnone⟩ := hopen
    cases h with
    | full hpc hread hn =>
        exact .inl ⟨_, List.mem_append_right _ (List.mem_singleton.mpr rfl)⟩
    | increment ch hpc => exact .inr (.inl (by simp))
    | callNull hpc | call hpc | retWrite hpc => simp [hpc] at harg
    | room hpc | store hpc | indexWrite hpc =>
        refine .inr (.inr ⟨by simp, ?_⟩)
        intro pointer rval hmem
        exact hnone pointer rval (by simpa using hmem)
    | _ =>
        refine .inr (.inr ⟨harg, ?_⟩)
        intro pointer rval hmem
        exact hnone pointer rval (by simpa using hmem)

/-- A read under way: it found the FIFO empty, or decremented, or has not
returned. -/
def ReadOutcome (mid : List Event) (c : Config μ) : Prop :=
  .cons .empty ∈ mid ∨ popped mid ≠ []
    ∨ ((c.cons.pc = .getCount ∨ 0 < c.cons.pc.inFlight)
      ∧ ∀ pointer, .cons (.ret pointer) ∉ mid)

theorem ReadOutcome.step {mid : List Event} {c c' : Config μ} {e : Event}
    (hR : ReadOutcome mid c) (h : Transition M .exact c e c') : ReadOutcome (mid ++ [e]) c' := by
  rcases hR with hempty | hpopped | hopen
  · exact .inl (List.mem_append_left _ hempty)
  · right
    left
    rw [popped_snoc]
    simp [hpopped]
  · obtain ⟨hbusy, hnone⟩ := hopen
    cases h with
    | empty hpc hread hz => exact .inl (List.mem_append_right _ (by simp))
    | decrement ch hpc => exact .inr (.inl (by simp))
    | callRead hpc | retRead hpc => simp [hpc] at hbusy
    | avail hpc | load hpc | indexRead hpc =>
        refine .inr (.inr ⟨.inr (by simp), ?_⟩)
        intro pointer hmem
        exact hnone pointer (by simpa using hmem)
    | _ =>
        refine .inr (.inr ⟨hbusy, ?_⟩)
        intro pointer hmem
        exact hnone pointer (by simpa using hmem)

end Calls

section Failed

variable {size : Nat} {storage : Nat → Ptr} {as : List (Action Unit)} {c : Config ScMem}
  {pre seg post : List Event}

/-- A write completed without an increment saw a full FIFO. -/
theorem full_of_writeCompletes (h : scRun size storage as = some (c, pre ++ seg ++ post))
    (hne : ∀ pointer, .prod (.call pointer) ∈ seg → pointer ≠ NULL) (hseg : WriteCompletes seg)
    (hpushed : pushed seg = []) : ∃ n, .prod (.full n) ∈ seg := by
  obtain ⟨before, pointer, after, rfl, pointer', rval, hret⟩ := hseg
  rw [split_around] at h
  obtain ⟨c₁, c₂, as₁, a, as₂, rfl, _, ha, h2⟩ := run_split_event h
  obtain ⟨c₃, as₃, as₄, rfl, h3, _⟩ := run_split h2
  have hcalled : c₂.prod.pc.arg ≠ [] := by
    cases step_transition ha with
    | callNull hpc => exact absurd rfl (hne NULL (by simp))
    | call hpc hp => simp
  have hstart : WriteOutcome [] c₂ := .inr (.inr ⟨hcalled, by simp⟩)
  have hout := run_invariant hstart (fun _ _ _ _ _ hW hs => hW.step (step_transition hs)) h3
  rw [pushed_append] at hpushed
  have hafter : pushed after = [] := (List.append_eq_nil_iff.mp hpushed).2
  rcases hout with hfull | hpush | hopen
  · obtain ⟨n, hn⟩ := hfull
    exact ⟨n, by simp [hn]⟩
  · exact absurd hafter hpush
  · exact absurd hret (hopen.2 pointer' rval)

/-- A read completed without a decrement saw an empty FIFO. -/
theorem empty_of_readCompletes (h : scRun size storage as = some (c, pre ++ seg ++ post))
    (hseg : ReadCompletes seg) (hpopped : popped seg = []) : .cons .empty ∈ seg := by
  obtain ⟨before, after, rfl, pointer, hret⟩ := hseg
  rw [split_around] at h
  obtain ⟨c₁, c₂, as₁, a, as₂, rfl, _, ha, h2⟩ := run_split_event h
  obtain ⟨c₃, as₃, as₄, rfl, h3, _⟩ := run_split h2
  have hcalled : c₂.cons.pc = .getCount := by
    cases step_transition ha with
    | callRead hpc => rfl
  have hstart : ReadOutcome [] c₂ := .inr (.inr ⟨.inl hcalled, by simp⟩)
  have hout := run_invariant hstart (fun _ _ _ _ _ hR hs => hR.step (step_transition hs)) h3
  rw [popped_append] at hpopped
  have hafter : popped after = [] := (List.append_eq_nil_iff.mp hpopped).2
  rcases hout with hempty | hpop | hopen
  · simp [hempty]
  · exact absurd hafter hpop
  · exact absurd hret (hopen.2 pointer)

/-- What is observed in a segment without updates is the count at its start. -/
theorem observed_at_start (h : scRun size storage as = some (c, pre ++ seg ++ post)) {e : Event}
    {count : Nat} (hmem : e ∈ seg) (hobs : e.observed? = some count) (hpushed : pushed seg = [])
    (hpopped : popped seg = []) : (pushed pre).length = (popped pre).length + count := by
  obtain ⟨before, after, rfl⟩ := List.append_of_mem hmem
  rw [pushed_append] at hpushed
  rw [popped_append] at hpopped
  rw [split_around] at h
  obtain ⟨c₁, c₂, hI, ht, _⟩ := scRun_event h
  have hle := hI.popped_length_le
  have hcount := hI.observed ht hobs
  rw [pushed_append, popped_append, (List.append_eq_nil_iff.mp hpushed).1,
    (List.append_eq_nil_iff.mp hpopped).1, List.append_nil, List.append_nil] at hcount hle
  omega

/-- A full check saw `size`. -/
theorem full_count (h : scRun size storage as = some (c, pre ++ seg ++ post)) {n : Nat}
    (hmem : .prod (.full n) ∈ seg) : n = size := by
  obtain ⟨before, after, rfl⟩ := List.append_of_mem hmem
  rw [split_around] at h
  obtain ⟨c₁, c₂, hI, ht, _⟩ := scRun_event h
  cases ht with
  | full hpc hread hn => exact hn.trans hI.size_eq

end Failed

/-! ## §3. What the loops have done. -/

namespace TransferInv

variable {size : Nat} {storage : Nat → Ptr} {L : List Ptr} {tr : List Event} {t : Transfer}

/-- The pushed pointers are the first elements of the list. -/
theorem pushed_le (hT : TransferInv size storage L tr t) : pushed tr <+: L := by
  have hunreturned : t.fifo.prod.pc.unreturned <+: t.offer := by
    refine List.IsPrefix.trans ?_ hT.current
    cases hpc : t.fifo.prod.pc with
    | ret pointer rval =>
        by_cases hzero : rval = 0
        · simp [hzero]
        · simp [hzero]
    | _ => simp
  rw [hT.inv.producer.pushed_eq]
  conv_rhs => rw [← hT.offered]
  exact (List.prefix_append_right_inj _).mpr hunreturned

theorem popped_le (hT : TransferInv size storage L tr t) : popped tr <+: L :=
  hT.inv.popped_le.trans hT.pushed_le

/-- The received pointers are the first elements of the list. -/
theorem got_le (hT : TransferInv size storage L tr t) : t.got <+: L := by
  refine List.IsPrefix.trans ?_ hT.popped_le
  rw [hT.got_eq, hT.inv.popped_eq]
  exact List.prefix_append _ _

end TransferInv

/-! ## §4. Active segments. -/

section Segment

variable {size : Nat} {storage : Nat → Ptr} {L : List Ptr} {t : Transfer} {tr : List Event}

/-- An earlier moment of a run of the loops. -/
theorem pushed_le_of_prefix (hT : TransferInv size storage L tr t) {pre : List Event}
    (hpre : pre <+: tr) : (pushed pre).length ≤ L.length :=
  ((hpre.filterMap Event.pushed?).trans hT.pushed_le).length_le

/-- Nothing is popped that was not pushed, at any earlier moment. -/
theorem popped_le_pushed_of_prefix (hT : TransferInv size storage L tr t) {pre : List Event}
    (hpre : pre <+: tr) : (popped pre).length ≤ (pushed pre).length := by
  obtain ⟨post, rfl⟩ := hpre
  obtain ⟨as, h⟩ := hT.run
  obtain ⟨c₁, as₁, as₂, rfl, h1, _⟩ := run_split h
  exact (scRun_inv h1).popped_length_le

/-- **An active segment moves something**, or both threads were finished. -/
theorem active_moves (hT : TransferInv size storage L tr t) (hsize : 0 < size)
    (hL : ∀ pointer ∈ L, pointer ≠ NULL) {pre seg post : List Event}
    (htr : tr = pre ++ seg ++ post) (hactive : Active L pre seg) :
    pushed seg ≠ [] ∨ popped seg ≠ [] ∨ (ProducerFinished L pre ∧ ConsumerFinished L pre) := by
  by_cases hpushed : pushed seg = []
  case neg => exact .inl hpushed
  by_cases hpopped : popped seg = []
  case neg => exact .inr (.inl hpopped)
  refine .inr (.inr ?_)
  obtain ⟨as, h⟩ := hT.run
  have hpre : pre <+: tr := ⟨seg ++ post, by rw [htr, List.append_assoc]⟩
  have hle := popped_le_pushed_of_prefix hT hpre
  have hmax := pushed_le_of_prefix hT hpre
  have hne : ∀ pointer, .prod (.call pointer) ∈ seg → pointer ≠ NULL := by
    intro pointer hmem
    apply hL
    apply hT.called
    rw [htr]
    simp [hmem]
  subst htr
  -- without updates, a thread that was not finished saw its check fail
  have hprod : ProducerFinished L pre ∨ (pushed pre).length = (popped pre).length + size := by
    rcases hactive.producer with hdone | hdone | hcall
    · exact .inl hdone
    · left
      unfold ProducerFinished at hdone ⊢
      rwa [pushed_append, hpushed, List.append_nil] at hdone
    · right
      obtain ⟨n, hfull⟩ := full_of_writeCompletes h hne hcall hpushed
      rw [← full_count h hfull]
      exact observed_at_start h hfull rfl hpushed hpopped
  have hcons : ConsumerFinished L pre ∨ (pushed pre).length = (popped pre).length := by
    rcases hactive.consumer with hdone | hdone | hcall
    · exact .inl hdone
    · left
      unfold ConsumerFinished at hdone ⊢
      rwa [popped_append, hpopped, List.append_nil] at hdone
    · right
      have hempty := empty_of_readCompletes h hcall hpopped
      exact observed_at_start h hempty rfl hpushed hpopped
  unfold ProducerFinished ConsumerFinished at *
  omega

/-- **Many active segments**: each moves something until both threads are
finished. -/
theorem segments_move (hsize : 0 < size) (hL : ∀ pointer ∈ L, pointer ≠ NULL)
    (hT : TransferInv size storage L tr t) {pre rest : List Event} {m : Nat}
    (hseg : Segments L pre rest m) (htr : tr = pre ++ rest) :
    (ProducerFinished L tr ∧ ConsumerFinished L tr)
      ∨ m ≤ (pushed rest).length + (popped rest).length := by
  induction hseg with
  | none pre rest => exact .inr (Nat.zero_le _)
  | @more pre gap seg rest m hactive h ih =>
      have htr' : tr = pre ++ gap ++ seg ++ rest := by
        rw [htr]
        simp
      rcases ih htr' with hdone | hmany
      · exact .inl hdone
      · rcases active_moves hT hsize hL htr' hactive with hmove | hmove | hdone
        · right
          have hpos := List.length_pos_iff.mpr hmove
          simp only [pushed_append, popped_append, List.length_append]
          omega
        · right
          have hpos := List.length_pos_iff.mpr hmove
          simp only [pushed_append, popped_append, List.length_append]
          omega
        · -- finished once, finished at the end
          left
          have hmax := hT.pushed_le.length_le
          have hmax' := hT.popped_le.length_le
          obtain ⟨hp, hc⟩ := hdone
          have hgrow : (pushed (pre ++ gap)).length ≤ (pushed tr).length := by
            rw [htr', pushed_append (pre ++ gap ++ seg), pushed_append (pre ++ gap)]
            simp only [List.length_append]
            omega
          have hgrow' : (popped (pre ++ gap)).length ≤ (popped tr).length := by
            rw [htr', popped_append (pre ++ gap ++ seg), popped_append (pre ++ gap)]
            simp only [List.length_append]
            omega
          unfold ProducerFinished at hp ⊢
          unfold ConsumerFinished at hc ⊢
          omega

end Segment

/-! ## §5. The theorem. -/

/-- **TRANSFER WITHOUT JOINT STALL.**  At every point the received pointers
are a prefix of the list and between 0 and `size` pointers are in the FIFO;
every active segment contains an increment or a decrement unless both
threads were finished; and after `2 * length L` active segments every
element has been accepted and removed, in order.  A pointer counts as
accepted once its write has incremented `n`, and as removed once its read
has decremented it: either call may still have to return. -/
theorem transfer_without_stall (size : Nat) (hsize : 2 ≤ size) (storage : Nat → Ptr)
    (L : List Ptr) (hL : ∀ pointer ∈ L, pointer ≠ NULL) (turns : List Side) (t : Transfer)
    (tr : List Event) (h : transferRun size storage L turns = some (t, tr)) :
    t.got <+: L
      ∧ ((popped tr).length ≤ (pushed tr).length
        ∧ (pushed tr).length ≤ (popped tr).length + size)
      ∧ (∀ pre seg post, tr = pre ++ seg ++ post → Active L pre seg →
          pushed seg ≠ [] ∨ popped seg ≠ []
            ∨ (ProducerFinished L pre ∧ ConsumerFinished L pre))
      ∧ (Segments L [] tr (2 * L.length) →
          pushed tr = L ∧ popped tr = L ∧ t.got ++ t.fifo.cons.pc.unreturned = L) := by
  have hT := transferRun_inv hL h
  have hpos : 0 < size := by omega
  refine ⟨hT.got_le, ⟨hT.inv.popped_length_le, hT.inv.bounded⟩, ?_, ?_⟩
  · intro pre seg post htr hactive
    exact active_moves hT hpos hL htr hactive
  · intro hseg
    have hmax := hT.pushed_le.length_le
    have hmax' := hT.popped_le.length_le
    have hdone : ProducerFinished L tr ∧ ConsumerFinished L tr := by
      rcases segments_move hpos hL hT hseg rfl with hdone | hmany
      · exact hdone
      · unfold ProducerFinished ConsumerFinished
        omega
    have hpopped := hT.popped_le.eq_of_length hdone.2
    refine ⟨hT.pushed_le.eq_of_length hdone.1, hpopped, ?_⟩
    rw [hT.got_eq, ← hT.inv.popped_eq]
    exact hpopped

/-- A segment right at the start. -/
theorem Segments.next {L : List Ptr} {pre seg rest : List Event} {m : Nat} (hseg : Active L pre seg)
    (h : Segments L (pre ++ seg) rest m) : Segments L pre (seg ++ rest) (m + 1) := by
  rw [← List.append_nil pre] at hseg h
  exact .more hseg h

/-- Three pointers through a FIFO of two slots: the consumer polls too
early, then the producer finds the FIFO full twice. -/
def handOver : List Side :=
  [.consumer, .producer, .consumer, .producer, .producer, .producer, .producer, .consumer,
    .producer, .producer, .producer, .producer, .producer, .producer, .producer, .producer,
    .producer, .producer,
    .producer, .consumer, .producer, .consumer, .consumer, .consumer, .consumer, .producer,
    .consumer,
    .producer, .producer, .consumer, .consumer, .producer, .consumer, .consumer, .producer,
    .producer, .consumer, .consumer,
    .consumer, .consumer, .consumer, .consumer, .consumer]

/-- A read that finds nothing, two writes, and one that is refused. -/
def filledUp : List Event :=
  [.cons .call, .prod (.call 5), .cons .empty, .prod (.room 5 0), .prod (.store 0 5),
    .prod .index, .prod (.increment 5), .cons (.ret NULL), .prod (.ret 5 0),
    .prod (.call 6), .prod (.room 6 1), .prod (.store 1 6), .prod .index, .prod (.increment 6),
    .prod (.ret 6 0), .prod (.call 7), .prod (.full 2), .prod (.ret 7 (-1))]

/-- The same write is refused again, while the first pointer is read. -/
def refusedAgain : List Event :=
  [.prod (.call 7), .cons .call, .prod (.full 2), .cons (.avail 2), .cons (.load 0 5),
    .cons .index, .cons (.decrement 5), .prod (.ret 7 (-1)), .cons (.ret 5)]

/-- The third try: the producer finishes. -/
def thirdTry : List Event :=
  [.prod (.call 7), .prod (.room 7 1), .cons .call, .cons (.avail 1), .prod (.store 0 7),
    .cons (.load 1 6), .cons .index, .prod .index, .prod (.increment 7), .cons (.decrement 6),
    .cons (.ret 6)]

/-- The consumer finishes. -/
def lastRead : List Event :=
  [.cons .call, .cons (.avail 1), .cons (.load 0 7), .cons .index, .cons (.decrement 7)]

/-- What `handOver` shows. -/
def handOverTrace : List Event := filledUp ++ (refusedAgain ++ (thirdTry ++ lastRead))

theorem refusedAgain_active : Active [5, 6, 7] filledUp refusedAgain :=
  ⟨.inr (.inr ⟨[], 7, _, rfl, 7, -1, by decide⟩), .inr (.inr ⟨[_], _, rfl, 5, by decide⟩)⟩

/-- Four active segments until both are finished, and two empty ones. -/
theorem handOver_segments : Segments [5, 6, 7] [] handOverTrace 6 := by
  have hfilled : Active [5, 6, 7] [] filledUp :=
    ⟨.inr (.inr ⟨[_], 5, _, rfl, 5, 0, by decide⟩), .inr (.inr ⟨[], _, rfl, NULL, by decide⟩)⟩
  have hthird : Active [5, 6, 7] (filledUp ++ refusedAgain) thirdTry :=
    ⟨.inr (.inl rfl), .inr (.inr ⟨[_, _], _, rfl, 6, by decide⟩)⟩
  have hlast : Active [5, 6, 7] (filledUp ++ refusedAgain ++ thirdTry) lastRead :=
    ⟨.inl rfl, .inr (.inl rfl)⟩
  have hdone : Active [5, 6, 7] (filledUp ++ refusedAgain ++ thirdTry ++ lastRead) [] :=
    ⟨.inl rfl, .inl rfl⟩
  have hend : Segments [5, 6, 7] (filledUp ++ refusedAgain ++ thirdTry ++ lastRead) [] 2 :=
    .next hdone (.next hdone (.none _ []))
  exact .next hfilled (.next refusedAgain_active (.next hthird (.next hlast hend)))

/-- The refused retries move nothing, but each comes with a read or a write
that does; in the end everything is transferred, although neither the last
write nor the last read has returned. -/
theorem handOver_without_stall :
    ∃ t, transferRun 2 (fun _ => 77) [5, 6, 7] handOver = some (t, handOverTrace)
      ∧ writes handOverTrace = [(5, 0), (6, 0), (7, -1), (7, -1)]
      ∧ t.got = [5, 6] ∧ t.got <+: [5, 6, 7]
      ∧ (pushed refusedAgain ≠ [] ∨ popped refusedAgain ≠ []
          ∨ (ProducerFinished [5, 6, 7] filledUp ∧ ConsumerFinished [5, 6, 7] filledUp))
      ∧ pushed handOverTrace = [5, 6, 7] ∧ popped handOverTrace = [5, 6, 7]
      ∧ t.got ++ t.fifo.cons.pc.unreturned = [5, 6, 7] := by
  obtain ⟨t, h, hgot⟩ : ∃ t, transferRun 2 (fun _ => 77) [5, 6, 7] handOver
      = some (t, handOverTrace) ∧ t.got = [5, 6] := ⟨_, rfl, rfl⟩
  obtain ⟨hreceived, _, hmoves, hdone⟩ :=
    transfer_without_stall 2 (by decide) _ [5, 6, 7] (by decide) handOver t _ h
  have hmove := hmoves filledUp refusedAgain (thirdTry ++ lastRead) (by simp [handOverTrace])
    refusedAgain_active
  exact ⟨t, h, rfl, hgot, hreceived, hmove, hdone handOver_segments⟩

end MulleFifo
