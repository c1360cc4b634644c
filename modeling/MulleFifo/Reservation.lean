/-
  MulleFifo.Reservation — what a count is worth to its own side.

  The count may be stale at once, but only in one direction.  Between its
  calls the producer is the only one who could make the FIFO fuller, the
  consumer the only one who could make it emptier:

    • a producer that counted `c` has `size - c` accepted writes ahead of
      it, whatever the consumer does meanwhile,
    • a consumer that counted `c` has `c` successful reads ahead of it, and
      they return the `c` oldest pointers, in order,
    • as long as it has nothing accepted, the producer's counts only fall;
      as long as it has nothing received, the consumer's only rise.

  The argument counts from the moment of the count: a write can be refused
  only after `size - c` increments of its own side, a read only after `c`
  decrements of its own side.
-/
import MulleFifo.Linearizability
import MulleFifo.Lib.Events

namespace MulleFifo

open Lib

/-! ## §1. Completed offers. -/

/-- A completed write of a non-NULL pointer: pointer and result. -/
@[simp] def Event.offer? : Event → Option (Ptr × Int)
  | .prod (.ret pointer rval) => if pointer = NULL then none else some (pointer, rval)
  | _ => none

/-- The completed writes of non-NULL pointers. -/
def offers (tr : List Event) : List (Ptr × Int) := tr.filterMap Event.offer?

@[simp] theorem offers_snoc (tr : List Event) (e : Event) :
    offers (tr ++ [e]) = offers tr ++ e.offer?.toList := filterMap_snoc _ tr e

/-- The accepted writes are the offers with result 0. -/
theorem accepted_length_eq {tr : List Event} (h : ∀ pointer ∈ accepted tr, pointer ≠ NULL) :
    (accepted tr).length = ((offers tr).filter fun w => w.2 = 0).length := by
  induction tr using List.reverseRecOn with
  | nil => rfl
  | append_singleton tr e ih =>
      have hrest := ih fun pointer hmem => h pointer (by simp [hmem])
      rw [accepted_snoc] at h ⊢
      rw [offers_snoc, List.filter_append, List.length_append, List.length_append, hrest]
      congr 1
      cases e with
      | prod w =>
          cases w with
          | ret pointer rval =>
              by_cases hzero : rval = 0
              · have hne : pointer ≠ NULL := h pointer (by simp [hzero])
                simp [hzero, hne]
              · by_cases hnull : pointer = NULL
                · simp [hzero, hnull]
                · simp [hzero, hnull]
          | _ => rfl
      | _ => rfl

/-! ## §2. The moment of the count. -/

section Count

variable {size : Nat} {storage : Nat → Ptr} {as : List (Action Unit)} {c : Config ScMem}
  {t : Thread} {count : Nat} {pre post : List Event}

/-- A count is the number of unread pointers, takes place between the calls
of its thread, and changes nothing. -/
theorem counted (h : scRun size storage as = some (c, pre ++ .count t count :: post)) :
    ∃ c₁ as₂, Inv size storage pre c₁ ∧ betweenCalls c₁.prod c₁.cons t
      ∧ count = (unread pre).length
      ∧ run (step (seqCst .exact) .exact) c₁ as₂ = some (c, post) := by
  obtain ⟨c₁, c₂, as₁, a, as₂, rfl, h1, ha, h2⟩ := run_split_event h
  have hI := scRun_inv h1
  have ht := step_transition ha
  have hobs := hI.observed ht (v := count) rfl
  cases ht with
  | count hbetween hread =>
      obtain ⟨rfl, rfl⟩ := Prod.mk.inj (Option.some.inj hread)
      exact ⟨c₁, as₂, hI, hbetween, by rw [unread_length]; exact hobs, h2⟩

end Count

/-! ## §3. The producer's reservation. -/

/-- After the producer counted in the state reached by `pre`: a refused
write has `size - count` increments behind it. -/
structure Reserved (size : Nat) (storage : Nat → Ptr) (pre mid : List Event)
    (c : Config ScMem) : Prop where
  inv : Inv size storage (pre ++ mid) c
  refused : ∀ pointer, c.prod.pc = .ret pointer (-1) →
    size - (unread pre).length ≤ (pushed mid).length

section Producer

variable {size : Nat} {storage : Nat → Ptr} {pre mid : List Event} {c c' : Config ScMem}

/-- A full FIFO has been filled up since the count. -/
theorem Inv.filled (hI : Inv size storage pre c) (hI' : Inv size storage (pre ++ mid) c')
    (hfull : c'.mem.n.toNat = size) : size - (unread pre).length ≤ (pushed mid).length := by
  have hle := hI.popped_length_le
  have hcnt := hI'.toNat_counter
  rw [hfull, pushed_append, popped_append, List.length_append, List.length_append] at hcnt
  rw [unread_length]
  omega

theorem Reserved.step {e : Event} (hI : Inv size storage pre c) {s s' : Config ScMem}
    (hR : Reserved size storage pre mid s) (h : Transition (seqCst .exact) .exact s e s') :
    Reserved size storage pre (mid ++ [e]) s' := by
  obtain ⟨hinv, hrefused⟩ := hR
  have hinv' := hinv.step h
  have hgrow : (pushed mid).length ≤ (pushed (mid ++ [e])).length := by simp
  rw [List.append_assoc] at hinv'
  refine ⟨hinv', ?_⟩
  intro pointer hpc'
  cases h with
  | full hpc hread hn =>
      -- the full check itself: the FIFO is full here
      obtain ⟨rfl, rfl⟩ := Prod.mk.inj (Option.some.inj hread)
      have hfull : s.mem.n.toNat = size := hn.trans hinv.size_eq
      exact (hI.filled hinv hfull).trans hgrow
  | callNull | call | room | store | indexWrite | increment | retWrite => simp at hpc'
  | _ => exact (hrefused pointer hpc').trans hgrow

/-- Every reachable state after the count. -/
theorem reserved {as : List (Action Unit)} (hI : Inv size storage pre c)
    (hpc : c.prod.pc = .idle) (h : run (step (seqCst .exact) .exact) c as = some (c', mid)) :
    Reserved size storage pre mid c' := by
  refine run_invariant (P := Reserved size storage pre) ?_
    (fun _ _ _ _ _ hR hs => hR.step hI (step_transition hs)) h
  refine ⟨by rw [List.append_nil]; exact hI, ?_⟩
  intro pointer hret
  rw [hpc] at hret
  exact WritePc.noConfusion hret

/-- **The reservation of the producer**: among its next `size - count`
offers none is refused. -/
theorem offer_accepted {as : List (Action Unit)} {post : List Event}
    (hI : Inv size storage pre c) (hpc : c.prod.pc = .idle)
    (h : run (step (seqCst .exact) .exact) c as = some (c', post)) {i : Nat} {w : Ptr × Int}
    (hw : (offers post)[i]? = some w) (hi : i < size - (unread pre).length) : w.2 = 0 := by
  obtain ⟨mid, e, rest, rfl, he, hcount⟩ := exists_split_of_filterMap hw
  change (offers mid).length = i at hcount
  obtain ⟨s, s', as₁, a, as₂, rfl, h1, ha, _⟩ := run_split_event h
  have hR := reserved hI hpc h1
  cases step_transition ha with
  | @retWrite pointer rval hret =>
      simp only [Event.offer?] at he
      split at he
      · simp at he
      · rename_i hne
        obtain rfl := Option.some.inj he
        rcases hR.inv.producer.ret_ok pointer rval hret with hnull | hok
        · exact absurd hnull.1 hne
        · rcases hok.2 with hrefused | hzero
          · -- refused: then `size - count` offers were accepted before
            rw [hrefused] at hret
            have hfull := hR.refused pointer hret
            have hpa := hR.inv.producer.pushed_eq
            have hpa₀ := hI.pushed_eq_accepted hpc
            rw [hret, pushed_append, accepted_append, hpa₀] at hpa
            have hpushed : pushed mid = accepted mid := by simpa using hpa
            have hoffers : (accepted mid).length ≤ (offers mid).length := by
              rw [accepted_length_eq ?_]
              · exact List.length_filter_le _ _
              intro pointer' hmem
              apply hR.inv.producer.pushed_ne
              rw [pushed_append, hpushed]
              exact List.mem_append_right _ hmem
            rw [hpushed] at hfull
            omega
          · exact hzero
  | _ => simp at he

end Producer

/-! ## §4. The consumer's reservation. -/

/-- After the consumer counted in the state reached by `pre`: a read that
found nothing has `count` decrements behind it. -/
structure Fetched (size : Nat) (storage : Nat → Ptr) (pre mid : List Event)
    (c : Config ScMem) : Prop where
  inv : Inv size storage (pre ++ mid) c
  missed : c.cons.pc = .ret NULL → (unread pre).length ≤ (popped mid).length

section Consumer

variable {size : Nat} {storage : Nat → Ptr} {pre mid : List Event} {c c' : Config ScMem}

/-- An empty FIFO has been drained since the count. -/
theorem Inv.drained (hI : Inv size storage pre c) (hI' : Inv size storage (pre ++ mid) c')
    (hempty : c'.mem.n.toNat = 0) : (unread pre).length ≤ (popped mid).length := by
  have hle := hI.popped_length_le
  have hcnt := hI'.toNat_counter
  rw [hempty, pushed_append, popped_append, List.length_append, List.length_append] at hcnt
  rw [unread_length]
  omega

theorem Fetched.step {e : Event} (hI : Inv size storage pre c) {s s' : Config ScMem}
    (hF : Fetched size storage pre mid s) (h : Transition (seqCst .exact) .exact s e s') :
    Fetched size storage pre (mid ++ [e]) s' := by
  obtain ⟨hinv, hmissed⟩ := hF
  have hinv' := hinv.step h
  have hgrow : (popped mid).length ≤ (popped (mid ++ [e])).length := by simp
  rw [List.append_assoc] at hinv'
  refine ⟨hinv', ?_⟩
  intro hpc'
  cases h with
  | empty hpc hread hz =>
      -- the empty check itself
      obtain ⟨rfl, rfl⟩ := Prod.mk.inj (Option.some.inj hread)
      exact (hI.drained hinv hz).trans hgrow
  | @decrement pointer ch hpc =>
      -- no popped pointer is NULL
      have hmem : pointer ∈ pushed (pre ++ (mid ++ [.cons (.decrement pointer)])) := by
        apply hinv'.popped_le.subset
        rw [← List.append_assoc, popped_snoc]
        simp
      have hne := hinv'.producer.pushed_ne pointer hmem
      have hnull : pointer = NULL := by simpa using hpc'
      exact absurd hnull hne
  | callRead | avail | load | indexRead | retRead => simp at hpc'
  | _ => exact (hmissed hpc').trans hgrow

/-- Every reachable state after the count. -/
theorem fetched {as : List (Action Unit)} (hI : Inv size storage pre c)
    (hpc : c.cons.pc = .idle) (h : run (step (seqCst .exact) .exact) c as = some (c', mid)) :
    Fetched size storage pre mid c' := by
  refine run_invariant (P := Fetched size storage pre) ?_
    (fun _ _ _ _ _ hF hs => hF.step hI (step_transition hs)) h
  refine ⟨by rw [List.append_nil]; exact hI, ?_⟩
  intro hret
  rw [hpc] at hret
  exact ReadPc.noConfusion hret

/-- Among the next `count` reads none finds nothing. -/
theorem read_ne_null {as : List (Action Unit)} {post : List Event}
    (hI : Inv size storage pre c) (hpc : c.cons.pc = .idle)
    (h : run (step (seqCst .exact) .exact) c as = some (c', post)) {i : Nat} {pointer : Ptr}
    (hr : (reads post)[i]? = some pointer) (hi : i < (unread pre).length) : pointer ≠ NULL := by
  obtain ⟨mid, e, rest, rfl, he, hcount⟩ := exists_split_of_filterMap hr
  change (reads mid).length = i at hcount
  obtain ⟨s, s', as₁, a, as₂, rfl, h1, ha, _⟩ := run_split_event h
  have hF := fetched hI hpc h1
  cases step_transition ha with
  | @retRead pointer' hret =>
      obtain rfl := Option.some.inj he
      intro hnull
      rw [hnull] at hret
      have hdrained := hF.missed hret
      have hpo := hF.inv.popped_eq
      rw [hret, popped_append, received_append, hI.popped_eq_received hpc] at hpo
      have hpopped : popped mid = received mid := by simpa using hpo
      have hreads : (received mid).length ≤ (reads mid).length := by
        rw [received_eq_reads]
        exact List.length_filter_le _ _
      rw [hpopped] at hdrained
      omega
  | _ => simp at he

/-- **The reservation of the consumer**: its next `count` reads return the
oldest unread pointers, in order. -/
theorem reads_oldest {as : List (Action Unit)} {post : List Event}
    (hI : Inv size storage pre c) (hpc : c.cons.pc = .idle)
    (h : run (step (seqCst .exact) .exact) c as = some (c', post)) :
    (∀ pointer ∈ (reads post).take (unread pre).length, pointer ≠ NULL)
      ∧ (reads post).take (unread pre).length <+: unread pre := by
  have hne : ∀ pointer ∈ (reads post).take (unread pre).length, pointer ≠ NULL := by
    apply forall_mem_take
    intro i pointer hi hlt
    exact read_ne_null hI hpc h hi hlt
  refine ⟨hne, ?_⟩
  have hF := fetched hI hpc h
  -- successful reads, received, popped: each a prefix of the next
  have hreceived : (reads post).take (unread pre).length <+: received post := by
    rw [received_eq_reads]
    have hsplit := List.take_append_drop (unread pre).length (reads post)
    have hall : ((reads post).take (unread pre).length).filter (fun p => p ≠ NULL)
        = (reads post).take (unread pre).length :=
      List.filter_eq_self.mpr fun p hp => by simpa using hne p hp
    conv_rhs => rw [← hsplit, List.filter_append, hall]
    exact List.prefix_append _ _
  have hpopped : received post <+: popped post := by
    have hpo := hF.inv.popped_eq
    rw [popped_append, received_append, hI.popped_eq_received hpc, List.append_assoc] at hpo
    rw [List.append_cancel_left hpo]
    exact List.prefix_append _ _
  -- both continue the popped pointers as `pushed` does
  have hunread : popped pre ++ unread pre = pushed pre := by
    obtain ⟨rest, hrest⟩ := hI.popped_le
    rw [unread, ← hrest, List.drop_left]
  have hboth : popped pre ++ (reads post).take (unread pre).length <+: pushed (pre ++ post) := by
    refine List.IsPrefix.trans ?_ hF.inv.popped_le
    rw [popped_append]
    exact (List.prefix_append_right_inj _).mpr (hreceived.trans hpopped)
  have hpushed : popped pre ++ unread pre <+: pushed (pre ++ post) := by
    rw [hunread, pushed_append]
    exact List.prefix_append _ _
  have hlen : (popped pre ++ (reads post).take (unread pre).length).length
      ≤ (popped pre ++ unread pre).length := by
    rw [List.length_append, List.length_append, List.length_take]
    omega
  exact (List.prefix_append_right_inj _).mp
    (List.prefix_of_prefix_length_le hboth hpushed hlen)

end Consumer

/-! ## §5. Without progress of its own side. -/

section Monotone

variable {size : Nat} {storage : Nat → Ptr} {pre mid : List Event} {c c' : Config ScMem}

/-- Nothing accepted in between: the FIFO can only have become emptier. -/
theorem unread_antitone (hI : Inv size storage pre c) (hI' : Inv size storage (pre ++ mid) c')
    (hpc : c.prod.pc = .idle) (hpc' : c'.prod.pc = .idle) (hmid : accepted mid = []) :
    (unread (pre ++ mid)).length ≤ (unread pre).length := by
  have hpushed := hI'.pushed_eq_accepted hpc'
  rw [accepted_append, hmid, List.append_nil, ← hI.pushed_eq_accepted hpc] at hpushed
  rw [unread_length, unread_length, hpushed, popped_append, List.length_append]
  omega

/-- Nothing received in between: the FIFO can only have become fuller. -/
theorem unread_monotone (hI : Inv size storage pre c) (hI' : Inv size storage (pre ++ mid) c')
    (hpc : c.cons.pc = .idle) (hpc' : c'.cons.pc = .idle) (hmid : received mid = []) :
    (unread pre).length ≤ (unread (pre ++ mid)).length := by
  have hpopped := hI'.popped_eq_received hpc'
  rw [received_append, hmid, List.append_nil, ← hI.popped_eq_received hpc] at hpopped
  rw [unread_length, unread_length, hpopped, pushed_append, List.length_append]
  omega

end Monotone

/-! ## §6. The theorem. -/

/-- **A COUNT IS A RESERVATION FOR ITS OWN SIDE.**  After the producer
counted, its next `size - count` offers all return 0 (NULL writes return -2
and do not count); after the consumer counted, its next `count` reads
return the oldest unread pointers.  And the counts of a side that made no
progress itself move one way only. -/
theorem pointerfifo_count_reserves (size : Nat) (storage : Nat → Ptr) (as : List (Action Unit))
    (c : Config ScMem) (tr : List Event) (h : scRun size storage as = some (c, tr)) :
    (∀ pre count post, tr = pre ++ .count .producer count :: post →
        (∀ w ∈ (offers post).take (size - count), w.2 = 0)
          ∧ ∀ rval, (NULL, rval) ∈ writes post → rval = -2)
      ∧ (∀ pre count post, tr = pre ++ .count .consumer count :: post →
          count = (unread pre).length
            ∧ (∀ pointer ∈ (reads post).take count, pointer ≠ NULL)
            ∧ (reads post).take count <+: unread pre)
      ∧ (∀ pre count mid count' post,
          tr = pre ++ .count .producer count :: (mid ++ .count .producer count' :: post) →
          accepted mid = [] → count' ≤ count)
      ∧ (∀ pre count mid count' post,
          tr = pre ++ .count .consumer count :: (mid ++ .count .consumer count' :: post) →
          received mid = [] → count ≤ count') := by
  refine ⟨?_, ?_, ?_, ?_⟩
  · intro pre count post htr
    subst htr
    obtain ⟨c₁, as₂, hI, hpc, hcount, h2⟩ := counted h
    constructor
    · apply forall_mem_take
      intro i w hi hlt
      rw [hcount] at hlt
      exact offer_accepted hI hpc h2 hi hlt
    · intro rval hmem
      have htotal : (NULL, rval) ∈ writes (pre ++ .count .producer count :: post) := by
        unfold writes
        rw [List.filterMap_append]
        exact List.mem_append_right _ hmem
      rcases (scRun_inv h).producer.writes_ok NULL rval htotal with hnull | hother
      · exact hnull.2
      · exact absurd rfl hother.1
  · intro pre count post htr
    subst htr
    obtain ⟨c₁, as₂, hI, hpc, hcount, h2⟩ := counted h
    rw [hcount]
    exact ⟨rfl, reads_oldest hI hpc h2⟩
  · intro pre count mid count' post htr hmid
    subst htr
    obtain ⟨c₁, _, hI, hpc, hcount, _⟩ := counted h
    rw [← List.cons_append, ← List.append_assoc] at h
    obtain ⟨c₂, _, hI', hpc', hcount', _⟩ := counted h
    rw [hcount, hcount']
    exact unread_antitone hI hI' hpc hpc' hmid
  · intro pre count mid count' post htr hmid
    subst htr
    obtain ⟨c₁, _, hI, hpc, hcount, _⟩ := counted h
    rw [← List.cons_append, ← List.append_assoc] at h
    obtain ⟨c₂, _, hI', hpc', hcount', _⟩ := counted h
    rw [hcount, hcount']
    exact unread_monotone hI hI' hpc hpc' hmid

/-- Both sides count twice: the producer around a NULL write and the read of
5, the consumer around the writes of 6 and 7, which it then reads. -/
def countTwice : List (Action Unit) :=
  [.callWrite 5, .prod (), .prod (), .prod (), .prod (), .prod (), .callRead,
    .getCount .producer (), .callWrite NULL, .cons (), .prod (), .cons (), .cons (), .cons (),
    .getCount .producer (), .cons (), .getCount .consumer (), .callWrite 6, .prod (), .prod (),
    .prod (), .prod (), .prod (), .callWrite 7, .prod (), .prod (), .prod (), .prod (),
    .getCount .consumer (), .prod (), .callRead, .cons (), .cons (), .cons (), .cons (),
    .cons (), .callRead, .cons (), .cons (), .cons (), .cons (), .cons ()]

/-- What `countTwice` shows before the first count. -/
def writeOf5 : List Event :=
  [.prod (.call 5), .prod (.room 5 0), .prod (.store 0 5), .prod .index, .prod (.increment 5),
    .prod (.ret 5 0), .cons .call]

/-- What it shows between the counts of the producer. -/
def readOf5 : List Event :=
  [.prod (.call NULL), .cons (.avail 1), .prod (.ret NULL (-2)), .cons (.load 0 5),
    .cons .index, .cons (.decrement 5)]

/-- What it shows between the counts of the consumer. -/
def writesOf6And7 : List Event :=
  [.prod (.call 6), .prod (.room 6 0), .prod (.store 1 6), .prod .index, .prod (.increment 6),
    .prod (.ret 6 0), .prod (.call 7), .prod (.room 7 1), .prod (.store 2 7), .prod .index,
    .prod (.increment 7)]

/-- What it shows after the last count. -/
def readsOf6And7 : List Event :=
  [.prod (.ret 7 0), .cons .call, .cons (.avail 2), .cons (.load 1 6), .cons .index,
    .cons (.decrement 6), .cons (.ret 6), .cons .call, .cons (.avail 1), .cons (.load 2 7),
    .cons .index, .cons (.decrement 7), .cons (.ret 7)]

/-- The trace of `countTwice` up to the last count. -/
def beforeLastCount : List Event :=
  writeOf5 ++ .count .producer 1 :: (readOf5 ++ .count .producer 0 :: .cons (.ret 5)
    :: .count .consumer 0 :: writesOf6And7)

/-- The trace of `countTwice` after the first count. -/
def afterFirstCount : List Event :=
  readOf5 ++ .count .producer 0 :: .cons (.ret 5) :: .count .consumer 0 :: (writesOf6And7
    ++ .count .consumer 2 :: readsOf6And7)

/-- The first count reserved the writes of 6 and 7, the last one their
reads; the producer's counts fell and the consumer's rose. -/
theorem countTwice_reserves :
    ∃ c, scRun 3 (fun _ => 77) countTwice
        = some (c, writeOf5 ++ .count .producer 1 :: afterFirstCount)
      ∧ offers afterFirstCount = [(6, 0), (7, 0)]
      ∧ (∀ w ∈ (offers afterFirstCount).take (3 - 1), w.2 = 0)
      ∧ (NULL, -2) ∈ writes afterFirstCount
      ∧ (∀ rval, (NULL, rval) ∈ writes afterFirstCount → rval = -2)
      ∧ (reads readsOf6And7).take 2 = [6, 7]
      ∧ (∀ pointer ∈ (reads readsOf6And7).take 2, pointer ≠ NULL)
      ∧ (reads readsOf6And7).take 2 <+: unread beforeLastCount
      ∧ (accepted readOf5 = [] ∧ 0 ≤ 1) ∧ (received writesOf6And7 = [] ∧ 0 ≤ 2) := by
  obtain ⟨c, h⟩ : ∃ c, scRun 3 (fun _ => 77) countTwice
      = some (c, writeOf5 ++ .count .producer 1 :: afterFirstCount) := ⟨_, rfl⟩
  obtain ⟨hproducer, hconsumer, hfall, hrise⟩ := pointerfifo_count_reserves 3 _ _ _ _ h
  obtain ⟨hoffers, hnull⟩ := hproducer writeOf5 1 afterFirstCount rfl
  obtain ⟨_, hreads, holdest⟩ := hconsumer beforeLastCount 2 readsOf6And7 rfl
  have hfallen : 0 ≤ 1 := hfall writeOf5 1 readOf5 0 _ rfl rfl
  have hrisen : 0 ≤ 2 :=
    hrise (writeOf5 ++ .count .producer 1 :: (readOf5 ++ [.count .producer 0, .cons (.ret 5)])) 0
      writesOf6And7 2 readsOf6And7 rfl rfl
  exact ⟨c, h, rfl, hoffers, by decide, hnull, rfl, hreads, holdest, ⟨rfl, hfallen⟩, rfl,
    hrisen⟩

end MulleFifo
