/-
  MulleFifo.PastCounts — every count was the true one, once.

  However the accesses to `n` are ordered — relaxed ones included — what a
  thread loads from `n` is not just bounded by the true count: it IS the
  true count, of a moment in the past.  The moments of one thread never go
  back, and they never miss its own updates.  So the failures can be
  explained:

    • a write that returns -1 had a moment, since the last accepted write,
      at which the FIFO held `size` pointers,
    • a read that returns NULL had one, since the last successful read, at
      which it held none,
    • an observer that asks again and again sees the counts of moments that
      follow each other.
-/
import MulleFifo.StaleQueue

namespace MulleFifo

open Lib

/-! ## §1. Times and moments. -/

/-- The position of the trace right after the first `time` updates of `n`. -/
abbrev momentAt (tr : List Event) (time : Nat) : Nat := momentOf Event.update? tr time

/-- What was pushed at that moment, and what was popped. -/
theorem counts_at_moment {tr : List Event} {time : Nat} (h : time ≤ (updates tr).length) :
    (pushed (tr.take (momentAt tr time))).length = pushesAt tr time
      ∧ (popped (tr.take (momentAt tr time))).length = popsAt tr time := by
  have hupdates : updates (tr.take (momentAt tr time)) = (updates tr).take time :=
    filterMap_momentOf Event.update? h
  obtain ⟨hpush, hpop⟩ := count_updates (tr.take (momentAt tr time))
  rw [hupdates] at hpush hpop
  exact ⟨hpush.symm, hpop.symm⟩

/-- A moment that misses none of the pushes. -/
theorem pushed_at_moment {tr : List Event} {time : Nat} (h : time ≤ (updates tr).length)
    (hall : pushesAt tr time = (pushed tr).length) :
    pushed (tr.take (momentAt tr time)) = pushed tr := by
  have hle : pushed (tr.take (momentAt tr time)) <+: pushed tr :=
    (List.take_prefix _ tr).filterMap Event.pushed?
  apply hle.eq_of_length
  rw [(counts_at_moment h).1, hall]

/-- A moment that misses none of the pops. -/
theorem popped_at_moment {tr : List Event} {time : Nat} (h : time ≤ (updates tr).length)
    (hall : popsAt tr time = (popped tr).length) :
    popped (tr.take (momentAt tr time)) = popped tr := by
  have hle : popped (tr.take (momentAt tr time)) <+: popped tr :=
    (List.take_prefix _ tr).filterMap Event.popped?
  apply hle.eq_of_length
  rw [(counts_at_moment h).2, hall]

/-! ## §2. The times of the loads. -/

/-- The event `e` at position `i` got `n` from the message of `n` at `time`. -/
structure LoadedAt (tr : List Event) (c : Config RaMem) (i : Nat) (e : Event) (n time : Nat) :
    Prop where
  past : time ≤ (updates (tr.take i)).length
  count : pushesAt (tr.take i) time - popsAt (tr.take i) time = n
  own_pushes : e.thread = .producer → pushesAt (tr.take i) time = (pushed (tr.take i)).length
  own_pops : e.thread = .consumer → popsAt (tr.take i) time = (popped (tr.take i)).length
  /-- The thread knows the message from then on. -/
  known : time ≤ c.mem.view e.thread .n

/-- `time` gives the messages of all loads of `n`. -/
structure LoadTimes (tr : List Event) (c : Config RaMem) (time : Nat → Nat) : Prop where
  loaded : ∀ i e n, tr[i]? = some e → e.observed? = some n → LoadedAt tr c i e n (time i)
  coherent : ∀ i j e f m n, i ≤ j → tr[i]? = some e → e.observed? = some m → tr[j]? = some f →
    f.observed? = some n → e.thread = f.thread → time i ≤ time j

section Step

variable {o : Order} {size : Nat} {storage : Nat → Ptr} {tr : List Event} {c c' : Config RaMem}
  {e : Event} {time : Nat → Nat}

/-- What was loaded before stays so. -/
theorem LoadedAt.snoc {i n t : Nat} {f : Event} (hL : LoadedAt tr c i f n t) (hi : i < tr.length)
    (h : Transition (viewAtomics o .exact) .exact c e c') :
    LoadedAt (tr ++ [e]) c' i f n t := by
  have htake : (tr ++ [e]).take i = tr.take i := List.take_append_of_le_length (Nat.le_of_lt hi)
  obtain ⟨hpast, hcount, hpush, hpop, hknown⟩ := hL
  rw [← htake] at hpast hcount hpush hpop
  exact ⟨hpast, hcount, hpush, hpop, hknown.trans (h.view_le f.thread .n)⟩

/-- **A load of `n`**, when it happens. -/
theorem WeakInv.loadedAt (hI : WeakInv size storage tr c)
    (h : Transition (viewAtomics o .exact) .exact c e c') {n : Nat} (he : e.observed? = some n) :
    ∃ now, LoadedAt (tr ++ [e]) c' tr.length e n now ∧ c.mem.view e.thread .n ≤ now := by
  obtain ⟨now, msg, hknown, hmsg, hval, hnow, _⟩ := loaded_time h he
  have htake : (tr ++ [e]).take tr.length = tr := List.take_left
  have htimes := hI.history.times
  have hlt := (List.getElem?_eq_some_iff.mp hmsg).1
  refine ⟨now, ⟨?_, ?_, ?_, ?_, hnow⟩, hknown⟩
  · rw [htake]
    omega
  · rw [htake, ← hI.history.count_eq hmsg]
    exact hval
  · intro hproducer
    rw [hproducer] at hknown
    rw [htake]
    exact hI.pushes_known hknown
  · intro hconsumer
    rw [hconsumer] at hknown
    rw [htake]
    exact hI.pops_known hknown

theorem LoadTimes.init (c : Config RaMem) : LoadTimes [] c fun _ => 0 := by
  constructor <;> simp

/-- **The step lemma**: one more load, or none. -/
theorem LoadTimes.step (hL : LoadTimes tr c time) (hI : WeakInv size storage tr c)
    (h : Transition (viewAtomics o .exact) .exact c e c') :
    ∃ time', LoadTimes (tr ++ [e]) c' time' := by
  have hlen {i : Nat} {f : Event} (hf : tr[i]? = some f) : i < tr.length :=
    (List.getElem?_eq_some_iff.mp hf).1
  cases hobserved : e.observed? with
  | none =>
      refine ⟨time, ?_, ?_⟩
      · intro i f n hf hn
        rcases getElem?_snoc hf with hold | ⟨_, rfl⟩
        · exact (hL.loaded i f n hold hn).snoc (hlen hold) h
        · rw [hobserved] at hn
          exact absurd hn (by simp)
      · intro i j f g m n hij hf hm hg hn hthread
        rcases getElem?_snoc hf with hf' | ⟨_, rfl⟩
        · rcases getElem?_snoc hg with hg' | ⟨_, rfl⟩
          · exact hL.coherent i j f g m n hij hf' hm hg' hn hthread
          · rw [hobserved] at hn
            exact absurd hn (by simp)
        · rw [hobserved] at hm
          exact absurd hm (by simp)
  | some n₀ =>
      obtain ⟨now, hnow, hknown⟩ := hI.loadedAt h hobserved
      have hold {i : Nat} (hi : i < tr.length) : Function.update time tr.length now i = time i :=
        Function.update_of_ne (Nat.ne_of_lt hi) _ _
      have hnew : Function.update time tr.length now tr.length = now := Function.update_self _ _ _
      refine ⟨Function.update time tr.length now, ?_, ?_⟩
      · intro i f n hf hn
        rcases getElem?_snoc hf with hf' | ⟨rfl, rfl⟩
        · rw [hold (hlen hf')]
          exact (hL.loaded i f n hf' hn).snoc (hlen hf') h
        · rw [hnew]
          obtain rfl : n₀ = n := Option.some.inj (hobserved.symm.trans hn)
          exact hnow
      · intro i j f g m n hij hf hm hg hn hthread
        rcases getElem?_snoc hg with hg' | ⟨rfl, rfl⟩
        · -- both are old
          have hi : i < tr.length := Nat.lt_of_le_of_lt hij (hlen hg')
          rw [List.getElem?_append_left hi] at hf
          rw [hold hi, hold (hlen hg')]
          exact hL.coherent i j f g m n hij hf hm hg' hn hthread
        · rw [hnew]
          rcases getElem?_snoc hf with hf' | ⟨rfl, rfl⟩
          · rw [hold (hlen hf')]
            have hbefore := (hL.loaded i f m hf' hm).known
            rw [hthread] at hbefore
            exact hbefore.trans hknown
          · rw [hnew]

end Step

/-! ## §3. The theorem. -/

/-- **EVERY COUNT WAS TRUE AT A MOMENT IN THE PAST**, whatever the order of
the accesses to `n`.  Each load of `n` has a moment: not after it, with the
loaded value as the true count, missing no push if the producer loaded and
no pop if the consumer did; and the moments of one thread never go back. -/
theorem counts_are_moments (o : Order) (size : Nat) (storage : Nat → Ptr) (as : List (Action Nat))
    (c : Config RaMem) (tr : List Event) (h : raRun o size storage as = some (c, tr)) :
    ∃ moment : Nat → Nat,
      (∀ i e n, tr[i]? = some e → e.observed? = some n →
        moment i ≤ i ∧ trueCount (tr.take (moment i)) = n
          ∧ (e.thread = .producer → pushed (tr.take (moment i)) = pushed (tr.take i))
          ∧ (e.thread = .consumer → popped (tr.take (moment i)) = popped (tr.take i)))
      ∧ ∀ i j e f m n, i ≤ j → tr[i]? = some e → e.observed? = some m → tr[j]? = some f →
          f.observed? = some n → e.thread = f.thread → moment i ≤ moment j := by
  have hloads := run_invariant (P := fun tr c => WeakInv size storage tr c
      ∧ ∃ time, LoadTimes tr c time)
    ⟨WeakInv.init size storage, _, LoadTimes.init _⟩ (fun tr c a c' e hP hs => by
      obtain ⟨hI, time, hL⟩ := hP
      exact ⟨hI.step_keeps (step_transition hs), hL.step hI (step_transition hs)⟩) h
  obtain ⟨_, time, hL⟩ := hloads
  refine ⟨fun i => momentAt tr (time i), ?_, ?_⟩
  · intro i e n he hn
    have hload := hL.loaded i e n he hn
    -- the moment is one of the trace up to the load
    have hmoment : momentAt tr (time i) = momentAt (tr.take i) (time i) := by
      conv_lhs => rw [← List.take_append_drop i tr]
      exact momentOf_append Event.update? _ hload.past
    have hle : momentAt tr (time i) ≤ i := by
      rw [hmoment]
      exact (momentOf_le _ _ _).trans (List.length_take_le i tr)
    have htake : tr.take (momentAt tr (time i))
        = (tr.take i).take (momentAt (tr.take i) (time i)) := by
      rw [hmoment, List.take_take, Nat.min_eq_left (hmoment ▸ hle)]
    obtain ⟨hpush, hpop⟩ := counts_at_moment hload.past
    refine ⟨hle, ?_, ?_, ?_⟩
    · unfold trueCount
      rw [htake, hpush, hpop]
      exact hload.count
    · intro hproducer
      rw [htake]
      exact pushed_at_moment hload.past (hload.own_pushes hproducer)
    · intro hconsumer
      rw [htake]
      exact popped_at_moment hload.past (hload.own_pops hconsumer)
  · intro i j e f m n hij he hm hf hn hthread
    exact momentOf_mono Event.update? tr (hL.coherent i j e f m n hij he hm hf hn hthread)

/-- In `lagging`, relaxed through and through, the last write is refused with
one pointer in the FIFO; there was a moment, after the same pushes, with two. -/
theorem lagging_moment :
    ∃ c tr, raRun ⟨false, false, false⟩ 2 (fun _ => 77) lagging = some (c, tr)
      ∧ tr[22]? = some (.prod (.full 2)) ∧ trueCount (tr.take 22) = 1
      ∧ ∃ k ≤ 22, trueCount (tr.take k) = 2 ∧ pushed (tr.take k) = pushed (tr.take 22) := by
  have hsees : (raRun ⟨false, false, false⟩ 2 (fun _ => 77) lagging).map
      (fun r => (r.2[22]?, trueCount (r.2.take 22))) = some (some (.prod (.full 2)), 1) := by
    decide +kernel
  obtain ⟨⟨c, tr⟩, hrun, hat⟩ := Option.map_eq_some_iff.mp hsees
  obtain ⟨hfull, htrue⟩ := Prod.mk.inj hat
  obtain ⟨moment, hmoment, _⟩ := counts_are_moments _ _ _ _ _ _ hrun
  obtain ⟨hle, hcount, hpush, _⟩ := hmoment 22 (.prod (.full 2)) 2 hfull rfl
  exact ⟨c, tr, hrun, hfull, htrue, moment 22, hle, hcount, hpush rfl⟩

end MulleFifo
