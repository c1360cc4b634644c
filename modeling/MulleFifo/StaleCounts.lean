/-
  MulleFifo.StaleCounts — safety when counts and slots may be stale.

  Over the memory of `Model.ReleaseAcquire` both threads act on old counts,
  and a slot has several values to offer.  The counts are safe in any order
  (`Model.WeakCounts`); the slots need release/acquire on `n`.  Two facts
  carry the proof:

    • an increment passes on the store of its item, and a count carries
      what all increments it counts passed on: who acquires a count of
      `P` pushed items knows the stores of all of them,
    • the store of item `k` is message `k / size + 1` of slot `k % size`.
      The consumer's load of item `k` cannot get an older message, which
      it knows to be outdated, and there is no newer one, since the
      producer is never more than `size` items ahead.
-/
import MulleFifo.Model.WeakCounts

namespace MulleFifo

open Lib

/-! ## §1. Knowing stores. -/

/-- The view knows the stores of the items below `count`. -/
def Knows (size : Nat) (view : View Loc) (count : Nat) : Prop :=
  ∀ k < count, k / size + 1 ≤ view (.slot (k % size))

theorem Knows.mono {size count count' : Nat} {view view' : View Loc}
    (h : Knows size view count) (hview : view ≤ view') (hcount : count' ≤ count) :
    Knows size view' count' := by
  intro k hk
  exact (h k (by omega)).trans (hview _)

/-- Knowing one store more. -/
theorem Knows.succ {size count : Nat} {view : View Loc} (h : Knows size view count)
    (hlast : count / size + 1 ≤ view (.slot (count % size))) : Knows size view (count + 1) := by
  intro k hk
  by_cases hk' : k < count
  · exact h k hk'
  · obtain rfl : k = count := by omega
    exact hlast

/-! ## §2. The invariant. -/

/-- The FIFO over weak memory after the trace `tr`, at any point of any two
calls: what holds in any order, and what release/acquire adds. -/
structure RaInv (size : Nat) (storage : Nat → Ptr) (tr : List Event) (c : Config RaMem) :
    Prop extends WeakInv size storage tr c where
  /-- A count carries the stores of the items it counts. -/
  carries : ∀ time msg, (c.mem.hist .n)[time]? = some msg → Knows size msg.view (pushesAt tr time)
  /-- The producer knows its own stores. -/
  own_stores : Knows size (c.mem.view .producer) (stored tr).length
  /-- Past its empty check the consumer knows the store it will load. -/
  next_store : c.cons.pc = .load → Knows size (c.mem.view .consumer) ((popped tr).length + 1)
  taken_le : popped tr ++ c.cons.pc.taken <+: pushed tr

namespace RaInv

variable {size : Nat} {storage : Nat → Ptr} {tr : List Event} {c c' : Config RaMem} {e : Event}
  {b : Bool}

theorem init (size : Nat) (storage : Nat → Ptr) :
    RaInv size storage [] (pointerfifoInitRa size storage) := by
  refine ⟨WeakInv.init size storage, ?_, ?_, ?_, List.nil_prefix⟩
  · intro time msg _ k hk
    simp [pushesAt, updates] at hk
  · intro k hk
    exact absurd hk (Nat.not_lt_zero k)
  · intro hload
    exact ReadPc.noConfusion hload

/-! ## §3. What the consumer loads. -/

/-- **What the consumer loads** is the oldest pushed pointer that was not
popped, whichever message it gets. -/
theorem load_value (hI : RaInv size storage tr c) (hpc : c.cons.pc = .load) {time : Nat}
    {msg : Message Loc Ptr} (ht : c.mem.view .consumer (.slot c.cons.read) ≤ time)
    (hmsg : (c.mem.hist (.slot c.cons.read))[time]? = some msg) :
    (pushed tr)[(popped tr).length]? = some msg.value := by
  have hlt : (popped tr).length < (pushed tr).length := hI.avail (by simp [hpc])
  have hread : c.cons.read = (popped tr).length % size := by
    simpa [hpc] using hI.consumer.read_eq
  have hstored := hI.producer.stored_eq
  have hlen : (popped tr).length < (stored tr).length := by
    rw [hstored, List.length_append]
    omega
  rw [hread] at ht hmsg
  -- the item's own message is known, so the one that was loaded is not older
  have hknown := hI.next_store hpc (popped tr).length (Nat.lt_succ_self _)
  have hitem := Ring.history_window storage hlen hI.stored_length_le (hknown.trans ht)
    (hI.history.slot_message hmsg)
  rw [hstored, List.getElem?_append_left hlt] at hitem
  exact hitem

/-! ## §4. The step lemma. -/

/-- The newest count carries the stores of everything pushed. -/
theorem newest_carries (hI : RaInv size storage tr c) {last : Message Loc Int}
    (hlast : (c.mem.hist .n)[(updates tr).length]? = some last) :
    Knows size last.view (pushed tr).length := by
  have hcar := hI.carries _ last hlast
  rw [pushesAt_newest tr (Nat.le_refl _)] at hcar
  exact hcar

/-- One more count, that carries the stores of everything pushed. -/
theorem carries_update (hI : RaInv size storage tr c) {u : Bool} {x : Int} {v : View Loc}
    (hhist : c'.mem.hist = Function.update c.mem.hist .n (c.mem.hist .n ++ [⟨x, v⟩]))
    (hup : updates (tr ++ [e]) = updates tr ++ [u])
    (hv : Knows size v (pushed (tr ++ [e])).length) {time : Nat} {msg : Message Loc Int}
    (hmsg : (c'.mem.hist .n)[time]? = some msg) :
    Knows size msg.view (pushesAt (tr ++ [e]) time) := by
  have htimes := hI.history.times
  rw [hhist, Function.update_self] at hmsg
  rcases getElem?_snoc hmsg with hold | ⟨rfl, rfl⟩
  · have hlt := (List.getElem?_eq_some_iff.mp hold).1
    rw [pushesAt_snoc tr e (by omega)]
    exact hI.carries time msg hold
  · rw [pushesAt_newest _ (by rw [hup, htimes]; simp)]
    exact hv

/-- **An update carries on** what the increments passed on, and an
increment passes on the store of its item. -/
theorem carries_step (hI : RaInv size storage tr c)
    (h : Transition (viewAtomics (releaseAcquire b) .exact) .exact c e c') {time : Nat}
    {msg : Message Loc Int} (hmsg : (c'.mem.hist .n)[time]? = some msg) :
    Knows size msg.view (pushesAt (tr ++ [e]) time) := by
  obtain ⟨last, hlast, hget, _⟩ := hI.history.newest
  have hcar := hI.newest_carries hget
  by_cases hup : e.update? = none
  · have hsame : updates (tr ++ [e]) = updates tr := by
      rw [updates_snoc, hup, Option.toList_none, List.append_nil]
    rw [h.hist_n_eq hup] at hmsg
    rw [pushesAt_congr hsame]
    exact hI.carries time msg hmsg
  · cases h with
    | @increment pointer ch hpc =>
        obtain ⟨v, hhist, _, hrel, _⟩ :=
          ViewMemory.modify_spec b true Thread.producer Words.exact.increment hlast
        refine hI.carries_update (u := true) hhist (by simp) ?_ hmsg
        -- the producer knows the store it announces
        have hstored : (stored tr).length = (pushed tr).length + 1 := by
          simp [hI.producer.stored_eq, hpc]
        have hown := hI.own_stores.mono (hrel rfl) (Nat.le_refl _)
        rw [hstored] at hown
        simpa using hown
    | decrement ch hpc =>
        obtain ⟨v, hhist, hcarry, _⟩ :=
          ViewMemory.modify_spec b true Thread.consumer Words.exact.decrement hlast
        refine hI.carries_update (u := false) hhist (by simp) ?_ hmsg
        -- the release sequence goes on
        simpa using hcar.mono hcarry (Nat.le_refl _)
    | _ => exact absurd rfl hup

/-- The producer goes on knowing its stores. -/
theorem own_stores_step (hI : RaInv size storage tr c)
    (h : Transition (viewAtomics (releaseAcquire b) .exact) .exact c e c') :
    Knows size (c'.mem.view .producer) (stored (tr ++ [e])).length := by
  have hgrow := hI.own_stores.mono (h.view_le .producer) (Nat.le_refl _)
  cases h with
  | @store pointer _ _ hpc hwrite =>
      obtain rfl := Option.some.inj hwrite
      obtain ⟨_, _, _, hself⟩ :=
        c.mem.store_spec false Thread.producer (.slot c.prod.write) pointer
      -- the message it appended is the one of the next item
      have hslot := hI.store_slot hpc
      have hlen : (c.mem.hist (.slot c.prod.write)).length = (stored tr).length / size + 1 := by
        rw [hslot]
        exact hI.history.slot_length
      have hlast : (stored tr).length / size + 1
          ≤ (c.mem.store false .producer (.slot c.prod.write) pointer).view .producer
              (.slot ((stored tr).length % size)) := by
        rw [← hlen, ← hslot]
        exact hself
      simpa using hgrow.succ hlast
  | _ => simpa using hgrow

/-- Past its empty check the consumer knows the store it will load. -/
theorem next_store_step (hI : RaInv size storage tr c)
    (h : Transition (viewAtomics (releaseAcquire b) .exact) .exact c e c')
    (hload : c'.cons.pc = .load) :
    Knows size (c'.mem.view .consumer) ((popped (tr ++ [e])).length + 1) := by
  have hview := h.view_le .consumer
  cases h with
  | @avail time _ _ hpc hread hz =>
      -- the pushes the count counts are now known, and are more than the pops
      obtain ⟨msg, hmsg, rfl, ht, _, _, _, hacq⟩ := ViewMemory.load_some hread
      obtain ⟨hseen, _⟩ := hI.consumer_count ht hmsg rfl
      have hcar := hI.carries _ msg hmsg
      have hmore : (popped tr).length + 1 ≤ pushesAt tr time := by
        rw [← hseen]
        omega
      simpa using hcar.mono (hacq rfl) hmore
  | callRead | empty | load | indexRead | decrement | retRead => simp at hload
  | _ => simpa using (hI.next_store hload).mono hview (Nat.le_refl _)

/-- What is popped, or in the consumer's hand, was pushed in this order. -/
theorem taken_step (hI : RaInv size storage tr c)
    (h : Transition (viewAtomics (releaseAcquire b) .exact) .exact c e c') :
    popped (tr ++ [e]) ++ c'.cons.pc.taken <+: pushed (tr ++ [e]) := by
  refine taken_kept h hI.taken_le ?_
  intro slot pointer he
  cases h with
  | load hpc hread =>
      obtain ⟨rfl, rfl⟩ := ReadEvent.load.inj (Event.cons.inj he)
      obtain ⟨msg, hmsg, rfl, ht, _⟩ := ViewMemory.load_some hread
      exact hI.load_value hpc ht hmsg
  | _ => simp at he

/-- **The step lemma.** -/
theorem step_keeps (hI : RaInv size storage tr c)
    (h : Transition (viewAtomics (releaseAcquire b) .exact) .exact c e c') :
    RaInv size storage (tr ++ [e]) c' := by
  exact ⟨hI.toWeakInv.step_keeps h, fun _ _ hmsg => hI.carries_step h hmsg, hI.own_stores_step h,
    hI.next_store_step h, hI.taken_step h⟩

end RaInv

/-! ## §5. The theorem. -/

section Runs

variable {updateAcquires : Bool} {size : Nat} {storage : Nat → Ptr} {as : List (Action Nat)}
  {c : Config RaMem} {tr pre post : List Event}

/-- **Every run over release/acquire satisfies the invariant.** -/
theorem raRun_inv (h : raRun (releaseAcquire updateAcquires) size storage as = some (c, tr)) :
    RaInv size storage tr c :=
  run_invariant (RaInv.init size storage)
    (fun _ _ _ _ _ hI hs => hI.step_keeps (step_transition hs)) h

/-- What `n` really is after the trace `tr`. -/
def trueCount (tr : List Event) : Nat := (pushed tr).length - (popped tr).length

/-- **The read that passed its empty check returns that item.** -/
theorem granted_returns {n : Nat} {result : Ptr}
    (h : raRun (releaseAcquire updateAcquires) size storage as
      = some (c, pre ++ .cons (.avail n) :: post))
    (hresult : (reads post)[0]? = some result) :
    (pushed pre)[(granted pre).length]? = some result := by
  have hpushed := granted_pushed h
  have hI := raRun_inv h
  -- it returns the pointer it loaded, and that one was pushed at its place
  have hloaded := returned_is_loaded rfl h hresult
  rw [hI.consumer.loaded_eq] at hloaded
  have hlater := getElem?_of_prefix hI.taken_le hloaded
  rw [pushed_append, List.getElem?_append_left hpushed] at hlater
  exact hlater

end Runs

/-- **SAFETY UNDER STALE COUNTS.**  Over release/acquire on `n` and nothing
but coherence on the slots, in every run: a read that passes its empty check
as the `k`-th one finds the `k`-th write that passed its full check already
incremented, and returns its pointer; every value of `n` lies between 0 and
`size`, the newest one is the true count; the producer acts on a count that
is not below the true one, the consumer on one that is not above it. -/
theorem pointerfifo_stale_counts (updateAcquires : Bool) (size : Nat) (storage : Nat → Ptr)
    (as : List (Action Nat)) (c : Config RaMem) (tr : List Event)
    (h : raRun (releaseAcquire updateAcquires) size storage as = some (c, tr)) :
    (∀ pre n post, tr = pre ++ .cons (.avail n) :: post →
        ∃ pointer, (admitted pre)[(granted pre).length]? = some pointer
          ∧ (pushed pre)[(granted pre).length]? = some pointer
          ∧ ∀ result, (reads post)[0]? = some result → result = pointer)
      ∧ (∀ msg : Message Loc Int, msg ∈ c.mem.hist .n → 0 ≤ msg.value ∧ msg.value ≤ size)
      ∧ (∃ last : Message Loc Int, (c.mem.hist .n).getLast? = some last
          ∧ last.value = trueCount tr)
      ∧ (∀ pre e post n, tr = pre ++ e :: post → e.observed? = some n →
          (e.thread = .producer → trueCount pre ≤ n ∧ n ≤ size)
            ∧ (e.thread = .consumer → n ≤ trueCount pre)) := by
  have hI := raRun_inv h
  have hbd := hI.history.bounded
  refine ⟨?_, ?_, ?_, ?_⟩
  · intro pre n post htr
    subst htr
    have hpushed := granted_pushed h
    obtain ⟨c₁, c₂, hI₁, _⟩ := weakRun_event h
    have hget : (pushed pre)[(granted pre).length]? = some (pushed pre)[(granted pre).length] :=
      List.getElem?_eq_getElem hpushed
    refine ⟨(pushed pre)[(granted pre).length], ?_, hget, ?_⟩
    · rw [hI₁.producer.admitted_eq, List.getElem?_append_left hpushed]
      exact hget
    · intro result hresult
      have hret := granted_returns h hresult
      rw [hget] at hret
      exact (Option.some.inj hret).symm
  · intro msg hmsg
    exact hI.history.in_range hmsg
  · obtain ⟨last, hlast, _, hval⟩ := hI.history.newest
    refine ⟨last, hlast, ?_⟩
    unfold trueCount
    omega
  · intro pre e post n htr hn
    subst htr
    obtain ⟨c₁, c₂, hI₁, ht⟩ := weakRun_event h
    obtain ⟨time, msg, hknown, hmsg, hval⟩ := observed_time ht hn
    unfold trueCount
    refine ⟨?_, ?_⟩
    · intro hthread
      rw [hthread] at hknown
      have hcount := hI₁.producer_count hknown hmsg hval
      omega
    · intro hthread
      rw [hthread] at hknown
      have hcount := hI₁.consumer_count hknown hmsg hval
      omega

/-- A schedule with stale counts on both sides: a first read misses 5, a
second one finds it on an old count; then the producer finds the FIFO full
on an old count, although 5 is gone. -/
def lagging : List (Action Nat) :=
  [.callWrite 5, .prod 0, .prod 0, .prod 0, .prod 0, .prod 0,
    .callRead, .cons 0, .cons 0,
    .callWrite 6, .prod 1, .prod 0, .prod 0, .prod 0, .prod 0,
    .callRead, .cons 1, .cons 1, .cons 0, .cons 0, .cons 0,
    .callWrite 7, .prod 2, .prod 0]

/-- What `lagging` shows before the empty check of the second read. -/
def beforeGrant : List Event :=
  [.prod (.call 5), .prod (.room 5 0), .prod (.store 0 5), .prod .index, .prod (.increment 5),
    .prod (.ret 5 0), .cons .call, .cons .empty, .cons (.ret NULL),
    .prod (.call 6), .prod (.room 6 1), .prod (.store 1 6), .prod .index, .prod (.increment 6),
    .prod (.ret 6 0), .cons .call]

/-- What it shows from there to the full check of the third write. -/
def grantToFull : List Event :=
  [.cons (.avail 1), .cons (.load 0 5), .cons .index, .cons (.decrement 5), .cons (.ret 5),
    .prod (.call 7)]

/-- In `lagging` the read that passes counts 1 where the true count is 2,
and returns its own item; the full write counts 2 where the true count is 1. -/
theorem lagging_stale_counts :
    ∃ c, raRun (releaseAcquire false) 2 (fun _ => 77) lagging
        = some (c, beforeGrant ++ (grantToFull ++ [.prod (.full 2), .prod (.ret 7 (-1))]))
      ∧ (admitted beforeGrant)[0]? = some 5 ∧ (pushed beforeGrant)[0]? = some 5
      ∧ (∀ result, (reads grantToFull)[0]? = some result → result = 5)
      ∧ (∀ msg : Message Loc Int, msg ∈ c.mem.hist .n → 0 ≤ msg.value ∧ msg.value ≤ (2 : Nat))
      ∧ (∃ last : Message Loc Int, (c.mem.hist .n).getLast? = some last ∧ last.value = 1)
      ∧ trueCount beforeGrant = 2 ∧ 1 ≤ trueCount beforeGrant
      ∧ trueCount (beforeGrant ++ grantToFull) = 1
      ∧ trueCount (beforeGrant ++ grantToFull) ≤ 2 := by
  obtain ⟨c, h⟩ : ∃ c, raRun (releaseAcquire false) 2 (fun _ => 77) lagging
      = some (c, beforeGrant ++ (grantToFull ++ [.prod (.full 2), .prod (.ret 7 (-1))])) :=
    ⟨_, rfl⟩
  obtain ⟨hown, hrange, hnewest, hsided⟩ :=
    pointerfifo_stale_counts false 2 (fun _ => 77) lagging c _ h
  obtain ⟨pointer, hadmitted, hpushed, hresult⟩ := hown beforeGrant 1 _ rfl
  obtain rfl : 5 = pointer := Option.some.inj hpushed
  have hread := (hsided beforeGrant (.cons (.avail 1)) _ 1 rfl rfl).2 rfl
  have hwrite := (hsided (beforeGrant ++ grantToFull) (.prod (.full 2)) _ 2 rfl rfl).1 rfl
  exact ⟨c, h, hadmitted, hpushed, hresult, hrange, hnewest, rfl, hread, rfl, hwrite.1⟩

end MulleFifo
