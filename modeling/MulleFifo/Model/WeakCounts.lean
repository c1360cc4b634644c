/-
  MulleFifo.Model.WeakCounts — the counter over weak memory, in any order.

  How the accesses to `n` are ordered decides what a thread learns about
  the SLOTS when it sees a count.  What it learns about the counts
  themselves needs no order at all, only that the accesses to `n` are
  coherent and that an update acts on the newest value:

    • `CountHistory` — the value of `n` at a time is what it counts, and
      between 0 and `size`; a slot keeps every item that was stored there,
    • staleness is one-sided.  A thread knows its own updates of `n`, so
      the value it loads lacks only updates of the other side: the producer
      counts at least (`producer_count`) and the consumer at most
      (`consumer_count`) what is there,
    • so both checks are safe, stale as the counts are (`room`, `avail`).
-/
import MulleFifo.Model.ReleaseAcquire

namespace MulleFifo

open Lib

/-! ## §1. The invariant. -/

/-- The histories after the trace `tr`. -/
structure CountHistory (size : Nat) (storage : Nat → Ptr) (tr : List Event) (m : RaMem) :
    Prop where
  /-- One message of `n` for each update, and the initial one. -/
  times : (m.hist .n).length = (updates tr).length + 1
  /-- The value of `n` at a time is what it counts, and stays in range. -/
  value : ∀ time msg, (m.hist .n)[time]? = some msg →
    (msg.value : Int) = pushesAt tr time - popsAt tr time
  within : ∀ time, popsAt tr time ≤ pushesAt tr time ∧ pushesAt tr time ≤ popsAt tr time + size
  /-- A slot keeps every item that was stored there. -/
  slots : ∀ i, (m.hist (.slot i)).map (·.value) = Ring.history size storage (stored tr) i

/-- The FIFO over weak memory after the trace `tr`, whatever the order. -/
structure WeakInv (size : Nat) (storage : Nat → Ptr) (tr : List Event) (c : Config RaMem) :
    Prop where
  size_eq : c.size = size
  producer : ProducerInv size tr c.prod
  consumer : ConsumerInv size tr c.cons
  history : CountHistory size storage tr c.mem
  /-- Each thread knows its own updates. -/
  own_pushes : (pushed tr).length ≤ pushesAt tr (c.mem.view .producer .n)
  own_pops : (popped tr).length ≤ popsAt tr (c.mem.view .consumer .n)
  /-- The checks stay true, stale as the counts were. -/
  room : c.prod.pc.inFlight ≠ [] → (pushed tr).length < (popped tr).length + size
  avail : 0 < c.cons.pc.inFlight → (popped tr).length < (pushed tr).length

/-! ## §2. What a step does to the memory. -/

section Memory

variable {o : Order} {c c' : Config RaMem} {e : Event}

/-- Nobody forgets what it knew. -/
theorem Transition.view_le (h : Transition (viewAtomics o .exact) .exact c e c') (t : Thread) :
    c.mem.view t ≤ c'.mem.view t := by
  cases h with
  | full hpc hread | room hpc hread | empty hpc hread | avail hpc hread | load hpc hread
  | count hpc hread =>
      obtain ⟨_, _, _, _, _, hview, _⟩ := ViewMemory.load_some hread
      exact hview t
  | store hpc hwrite =>
      obtain rfl := Option.some.inj hwrite
      obtain ⟨_, _, hview, _⟩ := c.mem.store_spec false Thread.producer (.slot c.prod.write) _
      exact hview t
  | increment ch hpc => exact ViewMemory.view_le_modify _ _ _ _ _ _ t
  | decrement ch hpc => exact ViewMemory.view_le_modify _ _ _ _ _ _ t
  | _ => exact le_refl _

/-- Only stores and updates append messages. -/
theorem Transition.hist_eq (h : Transition (viewAtomics o .exact) .exact c e c')
    (hup : e.update? = none) (hst : e.stored? = none) : c'.mem.hist = c.mem.hist := by
  cases h with
  | full hpc hread | room hpc hread | empty hpc hread | avail hpc hread | load hpc hread
  | count hpc hread =>
      obtain ⟨_, _, _, _, hhist, _⟩ := ViewMemory.load_some hread
      exact hhist
  | store => simp at hst
  | increment => simp at hup
  | decrement => simp at hup
  | _ => rfl

/-- Only updates append to the history of `n`. -/
theorem Transition.hist_n_eq (h : Transition (viewAtomics o .exact) .exact c e c')
    (hup : e.update? = none) : c'.mem.hist .n = c.mem.hist .n := by
  by_cases hst : e.stored? = none
  · rw [h.hist_eq hup hst]
  · cases h with
    | @store pointer _ _ hpc hwrite =>
        obtain rfl := Option.some.inj hwrite
        obtain ⟨_, hhist, _⟩ :=
          c.mem.store_spec false Thread.producer (.slot c.prod.write) pointer
        show (c.mem.store false Thread.producer (.slot c.prod.write) pointer).hist .n = _
        rw [hhist, Function.update_of_ne (by simp)]
    | _ => exact absurd rfl hst

end Memory

/-! ## §3. The histories. -/

namespace CountHistory

variable {size : Nat} {storage : Nat → Ptr} {tr : List Event} {m m' : RaMem} {e : Event}

theorem init (size : Nat) (storage : Nat → Ptr) :
    CountHistory size storage [] (pointerfifoInitRa size storage).mem where
  times := rfl
  value time msg h := by
    have hmsg : msg = initialMessage storage .n := by
      obtain ⟨hlt, rfl⟩ := List.getElem?_eq_some_iff.mp h
      simp [pointerfifoInitRa]
    rw [hmsg]
    simp [initialMessage, pushesAt, popsAt, updates]
  within time := by simp [pushesAt, popsAt, updates]
  slots i := rfl

/-- What a thread that loads the message at `time` sees. -/
theorem count_eq (hH : CountHistory size storage tr m) {time : Nat} {msg : Message Loc Int}
    (hmsg : (m.hist .n)[time]? = some msg) :
    Words.exact.toUnsigned msg.value = pushesAt tr time - popsAt tr time := by
  have hval : msg.value = pushesAt tr time - popsAt tr time := hH.value time msg hmsg
  show msg.value.toNat = _
  rw [hval]
  omega

/-- The newest value is the true count, at most `size`. -/
theorem bounded (hH : CountHistory size storage tr m) :
    (popped tr).length ≤ (pushed tr).length
      ∧ (pushed tr).length ≤ (popped tr).length + size := by
  have hw := hH.within (updates tr).length
  rw [pushesAt_newest tr (Nat.le_refl _), popsAt_newest tr (Nat.le_refl _)] at hw
  exact hw

/-- The newest message of `n` is at the time of the last update. -/
theorem newest (hH : CountHistory size storage tr m) :
    ∃ last : Message Loc Int, (m.hist .n).getLast? = some last
      ∧ (m.hist .n)[(updates tr).length]? = some last
      ∧ last.value = (pushed tr).length - (popped tr).length := by
  have htimes := hH.times
  have hlt : (updates tr).length < (m.hist .n).length := by omega
  have hget : (m.hist .n)[(updates tr).length]? = some (m.hist .n)[(updates tr).length] :=
    List.getElem?_eq_getElem hlt
  have hval := hH.value _ _ hget
  rw [pushesAt_newest tr (Nat.le_refl _), popsAt_newest tr (Nat.le_refl _)] at hval
  refine ⟨_, ?_, hget, hval⟩
  rw [List.getLast?_eq_getElem?, htimes, Nat.add_sub_cancel]
  exact hget

/-- Every value `n` ever had is a number of pointers that fit. -/
theorem in_range (hH : CountHistory size storage tr m) {msg : Message Loc Int}
    (hmsg : msg ∈ m.hist .n) : 0 ≤ msg.value ∧ msg.value ≤ size := by
  obtain ⟨time, htime⟩ := List.mem_iff_getElem?.mp hmsg
  have hval : msg.value = pushesAt tr time - popsAt tr time := hH.value time msg htime
  have hw := hH.within time
  omega

/-- A step that leaves the history of `n` alone. -/
theorem keep_counter (hH : CountHistory size storage tr m) (hn : m'.hist .n = m.hist .n)
    (hup : updates (tr ++ [e]) = updates tr)
    (hslots : ∀ i, (m'.hist (.slot i)).map (·.value)
      = Ring.history size storage (stored (tr ++ [e])) i) :
    CountHistory size storage (tr ++ [e]) m' where
  times := by
    rw [hn, hup]
    exact hH.times
  value := by
    rw [hn, pushesAt_congr hup, popsAt_congr hup]
    exact hH.value
  within := by
    rw [pushesAt_congr hup, popsAt_congr hup]
    exact hH.within
  slots := hslots

/-- A step that appends no message. -/
theorem quiet (hH : CountHistory size storage tr m) (hhist : m'.hist = m.hist)
    (hup : updates (tr ++ [e]) = updates tr) (hst : stored (tr ++ [e]) = stored tr) :
    CountHistory size storage (tr ++ [e]) m' := by
  refine hH.keep_counter (by rw [hhist]) hup ?_
  rw [hhist, hst]
  exact hH.slots

/-- **A store** appends its item to the slot. -/
theorem store (hH : CountHistory size storage tr m) {pointer : Ptr} {v : View Loc}
    (hhist : m'.hist = Function.update m.hist (.slot ((stored tr).length % size))
      (m.hist (.slot ((stored tr).length % size)) ++ [⟨pointer, v⟩]))
    (hup : updates (tr ++ [e]) = updates tr) (hst : stored (tr ++ [e]) = stored tr ++ [pointer]) :
    CountHistory size storage (tr ++ [e]) m' := by
  have hn : m'.hist .n = m.hist .n := by
    rw [hhist, Function.update_of_ne (by simp)]
  refine hH.keep_counter hn hup ?_
  intro i
  rw [hst, Ring.history_snoc, ← hH.slots i]
  by_cases hi : (stored tr).length % size = i
  · subst hi
    rw [if_pos rfl, hhist, Function.update_self, List.map_append]
    rfl
  · rw [if_neg hi, List.append_nil, hhist, Function.update_of_ne (by simpa using Ne.symm hi)]

/-- **An update of `n`** appends the new count. -/
theorem update (hH : CountHistory size storage tr m) {b : Bool} {x : Int} {v : View Loc}
    (hhist : m'.hist = Function.update m.hist .n (m.hist .n ++ [⟨x, v⟩]))
    (hup : updates (tr ++ [e]) = updates tr ++ [b]) (hst : stored (tr ++ [e]) = stored tr)
    (hx : x = (pushed (tr ++ [e])).length - (popped (tr ++ [e])).length)
    (hle : (popped (tr ++ [e])).length ≤ (pushed (tr ++ [e])).length)
    (hroom : (pushed (tr ++ [e])).length ≤ (popped (tr ++ [e])).length + size) :
    CountHistory size storage (tr ++ [e]) m' := by
  have htimes := hH.times
  have hn : m'.hist .n = m.hist .n ++ [⟨x, v⟩] := by
    rw [hhist, Function.update_self]
  have hslot (i : Nat) : m'.hist (.slot i) = m.hist (.slot i) := by
    rw [hhist, Function.update_of_ne (by simp)]
  have hlen : (updates (tr ++ [e])).length = (updates tr).length + 1 := by
    rw [hup, List.length_append, List.length_singleton]
  refine ⟨?_, ?_, ?_, ?_⟩
  · rw [hn, List.length_append, List.length_singleton, hlen, htimes]
  · intro time msg hmsg
    rw [hn] at hmsg
    rcases getElem?_snoc hmsg with hold | ⟨rfl, rfl⟩
    · have hlt := (List.getElem?_eq_some_iff.mp hold).1
      rw [pushesAt_snoc tr e (by omega), popsAt_snoc tr e (by omega)]
      exact hH.value time msg hold
    · rw [pushesAt_newest _ (by omega), popsAt_newest _ (by omega)]
      exact hx
  · intro time
    by_cases hold : time ≤ (updates tr).length
    · rw [pushesAt_snoc tr e hold, popsAt_snoc tr e hold]
      exact hH.within time
    · rw [pushesAt_newest (tr ++ [e]) (by omega), popsAt_newest (tr ++ [e]) (by omega)]
      exact ⟨hle, hroom⟩
  · intro i
    rw [hslot, hst]
    exact hH.slots i

/-- One message for each lap stands in the slot that is stored next. -/
theorem slot_length (hH : CountHistory size storage tr m) :
    (m.hist (.slot ((stored tr).length % size))).length = (stored tr).length / size + 1 := by
  rw [← Ring.history_length size storage, ← hH.slots, List.length_map]

/-- A message of a slot is an item of its history. -/
theorem slot_message (hH : CountHistory size storage tr m) {i time : Nat} {msg : Message Loc Ptr}
    (hmsg : (m.hist (.slot i))[time]? = some msg) :
    (Ring.history size storage (stored tr) i)[time]? = some msg.value := by
  rw [← hH.slots, List.getElem?_map, hmsg]
  rfl

end CountHistory

/-! ## §4. What each side counts. -/

namespace WeakInv

variable {size : Nat} {storage : Nat → Ptr} {tr : List Event} {c c' : Config RaMem} {e : Event}
  {o : Order}

theorem init (size : Nat) (storage : Nat → Ptr) :
    WeakInv size storage [] (pointerfifoInitRa size storage) where
  size_eq := rfl
  producer := ProducerInv.init size
  consumer := ConsumerInv.init size
  history := CountHistory.init size storage
  own_pushes := Nat.zero_le _
  own_pops := Nat.zero_le _
  room h := absurd rfl h
  avail h := absurd h (by simp [pointerfifoInitRa])

/-- Nothing is stored beyond the pushed pointers and the one in flight. -/
theorem stored_length_le (hI : WeakInv size storage tr c) :
    (stored tr).length ≤ (popped tr).length + size :=
  hI.producer.stored_length_le hI.history.bounded.2 hI.room

/-- The producer misses no increment. -/
theorem pushes_known (hI : WeakInv size storage tr c) {time : Nat}
    (ht : c.mem.view .producer .n ≤ time) : pushesAt tr time = (pushed tr).length :=
  Nat.le_antisymm (pushesAt_le tr time) (hI.own_pushes.trans (pushesAt_mono tr ht))

/-- The consumer misses no decrement. -/
theorem pops_known (hI : WeakInv size storage tr c) {time : Nat}
    (ht : c.mem.view .consumer .n ≤ time) : popsAt tr time = (popped tr).length :=
  Nat.le_antisymm (popsAt_le tr time) (hI.own_pops.trans (popsAt_mono tr ht))

/-- **The producer can only count too much**, and never more than `size`. -/
theorem producer_count (hI : WeakInv size storage tr c) {time n : Nat} {msg : Message Loc Int}
    (ht : c.mem.view .producer .n ≤ time) (hmsg : (c.mem.hist .n)[time]? = some msg)
    (hn : Words.exact.toUnsigned msg.value = n) :
    (pushed tr).length ≤ (popped tr).length + n ∧ n ≤ size := by
  have hcount := hI.history.count_eq hmsg
  have hpush := hI.pushes_known ht
  have hpop := popsAt_le tr time
  have hw := hI.history.within time
  omega

/-- **The consumer can only count too little.** -/
theorem consumer_count (hI : WeakInv size storage tr c) {time n : Nat} {msg : Message Loc Int}
    (ht : c.mem.view .consumer .n ≤ time) (hmsg : (c.mem.hist .n)[time]? = some msg)
    (hn : Words.exact.toUnsigned msg.value = n) :
    (popped tr).length + n = pushesAt tr time
      ∧ (popped tr).length + n ≤ (pushed tr).length := by
  have hcount := hI.history.count_eq hmsg
  have hpop := hI.pops_known ht
  have hpush := pushesAt_le tr time
  have hw := hI.history.within time
  omega

/-- The slot about to be stored into is the one of the next item. -/
theorem store_slot (hI : WeakInv size storage tr c) {pointer : Ptr}
    (hpc : c.prod.pc = .store pointer) : c.prod.write = (stored tr).length % size := by
  simpa [hpc, hI.producer.stored_eq] using hI.producer.write_eq

/-- The slot about to be loaded is the one of the next item. -/
theorem load_slot (hI : WeakInv size storage tr c) (hpc : c.cons.pc = .load) :
    c.cons.read = (loaded tr).length % size := by
  simpa [hpc, hI.consumer.loaded_eq] using hI.consumer.read_eq

/-- There is no entry in the slot of the next load that is newer than its
own item: the producer is never a lap ahead. -/
theorem load_place (hI : WeakInv size storage tr c) (hpc : c.cons.pc = .load) {time : Nat}
    {pointer : Ptr} (hentry : (Ring.history size storage (stored tr)
      ((loaded tr).length % size))[time]? = some pointer) :
    time ≤ (loaded tr).length / size + 1 := by
  have havail := hI.avail (by simp [hpc])
  have hbd := hI.history.bounded
  have hstored := hI.stored_length_le
  have hloaded : (loaded tr).length = (popped tr).length := by
    simp [hI.consumer.loaded_eq, hpc]
  have hpos : 0 < size := by omega
  have hwin : (stored tr).length ≤ (loaded tr).length + size := by omega
  have hlen := Ring.history_length_le hpos storage hwin
  have hlt := (List.getElem?_eq_some_iff.mp hentry).1
  omega

/-! ## §5. The step lemma. -/

/-- Each thread goes on knowing its own updates. -/
theorem own_pushes_step (hI : WeakInv size storage tr c)
    (h : Transition (viewAtomics o .exact) .exact c e c') :
    (pushed (tr ++ [e])).length ≤ pushesAt (tr ++ [e]) (c'.mem.view .producer .n) := by
  have hgrow : (pushed tr).length ≤ pushesAt (tr ++ [e]) (c'.mem.view .producer .n) :=
    calc (pushed tr).length ≤ pushesAt tr (c.mem.view .producer .n) := hI.own_pushes
      _ ≤ pushesAt tr (c'.mem.view .producer .n) := pushesAt_mono tr (h.view_le .producer .n)
      _ ≤ pushesAt (tr ++ [e]) (c'.mem.view .producer .n) := pushesAt_le_snoc tr e _
  cases h with
  | @increment pointer ch hpc =>
      -- its own update is the newest message
      have hlen : (updates (tr ++ [.prod (.increment pointer)])).length
          = (c.mem.hist .n).length := by
        simp [hI.history.times]
      obtain ⟨last, hlast, _⟩ := hI.history.newest
      obtain ⟨_, _, _, _, _, hself⟩ := ViewMemory.modify_spec o.updateAcquires o.updateReleases
        Thread.producer Words.exact.increment hlast
      exact Nat.le_of_eq (pushesAt_newest _ ((Nat.le_of_eq hlen).trans hself)).symm
  | _ => simpa using hgrow

theorem own_pops_step (hI : WeakInv size storage tr c)
    (h : Transition (viewAtomics o .exact) .exact c e c') :
    (popped (tr ++ [e])).length ≤ popsAt (tr ++ [e]) (c'.mem.view .consumer .n) := by
  have hgrow : (popped tr).length ≤ popsAt (tr ++ [e]) (c'.mem.view .consumer .n) :=
    calc (popped tr).length ≤ popsAt tr (c.mem.view .consumer .n) := hI.own_pops
      _ ≤ popsAt tr (c'.mem.view .consumer .n) := popsAt_mono tr (h.view_le .consumer .n)
      _ ≤ popsAt (tr ++ [e]) (c'.mem.view .consumer .n) := popsAt_le_snoc tr e _
  cases h with
  | @decrement pointer ch hpc =>
      have hlen : (updates (tr ++ [.cons (.decrement pointer)])).length
          = (c.mem.hist .n).length := by
        simp [hI.history.times]
      obtain ⟨last, hlast, _⟩ := hI.history.newest
      obtain ⟨_, _, _, _, _, hself⟩ := ViewMemory.modify_spec o.updateAcquires o.updateReleases
        Thread.consumer Words.exact.decrement hlast
      exact Nat.le_of_eq (popsAt_newest _ ((Nat.le_of_eq hlen).trans hself)).symm
  | _ => simpa using hgrow

/-- The full check itself: the true count is at most the one seen. -/
theorem room_step (hI : WeakInv size storage tr c)
    (h : Transition (viewAtomics o .exact) .exact c e c') (hfl : c'.prod.pc.inFlight ≠ []) :
    (pushed (tr ++ [e])).length < (popped (tr ++ [e])).length + size := by
  refine room_kept h hI.room ?_ hfl
  intro pointer n he
  have hsize := hI.size_eq
  cases h with
  | room hpc hread hfull =>
      obtain ⟨msg, hmsg, rfl, ht, _⟩ := ViewMemory.load_some hread
      have hcount := hI.producer_count ht hmsg rfl
      omega
  | _ => simp at he

/-- The empty check itself: what is there is at least what was seen. -/
theorem avail_step (hI : WeakInv size storage tr c)
    (h : Transition (viewAtomics o .exact) .exact c e c') (hfl : 0 < c'.cons.pc.inFlight) :
    (popped (tr ++ [e])).length < (pushed (tr ++ [e])).length := by
  refine avail_kept h hI.avail ?_ hfl
  intro n he
  cases h with
  | avail hpc hread hz =>
      obtain ⟨msg, hmsg, rfl, ht, _⟩ := ViewMemory.load_some hread
      have hcount := hI.consumer_count ht hmsg rfl
      omega
  | _ => simp at he

/-- One more message, or none. -/
theorem history_step (hI : WeakInv size storage tr c)
    (h : Transition (viewAtomics o .exact) .exact c e c') :
    CountHistory size storage (tr ++ [e]) c'.mem := by
  have hH := hI.history
  have hbd := hH.bounded
  have hsame := h.hist_eq
  obtain ⟨last, hlast, _, hval⟩ := hH.newest
  cases h with
  | @store pointer _ _ hpc hwrite =>
      obtain rfl := Option.some.inj hwrite
      obtain ⟨v, hhist, _⟩ :=
        c.mem.store_spec false Thread.producer (.slot c.prod.write) pointer
      have hst : stored (tr ++ [.prod (.store c.prod.write pointer)]) = stored tr ++ [pointer] := by
        simp
      refine hH.store (v := v) ?_ (by simp) hst
      rw [← hI.store_slot hpc]
      exact hhist
  | increment ch hpc =>
      have hroom := hI.room (by simp [hpc])
      obtain ⟨v, hhist, _⟩ := ViewMemory.modify_spec o.updateAcquires o.updateReleases
        Thread.producer Words.exact.increment hlast
      refine hH.update (b := true) hhist (by simp) (by simp) ?_ ?_ ?_
      · show last.value + 1 = _
        rw [hval, pushed_snoc, popped_snoc]
        simp
        omega
      · simp
        omega
      · simp
        omega
  | decrement ch hpc =>
      have hlt := hI.avail (by simp [hpc])
      obtain ⟨v, hhist, _⟩ := ViewMemory.modify_spec o.updateAcquires o.updateReleases
        Thread.consumer Words.exact.decrement hlast
      refine hH.update (b := false) hhist (by simp) (by simp) ?_ ?_ ?_
      · show last.value - 1 = _
        rw [hval, pushed_snoc, popped_snoc]
        simp
        omega
      · simp
        omega
      · simp
        omega
  | _ => exact hH.quiet (hsame rfl rfl) (by simp) (by simp)

/-- **The step lemma.** -/
theorem step_keeps (hI : WeakInv size storage tr c)
    (h : Transition (viewAtomics o .exact) .exact c e c') :
    WeakInv size storage (tr ++ [e]) c' := by
  have hsize : c'.size = size := h.size_eq.trans hI.size_eq
  have hprod := hI.producer
  have hcons := hI.consumer
  rw [← hI.size_eq] at hprod hcons
  have hprod' := hprod.step h
  have hcons' := hcons.step h
  rw [hsize] at hprod' hcons'
  exact ⟨hsize, hprod', hcons', hI.history_step h, hI.own_pushes_step h, hI.own_pops_step h,
    hI.room_step h, hI.avail_step h⟩

end WeakInv

/-! ## §6. Runs. -/

section Runs

variable {o : Order} {size : Nat} {storage : Nat → Ptr} {as : List (Action Nat)}
  {c : Config RaMem} {tr pre post : List Event} {e : Event}

/-- **Every run over weak memory satisfies the invariant**, in any order. -/
theorem weakRun_inv (h : raRun o size storage as = some (c, tr)) : WeakInv size storage tr c :=
  run_invariant (WeakInv.init size storage)
    (fun _ _ _ _ _ hI hs => hI.step_keeps (step_transition hs)) h

/-- The moment an event was shown. -/
theorem weakRun_event (h : raRun o size storage as = some (c, pre ++ e :: post)) :
    ∃ c₁ c₂, WeakInv size storage pre c₁ ∧ Transition (viewAtomics o .exact) .exact c₁ e c₂ := by
  obtain ⟨c₁, c₂, as₁, a, as₂, rfl, h1, ha, _⟩ := run_split_event h
  exact ⟨c₁, c₂, weakRun_inv h1, step_transition ha⟩

/-- A read that passed its empty check finds an item that was already pushed. -/
theorem granted_pushed {n : Nat}
    (h : raRun o size storage as = some (c, pre ++ .cons (.avail n) :: post)) :
    (granted pre).length < (pushed pre).length := by
  obtain ⟨c₁, c₂, hI, ht⟩ := weakRun_event h
  have hgranted := hI.consumer.granted_eq
  cases ht with
  | avail hpc hread hz =>
      obtain ⟨msg, hmsg, rfl, ht, _⟩ := ViewMemory.load_some hread
      have hcount := hI.consumer_count ht hmsg rfl
      rw [hpc] at hgranted
      simp only [ReadPc.inFlight, Nat.add_zero] at hgranted
      omega

/-- A step that shows a count loaded a message its thread does not know to
be outdated. -/
theorem observed_time {c' : Config RaMem} (h : Transition (viewAtomics o .exact) .exact c e c')
    {n : Nat} (hn : e.observed? = some n) :
    ∃ (time : Nat) (msg : Message Loc Int), c.mem.view e.thread .n ≤ time
      ∧ (c.mem.hist .n)[time]? = some msg ∧ Words.exact.toUnsigned msg.value = n := by
  cases h with
  | full hpc hread hcheck | room hpc hread hcheck | avail hpc hread hcheck | count ht hread =>
      obtain ⟨msg, hmsg, rfl, ht, _⟩ := ViewMemory.load_some hread
      exact ⟨_, msg, ht, hmsg, Option.some.inj hn⟩
  | empty hpc hread hz =>
      obtain ⟨msg, hmsg, rfl, ht, _⟩ := ViewMemory.load_some hread
      exact ⟨_, msg, ht, hmsg, hz.trans (Option.some.inj hn)⟩
  | _ => exact absurd hn (by simp)

end Runs

end MulleFifo
