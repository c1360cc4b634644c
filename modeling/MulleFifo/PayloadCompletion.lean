/-
  MulleFifo.PayloadCompletion — the publication tests end, stale counts and all.

  `Completion` lets the polling loops finish over sequentially consistent
  atomics, where a count is always the newest one.  Over weak memory a
  thread may go on polling although there is something for it to do: the
  memory hands it an old count again.  So a schedule says with each turn how
  new a message the thread is ready for, and must not withhold a message for
  ever (`Attended`):

    • `payloadTurn` — a turn of one of the loops, with the admissible
      message nearest to the one wished for.  No run is lost
      (`payloadTurn_of_step`),
    • `PayloadState.made` — the steps that last.  A turn adds to them, or
      is one of polling (`fill_turn`, `check_turn`),
    • while both threads poll, one is helpful (`PayloadState.helpful`): the
      consumer, if an item was pushed that it has not received, else the
      producer.  With the newest count it stops polling (`fill_newest`,
      `check_newest`),
    • a consumer that is ready for no count but the first stays where it is
      (`Blind`), however much was pushed.
-/
import MulleFifo.Completion
import MulleFifo.PayloadTests

namespace MulleFifo

open Lib

/-! ## §1. Turns. -/

/-- The thread that runs a loop. -/
def Side.thread : Side → Thread
  | .producer => .producer
  | .consumer => .consumer

/-- The place the next step of a loop loads from, if it loads. -/
def PayloadState.loadsFrom (s : PayloadState) : Side → Option Place
  | .producer =>
      match s.fifo.prod.pc with
      | .getCount _ => some (.fifo .n)
      | _ => none
  | .consumer =>
      match s.pc with
      | .polling =>
          match s.fifo.cons.pc with
          | .getCount => some (.fifo .n)
          | .load => some (.fifo (.slot s.fifo.cons.read))
          | _ => none
      | .compare pointer (check :: _) => some (.cell pointer check.field)
      | .compare _ [] => none
      | .other pointer _ _ field _ _ => some (.cell pointer field)

/-- The time of the message a loop gets that is ready for the one at `wish`. -/
def PayloadState.timeFor (s : PayloadState) (side : Side) (wish : Nat) : Nat :=
  match s.loadsFrom side with
  | some p => s.fifo.mem.nearest side.thread p wish
  | none => wish

/-- A turn of one of the loops.  A thread that has left its loop lets it
pass. -/
def payloadTurn (T : PayloadTest) (o : Order) (base n_items : Nat) (s : PayloadState)
    (turn : Side × Nat) : PayloadState :=
  ((payloadStep T o base n_items s (turn.1, s.timeFor turn.1 turn.2)).map Prod.fst).getD s

/-- A side has left its loop. -/
def PayloadState.Left (n_items : Nat) (s : PayloadState) : Side → Prop
  | .producer => s.fifo.prod.pc = .idle ∧ n_items ≤ s.i
  | .consumer => s.pc = .polling ∧ s.fifo.cons.pc = .idle ∧ n_items ≤ s.received

section Turns

variable {T : PayloadTest} {o : Order} {base n_items : Nat} {s s' : PayloadState} {e : Event}
  {side : Side} {time wish : Nat}

/-- The call of a write is what it shows. -/
theorem step_callWrite_event {μ χ : Type} {M : MemoryModel μ χ} {W : Words} {c c' : Config μ}
    {pointer : Ptr} (h : step M W c (.callWrite pointer) = some (c', e)) :
    e = .prod (.call pointer) := by
  simp only [step, Option.map_eq_some_iff, Prod.mk.injEq] at h
  obtain ⟨_, _, _, rfl⟩ := h
  rfl

/-- A step of a write shows an event of a write. -/
theorem step_prod_event {μ χ : Type} {M : MemoryModel μ χ} {W : Words} {c c' : Config μ} {ch : χ}
    (h : step M W c (.prod ch) = some (c', e)) : ∃ w, e = .prod w := by
  simp only [step, Option.map_eq_some_iff, Prod.mk.injEq] at h
  obtain ⟨r, _, _, rfl⟩ := h
  exact ⟨_, rfl⟩

/-- A step of a read shows an event of a read. -/
theorem step_cons_event {μ χ : Type} {M : MemoryModel μ χ} {W : Words} {c c' : Config μ} {ch : χ}
    (h : step M W c (.cons ch) = some (c', e)) : ∃ r, e = .cons r := by
  simp only [step, Option.map_eq_some_iff, Prod.mk.injEq] at h
  obtain ⟨r, _, _, rfl⟩ := h
  exact ⟨_, rfl⟩

/-- In a call the producer takes a step of the FIFO. -/
theorem fillStep_busy (hbusy : s.fifo.prod.pc ≠ .idle) :
    fillStep T o base n_items s time = fifoStep T o s (.prod time) := if_neg hbusy

/-- In a call the consumer takes a step of the FIFO. -/
theorem checkStep_busy (hpc : s.pc = .polling) (hbusy : s.fifo.cons.pc ≠ .idle) :
    checkStep T o n_items s time = fifoStep T o s (.cons time) := by
  unfold checkStep
  rw [hpc]
  exact if_neg hbusy

/-- **A step that loads** is possible exactly if the load is. -/
theorem payloadStep_load {p : Place} (hp : s.loadsFrom side = some p) :
    ∃ acquire, ∀ time, (payloadStep T o base n_items s (side, time)).isSome
      = (s.fifo.mem.load acquire side.thread p time).isSome := by
  cases side with
  | producer =>
      simp only [PayloadState.loadsFrom] at hp
      split at hp
      next pointer hpc =>
        obtain rfl := Option.some.inj hp
        refine ⟨o.loadAcquires, fun time => ?_⟩
        have hbusy : s.fifo.prod.pc ≠ .idle := by simp [hpc]
        show (fillStep T o base n_items s time).isSome = _
        rw [fillStep_busy hbusy]
        simp only [fifoStep, step, writeStep, hpc, getCount, payloadAtomics, Option.isSome_map]
        rfl
      next => exact absurd hp (by simp)
  | consumer =>
      simp only [PayloadState.loadsFrom] at hp
      split at hp
      next hpolling =>
        split at hp
        next hpc =>
          obtain rfl := Option.some.inj hp
          refine ⟨o.loadAcquires, fun time => ?_⟩
          have hbusy : s.fifo.cons.pc ≠ .idle := by simp [hpc]
          show (checkStep T o n_items s time).isSome = _
          rw [checkStep_busy hpolling hbusy]
          simp only [fifoStep, step, readStep, hpc, getCount, payloadAtomics, Option.isSome_map]
          rfl
        next hpc =>
          obtain rfl := Option.some.inj hp
          refine ⟨false, fun time => ?_⟩
          have hbusy : s.fifo.cons.pc ≠ .idle := by simp [hpc]
          show (checkStep T o n_items s time).isSome = _
          rw [checkStep_busy hpolling hbusy]
          simp only [fifoStep, step, readStep, hpc, payloadAtomics, Option.isSome_map]
          rfl
        next => exact absurd hp (by simp)
      next pointer check checks hpc =>
        obtain rfl := Option.some.inj hp
        refine ⟨false, fun time => ?_⟩
        simp only [payloadStep, checkStep, hpc, Option.isSome_map]
        rfl
      next => exact absurd hp (by simp)
      next pointer x check field f checks hpc =>
        obtain rfl := Option.some.inj hp
        refine ⟨false, fun time => ?_⟩
        simp only [payloadStep, checkStep, hpc, Option.isSome_map]
        rfl

/-- **A step that does not load** is possible unless the loop was left. -/
theorem payloadStep_own (hp : s.loadsFrom side = none) (hleft : ¬ s.Left n_items side) :
    (payloadStep T o base n_items s (side, time)).isSome = true := by
  cases side with
  | producer =>
      show (fillStep T o base n_items s time).isSome = true
      unfold fillStep
      by_cases hidle : s.fifo.prod.pc = .idle
      · have hlt : s.i < n_items := by
          by_contra hge
          exact hleft ⟨hidle, Nat.le_of_not_lt hge⟩
        rw [if_pos hidle, if_pos hlt]
        split
        · rfl
        · simp only [fifoStep, step, enterWrite, hidle, Option.isSome_map, if_true]
          split <;> rfl
      · rw [if_neg hidle]
        cases hpc : s.fifo.prod.pc with
        | idle => exact absurd hpc hidle
        | getCount pointer => simp [PayloadState.loadsFrom, hpc] at hp
        | store pointer | index pointer | increment pointer | ret pointer rval =>
            simp [fifoStep, step, writeStep, hpc, payloadAtomics]
  | consumer =>
      show (checkStep T o n_items s time).isSome = true
      unfold checkStep
      cases hpc : s.pc with
      | polling =>
          by_cases hidle : s.fifo.cons.pc = .idle
          · have hlt : s.received < n_items := by
              by_contra hge
              exact hleft ⟨hpc, hidle, Nat.le_of_not_lt hge⟩
            simp [hidle, hlt, fifoStep, step, enterRead]
          · cases hread : s.fifo.cons.pc with
            | idle => exact absurd hread hidle
            | getCount | load => simp [PayloadState.loadsFrom, hpc, hread] at hp
            | index pointer | decrement pointer | ret pointer =>
                simp [fifoStep, step, readStep, hread]
      | compare pointer checks =>
          cases checks with
          | nil => rfl
          | cons check checks => simp [PayloadState.loadsFrom, hpc] at hp
      | other pointer x check field f checks => simp [PayloadState.loadsFrom, hpc] at hp

theorem payloadTurn_some
    (h : payloadStep T o base n_items s (side, s.timeFor side wish) = some (s', e)) :
    payloadTurn T o base n_items s (side, wish) = s' := by
  unfold payloadTurn
  rw [h]
  rfl

/-- **Every step is a turn**: a loop gets the message it is ready for, if it
can get it. -/
theorem payloadTurn_of_step (h : payloadStep T o base n_items s (side, time) = some (s', e)) :
    payloadTurn T o base n_items s (side, time) = s' := by
  have htime : s.timeFor side time = time := by
    unfold PayloadState.timeFor
    cases hp : s.loadsFrom side with
    | none => rfl
    | some p =>
        obtain ⟨acquire, hiff⟩ := @payloadStep_load T o base n_items s side p hp
        have hsome := hiff time
        rw [h] at hsome
        obtain ⟨r, hload⟩ := Option.isSome_iff_exists.mp hsome.symm
        exact ViewMemory.nearest_of_load hload
  apply payloadTurn_some
  rw [htime]
  exact h

/-- **A turn is a step**, unless the loop was left. -/
theorem payloadTurn_step (hG : s.fifo.mem.Grounded) (hleft : ¬ s.Left n_items side) :
    ∃ e, payloadStep T o base n_items s (side, s.timeFor side wish)
      = some (payloadTurn T o base n_items s (side, wish), e) := by
  have hsome : (payloadStep T o base n_items s (side, s.timeFor side wish)).isSome = true := by
    cases hp : s.loadsFrom side with
    | none => exact payloadStep_own hp hleft
    | some p =>
        obtain ⟨acquire, hiff⟩ := @payloadStep_load T o base n_items s side p hp
        obtain ⟨r, hload⟩ := hG.load_nearest acquire side.thread p wish
        have htime : s.timeFor side wish = s.fifo.mem.nearest side.thread p wish := by
          unfold PayloadState.timeFor
          rw [hp]
        rw [hiff, htime, hload]
        rfl
  obtain ⟨⟨s', e⟩, h⟩ := Option.isSome_iff_exists.mp hsome
  refine ⟨e, ?_⟩
  rw [payloadTurn_some h]
  exact h

/-- A thread that has left its loop lets its turn pass. -/
theorem payloadTurn_left (h : s.Left n_items side) :
    payloadTurn T o base n_items s (side, wish) = s := by
  have hnone (time : Nat) : payloadStep T o base n_items s (side, time) = none := by
    cases side with
    | producer =>
        obtain ⟨hidle, hall⟩ := h
        show fillStep T o base n_items s time = none
        unfold fillStep
        rw [if_pos hidle, if_neg (Nat.not_lt_of_le hall)]
    | consumer =>
        obtain ⟨hpc, hidle, hall⟩ := h
        show checkStep T o n_items s time = none
        unfold checkStep
        rw [hpc]
        show (if _ then _ else _) = _
        rw [if_pos hidle, if_neg (Nat.not_lt_of_le hall)]
  unfold payloadTurn
  rw [hnone]
  rfl

end Turns

/-! ## §2. What a run keeps. -/

@[simp] theorem PayloadState.compared_fifo (s : PayloadState) (pointer : Ptr) (check : Check)
    (checks : List Check) (x y : Int) : (s.compared pointer check checks x y).fifo = s.fifo := by
  unfold PayloadState.compared
  split <;> rfl

theorem PayloadState.compared_i (s : PayloadState) (pointer : Ptr) (check : Check)
    (checks : List Check) (x y : Int) : (s.compared pointer check checks x y).i = s.i := by
  unfold PayloadState.compared
  split <;> rfl

@[simp] theorem PayloadState.after_received (T : PayloadTest) (s : PayloadState) (e : Event) :
    (s.after T e).received = s.received := by
  unfold PayloadState.after
  split
  · split <;> rfl
  · split <;> rfl
  · rfl

/-- A test after the trace `tr`, with the memory and the consumer's loop
condition. -/
structure LoopsInv (b : Bool) (T : PayloadTest) (base n_items size : Nat) (storage : Nat → Ptr)
    (tr : List Event) (s : PayloadState) : Prop where
  payload : PayloadInv b T base n_items size storage tr s
  grounded : s.fifo.mem.Grounded
  /-- A read was called because an item was missing. -/
  missing : s.fifo.cons.pc ≠ .idle → s.received < n_items

namespace LoopsInv

variable {b : Bool} {T : PayloadTest} {o : Order} {base n_items size : Nat}
  {storage : Nat → Ptr} {tr : List Event} {s s' : PayloadState} {e : Event}

theorem init (b : Bool) (T : PayloadTest) (base n_items size : Nat) (storage : Nat → Ptr) :
    LoopsInv b T base n_items size storage [] (payloadInit T size storage) where
  payload := PayloadInv.init b T base n_items size storage
  grounded :=
    { held := fun _ => Nat.one_pos
      known := fun _ _ => Nat.one_pos
      carried := by
        intro p msg hmem l
        obtain rfl : msg = initialPlace storage p := List.mem_singleton.mp hmem
        have hzero : (initialPlace storage p).view l = 0 := by
          unfold initialPlace
          split <;> rfl
        rw [hzero]
        exact Nat.one_pos }
  missing h := absurd rfl h

/-- An update of `n`, whatever its order. -/
theorem grounded_update {m : PayloadMem} (hG : m.Grounded) (acquire release : Bool) (t : Thread)
    (f : Int → Int) : (m.modify acquire release t (Place.fifo .n) f).Grounded := by
  obtain ⟨last, hlast, _⟩ := hG.exists_newest (.fifo .n)
  have hnewest : m.newest (.fifo .n) = some last.value := by
    unfold ViewMemory.newest
    rw [hlast]
    rfl
  exact (hG.modify acquire release t (Place.fifo .n) f hnewest).1

/-- No step loses a message. -/
theorem grounded_move (hG : s.fifo.mem.Grounded) (h : Move T o base n_items s e s') :
    s'.fifo.mem.Grounded := by
  cases h with
  | @fifo a c e hs =>
      show c.mem.Grounded
      cases step_transition hs with
      | full hpc hread | room hpc hread | empty hpc hread | avail hpc hread | load hpc hread
      | count hpc hread => exact hG.loaded hread
      | store hpc hwrite =>
          obtain rfl := Option.some.inj hwrite
          exact (hG.store false .producer _ _).1
      | increment => exact grounded_update hG _ _ .producer _
      | decrement => exact grounded_update hG _ _ .consumer _
      | _ => exact hG
  | fill => exact (hG.store false .producer _ _).1
  | compareExpect hpc hcheck hload =>
      rw [PayloadState.compared_fifo]
      exact hG.loaded hload
  | loadOther hpc hcheck hload => exact hG.loaded hload
  | compareOther hpc hload =>
      rw [PayloadState.compared_fifo]
      exact hG.loaded hload
  | checked => exact hG

/-- A read is only called while an item is missing. -/
theorem missing_move (hI : LoopsInv b T base n_items size storage tr s)
    (h : Move T o base n_items s e s') : s'.fifo.cons.pc ≠ .idle → s'.received < n_items := by
  have hmissing := hI.missing
  have hbusy := hI.payload.busy
  cases h with
  | @fifo a c e hs hwrite hread hcall =>
      show c.cons.pc ≠ .idle → (s.after T e).received < n_items
      rw [PayloadState.after_received]
      cases step_transition hs with
      | callRead => exact fun _ => hcall rfl
      | empty hpc | avail hpc | load hpc | indexRead hpc | decrement _ hpc =>
          exact fun _ => hmissing (by simp [hpc])
      | retRead => exact fun hne => absurd rfl hne
      | _ => exact hmissing
  | fill => exact hmissing
  | compareExpect hpc =>
      rw [PayloadState.compared_fifo]
      exact fun hne => absurd (hbusy (by simp [hpc])) hne
  | loadOther hpc => exact fun hne => absurd (hbusy (by simp [hpc])) hne
  | compareOther hpc =>
      rw [PayloadState.compared_fifo]
      exact fun hne => absurd (hbusy (by simp [hpc])) hne
  | checked hpc => exact fun hne => absurd (hbusy (by simp [hpc])) hne

/-- **Every run of a test keeps it.** -/
theorem run {turns : List (Side × Nat)} (hbase : 0 < base)
    (h : payloadRun T (releaseAcquire b) base n_items size storage turns = some (s, tr)) :
    LoopsInv b T base n_items size storage tr s := by
  refine run_invariant (init b T base n_items size storage) ?_ h
  intro tr s turn s' e hI hs
  have hmove := payloadStep_move hs
  exact ⟨hI.payload.move_keeps hbase hmove, grounded_move hI.grounded hmove,
    hI.missing_move hmove⟩

end LoopsInv

/-! ## §3. The steps that last. -/

/-- The steps of a write that last, so far: those from the full check on,
when it found room. -/
@[simp] def WritePc.lasted : WritePc → Nat
  | .idle | .getCount _ => 0
  | .store _ => 1
  | .index _ => 2
  | .increment _ => 3
  | .ret _ rval => if rval = -1 then 0 else 4

/-- The steps of a read that last, so far: those from the empty check on,
when it found something. -/
@[simp] def ReadPc.lasted : ReadPc → Nat
  | .idle | .getCount => 0
  | .load => 1
  | .index _ => 2
  | .decrement _ => 3
  | .ret pointer => if pointer = NULL then 0 else 4

/-- The steps since a read that returned a payload, and that read's. -/
@[simp] def CheckPc.lasted (n_checks : Nat) : CheckPc → Nat
  | .polling => 0
  | .compare _ checks => 5 + 2 * (n_checks - checks.length)
  | .other _ _ _ _ _ checks => 6 + 2 * (n_checks - (checks.length + 1))

/-- The steps that last, so far.  An item costs the producer its fields and
five steps of a write, the consumer five of a read, at most two for each
check, and the end of its loop. -/
def PayloadState.made (T : PayloadTest) (s : PayloadState) : Nat :=
  s.i * (T.fill.length + 5) + (T.fill.length - s.todo.length) + s.fifo.prod.pc.lasted
    + (s.received * (2 * T.checks.length + 6) + s.fifo.cons.pc.lasted
      + s.pc.lasted T.checks.length)

/-- A write that finds the FIFO full. -/
inductive WritePoll : WritePc → WritePc → Prop
  | call (pointer : Ptr) : WritePoll .idle (.getCount pointer)
  | full (pointer : Ptr) : WritePoll (.getCount pointer) (.ret pointer (-1))
  | ret (pointer : Ptr) : WritePoll (.ret pointer (-1)) .idle

/-- A read that finds the FIFO empty. -/
inductive ReadPoll : ReadPc → ReadPc → Prop
  | call : ReadPoll .idle .getCount
  | empty : ReadPoll .getCount (.ret NULL)
  | ret : ReadPoll (.ret NULL) .idle

/-- The producer polls, and nothing it does lasts. -/
structure PollingWrite (T : PayloadTest) (s s' : PayloadState) : Prop where
  made : s'.made T = s.made T
  item : s'.i = s.i
  count : s'.fifo.mem.hist (.fifo .n) = s.fifo.mem.hist (.fifo .n)
  poll : WritePoll s.fifo.prod.pc s'.fifo.prod.pc

/-- The consumer polls, and nothing it does lasts. -/
structure PollingRead (T : PayloadTest) (s s' : PayloadState) : Prop where
  made : s'.made T = s.made T
  received : s'.received = s.received
  count : s'.fifo.mem.hist (.fifo .n) = s.fifo.mem.hist (.fifo .n)
  polling : s.pc = .polling
  poll : ReadPoll s.fifo.cons.pc s'.fifo.cons.pc

namespace LoopsInv

variable {b : Bool} {T : PayloadTest} {base n_items size : Nat}
  {storage : Nat → Ptr} {tr : List Event} {s s' : PayloadState} {e : Event} {time : Nat}

/-- A step of a write in progress. -/
theorem write_turn (hI : LoopsInv b T base n_items size storage tr s)
    (hbusy : s.fifo.prod.pc ≠ .idle)
    (h : fillStep T (releaseAcquire b) base n_items s time = some (s', e)) :
    s'.fifo.cons = s.fifo.cons ∧ s'.received = s.received
      ∧ (s.made T < s'.made T ∨ PollingWrite T s s') := by
  have hcur := hI.payload.current
  rw [fillStep_busy hbusy] at h
  obtain ⟨c, hs, rfl⟩ := fifoStep_some h
  have ht := step_transition hs
  obtain ⟨w, rfl⟩ := step_prod_event hs
  have hn := fun hup => ht.payload_hist (p := .fifo .n) (by simp) (.inl hup)
  cases ht with
  | callNull hpc | call hpc => exact absurd hpc hbusy
  | @full pointer ch n m hpc hread =>
      refine ⟨rfl, rfl, .inr ⟨?_, rfl, hn rfl, ?_⟩⟩
      · simp [PayloadState.made, PayloadState.after, hpc]
      · rw [hpc]
        exact .full pointer
  | room hpc | store hpc | indexWrite hpc =>
      refine ⟨rfl, rfl, .inl ?_⟩
      simp [PayloadState.made, PayloadState.after, hpc]
  | increment ch hpc =>
      refine ⟨rfl, rfl, .inl ?_⟩
      simp [PayloadState.made, PayloadState.after, hpc]
  | @retWrite pointer rval hpc =>
      obtain ⟨_, htodo, _⟩ := hcur pointer (by simp [hpc])
      by_cases hrefused : rval = -1
      · -- refused: the same item again
        subst hrefused
        refine ⟨rfl, rfl, .inr ⟨?_, rfl, hn rfl, ?_⟩⟩
        · simp [PayloadState.made, PayloadState.after, hpc]
        · rw [hpc]
          exact .ret pointer
      · -- on to the next item
        have hnext : s.after T (.prod (.ret pointer rval))
            = { s with i := s.i + 1, todo := T.fill } := if_neg hrefused
        rw [hnext]
        refine ⟨rfl, rfl, .inl ?_⟩
        simp only [PayloadState.made, hpc, htodo, WritePc.lasted, if_neg hrefused,
          List.length_nil, Nat.succ_mul]
        omega

/-- **A turn of the producer** lasts, or is one of polling. -/
theorem fill_turn (hbase : 0 < base) (hI : LoopsInv b T base n_items size storage tr s)
    (h : fillStep T (releaseAcquire b) base n_items s time = some (s', e)) :
    s'.fifo.cons = s.fifo.cons ∧ s'.received = s.received
      ∧ (s.made T < s'.made T ∨ PollingWrite T s s') := by
  by_cases hidle : s.fifo.prod.pc = .idle
  · unfold fillStep at h
    rw [if_pos hidle] at h
    split at h
    next hlt =>
      split at h
      next field todo htodo =>
        -- a field is filled in
        obtain ⟨rfl, rfl⟩ := Prod.mk.inj (Option.some.inj h)
        refine ⟨rfl, rfl, .inl ?_⟩
        have hle := hI.payload.todo_le.length_le
        rw [htodo, List.length_cons] at hle
        simp only [PayloadState.made, htodo, List.length_cons]
        omega
      next htodo =>
        -- the write is called
        obtain ⟨c, hs, rfl⟩ := fifoStep_some h
        have hne := T.item_ne hbase s.i
        simp only [step, enterWrite, if_pos hidle, if_neg hne, Option.map_some, Option.some.injEq,
          Prod.mk.injEq] at hs
        obtain ⟨rfl, rfl⟩ := hs
        refine ⟨rfl, rfl, .inr ⟨?_, rfl, rfl, ?_⟩⟩
        · simp [PayloadState.made, PayloadState.after, hidle]
        · rw [hidle]
          exact .call _
    next => exact absurd h (by simp)
  · exact hI.write_turn hidle h

/-- A step of a read in progress. -/
theorem read_turn (hI : LoopsInv b T base n_items size storage tr s) (hpc : s.pc = .polling)
    (hbusy : s.fifo.cons.pc ≠ .idle)
    (h : checkStep T (releaseAcquire b) n_items s time = some (s', e)) :
    s'.fifo.prod = s.fifo.prod ∧ s'.i = s.i
      ∧ (s.made T < s'.made T ∨ PollingRead T s s') := by
  have hP := hI.payload
  rw [checkStep_busy hpc hbusy] at h
  obtain ⟨c, hs, rfl⟩ := fifoStep_some h
  have ht := step_transition hs
  obtain ⟨r, rfl⟩ := step_cons_event hs
  have hn := fun hup => ht.payload_hist (p := .fifo .n) (by simp) (.inl hup)
  cases ht with
  | callRead hread => exact absurd hread hbusy
  | empty hread =>
      refine ⟨rfl, rfl, .inr ⟨?_, rfl, hn rfl, hpc, ?_⟩⟩
      · simp [PayloadState.made, PayloadState.after, hread]
      · rw [hread]
        exact .empty
  | avail hread | load hread | indexRead hread =>
      refine ⟨rfl, rfl, .inl ?_⟩
      simp [PayloadState.made, PayloadState.after, hread]
  | @decrement pointer ch hread =>
      -- what is popped was pushed, and that is not NULL
      have hne : pointer ≠ NULL := by
        have htaken := hP.ra.taken_le
        rw [show (s.fifo.seen fifoPart).cons.pc = _ from hread] at htaken
        exact hP.ra.producer.pushed_ne pointer (htaken.subset (by simp))
      refine ⟨rfl, rfl, .inl ?_⟩
      simp [PayloadState.made, PayloadState.after, hread, hne]
  | @retRead pointer hread =>
      by_cases hnull : pointer = NULL
      · subst hnull
        refine ⟨rfl, rfl, .inr ⟨?_, rfl, hn rfl, hpc, ?_⟩⟩
        · simp [PayloadState.made, PayloadState.after, hread]
        · rw [hread]
          exact .ret
      · -- a payload to check
        have hnext : s.after T (.cons (.ret pointer))
            = { s with pc := .compare pointer T.checks } := if_neg hnull
        rw [hnext]
        refine ⟨rfl, rfl, .inl ?_⟩
        simp [PayloadState.made, hread, hnull, hpc]

/-- A comparison that passes or not is over. -/
theorem compared_made (pointer : Ptr) (check : Check) (checks : List Check) (x y : Int) :
    (s.compared pointer check checks x y).made T
      = PayloadState.made T { s with pc := .compare pointer checks } := by
  unfold PayloadState.compared
  split <;> rfl

/-- A step of the checks lasts. -/
theorem checks_turn (hI : LoopsInv b T base n_items size storage tr s) (hne : s.pc ≠ .polling)
    (h : checkStep T (releaseAcquire b) n_items s time = some (s', e)) :
    s'.fifo.prod = s.fifo.prod ∧ s'.i = s.i ∧ s.made T < s'.made T := by
  have hok := hI.payload.checks
  unfold checkStep at h
  cases hpc : s.pc with
  | polling => exact absurd hpc hne
  | compare pointer checks =>
      rw [hpc] at hok
      have hle := hok.1.length_le
      simp only [hpc] at h
      cases checks with
      | nil =>
          -- the loop goes on
          obtain ⟨rfl, rfl⟩ := Prod.mk.inj (Option.some.inj h)
          refine ⟨rfl, rfl, ?_⟩
          simp only [PayloadState.made, hpc, CheckPc.lasted, List.length_nil, Nat.succ_mul]
          omega
      | cons check checks =>
          obtain ⟨r, hload, h⟩ := Option.map_eq_some_iff.mp h
          rw [List.length_cons] at hle
          split at h
          next hcheck =>
            obtain ⟨rfl, rfl⟩ := Prod.mk.inj h
            refine ⟨by simp, PayloadState.compared_i _ _ _ _ _ _, ?_⟩
            rw [compared_made]
            simp only [PayloadState.made, hpc, CheckPc.lasted, List.length_cons]
            omega
          next field f hcheck =>
            obtain ⟨rfl, rfl⟩ := Prod.mk.inj h
            refine ⟨rfl, rfl, ?_⟩
            simp only [PayloadState.made, hpc, CheckPc.lasted, List.length_cons]
            omega
  | other pointer x check field f checks =>
      rw [hpc] at hok
      have hle := hok.2.2.1.length_le
      rw [List.length_cons] at hle
      simp only [hpc] at h
      obtain ⟨r, hload, h⟩ := Option.map_eq_some_iff.mp h
      obtain ⟨rfl, rfl⟩ := Prod.mk.inj h
      refine ⟨by simp, PayloadState.compared_i _ _ _ _ _ _, ?_⟩
      rw [compared_made]
      simp only [PayloadState.made, hpc, CheckPc.lasted]
      omega

/-- **A turn of the consumer** lasts, or is one of polling. -/
theorem check_turn (hI : LoopsInv b T base n_items size storage tr s)
    (h : checkStep T (releaseAcquire b) n_items s time = some (s', e)) :
    s'.fifo.prod = s.fifo.prod ∧ s'.i = s.i
      ∧ (s.made T < s'.made T ∨ PollingRead T s s') := by
  by_cases hpc : s.pc = .polling
  · by_cases hidle : s.fifo.cons.pc = .idle
    · -- the read is called
      unfold checkStep at h
      simp only [hpc, if_pos hidle] at h
      split at h
      next hlt =>
        obtain ⟨c, hs, rfl⟩ := fifoStep_some h
        simp only [step, enterRead, if_pos hidle, Option.map_some, Option.some.injEq,
          Prod.mk.injEq] at hs
        obtain ⟨rfl, rfl⟩ := hs
        refine ⟨rfl, rfl, .inr ⟨?_, rfl, rfl, hpc, ?_⟩⟩
        · simp [PayloadState.made, PayloadState.after, hidle]
        · rw [hidle]
          exact .call
      next => exact absurd h (by simp)
    · exact hI.read_turn hpc hidle h
  · obtain ⟨hprod, hi, hmore⟩ := hI.checks_turn hpc h
    exact ⟨hprod, hi, .inl hmore⟩

/-- There is an end to the steps that last. -/
theorem made_le (hI : LoopsInv b T base n_items size storage tr s) :
    s.made T ≤ (n_items + 1) * (T.fill.length + 5) + (n_items + 2) * (2 * T.checks.length + 6) := by
  have hP := hI.payload
  have hi : s.i * (T.fill.length + 5) ≤ n_items * (T.fill.length + 5) :=
    Nat.mul_le_mul_right _ hP.i_le
  have hreceived : s.received ≤ n_items := by
    have hall := hP.received_items.2
    rw [hP.received_eq] at hall
    omega
  have hr : s.received * (2 * T.checks.length + 6) ≤ n_items * (2 * T.checks.length + 6) :=
    Nat.mul_le_mul_right _ hreceived
  have hwrite : s.fifo.prod.pc.lasted ≤ 4 := by
    cases s.fifo.prod.pc with
    | ret pointer rval =>
        show (if rval = -1 then 0 else 4) ≤ 4
        split <;> omega
    | _ => simp
  have hread : s.fifo.cons.pc.lasted ≤ 4 := by
    cases s.fifo.cons.pc with
    | ret pointer =>
        show (if pointer = NULL then 0 else 4) ≤ 4
        split <;> omega
    | _ => simp
  have hcheck : s.pc.lasted T.checks.length ≤ 6 + 2 * T.checks.length := by
    cases s.pc with
    | polling => simp
    | compare pointer checks =>
        show 5 + 2 * (T.checks.length - checks.length) ≤ _
        omega
    | other pointer x check field f checks =>
        show 6 + 2 * (T.checks.length - (checks.length + 1)) ≤ _
        omega
  have h1 : (n_items + 1) * (T.fill.length + 5)
      = n_items * (T.fill.length + 5) + (T.fill.length + 5) := Nat.succ_mul _ _
  have h2 : (n_items + 2) * (2 * T.checks.length + 6)
      = n_items * (2 * T.checks.length + 6) + 2 * (2 * T.checks.length + 6) := Nat.add_mul _ _ _
  unfold PayloadState.made
  omega

/-! ## §4. Who is helpful. -/

end LoopsInv

/-- The items pushed so far. -/
def PayloadState.pushed (s : PayloadState) : Nat := s.i + s.fifo.prod.pc.unreturned.length

/-- The thread whose turn brings the test forward while both poll: the
consumer, if it has something to receive. -/
def PayloadState.helpful (s : PayloadState) : Side :=
  if s.received < s.pushed then .consumer else .producer

/-- The steps a side has ahead of it to its next update of `n`. -/
def PayloadState.ahead (s : PayloadState) : Side → Nat
  | .producer => s.fifo.prod.pc.ahead
  | .consumer => s.fifo.cons.pc.ahead

namespace LoopsInv

variable {b : Bool} {T : PayloadTest} {base n_items size : Nat}
  {storage : Nat → Ptr} {tr : List Event} {s s' : PayloadState} {e : Event} {wish : Nat}

theorem pushed_eq (hI : LoopsInv b T base n_items size storage tr s) :
    s.pushed = (pushed tr).length := by
  have heq : MulleFifo.pushed tr = accepted tr ++ s.fifo.prod.pc.unreturned :=
    hI.payload.ra.producer.pushed_eq
  rw [heq, List.length_append, hI.payload.accepted_eq, List.length_map, List.length_range]
  rfl

/-- What was popped was received, or is about to be. -/
theorem popped_eq (hI : LoopsInv b T base n_items size storage tr s) :
    (popped tr).length
      = s.received + s.pc.holding.length + s.fifo.cons.pc.unreturned.length := by
  have hR := hI.payload.ra
  have hpop : popped tr <+: MulleFifo.pushed tr := (List.prefix_append _ _).trans hR.taken_le
  have hall : popped tr = received tr ++ s.fifo.cons.pc.unreturned :=
    hR.consumer.popped_eq fun pointer hmem => hR.producer.pushed_ne pointer (hpop.subset hmem)
  rw [hall, List.length_append, hI.payload.received_eq]

/-- The newest count is the true one. -/
theorem newest_count (hI : LoopsInv b T base n_items size storage tr s)
    {msg : Message Place Int}
    (h : (s.fifo.mem.hist (.fifo .n))[s.fifo.mem.newestTime (.fifo .n)]? = some msg) :
    Words.exact.toUnsigned msg.value = (MulleFifo.pushed tr).length - (popped tr).length := by
  obtain ⟨_, _, htimes, _⟩ := hI.payload.newest
  have htime : (updates tr).length ≤ s.fifo.mem.newestTime (.fifo .n) := by
    unfold ViewMemory.newestTime
    omega
  have hseen : ((s.fifo.seen fifoPart).mem.hist .n)[s.fifo.mem.newestTime (.fifo .n)]?
      = some (msg.restrict Place.fifo) := by
    show ((s.fifo.mem.hist (.fifo .n)).map _)[_]? = _
    rw [List.getElem?_map, h]
    rfl
  have hcount := hI.payload.ra.history.count_eq hseen
  rw [pushesAt_newest tr htime, popsAt_newest tr htime] at hcount
  exact hcount

/-- A thread that is ready for the newest count and loads one gets it. -/
theorem timeFor_newest {side : Side} (hp : s.loadsFrom side = some (.fifo .n))
    (hwish : s.fifo.mem.newestTime (.fifo .n) ≤ wish) :
    s.timeFor side wish = s.fifo.mem.newestTime (.fifo .n) := by
  unfold PayloadState.timeFor
  rw [hp]
  exact ViewMemory.nearest_newest hwish

/-- **A producer with the newest count** does not find the FIFO full when
everything pushed was received. -/
theorem fill_newest (hsize : 0 < size) (hI : LoopsInv b T base n_items size storage tr s)
    (hall : s.pushed ≤ s.received) (hwish : s.fifo.mem.newestTime (.fifo .n) ≤ wish)
    (h : fillStep T (releaseAcquire b) base n_items s (s.timeFor .producer wish) = some (s', e))
    (hpoll : WritePoll s.fifo.prod.pc s'.fifo.prod.pc) :
    s'.fifo.prod.pc.ahead < s.fifo.prod.pc.ahead := by
  generalize hpc : s.fifo.prod.pc = pc at hpoll
  generalize hpc' : s'.fifo.prod.pc = pc' at hpoll
  cases hpoll with
  | call pointer => exact Nat.lt_succ_self _
  | ret pointer => exact Nat.lt_succ_self _
  | full pointer =>
      exfalso
      rw [timeFor_newest (by simp [PayloadState.loadsFrom, hpc]) hwish,
        fillStep_busy (by simp [hpc])] at h
      obtain ⟨c, hs, rfl⟩ := fifoStep_some h
      simp only [step, writeStep, hpc, getCount, payloadAtomics, Option.map_eq_some_iff] at hs
      obtain ⟨_, ⟨_, ⟨r, hload, rfl⟩, rfl⟩, hc⟩ := hs
      obtain ⟨msg, hmsg, hvalue, _⟩ := ViewMemory.load_some hload
      -- the count is the true one, and that is 0
      have hcount := hI.newest_count hmsg
      have hpushed := hI.pushed_eq
      have hpopped := hI.popped_eq
      have hzero : Words.exact.toUnsigned r.1 = 0 := by
        rw [hvalue, hcount]
        omega
      have hsz : s.fifo.size = size := hI.payload.ra.size_eq
      rw [hzero, hsz, if_neg (Nat.ne_of_lt hsize)] at hc
      obtain ⟨rfl, _⟩ := Prod.mk.inj hc
      exact absurd hpc' (by simp)

/-- **A consumer with the newest count** does not find the FIFO empty when
something pushed was not received. -/
theorem check_newest (hI : LoopsInv b T base n_items size storage tr s)
    (hlead : s.received < s.pushed) (hwish : s.fifo.mem.newestTime (.fifo .n) ≤ wish)
    (hpolling : s.pc = .polling)
    (h : checkStep T (releaseAcquire b) n_items s (s.timeFor .consumer wish) = some (s', e))
    (hpoll : ReadPoll s.fifo.cons.pc s'.fifo.cons.pc) :
    s'.fifo.cons.pc.ahead < s.fifo.cons.pc.ahead := by
  generalize hpc : s.fifo.cons.pc = pc at hpoll
  generalize hpc' : s'.fifo.cons.pc = pc' at hpoll
  cases hpoll with
  | call => exact Nat.lt_succ_self _
  | ret => exact Nat.lt_succ_self _
  | empty =>
      exfalso
      rw [timeFor_newest (by simp [PayloadState.loadsFrom, hpolling, hpc]) hwish,
        checkStep_busy hpolling (by simp [hpc])] at h
      obtain ⟨c, hs, rfl⟩ := fifoStep_some h
      simp only [step, readStep, hpc, getCount, payloadAtomics, Option.map_eq_some_iff] at hs
      obtain ⟨_, ⟨_, ⟨r, hload, rfl⟩, rfl⟩, hc⟩ := hs
      obtain ⟨msg, hmsg, hvalue, _⟩ := ViewMemory.load_some hload
      -- the count is the true one, and nothing popped is on its way
      have hcount := hI.newest_count hmsg
      have hpushed := hI.pushed_eq
      have hpopped := hI.popped_eq
      rw [hpolling, hpc] at hpopped
      simp only [CheckPc.holding, ReadPc.unreturned, List.length_nil] at hpopped
      have hsome : Words.exact.toUnsigned r.1 ≠ 0 := by
        rw [hvalue, hcount]
        omega
      rw [if_neg hsome] at hc
      obtain ⟨rfl, _⟩ := Prod.mk.inj hc
      exact absurd hpc' (by simp)

/-- **The helpful thread has not left its loop**, unless both have. -/
theorem helpful_stays (hI : LoopsInv b T base n_items size storage tr s)
    (hnot : ¬ ∀ side, s.Left n_items side) : ¬ s.Left n_items s.helpful := by
  have hpushed := hI.pushed_eq
  have hle := hI.payload.pushed_le.length_le
  rw [List.length_map, List.length_range] at hle
  unfold PayloadState.helpful
  by_cases hlead : s.received < s.pushed
  · rw [if_pos hlead]
    rintro ⟨_, _, hall⟩
    omega
  · rw [if_neg hlead]
    rintro ⟨hidle, hall⟩
    apply hnot
    -- everything was pushed, so everything was received
    have hreceived : n_items ≤ s.received := by
      have hun : s.pushed = s.i := by
        unfold PayloadState.pushed
        rw [hidle]
        rfl
      omega
    have hpolling : s.pc = .polling := by
      have htotal := hI.payload.received_items.2
      rw [hI.payload.received_eq] at htotal
      cases hpc : s.pc with
      | polling => rfl
      | compare pointer checks | other pointer x check field f checks =>
          rw [hpc] at htotal
          simp only [CheckPc.holding, List.length_singleton] at htotal
          omega
    have hcons : s.fifo.cons.pc = .idle := by
      by_contra hbusy
      have hmissing := hI.missing hbusy
      omega
    intro side
    cases side with
    | producer => exact ⟨hidle, hall⟩
    | consumer => exact ⟨hpolling, hcons, hreceived⟩

end LoopsInv

/-! ## §5. Polling and getting ahead. -/

/-- Polling pushes nothing. -/
theorem WritePoll.unreturned {pc pc' : WritePc} (h : WritePoll pc pc') :
    pc.unreturned = pc'.unreturned := by
  cases h <;> rfl

/-- The states of a test that a run leads to. -/
def PayloadReached (b : Bool) (T : PayloadTest) (base n_items size : Nat) (storage : Nat → Ptr)
    (s : PayloadState) : Prop :=
  ∃ turns tr, payloadRun T (releaseAcquire b) base n_items size storage turns = some (s, tr)

namespace PayloadReached

variable {b : Bool} {T : PayloadTest} {base n_items size : Nat} {storage : Nat → Ptr}
  {s : PayloadState} {side : Side} {wish : Nat}

theorem inv (hbase : 0 < base) (h : PayloadReached b T base n_items size storage s) :
    ∃ tr, LoopsInv b T base n_items size storage tr s := by
  obtain ⟨turns, tr, hrun⟩ := h
  exact ⟨tr, LoopsInv.run hbase hrun⟩

/-- What a turn is, unless it is let pass. -/
theorem turn_cases (hbase : 0 < base) (h : PayloadReached b T base n_items size storage s)
    (side : Side) (wish : Nat) :
    (s.Left n_items side
        ∧ payloadTurn T (releaseAcquire b) base n_items s (side, wish) = s)
      ∨ ∃ e, payloadStep T (releaseAcquire b) base n_items s (side, s.timeFor side wish)
          = some (payloadTurn T (releaseAcquire b) base n_items s (side, wish), e) := by
  obtain ⟨tr, hI⟩ := h.inv hbase
  by_cases hleft : s.Left n_items side
  · exact .inl ⟨hleft, payloadTurn_left hleft⟩
  · exact .inr (payloadTurn_step hI.grounded hleft)

/-- Turns lead from one such state to another. -/
theorem turn (hbase : 0 < base) (h : PayloadReached b T base n_items size storage s)
    (side : Side) (wish : Nat) :
    PayloadReached b T base n_items size storage
      (payloadTurn T (releaseAcquire b) base n_items s (side, wish)) := by
  rcases h.turn_cases hbase side wish with ⟨_, hsame⟩ | ⟨e, hs⟩
  · rw [hsame]
    exact h
  · obtain ⟨turns, tr, hrun⟩ := h
    exact ⟨turns ++ [(side, s.timeFor side wish)], tr ++ [e],
      run_snoc.mpr ⟨_, _, _, hrun, hs, rfl⟩⟩

/-- No turn takes back a step that lasts. -/
theorem grows (hbase : 0 < base) (h : PayloadReached b T base n_items size storage s)
    (side : Side) (wish : Nat) :
    s.made T ≤ (payloadTurn T (releaseAcquire b) base n_items s (side, wish)).made T := by
  obtain ⟨tr, hI⟩ := h.inv hbase
  rcases h.turn_cases hbase side wish with ⟨_, hsame⟩ | ⟨e, hs⟩
  · rw [hsame]
  · cases side with
    | producer =>
        obtain ⟨_, _, hmore | hpoll⟩ := hI.fill_turn hbase hs
        · exact hmore.le
        · exact hpoll.made.ge
    | consumer =>
        obtain ⟨_, _, hmore | hpoll⟩ := hI.check_turn hs
        · exact hmore.le
        · exact hpoll.made.ge

/-- **A turn of polling** makes nobody else helpful, and gets only the
thread that takes it ahead. -/
theorem stands (hbase : 0 < base) (h : PayloadReached b T base n_items size storage s)
    {s' : PayloadState}
    (hs' : payloadTurn T (releaseAcquire b) base n_items s (side, wish) = s')
    (hmade : s'.made T = s.made T) :
    s'.helpful = s.helpful
      ∧ s'.fifo.mem.newestTime (.fifo .n) = s.fifo.mem.newestTime (.fifo .n)
      ∧ (side ≠ s.helpful → s'.ahead s'.helpful = s.ahead s.helpful) := by
  obtain ⟨tr, hI⟩ := h.inv hbase
  rcases h.turn_cases hbase side wish with ⟨_, hsame⟩ | ⟨e, hs⟩
  · rw [← hs', hsame]
    exact ⟨rfl, rfl, fun _ => rfl⟩
  · rw [hs'] at hs
    cases side with
    | producer =>
        obtain ⟨hcons, hreceived, hmore | hpoll⟩ := hI.fill_turn hbase hs
        · exact absurd hmade (Nat.ne_of_gt hmore)
        · have hhelp : s'.helpful = s.helpful := by
            unfold PayloadState.helpful PayloadState.pushed
            rw [hreceived, hpoll.item, hpoll.poll.unreturned]
          refine ⟨hhelp, ?_, ?_⟩
          · unfold ViewMemory.newestTime
            rw [hpoll.count]
          · intro hne
            rw [hhelp]
            cases hside : s.helpful with
            | producer => exact absurd hside.symm hne
            | consumer => exact congrArg (fun c => c.pc.ahead) hcons
    | consumer =>
        obtain ⟨hprod, hi, hmore | hpoll⟩ := hI.check_turn hs
        · exact absurd hmade (Nat.ne_of_gt hmore)
        · have hhelp : s'.helpful = s.helpful := by
            unfold PayloadState.helpful PayloadState.pushed
            rw [hpoll.received, hi, hprod]
          refine ⟨hhelp, ?_, ?_⟩
          · unfold ViewMemory.newestTime
            rw [hpoll.count]
          · intro hne
            rw [hhelp]
            cases hside : s.helpful with
            | producer => exact congrArg (fun p => p.pc.ahead) hprod
            | consumer => exact absurd hside.symm hne

/-- **A turn of the helpful thread** gets it ahead, if it is ready for the
newest count. -/
theorem helps (hbase : 0 < base) (hsize : 0 < size)
    (h : PayloadReached b T base n_items size storage s)
    {s' : PayloadState}
    (hs' : payloadTurn T (releaseAcquire b) base n_items s (side, wish) = s')
    (hnot : ¬ ∀ side, s.Left n_items side) (hmade : s'.made T = s.made T)
    (hside : side = s.helpful) (hwish : s.fifo.mem.newestTime (.fifo .n) ≤ wish) :
    s'.ahead s'.helpful < s.ahead s.helpful := by
  rw [(h.stands hbase hs' hmade).1]
  obtain ⟨tr, hI⟩ := h.inv hbase
  rcases h.turn_cases hbase side wish with ⟨hleft, _⟩ | ⟨e, hs⟩
  · rw [hside] at hleft
    exact absurd hleft (hI.helpful_stays hnot)
  · rw [hs'] at hs
    rw [← hside]
    cases side with
    | producer =>
        have hall : s.pushed ≤ s.received := by
          by_contra hlead
          unfold PayloadState.helpful at hside
          rw [if_pos (Nat.lt_of_not_le hlead)] at hside
          exact Side.noConfusion hside
        obtain ⟨_, _, hmore | hpoll⟩ := hI.fill_turn hbase hs
        · exact absurd hmade (Nat.ne_of_gt hmore)
        · exact hI.fill_newest hsize hall hwish hs hpoll.poll
    | consumer =>
        have hlead : s.received < s.pushed := by
          by_contra hall
          unfold PayloadState.helpful at hside
          rw [if_neg hall] at hside
          exact Side.noConfusion hside
        obtain ⟨_, _, hmore | hpoll⟩ := hI.check_turn hs
        · exact absurd hmade (Nat.ne_of_gt hmore)
        · exact hI.check_newest hlead hwish hpoll.polling hs hpoll.poll

/-- The progress of a test. -/
def advance (hbase : 0 < base) (hsize : 0 < size) :
    Advance (payloadTurn T (releaseAcquire b) base n_items)
      (PayloadReached b T base n_items size storage) (fun s => ∀ side, s.Left n_items side) where
  made := PayloadState.made T
  bound := (n_items + 1) * (T.fill.length + 5) + (n_items + 2) * (2 * T.checks.length + 6)
  helpful := PayloadState.helpful
  newest s := s.fifo.mem.newestTime (.fifo .n)
  ahead s := s.ahead s.helpful
  bounded s h := by
    obtain ⟨tr, hI⟩ := h.inv hbase
    exact hI.made_le
  grows s t h := h.grows hbase t.1 t.2
  stands s t h hmade := h.stands hbase rfl hmade
  helps s t h hnot hmade hside hwish := h.helps hbase hsize rfl hnot hmade hside hwish
  keep s t h := h.turn hbase t.1 t.2

end PayloadReached

/-- A test after `k` turns. -/
abbrev payloadAfter (T : PayloadTest) (o : Order) (base n_items size : Nat) (storage : Nat → Ptr)
    (turns : Nat → Side × Nat) (k : Nat) : PayloadState :=
  afterTurns (payloadTurn T o base n_items) (payloadInit T size storage) turns k

/-! ## §6. A consumer that is shown nothing. -/

section Unseen

variable {T : PayloadTest} {o : Order} {base n_items : Nat} {s s' : PayloadState} {e : Event}
  {time : Nat}

/-- A write tells the consumer nothing, as long as it does not look. -/
theorem Transition.write_unseen {c c' : Config PayloadMem} {w : WriteEvent}
    (h : Transition (payloadAtomics o .exact) .exact c (.prod w) c') :
    c'.cons = c.cons ∧ c'.mem.view .consumer = c.mem.view .consumer
      ∧ c.mem.hist (.fifo .n) <+: c'.mem.hist (.fifo .n) := by
  cases h with
  | callNull | call | indexWrite | retWrite => exact ⟨rfl, rfl, List.prefix_refl _⟩
  | full hpc hread | room hpc hread =>
      obtain ⟨_, _, _, _, hhist, _⟩ := ViewMemory.load_some hread
      refine ⟨rfl, ViewMemory.view_load_other (by simp) hread, ?_⟩
      show _ <+: ViewMemory.hist _ _
      rw [hhist]
  | @store pointer _ _ hpc hwrite =>
      obtain rfl := Option.some.inj hwrite
      have ht : Thread.consumer ≠ .producer := by simp
      have hl : Place.fifo .n ≠ .fifo (.slot c.prod.write) := by simp
      have hkeep := c.mem.store_other_thread false ht hl pointer
      refine ⟨rfl, hkeep.1, ?_⟩
      show _ <+: (c.mem.store false _ _ _).hist _
      rw [hkeep.2]
  | increment ch hpc =>
      exact ⟨rfl, ViewMemory.modify_other_thread (l := Place.fifo .n) _ _ (by simp) _ _⟩

/-- What the producer does, as long as the consumer does not look. -/
theorem fill_unseen (h : fillStep T o base n_items s time = some (s', e)) :
    (s'.fifo.cons = s.fifo.cons ∧ s'.fifo.mem.view .consumer = s.fifo.mem.view .consumer
        ∧ s.fifo.mem.hist (.fifo .n) <+: s'.fifo.mem.hist (.fifo .n))
      ∧ s'.pc = s.pc ∧ s'.received = s.received := by
  have hfifo {a : Action Nat} {w : WriteEvent} {c : Config PayloadMem}
      (hs : step (payloadAtomics o .exact) .exact s.fifo a = some (c, .prod w)) :
      (c.cons = s.fifo.cons ∧ c.mem.view .consumer = s.fifo.mem.view .consumer
          ∧ s.fifo.mem.hist (.fifo .n) <+: c.mem.hist (.fifo .n))
        ∧ (s.after T (.prod w)).pc = s.pc ∧ (s.after T (.prod w)).received = s.received := by
    refine ⟨(step_transition hs).write_unseen, ?_, PayloadState.after_received T s _⟩
    cases w with
    | ret pointer rval =>
        show (if rval = -1 then s else _).pc = _
        split <;> rfl
    | _ => rfl
  by_cases hidle : s.fifo.prod.pc = .idle
  · unfold fillStep at h
    rw [if_pos hidle] at h
    split at h
    next =>
      split at h
      next field todo htodo =>
        obtain ⟨rfl, rfl⟩ := Prod.mk.inj (Option.some.inj h)
        have ht : Thread.consumer ≠ .producer := by simp
        have hl : Place.fifo .n ≠ .cell (T.item base s.i) field := by simp
        have hkeep := s.fifo.mem.store_other_thread false ht hl (T.value field s.i)
        refine ⟨⟨rfl, hkeep.1, ?_⟩, rfl, rfl⟩
        show _ <+: (s.fifo.mem.store false _ _ _).hist _
        rw [hkeep.2]
      next =>
        obtain ⟨c, hs, rfl⟩ := fifoStep_some h
        obtain rfl := step_callWrite_event hs
        exact hfifo hs
    next => exact absurd h (by simp)
  · rw [fillStep_busy hidle] at h
    obtain ⟨c, hs, rfl⟩ := fifoStep_some h
    obtain ⟨w, rfl⟩ := step_prod_event hs
    exact hfifo hs

end Unseen

/-- A consumer that polls, and knows of no count but the first. -/
structure Blind (s : PayloadState) : Prop where
  polling : s.pc = .polling
  reading : s.fifo.cons.pc = .idle ∨ s.fifo.cons.pc = .getCount ∨ s.fifo.cons.pc = .ret NULL
  nothing : s.received = 0
  unseen : s.fifo.mem.view .consumer (.fifo .n) = 0
  first : (s.fifo.mem.hist (.fifo .n))[0]? = some ⟨(0 : Int), fun _ => 0⟩

namespace Blind

variable {T : PayloadTest} {o : Order} {base n_items : Nat} {s s' : PayloadState} {e : Event}

theorem fill (hB : Blind s) {time : Nat}
    (h : fillStep T o base n_items s time = some (s', e)) : Blind s' := by
  obtain ⟨⟨hcons, hview, hhist⟩, hpc, hreceived⟩ := fill_unseen h
  refine ⟨hpc.trans hB.polling, ?_, hreceived.trans hB.nothing, ?_,
    getElem?_of_prefix hhist hB.first⟩
  · rw [hcons]
    exact hB.reading
  · rw [hview]
    exact hB.unseen

theorem check (hB : Blind s)
    (h : checkStep T o n_items s (s.timeFor .consumer 0) = some (s', e)) : Blind s' := by
  obtain ⟨hpolling, hreading, hnothing, hunseen, hfirst⟩ := hB
  rcases hreading with hpc | hpc | hpc
  · unfold checkStep at h
    simp only [hpolling, if_pos hpc] at h
    split at h
    next =>
      obtain ⟨c, hs, rfl⟩ := fifoStep_some h
      simp only [step, enterRead, if_pos hpc, Option.map_some, Option.some.injEq,
        Prod.mk.injEq] at hs
      obtain ⟨rfl, rfl⟩ := hs
      exact ⟨hpolling, .inr (.inl rfl), hnothing, hunseen, hfirst⟩
    next => exact absurd h (by simp)
  · -- it gets the first count again, which is 0
    have htime : s.timeFor .consumer 0 = 0 := by
      have hp : s.loadsFrom .consumer = some (.fifo .n) := by
        simp [PayloadState.loadsFrom, hpolling, hpc]
      unfold PayloadState.timeFor
      rw [hp]
      show min _ (max (s.fifo.mem.view .consumer (.fifo .n)) 0) = 0
      rw [hunseen]
      exact Nat.min_zero _
    rw [htime, checkStep_busy hpolling (by simp [hpc])] at h
    obtain ⟨c, hs, rfl⟩ := fifoStep_some h
    simp only [step, readStep, hpc, getCount, payloadAtomics, Option.map_eq_some_iff] at hs
    obtain ⟨_, ⟨_, ⟨r, hload, rfl⟩, rfl⟩, hc⟩ := hs
    obtain ⟨hzero, hview⟩ := ViewMemory.view_load_first hunseen hfirst hload
    obtain ⟨_, _, _, _, hhist, _⟩ := ViewMemory.load_some hload
    have hcount : Words.exact.toUnsigned r.1 = 0 := by
      rw [hzero]
      rfl
    rw [if_pos hcount] at hc
    obtain ⟨rfl, rfl⟩ := Prod.mk.inj hc
    refine ⟨hpolling, .inr (.inr rfl), hnothing, hview, ?_⟩
    show (r.2.hist _)[0]? = _
    rw [hhist]
    exact hfirst
  · rw [checkStep_busy hpolling (by simp [hpc])] at h
    obtain ⟨c, hs, rfl⟩ := fifoStep_some h
    simp only [step, readStep, hpc, Option.map_some, Option.some.injEq, Prod.mk.injEq] at hs
    obtain ⟨rfl, rfl⟩ := hs
    exact ⟨hpolling, .inl rfl, hnothing, hunseen, hfirst⟩

/-- It stays blind for as long as it is ready for nothing newer. -/
theorem turn (hB : Blind s) {turn : Side × Nat} (hwish : turn.1 = .consumer → turn.2 = 0) :
    Blind (payloadTurn T o base n_items s turn) := by
  obtain ⟨side, wish⟩ := turn
  cases h : payloadStep T o base n_items s (side, s.timeFor side wish) with
  | none =>
      unfold payloadTurn
      rw [h]
      exact hB
  | some r =>
      obtain ⟨s', e⟩ := r
      rw [payloadTurn_some h]
      cases side with
      | producer => exact hB.fill h
      | consumer =>
          obtain rfl : wish = 0 := hwish rfl
          exact hB.check h

end Blind

/-! ## §7. The theorem. -/

/-- **A consumer that has left its loop** has received and checked every item. -/
theorem consumer_left {b : Bool} {T : PayloadTest} {base n_items size : Nat}
    {storage : Nat → Ptr} {tr : List Event} {s : PayloadState}
    (hP : PayloadInv b T base n_items size storage tr s) (h : s.Left n_items .consumer) :
    received tr = (List.range n_items).map (T.item base) ∧ s.received = n_items
      ∧ s.expect = n_items := by
  obtain ⟨hpolling, _, hall⟩ := h
  obtain ⟨hitems, hle⟩ := hP.received_items
  have hlen := hP.received_eq
  have hexpect := hP.checks
  rw [hpolling] at hlen hexpect
  change (received tr).length = s.received at hlen
  change s.expect = s.received at hexpect
  have hcount : s.received = n_items := by omega
  rw [hlen, hcount] at hitems
  rw [hcount] at hexpect
  exact ⟨hitems, hcount, hexpect⟩

/-- **THE TESTS END, AND END WELL.**  Let the loads of `n` acquire and its
updates release.  However the two threads take turns, and however old the
messages that the memory gives them: as long as each gets a turn again and
again, and no message is withheld from it for ever, from some turn on both
have left their loops, every item was received, in order, and nothing was
found corrupt.  A consumer that is only ever ready for the first count
receives nothing.  (And no run of a test is lost by looking at turns: it is
the beginning of some.) -/
theorem payload_tests_complete (T : PayloadTest) (o : Order) (ho : o.Publishes)
    (base n_items size : Nat) (storage : Nat → Ptr) (hbase : 0 < base) (hsize : 0 < size)
    (turns : Nat → Side × Nat) :
    (∀ as s tr, payloadRun T o base n_items size storage as = some (s, tr) →
        (∀ j (hj : j < as.length), turns j = as[j]) →
          payloadAfter T o base n_items size storage turns as.length = s)
      ∧ ((∀ j, (turns j).1 = .consumer → (turns j).2 = 0) →
          ∀ j, (payloadAfter T o base n_items size storage turns j).received = 0)
      ∧ (Fair (fun k => (turns k).1) → Attended turns → ∃ k, ∀ j ≥ k, ∃ s as tr,
          payloadAfter T o base n_items size storage turns j = s
            ∧ payloadRun T o base n_items size storage as = some (s, tr)
            ∧ (∀ side, s.Left n_items side)
            ∧ received tr = (List.range n_items).map (T.item base)
            ∧ s.corrupt = 0 ∧ s.received = n_items ∧ s.expect = n_items) := by
  refine ⟨?_, ?_, ?_⟩
  · intro as s tr h hbegin
    exact afterTurns_run (fun _ _ _ _ hs => payloadTurn_of_step hs) h hbegin
  · intro hold j
    have hblind : Blind (payloadAfter T o base n_items size storage turns j) := by
      induction j with
      | zero => exact ⟨rfl, .inl rfl, rfl, rfl, rfl⟩
      | succ j ih => exact ih.turn (hold j)
    exact hblind.nothing
  · intro hfair hseen
    rw [ho.eq_releaseAcquire]
    have h0 : PayloadReached o.updateAcquires T base n_items size storage
        (payloadInit T size storage) := ⟨[], [], rfl⟩
    have A : Advance (payloadTurn T (releaseAcquire o.updateAcquires) base n_items)
        (PayloadReached o.updateAcquires T base n_items size storage)
        (fun s => ∀ side, s.Left n_items side) := PayloadReached.advance hbase hsize
    obtain ⟨k, hdone⟩ := A.eventually_done h0 hfair hseen
    obtain ⟨as, tr, hrun⟩ : PayloadReached o.updateAcquires T base n_items size storage _ :=
      afterTurns_keep h0 A.keep k
    have hP := payloadRun_inv hbase hrun
    obtain ⟨hitems, hcount, hexpect⟩ := consumer_left hP (hdone .consumer)
    refine ⟨k, fun j hj => ⟨_, as, tr, ?_, hrun, hdone, hitems, hP.correct, hcount, hexpect⟩⟩
    -- who has left its loop stays out
    exact afterTurns_stay hj fun turn => payloadTurn_left (hdone turn.1)

/-- Turn by turn, each thread ready for one more message every eight turns. -/
def laggingTurns (k : Nat) : Side × Nat :=
  (if k % 2 = 0 then .producer else .consumer, k / 8)

/-- Three items through two slots arrive, however late the counts. -/
theorem laggingTurns_complete :
    ∃ k, ∀ j ≥ k, ∃ s,
      payloadAfter stress (releaseAcquire false) 64 3 2 (fun _ => 77) laggingTurns j = s
        ∧ s.received = 3 ∧ s.corrupt = 0 := by
  have hfair : Fair fun k => (laggingTurns k).1 := by
    intro side k
    cases side with
    | producer =>
        refine ⟨k % 2, ?_⟩
        simp only [laggingTurns, ite_eq_left_iff]
        omega
    | consumer =>
        refine ⟨1 - k % 2, ?_⟩
        simp only [laggingTurns, ite_eq_right_iff]
        omega
  have hseen : Attended laggingTurns := by
    intro side time
    refine ⟨8 * time, fun j hj _ => ?_⟩
    show time ≤ j / 8
    omega
  have ho : (releaseAcquire false).Publishes := by decide
  obtain ⟨k, hk⟩ := (payload_tests_complete stress _ ho 64 3 2 (fun _ => 77) (by decide)
    (by decide) laggingTurns).2.2 hfair hseen
  refine ⟨k, fun j hj => ?_⟩
  obtain ⟨s, _, _, hs, _, _, _, hcorrupt, hreceived, _⟩ := hk j hj
  exact ⟨s, hs, hreceived, hcorrupt⟩

end MulleFifo
