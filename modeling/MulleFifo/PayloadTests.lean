/-
  MulleFifo.PayloadTests — why the publication tests print "0 corrupt".

  The payloads are plain memory: nothing but the counter `n` synchronises
  the thread that fills them in with the thread that checks them.  What has
  to be shown is that what the producer knows travels:

      stores of item k → increment → count that counts it → empty check

    • `KnowsItems` — a view that knows the stores of all items below a
      count.  An increment passes it on for its own item, every later count
      carries it (`PayloadInv.carries`), and the consumer's empty check
      acquires it for the item it is about to get (`PayloadInv.next`),
    • so each plain load of a field has ONE message left to return, and the
      checks of every item pass, in the order of the items,
    • where the order of the accesses to `n` does not publish, the same
      tests find a corrupt item (`corrupted`).
-/
import MulleFifo.Model.Payload
import MulleFifo.Relaxed

namespace MulleFifo

open Lib

/-! ## §1. Knowing payloads. -/

/-- The view knows the stores to the payloads of the items below `count`. -/
def KnowsItems (T : PayloadTest) (base : Nat) (view : View Place) (count : Nat) : Prop :=
  ∀ j < count, ∀ field ∈ T.fill, 1 ≤ view (.cell (T.item base j) field)

theorem KnowsItems.mono {T : PayloadTest} {base count count' : Nat} {view view' : View Place}
    (h : KnowsItems T base view count) (hview : view ≤ view') (hcount : count' ≤ count) :
    KnowsItems T base view' count' := by
  intro j hj field hfield
  exact (h j (hj.trans_le hcount) field hfield).trans (hview _)

/-- Different items lie at different addresses. -/
theorem PayloadTest.item_inj (T : PayloadTest) {base i j : Nat}
    (h : T.item base i = T.item base j) : i = j := by
  unfold PayloadTest.item at h
  exact Nat.eq_of_mul_eq_mul_right T.sizeof_pos (Nat.add_left_cancel h)

theorem PayloadTest.item_ne (T : PayloadTest) {base : Nat} (hbase : 0 < base) (i : Nat) :
    T.item base i ≠ NULL := by
  show base + i * T.sizeof ≠ 0
  omega

/-- Field `field` of item `j` has been filled in. -/
def PayloadState.Filled (s : PayloadState) (j : Nat) (field : Field) : Prop :=
  j < s.i ∨ (j = s.i ∧ field ∉ s.todo)

/-- What the payloads of the items hold, and what the producer knows of it. -/
structure CellsInv (T : PayloadTest) (base : Nat) (s : PayloadState) : Prop where
  filled : ∀ j, ∀ field ∈ T.fill, s.Filled j field →
    (s.fifo.mem.hist (.cell (T.item base j) field)).map (·.value) = [0, T.value field j]
  known : ∀ j, ∀ field ∈ T.fill, s.Filled j field →
    1 ≤ s.fifo.mem.view .producer (.cell (T.item base j) field)
  blank : ∀ j, ∀ field ∈ T.fill, ¬ s.Filled j field →
    (s.fifo.mem.hist (.cell (T.item base j) field)).map (·.value) = [0]

/-- The pointer of the payload in check. -/
@[simp] def CheckPc.holding : CheckPc → List Ptr
  | .polling => []
  | .compare pointer _ | .other pointer _ _ _ _ _ => [pointer]

/-- Without a payload in check the consumer polls. -/
theorem CheckPc.polling_of_holding {pc : CheckPc} (h : pc.holding = []) : pc = .polling := by
  cases pc with
  | polling => rfl
  | _ => simp at h

/-- The checks of item `k` that are still to be made pass from `expect` on. -/
def CheckPc.Ok (T : PayloadTest) (k : Nat) (expect : Int) : CheckPc → Prop
  | .polling => expect = k
  | .compare _ checks => checks <:+ T.checks
      ∧ (passAll (fun field => T.value field k) checks expect).map T.atEnd = some (k + 1)
  | .other _ x check field f checks => check.against = .field field f
      ∧ x = T.value check.field k ∧ (check :: checks) <:+ T.checks
      ∧ (passAll (fun field => T.value field k) (check :: checks) expect).map T.atEnd
          = some (k + 1)

/-! ## §2. The invariant. -/

/-- A test after the trace `tr`. -/
structure PayloadInv (b : Bool) (T : PayloadTest) (base n_items size : Nat) (storage : Nat → Ptr)
    (tr : List Event) (s : PayloadState) : Prop where
  run : ∃ as, raRun (releaseAcquire b) size storage as = some (s.fifo.seen fifoPart, tr)
  -- the producer's loop
  i_le : s.i ≤ n_items
  accepted_eq : accepted tr = (List.range s.i).map (T.item base)
  current : ∀ pointer ∈ s.fifo.prod.pc.current,
    pointer = T.item base s.i ∧ s.todo = [] ∧ s.i < n_items
  todo_le : s.todo <:+ T.fill
  cells : CellsInv T base s
  -- what travels through the counter
  carries : ∀ time msg, (s.fifo.mem.hist (.fifo .n))[time]? = some msg →
    KnowsItems T base msg.view (pushesAt tr time)
  next : KnowsItems T base (s.fifo.mem.view .consumer) (granted tr).length
  -- the consumer's loop
  busy : s.pc ≠ .polling → s.fifo.cons.pc = .idle
  holding : ∀ pointer ∈ s.pc.holding, pointer = T.item base s.received
  received_eq : (received tr).length = s.received + s.pc.holding.length
  checks : s.pc.Ok T s.received s.expect
  correct : s.corrupt = 0

namespace PayloadInv

variable {b : Bool} {T : PayloadTest} {base n_items size : Nat} {storage : Nat → Ptr}
  {tr : List Event} {s s' : PayloadState} {e : Event}

theorem init (b : Bool) (T : PayloadTest) (base n_items size : Nat) (storage : Nat → Ptr) :
    PayloadInv b T base n_items size storage [] (payloadInit T size storage) where
  run := ⟨[], by rw [payloadInit_seen]; rfl⟩
  i_le := Nat.zero_le _
  accepted_eq := rfl
  current pointer h := absurd h (by simp [payloadInit])
  todo_le := List.suffix_refl _
  cells := by
    have hblank (j : Nat) (field : Field) (hfield : field ∈ T.fill) :
        ¬ (payloadInit T size storage).Filled j field := by
      rintro (hlt | ⟨_, hnot⟩)
      · exact Nat.not_lt_zero j hlt
      · exact hnot hfield
    refine ⟨?_, ?_, ?_⟩
    · intro j field hfield h
      exact absurd h (hblank j field hfield)
    · intro j field hfield h
      exact absurd h (hblank j field hfield)
    · intro j field _ _
      rfl
  carries time msg _ j hj := absurd hj (by simp [pushesAt, updates])
  next j hj := absurd hj (by simp [granted])
  busy h := absurd rfl h
  holding pointer h := absurd h (by simp [payloadInit])
  received_eq := rfl
  checks := rfl
  correct := rfl

/-- The invariant of the FIFO. -/
theorem ra (hP : PayloadInv b T base n_items size storage tr s) :
    RaInv size storage tr (s.fifo.seen fifoPart) := by
  obtain ⟨as, h⟩ := hP.run
  exact raRun_inv h

/-- The items are pushed in order. -/
theorem pushed_le (hP : PayloadInv b T base n_items size storage tr s) :
    pushed tr <+: (List.range n_items).map (T.item base) := by
  have heq : pushed tr = accepted tr ++ s.fifo.prod.pc.unreturned := hP.ra.producer.pushed_eq
  have hle : (List.range s.i).map (T.item base) <+: (List.range n_items).map (T.item base) := by
    have htake : List.range s.i = (List.range n_items).take s.i := by
      rw [List.take_range, Nat.min_eq_left hP.i_le]
    rw [htake, List.map_take]
    exact List.take_prefix _ _
  rw [hP.accepted_eq] at heq
  by_cases hun : s.fifo.prod.pc.unreturned = []
  · rw [heq, hun, List.append_nil]
    exact hle
  · -- the item that is about to be returned for
    obtain ⟨pointer, hone, hcur⟩ : ∃ pointer, s.fifo.prod.pc.unreturned = [pointer]
        ∧ pointer ∈ s.fifo.prod.pc.current := by
      cases hpc : s.fifo.prod.pc with
      | ret pointer rval =>
          by_cases hrval : rval = 0
          · exact ⟨pointer, by simp [hrval], by simp⟩
          · exact absurd (by simp [hpc, hrval]) hun
      | _ => exact absurd (by simp [hpc]) hun
    obtain ⟨hitem, _, hlt⟩ := hP.current pointer hcur
    rw [heq, hone, hitem]
    refine prefix_snoc hle ?_
    simp [hlt]

/-- What was received is a prefix of what was pushed. -/
theorem received_le (hP : PayloadInv b T base n_items size storage tr s) :
    received tr <+: pushed tr := by
  have hR := hP.ra
  have hpop : popped tr <+: pushed tr := (List.prefix_append _ _).trans hR.taken_le
  refine List.IsPrefix.trans ?_ hpop
  rw [hR.consumer.popped_eq fun pointer hmem =>
    hR.producer.pushed_ne pointer (hpop.subset hmem)]
  exact List.prefix_append _ _

/-- **The items are received in order.** -/
theorem received_items (hP : PayloadInv b T base n_items size storage tr s) :
    received tr = (List.range (received tr).length).map (T.item base)
      ∧ (received tr).length ≤ n_items := by
  have hle := hP.received_le.trans hP.pushed_le
  have hlen : (received tr).length ≤ n_items := by
    have h := hle.length_le
    rw [List.length_map, List.length_range] at h
    exact h
  refine ⟨?_, hlen⟩
  rw [List.prefix_iff_eq_take.mp hle, ← List.map_take, List.take_range]
  simp

/-! ## §3. The loops around a step of the FIFO. -/

/-- **The producer's loop** goes on when its item was accepted. -/
theorem producer_loop (hbase : 0 < base) (hP : PayloadInv b T base n_items size storage tr s)
    {c : Config PayloadMem} {e : Event} {o : Order}
    (h : Transition (payloadAtomics o .exact) .exact s.fifo e c)
    (hwrite : ∀ pointer, e = .prod (.call pointer) →
      pointer = T.item base s.i ∧ s.todo = [] ∧ s.i < n_items) :
    (s.after T e).i ≤ n_items
      ∧ accepted (tr ++ [e]) = (List.range (s.after T e).i).map (T.item base)
      ∧ (∀ pointer ∈ c.prod.pc.current, pointer = T.item base (s.after T e).i
          ∧ (s.after T e).todo = [] ∧ (s.after T e).i < n_items)
      ∧ (s.after T e).todo <:+ T.fill
      ∧ ∀ j, ∀ field ∈ T.fill, (s.after T e).Filled j field ↔ s.Filled j field := by
  have hacc := hP.accepted_eq
  have hcur := hP.current
  have hle := hP.i_le
  have htodo := hP.todo_le
  cases h with
  | callNull hpc => exact absurd (hwrite NULL rfl).1.symm (T.item_ne hbase _)
  | @call pointer hpc hp =>
      refine ⟨hle, by simpa [PayloadState.after] using hacc, ?_, htodo, fun _ _ _ => Iff.rfl⟩
      intro pointer' hmem
      obtain rfl : pointer' = pointer := by simpa using hmem
      exact hwrite pointer' rfl
  | full hpc | room hpc | store hpc | indexWrite hpc | increment _ hpc =>
      rw [hpc] at hcur
      exact ⟨hle, by simpa [PayloadState.after] using hacc,
        by simpa [PayloadState.after] using hcur, htodo, fun _ _ _ => Iff.rfl⟩
  | @retWrite pointer rval hpc =>
      rw [hpc] at hcur
      obtain ⟨hitem, hempty, hlt⟩ := hcur pointer (by simp)
      by_cases hrefused : rval = -1
      · -- refused: the same item again
        have hsame : s.after T (.prod (.ret pointer rval)) = s := by
          show (if rval = -1 then s else _) = s
          rw [if_pos hrefused]
        rw [hsame]
        exact ⟨hle, by simpa [hrefused] using hacc, by simp, htodo, fun _ _ _ => Iff.rfl⟩
      · -- accepted: on to the next item
        have hnext : s.after T (.prod (.ret pointer rval))
            = { s with i := s.i + 1, todo := T.fill } := by
          show (if rval = -1 then s else _) = _
          rw [if_neg hrefused]
        have hzero : rval = 0 := by
          rcases hP.ra.producer.ret_ok pointer rval hpc with hnull | hok
          · exact absurd (hitem.symm.trans hnull.1) (T.item_ne hbase _)
          · exact hok.2.resolve_left hrefused
        rw [hnext]
        refine ⟨hlt, ?_, by simp, List.suffix_refl _, ?_⟩
        · rw [accepted_snoc, hacc]
          simp [hzero, List.range_succ, hitem]
        · intro j field hfield
          show (j < s.i + 1 ∨ (j = s.i + 1 ∧ field ∉ T.fill))
            ↔ (j < s.i ∨ (j = s.i ∧ field ∉ s.todo))
          rw [hempty]
          constructor
          · rintro (hnow | ⟨_, hnot⟩)
            · rcases Nat.lt_succ_iff_lt_or_eq.mp hnow with hbefore | hlast
              · exact .inl hbefore
              · exact .inr ⟨hlast, List.not_mem_nil⟩
            · exact absurd hfield hnot
          · rintro (hbefore | ⟨hlast, _⟩)
            · exact .inl (Nat.lt_succ_of_lt hbefore)
            · exact .inl (Nat.lt_succ_of_le (Nat.le_of_eq hlast))
  | @retRead pointer hpc =>
      by_cases hnull : pointer = NULL
      · have hsame : s.after T (.cons (.ret pointer)) = s := by
          show (if pointer = NULL then s else _) = s
          rw [if_pos hnull]
        rw [hsame]
        exact ⟨hle, by simpa using hacc, hcur, htodo, fun _ _ _ => Iff.rfl⟩
      · have hnext : s.after T (.cons (.ret pointer))
            = { s with pc := .compare pointer T.checks } := by
          show (if pointer = NULL then s else _) = _
          rw [if_neg hnull]
        rw [hnext]
        exact ⟨hle, by simpa using hacc, hcur, htodo, fun _ _ _ => Iff.rfl⟩
  | _ =>
      exact ⟨hle, by simpa [PayloadState.after] using hacc, hcur, htodo, fun _ _ _ => Iff.rfl⟩

/-- The pointer a read is about to return is the next item. -/
theorem next_item (hP : PayloadInv b T base n_items size storage tr s) {pointer : Ptr}
    (hpc : s.fifo.cons.pc = .ret pointer) (hne : pointer ≠ NULL) :
    pointer = T.item base (received tr).length := by
  have hR := hP.ra
  have hpop : popped tr <+: pushed tr := (List.prefix_append _ _).trans hR.taken_le
  have hall : popped tr = received tr ++ s.fifo.cons.pc.unreturned :=
    hR.consumer.popped_eq fun pointer hmem => hR.producer.pushed_ne pointer (hpop.subset hmem)
  rw [hpc] at hall
  have hlast : (popped tr)[(received tr).length]? = some pointer := by
    rw [hall]
    simp [hne]
  have hget := getElem?_of_prefix (hpop.trans hP.pushed_le) hlast
  rw [List.getElem?_map, Option.map_eq_some_iff] at hget
  obtain ⟨j, hj, hitem⟩ := hget
  obtain ⟨_, hj⟩ := List.getElem?_eq_some_iff.mp hj
  rw [List.getElem_range] at hj
  rw [← hitem, hj]

/-- **The consumer's loop** gets a payload to check. -/
theorem consumer_loop (hP : PayloadInv b T base n_items size storage tr s)
    {c : Config PayloadMem} {e : Event} {o : Order}
    (h : Transition (payloadAtomics o .exact) .exact s.fifo e c)
    (hread : ∀ r, e = .cons r → s.pc = .polling) :
    ((s.after T e).pc ≠ .polling → c.cons.pc = .idle)
      ∧ (∀ pointer ∈ (s.after T e).pc.holding, pointer = T.item base s.received)
      ∧ (received (tr ++ [e])).length = s.received + (s.after T e).pc.holding.length
      ∧ (s.after T e).pc.Ok T s.received s.expect := by
  have hbusy := hP.busy
  have hhold := hP.holding
  have hrec := hP.received_eq
  have hok := hP.checks
  cases h with
  | callRead hpc | empty hpc | avail hpc | load hpc | indexRead hpc | decrement _ hpc =>
      have hpolling := hread _ rfl
      exact ⟨fun hne => absurd hpolling hne, hhold, by simpa [PayloadState.after] using hrec,
        hok⟩
  | @retRead pointer hpc =>
      have hpolling := hread _ rfl
      by_cases hnull : pointer = NULL
      · have hsame : s.after T (.cons (.ret pointer)) = s := by
          show (if pointer = NULL then s else _) = s
          rw [if_pos hnull]
        rw [hsame]
        exact ⟨fun _ => rfl, hhold, by simpa [hnull] using hrec, hok⟩
      · have hnext : s.after T (.cons (.ret pointer))
            = { s with pc := .compare pointer T.checks } := by
          show (if pointer = NULL then s else _) = _
          rw [if_neg hnull]
        rw [hpolling] at hrec hok
        have hk : (received tr).length = s.received := hrec
        rw [hnext]
        refine ⟨fun _ => rfl, ?_, by simp [hnull, hk], List.suffix_refl _, ?_⟩
        · intro pointer' hmem
          obtain rfl : pointer' = pointer := by simpa using hmem
          rw [← hk]
          exact hP.next_item hpc hnull
        · have hexpect : s.expect = s.received := hok
          rw [hexpect]
          exact T.passes s.received
  | @retWrite pointer rval hpc =>
      by_cases hrefused : rval = -1
      · have hsame : s.after T (.prod (.ret pointer rval)) = s := by
          show (if rval = -1 then s else _) = s
          rw [if_pos hrefused]
        rw [hsame]
        exact ⟨hbusy, hhold, by simpa using hrec, hok⟩
      · have hnext : s.after T (.prod (.ret pointer rval))
            = { s with i := s.i + 1, todo := T.fill } := by
          show (if rval = -1 then s else _) = _
          rw [if_neg hrefused]
        rw [hnext]
        exact ⟨hbusy, hhold, by simpa using hrec, hok⟩
  | _ => exact ⟨hbusy, hhold, by simpa [PayloadState.after] using hrec, hok⟩

/-! ## §4. What travels through the counter. -/

/-- The newest message of `n`. -/
theorem newest (hP : PayloadInv b T base n_items size storage tr s) :
    ∃ last : Message Place Int, (s.fifo.mem.hist (.fifo .n)).getLast? = some last
      ∧ (s.fifo.mem.hist (.fifo .n)).length = (updates tr).length + 1
      ∧ KnowsItems T base last.view (pushed tr).length := by
  have htimes : ((s.fifo.mem.hist (.fifo .n)).map (Message.restrict Place.fifo)).length = _ :=
    hP.ra.history.times
  rw [List.length_map] at htimes
  have hlt : (updates tr).length < (s.fifo.mem.hist (.fifo .n)).length := by omega
  have hget := List.getElem?_eq_getElem hlt
  refine ⟨(s.fifo.mem.hist (.fifo .n))[(updates tr).length], ?_, htimes, ?_⟩
  · rw [List.getLast?_eq_getElem?, htimes, Nat.add_sub_cancel]
    exact hget
  · have hcar := hP.carries _ _ hget
    rw [pushesAt_newest tr (Nat.le_refl _)] at hcar
    exact hcar

/-- One more count, that carries what is known of everything pushed. -/
theorem carries_update (hP : PayloadInv b T base n_items size storage tr s) {m : PayloadMem}
    {e : Event} {u : Bool} {x : Int} {v : View Place}
    (hhist : m.hist = Function.update s.fifo.mem.hist (.fifo .n)
      (s.fifo.mem.hist (.fifo .n) ++ [⟨x, v⟩]))
    (hup : updates (tr ++ [e]) = updates tr ++ [u])
    (hv : KnowsItems T base v (pushed (tr ++ [e])).length) {time : Nat}
    {msg : Message Place Int} (hmsg : (m.hist (.fifo .n))[time]? = some msg) :
    KnowsItems T base msg.view (pushesAt (tr ++ [e]) time) := by
  obtain ⟨_, _, htimes, _⟩ := hP.newest
  rw [hhist, Function.update_self] at hmsg
  rcases getElem?_snoc hmsg with hold | ⟨rfl, rfl⟩
  · have hlt := (List.getElem?_eq_some_iff.mp hold).1
    rw [pushesAt_snoc tr e (by omega)]
    exact hP.carries time msg hold
  · rw [pushesAt_newest _ (by rw [hup, htimes]; simp)]
    exact hv

/-- **An increment passes on the stores to its item's payload**, and every
update carries on what was passed on before. -/
theorem carries_step (hP : PayloadInv b T base n_items size storage tr s)
    {c : Config PayloadMem} {e : Event}
    (h : Transition (payloadAtomics (releaseAcquire b) .exact) .exact s.fifo e c) {time : Nat}
    {msg : Message Place Int} (hmsg : (c.mem.hist (.fifo .n))[time]? = some msg) :
    KnowsItems T base msg.view (pushesAt (tr ++ [e]) time) := by
  obtain ⟨last, hlast, _, hcar⟩ := hP.newest
  by_cases hup : e.update? = none
  · have hsame : updates (tr ++ [e]) = updates tr := by
      rw [updates_snoc, hup, Option.toList_none, List.append_nil]
    rw [h.payload_hist (by simp) (.inl hup)] at hmsg
    rw [pushesAt_congr hsame]
    exact hP.carries time msg hmsg
  · cases h with
    | @increment pointer ch hpc =>
        obtain ⟨v, hhist, _, hrel, _⟩ :=
          ViewMemory.modify_spec b true Thread.producer Words.exact.increment hlast
        refine hP.carries_update (u := true) hhist (by simp) ?_ hmsg
        -- all fields of the item that is pushed were filled in
        obtain ⟨_, htodo, _⟩ := hP.current pointer (by simp [hpc])
        have hlen : (pushed tr).length = s.i := by
          have heq : pushed tr = accepted tr ++ s.fifo.prod.pc.unreturned :=
            hP.ra.producer.pushed_eq
          rw [hpc, hP.accepted_eq] at heq
          simp [heq]
        intro j hj field hfield
        have hfilled : s.Filled j field := by
          have hle : j ≤ s.i := by
            rw [pushed_snoc, List.length_append, hlen] at hj
            exact Nat.lt_succ_iff.mp hj
          rcases Nat.lt_or_eq_of_le hle with hlt | heq
          · exact .inl hlt
          · exact .inr ⟨heq, by simp [htodo]⟩
        exact (hP.cells.known j field hfield hfilled).trans (hrel rfl _)
    | decrement ch hpc =>
        obtain ⟨v, hhist, hcarry, _⟩ :=
          ViewMemory.modify_spec b true Thread.consumer Words.exact.decrement hlast
        refine hP.carries_update (u := false) hhist (by simp) ?_ hmsg
        -- the release sequence goes on
        simpa using hcar.mono hcarry (Nat.le_refl _)
    | _ => exact absurd rfl hup

/-- **The empty check acquires** what is known of the item it finds. -/
theorem next_step (hP : PayloadInv b T base n_items size storage tr s)
    {c : Config PayloadMem} {e : Event}
    (h : Transition (payloadAtomics (releaseAcquire b) .exact) .exact s.fifo e c) :
    KnowsItems T base (c.mem.view .consumer) (granted (tr ++ [e])).length := by
  have hkeep := hP.next.mono (h.payload_view_le .consumer) (Nat.le_refl _)
  have hR := hP.ra
  cases h with
  | @avail time _ _ hpc hread hz =>
      obtain ⟨msg, hmsg, rfl, ht, _, _, _, hacq⟩ := ViewMemory.load_some hread
      -- the count, as the FIFO sees it
      have hseen : ((s.fifo.seen fifoPart).mem.hist .n)[time]?
          = some (msg.restrict Place.fifo) := by
        show ((s.fifo.mem.hist (.fifo .n)).map _)[time]? = _
        rw [List.getElem?_map, hmsg]
        rfl
      obtain ⟨hcount, _⟩ := hR.consumer_count ht hseen rfl
      have hgranted : (granted tr).length = (popped tr).length + s.fifo.cons.pc.inFlight :=
        hR.consumer.granted_eq
      rw [hpc] at hgranted
      simp only [ReadPc.inFlight, Nat.add_zero] at hgranted
      have hcar := hP.carries time msg hmsg
      have hmore : (granted tr).length + 1 ≤ pushesAt tr time := by
        have hpos : Words.exact.toUnsigned (msg.restrict Place.fifo).value ≠ 0 := hz
        omega
      simpa using hcar.mono (hacq rfl) hmore
  | _ => simpa using hkeep

/-! ## §5. The payloads themselves. -/

/-- **A load of a field** has one message left to return. -/
theorem load_field (hP : PayloadInv b T base n_items size storage tr s) {pointer : Ptr}
    (hhold : pointer ∈ s.pc.holding) {field : Field} (hfield : field ∈ T.fill) {time : Nat}
    {x : Int} {m : PayloadMem}
    (h : s.fifo.mem.load false .consumer (Place.cell pointer field) time = some (x, m)) :
    x = T.value field s.received := by
  obtain rfl := hP.holding pointer hhold
  obtain ⟨msg, hmsg, rfl, ht, _⟩ := ViewMemory.load_some h
  -- the item was granted, so its stores are known
  have hgranted : s.received < (granted tr).length := by
    have hrec := hP.received_eq
    have hone : 0 < s.pc.holding.length := List.length_pos_of_mem hhold
    have heq : (granted tr).length = (popped tr).length + s.fifo.cons.pc.inFlight :=
      hP.ra.consumer.granted_eq
    have hfilter := congrArg List.length hP.ra.consumer.received_eq
    have hle := List.length_filter_le (· ≠ NULL) (popped tr)
    rw [hfilter, List.length_append] at hle
    omega
  have hknown := (hP.next s.received hgranted field hfield).trans ht
  have hvalue : ((s.fifo.mem.hist (.cell (T.item base s.received) field)).map (·.value))[time]?
      = some msg.value := by
    rw [List.getElem?_map, hmsg]
    rfl
  by_cases hfilled : s.Filled s.received field
  · rw [hP.cells.filled s.received field hfield hfilled] at hvalue
    -- there is nothing newer than what the producer stored
    have hlt := (List.getElem?_eq_some_iff.mp hvalue).1
    obtain rfl : time = 1 := by
      simp only [List.length_cons, List.length_nil] at hlt
      omega
    simpa using hvalue.symm
  · -- what is known is there
    rw [hP.cells.blank s.received field hfield hfilled] at hvalue
    have hlt := (List.getElem?_eq_some_iff.mp hvalue).1
    simp only [List.length_singleton] at hlt
    omega

end PayloadInv

/-- A step that fills nothing in. -/
theorem CellsInv.frame {T : PayloadTest} {base : Nat} {s s' : PayloadState}
    (hC : CellsInv T base s)
    (hfilled : ∀ j, ∀ field ∈ T.fill, s'.Filled j field ↔ s.Filled j field)
    (hcell : ∀ address field,
      s'.fifo.mem.hist (.cell address field) = s.fifo.mem.hist (.cell address field))
    (hview : s.fifo.mem.view .producer ≤ s'.fifo.mem.view .producer) : CellsInv T base s' := by
  refine ⟨?_, ?_, ?_⟩
  · intro j field hfield h
    rw [hcell]
    exact hC.filled j field hfield ((hfilled j field hfield).mp h)
  · intro j field hfield h
    exact (hC.known j field hfield ((hfilled j field hfield).mp h)).trans (hview _)
  · intro j field hfield h
    rw [hcell]
    exact hC.blank j field hfield fun hs => h ((hfilled j field hfield).mpr hs)

/-- **Filling in a field.** -/
theorem CellsInv.fill {T : PayloadTest} {base : Nat} {s : PayloadState} (hC : CellsInv T base s)
    {field : Field} {todo : List Field} (htodo : s.todo = field :: todo)
    (hle : s.todo <:+ T.fill) :
    CellsInv T base
      { s with
        fifo := { s.fifo with
          mem := s.fifo.mem.store false .producer (Place.cell (T.item base s.i) field)
            (T.value field s.i) }
        todo := todo } := by
  have hnodup : (field :: todo).Nodup := by
    rw [← htodo]
    exact T.fill_nodup.sublist hle.sublist
  have hmem : field ∈ T.fill := hle.subset (by rw [htodo]; exact List.mem_cons_self)
  have hnot : ¬ s.Filled s.i field := by
    rintro (hlt | ⟨_, hnot⟩)
    · exact Nat.lt_irrefl _ hlt
    · exact hnot (by rw [htodo]; exact List.mem_cons_self)
  have hblank := hC.blank s.i field hmem hnot
  have hlen : (s.fifo.mem.hist (.cell (T.item base s.i) field)).length = 1 := by
    have h := congrArg List.length hblank
    simpa using h
  obtain ⟨v, hhist, hview, hself⟩ := s.fifo.mem.store_spec false Thread.producer
    (Place.cell (T.item base s.i) field) (T.value field s.i)
  have hnotin : field ∉ todo := (List.nodup_cons.mp hnodup).1
  -- the other fields
  have hother (j : Nat) (field' : Field) (hne : ¬ (j = s.i ∧ field' = field)) :
      (Function.update s.fifo.mem.hist (.cell (T.item base s.i) field)
          (s.fifo.mem.hist (.cell (T.item base s.i) field) ++ [⟨T.value field s.i, v⟩])
          (.cell (T.item base j) field') = s.fifo.mem.hist (.cell (T.item base j) field'))
        ∧ ((j < s.i ∨ (j = s.i ∧ field' ∉ todo)) ↔ s.Filled j field') := by
    refine ⟨?_, ?_⟩
    · rw [Function.update_of_ne]
      intro hcell
      obtain ⟨hitem, hfield⟩ := Place.cell.inj hcell
      exact hne ⟨T.item_inj hitem, hfield⟩
    · unfold PayloadState.Filled
      rw [htodo, List.mem_cons, not_or]
      constructor
      · rintro (hlt | ⟨heq, hnot'⟩)
        · exact .inl hlt
        · exact .inr ⟨heq, fun hfield => hne ⟨heq, hfield⟩, hnot'⟩
      · rintro (hlt | ⟨heq, _, hnot'⟩)
        · exact .inl hlt
        · exact .inr ⟨heq, hnot'⟩
  refine ⟨?_, ?_, ?_⟩
  · intro j field' hfield' h
    show (ViewMemory.hist (ViewMemory.store _ _ _ _ _) _).map _ = _
    rw [hhist]
    by_cases hsame : j = s.i ∧ field' = field
    · obtain ⟨rfl, rfl⟩ := hsame
      rw [Function.update_self, List.map_append, hblank]
      rfl
    · obtain ⟨hkeep, hiff⟩ := hother j field' hsame
      rw [hkeep]
      exact hC.filled j field' hfield' (hiff.mp h)
  · intro j field' hfield' h
    by_cases hsame : j = s.i ∧ field' = field
    · obtain ⟨rfl, rfl⟩ := hsame
      rw [hlen] at hself
      exact hself
    · exact (hC.known j field' hfield' ((hother j field' hsame).2.mp h)).trans (hview _ _)
  · intro j field' hfield' h
    show (ViewMemory.hist (ViewMemory.store _ _ _ _ _) _).map _ = _
    rw [hhist]
    by_cases hsame : j = s.i ∧ field' = field
    · obtain ⟨rfl, rfl⟩ := hsame
      exact absurd (.inr ⟨rfl, hnotin⟩) h
    · obtain ⟨hkeep, hiff⟩ := hother j field' hsame
      rw [hkeep]
      exact hC.blank j field' hfield' fun hs => h (hiff.mpr hs)

/-! ## §6. The step lemma. -/

namespace PayloadInv

variable {b : Bool} {T : PayloadTest} {base n_items size : Nat} {storage : Nat → Ptr}
  {tr : List Event} {s s' : PayloadState} {e : Event}

/-- A step of the FIFO in a test. -/
theorem fifo_step (hbase : 0 < base) (hP : PayloadInv b T base n_items size storage tr s)
    {a : Action Nat} {c : Config PayloadMem}
    (hs : step (payloadAtomics (releaseAcquire b) .exact) .exact s.fifo a = some (c, e))
    (hwrite : ∀ pointer, e = .prod (.call pointer) →
      pointer = T.item base s.i ∧ s.todo = [] ∧ s.i < n_items)
    (hread : ∀ r, e = .cons r → s.pc = .polling) :
    PayloadInv b T base n_items size storage (tr ++ [e]) { s.after T e with fifo := c } := by
  have ht := step_transition hs
  obtain ⟨as, hrun⟩ := hP.run
  obtain ⟨hi, hacc, hcur, htodo, hfilled⟩ := hP.producer_loop hbase ht hwrite
  obtain ⟨hbusy, hhold, hrec, hok⟩ := hP.consumer_loop ht hread
  -- the other local variables stay
  have hlocal : (s.after T e).expect = s.expect ∧ (s.after T e).corrupt = s.corrupt
      ∧ (s.after T e).received = s.received := by
    unfold PayloadState.after
    split
    · split <;> exact ⟨rfl, rfl, rfl⟩
    · split <;> exact ⟨rfl, rfl, rfl⟩
    · exact ⟨rfl, rfl, rfl⟩
  obtain ⟨hexpect, hcorrupt, hreceived⟩ := hlocal
  refine ⟨⟨as ++ [a], run_snoc.mpr ⟨_, _, _, hrun, seen_step hs, rfl⟩⟩, hi, hacc, hcur, htodo,
    ?_, ?_, hP.next_step ht, hbusy, ?_, ?_, ?_, ?_⟩
  · refine hP.cells.frame hfilled ?_ (ht.payload_view_le .producer)
    intro address field
    exact ht.payload_hist (by simp) (.inr (by simp))
  · intro time msg hmsg
    exact hP.carries_step ht hmsg
  · show ∀ pointer ∈ _, pointer = T.item base (s.after T e).received
    rw [hreceived]
    exact hhold
  · show _ = (s.after T e).received + _
    rw [hreceived]
    exact hrec
  · show (s.after T e).pc.Ok T (s.after T e).received (s.after T e).expect
    rw [hreceived, hexpect]
    exact hok
  · show (s.after T e).corrupt = 0
    rw [hcorrupt]
    exact hP.correct

/-- A step of the consumer of its own. -/
theorem own_step (hP : PayloadInv b T base n_items size storage tr s)
    (hne : s.pc ≠ .polling) {m : PayloadMem} (hhist : m.hist = s.fifo.mem.hist)
    (hview : ∀ t, s.fifo.mem.view t ≤ m.view t) (hpart : fifoPart m = fifoPart s.fifo.mem)
    (hi : s'.i = s.i) (htodo : s'.todo = s.todo) (hfifo : s'.fifo = { s.fifo with mem := m })
    (hhold : ∀ pointer ∈ s'.pc.holding, pointer = T.item base s'.received)
    (hrec : s'.received + s'.pc.holding.length = s.received + s.pc.holding.length)
    (hok : s'.pc.Ok T s'.received s'.expect) (hcorrupt : s'.corrupt = 0) :
    PayloadInv b T base n_items size storage (tr ++ [.work .consumer 0]) s' := by
  obtain ⟨as, hrun⟩ := hP.run
  have hidle := hP.busy hne
  have hwork := seen_work (o := releaseAcquire b) (t := .consumer) hidle hpart
  refine ⟨⟨as ++ [.work .consumer 0], ?_⟩, ?_, ?_, ?_, ?_, ?_, ?_, ?_, ?_, hhold, ?_, hok,
    hcorrupt⟩
  · rw [hfifo]
    exact run_snoc.mpr ⟨_, _, _, hrun, hwork, rfl⟩
  · rw [hi]
    exact hP.i_le
  · rw [hi]
    simpa using hP.accepted_eq
  · rw [hi, htodo, hfifo]
    exact hP.current
  · rw [htodo]
    exact hP.todo_le
  · refine hP.cells.frame ?_ ?_ ?_
    · intro j field _
      unfold PayloadState.Filled
      rw [hi, htodo]
    · intro address field
      rw [hfifo]
      show m.hist _ = _
      rw [hhist]
    · rw [hfifo]
      exact hview .producer
  · intro time msg hmsg
    have hsame : updates (tr ++ [.work .consumer 0]) = updates tr := by simp
    rw [hfifo] at hmsg
    change (m.hist (.fifo .n))[time]? = some msg at hmsg
    rw [hhist] at hmsg
    rw [pushesAt_congr hsame]
    exact hP.carries time msg hmsg
  · rw [hfifo]
    simpa using hP.next.mono (hview .consumer) (Nat.le_refl _)
  · intro _
    rw [hfifo]
    exact hidle
  · rw [hrec]
    simpa using hP.received_eq

/-- Filling in a field. -/
theorem fill_step (hP : PayloadInv b T base n_items size storage tr s) {field : Field}
    {todo : List Field} (hpc : s.fifo.prod.pc = .idle) (htodo : s.todo = field :: todo) :
    PayloadInv b T base n_items size storage (tr ++ [.work .producer 0])
      { s with
        fifo := { s.fifo with
          mem := s.fifo.mem.store false .producer (Place.cell (T.item base s.i) field)
            (T.value field s.i) }
        todo := todo } := by
  obtain ⟨as, hrun⟩ := hP.run
  obtain ⟨v, hhist, hview, _⟩ := s.fifo.mem.store_spec false Thread.producer
    (Place.cell (T.item base s.i) field) (T.value field s.i)
  have hpart : fifoPart (s.fifo.mem.store false .producer (Place.cell (T.item base s.i) field)
      (T.value field s.i)) = fifoPart s.fifo.mem :=
    ViewMemory.restrict_store_other (by simp) _ _ _ _
  have hwork := seen_work (o := releaseAcquire b) (t := .producer) hpc hpart
  refine ⟨⟨as ++ [.work .producer 0], run_snoc.mpr ⟨_, _, _, hrun, hwork, rfl⟩⟩, hP.i_le,
    by simpa using hP.accepted_eq, ?_, ?_, hP.cells.fill htodo hP.todo_le, ?_, ?_, hP.busy,
    hP.holding, by simpa using hP.received_eq, hP.checks, hP.correct⟩
  · intro pointer hmem
    change pointer ∈ s.fifo.prod.pc.current at hmem
    rw [hpc] at hmem
    exact absurd hmem (by simp)
  · have hle := hP.todo_le
    rw [htodo] at hle
    exact (List.suffix_cons _ _).trans hle
  · intro time msg hmsg
    have hsame : updates (tr ++ [.work .producer 0]) = updates tr := by simp
    have hn : (s.fifo.mem.store false .producer (Place.cell (T.item base s.i) field)
        (T.value field s.i)).hist (.fifo .n) = s.fifo.mem.hist (.fifo .n) := by
      rw [hhist, Function.update_of_ne (by simp)]
    change (ViewMemory.hist _ _)[time]? = some msg at hmsg
    rw [hn] at hmsg
    rw [pushesAt_congr hsame]
    exact hP.carries time msg hmsg
  · simpa using hP.next.mono (hview .consumer) (Nat.le_refl _)

/-- A check of what was filled in passes. -/
theorem compared_ok {k : Nat} {check : Check} {checks : List Check} {expect : Int}
    (h : (passAll (fun field => T.value field k) (check :: checks) expect).map T.atEnd
      = some (k + 1)) :
    T.value check.field k = check.against.eval (fun field => T.value field k) expect
      ∧ (passAll (fun field => T.value field k) checks (check.passed expect)).map T.atEnd
          = some (k + 1) := by
  unfold passAll at h
  by_cases heq : T.value check.field k = check.against.eval (fun field => T.value field k) expect
  · rw [if_pos heq] at h
    exact ⟨heq, h⟩
  · rw [if_neg heq] at h
    exact absurd h (by simp)

/-- **The step lemma.** -/
theorem move_keeps (hbase : 0 < base) (hP : PayloadInv b T base n_items size storage tr s)
    (h : Move T (releaseAcquire b) base n_items s e s') :
    PayloadInv b T base n_items size storage (tr ++ [e]) s' := by
  have hok := hP.checks
  have hhold := hP.holding
  cases h with
  | fifo hs hwrite hread hcall => exact hP.fifo_step hbase hs hwrite hread
  | fill hpc htodo hi => exact hP.fill_step hpc htodo
  | @compareExpect pointer check checks time x m hpc hcheck hload =>
      rw [hpc] at hok
      obtain ⟨hle, hpass⟩ := hok
      have hmem : check ∈ T.checks := hle.subset List.mem_cons_self
      obtain ⟨heq, hrest⟩ := compared_ok hpass
      have hx := hP.load_field (by simp [hpc]) (T.filled check hmem).1 hload
      rw [hcheck, ← hx] at heq
      have hpassed : x = s.expect := heq
      obtain ⟨msg, _, _, _, hhist, hview, _⟩ := ViewMemory.load_some hload
      have hpart := ViewMemory.restrict_load_other (f := Place.fifo) (by simp) hload
      unfold PayloadState.compared
      rw [if_pos hpassed]
      refine hP.own_step (by simp [hpc]) hhist hview hpart rfl rfl rfl ?_ ?_ ?_ hP.correct
      · simpa [hpc] using hhold
      · simp [hpc]
      · exact ⟨(List.suffix_cons _ _).trans hle, hrest⟩
  | @loadOther pointer check checks field f time x m hpc hcheck hload =>
      rw [hpc] at hok
      obtain ⟨hle, hpass⟩ := hok
      have hmem : check ∈ T.checks := hle.subset List.mem_cons_self
      have hx := hP.load_field (by simp [hpc]) (T.filled check hmem).1 hload
      obtain ⟨msg, _, _, _, hhist, hview, _⟩ := ViewMemory.load_some hload
      have hpart := ViewMemory.restrict_load_other (f := Place.fifo) (by simp) hload
      refine hP.own_step (by simp [hpc]) hhist hview hpart rfl rfl rfl ?_ ?_ ?_ hP.correct
      · simpa [hpc] using hhold
      · simp [hpc]
      · exact ⟨hcheck, hx, hle, hpass⟩
  | @compareOther pointer x y check field f checks time m hpc hload =>
      rw [hpc] at hok
      obtain ⟨hcheck, hx, hle, hpass⟩ := hok
      have hmem : check ∈ T.checks := hle.subset List.mem_cons_self
      obtain ⟨heq, hrest⟩ := compared_ok hpass
      have hy := hP.load_field (by simp [hpc]) ((T.filled check hmem).2 field f hcheck) hload
      rw [hcheck, ← hx] at heq
      have hpassed : x = f y := by
        rw [hy]
        exact heq
      obtain ⟨msg, _, _, _, hhist, hview, _⟩ := ViewMemory.load_some hload
      have hpart := ViewMemory.restrict_load_other (f := Place.fifo) (by simp) hload
      unfold PayloadState.compared
      rw [if_pos hpassed]
      refine hP.own_step (by simp [hpc]) hhist hview hpart rfl rfl rfl ?_ ?_ ?_ hP.correct
      · simpa [hpc] using hhold
      · simp [hpc]
      · exact ⟨(List.suffix_cons _ _).trans hle, hrest⟩
  | @checked pointer hpc =>
      rw [hpc] at hok
      obtain ⟨_, hpass⟩ := hok
      have hend : T.atEnd s.expect = s.received + 1 := by simpa [passAll] using hpass
      refine hP.own_step (by simp [hpc]) rfl (fun _ => le_refl _) rfl rfl rfl rfl ?_ ?_ ?_
        hP.correct
      · simp
      · simp [hpc]
      · show T.atEnd s.expect = ((s.received + 1 : Nat) : Int)
        rw [hend]
        simp

end PayloadInv

/-! ## §7. Runs. -/

/-- **Every run of a test keeps it**, where the counter is released and acquired. -/
theorem payloadRun_inv {b : Bool} {T : PayloadTest} {base n_items size : Nat}
    {storage : Nat → Ptr} {turns : List (Side × Nat)} {s : PayloadState} {tr : List Event}
    (hbase : 0 < base)
    (h : payloadRun T (releaseAcquire b) base n_items size storage turns = some (s, tr)) :
    PayloadInv b T base n_items size storage tr s :=
  run_invariant (PayloadInv.init b T base n_items size storage)
    (fun _ _ _ _ _ hP hs => hP.move_keeps hbase (payloadStep_move hs)) h

/-- The orders that publish. -/
theorem Order.Publishes.eq_releaseAcquire {o : Order} (ho : o.Publishes) :
    o = releaseAcquire o.updateAcquires := by
  obtain ⟨hacq, hrel⟩ := ho
  cases o
  simp only at hacq hrel
  rw [hacq, hrel]
  rfl

/-- **THE PAYLOADS ARRIVE AS THEY WERE FILLED IN.**  Whenever the loads of
`n` acquire and its updates release, in every run of a publication test: the
items are received in order, nothing is found corrupt, and every field the
consumer can load of the item it holds has the value the producer stored,
whichever message the load returns.  When the loop is left, every item was
received and checked. -/
theorem payload_tests_clean (T : PayloadTest) (o : Order) (ho : o.Publishes)
    (base n_items size : Nat) (storage : Nat → Ptr) (turns : List (Side × Nat))
    (s : PayloadState) (tr : List Event) (hbase : 0 < base)
    (h : payloadRun T o base n_items size storage turns = some (s, tr)) :
    s.corrupt = 0
      ∧ received tr = (List.range (s.received + s.pc.holding.length)).map (T.item base)
      ∧ (∀ pointer ∈ s.pc.holding, ∀ field ∈ T.fill, ∀ time x m,
          s.fifo.mem.load false .consumer (Place.cell pointer field) time = some (x, m) →
            x = T.value field s.received)
      ∧ (s.pc = .polling → s.received = n_items →
          received tr = (List.range n_items).map (T.item base) ∧ s.expect = n_items) := by
  rw [ho.eq_releaseAcquire] at h
  have hP := payloadRun_inv hbase h
  obtain ⟨hitems, _⟩ := hP.received_items
  rw [hP.received_eq] at hitems
  refine ⟨hP.correct, hitems, ?_, ?_⟩
  · intro pointer hhold field hfield time x m hload
    exact hP.load_field hhold hfield hload
  · intro hpc hall
    have hexpect := hP.checks
    rw [hpc] at hitems hexpect
    rw [hall] at hitems hexpect
    exact ⟨hitems, hexpect⟩

/-- The producer fills in an item and writes its address. -/
def produceItem (T : PayloadTest) (time : Nat) : List (Side × Nat) :=
  List.replicate (T.fill.length + 6) (.producer, time)

/-- The consumer's turns that get these messages. -/
def consumeItem (times : List Nat) : List (Side × Nat) := times.map fun time => (.consumer, time)

/-- Three items through two slots: the third lies in the slot of the first,
and the consumer has just read its address. -/
def thirdInHand : List (Side × Nat) :=
  produceItem stress 0 ++ consumeItem [0] ++ produceItem stress 1
    ++ consumeItem [1, 1, 0, 0, 0, 1, 1, 1, 1, 1, 1, 1, 0] ++ produceItem stress 3
    ++ consumeItem [0, 3, 1, 0, 0, 0, 1, 1, 1, 1, 1, 1, 1, 0] ++ consumeItem [0, 5, 2, 0, 0, 0]

/-- The consumer checks the third item, too, and leaves its loop. -/
def threeItems : List (Side × Nat) := thirdInHand ++ consumeItem [1, 1, 1, 1, 1, 1, 1, 0]

/-- With the third item in hand, the consumer loads what the producer
stored; after its checks all three were received clean. -/
theorem threeItems_clean :
    (∃ s tr, payloadRun stress (releaseAcquire false) 64 3 2 (fun _ => 77) thirdInHand
          = some (s, tr)
        ∧ received tr = [64, 128, 192] ∧ s.received = 2 ∧ s.pc.holding = [192] ∧ s.corrupt = 0
        ∧ ∃ x m, s.fifo.mem.load false .consumer (Place.cell 192 (.pad 5)) 1 = some (x, m)
          ∧ x = 14)
      ∧ ∃ s tr, payloadRun stress (releaseAcquire false) 64 3 2 (fun _ => 77) threeItems
          = some (s, tr)
        ∧ s.received = 3 ∧ s.corrupt = 0 ∧ s.expect = 3
        ∧ received tr = (List.range 3).map (stress.item 64) := by
  have ho : (releaseAcquire false).Publishes := by decide
  constructor
  · have hrun : (payloadRun stress (releaseAcquire false) 64 3 2 (fun _ => 77) thirdInHand).map
        (fun r => (received r.2, r.1.received, r.1.pc.holding,
          (r.1.fifo.mem.load false .consumer (Place.cell 192 (.pad 5)) 1).isSome))
        = some ([64, 128, 192], 2, [192], true) := by decide +kernel
    obtain ⟨⟨s, tr⟩, h, hshown⟩ := Option.map_eq_some_iff.mp hrun
    simp only [Prod.mk.injEq] at hshown
    obtain ⟨hreceived, htwo, hholding, hloads⟩ := hshown
    obtain ⟨⟨x, m⟩, hload⟩ := Option.isSome_iff_exists.mp hloads
    obtain ⟨hclean, _, hfields, _⟩ :=
      payload_tests_clean stress _ ho 64 3 2 _ _ s tr (by decide) h
    have hhand : 192 ∈ s.pc.holding := by
      rw [hholding]
      exact List.mem_singleton_self 192
    have hvalue := hfields 192 hhand (.pad 5) (by decide) 1 x m hload
    rw [htwo] at hvalue
    exact ⟨s, tr, h, hreceived, htwo, hholding, hclean, x, m, hload, hvalue⟩
  · have hrun : (payloadRun stress (releaseAcquire false) 64 3 2 (fun _ => 77) threeItems).map
        (fun r => (r.1.received, r.1.pc.holding)) = some (3, []) := by decide +kernel
    obtain ⟨⟨s, tr⟩, h, hshown⟩ := Option.map_eq_some_iff.mp hrun
    obtain ⟨hthree, hnone⟩ := Prod.mk.inj hshown
    obtain ⟨hclean, _, _, hend⟩ := payload_tests_clean stress _ ho 64 3 2 _ _ s tr (by decide) h
    obtain ⟨hreceived, hexpect⟩ := hend (CheckPc.polling_of_holding hnone) hthree
    exact ⟨s, tr, h, hthree, hclean, hexpect, hreceived⟩

/-! ## §8. Where the order does not publish. -/

/-- One item, read from a slot that still holds the pointer to item 1, which
was not filled in. -/
def staleItem (T : PayloadTest) : List (Side × Nat) :=
  produceItem T 0 ++ consumeItem [0, 1, 0, 0, 0, 0, 0, 0, 0]

/-- **Where the order does not publish, a test finds a corrupt item.** -/
theorem staleItem_corrupt {T : PayloadTest} (hT : T = stress ∨ T = publication) {o : Order}
    (ho : ¬ o.Publishes) :
    (payloadRun T o 64 2 2 (fun _ => T.item 64 1) (staleItem T)).map (fun r => r.1.corrupt)
      = some 1 := by
  obtain ⟨loadAcquires, updateAcquires, updateReleases⟩ := o
  -- six of the eight orders
  rcases hT with rfl | rfl <;>
    · cases loadAcquires with
      | false => cases updateAcquires <;> cases updateReleases <;> decide +kernel
      | true =>
          cases updateReleases with
          | false => cases updateAcquires <;> decide +kernel
          | true => exact absurd ⟨rfl, rfl⟩ ho

/-- **THE TESTS NEED PUBLICATION.**  `stress.c` and `publication.c` find
nothing corrupt, in any run on any FIFO, exactly if the loads of `n` acquire
and its updates release. -/
theorem payload_tests_publish (T : PayloadTest) (hT : T = stress ∨ T = publication) (o : Order) :
    (∀ base n_items size storage turns s tr, 0 < base → 2 ≤ size →
        payloadRun T o base n_items size storage turns = some (s, tr) → s.corrupt = 0)
      ↔ o.Publishes := by
  constructor
  · intro hall
    by_contra ho
    obtain ⟨⟨s, tr⟩, h, hcorrupt⟩ := Option.map_eq_some_iff.mp (staleItem_corrupt hT ho)
    have hclean := hall 64 2 2 _ _ s tr (by decide) (Nat.le_refl 2) h
    rw [hclean] at hcorrupt
    exact absurd hcorrupt (by decide)
  · intro ho base n_items size storage turns s tr hbase _ h
    exact (payload_tests_clean T o ho base n_items size storage turns s tr hbase h).1

theorem payload_tests_publish_stress :
    ¬ ∀ base n_items size storage turns s tr, 0 < base → 2 ≤ size →
        payloadRun stress relaxed base n_items size storage turns = some (s, tr) →
          s.corrupt = 0 := by
  rw [payload_tests_publish stress (.inl rfl) relaxed]
  decide

-- the pointer may be right and the payload still be missing
example : (payloadRun publication relaxed 64 1 2 (fun _ => 77)
    (produceItem publication 0 ++ consumeItem [0, 1, 1, 0, 0, 0, 0, 1, 1, 0])).map
      (fun r => (received r.2, r.1.corrupt)) = some ([64], 1) := by decide +kernel

end MulleFifo
