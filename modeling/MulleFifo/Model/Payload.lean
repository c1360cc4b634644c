/-
  MulleFifo.Model.Payload — the publication tests, over weak memory.

  `stress.c` and `publication.c` hand over pointers to payloads: the
  producer fills in the fields of item `i` with plain stores and writes
  `&items[ i]` until the FIFO takes it; the consumer reads a pointer, loads
  the fields with plain loads and counts every one that is not what it
  should be in `corrupt`.  The two tests are one program with parameters:

    • `PayloadTest` — which fields are filled in with what, which are
      compared with what, and what becomes of `expect`,
    • `payloadStep` — the two loops, access by access.  The payloads lie in
      the same weak memory as the FIFO (`Place`), and the scheduler chooses
      which admissible message a load returns — for payloads, too,
    • `payload_is_step` — leave the payloads out (`fifoPart`), and every
      run of a test is a run of the FIFO in `Model.ReleaseAcquire`.
-/
import MulleFifo.Model.ReleaseAcquire
import MulleFifo.Model.Transfer

namespace MulleFifo

open Lib

/-! ## §1. The payloads. -/

/-- The fields of `struct payload` and `struct item`. -/
inductive Field
  | sequence
  | value
  | check
  | pad (i : Nat)
  deriving DecidableEq, Repr

/-- What the consumer compares a field with. -/
inductive Against
  /-- Its local variable `expect`. -/
  | expect
  /-- A function of another field of the same payload. -/
  | field (other : Field) (f : Int → Int)

/-- One `if( ...) ++corrupt;` of the consumer. -/
structure Check where
  field : Field
  against : Against
  /-- What becomes of `expect` if the two are equal. -/
  passed : Int → Int

/-- What a field of a payload is compared with, when the payload holds `value`. -/
def Against.eval (value : Field → Int) (expect : Int) : Against → Int
  | .expect => expect
  | .field other f => f (value other)

/-- All checks of a payload that holds `value`: what becomes of `expect` if
none of them fails. -/
def passAll (value : Field → Int) : List Check → Int → Option Int
  | [], expect => some expect
  | check :: checks, expect =>
      if value check.field = check.against.eval value expect then
        passAll value checks (check.passed expect)
      else none

/-- A publication test.  The last fields say that the test is one: what is
compared was filled in, and the values that were filled in pass. -/
structure PayloadTest where
  /-- The size of a payload. -/
  sizeof : Nat
  /-- The fields the producer fills in, in order. -/
  fill : List Field
  /-- What it stores into a field of item `i`. -/
  value : Field → Int → Int
  /-- The consumer's checks, in order. -/
  checks : List Check
  /-- What the end of the consumer's loop body does to `expect`. -/
  atEnd : Int → Int
  sizeof_pos : 0 < sizeof
  fill_nodup : fill.Nodup
  filled : ∀ check ∈ checks, check.field ∈ fill
    ∧ ∀ other f, check.against = .field other f → other ∈ fill
  passes : ∀ i : Nat, (passAll (fun field => value field i) checks i).map atEnd = some (i + 1)

/-- `&items[ i]`. -/
def PayloadTest.item (T : PayloadTest) (base i : Nat) : Ptr := base + i * T.sizeof

/-- `stress.c`: sequence, its complement, and two words of padding.  Every
item advances `expect`. -/
def stress : PayloadTest where
  sizeof := 64
  fill := [.sequence, .check, .pad 0, .pad 5]
  value
    | .sequence, i => i
    | .check, i => ~~~ i
    | .pad 0, i => i * 3
    | .pad 5, i => i * 7
    | _, _ => 0
  checks :=
    [⟨.sequence, .expect, id⟩,
     ⟨.check, .field .sequence fun sequence => ~~~ sequence, id⟩,
     ⟨.pad 0, .field .sequence fun sequence => sequence * 3, id⟩,
     ⟨.pad 5, .field .sequence fun sequence => sequence * 7, id⟩]
  atEnd expect := expect + 1
  sizeof_pos := by decide
  fill_nodup := by decide
  filled := by simp
  passes i := by simp [passAll, Against.eval]

/-- `publication.c`: a value and its complement.  Only an item with the
expected value advances `expect`. -/
def publication : PayloadTest where
  sizeof := 16
  fill := [.value, .check]
  value
    | .value, i => i
    | .check, i => ~~~ i
    | _, _ => 0
  checks :=
    [⟨.check, .field .value fun value => ~~~ value, id⟩,
     ⟨.value, .expect, fun expect => expect + 1⟩]
  atEnd := id
  sizeof_pos := by decide
  fill_nodup := by decide
  filled := by simp
  passes i := by simp [passAll, Against.eval]

/-! ## §2. The memory. -/

/-- The shared memory of a test: the locations of the FIFO, and a cell for
every field of every payload. -/
inductive Place
  | fifo (l : Loc)
  | cell (address : Ptr) (field : Field)
  deriving DecidableEq, Repr

/-- What a place holds. -/
abbrev Place.Val : Place → Type
  | .fifo l => l.Val
  | .cell _ _ => Int

/-- The weak memory of a test. -/
abbrev PayloadMem := ViewMemory Place Thread Place.Val

/-- The FIFO's atomic accesses. -/
def payloadAtomics (o : Order) (W : Words) : MemoryModel PayloadMem Nat := fun t time =>
  { readN := fun m => m.load o.loadAcquires t (Place.fifo .n) time
    readSlot := fun i m => m.load false t (Place.fifo (.slot i)) time
    writeSlot := fun i pointer m => some (m.store false t (Place.fifo (.slot i)) pointer)
    incrementN := fun m =>
      m.modify o.updateAcquires o.updateReleases t (Place.fifo .n) W.increment
    decrementN := fun m =>
      m.modify o.updateAcquires o.updateReleases t (Place.fifo .n) W.decrement }

/-- One message in every place: the FIFO's initial ones, and 0 in the
payloads, which are static. -/
def initialPlace (storage : Nat → Ptr) : (p : Place) → Message Place p.Val
  | .fifo .n => ⟨(0 : Int), fun _ => 0⟩
  | .fifo (.slot i) => ⟨storage i, fun _ => 0⟩
  | .cell _ _ => ⟨(0 : Int), fun _ => 0⟩

/-! ## §3. The two loops. -/

/-- Where the consumer is in its loop. -/
inductive CheckPc
  /-- In `_mulle_pointerfifo_read`, or about to call it. -/
  | polling
  /-- About to load the field of the first of `checks`. -/
  | compare (pointer : Ptr) (checks : List Check)
  /-- It loaded `x` and is about to load the field `check` compares it with. -/
  | other (pointer : Ptr) (x : Int) (check : Check) (field : Field) (f : Int → Int)
      (checks : List Check)

/-- The FIFO and the local variables of the two threads. -/
structure PayloadState where
  fifo : Config PayloadMem
  /-- The producer's loop variable. -/
  i : Nat
  /-- The fields of item `i` that are still to be filled in. -/
  todo : List Field
  pc : CheckPc
  expect : Int
  corrupt : Nat
  received : Nat

/-- What a step of the FIFO does to the loops: only a -1 keeps the producer
at the current item, and only NULL keeps the consumer polling. -/
def PayloadState.after (T : PayloadTest) (s : PayloadState) : Event → PayloadState
  | .prod (.ret _ rval) => if rval = -1 then s else { s with i := s.i + 1, todo := T.fill }
  | .cons (.ret pointer) =>
      if pointer = NULL then s else { s with pc := .compare pointer T.checks }
  | _ => s

/-- A step of the FIFO, in a test. -/
def fifoStep (T : PayloadTest) (o : Order) (s : PayloadState) (a : Action Nat) :
    Option (PayloadState × Event) :=
  (step (payloadAtomics o .exact) .exact s.fifo a).map fun r =>
    ({ s.after T r.2 with fifo := r.1 }, r.2)

/-- `for( i = 0; i < n_items; i++)` of the producer. -/
def fillStep (T : PayloadTest) (o : Order) (base n_items : Nat) (s : PayloadState) (time : Nat) :
    Option (PayloadState × Event) :=
  if s.fifo.prod.pc = .idle then
    if s.i < n_items then
      match s.todo with
      -- p->sequence = i; and so on
      | field :: todo =>
          let mem := s.fifo.mem.store false .producer (Place.cell (T.item base s.i) field)
            (T.value field s.i)
          some ({ s with fifo := { s.fifo with mem := mem }, todo := todo }, .work .producer 0)
      -- while( _mulle_pointerfifo_write( &fifo, p) == -1)
      | [] => fifoStep T o s (.callWrite (T.item base s.i))
    else none
  else fifoStep T o s (.prod time)

/-- `x` was compared with `y`. -/
def PayloadState.compared (s : PayloadState) (pointer : Ptr) (check : Check)
    (checks : List Check) (x y : Int) : PayloadState :=
  if x = y then { s with expect := check.passed s.expect, pc := .compare pointer checks }
  else { s with corrupt := s.corrupt + 1, pc := .compare pointer checks }

/-- `while( received < n_items)` of the consumer. -/
def checkStep (T : PayloadTest) (o : Order) (n_items : Nat) (s : PayloadState) (time : Nat) :
    Option (PayloadState × Event) :=
  match s.pc with
  | .polling =>
      if s.fifo.cons.pc = .idle then
        if s.received < n_items then fifoStep T o s .callRead else none
      else fifoStep T o s (.cons time)
  | .compare pointer (check :: checks) =>
      (s.fifo.mem.load false .consumer (Place.cell pointer check.field) time).map fun r =>
        let s' := { s with fifo := { s.fifo with mem := r.2 } }
        match check.against with
        | .expect => (s'.compared pointer check checks r.1 s.expect, .work .consumer 0)
        | .field other f =>
            ({ s' with pc := .other pointer r.1 check other f checks }, .work .consumer 0)
  | .other pointer x check field f checks =>
      (s.fifo.mem.load false .consumer (Place.cell pointer field) time).map fun r =>
        (PayloadState.compared { s with fifo := { s.fifo with mem := r.2 } } pointer check checks
          x (f r.1), .work .consumer 0)
  -- ++received;
  | .compare _ [] =>
      some ({ s with expect := T.atEnd s.expect, received := s.received + 1, pc := .polling },
        .work .consumer 0)

/-- One step of one of the loops. -/
def payloadStep (T : PayloadTest) (o : Order) (base n_items : Nat) (s : PayloadState) :
    Side × Nat → Option (PayloadState × Event)
  | (.producer, time) => fillStep T o base n_items s time
  | (.consumer, time) => checkStep T o n_items s time

/-- Both loops at their start, on a freshly initialised FIFO. -/
def payloadInit (T : PayloadTest) (size : Nat) (storage : Nat → Ptr) : PayloadState where
  fifo :=
    { size := size
      mem := { hist := fun p => [initialPlace storage p], view := fun _ _ => 0 }
      prod := { pc := .idle, write := 0 }
      cons := { pc := .idle, read := 0 } }
  i := 0
  todo := T.fill
  pc := .polling
  expect := 0
  corrupt := 0
  received := 0

/-- Run a test: `base` is the address of the items. -/
abbrev payloadRun (T : PayloadTest) (o : Order) (base n_items size : Nat) (storage : Nat → Ptr)
    (turns : List (Side × Nat)) : Option (PayloadState × List Event) :=
  run (payloadStep T o base n_items) (payloadInit T size storage) turns

/-! ## §4. The FIFO in a test. -/

/-- The FIFO's locations of the memory of a test. -/
def fifoPart (m : PayloadMem) : RaMem := m.restrict Place.fifo

theorem fifo_injective : Function.Injective Place.fifo := fun _ _ h => Place.fifo.inj h

/-- The accesses of the FIFO do not touch the payloads. -/
theorem seenAs_fifoPart (o : Order) (W : Words) (c : Config PayloadMem) :
    SeenAs (payloadAtomics o W) (viewAtomics o W) fifoPart c where
  readN t ch := ViewMemory.restrict_load fifo_injective _ t Loc.n ch c.mem
  readSlot _ ch :=
    ViewMemory.restrict_load fifo_injective false Thread.consumer (Loc.slot c.cons.read) ch c.mem
  writeSlot pointer _ _ := congrArg some
    (ViewMemory.restrict_store fifo_injective false .producer (Loc.slot c.prod.write) pointer c.mem)
  incrementN _ := ViewMemory.restrict_modify (V := Place.Val) fifo_injective o.updateAcquires
    o.updateReleases Thread.producer Loc.n W.increment c.mem
  decrementN _ := ViewMemory.restrict_modify (V := Place.Val) fifo_injective o.updateAcquires
    o.updateReleases Thread.consumer Loc.n W.decrement c.mem

theorem payloadInit_seen (T : PayloadTest) (size : Nat) (storage : Nat → Ptr) :
    (payloadInit T size storage).fifo.seen fifoPart = pointerfifoInitRa size storage := by
  have hhist (l : Loc) : (fifoPart (payloadInit T size storage).fifo.mem).hist l
      = [initialMessage storage l] := by
    cases l <;> rfl
  show Config.mk size (ViewMemory.mk _ _) ⟨.idle, 0⟩ ⟨.idle, 0⟩ = _
  unfold pointerfifoInitRa
  congr 2
  funext l
  exact hhist l

/-- A step of the FIFO in a test is a step of the FIFO. -/
theorem seen_step {o : Order} {c c' : Config PayloadMem} {a : Action Nat} {e : Event}
    (h : step (payloadAtomics o .exact) .exact c a = some (c', e)) :
    step (viewAtomics o .exact) .exact (c.seen fifoPart) a = some (c'.seen fifoPart, e) := by
  rw [(seenAs_fifoPart o .exact c).step_eq, h]
  rfl

/-- An access to a payload is, for the FIFO, a thread at its own work. -/
theorem seen_work {o : Order} {c : Config PayloadMem} {m : PayloadMem} {t : Thread}
    (ht : betweenCalls c.prod c.cons t) (hm : fifoPart m = fifoPart c.mem) :
    step (viewAtomics o .exact) .exact (c.seen fifoPart) (.work t 0)
      = some ((({ c with mem := m } : Config PayloadMem).seen fifoPart), .work t 0) := by
  have hseen : betweenCalls (c.seen fifoPart).prod (c.seen fifoPart).cons t := ht
  have hsame : ({ c with mem := m } : Config PayloadMem).seen fifoPart = c.seen fifoPart := by
    unfold Config.seen
    rw [hm]
  simp only [step]
  rw [if_pos hseen, hsame]

/-! ## §5. Everything a step can do. -/

section Moves

variable {T : PayloadTest} {o : Order} {base n_items : Nat} {s s' : PayloadState} {e : Event}

/-- The steps of a test: a step of the FIFO, or an access to a payload. -/
inductive Move (T : PayloadTest) (o : Order) (base n_items : Nat) (s : PayloadState) :
    Event → PayloadState → Prop
  | fifo {a : Action Nat} {c : Config PayloadMem} {e : Event}
      (hs : step (payloadAtomics o .exact) .exact s.fifo a = some (c, e))
      (hwrite : ∀ pointer, e = .prod (.call pointer) →
        pointer = T.item base s.i ∧ s.todo = [] ∧ s.i < n_items)
      (hread : ∀ r, e = .cons r → s.pc = .polling)
      (hcall : e = .cons .call → s.received < n_items) :
      Move T o base n_items s e { s.after T e with fifo := c }
  | fill {field : Field} {todo : List Field} (hpc : s.fifo.prod.pc = .idle)
      (htodo : s.todo = field :: todo) (hi : s.i < n_items) :
      Move T o base n_items s (.work .producer 0)
        { s with
          fifo := { s.fifo with
            mem := s.fifo.mem.store false .producer (Place.cell (T.item base s.i) field)
              (T.value field s.i) }
          todo := todo }
  | compareExpect {pointer : Ptr} {check : Check} {checks : List Check} {time : Nat} {x : Int}
      {m : PayloadMem} (hpc : s.pc = .compare pointer (check :: checks))
      (hcheck : check.against = .expect)
      (hload : s.fifo.mem.load false .consumer (Place.cell pointer check.field) time
        = some (x, m)) :
      Move T o base n_items s (.work .consumer 0)
        (PayloadState.compared { s with fifo := { s.fifo with mem := m } } pointer check checks x
          s.expect)
  | loadOther {pointer : Ptr} {check : Check} {checks : List Check} {field : Field}
      {f : Int → Int} {time : Nat} {x : Int} {m : PayloadMem}
      (hpc : s.pc = .compare pointer (check :: checks)) (hcheck : check.against = .field field f)
      (hload : s.fifo.mem.load false .consumer (Place.cell pointer check.field) time
        = some (x, m)) :
      Move T o base n_items s (.work .consumer 0)
        { s with
          fifo := { s.fifo with mem := m }
          pc := .other pointer x check field f checks }
  | compareOther {pointer : Ptr} {x y : Int} {check : Check} {field : Field} {f : Int → Int}
      {checks : List Check} {time : Nat} {m : PayloadMem}
      (hpc : s.pc = .other pointer x check field f checks)
      (hload : s.fifo.mem.load false .consumer (Place.cell pointer field) time
        = some (y, m)) :
      Move T o base n_items s (.work .consumer 0)
        (PayloadState.compared { s with fifo := { s.fifo with mem := m } } pointer check checks x
          (f y))
  | checked {pointer : Ptr} (hpc : s.pc = .compare pointer []) :
      Move T o base n_items s (.work .consumer 0)
        { s with expect := T.atEnd s.expect, received := s.received + 1, pc := .polling }

/-- A step of the FIFO in a test, seen from the FIFO. -/
theorem fifoStep_some {a : Action Nat} (h : fifoStep T o s a = some (s', e)) :
    ∃ c, step (payloadAtomics o .exact) .exact s.fifo a = some (c, e)
      ∧ s' = { s.after T e with fifo := c } := by
  unfold fifoStep at h
  obtain ⟨r, hr, h⟩ := Option.map_eq_some_iff.mp h
  obtain ⟨rfl, rfl⟩ := Prod.mk.inj h
  exact ⟨r.1, hr, rfl⟩

/-- **Inversion of `fillStep`.** -/
theorem fillStep_move {time : Nat} (h : fillStep T o base n_items s time = some (s', e)) :
    Move T o base n_items s e s' := by
  unfold fillStep at h
  split at h
  next hpc =>
    split at h
    next hi =>
      split at h
      next field todo htodo =>
        obtain ⟨rfl, rfl⟩ := Prod.mk.inj (Option.some.inj h)
        exact .fill hpc htodo hi
      next htodo =>
        obtain ⟨c, hs, rfl⟩ := fifoStep_some h
        have hs' := hs
        simp only [step, Option.map_eq_some_iff, Prod.mk.injEq] at hs'
        obtain ⟨p, _, rfl, rfl⟩ := hs'
        refine .fifo hs ?_ (by simp) (by simp)
        intro pointer hcall
        obtain rfl := WriteEvent.call.inj (Event.prod.inj hcall)
        exact ⟨rfl, htodo, hi⟩
    next => exact absurd h (by simp)
  next hpc =>
    obtain ⟨c, hs, rfl⟩ := fifoStep_some h
    have ht := step_transition hs
    have hs' := hs
    simp only [step, Option.map_eq_some_iff, Prod.mk.injEq] at hs'
    obtain ⟨p, _, rfl, rfl⟩ := hs'
    refine .fifo hs ?_ (by simp) (by simp)
    intro pointer hcall
    -- a call begins between calls only
    rw [hcall] at ht
    generalize hc : Config.mk _ _ _ _ = c' at ht
    cases ht with
    | callNull hidle => exact absurd hidle hpc
    | call hidle => exact absurd hidle hpc

/-- **Inversion of `checkStep`.** -/
theorem checkStep_move {time : Nat} (h : checkStep T o n_items s time = some (s', e)) :
    Move T o base n_items s e s' := by
  unfold checkStep at h
  split at h
  next hpc =>
    split at h
    next hidle =>
      split at h
      next hlt =>
        obtain ⟨c, hs, rfl⟩ := fifoStep_some h
        have hs' := hs
        simp only [step, Option.map_eq_some_iff, Prod.mk.injEq] at hs'
        obtain ⟨p, _, rfl, rfl⟩ := hs'
        exact .fifo hs (by simp) (fun _ _ => hpc) (fun _ => hlt)
      next => exact absurd h (by simp)
    next hbusy =>
      obtain ⟨c, hs, rfl⟩ := fifoStep_some h
      have ht := step_transition hs
      have hs' := hs
      simp only [step, Option.map_eq_some_iff, Prod.mk.injEq] at hs'
      obtain ⟨p, _, rfl, rfl⟩ := hs'
      refine .fifo hs (by simp) (fun _ _ => hpc) ?_
      intro hcall
      rw [hcall] at ht
      generalize hc : Config.mk _ _ _ _ = c' at ht
      cases ht with
      | callRead hidle => exact absurd hidle hbusy
  next pointer check checks hpc =>
    obtain ⟨r, hload, h⟩ := Option.map_eq_some_iff.mp h
    split at h
    next hcheck =>
      obtain ⟨rfl, rfl⟩ := Prod.mk.inj h
      exact .compareExpect hpc hcheck hload
    next field f hcheck =>
      obtain ⟨rfl, rfl⟩ := Prod.mk.inj h
      exact .loadOther hpc hcheck hload
  next pointer x check field f checks hpc =>
    obtain ⟨r, hload, h⟩ := Option.map_eq_some_iff.mp h
    obtain ⟨rfl, rfl⟩ := Prod.mk.inj h
    exact .compareOther hpc hload
  next pointer hpc =>
    obtain ⟨rfl, rfl⟩ := Prod.mk.inj (Option.some.inj h)
    exact .checked hpc

/-- **Inversion of `payloadStep`.** -/
theorem payloadStep_move {turn : Side × Nat}
    (h : payloadStep T o base n_items s turn = some (s', e)) : Move T o base n_items s e s' := by
  obtain ⟨side, time⟩ := turn
  cases side with
  | producer => exact fillStep_move h
  | consumer => exact checkStep_move h

end Moves

/-! ## §6. What a step of the FIFO leaves alone. -/

section Frame

variable {o : Order} {c c' : Config PayloadMem} {e : Event}

/-- Nobody forgets what it knew. -/
theorem Transition.payload_view_le (h : Transition (payloadAtomics o .exact) .exact c e c')
    (t : Thread) : c.mem.view t ≤ c'.mem.view t := by
  cases h with
  | full hpc hread | room hpc hread | empty hpc hread | avail hpc hread | load hpc hread
  | count hpc hread =>
      obtain ⟨_, _, _, _, _, hview, _⟩ := ViewMemory.load_some hread
      exact hview t
  | store hpc hwrite =>
      obtain rfl := Option.some.inj hwrite
      obtain ⟨_, _, hview, _⟩ :=
        c.mem.store_spec false Thread.producer (Place.fifo (.slot c.prod.write)) _
      exact hview t
  | increment ch hpc => exact ViewMemory.view_le_modify _ _ _ _ _ _ t
  | decrement ch hpc => exact ViewMemory.view_le_modify _ _ _ _ _ _ t
  | _ => exact le_refl _

/-- Only stores append to slots, only updates to `n`, and nothing to
payloads. -/
theorem Transition.payload_hist (h : Transition (payloadAtomics o .exact) .exact c e c')
    {p : Place} (hslot : ∀ i, p ≠ .fifo (.slot i)) (hn : e.update? = none ∨ p ≠ .fifo .n) :
    c'.mem.hist p = c.mem.hist p := by
  cases h with
  | full hpc hread | room hpc hread | empty hpc hread | avail hpc hread | load hpc hread
  | count hpc hread =>
      obtain ⟨_, _, _, _, hhist, _⟩ := ViewMemory.load_some hread
      show ViewMemory.hist _ _ = _
      rw [hhist]
  | @store pointer _ _ hpc hwrite =>
      obtain rfl := Option.some.inj hwrite
      obtain ⟨_, hhist, _⟩ :=
        c.mem.store_spec false Thread.producer (Place.fifo (.slot c.prod.write)) pointer
      show (c.mem.store false Thread.producer (Place.fifo (.slot c.prod.write)) pointer).hist _ = _
      rw [hhist, Function.update_of_ne (hslot _)]
  | increment ch hpc | decrement ch hpc =>
      show (ViewMemory.modify _ _ _ (Place.fifo .n) _ c.mem).hist _ = _
      rcases hn with hup | hne
      · simp at hup
      · exact ViewMemory.modify_other _ _ _ _ hne
  | _ => rfl

end Frame

end MulleFifo
