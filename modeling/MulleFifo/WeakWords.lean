/-
  MulleFifo.WeakWords — machine words over weak memory, and compiled headers.

  Over weak memory a thread may compute with an old value of `n`, so the
  arguments of `MachineWords` do not carry over: they are about the one
  value the counter has.  Here every value that `n` EVER had is in range
  (`CountHistory.in_range`), an update acts on the newest one, and the
  checks keep that one away from both ends (`WeakInv.room`/`avail`).  So

    • the machine takes the exact steps, in any order of the accesses,
    • no access leaves an array of `size` slots, so a header printed for
      `size` and compiled runs as the exact dynamic FIFO, over the same
      weak memory and from the same contents of the storage.
-/
import MulleFifo.StaleCounts
import MulleFifo.MachineWords
import MulleFifo.Model.FixedFamily

namespace MulleFifo

open Lib

/-! ## §1. Every operand is in range. -/

/-- What could overflow or leave the storage in a state, and does not. -/
structure WeakNoOverflow (u w : Nat) (c : Config RaMem) : Prop where
  write_succ : c.prod.write + 1 < 2 ^ u
  read_succ : c.cons.read + 1 < 2 ^ u
  /-- The remainder by `size` is evaluated only where `size ≠ 0`. -/
  write_modulus : ∀ pointer, c.prod.pc = .index pointer → c.size ≠ 0
  read_modulus : ∀ pointer, c.cons.pc = .index pointer → c.size ≠ 0
  store_inside : ∀ pointer, c.prod.pc = .store pointer → c.prod.write < c.size
  load_inside : c.cons.pc = .load → c.cons.read < c.size
  /-- Whatever value of `n` is loaded, stale ones included. -/
  value_range : ∀ msg : Message Loc Int, msg ∈ c.mem.hist .n →
    0 ≤ msg.value ∧ msg.value ≤ c.size
  /-- The cast in `_mulle_pointerfifo_get_count` loses nothing. -/
  count_exact : ∀ msg : Message Loc Int, msg ∈ c.mem.hist .n →
    ((Words.machine u w).toUnsigned msg.value : ℤ) = msg.value
  /-- The value an update acts on. -/
  increment_lt : ∀ pointer, c.prod.pc = .increment pointer →
    ∀ last : Message Loc Int, (c.mem.hist .n).getLast? = some last → last.value < c.size
  decrement_pos : ∀ pointer, c.cons.pc = .decrement pointer →
    ∀ last : Message Loc Int, (c.mem.hist .n).getLast? = some last → 0 < last.value

/-- The invariant, and that a FIFO of size 0 never accepts anything. -/
structure WeakWordInv (size : Nat) (storage : Nat → Ptr) (tr : List Event) (c : Config RaMem) :
    Prop where
  inv : WeakInv size storage tr c
  used : pushed tr ≠ [] → size ≠ 0

namespace WeakWordInv

variable {o : Order} {u w size : Nat} {storage : Nat → Ptr} {tr : List Event} {c c' : Config RaMem}

theorem init (size : Nat) (storage : Nat → Ptr) :
    WeakWordInv size storage [] (pointerfifoInitRa size storage) :=
  ⟨WeakInv.init size storage, fun h => absurd rfl h⟩

/-- A write past its full check found room. -/
theorem size_ne_of_room (hI : WeakInv size storage tr c) (hfl : c.prod.pc.inFlight ≠ []) :
    size ≠ 0 := by
  have hroom := hI.room hfl
  have hle := hI.history.bounded.1
  omega

/-- A read past its empty check found something, in a FIFO of some size. -/
theorem size_ne_of_avail (hW : WeakWordInv size storage tr c) (hfl : 0 < c.cons.pc.inFlight) :
    size ≠ 0 := by
  have hlt := hW.inv.avail hfl
  apply hW.used
  intro hnil
  rw [hnil] at hlt
  exact Nat.not_lt_zero _ hlt

theorem step_keeps (hW : WeakWordInv size storage tr c) {e : Event}
    (h : Transition (viewAtomics o .exact) .exact c e c') :
    WeakWordInv size storage (tr ++ [e]) c' := by
  refine ⟨hW.inv.step_keeps h, ?_⟩
  intro hpushed
  cases h with
  | increment ch hpc => exact size_ne_of_room hW.inv (by simp [hpc])
  | _ => exact hW.used (by simpa using hpushed)

/-- In a FIFO of size 0 nothing is pushed and nothing popped. -/
theorem unused (hW : WeakWordInv size storage tr c) (hzero : size = 0) :
    (pushed tr).length = 0 ∧ (popped tr).length = 0 := by
  have hnil : pushed tr = [] := by
    by_contra hne
    exact hW.used hne hzero
  have hle := hW.inv.history.bounded.1
  rw [hnil] at hle ⊢
  exact ⟨rfl, Nat.le_zero.mp hle⟩

/-- The producer's index is in range, or has never been used. -/
theorem write_le (hW : WeakWordInv size storage tr c) :
    c.prod.write < size ∨ c.prod.write = 0 := by
  rcases Nat.eq_zero_or_pos size with hzero | hpos
  · right
    have hwp : c.prod.pc.wp = 0 := by
      cases hpc : c.prod.pc with
      | increment pointer => exact absurd hzero (size_ne_of_room hW.inv (by simp [hpc]))
      | _ => rfl
    rw [hW.inv.producer.write_eq, (hW.unused hzero).1, hwp]
    exact Nat.zero_mod size
  · left
    rw [hW.inv.producer.write_eq]
    exact Nat.mod_lt _ hpos

/-- The consumer's index is in range, or has never been used. -/
theorem read_le (hW : WeakWordInv size storage tr c) : c.cons.read < size ∨ c.cons.read = 0 := by
  rcases Nat.eq_zero_or_pos size with hzero | hpos
  · right
    have hrp : c.cons.pc.rp = 0 := by
      cases hpc : c.cons.pc with
      | decrement pointer => exact absurd hzero (hW.size_ne_of_avail (by simp [hpc]))
      | _ => rfl
    rw [hW.inv.consumer.read_eq, (hW.unused hzero).2, hrp]
    exact Nat.zero_mod size
  · left
    rw [hW.inv.consumer.read_eq]
    exact Nat.mod_lt _ hpos

/-- The newest value is the number of pushed, unpopped pointers. -/
theorem newest_value (hI : WeakInv size storage tr c) {last : Message Loc Int}
    (hlast : (c.mem.hist .n).getLast? = some last) :
    last.value = (pushed tr).length - (popped tr).length := by
  obtain ⟨last', hlast', _, hvalue⟩ := hI.history.newest
  obtain rfl : last' = last := Option.some.inj (hlast'.symm.trans hlast)
  exact hvalue

/-- **Nothing overflows**, whatever value of `n` a thread goes by. -/
theorem noOverflow (hW : WeakWordInv size storage tr c) (hu : 0 < u) (hsize : size < 2 ^ u) :
    WeakNoOverflow u w c := by
  have hI := hW.inv
  have hone : 1 < 2 ^ u := Nat.one_lt_two_pow (Nat.pos_iff_ne_zero.mp hu)
  have hw := hW.write_le
  have hr := hW.read_le
  have hsz := hI.size_eq
  have hrange : ∀ msg : Message Loc Int, msg ∈ c.mem.hist .n →
      0 ≤ msg.value ∧ msg.value ≤ c.size := by
    intro msg hmem
    rw [hsz]
    exact hI.history.in_range hmem
  constructor
  case write_succ => omega
  case read_succ => omega
  case write_modulus =>
    intro pointer hpc
    rw [hsz]
    exact size_ne_of_room hI (by simp [hpc])
  case read_modulus =>
    intro pointer hpc
    rw [hsz]
    exact hW.size_ne_of_avail (by simp [hpc])
  case store_inside =>
    intro pointer hpc
    have hne := size_ne_of_room hI (by simp [hpc])
    omega
  case load_inside =>
    intro hpc
    have hne := hW.size_ne_of_avail (by simp [hpc])
    omega
  case value_range => exact hrange
  case count_exact =>
    intro msg hmem
    have hvalue := hrange msg hmem
    show ((msg.value.toNat % 2 ^ u : Nat) : ℤ) = msg.value
    rw [Nat.mod_eq_of_lt (by omega)]
    omega
  case increment_lt =>
    intro pointer hpc last hlast
    have hlt := hI.room (by simp [hpc])
    have hvalue := newest_value hI hlast
    omega
  case decrement_pos =>
    intro pointer hpc last hlast
    have hlt := hI.avail (by simp [hpc])
    have hvalue := newest_value hI hlast
    omega

end WeakWordInv

/-! ## §2. The machine takes the exact steps. -/

namespace WeakNoOverflow

variable {o : Order} {u w : Nat} {c : Config RaMem}

/-- Every load of `n` is cast to the same count. -/
theorem getCount_eq (h : WeakNoOverflow u w c) (t : Thread) (time : Nat) :
    getCount (viewAtomics o (.machine u w) t time) (.machine u w) c.mem
      = getCount (viewAtomics o .exact t time) .exact c.mem := by
  show (c.mem.load o.loadAcquires t Loc.n time).map _
    = (c.mem.load o.loadAcquires t Loc.n time).map _
  cases hload : c.mem.load o.loadAcquires t Loc.n time with
  | none => rfl
  | some r =>
      obtain ⟨x, m'⟩ := r
      obtain ⟨msg, hmsg, rfl, _⟩ := ViewMemory.load_some hload
      have hmem : msg ∈ c.mem.hist .n := List.mem_of_getElem? hmsg
      have hcast : (Words.machine u w).toUnsigned msg.value
          = Words.exact.toUnsigned msg.value := by
        have hexact := h.count_exact msg hmem
        have hnonneg := (h.value_range msg hmem).1
        show (Words.machine u w).toUnsigned msg.value = Int.toNat msg.value
        omega
      show some ((Words.machine u w).toUnsigned msg.value, m')
        = some (Words.exact.toUnsigned msg.value, m')
      rw [hcast]

theorem incrementN_eq (h : WeakNoOverflow u w c) (hword : c.size < 2 ^ w) {pointer : Ptr}
    (hpc : c.prod.pc = .increment pointer) (time : Nat) :
    (viewAtomics o (.machine u w) .producer time).incrementN c.mem
      = (viewAtomics o .exact .producer time).incrementN c.mem := by
  refine ViewMemory.modify_congr _ _ _ ?_
  intro last hlast
  have hlt := h.increment_lt pointer hpc last hlast
  have hnonneg := (h.value_range last (List.mem_of_getLast? hlast)).1
  have hpow : (c.size : ℤ) < 2 ^ w := by exact_mod_cast hword
  show (last.value + 1) % 2 ^ w = last.value + 1
  exact Int.emod_eq_of_lt (by omega) (by omega)

theorem decrementN_eq (h : WeakNoOverflow u w c) (hword : c.size < 2 ^ w) {pointer : Ptr}
    (hpc : c.cons.pc = .decrement pointer) (time : Nat) :
    (viewAtomics o (.machine u w) .consumer time).decrementN c.mem
      = (viewAtomics o .exact .consumer time).decrementN c.mem := by
  refine ViewMemory.modify_congr _ _ _ ?_
  intro last hlast
  have hpos := h.decrement_pos pointer hpc last hlast
  have hle := (h.value_range last (List.mem_of_getLast? hlast)).2
  have hpow : (c.size : ℤ) < 2 ^ w := by exact_mod_cast hword
  show (last.value - 1) % 2 ^ w = last.value - 1
  exact Int.emod_eq_of_lt (by omega) (by omega)

theorem writeStep_eq (h : WeakNoOverflow u w c) (hword : c.size < 2 ^ w) (time : Nat) :
    writeStep (viewAtomics o (.machine u w) .producer time) (.machine u w) c.size c.size c.prod
        c.mem
      = writeStep (viewAtomics o .exact .producer time) .exact c.size c.size c.prod c.mem := by
  have hsucc : (Words.machine u w).succ c.prod.write = Words.exact.succ c.prod.write :=
    Nat.mod_eq_of_lt h.write_succ
  unfold writeStep
  cases hpc : c.prod.pc with
  | getCount pointer => simp only [h.getCount_eq]
  | index pointer => simp only [hsucc]
  | increment pointer => simp only [h.incrementN_eq hword hpc]
  | _ => rfl

theorem readStep_eq (h : WeakNoOverflow u w c) (hword : c.size < 2 ^ w) (time : Nat) :
    readStep (viewAtomics o (.machine u w) .consumer time) (.machine u w) c.size c.cons c.mem
      = readStep (viewAtomics o .exact .consumer time) .exact c.size c.cons c.mem := by
  have hsucc : (Words.machine u w).succ c.cons.read = Words.exact.succ c.cons.read :=
    Nat.mod_eq_of_lt h.read_succ
  unfold readStep
  cases hpc : c.cons.pc with
  | getCount => simp only [h.getCount_eq]
  | index pointer => simp only [hsucc]
  | decrement pointer => simp only [h.decrementN_eq hword hpc]
  | _ => rfl

/-- **One step of the machine is the exact step.** -/
theorem step_eq (h : WeakNoOverflow u w c) (hword : c.size < 2 ^ w) (a : Action Nat) :
    step (viewAtomics o (.machine u w)) (.machine u w) c a
      = step (viewAtomics o .exact) .exact c a := by
  cases a with
  | prod time => simp only [step, h.writeStep_eq hword]
  | cons time => simp only [step, h.readStep_eq hword]
  | getCount t time => simp only [step, h.getCount_eq]
  | callWrite _ | callRead | work _ _ => rfl

end WeakNoOverflow

/-! ## §3. No access leaves the array. -/

/-- The weak memory of a struct with an array of `length` slots: there are
no others. -/
def viewArray (o : Order) (W : Words) (length : Nat) : MemoryModel RaMem Nat := fun t time =>
  { viewAtomics o W t time with
    readSlot := fun i m => if i < length then (viewAtomics o W t time).readSlot i m else none
    writeSlot := fun i pointer m =>
      if i < length then (viewAtomics o W t time).writeSlot i pointer m else none }

/-- `_mulle__pointerfifo64_init( p)` over weak memory. -/
def fixedInitRa (storage : Nat → Ptr) : FixedConfig RaMem where
  mem := { hist := fun l => [initialMessage storage l], view := fun _ _ => 0 }
  prod := { pc := .idle, write := 0 }
  cons := { pc := .idle, read := 0 }

/-- Run a schedule on a freshly initialised dynamic FIFO with these words. -/
abbrev raRunWords (o : Order) (W : Words) (size : Nat) (storage : Nat → Ptr)
    (as : List (Action Nat)) : Option (Config RaMem × List Event) :=
  run (step (viewAtomics o W) W) (pointerfifoInitRa size storage) as

/-- Run a schedule on a freshly initialised fixed FIFO with these words. -/
abbrev fixedRunRa (o : Order) (h : Header) (W : Words) (storage : Nat → Ptr)
    (as : List (Action Nat)) : Option (FixedConfig RaMem × List Event) :=
  run (fixedStep h (viewArray o W h.arrayLength.value) W) (fixedInitRa storage) as

/-- In range, the array is as good as an unbounded storage. -/
theorem seenAs_viewArray {u w size : Nat} {c : Config RaMem} (h : WeakNoOverflow u w c)
    (hsize : c.size = size) (o : Order) (W : Words) :
    SeenAs (viewArray o W size) (viewAtomics o W) (fun m => m) c where
  readN _ _ := Option.map_id'.symm
  readSlot hpc time := by
    have hlt := h.load_inside hpc
    rw [hsize] at hlt
    show _ = (if c.cons.read < size then _ else _ : Option (Ptr × RaMem)).map _
    rw [if_pos hlt]
    exact Option.map_id'.symm
  writeSlot pointer hpc time := by
    have hlt := h.store_inside pointer hpc
    rw [hsize] at hlt
    show _ = (if c.prod.write < size then _ else _ : Option RaMem).map _
    rw [if_pos hlt]
    exact Option.map_id'.symm
  incrementN _ := rfl
  decrementN _ := rfl

/-- **One step over the array is one step over the unbounded storage.** -/
theorem step_viewArray {u w size : Nat} {c : Config RaMem} (h : WeakNoOverflow u w c)
    (hsize : c.size = size) (o : Order) (W : Words) (a : Action Nat) :
    step (viewArray o W size) W c a = step (viewAtomics o W) W c a := by
  have hstep := (seenAs_viewArray h hsize o W).step_eq W a
  have hsame : (fun x : Config RaMem × Event => (x.1.seen fun m => m, x.2)) = id := rfl
  rw [hsame, Option.map_id] at hstep
  exact hstep.symm

/-! ## §4. Runs. -/

section Runs

variable {u w size : Nat}

theorem weakWordInv_keep (o : Order) {storage : Nat → Ptr} (tr : List Event) (c : Config RaMem)
    (a : Action Nat) (c' : Config RaMem) (e : Event) (hW : WeakWordInv size storage tr c)
    (hs : step (viewAtomics o .exact) .exact c a = some (c', e)) :
    WeakWordInv size storage (tr ++ [e]) c' :=
  hW.step_keeps (step_transition hs)

/-- Whatever the storage may be, machine words take the exact steps. -/
theorem machine_step_eq (o : Order) (hu : 0 < u) (huw : u ≤ w) (hsize : size < 2 ^ u)
    {storage : Nat → Ptr} {tr : List Event} {c : Config RaMem}
    (hW : WeakWordInv size storage tr c) (a : Action Nat) :
    step (viewAtomics o (.machine u w)) (.machine u w) c a
      = step (viewAtomics o .exact) .exact c a := by
  have hpow : 2 ^ u ≤ 2 ^ w := Nat.pow_le_pow_right (by decide) huw
  have hno : WeakNoOverflow u w c := hW.noOverflow hu hsize
  apply hno.step_eq
  rw [hW.inv.size_eq]
  omega

/-- The dynamic FIFO on machine words. -/
theorem raRunWords_eq (o : Order) (hu : 0 < u) (huw : u ≤ w) (hsize : size < 2 ^ u)
    (storage : Nat → Ptr) (as : List (Action Nat)) :
    raRunWords o (.machine u w) size storage as = raRun o size storage as :=
  run_congr (WeakWordInv.init size storage) (weakWordInv_keep o)
    (fun _ _ a hW => machine_step_eq o hu huw hsize hW a) as

/-- A printed header on machine words. -/
theorem fixedRunRa_eq (o : Order) (hu : 0 < u) (huw : u ≤ w) (hsize : size < 2 ^ u)
    (storage : Nat → Ptr) (as : List (Action Nat)) :
    (fixedRunRa o (header64.print size) (.machine u w) storage as).map
        (fun x => (x.1.dynamic size, x.2))
      = raRun o size storage as := by
  have hcap := print_capacity size
  have harray : run (step (viewArray o (.machine u w) size) (.machine u w))
      (pointerfifoInitRa size storage) as = raRun o size storage as := by
    refine run_congr (WeakWordInv.init size storage) (weakWordInv_keep o) ?_ as
    intro tr c a hW
    have hno : WeakNoOverflow u w c := hW.noOverflow hu hsize
    rw [step_viewArray hno hW.inv.size_eq, machine_step_eq o hu huw hsize hW]
  rw [← harray]
  unfold fixedRunRa
  rw [hcap.arrayLength]
  exact (run_map (fixedStep_dynamic hcap _ _) (fixedInitRa storage) as).symm

end Runs

/-! ## §5. The theorem. -/

/-- **COMPILED HEADERS OVER WEAK MEMORY.**  In any order of the accesses,
relaxed ones included, and for every size an `unsigned int` can hold: the
dynamic FIFO on machine words, and a header printed for that size, compiled
to machine words and to an array of that many slots, run every schedule as
the dynamic FIFO over the integers with an unbounded storage does, and show
the same events.  In every state they reach nothing overflows and no access
is outside the storage, whatever values of `n` the threads went by. -/
theorem weak_words_exact (o : Order) (u w size : Nat) (hu : 0 < u) (huw : u ≤ w)
    (hsize : size < 2 ^ u) (storage : Nat → Ptr) (as : List (Action Nat)) :
    raRunWords o (.machine u w) size storage as = raRun o size storage as
      ∧ (fixedRunRa o (header64.print size) (.machine u w) storage as).map
          (fun x => (x.1.dynamic size, x.2)) = raRun o size storage as
      ∧ ∀ c tr, raRunWords o (.machine u w) size storage as = some (c, tr) →
          WeakNoOverflow u w c := by
  have hdynamic := raRunWords_eq o hu huw hsize storage as
  refine ⟨hdynamic, fixedRunRa_eq o hu huw hsize storage as, ?_⟩
  intro c tr h
  rw [hdynamic] at h
  have hW := run_invariant (WeakWordInv.init size storage) (weakWordInv_keep o) h
  exact hW.noOverflow hu hsize

/-- The write that is refused on a stale count, on 2-bit indices and a 2-bit
counter: the printed header refuses it, too. -/
theorem lagging_words_exact :
    ((fixedRunRa (releaseAcquire false) (header64.print 2) (.machine 2 2) (fun _ => 77)
        lagging).map fun x => (x.1.dynamic 2, x.2))
      = raRun (releaseAcquire false) 2 (fun _ => 77) lagging
      ∧ (raRun (releaseAcquire false) 2 (fun _ => 77) lagging).map (fun x => writes x.2)
        = some [(5, 0), (6, 0), (7, -1)] :=
  ⟨(weak_words_exact (releaseAcquire false) 2 2 2 (by decide) (by decide) (by decide)
    (fun _ => 77) lagging).2.1, rfl⟩

end MulleFifo
