/-
  MulleFifo.Model.Trace — what a trace of the FIFO says was written and read.

  A pointer on its way through the FIFO passes eight stations, and each has
  a list (in trace order) of the pointers that passed it:

      admitted → stored → pushed → accepted          (producer)
      granted  → loaded → popped → received          (consumer)

  A write is `admitted` when it passed its full check, `stored` when its
  pointer is in the slot, `pushed` when it incremented `n`, and `accepted`
  when it returned 0; a read is `granted` when it passed its empty check,
  and so on.

  The stations of one side never drift apart: the lists differ by at most
  the pointer of the call in progress, and the program point says which
  (`ProducerInv`, `ConsumerInv`).  This is a fact about the code alone —
  it holds over EVERY memory model.
-/
import Mathlib.Data.List.Basic
import MulleFifo.Model.Pointerfifo
import MulleFifo.Lib.Runs
import MulleFifo.Lib.Ring
import MulleFifo.Lib.Events

namespace MulleFifo

open Lib

/-! ## §1. The stations of the producer. -/

@[simp] def Event.admitted? : Event → Option Ptr
  | .prod (.room pointer _) => some pointer
  | _ => none

@[simp] def Event.stored? : Event → Option Ptr
  | .prod (.store _ pointer) => some pointer
  | _ => none

@[simp] def Event.storeSlot? : Event → Option Nat
  | .prod (.store slot _) => some slot
  | _ => none

@[simp] def Event.indexedWrite? : Event → Option Unit
  | .prod .index => some ()
  | _ => none

@[simp] def Event.pushed? : Event → Option Ptr
  | .prod (.increment pointer) => some pointer
  | _ => none

@[simp] def Event.writeResult? : Event → Option (Ptr × Int)
  | .prod (.ret pointer rval) => some (pointer, rval)
  | _ => none

@[simp] def Event.accepted? : Event → Option Ptr
  | .prod (.ret pointer rval) => if rval = 0 then some pointer else none
  | _ => none

/-- The pointers whose write passed its full check. -/
def admitted (tr : List Event) : List Ptr := tr.filterMap Event.admitted?

/-- The pointers stored into a slot. -/
def stored (tr : List Event) : List Ptr := tr.filterMap Event.stored?

/-- The slots they were stored into. -/
def storeSlots (tr : List Event) : List Nat := tr.filterMap Event.storeSlot?

/-- The index updates of writes. -/
def indexedWrites (tr : List Event) : List Unit := tr.filterMap Event.indexedWrite?

/-- The pointers whose write incremented `n`. -/
def pushed (tr : List Event) : List Ptr := tr.filterMap Event.pushed?

/-- The completed writes: pointer and result. -/
def writes (tr : List Event) : List (Ptr × Int) := tr.filterMap Event.writeResult?

/-- The pointers whose write returned 0. -/
def accepted (tr : List Event) : List Ptr := tr.filterMap Event.accepted?

/-! ## §2. The stations of the consumer. -/

@[simp] def Event.granted? : Event → Option Nat
  | .cons (.avail n) => some n
  | _ => none

@[simp] def Event.loaded? : Event → Option Ptr
  | .cons (.load _ pointer) => some pointer
  | _ => none

@[simp] def Event.loadSlot? : Event → Option Nat
  | .cons (.load slot _) => some slot
  | _ => none

@[simp] def Event.indexedRead? : Event → Option Unit
  | .cons .index => some ()
  | _ => none

@[simp] def Event.popped? : Event → Option Ptr
  | .cons (.decrement pointer) => some pointer
  | _ => none

@[simp] def Event.readResult? : Event → Option Ptr
  | .cons (.ret pointer) => some pointer
  | _ => none

@[simp] def Event.received? : Event → Option Ptr
  | .cons (.ret pointer) => if pointer = NULL then none else some pointer
  | _ => none

/-- The counts seen by the reads that passed their empty check. -/
def granted (tr : List Event) : List Nat := tr.filterMap Event.granted?

/-- The pointers loaded from a slot. -/
def loaded (tr : List Event) : List Ptr := tr.filterMap Event.loaded?

/-- The slots they were loaded from. -/
def loadSlots (tr : List Event) : List Nat := tr.filterMap Event.loadSlot?

/-- The index updates of reads. -/
def indexedReads (tr : List Event) : List Unit := tr.filterMap Event.indexedRead?

/-- The pointers whose read decremented `n`. -/
def popped (tr : List Event) : List Ptr := tr.filterMap Event.popped?

/-- The completed reads, with what they returned. -/
def reads (tr : List Event) : List Ptr := tr.filterMap Event.readResult?

/-- The non-NULL pointers that reads returned. -/
def received (tr : List Event) : List Ptr := tr.filterMap Event.received?

/-! ## §3. One more event. -/

/-- Collecting from a trace with one more event. -/
theorem filterMap_snoc {β : Type*} (f : Event → Option β) (tr : List Event) (e : Event) :
    (tr ++ [e]).filterMap f = tr.filterMap f ++ (f e).toList := by
  rw [List.filterMap_append]
  cases h : f e <;> simp [h]

@[simp] theorem admitted_snoc (tr : List Event) (e : Event) :
    admitted (tr ++ [e]) = admitted tr ++ e.admitted?.toList := filterMap_snoc _ tr e

@[simp] theorem stored_snoc (tr : List Event) (e : Event) :
    stored (tr ++ [e]) = stored tr ++ e.stored?.toList := filterMap_snoc _ tr e

@[simp] theorem storeSlots_snoc (tr : List Event) (e : Event) :
    storeSlots (tr ++ [e]) = storeSlots tr ++ e.storeSlot?.toList := filterMap_snoc _ tr e

@[simp] theorem indexedWrites_snoc (tr : List Event) (e : Event) :
    indexedWrites (tr ++ [e]) = indexedWrites tr ++ e.indexedWrite?.toList :=
  filterMap_snoc _ tr e

@[simp] theorem pushed_snoc (tr : List Event) (e : Event) :
    pushed (tr ++ [e]) = pushed tr ++ e.pushed?.toList := filterMap_snoc _ tr e

@[simp] theorem writes_snoc (tr : List Event) (e : Event) :
    writes (tr ++ [e]) = writes tr ++ e.writeResult?.toList := filterMap_snoc _ tr e

@[simp] theorem accepted_snoc (tr : List Event) (e : Event) :
    accepted (tr ++ [e]) = accepted tr ++ e.accepted?.toList := filterMap_snoc _ tr e

@[simp] theorem granted_snoc (tr : List Event) (e : Event) :
    granted (tr ++ [e]) = granted tr ++ e.granted?.toList := filterMap_snoc _ tr e

@[simp] theorem loaded_snoc (tr : List Event) (e : Event) :
    loaded (tr ++ [e]) = loaded tr ++ e.loaded?.toList := filterMap_snoc _ tr e

@[simp] theorem loadSlots_snoc (tr : List Event) (e : Event) :
    loadSlots (tr ++ [e]) = loadSlots tr ++ e.loadSlot?.toList := filterMap_snoc _ tr e

@[simp] theorem indexedReads_snoc (tr : List Event) (e : Event) :
    indexedReads (tr ++ [e]) = indexedReads tr ++ e.indexedRead?.toList :=
  filterMap_snoc _ tr e

@[simp] theorem popped_snoc (tr : List Event) (e : Event) :
    popped (tr ++ [e]) = popped tr ++ e.popped?.toList := filterMap_snoc _ tr e

@[simp] theorem reads_snoc (tr : List Event) (e : Event) :
    reads (tr ++ [e]) = reads tr ++ e.readResult?.toList := filterMap_snoc _ tr e

@[simp] theorem received_snoc (tr : List Event) (e : Event) :
    received (tr ++ [e]) = received tr ++ e.received?.toList := filterMap_snoc _ tr e

/-! ## §4. Two traces in a row. -/

section Append

variable (tr tr' : List Event)

theorem pushed_append : pushed (tr ++ tr') = pushed tr ++ pushed tr' := List.filterMap_append

theorem popped_append : popped (tr ++ tr') = popped tr ++ popped tr' := List.filterMap_append

theorem accepted_append : accepted (tr ++ tr') = accepted tr ++ accepted tr' :=
  List.filterMap_append

theorem loaded_append : loaded (tr ++ tr') = loaded tr ++ loaded tr' := List.filterMap_append

theorem received_append : received (tr ++ tr') = received tr ++ received tr' :=
  List.filterMap_append

end Append

/-- The non-NULL results are the reads that are not NULL. -/
theorem received_eq_reads (tr : List Event) :
    received tr = (reads tr).filter fun pointer => pointer ≠ NULL := by
  unfold received reads
  rw [List.filter_filterMap]
  apply List.filterMap_congr
  intro e _
  cases e with
  | cons r =>
      cases r with
      | ret pointer => by_cases hnull : pointer = NULL <;> simp [hnull, Option.filter]
      | _ => rfl
  | _ => rfl

/-! ## §5. The pointer of the call in progress. -/

/-- The pointer argument of a write that has an access ahead of it. -/
@[simp] def WritePc.arg : WritePc → List Ptr
  | .getCount pointer | .store pointer | .index pointer | .increment pointer => [pointer]
  | _ => []

/-- Admitted but not pushed yet. -/
@[simp] def WritePc.inFlight : WritePc → List Ptr
  | .store pointer | .index pointer | .increment pointer => [pointer]
  | _ => []

/-- Stored but not pushed yet. -/
@[simp] def WritePc.placed : WritePc → List Ptr
  | .index pointer | .increment pointer => [pointer]
  | _ => []

/-- Pushed but not returned yet. -/
@[simp] def WritePc.unreturned : WritePc → List Ptr
  | .ret pointer rval => if rval = 0 then [pointer] else []
  | _ => []

/-- `1` exactly between the index update and the increment of a write. -/
@[simp] def WritePc.wp : WritePc → Nat
  | .increment _ => 1
  | _ => 0

/-- `1` exactly from the empty check of a read to its decrement. -/
@[simp] def ReadPc.inFlight : ReadPc → Nat
  | .load | .index _ | .decrement _ => 1
  | _ => 0

/-- Loaded but not popped yet. -/
@[simp] def ReadPc.taken : ReadPc → List Ptr
  | .index pointer | .decrement pointer => [pointer]
  | _ => []

/-- Popped but not returned yet. -/
@[simp] def ReadPc.unreturned : ReadPc → List Ptr
  | .ret pointer => if pointer = NULL then [] else [pointer]
  | _ => []

/-- `1` exactly between the index update and the decrement of a read. -/
@[simp] def ReadPc.rp : ReadPc → Nat
  | .decrement _ => 1
  | _ => 0

/-! ## §6. The producer's side, over every memory. -/

/-- The results a write can have: -2 exactly for NULL, else 0 or -1. -/
def ResultOk (pointer : Ptr) (rval : Int) : Prop :=
  (pointer = NULL ∧ rval = -2) ∨ (pointer ≠ NULL ∧ (rval = -1 ∨ rval = 0))

/-- The producer between two steps, after the trace `tr`. -/
structure ProducerInv (size : Nat) (tr : List Event) (p : Producer) : Prop where
  admitted_eq : admitted tr = pushed tr ++ p.pc.inFlight
  stored_eq : stored tr = pushed tr ++ p.pc.placed
  pushed_eq : pushed tr = accepted tr ++ p.pc.unreturned
  slots_eq : storeSlots tr = (List.range (stored tr).length).map (· % size)
  indexed_eq : (indexedWrites tr).length = (pushed tr).length + p.pc.wp
  write_eq : p.write = ((pushed tr).length + p.pc.wp) % size
  arg_ne : ∀ pointer ∈ p.pc.arg, pointer ≠ NULL
  pushed_ne : ∀ pointer ∈ pushed tr, pointer ≠ NULL
  ret_ok : ∀ pointer rval, p.pc = .ret pointer rval → ResultOk pointer rval
  writes_ok : ∀ pointer rval, (pointer, rval) ∈ writes tr → ResultOk pointer rval

theorem ProducerInv.init (size : Nat) : ProducerInv size [] ⟨.idle, 0⟩ := by
  constructor <;> simp [admitted, stored, pushed, accepted, storeSlots, indexedWrites, writes]

/-- Nothing is stored beyond the pushed pointers and the one in flight. -/
theorem ProducerInv.stored_length_le {size bound : Nat} {tr : List Event} {p : Producer}
    (hI : ProducerInv size tr p) (hbd : (pushed tr).length ≤ bound)
    (hroom : p.pc.inFlight ≠ [] → (pushed tr).length < bound) : (stored tr).length ≤ bound := by
  rw [hI.stored_eq, List.length_append]
  by_cases hfl : p.pc.inFlight = []
  · have hpl : p.pc.placed = [] := by
      cases hpc : p.pc <;> simp_all
    rw [hpl, List.length_nil]
    omega
  · have hlt := hroom hfl
    have hone : p.pc.placed.length ≤ 1 := by
      cases hpc : p.pc <;> simp
    omega

variable {μ χ : Type} {M : MemoryModel μ χ}

namespace ProducerInv

variable {c c' : Config μ} {tr : List Event} {e : Event}

/-! One lemma for each fact: the steps of the producer that matter to it,
and then all the others. -/

theorem admitted_step (hI : ProducerInv c.size tr c.prod) (h : Transition M .exact c e c') :
    admitted (tr ++ [e]) = pushed (tr ++ [e]) ++ c'.prod.pc.inFlight := by
  have heq := hI.admitted_eq
  cases h with
  | callNull hpc | call hpc | full hpc | room hpc | store hpc | indexWrite hpc | increment _ hpc
  | retWrite hpc =>
      rw [hpc] at heq
      simpa using heq
  | _ => simpa using heq

theorem stored_step (hI : ProducerInv c.size tr c.prod) (h : Transition M .exact c e c') :
    stored (tr ++ [e]) = pushed (tr ++ [e]) ++ c'.prod.pc.placed := by
  have heq := hI.stored_eq
  cases h with
  | callNull hpc | call hpc | full hpc | room hpc | store hpc | indexWrite hpc | increment _ hpc
  | retWrite hpc =>
      rw [hpc] at heq
      simpa using heq
  | _ => simpa using heq

theorem pushed_step (hI : ProducerInv c.size tr c.prod) (h : Transition M .exact c e c') :
    pushed (tr ++ [e]) = accepted (tr ++ [e]) ++ c'.prod.pc.unreturned := by
  have heq := hI.pushed_eq
  cases h with
  | callNull hpc | call hpc | full hpc | room hpc | store hpc | indexWrite hpc
  | increment _ hpc =>
      rw [hpc] at heq
      simpa using heq
  | @retWrite pointer rval hpc =>
      -- accepted exactly if it returns 0
      rw [hpc] at heq
      by_cases hzero : rval = 0
      · simpa [hzero] using heq
      · simpa [hzero] using heq
  | _ => simpa using heq

theorem slots_step (hI : ProducerInv c.size tr c.prod) (h : Transition M .exact c e c') :
    storeSlots (tr ++ [e]) = (List.range (stored (tr ++ [e])).length).map (· % c'.size) := by
  have heq := hI.slots_eq
  cases h with
  | store hpc hwrite =>
      -- the slot is the one of position `(stored tr).length = (pushed tr).length`
      have hstored := hI.stored_eq
      have hslot := hI.write_eq
      rw [hpc] at hstored hslot
      simp only [WritePc.placed, List.append_nil] at hstored
      simp only [WritePc.wp, Nat.add_zero] at hslot
      rw [storeSlots_snoc, stored_snoc, heq, hstored]
      simp [List.range_succ, hslot]
  | _ => simpa using heq

theorem indexed_step (hI : ProducerInv c.size tr c.prod) (h : Transition M .exact c e c') :
    (indexedWrites (tr ++ [e])).length = (pushed (tr ++ [e])).length + c'.prod.pc.wp := by
  have heq := hI.indexed_eq
  cases h with
  | callNull hpc | call hpc | full hpc | room hpc | store hpc | indexWrite hpc | increment _ hpc
  | retWrite hpc =>
      rw [hpc] at heq
      simpa using heq
  | _ => simpa using heq

theorem write_step (hI : ProducerInv c.size tr c.prod) (h : Transition M .exact c e c') :
    c'.prod.write = ((pushed (tr ++ [e])).length + c'.prod.pc.wp) % c'.size := by
  have heq := hI.write_eq
  cases h with
  | indexWrite hpc =>
      rw [hpc] at heq
      show (c.prod.write + 1) % c.size = _
      rw [heq]
      simp
  | callNull hpc | call hpc | full hpc | room hpc | store hpc | increment _ hpc
  | retWrite hpc =>
      rw [hpc] at heq
      simpa using heq
  | _ => simpa using heq

theorem arg_step (hI : ProducerInv c.size tr c.prod) (h : Transition M .exact c e c') :
    ∀ pointer ∈ c'.prod.pc.arg, pointer ≠ NULL := by
  have hne := hI.arg_ne
  cases h with
  | call hpc hp =>
      -- the pointer was checked
      intro pointer' hmem
      rw [List.mem_singleton.mp hmem]
      exact hp
  | room hpc | store hpc | indexWrite hpc =>
      rw [hpc] at hne
      simpa using hne
  | callNull | full | increment | retWrite => simp
  | _ => exact hne

theorem pushed_ne_step (hI : ProducerInv c.size tr c.prod) (h : Transition M .exact c e c') :
    ∀ pointer ∈ pushed (tr ++ [e]), pointer ≠ NULL := by
  have hne := hI.pushed_ne
  cases h with
  | @increment pointer _ hpc =>
      -- the pushed pointer was checked at the call
      have harg := hI.arg_ne
      rw [hpc] at harg
      intro pointer' hmem
      rw [pushed_snoc] at hmem
      rcases List.mem_append.mp hmem with hold | hnew
      · exact hne pointer' hold
      · rw [List.mem_singleton.mp hnew]
        exact harg pointer (by simp)
  | _ => simpa using hne

theorem ret_step (hI : ProducerInv c.size tr c.prod) (h : Transition M .exact c e c') :
    ∀ pointer rval, c'.prod.pc = .ret pointer rval → ResultOk pointer rval := by
  have harg := hI.arg_ne
  intro pointer rval hret
  cases h with
  | callNull hpc =>
      -- answered at once, with -2
      obtain ⟨rfl, rfl⟩ := WritePc.ret.inj hret
      exact .inl ⟨rfl, rfl⟩
  | full hpc =>
      obtain ⟨rfl, rfl⟩ := WritePc.ret.inj hret
      rw [hpc] at harg
      exact .inr ⟨harg _ (by simp), .inl rfl⟩
  | increment _ hpc =>
      obtain ⟨rfl, rfl⟩ := WritePc.ret.inj hret
      rw [hpc] at harg
      exact .inr ⟨harg _ (by simp), .inr rfl⟩
  | call | room | store | indexWrite | retWrite => exact WritePc.noConfusion hret
  | _ => exact hI.ret_ok pointer rval hret

theorem writes_step (hI : ProducerInv c.size tr c.prod) (h : Transition M .exact c e c') :
    ∀ pointer rval, (pointer, rval) ∈ writes (tr ++ [e]) → ResultOk pointer rval := by
  have hok := hI.writes_ok
  cases h with
  | retWrite hpc =>
      intro pointer rval hmem
      rw [writes_snoc] at hmem
      rcases List.mem_append.mp hmem with hold | hnew
      · exact hok pointer rval hold
      · obtain ⟨rfl, rfl⟩ := Prod.mk.inj (List.mem_singleton.mp hnew)
        exact hI.ret_ok _ _ hpc
  | _ => simpa using hok

/-- **The producer's step lemma.** -/
theorem step (hI : ProducerInv c.size tr c.prod) (h : Transition M .exact c e c') :
    ProducerInv c'.size (tr ++ [e]) c'.prod :=
  ⟨hI.admitted_step h, hI.stored_step h, hI.pushed_step h, hI.slots_step h, hI.indexed_step h,
    hI.write_step h, hI.arg_step h, hI.pushed_ne_step h, hI.ret_step h, hI.writes_step h⟩

end ProducerInv

/-! ## §7. The consumer's side, over every memory. -/

/-- The consumer between two steps, after the trace `tr`. -/
structure ConsumerInv (size : Nat) (tr : List Event) (s : Consumer) : Prop where
  granted_eq : (granted tr).length = (popped tr).length + s.pc.inFlight
  loaded_eq : loaded tr = popped tr ++ s.pc.taken
  received_eq : (popped tr).filter (· ≠ NULL) = received tr ++ s.pc.unreturned
  slots_eq : loadSlots tr = (List.range (loaded tr).length).map (· % size)
  indexed_eq : (indexedReads tr).length = (popped tr).length + s.pc.rp
  read_eq : s.read = ((popped tr).length + s.pc.rp) % size

theorem ConsumerInv.init (size : Nat) : ConsumerInv size [] ⟨.idle, 0⟩ := by
  constructor <;> simp [granted, loaded, popped, received, loadSlots, indexedReads]

/-- Where no popped pointer is NULL, everything popped is received or in
hand. -/
theorem ConsumerInv.popped_eq {size : Nat} {tr : List Event} {s : Consumer}
    (hI : ConsumerInv size tr s) (hne : ∀ pointer ∈ popped tr, pointer ≠ NULL) :
    popped tr = received tr ++ s.pc.unreturned := by
  rw [← hI.received_eq]
  refine (List.filter_eq_self.mpr ?_).symm
  intro pointer hmem
  simpa using hne pointer hmem

namespace ConsumerInv

variable {c c' : Config μ} {tr : List Event} {e : Event}

theorem granted_step (hI : ConsumerInv c.size tr c.cons) (h : Transition M .exact c e c') :
    (granted (tr ++ [e])).length = (popped (tr ++ [e])).length + c'.cons.pc.inFlight := by
  have heq := hI.granted_eq
  cases h with
  | callRead hpc | empty hpc | avail hpc | load hpc | indexRead hpc | decrement _ hpc
  | retRead hpc =>
      rw [hpc] at heq
      simpa using heq
  | _ => simpa using heq

theorem loaded_step (hI : ConsumerInv c.size tr c.cons) (h : Transition M .exact c e c') :
    loaded (tr ++ [e]) = popped (tr ++ [e]) ++ c'.cons.pc.taken := by
  have heq := hI.loaded_eq
  cases h with
  | callRead hpc | empty hpc | avail hpc | load hpc | indexRead hpc | decrement _ hpc
  | retRead hpc =>
      rw [hpc] at heq
      simpa using heq
  | _ => simpa using heq

theorem received_step (hI : ConsumerInv c.size tr c.cons) (h : Transition M .exact c e c') :
    (popped (tr ++ [e])).filter (· ≠ NULL) = received (tr ++ [e]) ++ c'.cons.pc.unreturned := by
  have heq := hI.received_eq
  cases h with
  | callRead hpc | empty hpc | avail hpc | load hpc | indexRead hpc =>
      rw [hpc] at heq
      simpa using heq
  | @decrement pointer _ hpc =>
      -- a popped NULL would not be received
      rw [hpc] at heq
      by_cases hnull : pointer = NULL
      · simpa [hnull] using heq
      · simpa [hnull] using heq
  | @retRead pointer hpc =>
      rw [hpc] at heq
      by_cases hnull : pointer = NULL
      · simpa [hnull] using heq
      · simpa [hnull] using heq
  | _ => simpa using heq

theorem slots_step (hI : ConsumerInv c.size tr c.cons) (h : Transition M .exact c e c') :
    loadSlots (tr ++ [e]) = (List.range (loaded (tr ++ [e])).length).map (· % c'.size) := by
  have heq := hI.slots_eq
  cases h with
  | load hpc hread =>
      -- the slot is the one of position `(loaded tr).length = (popped tr).length`
      have hloaded := hI.loaded_eq
      have hslot := hI.read_eq
      rw [hpc] at hloaded hslot
      simp only [ReadPc.taken, List.append_nil] at hloaded
      simp only [ReadPc.rp, Nat.add_zero] at hslot
      rw [loadSlots_snoc, loaded_snoc, heq, hloaded]
      simp [List.range_succ, hslot]
  | _ => simpa using heq

theorem indexed_step (hI : ConsumerInv c.size tr c.cons) (h : Transition M .exact c e c') :
    (indexedReads (tr ++ [e])).length = (popped (tr ++ [e])).length + c'.cons.pc.rp := by
  have heq := hI.indexed_eq
  cases h with
  | callRead hpc | empty hpc | avail hpc | load hpc | indexRead hpc | decrement _ hpc
  | retRead hpc =>
      rw [hpc] at heq
      simpa using heq
  | _ => simpa using heq

theorem read_step (hI : ConsumerInv c.size tr c.cons) (h : Transition M .exact c e c') :
    c'.cons.read = ((popped (tr ++ [e])).length + c'.cons.pc.rp) % c'.size := by
  have heq := hI.read_eq
  cases h with
  | indexRead hpc =>
      rw [hpc] at heq
      show (c.cons.read + 1) % c.size = _
      rw [heq]
      simp
  | callRead hpc | empty hpc | avail hpc | load hpc | decrement _ hpc | retRead hpc =>
      rw [hpc] at heq
      simpa using heq
  | _ => simpa using heq

/-- **The consumer's step lemma.** -/
theorem step (hI : ConsumerInv c.size tr c.cons) (h : Transition M .exact c e c') :
    ConsumerInv c'.size (tr ++ [e]) c'.cons :=
  ⟨hI.granted_step h, hI.loaded_step h, hI.received_step h, hI.slots_step h, hI.indexed_step h,
    hI.read_step h⟩

end ConsumerInv

/-! ## §8. Between the two sides, over every memory. -/

section Between

variable {size : Nat} {c c' : Config μ} {tr : List Event} {e : Event}

/-- Room stays until the write that found it increments `n`: the other side
only makes more of it. -/
theorem room_kept (h : Transition M .exact c e c')
    (hroom : c.prod.pc.inFlight ≠ [] → (pushed tr).length < (popped tr).length + size)
    (hcheck : ∀ pointer n, e = .prod (.room pointer n) →
      (pushed tr).length < (popped tr).length + size)
    (hfl : c'.prod.pc.inFlight ≠ []) :
    (pushed (tr ++ [e])).length < (popped (tr ++ [e])).length + size := by
  cases h with
  | room hpc => simpa using hcheck _ _ rfl
  | store hpc | indexWrite hpc => simpa using hroom (by simp [hpc])
  | callNull | call | full | increment | retWrite => exact absurd rfl hfl
  | decrement =>
      have hlt := hroom hfl
      simp
      omega
  | _ => simpa using hroom hfl

/-- What the empty check found stays until the read decrements `n`: the
other side only adds to it. -/
theorem avail_kept (h : Transition M .exact c e c')
    (havail : 0 < c.cons.pc.inFlight → (popped tr).length < (pushed tr).length)
    (hcheck : ∀ n, e = .cons (.avail n) → (popped tr).length < (pushed tr).length)
    (hfl : 0 < c'.cons.pc.inFlight) :
    (popped (tr ++ [e])).length < (pushed (tr ++ [e])).length := by
  cases h with
  | avail hpc => simpa using hcheck _ rfl
  | load hpc | indexRead hpc => simpa using havail (by simp [hpc])
  | callRead | empty | decrement | retRead => simp at hfl
  | increment =>
      have hlt := havail hfl
      simp
      omega
  | _ => simpa using havail hfl

/-- The consumer takes the pointers in the order they were pushed, if each
load takes the next one. -/
theorem taken_kept (h : Transition M .exact c e c')
    (htk : popped tr ++ c.cons.pc.taken <+: pushed tr)
    (hload : ∀ slot pointer, e = .cons (.load slot pointer) →
      (pushed tr)[(popped tr).length]? = some pointer) :
    popped (tr ++ [e]) ++ c'.cons.pc.taken <+: pushed (tr ++ [e]) := by
  have hpop : popped tr <+: pushed tr := (List.prefix_append _ _).trans htk
  cases h with
  | @increment pointer ch hpc => simpa using htk.trans (List.prefix_append _ [pointer])
  | load hpc => simpa using prefix_snoc hpop (hload _ _ rfl)
  | indexRead hpc | decrement _ hpc =>
      rw [hpc] at htk
      simpa using htk
  | callRead | empty | avail | retRead => simpa using hpop
  | _ => simpa using htk

end Between

/-! ## §9. What an event is about. -/

/-- The thread that took the step. -/
@[simp] def Event.thread : Event → Thread
  | .prod _ => .producer
  | .cons _ => .consumer
  | .count t _ => t
  | .work t _ => t

/-- The thread that is asked to take it. -/
@[simp] def Action.thread {χ : Type} : Action χ → Thread
  | .callWrite _ | .prod _ => .producer
  | .callRead | .cons _ => .consumer
  | .getCount t _ | .work t _ => t

/-- The thread that was asked took the step. -/
theorem step_thread {W : Words} {c c' : Config μ} {a : Action χ} {e : Event}
    (h : step M W c a = some (c', e)) : e.thread = a.thread := by
  cases a with
  | callWrite pointer | prod ch | callRead | cons ch =>
      simp only [step, Option.map_eq_some_iff] at h
      obtain ⟨r, _, h⟩ := h
      rw [← (Prod.mk.inj h).2]
      rfl
  | getCount t ch =>
      simp only [step] at h
      split at h
      · obtain ⟨r, _, h⟩ := Option.map_eq_some_iff.mp h
        rw [← (Prod.mk.inj h).2]
        rfl
      · simp at h
  | work t tag =>
      simp only [step] at h
      split at h
      · rw [← (Prod.mk.inj (Option.some.inj h)).2]
        rfl
      · simp at h

/-- The count the step observed in `n`, if it loaded `n`. -/
@[simp] def Event.observed? : Event → Option Nat
  | .prod (.full n) => some n
  | .prod (.room _ n) => some n
  | .cons .empty => some 0
  | .cons (.avail n) => some n
  | .count _ n => some n
  | _ => none

/-- The step accesses a field of the struct or a slot. -/
@[simp] def Event.touches : Event → Bool
  | .prod (.call _) | .prod (.ret _ _) | .cons .call | .cons (.ret _) | .work _ _ => false
  | _ => true

/-- The step begins a call. -/
@[simp] def Event.begins : Event → Bool
  | .prod (.call _) | .cons .call | .count _ _ => true
  | _ => false

/-! ## §10. A read past its empty check, over every memory. -/

/-- What a read did since its empty check: nothing yet, or it loaded the
pointer that it will return, or it returned the pointer it loaded. -/
def Fetching (since : List Event) (pc : ReadPc) : Prop :=
  (loaded since = [] ∧ reads since = [] ∧ pc = .load)
    ∨ (∃ pointer, loaded since = [pointer] ∧ reads since = []
        ∧ (pc = .index pointer ∨ pc = .decrement pointer ∨ pc = .ret pointer))
    ∨ ∃ pointer, (loaded since)[0]? = some pointer ∧ (reads since)[0]? = some pointer

theorem Fetching.step {c c' : Config μ} {since : List Event} {e : Event}
    (hF : Fetching since c.cons.pc) (h : Transition M .exact c e c') :
    Fetching (since ++ [e]) c'.cons.pc := by
  rcases hF with ⟨hloaded, hreads, hpc⟩ | ⟨pointer, hloaded, hreads, hpc⟩ | hover
  · cases h with
    | load hpc' hread =>
        right
        left
        exact ⟨_, by simp [hloaded], by simp [hreads], .inl rfl⟩
    | callRead hpc' | empty hpc' | avail hpc' | indexRead hpc' | decrement _ hpc'
    | retRead hpc' => simp [hpc'] at hpc
    | _ =>
        left
        exact ⟨by simp [hloaded], by simp [hreads], hpc⟩
  · cases h with
    | callRead hpc' | empty hpc' | avail hpc' | load hpc' => simp [hpc'] at hpc
    | @indexRead pointer' hpc' =>
        right
        left
        obtain rfl : pointer' = pointer := by simpa [hpc'] using hpc
        exact ⟨pointer', by simpa using hloaded, by simp [hreads], .inr (.inl rfl)⟩
    | @decrement pointer' _ hpc' =>
        right
        left
        obtain rfl : pointer' = pointer := by simpa [hpc'] using hpc
        exact ⟨pointer', by simpa using hloaded, by simp [hreads], .inr (.inr rfl)⟩
    | @retRead pointer' hpc' =>
        right
        right
        obtain rfl : pointer' = pointer := by simpa [hpc'] using hpc
        exact ⟨pointer', by simp [hloaded], by simp [hreads]⟩
    | _ =>
        right
        left
        exact ⟨pointer, by simpa using hloaded, by simp [hreads], hpc⟩
  · -- over: what came first stays first
    right
    right
    obtain ⟨pointer, hloaded, hreads⟩ := hover
    refine ⟨pointer, ?_, ?_⟩
    · rw [loaded_snoc, List.getElem?_append_left (List.getElem?_eq_some_iff.mp hloaded).1]
      exact hloaded
    · rw [reads_snoc, List.getElem?_append_left (List.getElem?_eq_some_iff.mp hreads).1]
      exact hreads

section Runs

variable {c₀ c : Config μ} {as : List (Action χ)}

/-- The consumer's side after every run. -/
theorem run_consumerInv {tr : List Event} (h0 : c₀.cons = ⟨.idle, 0⟩)
    (h : run (step M .exact) c₀ as = some (c, tr)) : ConsumerInv c.size tr c.cons := by
  refine run_invariant (P := fun tr s => ConsumerInv s.size tr s.cons) ?_
    (fun _ _ _ _ _ hI hs => hI.step (step_transition hs)) h
  rw [h0]
  exact ConsumerInv.init c₀.size

/-- **A read returns what it loaded**: the one that passed its empty check
as the `k`-th returns the `k`-th pointer loaded. -/
theorem returned_is_loaded {pre post : List Event} {n : Nat} {result : Ptr}
    (h0 : c₀.cons = ⟨.idle, 0⟩)
    (h : run (step M .exact) c₀ as = some (c, pre ++ .cons (.avail n) :: post))
    (hresult : (reads post)[0]? = some result) :
    (loaded (pre ++ .cons (.avail n) :: post))[(granted pre).length]? = some result := by
  obtain ⟨c₁, c₂, as₁, a, as₂, rfl, h1, ha, h2⟩ := run_split_event h
  have hI := run_consumerInv h0 h1
  cases step_transition ha with
  | avail hpc hread hn =>
      have hgranted := hI.granted_eq
      have hloaded := hI.loaded_eq
      rw [hpc] at hgranted hloaded
      have hlen : (loaded pre).length = (granted pre).length := by
        rw [hgranted, hloaded]
        simp
      have hfetching := run_invariant (P := fun since s => Fetching since s.cons.pc)
        (.inl ⟨rfl, rfl, rfl⟩) (fun _ _ _ _ _ hF hs => hF.step (step_transition hs)) h2
      have hfirst : (loaded post)[0]? = some result := by
        rcases hfetching with ⟨_, hnone, _⟩ | ⟨_, _, hnone, _⟩ | ⟨pointer, hload, hret⟩
        · simp [hnone] at hresult
        · simp [hnone] at hresult
        · rw [hload, ← hret, hresult]
      rw [loaded_append, ← hlen, List.getElem?_append_right (Nat.le_refl _), Nat.sub_self]
      exact hfirst

end Runs

end MulleFifo
