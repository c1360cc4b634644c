/-
  MulleFifo.Ownership — who owns which slot.

  A slot is OCCUPIED while it holds a pointer that was pushed and not
  popped.  In every reachable state, at every pair of program points:

    • the counter and the indices are in range, and
          write ≡ read + n + wp − rp   (mod size)
      where `wp` (`rp`) is 1 exactly between an index update and its
      counter update,
    • from its full check to its increment the producer's slot is not
      occupied; from its empty check to its decrement the consumer's slot
      is the oldest occupied one.

  So the two threads never meet in a slot, no pointer is overwritten
  before it was loaded, and the consumer loads exactly what was stored, in
  order: a slot that was not stored into is never loaded.
-/
import MulleFifo.Linearizability
import Mathlib.Data.Int.ModEq
import Mathlib.Tactic.Ring

namespace MulleFifo

open Lib

/-! ## §1. Slots. -/

/-- The occupied slots, oldest first: position `k` is in slot `k % size`. -/
def occupied (size : Nat) (tr : List Event) : List Nat :=
  ((List.range (pushed tr).length).drop (popped tr).length).map (· % size)

/-- The slot of the write in progress: `write`, or the one before it once
the index was updated. -/
def Producer.slot (size : Nat) (p : Producer) : Nat := (p.write + size - p.pc.wp) % size

/-- The slot of the read in progress: `read`, or the one before it once
the index was updated. -/
def Consumer.slot (size : Nat) (s : Consumer) : Nat := (s.read + size - s.pc.rp) % size

theorem mem_occupied {size i : Nat} {tr : List Event} :
    i ∈ occupied size tr ↔
      ∃ k, (popped tr).length ≤ k ∧ k < (pushed tr).length ∧ k % size = i := by
  simp only [occupied, List.mem_map, List.mem_drop_iff_getElem]
  constructor
  · rintro ⟨k, ⟨j, hj, hk⟩, rfl⟩
    simp only [List.length_range, List.getElem_range] at hj hk
    exact ⟨k, by omega, by omega, rfl⟩
  · rintro ⟨k, hlo, hhi, rfl⟩
    refine ⟨k, ⟨k - (popped tr).length, ?_, ?_⟩, rfl⟩
    · simp only [List.length_range]
      omega
    · simp only [List.getElem_range]
      omega

/-- A producer's slot is the one of the next position to be pushed. -/
theorem ProducerInv.slot_eq {size : Nat} {tr : List Event} {p : Producer}
    (hI : ProducerInv size tr p) (hsize : 0 < size) :
    p.slot size = (pushed tr).length % size := by
  have hwp : p.pc.wp ≤ size := by
    cases hpc : p.pc <;> (simp; try omega)
  rw [Producer.slot, hI.write_eq]
  exact Ring.back_mod _ hwp

/-- A consumer's slot is the one of the next position to be popped. -/
theorem ConsumerInv.slot_eq {size : Nat} {tr : List Event} {s : Consumer}
    (hI : ConsumerInv size tr s) (hsize : 0 < size) :
    s.slot size = (popped tr).length % size := by
  have hrp : s.pc.rp ≤ size := by
    cases hpc : s.pc <;> (simp; try omega)
  rw [Consumer.slot, hI.read_eq]
  exact Ring.back_mod _ hrp

/-! ## §2. Ownership in a state. -/

/-- The ownership invariant of a state reached by the trace `tr`. -/
structure SlotOwnership (size : Nat) (tr : List Event) (c : Config ScMem) : Prop where
  n_nonneg : 0 ≤ c.mem.n
  n_le : c.mem.n ≤ size
  write_lt : c.prod.write < size
  read_lt : c.cons.read < size
  /-- Both indices and the counter, with the pending updates. -/
  balance : (c.prod.write : ℤ)
    ≡ c.cons.read + c.mem.n + c.prod.pc.wp - c.cons.pc.rp [ZMOD size]
  /-- There are `n` occupied slots, and they hold the unread pointers. -/
  occupied_length : ((occupied size tr).length : ℤ) = c.mem.n
  occupied_holds : (occupied size tr).map c.mem.storage = unread tr
  /-- From the full check to the increment. -/
  producer_free : c.prod.pc.inFlight ≠ [] → c.prod.slot size ∉ occupied size tr
  /-- From the empty check to the decrement. -/
  consumer_oldest : 0 < c.cons.pc.inFlight →
    (occupied size tr).head? = some (c.cons.slot size)
  /-- Both about to access a slot: not the same one. -/
  apart : ∀ pointer, c.prod.pc = .store pointer → c.cons.pc = .load →
    c.prod.write ≠ c.cons.read

namespace Inv

variable {size : Nat} {storage : Nat → Ptr} {tr : List Event} {c : Config ScMem}

/-- The pending corrections of the two indices cancel against the counter. -/
theorem balance (hI : Inv size storage tr c) :
    (c.prod.write : ℤ) ≡ c.cons.read + c.mem.n + c.prod.pc.wp - c.cons.pc.rp [ZMOD size] := by
  have hw : (c.prod.write : ℤ) ≡ (pushed tr).length + c.prod.pc.wp [ZMOD size] := by
    rw [hI.producer.write_eq]
    push_cast
    exact Int.mod_modEq _ _
  have hr : (c.cons.read : ℤ) ≡ (popped tr).length + c.cons.pc.rp [ZMOD size] := by
    rw [hI.consumer.read_eq]
    push_cast
    exact Int.mod_modEq _ _
  have hsum : ((popped tr).length + c.cons.pc.rp : ℤ) + c.mem.n + c.prod.pc.wp - c.cons.pc.rp
      = (pushed tr).length + c.prod.pc.wp := by
    rw [hI.counter]
    ring
  refine hw.trans ?_
  rw [← hsum]
  exact (((hr.add_right _).add_right _).sub_right _).symm

/-- **Every reachable state has the ownership invariant.** -/
theorem slotOwnership (hI : Inv size storage tr c) (hsize : 0 < size) :
    SlotOwnership size tr c := by
  have hle := hI.popped_length_le
  have hbd := hI.bounded
  have hn := hI.counter
  have hps := hI.producer.slot_eq hsize
  have hcs := hI.consumer.slot_eq hsize
  constructor
  case n_nonneg => omega
  case n_le => omega
  case write_lt => rw [hI.producer.write_eq]; exact Nat.mod_lt _ hsize
  case read_lt => rw [hI.consumer.read_eq]; exact Nat.mod_lt _ hsize
  case balance => exact hI.balance
  case occupied_length =>
    simp only [occupied, List.length_map, List.length_drop, List.length_range]
    omega
  case occupied_holds =>
    apply List.ext_getElem
    · simp [occupied, unread]
    · intro j hj _
      simp only [occupied, List.length_map, List.length_drop, List.length_range] at hj
      simp only [occupied, unread, List.getElem_map, List.getElem_drop, List.getElem_range]
      exact hI.storage_holds (by omega) (by omega)
  case producer_free =>
    intro hfl hmem
    obtain ⟨k, hlo, hhi, hk⟩ := mem_occupied.mp hmem
    have hroom := hI.room hfl
    -- `k` and the next position are less than `size` apart
    exact Ring.mod_ne_of_window hhi (by omega) (hk.trans hps)
  case consumer_oldest =>
    intro hfl
    have hlt := hI.avail hfl
    rw [hcs, List.head?_eq_getElem?, List.getElem?_eq_getElem
      (by simp only [occupied, List.length_map, List.length_drop, List.length_range]; omega)]
    simp [occupied]
  case apart =>
    intro pointer hp hc heq
    have hroom := hI.room (by simp [hp])
    have hlt := hI.avail (by simp [hc])
    have hw : c.prod.write = (pushed tr).length % size := by
      simpa [hp] using hI.producer.write_eq
    have hr : c.cons.read = (popped tr).length % size := by
      simpa [hc] using hI.consumer.read_eq
    exact Ring.mod_ne_of_window hlt (by omega) (hr.symm.trans (heq.symm.trans hw))

/-- What was loaded is what was stored, slot by slot. -/
theorem loadSlots_le (hI : Inv size storage tr c) : loadSlots tr <+: storeSlots tr := by
  rw [hI.consumer.slots_eq, hI.producer.slots_eq]
  refine List.IsPrefix.map _ ?_
  rw [List.prefix_iff_eq_take, List.length_range, List.take_range,
    Nat.min_eq_left hI.loaded_le.length_le]

/-- A store that reuses a slot comes after the load of what was there. -/
theorem store_after_load (hI : Inv size storage tr c) {pointer : Ptr}
    (hpc : c.prod.pc = .store pointer) {k : Nat}
    (hk : (storeSlots tr)[k]? = some c.prod.write) : k < (loaded tr).length := by
  have hroom := hI.room (by simp [hpc])
  have hstored : stored tr = pushed tr := by simpa [hpc] using hI.producer.stored_eq
  have hw : c.prod.write = (pushed tr).length % size := by
    simpa [hpc] using hI.producer.write_eq
  rw [hI.producer.slots_eq, hstored, hw] at hk
  obtain ⟨hlt, hmod⟩ := List.getElem?_eq_some_iff.mp hk
  simp only [List.length_map, List.length_range] at hlt
  simp only [List.getElem_map, List.getElem_range] at hmod
  have hpop : k < (popped tr).length := by
    by_contra hge
    exact Ring.mod_ne_of_window hlt (by omega) hmod
  rw [hI.consumer.loaded_eq, List.length_append]
  omega

end Inv

/-! ## §3. The theorem. -/

/-- **SLOT OWNERSHIP**: in every state of every interleaving the ownership
invariant holds; a store into a slot comes after the load of every pointer
stored there before; and the loads are the stores, in order. -/
theorem pointerfifo_slot_ownership (size : Nat) (hsize : 2 ≤ size) (storage : Nat → Ptr)
    (as : List (Action Unit)) (c : Config ScMem) (tr : List Event)
    (h : scRun size storage as = some (c, tr)) :
    SlotOwnership size tr c
      ∧ (∀ pre slot pointer post, tr = pre ++ .prod (.store slot pointer) :: post →
          ∀ k, (storeSlots pre)[k]? = some slot → k < (loaded pre).length)
      ∧ loaded tr <+: stored tr ∧ loadSlots tr <+: storeSlots tr := by
  have hI := scRun_inv h
  refine ⟨hI.slotOwnership (by omega), ?_, hI.loaded_le, hI.loadSlots_le⟩
  intro pre slot pointer post htr k hk
  subst htr
  obtain ⟨c₁, c₂, hI₁, ht, _⟩ := scRun_event h
  cases ht with
  | store hpc hwrite => exact hI₁.store_after_load hpc hk

/-- 5 was written and read and 6 was written; then the write of 7 and the
read of 6 both pass their checks. -/
def bothInside : List (Action Unit) :=
  [.callWrite 5, .prod (), .prod (), .prod (), .prod (), .prod (),
    .callRead, .cons (), .cons (), .cons (), .cons (), .cons (),
    .callWrite 6, .prod (), .prod (), .prod (), .prod (), .prod (),
    .callWrite 7, .callRead, .prod (), .cons ()]

/-- Both access their slot and update their index. -/
def bothIndexed : List (Action Unit) := bothInside ++ [.prod (), .cons (), .prod (), .cons ()]

/-- The write of 7 goes to the slot that 5 has left while the read loads
the 6 from the occupied slot, before and after the two indices moved on. -/
theorem bothInside_slot_ownership :
    (∃ c tr, scRun 2 (fun _ => 77) bothInside = some (c, tr)
        ∧ c.prod = ⟨.store 7, 0⟩ ∧ c.cons = ⟨.load, 1⟩ ∧ occupied 2 tr = [1]
        ∧ SlotOwnership 2 tr c)
      ∧ ∃ c tr, scRun 2 (fun _ => 77) bothIndexed = some (c, tr)
        ∧ c.prod = ⟨.increment 7, 1⟩ ∧ c.cons = ⟨.decrement 6, 0⟩ ∧ occupied 2 tr = [1]
        ∧ SlotOwnership 2 tr c
        ∧ (∀ pre slot pointer post, tr = pre ++ .prod (.store slot pointer) :: post →
            ∀ k, (storeSlots pre)[k]? = some slot → k < (loaded pre).length)
        ∧ loaded tr = [5, 6] ∧ stored tr = [5, 6, 7] ∧ loaded tr <+: stored tr
        ∧ loadSlots tr <+: storeSlots tr := by
  constructor
  · refine ⟨_, _, rfl, rfl, rfl, rfl, ?_⟩
    exact (pointerfifo_slot_ownership 2 (by decide) (fun _ => 77) bothInside _ _ rfl).1
  · obtain ⟨c, tr, h, hprod, hcons, hoccupied, hloaded, hstored⟩ :
        ∃ c tr, scRun 2 (fun _ => 77) bothIndexed = some (c, tr)
          ∧ c.prod = ⟨.increment 7, 1⟩ ∧ c.cons = ⟨.decrement 6, 0⟩ ∧ occupied 2 tr = [1]
          ∧ loaded tr = [5, 6] ∧ stored tr = [5, 6, 7] := ⟨_, _, rfl, rfl, rfl, rfl, rfl, rfl⟩
    obtain ⟨hown, hafter, hle, hslots⟩ :=
      pointerfifo_slot_ownership 2 (by decide) (fun _ => 77) bothIndexed c tr h
    exact ⟨c, tr, h, hprod, hcons, hoccupied, hown, hafter, hloaded, hstored, hle, hslots⟩

end MulleFifo
