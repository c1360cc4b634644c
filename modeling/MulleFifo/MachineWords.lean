/-
  MulleFifo.MachineWords — the arithmetic of the machine is exact.

  `read`, `write` and `size` are `unsigned int` of `u` bits, `n` is a word
  of `w ≥ u` bits, and all arithmetic on them wraps.  None of it ever does:
  the invariant of the sequentially consistent FIFO bounds every operand at
  the program point where it is used.  So the machine execution IS the
  exact execution, for every schedule of every length, and for every size
  that an `unsigned int` can hold — 0 and 1 included, which only the first
  assert of `_mulle_pointerfifo_init` excludes.
-/
import MulleFifo.Model.SeqCst

namespace MulleFifo

open Lib

/-! ## §1. The words of the machine. -/

/-- `unsigned int` of `u` bits, and a counter word of `w` bits. -/
def Words.machine (u w : Nat) : Words where
  succ i := (i + 1) % 2 ^ u
  increment n := (n + 1) % 2 ^ w
  decrement n := (n - 1) % 2 ^ w
  toUnsigned n := n.toNat % 2 ^ u

/-- Run a schedule on a freshly initialised FIFO with machine words. -/
abbrev machineRun (u w size : Nat) (storage : Nat → Ptr) (as : List (Action Unit)) :
    Option (Config ScMem × List Event) :=
  run (step (seqCst (.machine u w)) (.machine u w)) (pointerfifoInit size storage) as

/-- What could overflow in a state, and does not; `slotBytes` is the size
of a slot, `sizeMax` the largest `size_t`. -/
structure NoOverflow (u w sizeMax slotBytes : Nat) (c : Config ScMem) : Prop where
  write_succ : c.prod.write + 1 < 2 ^ u
  read_succ : c.cons.read + 1 < 2 ^ u
  /-- The remainder by `size` is evaluated only where `size ≠ 0`. -/
  write_modulus : ∀ pointer, c.prod.pc = .index pointer → c.size ≠ 0
  read_modulus : ∀ pointer, c.cons.pc = .index pointer → c.size ≠ 0
  /-- `size * sizeof( slot)`, the request of `_mulle_pointerfifo_init`. -/
  request : c.size * slotBytes ≤ sizeMax
  /-- The bytes of the slot about to be stored into were requested. -/
  store_inside : ∀ pointer, c.prod.pc = .store pointer →
    c.prod.write < c.size ∧ (c.prod.write + 1) * slotBytes ≤ c.size * slotBytes
  /-- The bytes of the slot about to be loaded were requested. -/
  load_inside : c.cons.pc = .load →
    c.cons.read < c.size ∧ (c.cons.read + 1) * slotBytes ≤ c.size * slotBytes
  n_nonneg : 0 ≤ c.mem.n
  n_le : c.mem.n ≤ c.size
  n_word : c.mem.n < 2 ^ w
  decrement_pos : ∀ pointer, c.cons.pc = .decrement pointer → 0 < c.mem.n
  increment_lt : ∀ pointer, c.prod.pc = .increment pointer → c.mem.n < c.size
  /-- The cast in `_mulle_pointerfifo_get_count` loses nothing. -/
  count_exact : ((Words.machine u w).toUnsigned c.mem.n : ℤ) = c.mem.n

/-! ## §2. Every operand is in range. -/

/-- The invariant, and that a FIFO of size 0 never accepts anything. -/
structure WordInv (size : Nat) (storage : Nat → Ptr) (tr : List Event) (c : Config ScMem) :
    Prop where
  inv : Inv size storage tr c
  used : pushed tr ≠ [] → size ≠ 0

namespace WordInv

variable {u w size : Nat} {storage : Nat → Ptr} {tr : List Event} {c c' : Config ScMem}

theorem init (size : Nat) (storage : Nat → Ptr) :
    WordInv size storage [] (pointerfifoInit size storage) :=
  ⟨Inv.init size storage, fun h => absurd rfl h⟩

/-- A write past its full check found room. -/
theorem size_ne (hI : Inv size storage tr c) (hfl : c.prod.pc.inFlight ≠ []) : size ≠ 0 := by
  have hroom := hI.room hfl
  have hle := hI.popped_length_le
  omega

theorem step (hW : WordInv size storage tr c) {e : Event}
    (h : Transition (seqCst .exact) .exact c e c') : WordInv size storage (tr ++ [e]) c' := by
  refine ⟨hW.inv.step h, ?_⟩
  intro hpushed
  cases h with
  | increment ch hpc => exact size_ne hW.inv (by simp [hpc])
  | _ => exact hW.used (by simpa using hpushed)

/-- The producer's index is in range, or has never been used. -/
theorem write_le (hW : WordInv size storage tr c) : c.prod.write < size ∨ c.prod.write = 0 := by
  rcases Nat.eq_zero_or_pos size with hzero | hpos
  · right
    have hnil : pushed tr = [] := by
      by_contra hne
      exact hW.used hne hzero
    have hwp : c.prod.pc.wp = 0 := by
      cases hpc : c.prod.pc with
      | increment pointer => exact absurd hzero (size_ne hW.inv (by simp [hpc]))
      | _ => rfl
    rw [hW.inv.producer.write_eq, hnil, hwp]
    exact Nat.zero_mod size
  · left
    rw [hW.inv.producer.write_eq]
    exact Nat.mod_lt _ hpos

/-- The consumer's index is in range, or has never been used. -/
theorem read_le (hW : WordInv size storage tr c) : c.cons.read < size ∨ c.cons.read = 0 := by
  rcases Nat.eq_zero_or_pos size with hzero | hpos
  · right
    have hnil : pushed tr = [] := by
      by_contra hne
      exact hW.used hne hzero
    have hpopped : popped tr = [] := List.prefix_nil.mp (hnil ▸ hW.inv.popped_le)
    have hrp : c.cons.pc.rp = 0 := by
      cases hpc : c.cons.pc with
      | decrement pointer =>
          have hlt := hW.inv.avail (by simp [hpc])
          rw [hnil] at hlt
          exact absurd hlt (Nat.not_lt_zero _)
      | _ => rfl
    rw [hW.inv.consumer.read_eq, hpopped, hrp]
    exact Nat.zero_mod size
  · left
    rw [hW.inv.consumer.read_eq]
    exact Nat.mod_lt _ hpos

/-- A read past its empty check found something, in a FIFO of some size. -/
theorem size_ne_of_avail (hW : WordInv size storage tr c) (hfl : 0 < c.cons.pc.inFlight) :
    size ≠ 0 := by
  have hlt := hW.inv.avail hfl
  apply hW.used
  intro hnil
  rw [hnil] at hlt
  exact Nat.not_lt_zero _ hlt

/-- **Nothing overflows** in a state with the invariant. -/
theorem noOverflow (hW : WordInv size storage tr c) {sizeMax slotBytes : Nat} (hu : 0 < u)
    (huw : u ≤ w) (hsize : size < 2 ^ u) (hbytes : size ≤ sizeMax / slotBytes) :
    NoOverflow u w sizeMax slotBytes c := by
  have hI := hW.inv
  have hn := hI.counter
  have hle := hI.popped_length_le
  have hbd := hI.bounded
  have hone : 1 < 2 ^ u := Nat.one_lt_two_pow (Nat.pos_iff_ne_zero.mp hu)
  have hpow : 2 ^ u ≤ 2 ^ w := Nat.pow_le_pow_right (by decide) huw
  have hw := hW.write_le
  have hr := hW.read_le
  have hsz := hI.size_eq
  have hword : c.mem.n < 2 ^ w := by
    have hlt : c.mem.n < ((2 ^ w : Nat) : ℤ) := by omega
    exact_mod_cast hlt
  constructor
  case write_succ => omega
  case read_succ => omega
  case write_modulus =>
    intro pointer hpc
    rw [hsz]
    exact size_ne hI (by simp [hpc])
  case read_modulus =>
    intro pointer hpc
    rw [hsz]
    exact hW.size_ne_of_avail (by simp [hpc])
  case request =>
    rw [hsz]
    exact (Nat.mul_le_mul_right slotBytes hbytes).trans (Nat.div_mul_le_self sizeMax slotBytes)
  case store_inside =>
    intro pointer hpc
    have hne := size_ne hI (by simp [hpc])
    have hlt : c.prod.write < c.size := by omega
    exact ⟨hlt, Nat.mul_le_mul_right slotBytes hlt⟩
  case load_inside =>
    intro hpc
    have hne := hW.size_ne_of_avail (by simp [hpc])
    have hlt : c.cons.read < c.size := by omega
    exact ⟨hlt, Nat.mul_le_mul_right slotBytes hlt⟩
  case n_nonneg => omega
  case n_le => omega
  case n_word => exact hword
  case decrement_pos =>
    intro pointer hpc
    have hlt := hI.avail (by simp [hpc])
    omega
  case increment_lt =>
    intro pointer hpc
    have hlt := hI.room (by simp [hpc])
    omega
  case count_exact =>
    show ((c.mem.n.toNat % 2 ^ u : Nat) : ℤ) = c.mem.n
    rw [Nat.mod_eq_of_lt (by omega)]
    omega

end WordInv

/-! ## §3. The machine takes the exact steps. -/

namespace NoOverflow

variable {u w sizeMax slotBytes : Nat} {c : Config ScMem}

theorem toUnsigned_eq (h : NoOverflow u w sizeMax slotBytes c) :
    (Words.machine u w).toUnsigned c.mem.n = Words.exact.toUnsigned c.mem.n := by
  have hexact := h.count_exact
  have hnonneg := h.n_nonneg
  show (Words.machine u w).toUnsigned c.mem.n = c.mem.n.toNat
  omega

theorem succ_write_eq (h : NoOverflow u w sizeMax slotBytes c) :
    (Words.machine u w).succ c.prod.write = Words.exact.succ c.prod.write :=
  Nat.mod_eq_of_lt h.write_succ

theorem succ_read_eq (h : NoOverflow u w sizeMax slotBytes c) :
    (Words.machine u w).succ c.cons.read = Words.exact.succ c.cons.read :=
  Nat.mod_eq_of_lt h.read_succ

theorem increment_eq (h : NoOverflow u w sizeMax slotBytes c) (huw : c.size < 2 ^ w)
    {pointer : Ptr} (hpc : c.prod.pc = .increment pointer) :
    (Words.machine u w).increment c.mem.n = Words.exact.increment c.mem.n := by
  have hlt := h.increment_lt pointer hpc
  have hnonneg := h.n_nonneg
  have hword : (c.size : ℤ) < 2 ^ w := by exact_mod_cast huw
  show (c.mem.n + 1) % 2 ^ w = c.mem.n + 1
  exact Int.emod_eq_of_lt (by omega) (by omega)

theorem decrement_eq (h : NoOverflow u w sizeMax slotBytes c) {pointer : Ptr}
    (hpc : c.cons.pc = .decrement pointer) :
    (Words.machine u w).decrement c.mem.n = Words.exact.decrement c.mem.n := by
  have hpos := h.decrement_pos pointer hpc
  have hword := h.n_word
  show (c.mem.n - 1) % 2 ^ w = c.mem.n - 1
  exact Int.emod_eq_of_lt (by omega) (by omega)

/-- Every load of `n` is cast to the same count. -/
theorem getCount_eq (h : NoOverflow u w sizeMax slotBytes c) (t : Thread) (ch : Unit) :
    getCount (seqCst (.machine u w) t ch) (.machine u w) c.mem
      = getCount (seqCst .exact t ch) .exact c.mem := by
  show some ((Words.machine u w).toUnsigned c.mem.n, c.mem)
    = some (Words.exact.toUnsigned c.mem.n, c.mem)
  rw [h.toUnsigned_eq]

theorem writeStep_eq (h : NoOverflow u w sizeMax slotBytes c) (hword : c.size < 2 ^ w)
    (ch : Unit) :
    writeStep (seqCst (.machine u w) .producer ch) (.machine u w) c.size c.size c.prod c.mem
      = writeStep (seqCst .exact .producer ch) .exact c.size c.size c.prod c.mem := by
  unfold writeStep
  cases hpc : c.prod.pc with
  | getCount pointer => simp only [h.getCount_eq]
  | index pointer => simp only [h.succ_write_eq]
  | increment pointer =>
      show some (_, { c.mem with n := (Words.machine u w).increment c.mem.n }, _) = _
      rw [h.increment_eq hword hpc]
      rfl
  | _ => rfl

theorem readStep_eq (h : NoOverflow u w sizeMax slotBytes c) (ch : Unit) :
    readStep (seqCst (.machine u w) .consumer ch) (.machine u w) c.size c.cons c.mem
      = readStep (seqCst .exact .consumer ch) .exact c.size c.cons c.mem := by
  unfold readStep
  cases hpc : c.cons.pc with
  | getCount => simp only [h.getCount_eq]
  | index pointer => simp only [h.succ_read_eq]
  | decrement pointer =>
      show some (_, { c.mem with n := (Words.machine u w).decrement c.mem.n }, _) = _
      rw [h.decrement_eq hpc]
      rfl
  | _ => rfl

/-- **One step of the machine is the exact step.** -/
theorem step_eq (h : NoOverflow u w sizeMax slotBytes c) (hword : c.size < 2 ^ w)
    (a : Action Unit) :
    step (seqCst (.machine u w)) (.machine u w) c a = step (seqCst .exact) .exact c a := by
  cases a with
  | prod ch => simp only [step, h.writeStep_eq hword]
  | cons ch => simp only [step, h.readStep_eq]
  | getCount t ch => simp only [step, h.getCount_eq]
  | callWrite _ | callRead | work _ _ => rfl

end NoOverflow

/-! ## §4. Runs on exact words. -/

section Exact

variable {u w size : Nat}

theorem wordInv_keep {storage : Nat → Ptr} (tr : List Event) (c : Config ScMem) (a : Action Unit)
    (c' : Config ScMem) (e : Event) (hW : WordInv size storage tr c)
    (hs : step (seqCst .exact) .exact c a = some (c', e)) : WordInv size storage (tr ++ [e]) c' :=
  hW.step (step_transition hs)

/-- Words that take the exact steps wherever the invariant holds. -/
def Words.ExactFor (W : Words) (size : Nat) : Prop :=
  ∀ storage tr c (a : Action Unit), WordInv size storage tr c →
    step (seqCst W) W c a = step (seqCst .exact) .exact c a

theorem machine_exactFor (hu : 0 < u) (huw : u ≤ w) (hsize : size < 2 ^ u) :
    (Words.machine u w).ExactFor size := by
  intro storage tr c a hW
  have hpow : 2 ^ u ≤ 2 ^ w := Nat.pow_le_pow_right (by decide) huw
  have hno : NoOverflow u w size 1 c := hW.noOverflow hu huw hsize (by simp)
  apply hno.step_eq
  rw [hW.inv.size_eq]
  omega

/-- **On such words the FIFO runs as over the integers.** -/
theorem dynamicRun_eq {W : Words} (hexact : W.ExactFor size) (storage : Nat → Ptr)
    (as : List (Action Unit)) :
    run (step (seqCst W) W) (pointerfifoInit size storage) as = scRun size storage as :=
  run_congr (WordInv.init size storage) wordInv_keep (fun tr c a hW => hexact storage tr c a hW) as

end Exact

/-! ## §5. The theorem. -/

/-- **MACHINE ARITHMETIC IS EXACT.**  For every size an `unsigned int` can
hold and under the second assert of `_mulle_pointerfifo_init`, every
schedule runs on the machine exactly as over the integers, and in every
state it reaches nothing overflows. -/
theorem pointerfifo_machine_exact (u w sizeMax slotBytes size : Nat) (hu : 0 < u) (huw : u ≤ w)
    (hsize : size < 2 ^ u) (hbytes : size ≤ sizeMax / slotBytes) (storage : Nat → Ptr)
    (as : List (Action Unit)) :
    machineRun u w size storage as = scRun size storage as
      ∧ ∀ c tr, machineRun u w size storage as = some (c, tr) →
          NoOverflow u w sizeMax slotBytes c := by
  have hrun : machineRun u w size storage as = scRun size storage as :=
    dynamicRun_eq (machine_exactFor hu huw hsize) storage as
  refine ⟨hrun, ?_⟩
  intro c tr h
  rw [hrun] at h
  have hW := run_invariant (WordInv.init size storage) wordInv_keep h
  exact hW.noOverflow hu huw hsize hbytes

/-- A FIFO of the largest size of 2-bit words: no bit to spare. -/
theorem overlap_machine_exact :
    machineRun 2 2 3 (fun _ => 77) overlap = scRun 3 (fun _ => 77) overlap
      ∧ ∃ c tr, machineRun 2 2 3 (fun _ => 77) overlap = some (c, tr) ∧ reads tr = [5]
        ∧ NoOverflow 2 2 255 8 c := by
  have hexact := pointerfifo_machine_exact 2 2 255 8 3 (by decide) (by decide) (by decide)
    (by decide) (fun _ => 77) overlap
  exact ⟨hexact.1, _, _, rfl, rfl, hexact.2 _ _ rfl⟩

end MulleFifo
