/-
  MulleFifo.Equivalence — the fixed family and the dynamic FIFO agree.

  Neither init clears the storage, so the two start from different garbage.
  Three steps connect them:

    • a header printed for `size` is the dynamic FIFO of that size
      (`fixedStep_dynamic`), on an array that ends at `size`,
    • no access leaves the array and no word overflows, so both run as the
      exact FIFO over an unbounded storage,
    • two exact FIFOs over different garbage look the same after every
      step: what a read returns is a pointer that was pushed, and the rest
      never depends on the storage.
-/
import MulleFifo.Model.FixedFamily
import MulleFifo.MachineWords

namespace MulleFifo

open Lib

/-! ## §1. What is compared. -/

/-- Counter, indices and program points: everything but the storage. -/
def Config.view (c : Config ScMem) : Int × Producer × Consumer := (c.mem.n, c.prod, c.cons)

/-- Counter, indices and program points: everything but the storage. -/
def FixedConfig.view (c : FixedConfig ScMem) : Int × Producer × Consumer :=
  (c.mem.n, c.prod, c.cons)

/-! ## §2. No access leaves the array. -/

/-- In range, the array is as good as an unbounded storage. -/
theorem seenAs_array {size : Nat} {storage : Nat → Ptr} {tr : List Event} {c : Config ScMem}
    (hI : Inv size storage tr c) (W : Words) :
    SeenAs (seqCstArray W size) (seqCst W) (fun m => m) c where
  readN _ _ := rfl
  readSlot hpc ch := by
    have hlt := hI.load_lt hpc
    rw [hI.size_eq] at hlt
    show _ = (if c.cons.read < size then _ else _ : Option (Ptr × ScMem)).map _
    rw [if_pos hlt]
    rfl
  writeSlot pointer hpc ch := by
    have hlt := hI.store_lt hpc
    rw [hI.size_eq] at hlt
    show _ = (if c.prod.write < size then _ else _ : Option ScMem).map _
    rw [if_pos hlt]
    rfl
  incrementN _ := rfl
  decrementN _ := rfl

/-- **One step over the array is one step over the unbounded storage.** -/
theorem step_array {size : Nat} {storage : Nat → Ptr} {tr : List Event} {c : Config ScMem}
    (hI : Inv size storage tr c) (W : Words) (a : Action Unit) :
    step (seqCstArray W size) W c a = step (seqCst W) W c a := by
  have hstep := (seenAs_array hI W).step_eq W a
  have hsame : (fun x : Config ScMem × Event => (x.1.seen fun m => m, x.2)) = id := rfl
  rw [hsame, Option.map_id] at hstep
  exact hstep.symm

/-! ## §3. Two exact FIFOs over different garbage. -/

/-- The pointer about to be loaded does not depend on the garbage. -/
theorem load_agrees {size : Nat} {storage storage' : Nat → Ptr} {tr : List Event}
    {c c' : Config ScMem} (hI : Inv size storage tr c) (hI' : Inv size storage' tr c')
    (hcons : c.cons = c'.cons) (hpc : c.cons.pc = .load) :
    c.mem.storage c.cons.read = c'.mem.storage c'.cons.read := by
  have hval := hI.load_value hpc
  have hval' := hI'.load_value (by rw [← hcons]; exact hpc)
  rw [hval, Option.some.injEq] at hval'
  exact hval'

/-- **One step looks the same over any garbage.** -/
theorem step_view {size : Nat} {storage storage' : Nat → Ptr} {tr : List Event}
    {c c' : Config ScMem} (hI : Inv size storage tr c) (hI' : Inv size storage' tr c')
    (hview : c.view = c'.view) (a : Action Unit) :
    (step (seqCst .exact) .exact c a).map (fun x => (x.1.view, x.2))
      = (step (seqCst .exact) .exact c' a).map fun y => (y.1.view, y.2) := by
  have hload := load_agrees hI hI'
  have hsize := hI.size_eq.trans hI'.size_eq.symm
  obtain ⟨size₁, ⟨n, garbage⟩, p, s⟩ := c
  obtain ⟨size₂, ⟨n', garbage'⟩, p', s'⟩ := c'
  obtain ⟨rfl, hps⟩ := Prod.mk.inj hview
  obtain ⟨rfl, rfl⟩ := Prod.mk.inj hps
  obtain rfl : size₁ = size₂ := hsize
  cases a with
  | callWrite pointer =>
      show ((enterWrite pointer p).map _).map _ = ((enterWrite pointer p).map _).map _
      rw [Option.map_map, Option.map_map]
      rfl
  | callRead =>
      show ((enterRead s).map _).map _ = ((enterRead s).map _).map _
      rw [Option.map_map, Option.map_map]
      rfl
  | prod ch =>
      unfold step writeStep
      obtain ⟨pc, write⟩ := p
      cases pc with
      | getCount pointer =>
          by_cases hfull : Words.exact.toUnsigned n = size₁
          · simp [getCount, seqCst, hfull, Config.view]
          · simp [getCount, seqCst, hfull, Config.view]
      | _ => rfl
  | cons ch =>
      unfold step readStep
      obtain ⟨pc, read⟩ := s
      cases pc with
      | getCount =>
          by_cases hempty : Words.exact.toUnsigned n = 0
          · simp [getCount, seqCst, hempty, Config.view]
          · simp [getCount, seqCst, hempty, Config.view]
      | load =>
          have hvalue : garbage read = garbage' read := hload rfl rfl
          simp [seqCst, hvalue, Config.view]
      | _ => rfl
  | getCount t ch =>
      by_cases ht : betweenCalls p s t
      · simp [step, getCount, seqCst, ht, Config.view]
      · simp [step, ht]
  | work t tag =>
      by_cases ht : betweenCalls p s t
      · simp [step, ht, Config.view]
      · simp [step, ht]

/-- Runs look the same over any garbage. -/
theorem scRun_view (size : Nat) (storage storage' : Nat → Ptr) (as : List (Action Unit)) :
    (scRun size storage as).map (fun x => (x.1.view, x.2))
      = (scRun size storage' as).map fun y => (y.1.view, y.2) :=
  run_view Config.view Config.view (Inv.init size storage) (Inv.init size storage') rfl
    (fun _ _ _ _ _ hI hs => hI.step (step_transition hs))
    (fun _ _ _ _ _ hI hs => hI.step (step_transition hs))
    (fun _ _ _ a hI hI' hview => step_view hI hI' hview a) as

/-! ## §4. Both run as the exact FIFO. -/

section Exact

variable {size : Nat}

/-- The dynamic FIFO on exact words and an array of `size` slots. -/
theorem arrayRun_eq {W : Words} (hexact : W.ExactFor size) (storage : Nat → Ptr)
    (as : List (Action Unit)) :
    run (step (seqCstArray W size) W) (pointerfifoInit size storage) as
      = scRun size storage as := by
  refine run_congr (WordInv.init size storage) wordInv_keep ?_ as
  intro tr c a hW
  rw [step_array hW.inv, hexact storage tr c a hW]

/-- A printed header on such words. -/
theorem fixedRun_eq {W : Words} (hexact : W.ExactFor size) (storage : Nat → Ptr)
    (as : List (Action Unit)) :
    (fixedRun (header64.print size) W storage as).map (fun x => (x.1.dynamic size, x.2))
      = scRun size storage as := by
  have hcap := print_capacity size
  rw [← arrayRun_eq hexact]
  unfold fixedRun
  rw [hcap.arrayLength]
  exact (run_map (fixedStep_dynamic hcap _ _) (fixedInit storage) as).symm

end Exact

/-! ## §5. The theorem. -/

/-- **THE FIXED FAMILY AGREES WITH THE DYNAMIC FIFO.**  For every size an
`unsigned int` can hold, a header printed for that size and the dynamic
FIFO of that size, over any storage each, on machine words and under one
schedule, get stuck together or show the same events (every result
included) and have the same counter, indices and program points; and
neither depends on its storage. -/
theorem fixed_family_agrees (u w size : Nat) (hu : 0 < u) (huw : u ≤ w) (hsize : size < 2 ^ u)
    (storage storage' : Nat → Ptr) (as : List (Action Unit)) :
    (fixedRun (header64.print size) (.machine u w) storage as).map (fun x => (x.1.view, x.2))
        = (machineRun u w size storage' as).map (fun y => (y.1.view, y.2))
      ∧ (fixedRun (header64.print size) (.machine u w) storage as).map (fun x => (x.1.view, x.2))
        = (fixedRun (header64.print size) (.machine u w) storage' as).map
            (fun y => (y.1.view, y.2))
      ∧ (machineRun u w size storage as).map (fun x => (x.1.view, x.2))
        = (machineRun u w size storage' as).map (fun y => (y.1.view, y.2)) := by
  have hexact : (Words.machine u w).ExactFor size := machine_exactFor hu huw hsize
  have hfixed (garbage : Nat → Ptr) :
      (fixedRun (header64.print size) (.machine u w) garbage as).map (fun x => (x.1.view, x.2))
        = (scRun size garbage as).map fun y => (y.1.view, y.2) := by
    rw [← fixedRun_eq hexact garbage as, Option.map_map]
    rfl
  have hdynamic (garbage : Nat → Ptr) : machineRun u w size garbage as = scRun size garbage as :=
    dynamicRun_eq hexact garbage as
  refine ⟨?_, ?_, ?_⟩
  · rw [hfixed, hdynamic]
    exact scRun_view size storage storage' as
  · rw [hfixed, hfixed]
    exact scRun_view size storage storage' as
  · rw [hdynamic, hdynamic]
    exact scRun_view size storage storage' as

/-- `mulle--pointerfifo8192.h` over zeros and a dynamic FIFO of size 8192
over other garbage, on 32-bit indices and a 64-bit counter. -/
theorem overlap_family_agrees :
    (machineRun 32 64 8192 (fun _ => 77) overlap).map (fun y => reads y.2) = some [5]
      ∧ (fixedRun (header64.print 8192) (.machine 32 64) (fun _ => 0) overlap).map
          (fun x => (x.1.view, x.2))
        = (machineRun 32 64 8192 (fun _ => 77) overlap).map (fun y => (y.1.view, y.2))
      ∧ (fixedRun (header64.print 8192) (.machine 32 64) (fun _ => 0) overlap).map
          (fun x => (x.1.view, x.2))
        = (fixedRun (header64.print 8192) (.machine 32 64) (fun _ => 77) overlap).map
          (fun y => (y.1.view, y.2))
      ∧ (machineRun 32 64 8192 (fun _ => 0) overlap).map (fun x => (x.1.view, x.2))
        = (machineRun 32 64 8192 (fun _ => 77) overlap).map (fun y => (y.1.view, y.2)) :=
  ⟨rfl, fixed_family_agrees 32 64 8192 (by decide) (by decide) (by decide) (fun _ => 0)
    (fun _ => 77) overlap⟩

end MulleFifo
