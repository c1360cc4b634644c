/-
  MulleFifo.Model.FixedFamily — `mulle--pointerfifo64.h` and its copies.

  The fixed FIFO has no `size` and no allocator: `storage[ 64]` is part of
  the struct, and the capacity is written into the text FOUR times — array
  length, read modulus, full check, write modulus.  `create-fifo-sources`
  makes the other headers with `sed -e "s/64/${size}/g"`.

  `Header` holds the four literals as they stand in the text, `print`
  applies the `sed`, and `fixedStep` runs the functions of a header.  The
  file ends in the fact that justifies the family: when the four literals
  agree, a header is the dynamic FIFO with its `size` inlined — over every
  memory model (`fixedStep_dynamic`).
-/
import MulleFifo.Model.SeqCst
import Mathlib.Data.Nat.Digits.Defs

namespace MulleFifo

open Lib

/-! ## §1. The text of a header. -/

/-- A decimal literal, most significant digit first. -/
abbrev Literal := List Nat

/-- The number a literal denotes. -/
def Literal.value (digits : Literal) : Nat := Nat.ofDigits 10 digits.reverse

/-- `${size}`. -/
def decimal (size : Nat) : Literal :=
  if size = 0 then [0] else (Nat.digits 10 size).reverse

/-- `sed -e "s/64/${size}/g"` on a literal. -/
def sed (size : Nat) : Literal → Literal
  | 6 :: 4 :: rest => decimal size ++ sed size rest
  | digit :: rest => digit :: sed size rest
  | [] => []

/-- The literals of a header, where they stand. -/
structure Header where
  /-- `mulle_atomic_pointer_t storage[ 64]`. -/
  arrayLength : Literal
  /-- `p->read = (p->read + 1) % 64`. -/
  readModulus : Literal
  /-- `get_count( p) == 64`. -/
  fullCheck : Literal
  /-- `p->write = (p->write + 1) % 64`. -/
  writeModulus : Literal

/-- `mulle--pointerfifo64.h`. -/
def header64 : Header where
  arrayLength := [6, 4]
  readModulus := [6, 4]
  fullCheck := [6, 4]
  writeModulus := [6, 4]

/-- `print`: a header with every 64 replaced. -/
def Header.print (h : Header) (size : Nat) : Header where
  arrayLength := sed size h.arrayLength
  readModulus := sed size h.readModulus
  fullCheck := sed size h.fullCheck
  writeModulus := sed size h.writeModulus

/-- The capacity of a header, when its four literals agree. -/
structure Header.Capacity (h : Header) (size : Nat) : Prop where
  arrayLength : h.arrayLength.value = size
  readModulus : h.readModulus.value = size
  fullCheck : h.fullCheck.value = size
  writeModulus : h.writeModulus.value = size

theorem value_decimal (size : Nat) : (decimal size).value = size := by
  unfold decimal Literal.value
  split
  · rename_i hzero
    rw [hzero]
    rfl
  · rw [List.reverse_reverse, Nat.ofDigits_digits]

theorem value_sed64 (size : Nat) : Literal.value (sed size [6, 4]) = size := by
  show Literal.value (decimal size ++ []) = size
  rw [List.append_nil, value_decimal]

/-- **A printed header has one capacity.** -/
theorem print_capacity (size : Nat) : (header64.print size).Capacity size :=
  ⟨value_sed64 size, value_sed64 size, value_sed64 size, value_sed64 size⟩

/-! ## §2. The functions of a header. -/

variable {μ χ : Type}

/-- `struct mulle__pointerfifo64` in use: `n` and `storage` live in the
memory `mem`, `write` and `read` with the thread that owns them. -/
structure FixedConfig (μ : Type) where
  mem : μ
  prod : Producer
  cons : Consumer

/-- One step of the fixed FIFO and the threads that use it. -/
def fixedStep (h : Header) (M : MemoryModel μ χ) (W : Words) (c : FixedConfig μ) :
    Action χ → Option (FixedConfig μ × Event)
  | .callWrite pointer =>
      (enterWrite pointer c.prod).map fun p => ({ c with prod := p }, .prod (.call pointer))
  | .prod ch =>
      (writeStep (M .producer ch) W h.fullCheck.value h.writeModulus.value c.prod c.mem).map
        fun r => ({ c with prod := r.1, mem := r.2.1 }, .prod r.2.2)
  | .callRead =>
      (enterRead c.cons).map fun s => ({ c with cons := s }, .cons .call)
  | .cons ch =>
      (readStep (M .consumer ch) W h.readModulus.value c.cons c.mem).map fun r =>
        ({ c with cons := r.1, mem := r.2.1 }, .cons r.2.2)
  | .getCount t ch =>
      if betweenCalls c.prod c.cons t then
        (getCount (M t ch) W c.mem).map fun r => ({ c with mem := r.2 }, .count t r.1)
      else none
  | .work t tag =>
      if betweenCalls c.prod c.cons t then some (c, .work t tag) else none

/-- `_mulle__pointerfifo64_init( p)`: the storage is left as it is. -/
def fixedInit (storage : Nat → Ptr) : FixedConfig ScMem where
  mem := { n := 0, storage := storage }
  prod := { pc := .idle, write := 0 }
  cons := { pc := .idle, read := 0 }

/-- Sequentially consistent atomics on a struct with an array of `length`
slots: there are no others. -/
def seqCstArray (W : Words) (length : Nat) : MemoryModel ScMem Unit := fun t ch =>
  { seqCst W t ch with
    readSlot := fun i m => if i < length then (seqCst W t ch).readSlot i m else none
    writeSlot := fun i pointer m =>
      if i < length then (seqCst W t ch).writeSlot i pointer m else none }

/-- Run a schedule on a freshly initialised fixed FIFO. -/
abbrev fixedRun (h : Header) (W : Words) (storage : Nat → Ptr) (as : List (Action Unit)) :
    Option (FixedConfig ScMem × List Event) :=
  run (fixedStep h (seqCstArray W h.arrayLength.value) W) (fixedInit storage) as

/-! ## §3. A header is the dynamic FIFO with its size inlined. -/

/-- The dynamic FIFO of this size in the same state. -/
def FixedConfig.dynamic (size : Nat) (c : FixedConfig μ) : Config μ :=
  ⟨size, c.mem, c.prod, c.cons⟩

/-- **One step of a header is one step of the dynamic FIFO.** -/
theorem fixedStep_dynamic {h : Header} {size : Nat} (hcap : h.Capacity size)
    (M : MemoryModel μ χ) (W : Words) (c : FixedConfig μ) (a : Action χ) :
    step M W (c.dynamic size) a
      = (fixedStep h M W c a).map fun x => (x.1.dynamic size, x.2) := by
  cases a with
  | prod ch =>
      simp only [step, fixedStep, hcap.fullCheck, hcap.writeModulus, Option.map_map]
      rfl
  | cons ch =>
      simp only [step, fixedStep, hcap.readModulus, Option.map_map]
      rfl
  | callWrite pointer =>
      simp only [step, fixedStep, Option.map_map]
      rfl
  | callRead =>
      simp only [step, fixedStep, Option.map_map]
      rfl
  | getCount t ch =>
      by_cases ht : betweenCalls c.prod c.cons t
      · have hd : betweenCalls (c.dynamic size).prod (c.dynamic size).cons t := ht
        simp only [step, fixedStep]
        rw [if_pos hd, if_pos ht, Option.map_map]
        rfl
      · have hd : ¬ betweenCalls (c.dynamic size).prod (c.dynamic size).cons t := ht
        simp only [step, fixedStep]
        rw [if_neg hd, if_neg ht]
        rfl
  | work t tag =>
      by_cases ht : betweenCalls c.prod c.cons t
      · have hd : betweenCalls (c.dynamic size).prod (c.dynamic size).cons t := ht
        simp only [step, fixedStep]
        rw [if_pos hd, if_pos ht]
        rfl
      · have hd : ¬ betweenCalls (c.dynamic size).prod (c.dynamic size).cons t := ht
        simp only [step, fixedStep]
        rw [if_neg hd, if_neg ht]
        rfl

end MulleFifo
