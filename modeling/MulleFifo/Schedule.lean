/-
  MulleFifo.Schedule — the schedule leaves no trace.

  At every point of any two calls the whole struct is a function of what
  was stored, of how many pointers were pushed and popped, and of the two
  program points (`Inv.closed_form`).  Nothing else got in: not the order
  in which the threads took their steps, not the writes that failed, not
  the reads that found nothing, not the counts.

  At rest the program points are gone, what was stored is what was
  accepted, and what was popped is what was received.  So two runs that
  agree on these end in the same struct, dead slots included:

      n     = P - C         write = P % size      read = C % size
      slot i = the last accepted pointer of a position that is `i` mod
               size, or what the block from `malloc` held
-/
import MulleFifo.Model.Lifecycle

namespace MulleFifo

open Lib

/-! ## §1. The closed form of a state. -/

/-- The state in which `stores` are in the slots, `pushes` and `pops` of
them were counted, and the threads are at `w` and `r`. -/
def closedForm (size : Nat) (storage : Nat → Ptr) (stores : List Ptr) (pushes pops : Nat)
    (w : WritePc) (r : ReadPc) : Config ScMem where
  size := size
  mem := { n := pushes - pops, storage := Ring.contents size storage stores }
  prod := { pc := w, write := (pushes + w.wp) % size }
  cons := { pc := r, read := (pops + r.rp) % size }

/-- The state between calls, after the writes of `pointers` were accepted
and `reads` reads were successful. -/
def restState (size : Nat) (storage : Nat → Ptr) (pointers : List Ptr) (reads : Nat) :
    Config ScMem where
  size := size
  mem :=
    { n := pointers.length - reads
      storage := fun i => (Ring.lastAt size pointers i).getD (storage i) }
  prod := { pc := .idle, write := pointers.length % size }
  cons := { pc := .idle, read := reads % size }

/-- At rest the closed form needs only the accepted pointers. -/
theorem closedForm_rest (size : Nat) (storage : Nat → Ptr) (pointers : List Ptr) (reads : Nat) :
    closedForm size storage pointers pointers.length reads .idle .idle
      = restState size storage pointers reads := by
  have hslots : Ring.contents size storage pointers
      = fun i => (Ring.lastAt size pointers i).getD (storage i) := by
    funext i
    exact Ring.contents_eq size storage pointers i
  unfold closedForm restState
  rw [hslots]
  rfl

/-! ## §2. Every state has it. -/

section Runs

variable {size : Nat} {storage : Nat → Ptr} {as : List (Action Unit)} {c : Config ScMem}
  {tr : List Event}

/-- **The closed form**, at every point of any two calls. -/
theorem Inv.closed_form (hI : Inv size storage tr c) :
    c = closedForm size storage (stored tr) (pushed tr).length (popped tr).length
      c.prod.pc c.cons.pc := by
  have hsize := hI.size_eq
  have hn := hI.counter
  have hstorage := hI.storage_eq
  have hwrite := hI.producer.write_eq
  have hread := hI.consumer.read_eq
  obtain ⟨sz, ⟨n, slots⟩, ⟨w, write⟩, ⟨r, read⟩⟩ := c
  simp only at hsize hn hstorage hwrite hread
  unfold closedForm
  rw [hsize, hn, hstorage, hwrite, hread]

/-- What was received is a prefix of what was accepted. -/
theorem Inv.received_eq_take (hI : Inv size storage tr c) (hrest : AtRest c.prod c.cons) :
    received tr = (accepted tr).take (received tr).length := by
  have hle := hI.received_le
  rw [hI.pushed_eq_accepted hrest.1] at hle
  exact List.prefix_iff_eq_take.mp hle

/-- **A state at rest** is the one its accepted pointers and its number of
successful reads lead to. -/
theorem Inv.rest_form (hI : Inv size storage tr c) (hrest : AtRest c.prod c.cons) :
    c = restState size storage (accepted tr) (received tr).length := by
  have hform := hI.closed_form
  have hstored := hI.producer.stored_eq
  obtain ⟨hprod, hcons⟩ := hrest
  rw [hprod] at hstored
  simp only [WritePc.placed, List.append_nil] at hstored
  rw [hprod, hcons, hstored, hI.pushed_eq_accepted hprod, hI.popped_eq_received hcons,
    closedForm_rest] at hform
  exact hform

end Runs

/-! ## §3. The theorem. -/

/-- **SCHEDULE INDEPENDENCE.**  A run that ends with both threads between
calls ends in `restState` of the pointers it accepted and the number of its
successful reads, and these reads returned the oldest of the pointers.  Two
such runs that agree on these, whatever else happened in them, received the
same and end in the same struct. -/
theorem pointerfifo_schedule_independent (size : Nat) (storage : Nat → Ptr) :
    (∀ as c tr, scRun size storage as = some (c, tr) → AtRest c.prod c.cons →
        c = restState size storage (accepted tr) (received tr).length
          ∧ received tr = (accepted tr).take (received tr).length)
      ∧ (∀ as₁ c₁ tr₁ as₂ c₂ tr₂, scRun size storage as₁ = some (c₁, tr₁) →
          scRun size storage as₂ = some (c₂, tr₂) → AtRest c₁.prod c₁.cons →
          AtRest c₂.prod c₂.cons → accepted tr₁ = accepted tr₂ →
          (received tr₁).length = (received tr₂).length →
          received tr₁ = received tr₂ ∧ c₁ = c₂) := by
  have hone (as : List (Action Unit)) (c : Config ScMem) (tr : List Event)
      (h : scRun size storage as = some (c, tr)) (hrest : AtRest c.prod c.cons) :
      c = restState size storage (accepted tr) (received tr).length
        ∧ received tr = (accepted tr).take (received tr).length := by
    have hI := scRun_inv h
    exact ⟨hI.rest_form hrest, hI.received_eq_take hrest⟩
  refine ⟨hone, ?_⟩
  intro as₁ c₁ tr₁ as₂ c₂ tr₂ h₁ h₂ hrest₁ hrest₂ hacc hrec
  obtain ⟨hstate₁, htake₁⟩ := hone as₁ c₁ tr₁ h₁ hrest₁
  obtain ⟨hstate₂, htake₂⟩ := hone as₂ c₂ tr₂ h₂ hrest₂
  constructor
  · rw [htake₁, htake₂, hacc, hrec]
  · rw [hstate₁, hstate₂, hacc, hrec]

/-- Three writes and a read, one call after the other. -/
def turnByTurn : List (Action Unit) :=
  [.callWrite 5, .prod (), .prod (), .prod (), .prod (), .prod (),
    .callRead, .cons (), .cons (), .cons (), .cons (), .cons (),
    .callWrite 6, .prod (), .prod (), .prod (), .prod (), .prod (),
    .callWrite 7, .prod (), .prod (), .prod (), .prod (), .prod ()]

/-- The same, and in between: a read that finds nothing, a write of NULL, a
write that is refused, a count, and a read that overlaps with a write. -/
def crowded : List (Action Unit) :=
  [.callRead, .callWrite 5, .prod (), .cons (), .prod (), .cons (), .prod (), .prod (), .prod (),
    .callWrite NULL, .prod (),
    .callWrite 6, .prod (), .prod (), .prod (), .prod (), .prod (),
    .callWrite 8, .callRead, .prod (), .cons (), .getCount (.observer 0) (), .prod (),
    .cons (), .cons (), .cons (), .callWrite 7, .prod (), .cons (), .prod (), .prod (),
    .prod (), .prod ()]

/-- Nothing in the struct tells the two apart. -/
theorem crowded_turnByTurn :
    ∃ c tr₁ tr₂, scRun 2 (fun _ => 77) crowded = some (c, tr₁)
      ∧ scRun 2 (fun _ => 77) turnByTurn = some (c, tr₂)
      ∧ writes tr₁ = [(5, 0), (NULL, -2), (6, 0), (8, -1), (7, 0)]
      ∧ writes tr₂ = [(5, 0), (6, 0), (7, 0)] ∧ reads tr₁ = [NULL, 5] ∧ reads tr₂ = [5] := by
  obtain ⟨c₁, tr₁, h₁, hrest₁, hw₁, hr₁, hacc₁, hrec₁⟩ :
      ∃ c tr, scRun 2 (fun _ => 77) crowded = some (c, tr) ∧ AtRest c.prod c.cons
        ∧ writes tr = [(5, 0), (NULL, -2), (6, 0), (8, -1), (7, 0)] ∧ reads tr = [NULL, 5]
        ∧ accepted tr = [5, 6, 7] ∧ (received tr).length = 1 :=
    ⟨_, _, rfl, ⟨rfl, rfl⟩, rfl, rfl, rfl, rfl⟩
  obtain ⟨c₂, tr₂, h₂, hrest₂, hw₂, hr₂, hacc₂, hrec₂⟩ :
      ∃ c tr, scRun 2 (fun _ => 77) turnByTurn = some (c, tr) ∧ AtRest c.prod c.cons
        ∧ writes tr = [(5, 0), (6, 0), (7, 0)] ∧ reads tr = [5]
        ∧ accepted tr = [5, 6, 7] ∧ (received tr).length = 1 :=
    ⟨_, _, rfl, ⟨rfl, rfl⟩, rfl, rfl, rfl, rfl⟩
  -- the two states are never compared, slot by slot or otherwise
  have hsame := (pointerfifo_schedule_independent 2 fun _ => 77).2 crowded c₁ tr₁ turnByTurn c₂ tr₂
    h₁ h₂ hrest₁ hrest₂ (hacc₁.trans hacc₂.symm) (hrec₁.trans hrec₂.symm)
  rw [← hsame.2] at h₂
  exact ⟨c₁, tr₁, tr₂, h₁, h₂, hw₁, hw₂, hr₁, hr₂⟩

end MulleFifo
