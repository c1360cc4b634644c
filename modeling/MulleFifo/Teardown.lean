/-
  MulleFifo.Teardown — who may still touch the FIFO.

  `_mulle_pointerfifo_done` frees the storage, so it must not run while the
  other thread still has an access ahead of it.  The counter update is the
  LAST access of both calls, and the other side learns about a call only
  through the counter.  Therefore:

    • when the `k`-th read passes its empty check, all four accesses of the
      `k`-th accepted write are done (`WriteDone`); unless the producer
      calls again it will not touch the FIFO any more, whatever happens to
      the memory,
    • when anybody sees `n = 0`, all four accesses of every read of a
      pointer pushed so far are done (`ReadDone`); only a new call of the
      consumer can touch the FIFO again.
-/
import MulleFifo.Publication

namespace MulleFifo

open Lib

/-! ## §1. Finished calls, and threads at rest. -/

/-- Every access of the `k`-th accepted write (from 0) has been executed. -/
structure WriteDone (k : Nat) (tr : List Event) : Prop where
  check : k < (admitted tr).length
  slot : k < (stored tr).length
  index : k < (indexedWrites tr).length
  counter : k < (pushed tr).length

/-- Every access of the `k`-th successful read (from 0) has been executed. -/
structure ReadDone (k : Nat) (tr : List Event) : Prop where
  check : k < (granted tr).length
  slot : k < (loaded tr).length
  index : k < (indexedReads tr).length
  counter : k < (popped tr).length

/-- The producer has no access ahead of it until its next call. -/
def WritePc.Resting (pc : WritePc) : Prop := pc = .idle ∨ ∃ pointer rval, pc = .ret pointer rval

/-- The consumer has no access ahead of it until its next call. -/
def ReadPc.Resting (pc : ReadPc) : Prop := pc = .idle ∨ ∃ pointer, pc = .ret pointer

/-- Thread `t` is at rest. -/
def RestingThread {μ : Type} (c : Config μ) : Thread → Prop
  | .producer => c.prod.pc.Resting
  | .consumer => c.cons.pc.Resting
  | .observer _ => True

/-- After position `b`, thread `t` touches the FIFO only in calls that it
began after position `b`. -/
def TouchesOnlyInNewCalls (t : Thread) (tr : List Event) (b : Nat) : Prop :=
  ∀ j f, b < j → tr[j]? = some f → f.thread = t → f.touches = true →
    ∃ i g, b < i ∧ i ≤ j ∧ tr[i]? = some g ∧ g.thread = t ∧ g.begins = true

/-- The producer began nothing after position `b`. -/
def LastCall (tr : List Event) (b : Nat) : Prop :=
  ∀ j f, b < j → tr[j]? = some f → f.thread = .producer → f.begins = false

/-- `_mulle_pointerfifo_done` may run now: over any memory (freed, or in
use for something else) the producer can still finish its call, and does
not access that memory. -/
def SafeToTearDown (c : Config ScMem) : Prop :=
  ∀ (μ χ : Type) (M : MemoryModel μ χ) (m : μ) (size : Nat) (as : List (Action χ))
    (c' : Config μ) (tr : List Event),
    run (step M .exact) ⟨size, m, c.prod, c.cons⟩ as = some (c', tr) →
    (∀ e ∈ tr, e.thread = .producer ∧ e.begins = false) →
    c'.mem = m ∧ ∀ e ∈ tr, e.touches = false

/-! ## §2. A thread at rest stays at rest until it calls. -/

section Rest

variable {μ χ : Type} {M : MemoryModel μ χ} {t : Thread}

/-- A step that touches nothing leaves the memory as it is. -/
theorem Transition.mem_eq {W : Words} {c c' : Config μ} {e : Event} (h : Transition M W c e c')
    (he : e.touches = false) : c'.mem = c.mem := by
  cases h with
  | callNull | call | retWrite | callRead | retRead | work => rfl
  | _ => simp at he

theorem run_mem_eq {c c' : Config μ} {as : List (Action χ)} {tr : List Event}
    (h : run (step M .exact) c as = some (c', tr)) (he : ∀ e ∈ tr, e.touches = false) :
    c'.mem = c.mem := by
  -- induction on the run, for the traces that touch nothing
  refine run_invariant (P := fun tr s => (∀ e ∈ tr, e.touches = false) → s.mem = c.mem)
    (fun _ => rfl) ?_ h he
  intro tr s a s' e ih hs hall
  have hlast : e.touches = false := hall e (by simp)
  rw [(step_transition hs).mem_eq hlast]
  exact ih fun f hf => hall f (by simp [hf])

/-- A step of a thread at rest begins a call or touches nothing. -/
theorem RestingThread.keep {c c' : Config μ} {e : Event} (hrest : RestingThread c t)
    (h : Transition M .exact c e c') (hb : e.thread = t → e.begins = false) :
    RestingThread c' t ∧ (e.thread = t → e.touches = false) := by
  cases t with
  | producer =>
      unfold RestingThread WritePc.Resting at hrest ⊢
      cases h with
      | callNull | call => simp at hb
      | retWrite hpc => simp
      | callRead | empty | avail | load | indexRead | decrement | retRead | work =>
          exact ⟨hrest, by simp⟩
      | count ht hread =>
          refine ⟨hrest, fun heq => ?_⟩
          have hcall := hb heq
          simp at hcall
      | _ => simp_all
  | consumer =>
      unfold RestingThread ReadPc.Resting at hrest ⊢
      cases h with
      | callRead => simp at hb
      | retRead hpc => simp
      | callNull | call | full | room | store | indexWrite | increment | retWrite | work =>
          exact ⟨hrest, by simp⟩
      | count ht hread =>
          refine ⟨hrest, fun heq => ?_⟩
          have hcall := hb heq
          simp at hcall
      | _ => simp_all
  | observer id =>
      refine ⟨trivial, fun heq => ?_⟩
      have hcall := hb heq
      cases h with
      | count ht hread => simp at hcall
      | work ht => rfl
      | _ => simp at heq

/-- **A thread at rest that begins no call touches nothing.** -/
theorem RestingThread.quiet {c c' : Config μ} {as : List (Action χ)} {tr : List Event}
    (hrest : RestingThread c t) (h : run (step M .exact) c as = some (c', tr))
    (hb : ∀ e ∈ tr, e.thread = t → e.begins = false) :
    RestingThread c' t ∧ ∀ e ∈ tr, e.thread = t → e.touches = false := by
  refine run_invariant (P := fun tr s => (∀ e ∈ tr, e.thread = t → e.begins = false) →
    RestingThread s t ∧ ∀ e ∈ tr, e.thread = t → e.touches = false)
    (fun _ => ⟨hrest, by simp⟩) ?_ h hb
  intro tr s a s' e ih hs hall
  obtain ⟨hrest', hquiet⟩ := ih fun f hf => hall f (by simp [hf])
  obtain ⟨hnext, hlast⟩ := hrest'.keep (step_transition hs) (hall e (by simp))
  refine ⟨hnext, ?_⟩
  intro f hf
  rcases List.mem_append.mp hf with hin | heq
  · exact hquiet f hin
  · rw [List.mem_singleton.mp heq]
    exact hlast

/-- From the event at position `b` on, when it left `t` at rest. -/
theorem RestingThread.touchesOnlyInNewCalls {c c' : Config μ} {as : List (Action χ)}
    {pre post : List Event} {e : Event} (hrest : RestingThread c t)
    (h : run (step M .exact) c as = some (c', post)) :
    TouchesOnlyInNewCalls t (pre ++ e :: post) pre.length := by
  intro j f hlt hf ht htouch
  obtain ⟨d, rfl⟩ : ∃ d, j = pre.length + 1 + d := ⟨j - pre.length - 1, by omega⟩
  rw [getElem?_after] at hf
  -- cut the rest of the run right after `f`
  obtain ⟨mid, rest, rfl, hmid⟩ := exists_split hf
  have hcut : mid ++ f :: rest = (mid ++ [f]) ++ rest := by simp
  rw [hcut] at h
  obtain ⟨m, as₁, as₂, rfl, h1, _⟩ := run_split h
  by_contra hnone
  have hbegins : ∀ g ∈ mid ++ [f], g.thread = t → g.begins = false := by
    intro g hg hgt
    rw [← Bool.not_eq_true]
    intro hb
    obtain ⟨i, hi⟩ := List.getElem?_of_mem hg
    have hlen : i < (mid ++ [f]).length := (List.getElem?_eq_some_iff.mp hi).1
    simp only [List.length_append, List.length_singleton] at hlen
    refine hnone ⟨pre.length + 1 + i, g, by omega, by omega, ?_, hgt, hb⟩
    rw [getElem?_after, hcut, List.getElem?_append_left (by simpa using hlen)]
    exact hi
  have hno := (hrest.quiet h1 hbegins).2 f (by simp) ht
  rw [hno] at htouch
  exact Bool.noConfusion htouch

end Rest

/-! ## §3. Counters tell which calls are done. -/

section Done

variable {size : Nat} {storage : Nat → Ptr} {as : List (Action Unit)} {c : Config ScMem}
  {tr : List Event} {k : Nat}

/-- The increment is the last access of a write. -/
theorem Inv.writeDone (hI : Inv size storage tr c) (hk : k < (pushed tr).length) :
    WriteDone k tr := by
  have hadmitted := hI.producer.admitted_eq
  have hstored := hI.producer.stored_eq
  have hindexed := hI.producer.indexed_eq
  refine ⟨?_, ?_, by omega, hk⟩
  · rw [hadmitted, List.length_append]
    omega
  · rw [hstored, List.length_append]
    omega

/-- The decrement is the last access of a read. -/
theorem Inv.readDone (hI : Inv size storage tr c) (hk : k < (popped tr).length) :
    ReadDone k tr := by
  have hgranted := hI.consumer.granted_eq
  have hloaded := hI.consumer.loaded_eq
  have hindexed := hI.consumer.indexed_eq
  refine ⟨by omega, ?_, by omega, hk⟩
  rw [hloaded, List.length_append]
  omega

/-- The accesses of the `k`-th write are done when the `k`-th read is granted. -/
theorem writeDone_of_granted (h : scRun size storage as = some (c, tr)) {g : Nat}
    (hg : NthAt Event.granted? tr k g) : WriteDone k (tr.take g) := by
  obtain ⟨pre, e, post, rfl, rfl, he, hcount⟩ := hg
  rw [List.take_left]
  obtain ⟨c₁, c₂, hI, _, _⟩ := scRun_event h
  apply hI.writeDone
  rw [← hcount]
  cases e with
  | cons r =>
      cases r with
      | avail count => exact granted_lt_pushed h
      | _ => simp at he
  | _ => simp at he

/-- The accesses of the `k`-th read are done when `n = 0` is seen after the
`k`-th increment. -/
theorem readDone_of_zero {pre post : List Event} {e : Event}
    (h : scRun size storage as = some (c, pre ++ e :: post)) (he : e.observed? = some 0)
    (hk : k < (pushed pre).length) : ReadDone k pre := by
  obtain ⟨c₁, c₂, hI, ht, _⟩ := scRun_event h
  apply hI.readDone
  have hzero := hI.observed ht he
  omega

/-- After the increment of a write the producer is at rest. -/
theorem resting_of_pushed (h : scRun size storage as = some (c, tr)) {b : Nat}
    (hb : NthAt Event.pushed? tr k b) :
    ∃ pre e post as₂ c₂, tr = pre ++ e :: post ∧ pre.length = b
      ∧ RestingThread c₂ .producer ∧ run (step (seqCst .exact) .exact) c₂ as₂ = some (c, post) := by
  obtain ⟨pre, e, post, rfl, rfl, he, _⟩ := hb
  obtain ⟨c₁, c₂, as₁, a, as₂, rfl, _, ha, h2⟩ := run_split_event h
  refine ⟨pre, e, post, as₂, c₂, rfl, rfl, ?_, h2⟩
  cases step_transition ha with
  | increment ch hpc => exact .inr ⟨_, _, rfl⟩
  | _ => simp at he

/-- After the decrement of a read the consumer is at rest. -/
theorem resting_of_popped (h : scRun size storage as = some (c, tr)) {d : Nat}
    (hd : NthAt Event.popped? tr k d) :
    ∃ pre e post as₂ c₂, tr = pre ++ e :: post ∧ pre.length = d
      ∧ RestingThread c₂ .consumer ∧ run (step (seqCst .exact) .exact) c₂ as₂ = some (c, post) := by
  obtain ⟨pre, e, post, rfl, rfl, he, _⟩ := hd
  obtain ⟨c₁, c₂, as₁, a, as₂, rfl, _, ha, h2⟩ := run_split_event h
  refine ⟨pre, e, post, as₂, c₂, rfl, rfl, ?_, h2⟩
  cases step_transition ha with
  | decrement ch hpc => exact .inr ⟨_, rfl⟩
  | _ => simp at he

/-- A producer at rest can finish over any memory. -/
theorem safeToTearDown (hrest : RestingThread c .producer) : SafeToTearDown c := by
  intro μ χ M m size as c' tr h hprod
  have hrest' : RestingThread (⟨size, m, c.prod, c.cons⟩ : Config μ) .producer := hrest
  have hquiet := (hrest'.quiet h fun e he _ => (hprod e he).2).2
  have htouch : ∀ e ∈ tr, e.touches = false := fun e he => hquiet e he (hprod e he).1
  exact ⟨run_mem_eq h htouch, htouch⟩

/-- Nothing began after the increment of the `k`-th write: tear down. -/
theorem safeToTearDown_of_lastCall (h : scRun size storage as = some (c, tr)) {b : Nat}
    (hb : NthAt Event.pushed? tr k b) (hlast : LastCall tr b) : SafeToTearDown c := by
  obtain ⟨pre, e, post, as₂, c₂, rfl, rfl, hrest, h2⟩ := resting_of_pushed h hb
  refine safeToTearDown (hrest.quiet h2 ?_).1
  intro f hf hft
  obtain ⟨i, hi⟩ := List.getElem?_of_mem hf
  exact hlast (pre.length + 1 + i) f (by omega) (by rw [getElem?_after]; exact hi) hft

end Done

/-! ## §4. The theorem. -/

/-- **TEARDOWN ON THE LAST ITEM IS SAFE**, for every `k`.  When the `k`-th
read passes its empty check, at position `g`, every access of the `k`-th
accepted write is done; from its increment on the producer touches the FIFO
only in new calls; and if it makes none, `done` may be called.  When any
thread sees `n = 0` with the `k`-th write done, every access of the `k`-th
read is done, and the consumer touches the FIFO only in new calls. -/
theorem pointerfifo_teardown (size : Nat) (storage : Nat → Ptr) (as : List (Action Unit))
    (c : Config ScMem) (tr : List Event) (h : scRun size storage as = some (c, tr)) (k : Nat) :
    (∀ g, NthAt Event.granted? tr k g →
        WriteDone k (tr.take g)
          ∧ ∃ b, b < g ∧ NthAt Event.pushed? tr k b ∧ TouchesOnlyInNewCalls .producer tr b
            ∧ (LastCall tr b → SafeToTearDown c))
      ∧ (∀ pre e post, tr = pre ++ e :: post → e.observed? = some 0 → k < (pushed pre).length →
          ReadDone k pre
            ∧ ∃ d, d < pre.length ∧ NthAt Event.popped? tr k d
              ∧ TouchesOnlyInNewCalls .consumer tr d) := by
  constructor
  case left =>
    intro g hg
    obtain ⟨b, hbg, hb⟩ := pushed_before_granted h hg
    refine ⟨writeDone_of_granted h hg, b, hbg, hb, ?_, safeToTearDown_of_lastCall h hb⟩
    obtain ⟨pre, e, post, as₂, c₂, rfl, rfl, hrest, h2⟩ := resting_of_pushed h hb
    exact hrest.touchesOnlyInNewCalls h2
  case right =>
    intro pre e post htr he hk
    subst htr
    have hdone := readDone_of_zero h he hk
    obtain ⟨d, hdlt, hd⟩ := exists_nthAt_lt (f := Event.popped?) (e :: post) hdone.counter
    refine ⟨hdone, d, hdlt, hd, ?_⟩
    obtain ⟨pre', e', post', as₂, c₂, htr, rfl, hrest, h2⟩ := resting_of_popped h hd
    rw [htr]
    exact hrest.touchesOnlyInNewCalls h2

/-- To be the last call, it is enough that no later event begins one. -/
theorem lastCall_of_drop {tr : List Event} {b : Nat}
    (h : ∀ e ∈ tr.drop (b + 1), e.thread = .producer → e.begins = false) : LastCall tr b := by
  intro j f hj hf hthread
  refine h f (List.mem_of_getElem? (i := j - (b + 1)) ?_) hthread
  rw [List.getElem?_drop, ← hf]
  congr 1
  omega

/-- A write and a read that have made all their accesses and have not
returned; then a third thread counts. -/
def bothReturning : List (Action Unit) :=
  [.callRead, .callWrite 5, .prod (), .prod (), .prod (), .prod (), .cons (), .cons (), .cons (),
    .cons (), .getCount (.observer 0) ()]

/-- What `bothReturning` shows before the count. -/
def accessesMade : List Event :=
  [.cons .call, .prod (.call 5), .prod (.room 5 0), .prod (.store 0 5), .prod .index,
    .prod (.increment 5), .cons (.avail 1), .cons (.load 0 5), .cons .index,
    .cons (.decrement 5)]

/-- The empty check at position 6 and the count tell that the write and the
read are done, and `done` may be called before either returns. -/
theorem bothReturning_teardown :
    ∃ c, scRun 2 (fun _ => 77) bothReturning = some (c, accessesMade ++ [.count (.observer 0) 0])
      ∧ c.prod.pc = .ret 5 0 ∧ c.cons.pc = .ret 5
      ∧ WriteDone 0 (accessesMade.take 6) ∧ SafeToTearDown c
      ∧ ReadDone 0 accessesMade
      ∧ TouchesOnlyInNewCalls .consumer (accessesMade ++ [.count (.observer 0) 0]) 9 := by
  obtain ⟨c, h, hprod, hcons⟩ : ∃ c, scRun 2 (fun _ => 77) bothReturning
      = some (c, accessesMade ++ [.count (.observer 0) 0])
      ∧ c.prod.pc = .ret 5 0 ∧ c.cons.pc = .ret 5 := ⟨_, rfl, rfl, rfl⟩
  obtain ⟨hgranted, hzero⟩ := pointerfifo_teardown 2 (fun _ => 77) bothReturning c _ h 0
  obtain ⟨hwrite, b, _, hb, _, hsafe⟩ := hgranted 6 (.of_getElem? rfl rfl)
  obtain ⟨hread, d, _, hd, hquiet⟩ := hzero accessesMade _ [] rfl rfl (by decide)
  -- the increment is at position 5, and no call of the producer follows it
  obtain rfl : b = 5 := hb.unique (.of_getElem? rfl rfl)
  have hlast : LastCall (accessesMade ++ [Event.count (.observer 0) 0]) 5 :=
    lastCall_of_drop (by decide)
  obtain rfl : d = 9 := hd.unique (.of_getElem? rfl rfl)
  exact ⟨c, h, hprod, hcons, hwrite, hsafe hlast, hread, hquiet⟩

end MulleFifo
