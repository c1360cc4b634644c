/-
  MulleFifo.Sequential — what one thread gets from the API.

  Two steps, from the small-step model to the documented contract:

    • a call that nobody interrupts IS its straight-line code: the steps of
      `step` from the call to the return do what `writeCall` and `readCall`
      do, over every memory, get stuck where they have no result, and show
      one of the forms of a call (`write_alone`, `read_alone`),
    • so the invariant of the concurrent FIFO holds from call to call, and
      with it any program of API calls is one of calls of a bounded queue
      with a life of its own (`ApiQueue`): checked and unchecked functions,
      NULL for `p` or for a pointer, `done` twice, calls after `done`, and
      `init` again, in any order.
-/
import MulleFifo.Model.Sequential
import MulleFifo.WaitFree
import MulleFifo.Epochs

namespace MulleFifo

open Lib

/-! ## §1. A call that nobody interrupts. -/

/-- The form of a write that finds `count` pointers. -/
def writeForm (full count write : Nat) (pointer : Ptr) : WriteCall :=
  if pointer = NULL then .null
  else if count = full then .full pointer count
  else .done pointer count write

/-- The form of a read that finds `count` pointers. -/
def readForm (count read : Nat) (pointer : Ptr) : ReadCall :=
  if count = 0 then .empty else .done count read pointer

/-- The steps of a call after it was entered. -/
def WriteCall.steps (call : WriteCall) : List (Action Unit) :=
  List.replicate (call.events.length - 1) (.prod ())

def ReadCall.steps (call : ReadCall) : List (Action Unit) :=
  List.replicate (call.events.length - 1) (.cons ())

section Alone

variable {μ : Type} {M : MemoryModel μ Unit} {W : Words} {c : Config μ} {n : Int} {m : μ}

/-- **A write that nobody interrupts is its straight-line code**, whatever
the consumer is in the middle of. -/
theorem write_alone (hpc : c.prod.pc = .idle)
    (hn : (M .producer ()).readN c.mem = some (n, m)) (pointer : Ptr) :
    run (step M W) c
        (.callWrite pointer :: (writeForm c.size (W.toUnsigned n) c.prod.write pointer).steps)
      = (writeCall (M .producer ()) W c.size c.size pointer c.prod.write c.mem).map fun r =>
          ({ c with prod := ⟨.idle, r.2.1⟩, mem := r.2.2 },
            (writeForm c.size (W.toUnsigned n) c.prod.write pointer).events.map .prod) := by
  obtain ⟨size, mem, ⟨pc, write⟩, cons⟩ := c
  simp only at hpc hn
  subst hpc
  have hcount : getCount (M .producer ()) W mem = some (W.toUnsigned n, m) := by
    unfold getCount
    rw [hn]
    rfl
  by_cases hp : pointer = NULL
  · subst hp
    rfl
  · unfold writeForm writeCall
    rw [if_neg hp, if_neg hp, hcount]
    by_cases hfull : W.toUnsigned n = size
    · simp [hfull, WriteCall.steps, WriteCall.events, run, step, enterWrite, hp, writeStep, hcount]
    · cases hw : (M .producer ()).writeSlot write pointer m with
      | none =>
          simp [hfull, WriteCall.steps, WriteCall.events, run, step, enterWrite, hp, writeStep,
            hcount, hw]
      | some m' =>
          simp [hfull, WriteCall.steps, WriteCall.events, run, step, enterWrite, hp, writeStep,
            hcount, hw]

/-- What the call returns is what its form says. -/
theorem writeCall_rval {A : Atomics μ} (hn : A.readN c.mem = some (n, m)) {pointer : Ptr}
    {r : Int × Nat × μ}
    (h : writeCall A W c.size c.size pointer c.prod.write c.mem = some r) :
    r.1 = (writeForm c.size (W.toUnsigned n) c.prod.write pointer).result.2 := by
  unfold writeCall writeForm at *
  by_cases hp : pointer = NULL
  · rw [if_pos hp] at h ⊢
    rw [← Option.some.inj h]
    rfl
  · rw [if_neg hp] at h ⊢
    obtain ⟨q, hq, hr⟩ := Option.bind_eq_some_iff.mp h
    obtain rfl : (W.toUnsigned n, m) = q := by
      unfold getCount at hq
      rw [hn] at hq
      exact Option.some.inj hq
    by_cases hfull : W.toUnsigned n = c.size
    · rw [if_pos hfull] at hr ⊢
      rw [← Option.some.inj hr]
      rfl
    · rw [if_neg hfull] at hr ⊢
      obtain ⟨m', _, rfl⟩ := Option.map_eq_some_iff.mp hr
      rfl

/-- **A read that nobody interrupts is its straight-line code**, whatever
the producer is in the middle of. -/
theorem read_alone (hpc : c.cons.pc = .idle)
    (hn : (M .consumer ()).readN c.mem = some (n, m)) :
    run (step M W) c (.callRead :: (readForm (W.toUnsigned n) c.cons.read NULL).steps)
      = (readCall (M .consumer ()) W c.size c.cons.read c.mem).map fun r =>
          ({ c with cons := ⟨.idle, r.2.1⟩, mem := r.2.2 },
            (readForm (W.toUnsigned n) c.cons.read r.1).events.map .cons) := by
  obtain ⟨size, mem, prod, ⟨pc, read⟩⟩ := c
  simp only at hpc hn
  subst hpc
  have hcount : getCount (M .consumer ()) W mem = some (W.toUnsigned n, m) := by
    unfold getCount
    rw [hn]
    rfl
  unfold readForm readCall
  rw [hcount]
  by_cases hempty : W.toUnsigned n = 0
  · simp [hempty, ReadCall.steps, ReadCall.events, run, step, enterRead, readStep, hcount]
  · cases hr : (M .consumer ()).readSlot read m with
    | none =>
        simp [hempty, ReadCall.steps, ReadCall.events, run, step, enterRead, readStep, hcount, hr]
    | some q =>
        simp [hempty, ReadCall.steps, ReadCall.events, run, step, enterRead, readStep, hcount, hr]

/-- A read that finds nothing returns NULL. -/
theorem readCall_null {A : Atomics μ} (hn : A.readN c.mem = some (n, m)) {modulus read : Nat}
    {r : Ptr × Nat × μ} (h : readCall A W modulus read c.mem = some r)
    (hempty : W.toUnsigned n = 0) : r.1 = NULL := by
  unfold readCall getCount at h
  rw [hn, Option.map_some, Option.bind_some, if_pos hempty] at h
  rw [← Option.some.inj h]

end Alone

/-- Over an unbounded storage a call always has a result. -/
theorem writeCall_free (full modulus : Nat) (pointer : Ptr) (write : Nat) (m : ScMem) :
    ∃ r, writeCall (seqCst .exact .producer ()) .exact full modulus pointer write m = some r := by
  unfold writeCall
  by_cases hp : pointer = NULL
  · exact ⟨_, if_pos hp⟩
  · rw [if_neg hp]
    show ∃ r, (if Words.exact.toUnsigned m.n = full then _ else _ : Option _) = some r
    by_cases hfull : Words.exact.toUnsigned m.n = full
    · exact ⟨_, if_pos hfull⟩
    · exact ⟨_, if_neg hfull⟩

theorem readCall_free (modulus read : Nat) (m : ScMem) :
    ∃ r, readCall (seqCst .exact .consumer ()) .exact modulus read m = some r := by
  show ∃ r, (if Words.exact.toUnsigned m.n = 0 then _ else _ : Option _) = some r
  by_cases hempty : Words.exact.toUnsigned m.n = 0
  · exact ⟨_, if_pos hempty⟩
  · exact ⟨_, if_neg hempty⟩

/-! ## §2. From call to call. -/

/-- A memory that is as good as an unbounded storage wherever the invariant
and `P` hold, and its steps keep `P`. -/
structure Backs {μ : Type} (M : MemoryModel μ Unit) (f : μ → ScMem) (P : Config μ → Prop)
    (size : Nat) (garbage : Nat → Ptr) : Prop where
  seen : ∀ es c, P c → Inv size garbage es (c.seen f) → SeenAs M (seqCst .exact) f c
  keep : ∀ c e c', P c → Transition M .exact c e c' → P c'

section Queue

variable {size : Nat} {q : BoundedQueue Ptr size} {es : List Event}

/-- **A write and the queue**: the result, and what is unread after it. -/
theorem queueWrite_form (hq : q.items = unread es)
    (hle : (popped es).length ≤ (pushed es).length) (write : Nat) (pointer : Ptr) :
    (writeForm size (unread es).length write pointer).result.2 = (queueWrite q pointer).1
      ∧ (queueWrite q pointer).2.items
        = unread (es ++ (writeForm size (unread es).length write pointer).events.map .prod) := by
  have hlen : q.items.length = (unread es).length := congrArg List.length hq
  have hbd := q.bounded
  unfold writeForm queueWrite
  by_cases hp : pointer = NULL
  · rw [if_pos hp, if_pos hp]
    exact ⟨rfl, hq.trans (unread_same rfl rfl).symm⟩
  · rw [if_neg hp, if_neg hp]
    unfold BoundedQueue.push?
    by_cases hfull : (unread es).length = size
    · rw [if_pos hfull, dif_neg (by omega)]
      exact ⟨rfl, hq.trans (unread_same rfl rfl).symm⟩
    · rw [if_neg hfull, dif_pos (by omega)]
      refine ⟨rfl, ?_⟩
      show q.items ++ [pointer] = _
      rw [hq]
      exact (unread_pushed hle rfl rfl).symm

/-- **A read and the queue**, where the read found what it counted. -/
theorem queueRead_form (hq : q.items = unread es) {read : Nat} {pointer : Ptr}
    (hnull : unread es = [] → pointer = NULL)
    (hle : popped (es ++ (readForm (unread es).length read pointer).events.map .cons)
      <+: pushed (es ++ (readForm (unread es).length read pointer).events.map .cons)) :
    pointer = (queueRead q).1
      ∧ (queueRead q).2.items
        = unread (es ++ (readForm (unread es).length read pointer).events.map .cons) := by
  obtain ⟨items, hbd⟩ := q
  simp only at hq
  unfold readForm at hle ⊢
  by_cases hempty : (unread es).length = 0
  · have hnil : unread es = [] := List.length_eq_zero_iff.mp hempty
    obtain rfl : items = [] := hq.trans hnil
    rw [if_pos hempty]
    exact ⟨hnull hnil, hq.trans (unread_same rfl rfl).symm⟩
  · rw [if_neg hempty] at hle ⊢
    obtain rfl := hq.trans (unread_popped rfl rfl hle)
    exact ⟨rfl, rfl⟩

end Queue

namespace Backs

variable {μ : Type} {M : MemoryModel μ Unit} {f : μ → ScMem} {P : Config μ → Prop} {size : Nat}
  {garbage : Nat → Ptr} {es tr : List Event} {c c' : Config μ} {as : List (Action Unit)}
  {q : BoundedQueue Ptr size}

/-- **The invariant holds from call to call**, and the memory never gets in
the way. -/
theorem run_seen (hB : Backs M f P size garbage) (hP : P c)
    (hI : Inv size garbage es (c.seen f)) (as : List (Action Unit)) :
    (run (step M .exact) c as).map (fun x => (x.1.seen f, x.2))
        = run (step (seqCst .exact) .exact) (c.seen f) as
      ∧ ∀ c' tr, run (step M .exact) c as = some (c', tr) →
          P c' ∧ Inv size garbage (es ++ tr) (c'.seen f) := by
  have hkeep : ∀ tr c a c' e, (P c ∧ Inv size garbage (es ++ tr) (c.seen f)) →
      step M .exact c a = some (c', e) →
      P c' ∧ Inv size garbage (es ++ (tr ++ [e])) (c'.seen f) := by
    intro tr c a c' e hPI hs
    obtain ⟨hP, hI⟩ := hPI
    have hstep := (hB.seen _ c hP hI).step_eq .exact a
    rw [hs] at hstep
    rw [← List.append_assoc]
    exact ⟨hB.keep c e c' hP (step_transition hs), hI.step (step_transition hstep)⟩
  have hstart : P c ∧ Inv size garbage (es ++ []) (c.seen f) := by
    rw [List.append_nil]
    exact ⟨hP, hI⟩
  constructor
  · have hview : (run (step M .exact) c as).map (fun x => (x.1.seen f, x.2))
        = (run (step (seqCst .exact) .exact) (c.seen f) as).map fun y => (y.1, y.2) := by
      refine @run_view _ _ _ _ _ _ _
        (fun tr c => P c ∧ Inv size garbage (es ++ tr) (c.seen f)) (fun _ _ => True)
        (Config.seen f) (fun c => c) _ _ hstart trivial rfl hkeep (fun _ _ _ _ _ _ _ => trivial)
        ?_ as
      intro tr c c' a hPI _ hview
      subst hview
      rw [(hB.seen _ c hPI.1 hPI.2).step_eq]
      exact Option.map_id'.symm
    rw [hview]
    exact Option.map_id'
  · intro c' tr h
    exact run_invariant (P := fun tr c => P c ∧ Inv size garbage (es ++ tr) (c.seen f)) hstart
      hkeep h

/-- What a load of the counter finds. -/
theorem readN (hB : Backs M f P size garbage) (hP : P c) (hI : Inv size garbage es (c.seen f))
    (t : Thread) :
    ∃ n m, (M t ()).readN c.mem = some (n, m) ∧ Words.exact.toUnsigned n = (unread es).length := by
  have hread := (hB.seen es c hP hI).readN t ()
  obtain ⟨r, hr, hfr⟩ := Option.map_eq_some_iff.mp hread.symm
  obtain ⟨n, m⟩ := r
  refine ⟨n, m, hr, ?_⟩
  have hn : n = (f c.mem).n := (Prod.mk.inj hfr).1
  rw [hn]
  exact hI.toNat_counter_unread

/-- Where nothing else is in the way, so does the memory. -/
theorem run_some (hB : Backs M f P size garbage) (hP : P c) (hI : Inv size garbage es (c.seen f))
    {r : Config ScMem × List Event}
    (h : run (step (seqCst .exact) .exact) (c.seen f) as = some r) :
    ∃ c', run (step M .exact) c as = some (c', r.2) := by
  have hseen := (hB.run_seen hP hI as).1
  rw [h] at hseen
  obtain ⟨x, hx, hxr⟩ := Option.map_eq_some_iff.mp hseen
  exact ⟨x.1, by rw [hx, ← hxr]⟩

/-- **A write from call to call** is a write of the queue. -/
theorem write (hB : Backs M f P size garbage) (hP : P c) (hI : Inv size garbage es (c.seen f))
    (hq : q.items = unread es) (hpc : c.prod.pc = .idle) (pointer : Ptr) :
    ∃ r es', writeCall (M .producer ()) .exact size size pointer c.prod.write c.mem = some r
      ∧ r.1 = (queueWrite q pointer).1
      ∧ P { c with prod := { c.prod with write := r.2.1 }, mem := r.2.2 }
      ∧ Inv size garbage es'
          (Config.seen f { c with prod := { c.prod with write := r.2.1 }, mem := r.2.2 })
      ∧ (queueWrite q pointer).2.items = unread es' := by
  obtain rfl : c.size = size := hI.size_eq
  obtain ⟨n, m, hn, hcount⟩ := hB.readN hP hI .producer
  have hfcount : Words.exact.toUnsigned (f c.mem).n = (unread es).length :=
    hI.toNat_counter_unread
  -- over an unbounded storage the call has a result, so it has one here
  obtain ⟨r₀, hr₀⟩ := writeCall_free c.size c.size pointer c.prod.write (f c.mem)
  have hfree : ∃ x, run (step (seqCst .exact) .exact) (c.seen f)
      (.callWrite pointer :: (writeForm c.size (unread es).length c.prod.write pointer).steps)
      = some x := by
    have halone := write_alone (M := seqCst .exact) (W := .exact) (c := c.seen f) hpc rfl pointer
    rw [← hfcount]
    exact ⟨_, halone.trans (congrArg _ hr₀)⟩
  obtain ⟨x, hx⟩ := hfree
  have halone := write_alone (W := .exact) hpc hn pointer
  rw [hcount, ← hpc] at halone
  obtain ⟨c', hrun⟩ := hB.run_some hP hI hx
  obtain ⟨r, hr, _⟩ := Option.map_eq_some_iff.mp (halone.symm.trans hrun)
  rw [hr, Option.map_some] at halone
  obtain ⟨hP', hI'⟩ := (hB.run_seen hP hI _).2 _ _ halone
  obtain ⟨hrval, hitems⟩ := queueWrite_form hq hI.popped_length_le c.prod.write pointer
  have hresult := writeCall_rval (W := .exact) hn hr
  rw [hcount] at hresult
  exact ⟨r, _, hr, hresult.trans hrval, hP', hI', hitems⟩

/-- **A read from call to call** is a read of the queue. -/
theorem read (hB : Backs M f P size garbage) (hP : P c) (hI : Inv size garbage es (c.seen f))
    (hq : q.items = unread es) (hpc : c.cons.pc = .idle) :
    ∃ r es', readCall (M .consumer ()) .exact size c.cons.read c.mem = some r
      ∧ r.1 = (queueRead q).1
      ∧ P { c with cons := { c.cons with read := r.2.1 }, mem := r.2.2 }
      ∧ Inv size garbage es'
          (Config.seen f { c with cons := { c.cons with read := r.2.1 }, mem := r.2.2 })
      ∧ (queueRead q).2.items = unread es' := by
  obtain rfl : c.size = size := hI.size_eq
  obtain ⟨n, m, hn, hcount⟩ := hB.readN hP hI .consumer
  have hfcount : Words.exact.toUnsigned (f c.mem).n = (unread es).length :=
    hI.toNat_counter_unread
  obtain ⟨r₀, hr₀⟩ := readCall_free c.size c.cons.read (f c.mem)
  have hfree : ∃ x, run (step (seqCst .exact) .exact) (c.seen f)
      (.callRead :: (readForm (unread es).length c.cons.read NULL).steps) = some x := by
    have halone := read_alone (M := seqCst .exact) (W := .exact) (c := c.seen f) hpc rfl
    rw [← hfcount]
    exact ⟨_, halone.trans (congrArg _ hr₀)⟩
  obtain ⟨x, hx⟩ := hfree
  have halone := read_alone (W := .exact) hpc hn
  rw [hcount, ← hpc] at halone
  obtain ⟨c', hrun⟩ := hB.run_some hP hI hx
  obtain ⟨r, hr, _⟩ := Option.map_eq_some_iff.mp (halone.symm.trans hrun)
  rw [hr, Option.map_some] at halone
  obtain ⟨hP', hI'⟩ := (hB.run_seen hP hI _).2 _ _ halone
  have hnull : unread es = [] → r.1 = NULL := by
    intro hnil
    apply readCall_null hn hr
    rw [hcount, hnil]
    rfl
  obtain ⟨hresult, hitems⟩ := queueRead_form hq hnull hI'.popped_le
  exact ⟨r, _, hr, hresult, hP', hI', hitems⟩

end Backs

/-- The FIFO's block. -/
def OnBlock (size block : Nat) (c : Config HeapMem) : Prop :=
  c.mem.storage = some block ∧ c.mem.slots = size

theorem block_backs (size block : Nat) (garbage : Nat → Ptr) :
    Backs (heapAtomics .exact) (blockMem block) (OnBlock size block) size garbage where
  seen _ _ hP hI := seenAs_block hI hP.1 hP.2
  keep c e c' hP h := by
    obtain ⟨_, hst, hsl⟩ := heap_frame h
    exact ⟨hst.trans hP.1, hsl.trans hP.2⟩

/-- The array in the struct. -/
theorem array_backs (size : Nat) (garbage : Nat → Ptr) :
    Backs (seqCstArray .exact size) (fun m => m) (fun _ => True) size garbage where
  seen _ _ _ hI := seenAs_array hI .exact
  keep _ _ _ _ _ := trivial

/-! ## §3. The dynamic FIFO. -/

/-- The struct and the queue between two calls. -/
inductive Keeps : Life → ApiQueue → Prop
  | raw {s : Life} (hphase : s.phase = .raw) (hrest : AtRest s.fifo.prod s.fifo.cons) :
      Keeps s .raw
  | opened {s : Life} {size block : Nat} {garbage : Nat → Ptr} {es : List Event}
      {q : BoundedQueue Ptr size} (hphase : s.phase = .opened)
      (hrest : AtRest s.fifo.prod s.fifo.cons) (hP : OnBlock size block s.fifo)
      (hI : Inv size garbage es (s.fifo.seen (blockMem block))) (hq : q.items = unread es) :
      Keeps s (.opened q)
  | closed {s : Life} {size : Nat} {q : BoundedQueue Ptr size} (hphase : s.phase = .closed)
      (hrest : AtRest s.fifo.prod s.fifo.cons) (hstorage : s.fifo.mem.storage = none)
      (hsize : s.fifo.size = size) (hn : s.fifo.mem.n = q.items.length) : Keeps s (.closed q)

/-- Both have no result, or the same one. -/
abbrev Agree (x : Option (ApiResult × Life)) (y : Option (ApiResult × ApiQueue)) : Prop :=
  Option.Rel (fun x y => x.1 = y.1 ∧ Keeps x.2 y.2) x y

section Agrees

variable {s : Life} {q : ApiQueue}

theorem raw_not_initialised (hphase : s.phase = .raw) : ¬ s.Initialised := by
  unfold Life.Initialised
  rw [hphase]
  decide

/-- **init** opens an empty queue, whatever there was before. -/
theorem init_agrees (s : Life) (q : ApiQueue) (size allocator block : Nat) :
    Agree ((ApiCall.init size allocator block).plain s) (q.call (.init size allocator block)) := by
  have hq : q.call (.init size allocator block)
      = if 2 ≤ size then some (.unit, .opened (.empty Ptr size)) else none := by
    cases q <;> rfl
  rw [hq]
  show Agree (Option.map _ (if 2 ≤ size then _ else _)) _
  by_cases hsize : 2 ≤ size
  · rw [if_pos hsize, if_pos hsize]
    exact .some ⟨rfl, .opened rfl ⟨rfl, rfl⟩ ⟨rfl, rfl⟩
      (Inv.init size (s.fifo.mem.heap block)) rfl⟩
  · rw [if_neg hsize, if_neg hsize]
    exact .none

/-- **done** closes it, and does nothing the second time. -/
theorem done_agrees (hK : Keeps s q) : Agree (ApiCall.done.plain s) (q.call .done) := by
  show Agree (Option.map _ (if s.Initialised then _ else _)) _
  cases hK with
  | raw hphase hrest =>
      rw [if_neg (raw_not_initialised hphase)]
      exact .none
  | @opened size block garbage es q hphase hrest hP hI hq =>
      rw [if_pos (.inl hphase)]
      have hcounter : s.fifo.mem.n = (pushed es).length - (popped es).length := hI.counter
      have hle := hI.popped_length_le
      refine .some ⟨rfl, .closed ?_ ?_ ?_ ?_ ?_⟩
      all_goals simp only [Life.done, hP.1]
      · exact hrest
      · exact hI.size_eq
      · rw [hcounter, hq, unread_length]
        omega
  | closed hphase hrest hstorage hsize hn =>
      rw [if_pos (.inr hphase)]
      refine .some ⟨rfl, .closed ?_ ?_ ?_ ?_ ?_⟩
      all_goals simp only [Life.done, hstorage]
      · exact hrest
      · exact hsize
      · exact hn

/-- **get_count** is the length, before and after `done`. -/
theorem getCount_agrees (hK : Keeps s q) : Agree (ApiCall.getCount.plain s) (q.call .getCount) := by
  show Agree (Option.map _ (if s.Initialised then _ else _)) _
  cases hK with
  | raw hphase hrest =>
      rw [if_neg (raw_not_initialised hphase)]
      exact .none
  | opened hphase hrest hP hI hq =>
      rw [if_pos (.inl hphase)]
      refine .some ⟨congrArg ApiResult.count ?_, .opened hphase hrest hP hI hq⟩
      rw [hq]
      exact hI.toNat_counter_unread
  | closed hphase hrest hstorage hsize hn =>
      rw [if_pos (.inr hphase)]
      refine .some ⟨congrArg ApiResult.count ?_, .closed hphase hrest hstorage hsize hn⟩
      show s.fifo.mem.n.toNat = _
      rw [hn]
      rfl

/-- **read**: after `done` there is nothing to load from. -/
theorem read_agrees (hK : Keeps s q) : Agree (ApiCall.read.plain s) (q.call .read) := by
  show Agree (Option.map _ (if s.Initialised then _ else _)) _
  cases hK with
  | raw hphase hrest =>
      rw [if_neg (raw_not_initialised hphase)]
      exact .none
  | @opened size block garbage es q hphase hrest hP hI hq =>
      rw [if_pos (.inl hphase)]
      have hsize : s.fifo.size = size := hI.size_eq
      obtain ⟨r, es', hr, hresult, hP', hI', hq'⟩ :=
        (block_backs size block garbage).read hP hI hq hrest.2
      rw [hsize, hr]
      exact .some ⟨congrArg ApiResult.pointer hresult, .opened hphase hrest hP' hI' hq'⟩
  | @closed size q hphase hrest hstorage hsize hn =>
      rw [if_pos (.inr hphase)]
      have hcount : Words.exact.toUnsigned s.fifo.mem.n = q.items.length := by
        rw [hn]
        rfl
      show Agree (Option.map _ (Option.map _
        (if Words.exact.toUnsigned s.fifo.mem.n = 0 then _ else _))) (if q.items = [] then _ else _)
      rw [hcount]
      by_cases hnil : q.items = []
      · rw [if_pos hnil, if_pos (by rw [hnil]; rfl)]
        exact .some ⟨rfl, .closed hphase hrest hstorage hsize hn⟩
      · rw [if_neg hnil, if_neg (fun h => hnil (List.length_eq_zero_iff.mp h))]
        show Agree (Option.map _ (Option.map _ ((s.fifo.mem.storage.bind _).map _))) _
        rw [hstorage]
        exact .none

/-- **write**: after `done` there is nowhere to store. -/
theorem write_agrees (hK : Keeps s q) (pointer : Ptr) :
    Agree ((ApiCall.write pointer).plain s) (q.call (.write pointer)) := by
  show Agree (Option.map _ (if pointer = NULL ∨ s.Initialised then _ else _)) _
  cases hK with
  | raw hphase hrest =>
      show Agree _ (if pointer = NULL then _ else _)
      by_cases hp : pointer = NULL
      · subst hp
        rw [if_pos (.inl rfl), if_pos rfl]
        exact .some ⟨rfl, .raw hphase hrest⟩
      · have hraw : ¬ (pointer = NULL ∨ s.Initialised) := by
          rintro (h | h)
          · exact hp h
          · exact raw_not_initialised hphase h
        rw [if_neg hraw, if_neg hp]
        exact .none
  | @opened size block garbage es q hphase hrest hP hI hq =>
      rw [if_pos (.inr (.inl hphase))]
      have hsize : s.fifo.size = size := hI.size_eq
      obtain ⟨r, es', hr, hresult, hP', hI', hq'⟩ :=
        (block_backs size block garbage).write hP hI hq hrest.1 pointer
      rw [hsize, hr]
      exact .some ⟨congrArg ApiResult.rval hresult, .opened hphase hrest hP' hI' hq'⟩
  | @closed size q hphase hrest hstorage hsize hn =>
      rw [if_pos (.inr (.inr hphase))]
      have hcount : Words.exact.toUnsigned s.fifo.mem.n = q.items.length := by
        rw [hn]
        rfl
      have hbd := q.bounded
      show Agree _ (if (queueWrite q pointer).1 = 0 then _ else _)
      unfold writeCall queueWrite
      by_cases hp : pointer = NULL
      · have hrefused : ¬ (-2 : Int) = 0 := by decide
        rw [if_pos hp, if_pos hp, if_neg hrefused]
        exact .some ⟨rfl, .closed hphase hrest hstorage hsize hn⟩
      · rw [if_neg hp, if_neg hp]
        show Agree (Option.map _ (Option.map _
          (if Words.exact.toUnsigned s.fifo.mem.n = s.fifo.size then _ else _))) _
        rw [hcount, hsize]
        unfold BoundedQueue.push?
        by_cases hfull : q.items.length = size
        · have hrefused : ¬ (-1 : Int) = 0 := by decide
          rw [if_pos hfull, dif_neg (by omega), if_neg hrefused]
          exact .some ⟨rfl, .closed hphase hrest hstorage hsize hn⟩
        · rw [if_neg hfull, dif_pos (by omega), if_pos rfl]
          show Agree (Option.map _ (Option.map _ ((s.fifo.mem.storage.bind _).map _))) _
          rw [hstorage]
          exact .none

/-- **One call of a function with an underscore.** -/
theorem plain_agrees (hK : Keeps s q) (call : ApiCall) : Agree (call.plain s) (q.call call) := by
  cases call with
  | init size allocator block => exact init_agrees s q size allocator block
  | done => exact done_agrees hK
  | getCount => exact getCount_agrees hK
  | read => exact read_agrees hK
  | write pointer => exact write_agrees hK pointer

/-- **One call of a program**, on a pointer to the struct or on NULL. -/
theorem api_agrees {p : Option Life} {q : Option ApiQueue} (hK : Option.Rel Keeps p q)
    (a : ApiAction) :
    Option.Rel (fun x y => x.2 = y.2 ∧ Option.Rel Keeps x.1 y.1) (apiStep p a) (queueStep q a) := by
  obtain ⟨safe, call⟩ := a
  cases hK with
  | none =>
      cases safe with
      | false =>
          -- NULL is dereferenced, unless a NULL pointer is refused before
          cases call with
          | write pointer =>
              show Option.Rel _ (Option.map _ (Option.map _ (if pointer = NULL then _ else _)))
                (if ApiCall.write pointer = .write NULL then _ else _)
              by_cases hp : pointer = NULL
              · subst hp
                rw [if_pos rfl, if_pos rfl]
                exact .some ⟨rfl, .none⟩
              · rw [if_neg hp, if_neg fun hcall => hp (ApiCall.write.inj hcall)]
                exact .none
          | init | done | getCount | read => exact .none
      | true =>
          -- NULL: nothing is dereferenced
          cases call <;> exact .some ⟨rfl, .none⟩
  | @some s q hK =>
      have hplain := plain_agrees hK call
      have hstep : apiStep (some s) ⟨safe, call⟩
          = (call.plain s).map fun r => (some r.2, r.1) := by
        cases safe with
        | false => rfl
        | true =>
            -- the test of `p` succeeds, and the plain function is called
            cases call <;>
              simp [apiStep, ApiCall.safe, ApiCall.plain, Safe.init, Safe.done, Safe.getCount,
                Safe.read, Safe.write, Safe.unlessNull, Function.comp_def]
      rw [hstep]
      show Option.Rel _ _ ((q.call call).map fun r => (some r.2, r.1))
      generalize call.plain s = x at hplain ⊢
      generalize q.call call = y at hplain ⊢
      cases hplain with
      | none => exact .none
      | some hxy => exact .some ⟨hxy.1, .some hxy.2⟩

end Agrees

/-! ## §4. The fixed FIFO. -/

/-- The struct of a header and the queue between two calls. -/
inductive FixedKeeps {size : Nat} : FixedLife → Option (BoundedQueue Ptr size) → Prop
  | raw {s : FixedLife} (hphase : s.phase = .raw) (hrest : AtRest s.fifo.prod s.fifo.cons) :
      FixedKeeps s none
  | opened {s : FixedLife} {garbage : Nat → Ptr} {es : List Event} {q : BoundedQueue Ptr size}
      (hphase : s.phase = .opened) (hrest : AtRest s.fifo.prod s.fifo.cons)
      (hI : Inv size garbage es (s.fifo.dynamic size)) (hq : q.items = unread es) :
      FixedKeeps s (some q)

/-- **One call of a program**, for a header whose literals agree. -/
theorem fixed_api_agrees {h : Header} {size : Nat} (hcap : h.Capacity size) {s : FixedLife}
    {q : Option (BoundedQueue Ptr size)} (hK : FixedKeeps s q) (call : FixedCall) :
    Option.Rel (fun x y => x.2 = y.2 ∧ FixedKeeps x.1 y.1) (fixedApiStep h s call)
      (fixedQueueStep size q call) := by
  have hB (garbage : Nat → Ptr) := array_backs size garbage
  cases call with
  | init => exact .some ⟨rfl, .opened rfl ⟨rfl, rfl⟩ (Inv.init size s.fifo.mem.storage) rfl⟩
  | done => exact .some ⟨rfl, hK⟩
  | getCount =>
      show Option.Rel _ (Option.map _ (if s.phase = .opened then _ else _)) _
      cases hK with
      | raw hphase hrest =>
          rw [if_neg (by rw [hphase]; decide)]
          exact .none
      | opened hphase hrest hI hq =>
          rw [if_pos hphase]
          refine .some ⟨congrArg ApiResult.count ?_, .opened hphase hrest hI hq⟩
          rw [hq]
          exact hI.toNat_counter_unread
  | read =>
      show Option.Rel _ (Option.map _ (if s.phase = .opened then _ else _)) _
      cases hK with
      | raw hphase hrest =>
          rw [if_neg (by rw [hphase]; decide)]
          exact .none
      | @opened garbage es q hphase hrest hI hq =>
          rw [if_pos hphase, hcap.arrayLength, hcap.readModulus]
          obtain ⟨r, es', hr, hresult, _, hI', hq'⟩ :=
            (hB garbage).read (c := s.fifo.dynamic size) trivial hI hq hrest.2
          change readCall _ _ size s.fifo.cons.read s.fifo.mem = _ at hr
          rw [hr]
          exact .some ⟨congrArg ApiResult.pointer hresult, .opened hphase hrest hI' hq'⟩
  | write pointer =>
      show Option.Rel _ (Option.map _ (if pointer = NULL ∨ s.phase = .opened then _ else _)) _
      cases hK with
      | raw hphase hrest =>
          show Option.Rel _ _ (if pointer = NULL then _ else _)
          by_cases hp : pointer = NULL
          · subst hp
            rw [if_pos (.inl rfl), if_pos rfl]
            exact .some ⟨rfl, .raw hphase hrest⟩
          · have hraw : ¬ (pointer = NULL ∨ s.phase = .opened) := by
              rw [hphase]
              rintro (hnull | hopened)
              · exact hp hnull
              · exact absurd hopened (by decide)
            rw [if_neg hraw, if_neg hp]
            exact .none
      | @opened garbage es q hphase hrest hI hq =>
          rw [if_pos (.inr hphase), hcap.arrayLength, hcap.fullCheck, hcap.writeModulus]
          obtain ⟨r, es', hr, hresult, _, hI', hq'⟩ :=
            (hB garbage).write (c := s.fifo.dynamic size) trivial hI hq hrest.1 pointer
          change writeCall _ _ size size pointer s.fifo.prod.write s.fifo.mem = _ at hr
          rw [hr]
          exact .some ⟨congrArg ApiResult.rval hresult, .opened hphase hrest hI' hq'⟩

/-! ## §5. The theorem. -/

/-- Two machines that agree call by call show the same results. -/
theorem results_agree {σ τ α : Type} {step : σ → α → Option (σ × ApiResult)}
    {step' : τ → α → Option (τ × ApiResult)} {R : σ → τ → Prop} {s : σ} {t : τ} (h0 : R s t)
    (hstep : ∀ s t a, R s t →
      Option.Rel (fun x y => x.2 = y.2 ∧ R x.1 y.1) (step s a) (step' t a)) (program : List α) :
    (run step s program).map (fun r => r.2) = (run step' t program).map fun r => r.2 := by
  have hlock := run_lockstep (R := fun _ s t => R s t) h0 (fun _ s t a => hstep s t a) program
  generalize run step s program = x at hlock ⊢
  generalize run step' t program = y at hlock ⊢
  cases hlock with
  | none => rfl
  | some hxy => exact congrArg some hxy.1

/-- **THE API IS A BOUNDED QUEUE WITH A LIFE.**  Any program of API calls,
on a struct that was never initialised or on NULL, gets from the code what
it gets from `ApiQueue`, call by call, and makes a call that has no result
there exactly where it makes one here.  The calls may be the safe ones or
the others, with any sizes, pointers and blocks, `done` may be called twice
and `init` again at any time.  A program on the struct of a printed header
gets what it gets from a queue of that size. -/
theorem pointerfifo_api (s : Life) (hraw : s.phase = .raw)
    (hrest : AtRest s.fifo.prod s.fifo.cons) (size : Nat) (f : FixedLife)
    (hfraw : f.phase = .raw) (hfrest : AtRest f.fifo.prod f.fifo.cons) :
    (∀ program, (run apiStep (some s) program).map (fun r => r.2)
        = (run queueStep (some .raw) program).map fun r => r.2)
      ∧ (∀ program, (run apiStep none program).map (fun r => r.2)
        = (run queueStep none program).map fun r => r.2)
      ∧ ∀ program, (run (fixedApiStep (header64.print size)) f program).map (fun r => r.2)
        = (run (fixedQueueStep size) none program).map fun r => r.2 :=
  ⟨results_agree (R := Option.Rel Keeps) (.some (.raw hraw hrest)) fun _ _ a hK => api_agrees hK a,
    results_agree (R := Option.Rel Keeps) .none fun _ _ a hK => api_agrees hK a,
    results_agree (R := @FixedKeeps size) (.raw hfraw hfrest)
      fun _ _ a hK => fixed_api_agrees (print_capacity size) hK a⟩

/-- The calls of `contract.c` on its FIFO. -/
def contract : List ApiCall :=
  List.flatten
    [[.init 4 0 100, .write NULL, .getCount, .getCount],
      (List.range 4).map fun i => .write (i + 1),
      [.getCount, .getCount, .write 5, .getCount, .getCount, .read, .write 5],
      List.replicate 5 .read, [.getCount, .getCount],
      (List.range 100).flatMap fun i => [.write (i + 1), .read],
      [.getCount, .getCount, .done, .done]]

/-- What it checks them against. -/
def contractResults : List ApiResult :=
  List.flatten
    [[.unit, .rval (-2), .count 0, .count 0], List.replicate 4 (.rval 0),
      [.count 4, .count 4, .rval (-1), .count 4, .count 4, .pointer 1, .rval 0],
      [.pointer 2, .pointer 3, .pointer 4, .pointer 5, .pointer NULL, .count 0, .count 0],
      (List.range 100).flatMap fun i => [.rval 0, .pointer (i + 1)],
      [.count 0, .count 0, .unit, .unit]]

/-- `contract.c` passes: on its FIFO, and with NULL.  After the `done` of a
header its FIFO is still there. -/
theorem contract_api :
    (run apiStep (some rawLife) (contract.map fun call => ⟨false, call⟩)).map (fun r => r.2)
        = some contractResults
      ∧ (run apiStep none [⟨true, .init 4 0 100⟩, ⟨true, .done⟩, ⟨true, .write 1⟩, ⟨true, .read⟩,
          ⟨true, .getCount⟩, ⟨true, .write NULL⟩, ⟨false, .write NULL⟩]).map (fun r => r.2)
        = some [.unit, .unit, .rval (-1), .pointer NULL, .count 0, .rval (-1), .rval (-2)]
      ∧ (run (fixedApiStep (header64.print 8)) ⟨fixedInit fun _ => 77, .raw⟩
          [.init, .write 5, .done, .getCount, .read, .read]).map (fun r => r.2)
        = some [.unit, .rval 0, .unit, .count 1, .pointer 5, .pointer NULL] := by
  obtain ⟨hdynamic, hnull, hfixed⟩ := pointerfifo_api rawLife rfl ⟨rfl, rfl⟩ 8
    ⟨fixedInit fun _ => 77, .raw⟩ rfl ⟨rfl, rfl⟩
  have hcontract : (run queueStep (some .raw) (contract.map fun call => ⟨false, call⟩)).map
      (fun r => r.2) = some contractResults := by
    decide +kernel
  exact ⟨(hdynamic _).trans hcontract, (hnull _).trans rfl, (hfixed _).trans rfl⟩

end MulleFifo
