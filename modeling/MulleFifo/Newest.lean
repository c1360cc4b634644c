/-
  MulleFifo.Newest — sequential consistency inside the weak memory.

  The results about `Model.SeqCst` and those about `Model.ReleaseAcquire`
  are about two memories, and nothing so far says that the first is one of
  the things the second can do.  It is: where every load takes the NEWEST
  message of its location, histories and views do not show, whatever the
  order of the accesses is.

    • `newestAtomics` — the weak memory with the times filled in.  Its states
      look like those of `seqCst` (`seenAs_newest`), step by step,
    • `newestOnly`    — the weak memory with every other load refused.  The
      steps of one are steps of the other, up to who chooses (`Within`).

  The two memories stay apart all the same: in every order, at every size
and over every storage there is a trace of the weak memory, a stale count
after a write, that no sequentially consistent run shows (`stale_count`).
-/
import MulleFifo.Model.SeqCst
import MulleFifo.Model.ReleaseAcquire

namespace MulleFifo

open Lib

/-! ## §1. The newest messages. -/

/-- The weak memory, where a load takes the newest message. -/
def newestAtomics (o : Order) : MemoryModel RaMem Unit := fun t _ =>
  { readN := fun m => (viewAtomics o .exact t (m.newestTime .n)).readN m
    readSlot := fun i m => (viewAtomics o .exact t (m.newestTime (.slot i))).readSlot i m
    writeSlot := (viewAtomics o .exact t 0).writeSlot
    incrementN := (viewAtomics o .exact t 0).incrementN
    decrementN := (viewAtomics o .exact t 0).decrementN }

/-- The weak memory, where a load of any other message is refused. -/
def newestOnly (o : Order) : MemoryModel RaMem Nat := fun t time =>
  { viewAtomics o .exact t time with
    readN := fun m =>
      if time = m.newestTime .n then (viewAtomics o .exact t time).readN m else none
    readSlot := fun i m =>
      if time = m.newestTime (.slot i) then (viewAtomics o .exact t time).readSlot i m
      else none }

/-- Run a schedule that takes the newest messages. -/
abbrev newestRun (o : Order) (size : Nat) (storage : Nat → Ptr) (as : List (Action Nat)) :
    Option (Config RaMem × List Event) :=
  run (step (newestOnly o) .exact) (pointerfifoInitRa size storage) as

/-- The newest values, as one memory. -/
def newestMem (m : RaMem) : ScMem where
  n := (m.newest .n).getD 0
  storage i := (m.newest (.slot i)).getD NULL

/-! ## §2. They make up one memory. -/

section Newest

variable {o : Order} {m : RaMem}

theorem newestMem_congr {m' : RaMem} (h : m'.hist = m.hist) : newestMem m' = newestMem m := by
  unfold newestMem ViewMemory.newest
  rw [h]

/-- The initial state knows of nothing that is not there. -/
theorem grounded_init (size : Nat) (storage : Nat → Ptr) :
    (pointerfifoInitRa size storage).mem.Grounded where
  held _ := Nat.one_pos
  known _ _ := Nat.one_pos
  carried l msg hmsg l' := by
    obtain rfl : msg = initialMessage storage l := List.mem_singleton.mp hmsg
    have hzero : (initialMessage storage l).view l' = 0 := by
      cases l <;> rfl
    rw [hzero]
    exact Nat.one_pos

theorem newestMem_init (size : Nat) (storage : Nat → Ptr) :
    (pointerfifoInitRa size storage).seen newestMem = pointerfifoInit size storage := rfl

/-- A load of the counter. -/
theorem newest_readN (hG : m.Grounded) (t : Thread) :
    ∃ m', (newestAtomics o t ()).readN m = some ((newestMem m).n, m') ∧ m'.Grounded
      ∧ newestMem m' = newestMem m := by
  obtain ⟨last, m', hlast, hload, hG', hhist⟩ := hG.load o.loadAcquires t .n
  have hvalue : (newestMem m).n = last.value := by
    show ((m.hist .n).getLast?.map _).getD 0 = _
    rw [hlast]
    rfl
  rw [hvalue]
  exact ⟨m', hload, hG', newestMem_congr hhist⟩

/-- A load of a slot. -/
theorem newest_readSlot (hG : m.Grounded) (t : Thread) (i : Nat) :
    ∃ m', (newestAtomics o t ()).readSlot i m = some ((newestMem m).storage i, m')
      ∧ m'.Grounded ∧ newestMem m' = newestMem m := by
  obtain ⟨last, m', hlast, hload, hG', hhist⟩ := hG.load false t (.slot i)
  have hvalue : (newestMem m).storage i = last.value := by
    show ((m.hist (.slot i)).getLast?.map _).getD NULL = _
    rw [hlast]
    rfl
  rw [hvalue]
  exact ⟨m', hload, hG', newestMem_congr hhist⟩

/-- A store into a slot. -/
theorem newest_writeSlot (hG : m.Grounded) (t : Thread) (i : Nat) (pointer : Ptr) :
    (m.store false t (.slot i) pointer).Grounded
      ∧ newestMem (m.store false t (.slot i) pointer)
        = { newestMem m with
            storage := Function.update (newestMem m).storage i pointer } := by
  obtain ⟨hG', hnewest⟩ := hG.store false t (.slot i) pointer
  refine ⟨hG', ?_⟩
  unfold newestMem
  rw [hnewest, Function.update_of_ne (by simp), ScMem.mk.injEq]
  refine ⟨rfl, ?_⟩
  funext j
  by_cases hj : j = i
  · subst hj
    rw [Function.update_self, Function.update_self]
    rfl
  · rw [Function.update_of_ne (by simpa using hj), Function.update_of_ne hj]

/-- An increment or decrement of the counter. -/
theorem newest_updateN (hG : m.Grounded) (t : Thread) (f : Int → Int) :
    (m.modify o.updateAcquires o.updateReleases t .n f).Grounded
      ∧ newestMem (m.modify o.updateAcquires o.updateReleases t .n f)
        = { newestMem m with n := f (newestMem m).n } := by
  obtain ⟨last, hlast, _⟩ := hG.exists_newest .n
  have hvalue : m.newest .n = some last.value := by
    show (m.hist .n).getLast?.map _ = _
    rw [hlast]
    rfl
  obtain ⟨hG', hnewest⟩ := hG.modify o.updateAcquires o.updateReleases t .n f hvalue
  refine ⟨hG', ?_⟩
  unfold newestMem
  rw [hnewest, Function.update_self, hvalue, ScMem.mk.injEq]
  refine ⟨rfl, ?_⟩
  funext i
  rw [Function.update_of_ne (by simp)]

/-- **The newest values are a sequentially consistent memory.** -/
theorem seenAs_newest {c : Config RaMem} (hG : c.mem.Grounded) :
    SeenAs (newestAtomics o) (seqCst .exact) newestMem c where
  readN t ch := by
    obtain ⟨m', hread, _, hsame⟩ := newest_readN (o := o) hG t
    rw [hread, Option.map_some, hsame]
    rfl
  readSlot _ ch := by
    obtain ⟨m', hread, _, hsame⟩ := newest_readSlot (o := o) hG .consumer c.cons.read
    rw [hread, Option.map_some, hsame]
    rfl
  writeSlot pointer _ ch :=
    congrArg some (newest_writeSlot hG .producer c.prod.write pointer).2.symm
  incrementN ch := (newest_updateN (o := o) hG .producer (· + 1)).2.symm
  decrementN ch := (newest_updateN (o := o) hG .consumer (· - 1)).2.symm

/-- The memory stays grounded. -/
theorem grounded_step {c c' : Config RaMem} {e : Event} (hG : c.mem.Grounded)
    (h : Transition (newestAtomics o) .exact c e c') : c'.mem.Grounded := by
  have hn (t : Thread) := newest_readN (o := o) hG t
  have hslot (i : Nat) := newest_readSlot (o := o) hG .consumer i
  cases h with
  | full hpc hread | room hpc hread | empty hpc hread | avail hpc hread | count hpc hread =>
      obtain ⟨m', hread', hG', _⟩ := hn _
      obtain ⟨_, rfl⟩ := Prod.mk.inj (Option.some.inj (hread'.symm.trans hread))
      exact hG'
  | load hpc hread =>
      obtain ⟨m', hread', hG', _⟩ := hslot _
      obtain ⟨_, rfl⟩ := Prod.mk.inj (Option.some.inj (hread'.symm.trans hread))
      exact hG'
  | store hpc hwrite =>
      obtain rfl := Option.some.inj hwrite
      exact (newest_writeSlot hG .producer _ _).1
  | increment => exact (newest_updateN (o := o) hG .producer _).1
  | decrement => exact (newest_updateN (o := o) hG .consumer _).1
  | _ => exact hG

/-- Runs over the newest values are sequentially consistent runs. -/
theorem newestAtomics_run (o : Order) (size : Nat) (storage : Nat → Ptr)
    (as : List (Action Unit)) :
    (run (step (newestAtomics o) .exact) (pointerfifoInitRa size storage) as).map
        (fun x => (x.1.seen newestMem, x.2))
      = scRun size storage as := by
  have hview : (run (step (newestAtomics o) .exact) (pointerfifoInitRa size storage) as).map
        (fun x => (x.1.seen newestMem, x.2))
      = (scRun size storage as).map fun y => (y.1, y.2) := by
    refine @run_view _ _ _ _ _ _ _ (fun _ c => c.mem.Grounded) (fun _ _ => True)
      (Config.seen newestMem) (fun c => c) _ _ (grounded_init size storage) trivial
      (newestMem_init size storage) (fun _ _ _ _ _ hG hs => grounded_step hG (step_transition hs))
      (fun _ _ _ _ _ _ _ => trivial) ?_ as
    intro tr c c' a hG _ hview
    subst hview
    rw [(seenAs_newest (o := o) hG).step_eq]
    exact (Option.map_id').symm
  rw [hview]
  exact Option.map_id'

end Newest

/-! ## §3. Who chooses. -/

section Within

variable {μ χ χ' γ : Type}

/-- The action with another choice of the scheduler. -/
def Action.map (g : χ → γ) : Action χ → Action γ
  | .callWrite pointer => .callWrite pointer
  | .prod ch => .prod (g ch)
  | .callRead => .callRead
  | .cons ch => .cons (g ch)
  | .getCount t ch => .getCount t (g ch)
  | .work t tag => .work t tag

theorem Action.map_id (a : Action χ) : a.map (fun ch => ch) = a := by
  cases a <;> rfl

/-- What `M` allows `M'` allows, for a choice that looks the same. -/
structure Within (g : χ → γ) (g' : χ' → γ) (M : MemoryModel μ χ) (M' : MemoryModel μ χ') :
    Prop where
  readN : ∀ t ch m r, (M t ch).readN m = some r →
    ∃ ch', g' ch' = g ch ∧ (M' t ch').readN m = some r
  readSlot : ∀ t ch i m r, (M t ch).readSlot i m = some r →
    ∃ ch', g' ch' = g ch ∧ (M' t ch').readSlot i m = some r
  others : ∀ t ch, ∃ ch', g' ch' = g ch ∧ (M' t ch').writeSlot = (M t ch).writeSlot
    ∧ (M' t ch').incrementN = (M t ch).incrementN ∧ (M' t ch').decrementN = (M t ch).decrementN

namespace Within

variable {g : χ → γ} {g' : χ' → γ} {M : MemoryModel μ χ} {M' : MemoryModel μ χ'} {W : Words}

theorem getCount_some (h : Within g g' M M') {t : Thread} {ch : χ} {m : μ} {r : Nat × μ}
    (hr : getCount (M t ch) W m = some r) :
    ∃ ch', g' ch' = g ch ∧ getCount (M' t ch') W m = some r := by
  obtain ⟨q, hq, rfl⟩ := Option.map_eq_some_iff.mp hr
  obtain ⟨ch', hch, hq'⟩ := h.readN t ch m q hq
  exact ⟨ch', hch, Option.map_eq_some_iff.mpr ⟨q, hq', rfl⟩⟩

theorem writeStep_some (h : Within g g' M M') {ch : χ} {full modulus : Nat} {s : Producer} {m : μ}
    {r : Producer × μ × WriteEvent}
    (hr : writeStep (M .producer ch) W full modulus s m = some r) :
    ∃ ch', g' ch' = g ch ∧ writeStep (M' .producer ch') W full modulus s m = some r := by
  obtain ⟨ch', hch, hwrite, hincrement, _⟩ := h.others .producer ch
  unfold writeStep at hr ⊢
  cases hpc : s.pc with
  | getCount pointer =>
      simp only [hpc] at hr
      obtain ⟨q, hq, rfl⟩ := Option.map_eq_some_iff.mp hr
      obtain ⟨ch', hch, hq'⟩ := h.getCount_some hq
      exact ⟨ch', hch, Option.map_eq_some_iff.mpr ⟨q, hq', rfl⟩⟩
  | store pointer =>
      simp only [hpc] at hr
      refine ⟨ch', hch, ?_⟩
      simp only [hwrite]
      exact hr
  | increment pointer =>
      simp only [hpc] at hr
      refine ⟨ch', hch, ?_⟩
      simp only [hincrement]
      exact hr
  | idle | index pointer | ret pointer rval =>
      simp only [hpc] at hr
      exact ⟨ch', hch, hr⟩

theorem readStep_some (h : Within g g' M M') {ch : χ} {modulus : Nat} {s : Consumer} {m : μ}
    {r : Consumer × μ × ReadEvent} (hr : readStep (M .consumer ch) W modulus s m = some r) :
    ∃ ch', g' ch' = g ch ∧ readStep (M' .consumer ch') W modulus s m = some r := by
  obtain ⟨ch', hch, _, _, hdecrement⟩ := h.others .consumer ch
  unfold readStep at hr ⊢
  cases hpc : s.pc with
  | getCount =>
      simp only [hpc] at hr
      obtain ⟨q, hq, rfl⟩ := Option.map_eq_some_iff.mp hr
      obtain ⟨ch', hch, hq'⟩ := h.getCount_some hq
      exact ⟨ch', hch, Option.map_eq_some_iff.mpr ⟨q, hq', rfl⟩⟩
  | load =>
      simp only [hpc] at hr
      obtain ⟨q, hq, rfl⟩ := Option.map_eq_some_iff.mp hr
      obtain ⟨ch', hch, hq'⟩ := h.readSlot .consumer ch s.read m q hq
      exact ⟨ch', hch, Option.map_eq_some_iff.mpr ⟨q, hq', rfl⟩⟩
  | decrement pointer =>
      simp only [hpc] at hr
      refine ⟨ch', hch, ?_⟩
      simp only [hdecrement]
      exact hr
  | idle | index pointer | ret pointer =>
      simp only [hpc] at hr
      exact ⟨ch', hch, hr⟩

/-- **Every step over `M` is a step over `M'`.** -/
theorem step_some (h : Within g g' M M') (c : Config μ) (a : Action χ) (r : Config μ × Event)
    (hs : step M W c a = some r) :
    ∃ b, Action.map g' b = Action.map g a ∧ step M' W c b = some r := by
  cases a with
  | callWrite pointer => exact ⟨.callWrite pointer, rfl, hs⟩
  | callRead => exact ⟨.callRead, rfl, hs⟩
  | work t tag => exact ⟨.work t tag, rfl, hs⟩
  | prod ch =>
      obtain ⟨q, hq, hr⟩ := Option.map_eq_some_iff.mp hs
      obtain ⟨ch', hch, hq'⟩ := h.writeStep_some hq
      exact ⟨.prod ch', congrArg Action.prod hch, Option.map_eq_some_iff.mpr ⟨q, hq', hr⟩⟩
  | cons ch =>
      obtain ⟨q, hq, hr⟩ := Option.map_eq_some_iff.mp hs
      obtain ⟨ch', hch, hq'⟩ := h.readStep_some hq
      exact ⟨.cons ch', congrArg Action.cons hch, Option.map_eq_some_iff.mpr ⟨q, hq', hr⟩⟩
  | getCount t ch =>
      by_cases ht : betweenCalls c.prod c.cons t
      · simp only [step, if_pos ht] at hs
        obtain ⟨q, hq, hr⟩ := Option.map_eq_some_iff.mp hs
        obtain ⟨ch', hch, hq'⟩ := h.getCount_some hq
        refine ⟨.getCount t ch', congrArg (Action.getCount t) hch, ?_⟩
        simp only [step, if_pos ht]
        exact Option.map_eq_some_iff.mpr ⟨q, hq', hr⟩
      · simp only [step, if_neg ht] at hs
        exact absurd hs (by simp)

end Within

end Within

/-- The action without the choice of the scheduler. -/
def Action.forget (a : Action Nat) : Action Unit := a.map fun _ => ()

/-- The newest message is a message. -/
theorem newestOnly_within (o : Order) :
    Within (fun time => time) (fun time => time) (newestOnly o) (viewAtomics o .exact) where
  readN t time m r hr := by
    refine ⟨time, rfl, ?_⟩
    by_cases htime : time = m.newestTime .n
    · exact (if_pos htime).symm.trans hr
    · exact absurd ((if_neg htime).symm.trans hr) (by simp)
  readSlot t time i m r hr := by
    refine ⟨time, rfl, ?_⟩
    by_cases htime : time = m.newestTime (.slot i)
    · exact (if_pos htime).symm.trans hr
    · exact absurd ((if_neg htime).symm.trans hr) (by simp)
  others t time := ⟨time, rfl, rfl, rfl, rfl⟩

/-- It can be chosen. -/
theorem newestAtomics_within (o : Order) :
    Within (fun _ => ()) (fun _ => ()) (newestAtomics o) (newestOnly o) where
  readN _ _ m _ hr := ⟨m.newestTime .n, rfl, (if_pos rfl).trans hr⟩
  readSlot _ _ i m _ hr := ⟨m.newestTime (.slot i), rfl, (if_pos rfl).trans hr⟩
  others _ _ := ⟨0, rfl, rfl, rfl, rfl⟩

/-- And nothing else can. -/
theorem newestOnly_forget (o : Order) :
    Within (fun _ => ()) (fun _ => ()) (newestOnly o) (newestAtomics o) where
  readN t time m r hr := by
    refine ⟨(), rfl, ?_⟩
    by_cases htime : time = m.newestTime .n
    · subst htime
      exact (if_pos rfl).symm.trans hr
    · exact absurd ((if_neg htime).symm.trans hr) (by simp)
  readSlot t time i m r hr := by
    refine ⟨(), rfl, ?_⟩
    by_cases htime : time = m.newestTime (.slot i)
    · subst htime
      exact (if_pos rfl).symm.trans hr
    · exact absurd ((if_neg htime).symm.trans hr) (by simp)
  others _ _ := ⟨(), rfl, rfl, rfl, rfl⟩

/-! ## §4. The theorem. -/

section Runs

variable {o : Order} {size : Nat} {storage : Nat → Ptr}

/-- Runs that take the newest messages are weak runs. -/
theorem newestRun_raRun {as : List (Action Nat)} {r : Config RaMem × List Event}
    (h : newestRun o size storage as = some r) : raRun o size storage as = some r := by
  obtain ⟨bs, hbs, hrun⟩ := run_choose (newestOnly_within o).step_some h
  have hsame (as : List (Action Nat)) : as.map (Action.map fun time => time) = as := by
    rw [funext Action.map_id]
    exact List.map_id' as
  rw [hsame, hsame] at hbs
  rw [← hbs]
  exact hrun

/-- They are the runs over the newest values. -/
theorem newestRun_iff (as : List (Action Unit)) (c : Config RaMem) (tr : List Event) :
    run (step (newestAtomics o) .exact) (pointerfifoInitRa size storage) as = some (c, tr)
      ↔ ∃ bs, bs.map Action.forget = as ∧ newestRun o size storage bs = some (c, tr) := by
  have hsame (as : List (Action Unit)) : as.map (Action.map fun _ => ()) = as := by
    rw [show (fun _ : Unit => ()) = fun u => u from rfl, funext Action.map_id]
    exact List.map_id' as
  constructor
  · intro h
    obtain ⟨bs, hbs, hrun⟩ := run_choose (newestAtomics_within o).step_some h
    rw [hsame] at hbs
    exact ⟨bs, hbs, hrun⟩
  · rintro ⟨bs, rfl, h⟩
    obtain ⟨as, has, hrun⟩ := run_choose (newestOnly_forget o).step_some h
    rw [hsame] at has
    rw [← show as = bs.map Action.forget from has]
    exact hrun

/-- **THE SEQUENTIALLY CONSISTENT FIFO IS PART OF THE WEAK ONE.**  In any
order of the accesses, relaxed ones included, its runs are the runs over
weak memory in which every load takes the newest message: the same actions
show the same events, and the newest values are its memory.  So whatever
holds of all weak runs holds of all sequentially consistent ones. -/
theorem sc_runs_newest (o : Order) (size : Nat) (storage : Nat → Ptr) :
    (∀ as c tr, newestRun o size storage as = some (c, tr) →
        raRun o size storage as = some (c, tr))
      ∧ ∀ as c tr, scRun size storage as = some (c, tr) ↔
          ∃ as' c', as'.map Action.forget = as ∧ newestRun o size storage as' = some (c', tr)
            ∧ c'.seen newestMem = c := by
  refine ⟨fun as c tr h => newestRun_raRun h, ?_⟩
  intro as c tr
  rw [← newestAtomics_run o, Option.map_eq_some_iff]
  constructor
  · rintro ⟨⟨c', tr'⟩, hrun, hseen⟩
    obtain ⟨rfl, rfl⟩ := Prod.mk.inj hseen
    obtain ⟨as', has, hnewest⟩ := (newestRun_iff as c' tr').mp hrun
    exact ⟨as', c', has, hnewest, rfl⟩
  · rintro ⟨as', c', has, hnewest, rfl⟩
    exact ⟨(c', tr), (newestRun_iff as c' tr).mpr ⟨as', has, hnewest⟩, rfl⟩

end Runs

/-- `overlap` over relaxed accesses, with newest messages only. -/
theorem overlap_newest :
    ∃ c tr, scRun 2 (fun _ => 77) overlap = some (c, tr) ∧ reads tr = [5]
      ∧ ∃ as' c', as'.map Action.forget = overlap
        ∧ raRun ⟨false, false, false⟩ 2 (fun _ => 77) as' = some (c', tr) ∧ c'.seen newestMem = c := by
  obtain ⟨c, tr, h, hreads⟩ : ∃ c tr, scRun 2 (fun _ => 77) overlap = some (c, tr)
      ∧ reads tr = [5] := ⟨_, _, rfl, rfl⟩
  obtain ⟨hweak, hsame⟩ := sc_runs_newest ⟨false, false, false⟩ 2 fun _ => 77
  obtain ⟨as', c', hforget, hnewest, hseen⟩ := (hsame overlap c tr).mp h
  exact ⟨c, tr, h, hreads, as', c', hforget, hweak as' c' tr hnewest, hseen⟩

/-! ## §5. Two memories, not one. -/

/-- One write, from its call to its return, and then a count that takes the
initial message. -/
def lateCount (pointer : Ptr) : List (Action Nat) :=
  [.callWrite pointer, .prod 0, .prod 0, .prod 0, .prod 0, .prod 0, .getCount (.observer 0) 0]

/-- What it shows before the count. -/
def beforeStale (pointer : Ptr) : List Event :=
  [.prod (.call pointer), .prod (.room pointer 0), .prod (.store 0 pointer), .prod .index,
    .prod (.increment pointer), .prod (.ret pointer 0)]

/-- **A stale count**: in any order, a thread may find the FIFO empty after
a write has returned.  No sequentially consistent run shows that. -/
theorem stale_count (o : Order) (k : Nat) (storage : Nat → Ptr) (pointer : Nat) :
    (∃ c, raRun o (k + 1) storage (lateCount (pointer + 1))
        = some (c, beforeStale (pointer + 1) ++ [.count (.observer 0) 0]))
      ∧ ∀ as c, scRun (k + 1) storage as
          ≠ some (c, beforeStale (pointer + 1) ++ [.count (.observer 0) 0]) := by
  constructor
  · obtain ⟨loadAcquires, updateAcquires, updateReleases⟩ := o
    cases loadAcquires <;> cases updateAcquires <;> cases updateReleases <;> exact ⟨_, rfl⟩
  · intro as c h
    obtain ⟨c₁, c₂, hI, ht, _⟩ := scRun_event h
    have hcount : 0 = (pushed (beforeStale (pointer + 1))).length
        - (popped (beforeStale (pointer + 1))).length := hI.observed ht rfl
    have hone : (pushed (beforeStale (pointer + 1))).length
        - (popped (beforeStale (pointer + 1))).length = 1 := rfl
    rw [hone] at hcount
    exact Nat.zero_ne_one hcount

end MulleFifo
