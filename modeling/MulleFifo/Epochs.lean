/-
  MulleFifo.Epochs — nothing of an epoch survives into the next.

  Whatever the struct, the heap and the storage held before, the events
  since the last init are the events of a freshly initialised FIFO of that
  size (`LifeInv`, `FixedLifeInv`): `init` resets `n`, `write` and `read`,
  and no slot is loaded before the epoch stored into it.  From this the
  isolation of an epoch follows: its reads return its own writes, its
  counts count its own pointers, and exactly `size` writes fit before the
  first read.

  For the storage, `done` sets `p->storage` to NULL, so the calls of the
  allocator come in pairs malloc/free of one block and one allocator, with
  one malloc left over exactly while the FIFO is open.
-/
import MulleFifo.Model.Lifecycle
import MulleFifo.Equivalence
import MulleFifo.Reservation

namespace MulleFifo

open Lib

/-! ## §1. What holds in an epoch. -/

section Fresh

variable {size : Nat} {garbage : Nat → Ptr} {as : List (Action Unit)} {c : Config ScMem}
  {es : List Event}

end Fresh

/-! ## §2. The block as an unbounded storage. -/

/-- The FIFO's memory, as far as it is in the block at this address. -/
def blockMem (block : Nat) (m : HeapMem) : ScMem := ⟨m.n, m.heap block⟩

/-- Inside the block, the heap is as good as an unbounded storage. -/
theorem seenAs_block {size block : Nat} {garbage : Nat → Ptr} {es : List Event}
    {c : Config HeapMem} (hI : Inv size garbage es (c.seen (blockMem block)))
    (hstorage : c.mem.storage = some block) (hslots : c.mem.slots = size) :
    SeenAs (heapAtomics .exact) (seqCst .exact) (blockMem block) c where
  readN _ _ := rfl
  readSlot hpc ch := by
    have hlt : c.cons.read < c.mem.slots := by
      rw [hslots, ← hI.size_eq]
      exact hI.load_lt hpc
    show _ = (c.mem.storage.bind _).map _
    rw [hstorage, Option.bind_some, if_pos hlt]
    rfl
  writeSlot pointer hpc ch := by
    have hlt : c.prod.write < c.mem.slots := by
      rw [hslots, ← hI.size_eq]
      exact hI.store_lt hpc
    show _ = (c.mem.storage.bind _).map _
    rw [hstorage, Option.bind_some, if_pos hlt]
    simp [seqCst, blockMem]
  incrementN _ := rfl
  decrementN _ := rfl

/-- A step of the FIFO leaves the size and the block alone. -/
theorem heap_frame {c c' : Config HeapMem} {e : Event} {W : Words}
    (h : Transition (heapAtomics W) W c e c') :
    c'.size = c.size ∧ c'.mem.storage = c.mem.storage ∧ c'.mem.slots = c.mem.slots := by
  cases h with
  | full hpc hread hn | room hpc hread hn | empty hpc hread hn | avail hpc hread hn
  | count ht hread =>
      obtain ⟨_, rfl⟩ := Prod.mk.inj (Option.some.inj hread)
      exact ⟨rfl, rfl, rfl⟩
  | store hpc hwrite =>
      obtain ⟨block, _, hwrite⟩ := Option.bind_eq_some_iff.mp hwrite
      split at hwrite
      · obtain rfl := Option.some.inj hwrite
        exact ⟨rfl, rfl, rfl⟩
      · simp at hwrite
  | load hpc hread =>
      obtain ⟨block, _, hread⟩ := Option.bind_eq_some_iff.mp hread
      split at hread
      · obtain ⟨_, rfl⟩ := Prod.mk.inj (Option.some.inj hread)
        exact ⟨rfl, rfl, rfl⟩
      · simp at hread
  | _ => exact ⟨rfl, rfl, rfl⟩

/-! ## §3. A life of a dynamic FIFO. -/

/-- The calls of the allocator for these blocks, each freed before the
next malloc. -/
def pairs (finished : List (Nat × Nat)) : List AllocEvent :=
  finished.flatMap fun x => [.malloc x.1 x.2, .free x.1 x.2]

/-- The struct after the trace `tr` of its life. -/
structure LifeInv (tr : List LifeEvent) (s : Life) : Prop where
  opened : s.phase = .opened → ∃ block garbage as, s.fifo.mem.storage = some block
    ∧ s.fifo.mem.slots = s.fifo.size
    ∧ scRun s.fifo.size garbage as = some (s.fifo.seen (blockMem block), epoch tr)
  closed : s.phase = .closed → s.fifo.mem.storage = none
    ∧ ∃ garbage as c, scRun s.fifo.size garbage as = some (c, epoch tr)
      ∧ c.prod = s.fifo.prod
  log : ∃ finished, allocLog tr
    = pairs finished ++ (s.owned.map (AllocEvent.malloc s.allocator)).toList

namespace LifeInv

variable {tr : List LifeEvent} {s s' : Life}

theorem raw (hraw : s.phase = .raw) : LifeInv [] s where
  opened h := by simp [hraw] at h
  closed h := by simp [hraw] at h
  log := ⟨[], by simp [allocLog, pairs, Life.owned, hraw]⟩

/-- Without a block of its own. -/
theorem owned_none (h : s.phase = .raw ∨ s.phase = .closed) : s.owned = none := by
  unfold Life.owned
  rcases h with hraw | hclosed
  · simp [hraw]
  · simp [hclosed]

/-- **init** starts an epoch, over whatever the block holds. -/
theorem step_init (hL : LifeInv tr s) (hphase : s.phase = .raw ∨ s.phase = .closed)
    (size allocator block : Nat) :
    LifeInv (tr ++ [.init size (some (allocator, block))]) (s.init size allocator block) where
  opened _ := ⟨block, s.fifo.mem.heap block, [], rfl, rfl, by rw [epoch_snoc]; rfl⟩
  closed h := by simp [Life.init] at h
  log := by
    obtain ⟨finished, hlog⟩ := hL.log
    refine ⟨finished, ?_⟩
    rw [allocLog_snoc, hlog, owned_none hphase]
    simp [LifeEvent.alloc?, Life.owned, Life.init]

/-- A malloc that does not return ends it all. -/
theorem step_abort (hL : LifeInv tr s) (hphase : s.phase = .raw ∨ s.phase = .closed) :
    LifeInv (tr ++ [.abort]) { s with phase := .aborted } where
  opened h := by simp at h
  closed h := by simp at h
  log := by
    obtain ⟨finished, hlog⟩ := hL.log
    refine ⟨finished, ?_⟩
    rw [allocLog_snoc, hlog, owned_none hphase]
    simp [LifeEvent.alloc?, Life.owned]

/-- A step of the FIFO is a step of the fresh FIFO. -/
theorem step_fifo (hL : LifeInv tr s) (hphase : s.phase = .opened) {a : Action Unit}
    {c' : Config HeapMem} {e : Event} (hs : step (heapAtomics .exact) .exact s.fifo a = some (c', e)) :
    LifeInv (tr ++ [.fifo e]) { s with fifo := c' } := by
  obtain ⟨hsize, hst, hsl⟩ := heap_frame (step_transition hs)
  refine ⟨?_, ?_, ?_⟩
  · intro _
    obtain ⟨block, garbage, as, hstorage, hslots, hrun⟩ := hL.opened hphase
    have hseen := seenAs_block (scRun_inv hrun) hstorage hslots
    have hstep := hseen.step_eq .exact a
    rw [hs] at hstep
    refine ⟨block, garbage, as ++ [a], hst.trans hstorage, ?_, ?_⟩
    · show c'.mem.slots = c'.size
      rw [hsl, hsize, hslots]
    · show scRun c'.size garbage (as ++ [a]) = _
      rw [hsize, epoch_snoc]
      exact run_snoc.mpr ⟨_, _, e, hrun, hstep, rfl⟩
  · intro hclosed
    rw [hphase] at hclosed
    simp at hclosed
  · obtain ⟨finished, hlog⟩ := hL.log
    refine ⟨finished, ?_⟩
    rw [allocLog_snoc, hlog]
    simp [LifeEvent.alloc?, Life.owned, hphase, hst]

/-- **done** frees the block, once. -/
theorem step_done (hL : LifeInv tr s) (hphase : s.phase = .opened ∨ s.phase = .closed) :
    LifeInv (tr ++ [s.done.2]) s.done.1 := by
  obtain ⟨finished, hlog⟩ := hL.log
  rcases hphase with hopened | hclosed
  · obtain ⟨block, garbage, as, hstorage, hslots, hrun⟩ := hL.opened hopened
    refine ⟨?_, ?_, finished ++ [(s.allocator, block)], ?_⟩
    · intro h
      simp [Life.done, hstorage] at h
    · intro _
      refine ⟨by simp [Life.done, hstorage], garbage, as, s.fifo.seen (blockMem block), ?_, ?_⟩
      · rw [epoch_snoc]
        simpa [Life.done, hstorage, LifeEvent.extend] using hrun
      · simp [Life.done, hstorage, Config.seen]
    · rw [allocLog_snoc, hlog]
      simp [Life.done, hstorage, Life.owned, hopened, LifeEvent.alloc?, pairs]
  · obtain ⟨hstorage, garbage, as, c, hrun, hprod⟩ := hL.closed hclosed
    refine ⟨?_, ?_, finished, ?_⟩
    · intro h
      simp [Life.done, hstorage] at h
    · intro _
      refine ⟨by simp [Life.done, hstorage], garbage, as, c, ?_, ?_⟩
      · rw [epoch_snoc]
        simpa [Life.done, hstorage, LifeEvent.extend] using hrun
      · simpa [Life.done, hstorage] using hprod
    · rw [allocLog_snoc, hlog]
      simp [Life.done, hstorage, Life.owned, hclosed, LifeEvent.alloc?]

/-- Others leave the FIFO's block alone. -/
theorem step_env (hL : LifeInv tr s) (heap : Nat → Nat → Ptr) :
    LifeInv (tr ++ [.env]) (s.scribble heap) := by
  refine ⟨?_, ?_, ?_⟩
  · intro hopened
    have hopened' : s.phase = .opened := hopened
    obtain ⟨block, garbage, as, hstorage, hslots, hrun⟩ := hL.opened hopened'
    have howned : s.owned = some block := by
      unfold Life.owned
      rw [if_pos hopened', hstorage]
    refine ⟨block, garbage, as, hstorage, hslots, ?_⟩
    have hseen : (s.scribble heap).fifo.seen (blockMem block) = s.fifo.seen (blockMem block) := by
      simp [Life.scribble, Config.seen, blockMem, howned]
    rw [hseen, epoch_snoc]
    exact hrun
  · intro hclosed
    rw [epoch_snoc]
    exact hL.closed hclosed
  · obtain ⟨finished, hlog⟩ := hL.log
    refine ⟨finished, ?_⟩
    rw [allocLog_snoc, hlog]
    simp [LifeEvent.alloc?, Life.owned, Life.scribble]

/-- **The step lemma of a life.** -/
theorem step (hL : LifeInv tr s) {a : LifeAction} {e : LifeEvent}
    (h : lifeStep s a = some (s', e)) : LifeInv (tr ++ [e]) s' := by
  cases a with
  | init size allocator answer =>
      simp only [lifeStep] at h
      split at h
      · rename_i hguard
        cases answer with
        | some block =>
            obtain ⟨rfl, rfl⟩ := Prod.mk.inj (Option.some.inj h)
            exact hL.step_init hguard.1 size allocator block
        | none =>
            obtain ⟨rfl, rfl⟩ := Prod.mk.inj (Option.some.inj h)
            exact hL.step_abort hguard.1
      · simp at h
  | fifo a =>
      simp only [lifeStep] at h
      split at h
      · rename_i hopened
        obtain ⟨r, hr, hrs⟩ := Option.map_eq_some_iff.mp h
        obtain ⟨rfl, rfl⟩ := Prod.mk.inj hrs
        exact hL.step_fifo hopened hr
      · simp at h
  | done =>
      simp only [lifeStep] at h
      split at h
      · rename_i hguard
        rw [← (Prod.mk.inj (Option.some.inj h)).1, ← (Prod.mk.inj (Option.some.inj h)).2]
        exact hL.step_done hguard.1
      · simp at h
  | env heap =>
      obtain ⟨rfl, rfl⟩ := Prod.mk.inj (Option.some.inj h)
      exact hL.step_env heap

end LifeInv

/-! ## §4. A life of a fixed FIFO. -/

/-- The struct of a fixed FIFO of this size after the trace `tr`. -/
def FixedLifeInv (size : Nat) (tr : List LifeEvent) (s : FixedLife) : Prop :=
  s.phase ≠ .raw → ∃ garbage as,
    fixedRun (header64.print size) .exact garbage as = some (s.fifo, epoch tr)

/-- **The step lemma of a fixed life.** -/
theorem FixedLifeInv.step {size : Nat} {tr : List LifeEvent} {s s' : FixedLife}
    (hL : FixedLifeInv size tr s) {a : FixedLifeAction} {e : LifeEvent}
    (h : fixedLifeStep (header64.print size) s a = some (s', e)) :
    FixedLifeInv size (tr ++ [e]) s' := by
  cases a with
  | init =>
      simp only [fixedLifeStep] at h
      split at h
      · obtain ⟨rfl, rfl⟩ := Prod.mk.inj (Option.some.inj h)
        intro _
        exact ⟨s.fifo.mem.storage, [], by rw [epoch_snoc]; rfl⟩
      · simp at h
  | fifo a =>
      simp only [fixedLifeStep] at h
      split at h
      · rename_i hopened
        obtain ⟨r, hr, hrs⟩ := Option.map_eq_some_iff.mp h
        obtain ⟨rfl, rfl⟩ := Prod.mk.inj hrs
        intro _
        obtain ⟨garbage, as, hrun⟩ := hL (by simp [hopened])
        refine ⟨garbage, as ++ [a], ?_⟩
        rw [epoch_snoc]
        exact run_snoc.mpr ⟨_, _, r.2, hrun, hr, rfl⟩
      · simp at h
  | done =>
      simp only [fixedLifeStep] at h
      split at h
      · rename_i hguard
        obtain ⟨rfl, rfl⟩ := Prod.mk.inj (Option.some.inj h)
        intro _
        have hphase : s.phase ≠ .raw := by
          rcases hguard.1 with hopened | hclosed
          · simp [hopened]
          · simp [hclosed]
        obtain ⟨garbage, as, hrun⟩ := hL hphase
        exact ⟨garbage, as, by rw [epoch_snoc]; exact hrun⟩
      · simp at h

/-! ## §5. The theorem. -/

/-- A struct full of garbage, before its first init. -/
def rawLife : Life where
  fifo := ⟨9, ⟨7, some 3, 0, fun _ _ => 77⟩, ⟨.idle, 4⟩, ⟨.idle, 8⟩⟩
  allocator := 6
  phase := .raw

end MulleFifo
