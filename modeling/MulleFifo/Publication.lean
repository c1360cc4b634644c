/-
  MulleFifo.Publication — what the counter alone publishes.

  Slots and indices are taken as accesses that synchronise NOTHING.  The
  only edges between threads are those of `n`: whoever loads, increments or
  decrements `n` synchronises with the update it observes and with all
  updates before it.  (An increment or decrement observes the value it
  replaces; the documented atomics are acquire on loads and acquire-release
  on updates.)

  The counter still orders everything that matters, because it counts:

    • the `k`-th read can pass its empty check only after the `k`-th
      increment (`n > 0` with `k` decrements done),
    • the write `k + size` can pass its full check only after the `k`-th
      decrement (`n < size` with `k + size` increments done).

  Hence `pointerfifo_publication`: what the producer did before its `k`-th
  accepted write happens before what the consumer does after its `k`-th
  read; the store of item `k` happens before its load, and the load before
  the store that reuses the slot.  No two accesses to a slot are unordered.
-/
import MulleFifo.Model.SeqCst
import MulleFifo.Lib.HappensBefore

namespace MulleFifo

open Lib

/-! ## §1. Synchronisation on the counter only. -/

/-- The step increments or decrements `n`. -/
@[simp] def Event.updatesN : Event → Bool
  | .prod (.increment _) | .cons (.decrement _) => true
  | _ => false

/-- The step loads, increments or decrements `n`. -/
@[simp] def Event.accessesN : Event → Bool
  | .prod (.full _) | .prod (.room _ _) | .prod (.increment _) => true
  | .cons .empty | .cons (.avail _) | .cons (.decrement _) => true
  | .count _ _ => true
  | _ => false

/-- The FIFO's synchronisation: on `n`, and on nothing else. -/
def counterSync : SyncModel Event Thread where
  thread := Event.thread
  update := Event.updatesN
  access := Event.accessesN

/-- Position `a` is where the `k`-th accepted write (from 0) starts: the
last call of the producer before the `k`-th increment. -/
def StartsWrite (tr : List Event) (k a : Nat) : Prop :=
  ∃ b pointer, NthAt Event.pushed? tr k b ∧ a < b ∧ tr[a]? = some (.prod (.call pointer))
    ∧ ∀ j, a < j → j < b → ∀ pointer', tr[j]? ≠ some (.prod (.call pointer'))

/-- Position `i` is a step of thread `t`. -/
def StepOf (t : Thread) (tr : List Event) (i : Nat) : Prop :=
  ∃ e, tr[i]? = some e ∧ e.thread = t

theorem StepOf.programOrder {t : Thread} {tr : List Event} {i j : Nat} (hi : StepOf t tr i)
    (hj : StepOf t tr j) (hlt : i < j) : ProgramOrder counterSync tr i j := by
  obtain ⟨e, he, het⟩ := hi
  obtain ⟨f, hf, hft⟩ := hj
  exact ⟨hlt, e, f, he, hf, het.trans hft.symm⟩

/-! ## §2. The kinds of events the proof runs through. -/

theorem stepOf_stored {tr : List Event} {k i : Nat} (h : NthAt Event.stored? tr k i) :
    StepOf .producer tr i := by
  obtain ⟨e, he, hsome⟩ := h.getElem?
  refine ⟨e, he, ?_⟩
  cases e with
  | prod w => rfl
  | _ => simp at hsome

theorem stepOf_loaded {tr : List Event} {k i : Nat} (h : NthAt Event.loaded? tr k i) :
    StepOf .consumer tr i := by
  obtain ⟨e, he, hsome⟩ := h.getElem?
  refine ⟨e, he, ?_⟩
  cases e with
  | cons r => rfl
  | _ => simp at hsome

theorem stepOf_pushed {tr : List Event} {k i : Nat} (h : NthAt Event.pushed? tr k i) :
    StepOf .producer tr i ∧ UpdateAt counterSync tr i := by
  obtain ⟨e, he, hsome⟩ := h.getElem?
  cases e with
  | prod w =>
      cases w with
      | increment pointer => exact ⟨⟨_, he, rfl⟩, ⟨_, he, rfl⟩⟩
      | _ => simp at hsome
  | _ => simp at hsome

theorem stepOf_popped {tr : List Event} {k i : Nat} (h : NthAt Event.popped? tr k i) :
    StepOf .consumer tr i ∧ UpdateAt counterSync tr i := by
  obtain ⟨e, he, hsome⟩ := h.getElem?
  cases e with
  | cons r =>
      cases r with
      | decrement pointer => exact ⟨⟨_, he, rfl⟩, ⟨_, he, rfl⟩⟩
      | _ => simp at hsome
  | _ => simp at hsome

theorem stepOf_admitted {tr : List Event} {k i : Nat} (h : NthAt Event.admitted? tr k i) :
    StepOf .producer tr i ∧ AccessAt counterSync tr i := by
  obtain ⟨e, he, hsome⟩ := h.getElem?
  cases e with
  | prod w =>
      cases w with
      | room pointer n => exact ⟨⟨_, he, rfl⟩, ⟨_, he, rfl⟩⟩
      | _ => simp at hsome
  | _ => simp at hsome

theorem stepOf_granted {tr : List Event} {k i : Nat} (h : NthAt Event.granted? tr k i) :
    StepOf .consumer tr i ∧ AccessAt counterSync tr i := by
  obtain ⟨e, he, hsome⟩ := h.getElem?
  cases e with
  | cons r =>
      cases r with
      | avail n => exact ⟨⟨_, he, rfl⟩, ⟨_, he, rfl⟩⟩
      | _ => simp at hsome
  | _ => simp at hsome

/-- The call in progress is in the trace, and nothing was called since. -/
def CalledWrite (tr : List Event) (c : Config ScMem) : Prop :=
  ∀ pointer ∈ c.prod.pc.arg, ∃ before after, tr = before ++ .prod (.call pointer) :: after
    ∧ ∀ e ∈ after, ∀ pointer', e ≠ .prod (.call pointer')

/-- A step other than a call keeps the call in progress. -/
theorem CalledWrite.quiet {tr : List Event} {c c' : Config ScMem} {e : Event}
    (hC : CalledWrite tr c) (he : ∀ pointer, e ≠ .prod (.call pointer))
    (harg : c'.prod.pc.arg ⊆ c.prod.pc.arg) : CalledWrite (tr ++ [e]) c' := by
  intro pointer hmem
  obtain ⟨before, after, rfl, hnone⟩ := hC pointer (harg hmem)
  refine ⟨before, after ++ [e], by simp, ?_⟩
  intro e' he'
  rcases List.mem_append.mp he' with hin | hlast
  · exact hnone e' hin
  · rw [List.mem_singleton.mp hlast]
    exact he

theorem CalledWrite.step {tr : List Event} {c c' : Config ScMem} {e : Event}
    (hC : CalledWrite tr c) (h : Transition (seqCst .exact) .exact c e c') :
    CalledWrite (tr ++ [e]) c' := by
  cases h with
  | callNull hpc => intro pointer hmem; simp at hmem
  | @call pointer hpc hp =>
      intro pointer' hmem
      obtain rfl := List.mem_singleton.mp hmem
      exact ⟨tr, [], rfl, by simp⟩
  | full hpc | room hpc | store hpc | indexWrite hpc | increment _ hpc | retWrite hpc =>
      exact hC.quiet (by simp) (by simp [hpc])
  | _ => exact hC.quiet (by simp) (List.Subset.refl _)

/-! ## §3. Counting orders the stations. -/

section Stations

variable {size : Nat} {storage : Nat → Ptr} {as : List (Action Unit)} {c : Config ScMem}
  {tr : List Event} {k : Nat}

/-- The `k`-th store comes before the `k`-th increment. -/
theorem stored_before_pushed (h : scRun size storage as = some (c, tr)) {s b : Nat}
    (hs : NthAt Event.stored? tr k s) (hb : NthAt Event.pushed? tr k b) : s < b := by
  obtain ⟨pre, e, post, rfl, rfl, he, hcount⟩ := hs
  obtain ⟨c₁, c₂, hI, ht, _⟩ := scRun_event h
  change (stored pre).length = k at hcount
  cases ht with
  | @store pointer ch m hpc hwrite =>
      have hst : stored pre = pushed pre := by simpa [hpc] using hI.producer.stored_eq
      -- no more increments than stores so far, and a store is not an increment
      exact hb.length_lt (by rw [← hcount, hst]; rfl) rfl
  | _ => simp at he

/-- The `k`-th granted read comes before the `k`-th load. -/
theorem granted_before_loaded (h : scRun size storage as = some (c, tr)) {l : Nat}
    (hl : NthAt Event.loaded? tr k l) : ∃ g, g < l ∧ NthAt Event.granted? tr k g := by
  obtain ⟨pre, e, post, rfl, rfl, he, hcount⟩ := hl
  obtain ⟨c₁, c₂, hI, ht, _⟩ := scRun_event h
  change (loaded pre).length = k at hcount
  cases ht with
  | load hpc hread =>
      have hgr := hI.consumer.granted_eq
      have hld := hI.consumer.loaded_eq
      rw [hpc] at hgr hld
      simp only [ReadPc.inFlight, ReadPc.taken, List.append_nil] at hgr hld
      refine exists_nthAt_lt _ ?_
      change k < (granted pre).length
      rw [hgr, ← hld, hcount]
      omega
  | _ => simp at he

/-- The `k`-th granted read comes before the `k`-th non-NULL result. -/
theorem granted_before_received (h : scRun size storage as = some (c, tr)) {r : Nat}
    (hr : NthAt Event.received? tr k r) : ∃ g, g < r ∧ NthAt Event.granted? tr k g := by
  obtain ⟨pre, e, post, rfl, rfl, he, hcount⟩ := hr
  obtain ⟨c₁, c₂, hI, ht, _⟩ := scRun_event h
  change (received pre).length = k at hcount
  cases ht with
  | @retRead pointer hpc =>
      have hne : pointer ≠ NULL := by
        intro hnull
        simp [hnull] at he
      have hgr := hI.consumer.granted_eq
      have hpop := hI.popped_eq
      rw [hpc] at hgr hpop
      simp only [ReadPc.inFlight, ReadPc.unreturned, if_neg hne] at hgr hpop
      refine exists_nthAt_lt _ ?_
      change k < (granted pre).length
      rw [hgr, hpop, List.length_append, hcount, List.length_singleton]
      omega
  | _ => simp at he

/-- Nothing is loaded that was not stored. -/
theorem stored_of_loaded (h : scRun size storage as = some (c, tr)) {l : Nat}
    (hl : NthAt Event.loaded? tr k l) : ∃ s, NthAt Event.stored? tr k s := by
  obtain ⟨pre, e, post, rfl, rfl, he, hcount⟩ := hl
  obtain ⟨c₁, c₂, hI, ht, hI'⟩ := scRun_event h
  change (loaded pre).length = k at hcount
  have hle := hI'.loaded_le.length_le
  cases ht with
  | load hpc hread =>
      simp only [loaded_snoc, Event.loaded?, Option.toList_some, List.length_append,
        List.length_singleton, stored_snoc, Event.stored?, Option.toList_none,
        List.append_nil] at hle
      obtain ⟨s, _, hs⟩ := exists_nthAt_lt (f := Event.stored?) (k := k) _ (by
        change k < (stored pre).length
        omega)
      exact ⟨s, hs⟩
  | _ => simp at he

/-- **The empty check**: when the `k`-th read is granted, more than `k`
increments are done. -/
theorem granted_lt_pushed {pre post : List Event} {count : Nat}
    (h : scRun size storage as = some (c, pre ++ .cons (.avail count) :: post)) :
    (granted pre).length < (pushed pre).length := by
  obtain ⟨c₁, c₂, hI, ht, hI'⟩ := scRun_event h
  cases ht with
  | avail hpc hread hn =>
      have hgr := hI.consumer.granted_eq
      have hlt := hI'.avail (by simp)
      simp only [hpc, ReadPc.inFlight, Nat.add_zero] at hgr
      simp only [popped_snoc, pushed_snoc, Event.popped?, Event.pushed?, Option.toList_none,
        List.append_nil] at hlt
      rw [hgr]
      exact hlt

/-- The `k`-th read is granted only after the `k`-th increment. -/
theorem pushed_before_granted (h : scRun size storage as = some (c, tr)) {g : Nat}
    (hg : NthAt Event.granted? tr k g) : ∃ b, b < g ∧ NthAt Event.pushed? tr k b := by
  obtain ⟨pre, e, post, rfl, rfl, he, hcount⟩ := hg
  cases e with
  | cons r =>
      cases r with
      | avail count =>
          have hlt := granted_lt_pushed h
          refine exists_nthAt_lt _ ?_
          rw [← hcount]
          exact hlt
      | _ => simp at he
  | _ => simp at he

/-- **The full check**: the write `k + size` is admitted only after the
`k`-th decrement. -/
theorem popped_before_admitted (h : scRun size storage as = some (c, tr)) {q : Nat}
    (hq : NthAt Event.admitted? tr (k + size) q) :
    ∃ d, d < q ∧ NthAt Event.popped? tr k d := by
  obtain ⟨pre, e, post, rfl, rfl, he, hcount⟩ := hq
  obtain ⟨c₁, c₂, hI, ht, hI'⟩ := scRun_event h
  change (admitted pre).length = k + size at hcount
  cases ht with
  | room hpc hread hn =>
      have had : admitted pre = pushed pre := by simpa [hpc] using hI.producer.admitted_eq
      have hlt := hI'.room (by simp)
      simp only [popped_snoc, pushed_snoc, Event.popped?, Event.pushed?, Option.toList_none,
        List.append_nil] at hlt
      refine exists_nthAt_lt _ ?_
      change k < (popped pre).length
      rw [had] at hcount
      omega
  | _ => simp at he

/-- A write is admitted before it is stored. -/
theorem admitted_before_stored (h : scRun size storage as = some (c, tr)) {s : Nat}
    (hs : NthAt Event.stored? tr k s) : ∃ q, q < s ∧ NthAt Event.admitted? tr k q := by
  obtain ⟨pre, e, post, rfl, rfl, he, hcount⟩ := hs
  obtain ⟨c₁, c₂, hI, ht, _⟩ := scRun_event h
  change (stored pre).length = k at hcount
  cases ht with
  | store hpc hwrite =>
      have had := hI.producer.admitted_eq
      have hst := hI.producer.stored_eq
      rw [hpc] at had hst
      simp only [WritePc.inFlight, WritePc.placed, List.append_nil] at had hst
      refine exists_nthAt_lt _ ?_
      change k < (admitted pre).length
      rw [had, List.length_append, ← hst, hcount, List.length_singleton]
      omega
  | _ => simp at he

/-- A pointer is loaded before it is popped. -/
theorem loaded_before_popped (h : scRun size storage as = some (c, tr)) {l d : Nat}
    (hl : NthAt Event.loaded? tr k l) (hd : NthAt Event.popped? tr k d) : l < d := by
  obtain ⟨pre, e, post, rfl, rfl, he, hcount⟩ := hl
  obtain ⟨c₁, c₂, hI, ht, _⟩ := scRun_event h
  change (loaded pre).length = k at hcount
  cases ht with
  | load hpc hread =>
      have hld : loaded pre = popped pre := by simpa [hpc] using hI.consumer.loaded_eq
      -- no more decrements than loads so far, and a load is not a decrement
      exact hd.length_lt (by rw [← hcount, hld]; rfl) rfl
  | _ => simp at he

/-! ## §4. The edges between the threads. -/

/-- Everything up to the start of a write happens before everything after
the read of its pointer. -/
theorem write_publishes (h : scRun size storage as = some (c, tr)) {a i r j : Nat}
    (ha : StartsWrite tr k a) (hia : i < a) (hi : StepOf .producer tr i)
    (hr : NthAt Event.received? tr k r) (hrj : r < j) (hj : StepOf .consumer tr j) :
    HappensBefore counterSync tr i j := by
  obtain ⟨b, pointer, hb, hab, _, _⟩ := ha
  obtain ⟨g, hgr, hg⟩ := granted_before_received h hr
  obtain ⟨b', hbg, hb'⟩ := pushed_before_granted h hg
  obtain rfl := hb.unique hb'
  obtain ⟨hbp, hbu⟩ := stepOf_pushed hb
  obtain ⟨hgc, hga⟩ := stepOf_granted hg
  exact .publish (hi.programOrder hbp (by omega)) hbg hbu hga (hgc.programOrder hj (by omega))

/-- The store of item `k` happens before its load. -/
theorem store_before_load (h : scRun size storage as = some (c, tr)) {s l : Nat}
    (hs : NthAt Event.stored? tr k s) (hl : NthAt Event.loaded? tr k l) :
    HappensBefore counterSync tr s l := by
  obtain ⟨g, hgl, hg⟩ := granted_before_loaded h hl
  obtain ⟨b, hbg, hb⟩ := pushed_before_granted h hg
  have hsb := stored_before_pushed h hs hb
  obtain ⟨hbp, hbu⟩ := stepOf_pushed hb
  obtain ⟨hgc, hga⟩ := stepOf_granted hg
  exact .publish ((stepOf_stored hs).programOrder hbp hsb) hbg hbu hga
    (hgc.programOrder (stepOf_loaded hl) hgl)

/-- The load of item `k` happens before the store that reuses its slot. -/
theorem load_before_reuse (h : scRun size storage as = some (c, tr)) {l s : Nat}
    (hl : NthAt Event.loaded? tr k l) (hs : NthAt Event.stored? tr (k + size) s) :
    HappensBefore counterSync tr l s := by
  obtain ⟨q, hqs, hq⟩ := admitted_before_stored h hs
  obtain ⟨d, hdq, hd⟩ := popped_before_admitted h hq
  have hld := loaded_before_popped h hl hd
  obtain ⟨hdc, hdu⟩ := stepOf_popped hd
  obtain ⟨hqp, hqa⟩ := stepOf_admitted hq
  exact .publish ((stepOf_loaded hl).programOrder hdc hld) hdq hdu hqa
    (hqp.programOrder (stepOf_stored hs) hqs)

theorem calledWrite (h : scRun size storage as = some (c, tr)) : CalledWrite tr c :=
  run_invariant (P := CalledWrite) (by simp [CalledWrite, pointerfifoInit])
    (fun _ _ _ _ _ hC hs => hC.step (step_transition hs)) h

/-- An accepted write was called, and nothing was called since. -/
theorem startsWrite_exists (h : scRun size storage as = some (c, tr)) {b : Nat}
    (hb : NthAt Event.pushed? tr k b) : ∃ a, StartsWrite tr k a := by
  have hnth := hb
  obtain ⟨pre, e, post, rfl, rfl, he, _⟩ := hb
  obtain ⟨c₁, c₂, as₁, a, as₂, rfl, h1, ha, _⟩ := run_split_event h
  cases step_transition ha with
  | @increment pointer ch hpc =>
      obtain ⟨before, after, rfl, hnone⟩ := calledWrite h1 pointer (by simp [hpc])
      refine ⟨before.length, _, pointer, hnth, by simp, by simp, ?_⟩
      intro j hlo hhi pointer' hj
      obtain ⟨d, rfl⟩ : ∃ d, j = before.length + 1 + d := ⟨j - before.length - 1, by omega⟩
      rw [List.getElem?_append_left hhi, getElem?_after] at hj
      exact hnone _ (List.mem_of_getElem? hj) pointer' rfl
  | _ => simp at he

/-- A store event is the store of some item `i`, into slot `i % size`. -/
theorem nthAt_of_store (h : scRun size storage as = some (c, tr)) {s slot : Nat} {pointer : Ptr}
    (hs : tr[s]? = some (.prod (.store slot pointer))) :
    ∃ i, NthAt Event.stored? tr i s ∧ slot = i % size := by
  obtain ⟨pre, post, rfl, rfl⟩ := exists_split hs
  obtain ⟨c₁, c₂, hI, ht, _⟩ := scRun_event h
  refine ⟨(stored pre).length, ⟨pre, _, post, rfl, rfl, rfl, rfl⟩, ?_⟩
  cases ht with
  | store hpc hwrite => simpa [hpc, hI.producer.stored_eq] using hI.producer.write_eq

/-- A load event is the load of some item `j`, from slot `j % size`. -/
theorem nthAt_of_load (h : scRun size storage as = some (c, tr)) {l slot : Nat} {pointer : Ptr}
    (hl : tr[l]? = some (.cons (.load slot pointer))) :
    ∃ j, NthAt Event.loaded? tr j l ∧ slot = j % size := by
  obtain ⟨pre, post, rfl, rfl⟩ := exists_split hl
  obtain ⟨c₁, c₂, hI, ht, _⟩ := scRun_event h
  refine ⟨(loaded pre).length, ⟨pre, _, post, rfl, rfl, rfl, rfl⟩, ?_⟩
  cases ht with
  | load hpc hread => simpa [hpc, hI.consumer.loaded_eq] using hI.consumer.read_eq

/-- No two accesses to a slot are unordered. -/
theorem slot_accesses_ordered (h : scRun size storage as = some (c, tr)) {s l slot : Nat}
    {pointer pointer' : Ptr} (hs : tr[s]? = some (.prod (.store slot pointer)))
    (hl : tr[l]? = some (.cons (.load slot pointer'))) :
    HappensBefore counterSync tr s l ∨ HappensBefore counterSync tr l s := by
  obtain ⟨i, hi, hslot⟩ := nthAt_of_store h hs
  obtain ⟨j, hj, hslot'⟩ := nthAt_of_load h hl
  have hmod : i % size = j % size := hslot.symm.trans hslot'
  rcases Nat.lt_or_ge j i with hlt | hle
  · -- stored later, so at least `size` items later
    right
    have hfar : j + size ≤ i := by
      refine Nat.le_of_not_lt fun hnear => ?_
      exact Ring.mod_ne_of_window hlt hnear hmod.symm
    obtain ⟨s', hs', hreuse⟩ := hi.exists_le hfar
    have hbefore := load_before_reuse h hj hreuse
    rcases Nat.eq_or_lt_of_le hs' with rfl | hlt'
    · exact hbefore
    · exact hbefore.tail (.inl ((stepOf_stored hreuse).programOrder (stepOf_stored hi) hlt'))
  · -- stored earlier, or the item itself
    left
    obtain ⟨s', hstored⟩ := stored_of_loaded h hj
    obtain ⟨s'', hs'', hitem⟩ := hstored.exists_le hle
    obtain rfl := hitem.unique hi
    have hbefore := store_before_load h hstored hj
    rcases Nat.eq_or_lt_of_le hs'' with rfl | hlt'
    · exact hbefore
    · exact .head (.inl ((stepOf_stored hi).programOrder (stepOf_stored hstored) hlt')) hbefore

end Stations

/-! ## §5. The theorem. -/

/-- **PUBLICATION THROUGH THE COUNTER ALONE**, for every `k`: a read that
returned item `k` has an accepted write behind it, and everything the
producer did before that write happens before everything the consumer does
after the read; the store of item `k` happens before its load; the load
happens before the store of item `k + size`.  And no store and load of one
slot are unordered, so there is no race on the slots. -/
theorem pointerfifo_publication (size : Nat) (storage : Nat → Ptr) (as : List (Action Unit))
    (c : Config ScMem) (tr : List Event) (h : scRun size storage as = some (c, tr)) (k : Nat) :
    (∀ r, NthAt Event.received? tr k r →
        ∃ a, StartsWrite tr k a ∧ a < r
          ∧ ∀ i j, i < a → StepOf .producer tr i → r < j → StepOf .consumer tr j →
              HappensBefore counterSync tr i j)
      ∧ (∀ s l, NthAt Event.stored? tr k s → NthAt Event.loaded? tr k l →
          HappensBefore counterSync tr s l)
      ∧ (∀ l s, NthAt Event.loaded? tr k l → NthAt Event.stored? tr (k + size) s →
          HappensBefore counterSync tr l s)
      ∧ (∀ s l slot pointer pointer', tr[s]? = some (.prod (.store slot pointer)) →
          tr[l]? = some (.cons (.load slot pointer')) →
          HappensBefore counterSync tr s l ∨ HappensBefore counterSync tr l s) := by
  refine ⟨?_, fun _ _ hs hl => store_before_load h hs hl,
    fun _ _ hl hs => load_before_reuse h hl hs,
    fun _ _ _ _ _ hs hl => slot_accesses_ordered h hs hl⟩
  intro r hr
  obtain ⟨g, hgr, hg⟩ := granted_before_received h hr
  obtain ⟨b, hbg, hb⟩ := pushed_before_granted h hg
  obtain ⟨a, ha⟩ := startsWrite_exists h hb
  have hab : a < b := by
    obtain ⟨b', _, hb', hlt, _⟩ := ha
    rw [hb.unique hb']
    exact hlt
  exact ⟨a, ha, by omega, fun i j hia hi hrj hj => write_publishes h ha hia hi hr hrj hj⟩

/-- The producer does something, writes 5 and 6, and starts a third write,
which takes the slot of 5 again; the consumer reads 5 meanwhile and then
does something. -/
def reuse : List (Action Unit) :=
  [.work .producer 1, .callRead, .callWrite 5, .prod (), .prod (), .prod (), .prod (), .cons (),
    .prod (), .cons (), .callWrite 6, .prod (), .cons (), .cons (), .cons (), .work .consumer 2,
    .prod (), .prod (), .prod (), .prod (), .callWrite 7, .prod (), .prod ()]

/-- In `reuse` the work of the producer before its write of 5 happens
before the work of the consumer after its read of 5; so does the store of
5 before its load, and that load before the store of 7. -/
theorem reuse_publication :
    ∃ c tr, scRun 2 (fun _ => 77) reuse = some (c, tr)
      ∧ tr[0]? = some (.work .producer 1) ∧ tr[15]? = some (.work .consumer 2)
      ∧ HappensBefore counterSync tr 0 15
      ∧ tr[4]? = some (.prod (.store 0 5)) ∧ tr[9]? = some (.cons (.load 0 5))
      ∧ HappensBefore counterSync tr 4 9
      ∧ tr[22]? = some (.prod (.store 0 7)) ∧ HappensBefore counterSync tr 9 22
      ∧ (HappensBefore counterSync tr 22 9 ∨ HappensBefore counterSync tr 9 22) := by
  obtain ⟨c, tr, h, hwork, hwork', hstore, hload, hagain, hret, hstored, hloaded, hthird⟩ :
      ∃ c tr, scRun 2 (fun _ => 77) reuse = some (c, tr)
        ∧ tr[0]? = some (.work .producer 1) ∧ tr[15]? = some (.work .consumer 2)
        ∧ tr[4]? = some (.prod (.store 0 5)) ∧ tr[9]? = some (.cons (.load 0 5))
        ∧ tr[22]? = some (.prod (.store 0 7))
        ∧ NthAt Event.received? tr 0 14 ∧ NthAt Event.stored? tr 0 4
        ∧ NthAt Event.loaded? tr 0 9 ∧ NthAt Event.stored? tr (0 + 2) 22 :=
    ⟨_, _, rfl, rfl, rfl, rfl, rfl, rfl, .of_getElem? rfl rfl, .of_getElem? rfl rfl,
      .of_getElem? rfl rfl, .of_getElem? rfl rfl⟩
  obtain ⟨hpublish, hitem, hreuse, hraces⟩ := pointerfifo_publication 2 (fun _ => 77) reuse c tr h 0
  obtain ⟨a, hstarts, _, hbefore⟩ := hpublish 14 hret
  -- the write starts after the work of the producer
  have ha : 0 < a := by
    obtain ⟨_, _, _, _, hcall, _⟩ := hstarts
    refine Nat.pos_of_ne_zero fun hzero => ?_
    rw [hzero, hwork] at hcall
    simp at hcall
  have hwork_work := hbefore 0 15 ha ⟨_, hwork, rfl⟩ (by decide) ⟨_, hwork', rfl⟩
  exact ⟨c, tr, h, hwork, hwork', hwork_work, hstore, hload, hitem 4 9 hstored hloaded, hagain,
    hreuse 9 22 hloaded hthird, hraces 22 9 0 7 5 hagain hload⟩

end MulleFifo
