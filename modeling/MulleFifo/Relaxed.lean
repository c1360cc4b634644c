/-
  MulleFifo.Relaxed — by-value payloads under relaxed atomics.

  The README says that all internal synchronisation is relaxed, the header
  that it is sequentially consistent.  For the COUNTS it makes no
  difference: a read that passed its empty check finds its item pushed, in
  any order (`Model.WeakCounts`).  For the SLOTS it does.  A relaxed count
  says nothing about the store it counts, so the load may return an older
  entry of the slot's history — the item of an earlier lap, or what the
  block from `malloc` held — even where the payload is the pointer itself.

  What is relaxed here is what a thread sees, not when it acts: the accesses
  of one thread take effect in program order, and a load returns an entry
  that is stored already.  A machine may do more to accesses that do not
  publish.  If a slot load took effect after the decrement of its own read,
  the producer could have stored the next lap's item by then, and the load
  could return an entry that is NEWER than its item; `not_newer` is about
  program order.  Where the accesses publish there is no such choice: the
  decrement releases, so the load before it stays before it.

    • `Placed` — which entry of its slot's history each load returned: never
      one that is newer than its own item, and in the order of the history,
    • `unpublished` — a run in which the first read returns the garbage in
      the slot, possible in every order that does not publish,
    • so reads return their own items in every run exactly if the loads of
      `n` acquire and its updates release.
-/
import MulleFifo.StaleCounts

namespace MulleFifo

open Lib

/-! ## §1. Relaxed atomics, and what is asked of them. -/

/-- Every access to `n` is relaxed, as the accesses to the slots are. -/
def relaxed : Order := ⟨false, false, false⟩

/-- Who sees a count knows what was known to those it counts. -/
def Order.Publishes (o : Order) : Prop := o.loadAcquires = true ∧ o.updateReleases = true

instance (o : Order) : Decidable o.Publishes :=
  inferInstanceAs (Decidable (o.loadAcquires = true ∧ o.updateReleases = true))

/-- The `k`-th read that passed its empty check returns the pointer of the
`k`-th write that passed its full check. -/
def ReadsInOrder (tr : List Event) : Prop :=
  ∀ pre n post, tr = pre ++ .cons (.avail n) :: post → ∀ result, (reads post)[0]? = some result →
    (admitted tr)[(granted pre).length]? = some result

/-- Every read returns an entry of its slot's history: the `k`-th one the
entry at `place k`.  Entry 0 is the initial contents, entry `k / size + 1`
the item of the `k`-th write. -/
structure ReadsHistory (size : Nat) (storage : Nat → Ptr) (tr : List Event) (place : Nat → Nat) :
    Prop where
  entry : ∀ pre n post, tr = pre ++ .cons (.avail n) :: post →
    ∀ result, (reads post)[0]? = some result →
      (granted pre).length < (loaded tr).length
        ∧ (Ring.history size storage (admitted tr)
          ((granted pre).length % size))[place (granted pre).length]? = some result
  /-- Not newer than its own item, as the load takes effect before the decrement. -/
  not_newer : ∀ k < (loaded tr).length, place k ≤ k / size + 1
  /-- Not older than what was loaded from the slot before. -/
  coherent : ∀ i j, i < j → j < (loaded tr).length → i % size = j % size → place i ≤ place j

/-! ## §2. The entries the loads return. -/

/-- Load `k` returned the entry at `place k` of its slot's history, and the
consumer knows of no entry before it any more. -/
structure Placed (size : Nat) (storage : Nat → Ptr) (tr : List Event) (m : RaMem)
    (place : Nat → Nat) : Prop where
  entry : ∀ k pointer, (loaded tr)[k]? = some pointer →
    (Ring.history size storage (stored tr) (k % size))[place k]? = some pointer
  not_newer : ∀ k < (loaded tr).length, place k ≤ k / size + 1
  known : ∀ k < (loaded tr).length, place k ≤ m.view .consumer (.slot (k % size))
  coherent : ∀ i j, i < j → j < (loaded tr).length → i % size = j % size → place i ≤ place j

namespace Placed

variable {o : Order} {size : Nat} {storage : Nat → Ptr} {tr : List Event} {c c' : Config RaMem}
  {e : Event} {place : Nat → Nat}

theorem init (size : Nat) (storage : Nat → Ptr) (m : RaMem) (place : Nat → Nat) :
    Placed size storage [] m place where
  entry k pointer h := by simp [loaded] at h
  not_newer k hk := absurd hk (Nat.not_lt_zero k)
  known k hk := absurd hk (Nat.not_lt_zero k)
  coherent i j _ hj := absurd hj (Nat.not_lt_zero j)

/-- A step that is not a load. -/
theorem frame (hP : Placed size storage tr c.mem place)
    (h : Transition (viewAtomics o .exact) .exact c e c') (he : e.loaded? = none) :
    Placed size storage (tr ++ [e]) c'.mem place := by
  have hsame : loaded (tr ++ [e]) = loaded tr := by
    rw [loaded_snoc, he, Option.toList_none, List.append_nil]
  have hgrow : stored tr <+: stored (tr ++ [e]) := by
    rw [stored_snoc]
    exact List.prefix_append _ _
  refine ⟨?_, ?_, ?_, ?_⟩
  · intro k pointer hk
    rw [hsame] at hk
    exact getElem?_of_prefix (Ring.history_prefix size storage hgrow _) (hP.entry k pointer hk)
  · rw [hsame]
    exact hP.not_newer
  · intro k hk
    rw [hsame] at hk
    exact (hP.known k hk).trans (h.view_le .consumer _)
  · rw [hsame]
    exact hP.coherent

/-- **A load** returns an entry that the consumer does not know to be
outdated. -/
theorem load (hI : WeakInv size storage tr c) (hP : Placed size storage tr c.mem place)
    (hpc : c.cons.pc = .load) {time : Nat} {pointer : Ptr} {m' : RaMem}
    (hread : c.mem.load false .consumer (.slot c.cons.read) time = some (pointer, m')) :
    Placed size storage (tr ++ [.cons (.load c.cons.read pointer)]) m'
      (Function.update place (loaded tr).length time) := by
  obtain ⟨msg, hmsg, rfl, ht, _, hview, hself, _⟩ := ViewMemory.load_some hread
  have hslot := hI.load_slot hpc
  rw [hslot] at hmsg ht hself
  have hentry := hI.history.slot_message hmsg
  have hone : loaded (tr ++ [.cons (.load c.cons.read msg.value)]) = loaded tr ++ [msg.value] := by
    simp
  have hst : stored (tr ++ [.cons (.load c.cons.read msg.value)]) = stored tr := by
    simp
  -- the loads before keep their places
  have hold (k : Nat) (hk : k < (loaded tr).length) :
      Function.update place (loaded tr).length time k = place k :=
    Function.update_of_ne (Nat.ne_of_lt hk) _ _
  have hnew : Function.update place (loaded tr).length time (loaded tr).length = time :=
    Function.update_self _ _ _
  refine ⟨?_, ?_, ?_, ?_⟩
  · intro k pointer hk
    rw [hone] at hk
    rw [hst]
    rcases getElem?_snoc hk with hbefore | ⟨rfl, rfl⟩
    · rw [hold k (List.getElem?_eq_some_iff.mp hbefore).1]
      exact hP.entry k pointer hbefore
    · rw [hnew]
      exact hentry
  · rw [hone]
    apply forall_lt_snoc
    · intro k hk
      rw [hold k hk]
      exact hP.not_newer k hk
    · rw [hnew]
      exact hI.load_place hpc hentry
  · rw [hone]
    apply forall_lt_snoc
    · intro k hk
      rw [hold k hk]
      exact (hP.known k hk).trans (hview .consumer _)
    · rw [hnew]
      exact hself
  · -- coherence: what was loaded from the slot before is known
    have hcoherent : ∀ j < (loaded tr ++ [msg.value]).length, ∀ i < j, i % size = j % size →
        Function.update place (loaded tr).length time i
          ≤ Function.update place (loaded tr).length time j := by
      apply forall_lt_snoc
      · intro j hj i hij hcell
        rw [hold j hj, hold i (hij.trans hj)]
        exact hP.coherent i j hij hj hcell
      · intro i hi hcell
        have hknown := hP.known i hi
        rw [hcell] at hknown
        rw [hnew, hold i hi]
        exact hknown.trans ht
    rw [hone]
    intro i j hij hj hcell
    exact hcoherent j hj i hij hcell

/-- **The step lemma.** -/
theorem step_keeps (hI : WeakInv size storage tr c) (hP : Placed size storage tr c.mem place)
    (h : Transition (viewAtomics o .exact) .exact c e c') :
    ∃ place', Placed size storage (tr ++ [e]) c'.mem place' := by
  by_cases he : e.loaded? = none
  · exact ⟨place, hP.frame h he⟩
  · cases h with
    | load hpc hread => exact ⟨_, hP.load hI hpc hread⟩
    | _ => exact absurd rfl he

end Placed

/-! ## §3. Every run. -/

section Runs

variable {o : Order} {size : Nat} {storage : Nat → Ptr} {as : List (Action Nat)}
  {c : Config RaMem} {tr : List Event}

/-- The loads of every run are placed, in any order. -/
theorem weakRun_placed (h : raRun o size storage as = some (c, tr)) :
    ∃ place, Placed size storage tr c.mem place := by
  have hboth : WeakInv size storage tr c ∧ ∃ place, Placed size storage tr c.mem place := by
    refine run_invariant
      (P := fun tr c => WeakInv size storage tr c ∧ ∃ place, Placed size storage tr c.mem place)
      ⟨WeakInv.init size storage, fun _ => 0, Placed.init _ _ _ _⟩ ?_ h
    intro tr c a c' e hI hs
    obtain ⟨hW, place, hP⟩ := hI
    have ht := step_transition hs
    exact ⟨hW.step_keeps ht, hP.step_keeps hW ht⟩
  exact hboth.2

/-- **What a read returns** is an entry of its slot's history. -/
theorem readsHistory (h : raRun o size storage as = some (c, tr)) :
    ∃ place, ReadsHistory size storage tr place := by
  obtain ⟨place, hP⟩ := weakRun_placed h
  have hI := weakRun_inv h
  have hstored : stored tr <+: admitted tr := by
    rw [hI.producer.stored_eq, hI.producer.admitted_eq, List.prefix_append_right_inj]
    cases hpc : c.prod.pc <;> simp
  refine ⟨place, ?_, hP.not_newer, hP.coherent⟩
  intro pre n post htr result hresult
  subst htr
  have hloaded := returned_is_loaded rfl h hresult
  have hentry := hP.entry _ _ hloaded
  exact ⟨(List.getElem?_eq_some_iff.mp hloaded).1,
    getElem?_of_prefix (Ring.history_prefix size storage hstored _) hentry⟩

/-- Where the order publishes, the entry is the read's own item. -/
theorem readsInOrder (ho : o.Publishes) (h : raRun o size storage as = some (c, tr)) :
    ReadsInOrder tr := by
  have hra : o = releaseAcquire o.updateAcquires := by
    obtain ⟨hacq, hrel⟩ := ho
    cases o
    simp only at hacq hrel
    rw [hacq, hrel]
    rfl
  have hI := weakRun_inv h
  rw [hra] at h
  intro pre n post htr result hresult
  subst htr
  have hpushed := granted_returns h hresult
  have hle : pushed pre <+: admitted (pre ++ .cons (.avail n) :: post) := by
    rw [hI.producer.admitted_eq, pushed_append, List.append_assoc]
    exact List.prefix_append _ _
  exact getElem?_of_prefix hle hpushed

end Runs

/-! ## §4. The run that returns garbage. -/

/-- One write, from its call to its return, and then one read: it finds the
write counted, and loads the oldest entry of the slot. -/
def unpublished (pointer : Ptr) : List (Action Nat) :=
  [.callWrite pointer, .prod 0, .prod 0, .prod 0, .prod 0, .prod 0,
    .callRead, .cons 1, .cons 0, .cons 0, .cons 0, .cons 0]

/-- What `unpublished` shows up to the empty check of the read. -/
def beforeAvail (pointer : Ptr) : List Event :=
  [.prod (.call pointer), .prod (.room pointer 0), .prod (.store 0 pointer), .prod .index,
    .prod (.increment pointer), .prod (.ret pointer 0), .cons .call]

/-- What `unpublished` shows after it, when the slot held `garbage`. -/
def afterAvail (garbage : Ptr) : List Event :=
  [.cons (.load 0 garbage), .cons .index, .cons (.decrement garbage), .cons (.ret garbage)]

/-- **Where the order does not publish, the run exists**, for every size and
every contents of the block. -/
theorem unpublished_run {o : Order} (ho : ¬ o.Publishes) (k : Nat) (storage : Nat → Ptr)
    (pointer : Nat) :
    ∃ c, raRun o (k + 2) storage (unpublished (pointer + 1))
      = some (c, beforeAvail (pointer + 1) ++ .cons (.avail 1) :: afterAvail (storage 0)) := by
  obtain ⟨loadAcquires, updateAcquires, updateReleases⟩ := o
  -- six of the eight orders; in none of them the count carries the store
  -- to the consumer
  cases loadAcquires with
  | false => cases updateAcquires <;> cases updateReleases <;> exact ⟨_, rfl⟩
  | true =>
      cases updateReleases with
      | false => cases updateAcquires <;> exact ⟨_, rfl⟩
      | true => exact absurd ⟨rfl, rfl⟩ ho

/-- Its read does not return its item. -/
theorem unpublished_not_inOrder {pointer garbage : Ptr} (hne : garbage ≠ pointer) :
    ¬ ReadsInOrder (beforeAvail pointer ++ .cons (.avail 1) :: afterAvail garbage) := by
  intro hall
  have hread := hall (beforeAvail pointer) 1 (afterAvail garbage) rfl garbage rfl
  have hitem : (admitted (beforeAvail pointer ++ .cons (.avail 1) :: afterAvail garbage))[0]?
      = some pointer := rfl
  have hsame : some pointer = some garbage := hitem.symm.trans hread
  exact hne (Option.some.inj hsame).symm

/-- **Under relaxed atomics reads need not return their own items**: 77 is
what the block held, 5 was written. -/
theorem relaxed_not_inOrder :
    ¬ ∀ size storage as c tr, 2 ≤ size → raRun relaxed size storage as = some (c, tr) →
      ReadsInOrder tr := by
  intro hall
  have ho : ¬ relaxed.Publishes := by decide
  obtain ⟨c, h⟩ := unpublished_run ho 0 (fun _ => 77) 4
  have hne : (77 : Ptr) ≠ 5 := by decide
  exact unpublished_not_inOrder hne (hall 2 _ _ c _ (Nat.le_refl 2) h)

/-! ## §5. The theorem. -/

/-- **BY-VALUE PAYLOADS AND THE ORDER OF THE COUNTS.**  Let the accesses of
each thread take effect in program order, and loads return entries stored
already.  Then whatever the accesses to `n` pass on, relaxed ones included,
a read that passes its empty check as the `k`-th one finds the `k`-th write
incremented, and returns an entry of its slot's history: one that is not
newer than that write's pointer, and not older than what was loaded from the
slot before.  For every size and every contents of the block, the entry is
that write's pointer in every run exactly if the loads of `n` acquire and
its updates release. -/
theorem pointerfifo_value_payload (o : Order) (size : Nat) (storage : Nat → Ptr)
    (hsize : 2 ≤ size) :
    (∀ as c tr, raRun o size storage as = some (c, tr) →
        (∀ pre n post, tr = pre ++ .cons (.avail n) :: post →
          (granted pre).length < (pushed pre).length)
          ∧ ∃ place, ReadsHistory size storage tr place)
      ∧ ((∀ as c tr, raRun o size storage as = some (c, tr) → ReadsInOrder tr) ↔ o.Publishes) := by
  refine ⟨?_, ?_, ?_⟩
  · intro as c tr h
    refine ⟨?_, readsHistory h⟩
    intro pre n post htr
    subst htr
    exact granted_pushed h
  · intro hall
    by_contra ho
    obtain ⟨k, rfl⟩ : ∃ k, size = k + 2 := ⟨size - 2, by omega⟩
    -- write what the slot does not hold
    obtain ⟨c, h⟩ := unpublished_run ho k storage (storage 0)
    have hne : storage 0 ≠ storage 0 + 1 := Nat.ne_of_lt (Nat.lt_succ_self _)
    exact unpublished_not_inOrder hne (hall _ c _ h)
  · intro ho as c tr h
    exact readsInOrder ho h

/-- In `unpublished` the one read returns 77 although 5 was written. -/
theorem unpublished_value_payload :
    ∃ c tr, raRun relaxed 2 (fun _ => 77) (unpublished 5) = some (c, tr)
      ∧ writes tr = [(5, 0)] ∧ reads tr = [77]
      ∧ ∃ place, ReadsHistory 2 (fun _ => 77) tr place := by
  have ho : ¬ relaxed.Publishes := by decide
  obtain ⟨c, h⟩ := unpublished_run ho 0 (fun _ => 77) 4
  have hpayload := pointerfifo_value_payload relaxed 2 (fun _ => 77) (Nat.le_refl 2)
  exact ⟨c, _, h, rfl, rfl, (hpayload.1 _ c _ h).2⟩

/-- A lap later: 5 and 6 are written and read, then 7 is written over 5. -/
def overwritten : List (Action Nat) :=
  [.callWrite 5, .prod 0, .prod 0, .prod 0, .prod 0, .prod 0,
    .callRead, .cons 1, .cons 1, .cons 0, .cons 0, .cons 0,
    .callWrite 6, .prod 2, .prod 0, .prod 0, .prod 0, .prod 0,
    .callRead, .cons 3, .cons 1, .cons 0, .cons 0, .cons 0,
    .callWrite 7, .prod 4, .prod 0, .prod 0, .prod 0, .prod 0,
    .callRead, .cons 5, .cons 1, .cons 0, .cons 0, .cons 0]

-- the item of the lap before is an entry of the history, too
example : (raRun relaxed 2 (fun _ => 77) overwritten).map (fun r => reads r.2)
    = some [5, 6, 5] := rfl

end MulleFifo
