/-
  MulleFifo.ThreadsTermination — the program `threads.c` ends.

  Both threads may sleep instead of using the FIFO, as often as their random
  numbers say, and the heap of others changes all the time.  All that is
  asked of the scheduler is that each thread is AWAKE for a turn again and
  again.

  While `main` reads, the two loops are the transfer of `Completion`, with
  its rank; a thread that sleeps, and the rest of the heap, leave it where it
  is.  When `main` has left its loop three things are ahead: the last return
  of the producer, `done`, and the join.
-/
import MulleFifo.ThreadsProgram

namespace MulleFifo

open Lib

/-! ## §1. Turns of the program. -/

/-- A turn of the program; what is not enabled changes nothing. -/
def threadsTurn (size allocator last : Nat) (s : ThreadsState) (a : ThreadsAction) :
    ThreadsState :=
  ((threadsStep size allocator last s a).map Prod.fst).getD s

/-- The program after malloc has returned `block`. -/
def threadsStarted (size allocator : Nat) (life : Life) (block : Nat) : ThreadsState :=
  { threadsInit life with life := life.init size allocator block, main := .reading }

/-- Each thread is awake for a turn again and again. -/
def Awake (turns : Nat → ThreadsAction) : Prop :=
  ∀ k, (∃ d, turns (k + d) = .producer false) ∧ ∃ d, turns (k + d) = .main false

/-- Each thread is awake for a turn within any `w` consecutive ones. -/
def AwakeWithin (w : Nat) (turns : Nat → ThreadsAction) : Prop :=
  ∀ k, (∃ d < w, turns (k + d) = .producer false) ∧ ∃ d < w, turns (k + d) = .main false

/-- A turn of a side, which may sleep. -/
def Side.turn (sleep : Bool) : Side → ThreadsAction
  | .producer => .producer sleep
  | .consumer => .main sleep

namespace ThreadsState

/-- The transfer, whatever block it is in: nothing below looks at the memory. -/
def loops (last : Nat) (s : ThreadsState) : Transfer := s.asTransfer last 0

/-- The turn that brings the program forward. -/
def helpful (last : Nat) (s : ThreadsState) : ThreadsAction :=
  match s.main with
  | .reading => ((s.loops last).helpful last).turn false
  | .joining => if s.quit then .main false else .producer false
  | _ => .main false

theorem helpful_cases (last : Nat) (s : ThreadsState) :
    s.helpful last = .producer false ∨ s.helpful last = .main false := by
  unfold helpful
  cases s.main with
  | reading =>
      cases (s.loops last).helpful last with
      | producer => exact .inl rfl
      | consumer => exact .inr rfl
  | joining =>
      cases s.quit with
      | true => exact .inr rfl
      | false => exact .inl rfl
  | _ => exact .inr rfl

/-- How far the program is from its end. -/
def rank (last : Nat) (s : ThreadsState) : Nat :=
  match s.main with
  | .reading => (s.loops last).rank last + 5
  | .tearDown => if s.quit then 3 else 4
  | .joining => if s.quit then 1 else 2
  | _ => 0

end ThreadsState

/-! ## §2. Turns while `main` reads. -/

section Reading

variable {size allocator last block : Nat} {tr : List LifeEvent} {s : ThreadsState}

/-- What an enabled turn leads to. -/
theorem threadsTurn_some {a : ThreadsAction} {s' : ThreadsState} {le : LifeEvent}
    (h : threadsStep size allocator last s a = some (s', le)) :
    threadsTurn size allocator last s a = s' := by
  unfold threadsTurn
  rw [h]
  rfl

theorem threadsTurn_none {a : ThreadsAction} (h : threadsStep size allocator last s a = none) :
    threadsTurn size allocator last s a = s := by
  unfold threadsTurn
  rw [h]
  rfl

/-- A program that has begun does not begin again. -/
theorem init_turn (hstart : s.main ≠ .start) (answer : Option Nat) :
    threadsTurn size allocator last s (.init answer) = s := by
  apply threadsTurn_none
  simp only [threadsStep]
  exact if_neg hstart

/-- The producer's step in a program that has begun. -/
theorem threadsStep_producer (hstart : s.main ≠ .start) (haborted : s.main ≠ .aborted)
    (sleep : Bool) :
    threadsStep size allocator last s (.producer sleep) = producerTurn last s sleep := by
  unfold threadsStep
  exact if_neg (not_or.mpr ⟨hstart, haborted⟩)

/-- A producer that has returned is out of the transfer. -/
theorem quit_done (hU : Using size allocator last block tr s) (hquit : s.quit = true) :
    loopAction last (s.asTransfer last block) .producer = none := by
  obtain ⟨garbage, hT⟩ := hU.transfer
  have hcur : s.life.fifo.prod.pc.current <+: s.offer last := hT.current
  have hempty : s.offer last = [] := by
    unfold ThreadsState.offer
    rw [hquit]
    rfl
  have hidle : s.life.fifo.prod.pc = .idle := by
    rw [hempty] at hcur
    cases hpc : s.life.fifo.prod.pc with
    | idle => rfl
    | _ => simp [hpc] at hcur
  have hoffer : (s.asTransfer last block).offer = [] := hempty
  show producerAction _ = none
  unfold producerAction
  rw [hoffer]
  exact if_pos hidle

/-- **A turn awake is a turn of the transfer.** -/
theorem awake_turn (hU : Using size allocator last block tr s) (hmain : s.main = .reading)
    (hlt : s.printed.length < last) (side : Side) :
    (threadsTurn size allocator last s (side.turn false)).asTransfer last block
      = transferTurn last (s.asTransfer last block) side := by
  have hgo {a : Action Unit} (ha : loopAction last (s.asTransfer last block) side = some a)
      (hquit : s.quit = true → a.thread ≠ .producer)
      (hs : threadsStep size allocator last s (side.turn false) = useStep last s a) :
      (threadsTurn size allocator last s (side.turn false)).asTransfer last block
        = transferTurn last (s.asTransfer last block) side := by
    obtain ⟨⟨s', le⟩, huse⟩ := Option.isSome_iff_exists.mp (hU.useStep_isSome ha)
    obtain ⟨c, e, _, rfl, _⟩ := Using.useStep_some huse
    rw [threadsTurn_some (hs.trans huse),
      LoopInv.transferTurn_some (hU.transferStep_eq ha hquit huse)]
  cases side with
  | producer =>
      have hstep : threadsStep size allocator last s (.producer false)
          = producerTurn last s false :=
        threadsStep_producer (by simp [hmain]) (by simp [hmain]) false
      cases hrun : s.quit with
      | true =>
          have hnone : producerTurn last s false = none := by
            unfold producerTurn
            exact if_pos hrun
          rw [LoopInv.transferTurn_none (quit_done hU hrun), Side.turn,
            threadsTurn_none (hstep.trans hnone)]
      | false =>
          rcases hU.producerTurn_cases hrun false with ⟨hsleep, _⟩ | ⟨a, ha, _, hloop⟩
          · exact absurd hsleep Bool.false_ne_true
          · exact hgo ha (fun hquit => by simp [hrun] at hquit) (hstep.trans hloop)
  | consumer =>
      rcases Using.mainTurn_cases block hmain hlt false with
        ⟨hsleep, _⟩ | ⟨a, ha, hthread, hloop⟩
      · exact absurd hsleep Bool.false_ne_true
      · exact hgo ha (fun _ => by rw [hthread]; exact Thread.noConfusion) hloop

/-- The transfer as `Completion` ranks it. -/
theorem loopInv (hU : Using size allocator last block tr s) (hlt : s.printed.length < last) :
    ∃ garbage, LoopInv size garbage (numbers last) (s.asTransfer last block) := by
  obtain ⟨garbage, hT⟩ := hU.transfer
  refine ⟨garbage, ⟨_, hT⟩, ?_⟩
  intro _
  rw [List.length_range']
  exact hlt

/-- `main` has something to receive. -/
theorem not_finished (hlt : s.printed.length < last) :
    ¬ (s.asTransfer last block).Finished (numbers last).length := by
  intro hfinished
  have hnone := hfinished.2
  have hmissing : (s.asTransfer last block).got.length < (numbers last).length := by
    rw [List.length_range']
    exact hlt
  unfold consumerAction at hnone
  rw [if_pos hmissing] at hnone
  split at hnone
  · simp at hnone
  · simp at hnone

end Reading

/-! ## §3. Where `main` goes. -/

section Main

variable {size allocator last : Nat} {s s' : ThreadsState} {a : ThreadsAction} {le : LifeEvent}

/-- Using the FIFO, `main` stays where it is or leaves its loop. -/
theorem after_main (e : Event) :
    (s.after last e).main = s.main ∨ (s.after last e).main = .tearDown := by
  cases e with
  | cons r =>
      cases r with
      | ret pointer =>
          unfold ThreadsState.after
          by_cases hnull : pointer = NULL
          · exact .inl (by simp only [if_pos hnull])
          · by_cases hend : pointer = last
            · exact .inr (by simp only [if_neg hnull, if_pos hend])
            · exact .inl (by simp only [if_neg hnull, if_neg hend])
      | _ => exact .inl rfl
  | prod w => exact .inl (Using.after_producer rfl).1
  | _ => exact .inl rfl

theorem useStep_main {a : Action Unit} (h : useStep last s a = some (s', le)) :
    s'.main = s.main ∨ s'.main = .tearDown := by
  obtain ⟨c, e, _, _, rfl, _⟩ := Using.useStep_some h
  exact after_main e

/-- `main` moves forward: from its loop it goes nowhere but to `done`, and it
never goes back to its start. -/
theorem threadsStep_main (hstart : s.main ≠ .start) (haborted : s.main ≠ .aborted)
    (h : threadsStep size allocator last s a = some (s', le)) :
    s'.main = s.main ∨ s'.main = .tearDown
      ∨ (s.main ≠ .reading ∧ (s'.main = .joining ∨ s'.main = .finished)) := by
  cases a with
  | init answer =>
      simp only [threadsStep] at h
      rw [if_neg hstart] at h
      exact absurd h (by simp)
  | producer sleep =>
      rw [threadsStep_producer hstart haborted] at h
      unfold producerTurn at h
      split at h
      · simp at h
      · split at h
        · exact (useStep_main h).imp_right .inl
        · exact (useStep_main h).imp_right .inl
  | main sleep =>
      have hturn : mainTurn last s sleep = some (s', le) := h
      unfold mainTurn at hturn
      cases hmain : s.main with
      | reading =>
          rw [hmain] at hturn
          simp only at hturn
          split at hturn
          · rw [← hmain]
            exact (useStep_main hturn).imp_right .inl
          · rw [← hmain]
            exact (useStep_main hturn).imp_right .inl
      | tearDown =>
          rw [hmain] at hturn
          obtain ⟨rfl, rfl⟩ := Prod.mk.inj (Option.some.inj hturn)
          exact .inr (.inr ⟨by simp, .inl rfl⟩)
      | joining =>
          rw [hmain] at hturn
          simp only at hturn
          split at hturn
          · obtain ⟨rfl, rfl⟩ := Prod.mk.inj (Option.some.inj hturn)
            exact .inr (.inr ⟨by simp, .inr rfl⟩)
          · simp at hturn
      | _ =>
          rw [hmain] at hturn
          simp at hturn
  | env heap =>
      obtain ⟨rfl, _⟩ := Prod.mk.inj (Option.some.inj h)
      exact .inl rfl

/-- A thread that sleeps passes its turn, or it is in a call and goes on. -/
theorem sleep_turn (side : Side) :
    threadsTurn size allocator last s (side.turn true) = s
      ∨ threadsTurn size allocator last s (side.turn true)
        = threadsTurn size allocator last s (side.turn false) := by
  cases side with
  | producer =>
      by_cases hused : s.main = .start ∨ s.main = .aborted
      · left
        apply threadsTurn_none
        exact if_pos hused
      · rw [not_or] at hused
        by_cases hidle : s.life.fifo.prod.pc = .idle
        · left
          cases hrun : s.quit with
          | true =>
              apply threadsTurn_none
              rw [Side.turn, threadsStep_producer hused.1 hused.2]
              unfold producerTurn
              exact if_pos hrun
          | false =>
              have hsleep : producerTurn last s true = useStep last s (.work .producer 0) := by
                unfold producerTurn
                rw [hrun, if_neg Bool.false_ne_true, if_pos hidle]
                rfl
              have hstep : threadsStep size allocator last s (.producer true)
                  = useStep last s (.work .producer 0) :=
                (threadsStep_producer hused.1 hused.2 true).trans hsleep
              rw [Using.useStep_sleep (show betweenCalls _ _ Thread.producer from hidle)] at hstep
              exact threadsTurn_some hstep
        · right
          have hsame : producerTurn last s true = producerTurn last s false := by
            unfold producerTurn
            rw [if_neg hidle, if_neg hidle]
          unfold threadsTurn Side.turn
          simp only [threadsStep_producer hused.1 hused.2, hsame]
  | consumer =>
      by_cases hidle : s.main = .reading ∧ s.life.fifo.cons.pc = .idle
      · left
        have hsleep : mainTurn last s true = useStep last s (.work .consumer 0) := by
          unfold mainTurn
          rw [hidle.1]
          simp only
          rw [if_pos hidle.2]
          rfl
        rw [Using.useStep_sleep (show betweenCalls _ _ Thread.consumer from hidle.2)] at hsleep
        exact threadsTurn_some hsleep
      · right
        have hsame : mainTurn last s true = mainTurn last s false := by
          unfold mainTurn
          cases hmain : s.main with
          | reading =>
              simp only
              rw [if_neg fun hpc => hidle ⟨hmain, hpc⟩, if_neg fun hpc => hidle ⟨hmain, hpc⟩]
          | _ => rfl
        unfold threadsTurn Side.turn
        simp only [threadsStep, hsame]

end Main

/-! ## §4. The rank of the program. -/

/-- The program from its start on. -/
structure Started (size allocator last : Nat) (s : ThreadsState) : Prop where
  inv : ∃ tr, ThreadsInv size allocator last tr s
  not_start : s.main ≠ .start
  not_aborted : s.main ≠ .aborted

namespace Started

variable {size allocator last : Nat} {s : ThreadsState}

/-- A turn keeps what every step keeps. -/
theorem keep (hlast : 1 ≤ last) (hS : Started size allocator last s) (a : ThreadsAction) :
    Started size allocator last (threadsTurn size allocator last s a) := by
  cases h : threadsStep size allocator last s a with
  | none =>
      rw [threadsTurn_none h]
      exact hS
  | some r =>
      obtain ⟨s', le⟩ := r
      obtain ⟨tr, hT⟩ := hS.inv
      rw [threadsTurn_some h]
      have hnot : s'.main ≠ .start ∧ s'.main ≠ .aborted := by
        rcases threadsStep_main hS.not_start hS.not_aborted h with hsame | htear | ⟨_, hjoin | hend⟩
        · rw [hsame]
          exact ⟨hS.not_start, hS.not_aborted⟩
        · simp [htear]
        · simp [hjoin]
        · simp [hend]
      exact ⟨⟨_, hT.step hlast h⟩, hnot.1, hnot.2⟩

/-- A turn lowers the rank, or changes neither it nor who is helpful. -/
def Advances (last : Nat) (s s' : ThreadsState) : Prop :=
  s'.rank last < s.rank last ∨ (s'.rank last = s.rank last ∧ s'.helpful last = s.helpful last)

/-- Out of its loop, `main` is near the end. -/
theorem rank_reading {s' : ThreadsState} (hmain : s.main = .reading)
    (hmain' : s'.main = .tearDown) : s'.rank last < s.rank last := by
  unfold ThreadsState.rank
  rw [hmain, hmain']
  simp only
  split
  · omega
  · omega

/-- From its loop, `main` goes to `done`. -/
theorem reading_main (hmain : s.main = .reading) (a : ThreadsAction) :
    (threadsTurn size allocator last s a).main = .reading
      ∨ (threadsTurn size allocator last s a).main = .tearDown := by
  cases h : threadsStep size allocator last s a with
  | none =>
      rw [threadsTurn_none h]
      exact .inl hmain
  | some r =>
      obtain ⟨s', le⟩ := r
      rw [threadsTurn_some h]
      rcases threadsStep_main (by simp [hmain]) (by simp [hmain]) h with hsame | htear | ⟨hnot, _⟩
      · exact .inl (hsame.trans hmain)
      · exact .inr htear
      · exact absurd hmain hnot

/-- **While `main` reads**: the turn of the helpful side lowers the rank. -/
theorem reading_lower (hsize : 0 < size) (hS : Started size allocator last s)
    (hmain : s.main = .reading) :
    (threadsTurn size allocator last s (s.helpful last)).rank last < s.rank last := by
  obtain ⟨tr, hT⟩ := hS.inv
  obtain ⟨block, hU, hlt⟩ := (ThreadsInv.reading_iff hmain).mp hT
  obtain ⟨garbage, hL⟩ := loopInv hU hlt
  have hlower := LoopInv.rank_lower hsize Using.numbers_ne hL (not_finished hlt)
  rw [List.length_range'] at hlower
  have hhelp : s.helpful last = ((s.asTransfer last block).helpful last).turn false := by
    unfold ThreadsState.helpful
    rw [hmain]
    rfl
  rw [hhelp]
  generalize (s.asTransfer last block).helpful last = side at hlower
  rcases reading_main hmain (side.turn false) with hread | htear
  · rw [← awake_turn hU hmain hlt side] at hlower
    unfold ThreadsState.rank
    rw [hmain, hread]
    exact Nat.add_lt_add_right hlower 5
  · exact rank_reading hmain htear

/-- A turn awake of any side advances. -/
theorem reading_awake (hsize : 0 < size) (hS : Started size allocator last s)
    (hmain : s.main = .reading) (side : Side) :
    Advances last s (threadsTurn size allocator last s (side.turn false)) := by
  obtain ⟨tr, hT⟩ := hS.inv
  obtain ⟨block, hU, hlt⟩ := (ThreadsInv.reading_iff hmain).mp hT
  obtain ⟨garbage, hL⟩ := loopInv hU hlt
  by_cases hhelp : side = (s.asTransfer last block).helpful last
  · left
    have hlower := hS.reading_lower hsize hmain
    have hhelpful : s.helpful last = side.turn false := by
      unfold ThreadsState.helpful
      rw [hmain, hhelp]
      rfl
    rw [hhelpful] at hlower
    exact hlower
  · rcases reading_main hmain (side.turn false) with hread | htear
    · have hwait : (transferTurn last (s.asTransfer last block) side).rank last
          < (s.asTransfer last block).rank last
          ∨ ((transferTurn last (s.asTransfer last block) side).rank last
              = (s.asTransfer last block).rank last
            ∧ (transferTurn last (s.asTransfer last block) side).helpful last
              = (s.asTransfer last block).helpful last) := by
        have hne : side ≠ (s.asTransfer last block).helpful (numbers last).length := by
          rw [List.length_range']
          exact hhelp
        have hwait := LoopInv.rank_wait Using.numbers_ne hL hne
        rwa [List.length_range'] at hwait
      rw [← awake_turn hU hmain hlt side] at hwait
      rcases hwait with hless | ⟨hrank, hsame⟩
      · left
        unfold ThreadsState.rank
        rw [hmain, hread]
        exact Nat.add_lt_add_right hless 5
      · right
        constructor
        · unfold ThreadsState.rank
          rw [hmain, hread]
          exact congrArg (· + 5) hrank
        · unfold ThreadsState.helpful
          rw [hmain, hread]
          exact congrArg (Side.turn false) hsame
    · exact .inl (rank_reading hmain htear)

/-! After its loop, `main` has to call `done` and to join. -/

theorem rank_tearDown (hmain : s.main = .tearDown) : s.rank last = if s.quit then 3 else 4 := by
  unfold ThreadsState.rank
  rw [hmain]

theorem rank_joining (hmain : s.main = .joining) : s.rank last = if s.quit then 1 else 2 := by
  unfold ThreadsState.rank
  rw [hmain]

theorem helpful_tearDown (hmain : s.main = .tearDown) : s.helpful last = .main false := by
  unfold ThreadsState.helpful
  rw [hmain]

theorem helpful_joining (hmain : s.main = .joining) :
    s.helpful last = if s.quit then .main false else .producer false := by
  unfold ThreadsState.helpful
  rw [hmain]

/-- `main` calls `done`. -/
theorem tearDown_main (hmain : s.main = .tearDown) (sleep : Bool) :
    threadsTurn size allocator last s (.main sleep)
      = { s with life := s.life.done.1, main := .joining } := by
  have hstep : threadsStep size allocator last s (.main sleep)
      = some ({ s with life := s.life.done.1, main := .joining }, s.life.done.2) := by
    simp only [threadsStep]
    unfold mainTurn
    rw [hmain]
  exact threadsTurn_some hstep

/-- `main` joins a producer that has returned. -/
theorem joining_main (hmain : s.main = .joining) (hquit : s.quit = true) (sleep : Bool) :
    threadsTurn size allocator last s (.main sleep) = { s with main := .finished } := by
  have hstep : threadsStep size allocator last s (.main sleep)
      = some ({ s with main := .finished }, .fifo (.work .consumer 1)) := by
    simp only [threadsStep]
    unfold mainTurn
    rw [hmain]
    exact if_pos hquit
  exact threadsTurn_some hstep

/-- It waits for one that has not. -/
theorem joining_wait (hmain : s.main = .joining) (hrun : s.quit = false) (sleep : Bool) :
    threadsTurn size allocator last s (.main sleep) = s := by
  apply threadsTurn_none
  simp only [threadsStep]
  unfold mainTurn
  rw [hmain]
  simp only
  rw [if_neg (by simp [hrun])]

/-- A producer that has returned lets its turn pass. -/
theorem quit_producer (hquit : s.quit = true) (sleep : Bool) :
    threadsTurn size allocator last s (.producer sleep) = s := by
  apply threadsTurn_none
  simp only [threadsStep]
  split
  · rfl
  · unfold producerTurn
    exact if_pos hquit

/-- Late, the producer is resting. -/
theorem late_resting (hS : Started size allocator last s)
    (hlate : s.main = .tearDown ∨ s.main = .joining) : ProducerResting last s := by
  obtain ⟨tr, hT⟩ := hS.inv
  rcases hlate with hmain | hmain
  · obtain ⟨block, hU, hall⟩ := (ThreadsInv.tearDown_iff hmain).mp hT
    exact hU.producer_resting hall
  · exact ((ThreadsInv.joining_iff hmain).mp hT).resting

/-- Its last return. -/
theorem late_producer (hS : Started size allocator last s)
    (hlate : s.main = .tearDown ∨ s.main = .joining) (hrun : s.quit = false) (sleep : Bool) :
    (threadsTurn size allocator last s (.producer sleep)).rank last < s.rank last := by
  have hreturned : (threadsTurn size allocator last s (.producer sleep)).main = s.main
      ∧ (threadsTurn size allocator last s (.producer sleep)).quit = true := by
    rw [threadsTurn_some ((threadsStep_producer hS.not_start hS.not_aborted sleep).trans
      ((hS.late_resting hlate).producerTurn_eq hrun sleep))]
    exact ⟨rfl, rfl⟩
  obtain ⟨hsame, hquit⟩ := hreturned
  rcases hlate with hmain | hmain
  · rw [rank_tearDown (hsame.trans hmain), rank_tearDown hmain, hquit, hrun]
    decide
  · rw [rank_joining (hsame.trans hmain), rank_joining hmain, hquit, hrun]
    decide

/-- `done`, and the join. -/
theorem late_main (hlate : s.main = .tearDown ∨ (s.main = .joining ∧ s.quit = true))
    (sleep : Bool) : (threadsTurn size allocator last s (.main sleep)).rank last < s.rank last := by
  rcases hlate with hmain | ⟨hmain, hquit⟩
  · rw [tearDown_main hmain, rank_tearDown hmain, rank_joining rfl]
    show (if s.quit then 1 else 2) < if s.quit then 3 else 4
    split
    · decide
    · decide
  · rw [joining_main hmain hquit, rank_joining hmain, hquit]
    exact Nat.one_pos

/-- **After its loop**: the turn of the helpful thread lowers the rank. -/
theorem late_lower (hS : Started size allocator last s)
    (hlate : s.main = .tearDown ∨ s.main = .joining) :
    (threadsTurn size allocator last s (s.helpful last)).rank last < s.rank last := by
  rcases hlate with hmain | hmain
  · rw [helpful_tearDown hmain]
    exact late_main (.inl hmain) false
  · rw [helpful_joining hmain]
    cases hquit : s.quit with
    | true => exact late_main (.inr ⟨hmain, hquit⟩) false
    | false => exact hS.late_producer (.inr hmain) hquit false

/-- Every turn advances. -/
theorem late_advances (hS : Started size allocator last s)
    (hlate : s.main = .tearDown ∨ s.main = .joining) (side : Side) (sleep : Bool) :
    Advances last s (threadsTurn size allocator last s (side.turn sleep)) := by
  cases hquit : s.quit with
  | true =>
      cases side with
      | producer =>
          rw [Side.turn, quit_producer hquit]
          exact .inr ⟨rfl, rfl⟩
      | consumer => exact .inl (late_main (hlate.imp_right fun hmain => ⟨hmain, hquit⟩) sleep)
  | false =>
      cases side with
      | producer => exact .inl (hS.late_producer hlate hquit sleep)
      | consumer =>
          rcases hlate with hmain | hmain
          · exact .inl (late_main (.inl hmain) sleep)
          · rw [Side.turn, joining_wait hmain hquit]
            exact .inr ⟨rfl, rfl⟩

/-! Both together. -/

/-- Where a program that has begun and is not finished is. -/
theorem main_cases (hS : Started size allocator last s) (hnot : s.main ≠ .finished) :
    s.main = .reading ∨ s.main = .tearDown ∨ s.main = .joining := by
  cases hmain : s.main with
  | start => exact absurd hmain hS.not_start
  | aborted => exact absurd hmain hS.not_aborted
  | finished => exact absurd hmain hnot
  | _ => simp

/-- **The turn of the helpful thread lowers the rank.** -/
theorem lower (hsize : 0 < size) (hS : Started size allocator last s)
    (hnot : s.main ≠ .finished) :
    (threadsTurn size allocator last s (s.helpful last)).rank last < s.rank last := by
  rcases hS.main_cases hnot with hread | hlate
  · exact hS.reading_lower hsize hread
  · exact hS.late_lower hlate

/-- **No turn takes it back.** -/
theorem advances (hsize : 0 < size) (hS : Started size allocator last s)
    (hnot : s.main ≠ .finished) (a : ThreadsAction) :
    Advances last s (threadsTurn size allocator last s a) := by
  have hside (side : Side) (sleep : Bool) :
      Advances last s (threadsTurn size allocator last s (side.turn sleep)) := by
    rcases hS.main_cases hnot with hread | hlate
    · cases sleep with
      | false => exact hS.reading_awake hsize hread side
      | true =>
          rcases @sleep_turn size allocator last s side with hsame | hawake
          · rw [hsame]
            exact .inr ⟨rfl, rfl⟩
          · rw [hawake]
            exact hS.reading_awake hsize hread side
    · exact hS.late_advances hlate side sleep
  cases a with
  | init answer =>
      rw [init_turn hS.not_start]
      exact .inr ⟨rfl, rfl⟩
  | producer sleep => exact hside .producer sleep
  | main sleep => exact hside .consumer sleep
  | env heap => exact .inr ⟨rfl, rfl⟩

/-- The rank of the program. -/
def ranking (hsize : 0 < size) (hlast : 1 ≤ last) :
    Ranking (threadsTurn size allocator last) (Started size allocator last)
      (fun s => s.main = .finished) where
  rank := ThreadsState.rank last
  helpful := ThreadsState.helpful last
  lower _ hS hnot := hS.lower hsize hnot
  wait _ a hS hnot _ := hS.advances hsize hnot a
  keep _ a hS := hS.keep hlast a

/-- A finished program stays as it is, the heap of others apart. -/
theorem finished_stay (hS : Started size allocator last s)
    (hmain : s.main = .finished) (a : ThreadsAction) :
    (threadsTurn size allocator last s a).main = .finished := by
  obtain ⟨tr, hT⟩ := hS.inv
  have hquit := ((ThreadsInv.finished_iff hmain).mp hT).2
  cases a with
  | init answer =>
      rw [init_turn hS.not_start]
      exact hmain
  | producer sleep =>
      rw [quit_producer hquit]
      exact hmain
  | main sleep =>
      have hnone : threadsStep size allocator last s (.main sleep) = none := by
        simp only [threadsStep]
        unfold mainTurn
        rw [hmain]
      rw [threadsTurn_none hnone]
      exact hmain
  | env heap => exact hmain

end Started

/-! ## §5. The theorem. -/

/-- Where the program starts, with all numbers ahead of it. -/
theorem threadsStarted_started (size allocator : Nat) {last : Nat} (hlast : 1 ≤ last) (life : Life)
    (block : Nat) : Started size allocator last (threadsStarted size allocator life block) where
  inv := ⟨_, (ThreadsInv.init size allocator last life).step_init hlast rfl block⟩
  not_start := MainPc.noConfusion
  not_aborted := MainPc.noConfusion

theorem rank_threadsStarted (size allocator last : Nat) (life : Life) (block : Nat) :
    (threadsStarted size allocator life block).rank last = 28 * last + 10 := by
  have hrank := rank_transferInit size (life.fifo.mem.heap 0) (numbers last)
  rw [List.length_range'] at hrank
  have hloops : (threadsStarted size allocator life block).loops last
      = transferInit size (life.fifo.mem.heap 0) (numbers last) := rfl
  show ((threadsStarted size allocator life block).loops last).rank last + 5 = _
  rw [hloops, hrank]

/-- **THE PROGRAM ENDS.**  Once malloc has returned, and however the threads
sleep and take turns: if each of them is awake again and again, `main`
returns, having printed 1, 2, …, `last`.  If each is awake once in any `w`
consecutive turns, it has returned after `w * (28 * last + 10)` turns. -/
theorem threads_terminates (size allocator last : Nat) (hsize : 0 < size) (hlast : 1 ≤ last)
    (life : Life) (block : Nat) (turns : Nat → ThreadsAction) :
    (Awake turns → ∃ k, ∀ j ≥ k,
        (afterTurns (threadsTurn size allocator last) (threadsStarted size allocator life block)
          turns j).main = .finished
          ∧ (afterTurns (threadsTurn size allocator last) (threadsStarted size allocator life block)
            turns j).printed = numbers last)
      ∧ ∀ w, AwakeWithin w turns → ∀ j ≥ w * (28 * last + 10),
        (afterTurns (threadsTurn size allocator last) (threadsStarted size allocator life block)
          turns j).main = .finished
          ∧ (afterTurns (threadsTurn size allocator last) (threadsStarted size allocator life block)
            turns j).printed = numbers last := by
  have h0 := threadsStarted_started size allocator hlast life block
  let R : Ranking (threadsTurn size allocator last) (Started size allocator last)
      (fun s => s.main = .finished) := Started.ranking hsize hlast
  have hhelpful (s : ThreadsState) : R.helpful s = .producer false ∨ R.helpful s = .main false :=
    ThreadsState.helpful_cases last s
  -- once finished, finished with everything
  have hafter (k : Nat)
      (hdone : (afterTurns (threadsTurn size allocator last)
        (threadsStarted size allocator life block) turns k).main = .finished) (j : Nat)
      (hkj : k ≤ j) :
      (afterTurns (threadsTurn size allocator last) (threadsStarted size allocator life block)
        turns j).main = .finished
        ∧ (afterTurns (threadsTurn size allocator last) (threadsStarted size allocator life block)
          turns j).printed = numbers last := by
    have hfinished := afterTurns_keep_from
      (P := fun s => Started size allocator last s ∧ s.main = .finished) hkj
      ⟨afterTurns_keep h0 R.keep k, hdone⟩
      (fun s a hs => ⟨hs.1.keep hlast a, hs.1.finished_stay hs.2 a⟩)
    obtain ⟨⟨⟨tr, hT⟩, _, _⟩, hmain⟩ := hfinished
    exact ⟨hmain, ((ThreadsInv.finished_iff hmain).mp hT).1.printed⟩
  constructor
  · intro hawake
    have hfair (s : ThreadsState) (k : Nat) : ∃ d, turns (k + d) = R.helpful s := by
      rcases hhelpful s with hside | hside
      · rw [hside]
        exact (hawake k).1
      · rw [hside]
        exact (hawake k).2
    obtain ⟨k, hdone⟩ := R.eventually_done h0 hfair
    exact ⟨k, hafter k hdone⟩
  · intro w hawake j hj
    have hfair (s : ThreadsState) (k : Nat) : ∃ d < w, turns (k + d) = R.helpful s := by
      rcases hhelpful s with hside | hside
      · rw [hside]
        exact (hawake k).1
      · rw [hside]
        exact (hawake k).2
    obtain ⟨k, hk, hdone⟩ := R.done_within h0 hfair
    have hrank : R.rank (threadsStarted size allocator life block) = 28 * last + 10 :=
      rank_threadsStarted size allocator last life block
    rw [hrank] at hk
    exact hafter k hdone j (hk.trans hj)

/-- Awake every fourth turn, with others writing to the heap in between. -/
def drowsy (k : Nat) : ThreadsAction :=
  if k % 4 = 0 then .producer false
  else if k % 4 = 1 then .main true
  else if k % 4 = 2 then .main false
  else .env fun _ _ => k

/-- The whole program of the source: a FIFO of 100 pointers, and 1024 of them. -/
theorem drowsy_terminates :
    (afterTurns (threadsTurn 100 0 1024) (threadsStarted 100 0 rawLife 7) drowsy 114728).printed
      = numbers 1024 := by
  have hawake : AwakeWithin 4 drowsy := by
    intro k
    constructor
    · refine ⟨(4 - k % 4) % 4, Nat.mod_lt _ (by decide), ?_⟩
      have hzero : (k + (4 - k % 4) % 4) % 4 = 0 := by omega
      unfold drowsy
      rw [if_pos hzero]
    · refine ⟨(6 - k % 4) % 4, Nat.mod_lt _ (by decide), ?_⟩
      have htwo : (k + (6 - k % 4) % 4) % 4 = 2 := by omega
      unfold drowsy
      simp only [htwo]
      rfl
  exact ((threads_terminates 100 0 1024 (by decide) (by decide) rawLife 7 drowsy).2 4 hawake
    114728 (by decide)).2

end MulleFifo
