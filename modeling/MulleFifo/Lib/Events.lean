/-
  MulleFifo.Lib.Events — addressing the events of a trace.

  A trace is a list of events.  An event is addressed by its position, by
  the split of the trace around it, or by what it is: `NthAt f tr k i` says
  that the `k`-th event (from 0) that `f` picks is at position `i`.  The
  lemmas of `NthAt` turn counting into ordering:

    • fewer than `k + 1` picked so far — the `k`-th is still to come,
    • more than `k` picked so far      — the `k`-th is behind.

  `momentOf f tr k` is the moment right after the first `k` of them.

  `InCalls` says that what one thread showed is a list of whole calls and
  the beginning of one more.
-/
import Mathlib.Data.List.Induction

namespace Lib

variable {ε β : Type*}

/-! ## §1. Positions. -/

/-- A trace around one of its events. -/
theorem exists_split {tr : List ε} {i : Nat} {e : ε} (h : tr[i]? = some e) :
    ∃ pre post, tr = pre ++ e :: post ∧ pre.length = i := by
  obtain ⟨hlt, rfl⟩ := List.getElem?_eq_some_iff.mp h
  refine ⟨tr.take i, tr.drop (i + 1), ?_, by simp; omega⟩
  rw [← List.drop_eq_getElem_cons hlt, List.take_append_drop]

/-- Positions behind an event are positions of the rest. -/
theorem getElem?_after (pre post : List ε) (e : ε) (i : Nat) :
    (pre ++ e :: post)[pre.length + 1 + i]? = post[i]? := by
  rw [List.getElem?_append_right (by omega)]
  have hidx : pre.length + 1 + i - pre.length = i + 1 := by omega
  rw [hidx, List.getElem?_cons_succ]

/-- A part of a trace, taken apart around one of its events. -/
theorem split_around (pre before after post : List ε) (e : ε) :
    pre ++ (before ++ e :: after) ++ post = (pre ++ before) ++ e :: (after ++ post) := by
  rw [← List.append_assoc, List.append_assoc, List.cons_append]

/-- An element of a list with one more is an old one or the new one. -/
theorem getElem?_snoc {xs : List β} {x y : β} {i : Nat} (h : (xs ++ [x])[i]? = some y) :
    xs[i]? = some y ∨ (i = xs.length ∧ y = x) := by
  by_cases hi : i < xs.length
  · left
    rw [List.getElem?_append_left hi] at h
    exact h
  · right
    have hlast : i = xs.length := by
      have hlt := (List.getElem?_eq_some_iff.mp h).1
      rw [List.length_append, List.length_singleton] at hlt
      omega
    rw [hlast, List.getElem?_concat_length, Option.some.injEq] at h
    exact ⟨hlast, h.symm⟩

/-- What a prefix holds at a position, the list holds there. -/
theorem getElem?_of_prefix {xs ys : List β} {i : Nat} {x : β} (h : xs <+: ys)
    (hx : xs[i]? = some x) : ys[i]? = some x := by
  obtain ⟨rest, rfl⟩ := h
  rw [List.getElem?_append_left (List.getElem?_eq_some_iff.mp hx).1]
  exact hx

/-- A prefix and the next element are a prefix. -/
theorem prefix_snoc {xs ys : List β} {x : β} (h : xs <+: ys) (hx : ys[xs.length]? = some x) :
    xs ++ [x] <+: ys := by
  obtain ⟨rest, rfl⟩ := h
  rw [List.getElem?_append_right (Nat.le_refl _), Nat.sub_self] at hx
  cases rest with
  | nil => simp at hx
  | cons y rest =>
      rw [List.getElem?_cons_zero, Option.some.injEq] at hx
      rw [hx]
      exact (List.prefix_append_right_inj _).mpr ⟨rest, rfl⟩

/-- The first `n` elements, by position. -/
theorem forall_mem_take {xs : List β} {n : Nat} {P : β → Prop}
    (h : ∀ i x, xs[i]? = some x → i < n → P x) : ∀ x ∈ xs.take n, P x := by
  intro x hx
  obtain ⟨i, hi⟩ := List.getElem?_of_mem hx
  have hlt : i < n := by
    have hlen := (List.getElem?_eq_some_iff.mp hi).1
    rw [List.length_take] at hlen
    omega
  rw [List.getElem?_take_of_lt hlt] at hi
  exact h i x hi hlt

/-- A property of all positions below the length, with one element more. -/
theorem forall_lt_snoc {xs : List β} {x : β} {P : Nat → Prop} (h : ∀ k < xs.length, P k)
    (hlast : P xs.length) : ∀ k < (xs ++ [x]).length, P k := by
  intro k hk
  rw [List.length_append, List.length_singleton] at hk
  by_cases hk' : k < xs.length
  · exact h k hk'
  · obtain rfl : k = xs.length := by omega
    exact hlast

/-! ## §2. The `k`-th event of a kind. -/

/-- Position `i` of the trace holds the `k`-th event (from 0) that `f` picks. -/
def NthAt (f : ε → Option β) (tr : List ε) (k i : Nat) : Prop :=
  ∃ pre e post, tr = pre ++ e :: post ∧ pre.length = i ∧ (f e).isSome = true
    ∧ (pre.filterMap f).length = k

/-- The `k`-th event, by looking it up and counting. -/
theorem NthAt.of_getElem? {f : ε → Option β} {tr : List ε} {i : Nat} {e : ε}
    (h : tr[i]? = some e) (he : (f e).isSome = true) :
    NthAt f tr ((tr.take i).filterMap f).length i := by
  obtain ⟨pre, post, rfl, rfl⟩ := exists_split h
  exact ⟨pre, e, post, rfl, rfl, he, by rw [List.take_left]⟩

theorem NthAt.getElem? {f : ε → Option β} {tr : List ε} {k i : Nat} (h : NthAt f tr k i) :
    ∃ e, tr[i]? = some e ∧ (f e).isSome = true := by
  obtain ⟨pre, e, post, rfl, rfl, he, _⟩ := h
  exact ⟨e, by simp, he⟩

/-- Fewer than `k` picked so far: the `k`-th is still to come. -/
theorem NthAt.length_le {f : ε → Option β} {pre post : List ε} {k i : Nat}
    (h : NthAt f (pre ++ post) k i) (hk : (pre.filterMap f).length ≤ k) : pre.length ≤ i := by
  obtain ⟨pre', e, post', htr, rfl, he, hcount⟩ := h
  refine Nat.le_of_not_lt fun hlt => ?_
  have hle : pre' ++ [e] <+: pre := by
    refine List.prefix_of_prefix_length_le ?_ (List.prefix_append pre post) (by simpa [Nat.succ_le_iff] using hlt)
    rw [htr]
    exact ⟨post', by simp⟩
  have hmono := (hle.filterMap f).length_le
  obtain ⟨x, hx⟩ := Option.isSome_iff_exists.mp he
  simp only [List.filterMap_append, List.length_append, hcount, List.filterMap_cons, hx,
    List.filterMap_nil, List.length_singleton] at hmono
  omega

/-- Fewer than `k + 1` picked so far, and the next event is not picked
either: the `k`-th is still to come. -/
theorem NthAt.length_lt {f : ε → Option β} {pre post : List ε} {e : ε} {k i : Nat}
    (h : NthAt f (pre ++ e :: post) k i) (hk : (pre.filterMap f).length ≤ k) (he : f e = none) :
    pre.length < i := by
  have hassoc : pre ++ e :: post = (pre ++ [e]) ++ post := by simp
  rw [hassoc] at h
  have hle := h.length_le (by simpa [he] using hk)
  rw [List.length_append, List.length_singleton] at hle
  exact hle

/-- More than `k` picked so far: the `k`-th is among them. -/
theorem exists_nthAt_lt {f : ε → Option β} {pre : List ε} {k : Nat} (post : List ε)
    (hk : k < (pre.filterMap f).length) : ∃ i, i < pre.length ∧ NthAt f (pre ++ post) k i := by
  induction pre using List.reverseRecOn generalizing post with
  | nil => simp at hk
  | append_singleton pre e ih =>
      by_cases hlt : k < (pre.filterMap f).length
      · obtain ⟨i, hi, hnth⟩ := ih (e :: post) hlt
        refine ⟨i, by simp; omega, ?_⟩
        rw [List.append_assoc]
        exact hnth
      · -- the last event is the `k`-th
        cases hf : f e with
        | none =>
            simp only [List.filterMap_append, List.filterMap_cons, hf, List.filterMap_nil,
              List.append_nil] at hk
            exact absurd hk hlt
        | some x =>
            simp only [List.filterMap_append, List.filterMap_cons, hf, List.filterMap_nil,
              List.length_append, List.length_singleton] at hk
            exact ⟨pre.length, by simp, pre, e, post, by simp, rfl, by simp [hf], by omega⟩

/-- There is one `k`-th event only. -/
theorem NthAt.unique {f : ε → Option β} {tr : List ε} {k i j : Nat} (hi : NthAt f tr k i)
    (hj : NthAt f tr k j) : i = j := by
  have hi' := hi
  have hj' := hj
  obtain ⟨pre, e, post, rfl, rfl, he, hcount⟩ := hi
  obtain ⟨pre', e', post', htr, rfl, he', hcount'⟩ := hj
  apply Nat.le_antisymm
  · exact hj'.length_le (Nat.le_of_eq hcount)
  · rw [htr] at hi'
    exact hi'.length_le (Nat.le_of_eq hcount')

/-- Where there is a `k`-th event there are all before it. -/
theorem NthAt.exists_le {f : ε → Option β} {tr : List ε} {k k' i : Nat} (h : NthAt f tr k i)
    (hk : k' ≤ k) : ∃ i', i' ≤ i ∧ NthAt f tr k' i' := by
  rcases Nat.eq_or_lt_of_le hk with rfl | hlt
  · exact ⟨i, Nat.le_refl i, h⟩
  · obtain ⟨pre, e, post, rfl, rfl, he, hcount⟩ := h
    obtain ⟨i', hi', hnth⟩ := exists_nthAt_lt (e :: post) (by rw [hcount]; exact hlt)
    exact ⟨i', Nat.le_of_lt hi', hnth⟩

/-- What `f` collected at index `k` was shown by the `k`-th event it picks. -/
theorem exists_split_of_filterMap {f : ε → Option β} {tr : List ε} {k : Nat} {x : β}
    (h : (tr.filterMap f)[k]? = some x) :
    ∃ pre e post, tr = pre ++ e :: post ∧ f e = some x ∧ (pre.filterMap f).length = k := by
  have hlt : k < (tr.filterMap f).length := (List.getElem?_eq_some_iff.mp h).1
  obtain ⟨i, _, hnth⟩ := exists_nthAt_lt [] hlt
  rw [List.append_nil] at hnth
  obtain ⟨pre, e, post, rfl, _, he, hcount⟩ := hnth
  refine ⟨pre, e, post, rfl, ?_, hcount⟩
  obtain ⟨y, hy⟩ := Option.isSome_iff_exists.mp he
  rw [List.filterMap_append, List.getElem?_append_right (Nat.le_of_eq hcount), hcount,
    Nat.sub_self, List.filterMap_cons, hy] at h
  rw [hy]
  exact h

/-! ## §3. The moment right after. -/

/-- The position right after the first `k` events that `f` picks; the end of
the trace when there are fewer. -/
def momentOf (f : ε → Option β) : List ε → Nat → Nat
  | [], _ => 0
  | _ :: _, 0 => 0
  | e :: tr, k + 1 => if (f e).isSome then momentOf f tr k + 1 else momentOf f tr (k + 1) + 1

theorem momentOf_le (f : ε → Option β) (tr : List ε) (k : Nat) : momentOf f tr k ≤ tr.length := by
  induction tr generalizing k with
  | nil => exact Nat.le_refl 0
  | cons e tr ih =>
      cases k with
      | zero => exact Nat.zero_le _
      | succ k =>
          unfold momentOf
          split
          · exact Nat.succ_le_succ (ih k)
          · exact Nat.succ_le_succ (ih (k + 1))

/-- More events are there later. -/
theorem momentOf_mono (f : ε → Option β) (tr : List ε) {j k : Nat} (h : j ≤ k) :
    momentOf f tr j ≤ momentOf f tr k := by
  induction tr generalizing j k with
  | nil => exact Nat.le_refl 0
  | cons e tr ih =>
      cases j with
      | zero => exact Nat.zero_le _
      | succ j =>
          obtain ⟨k, rfl⟩ : ∃ k', k = k' + 1 := ⟨k - 1, by omega⟩
          unfold momentOf
          split
          · exact Nat.succ_le_succ (ih (Nat.le_of_succ_le_succ h))
          · exact Nat.succ_le_succ (ih h)

/-- **At that moment** these events were there, and no others that `f` picks. -/
theorem filterMap_momentOf (f : ε → Option β) {tr : List ε} {k : Nat}
    (h : k ≤ (tr.filterMap f).length) :
    (tr.take (momentOf f tr k)).filterMap f = (tr.filterMap f).take k := by
  induction tr generalizing k with
  | nil => simp
  | cons e tr ih =>
      cases k with
      | zero => simp [momentOf]
      | succ k =>
          unfold momentOf
          cases hf : f e with
          | none =>
              rw [List.filterMap_cons_none hf] at h ⊢
              simp only [Option.isSome_none, Bool.false_eq_true, if_false]
              rw [List.take_succ_cons, List.filterMap_cons_none hf]
              exact ih h
          | some x =>
              rw [List.filterMap_cons_some hf] at h ⊢
              simp only [Option.isSome_some, if_true]
              rw [List.take_succ_cons, List.filterMap_cons_some hf, List.take_succ_cons]
              rw [ih (Nat.le_of_succ_le_succ h)]

/-- A later event does not move it. -/
theorem momentOf_append (f : ε → Option β) {pre : List ε} (post : List ε) {k : Nat}
    (h : k ≤ (pre.filterMap f).length) : momentOf f (pre ++ post) k = momentOf f pre k := by
  induction pre generalizing k with
  | nil =>
      obtain rfl : k = 0 := Nat.le_zero.mp h
      cases post <;> rfl
  | cons e pre ih =>
      cases k with
      | zero => rfl
      | succ k =>
          rw [List.cons_append]
          unfold momentOf
          cases hf : f e with
          | none =>
              rw [List.filterMap_cons_none hf] at h
              simp only [Option.isSome_none, Bool.false_eq_true, if_false]
              rw [ih h]
          | some x =>
              rw [List.filterMap_cons_some hf] at h
              simp only [Option.isSome_some, if_true]
              rw [ih (Nat.le_of_succ_le_succ h)]

/-! ## §4. The calls of one thread. -/

section Calls

variable {ω κ : Type*} {own : ε → Option ω} {result : ε → Option β} {events : κ → List ω}
  {value : κ → β} {opened opened' : List ω → Prop} {tr : List ε} {e : ε} {w : ω}

/-- The events that `own` picks are whole calls, whose results `result`
picks, and the beginning of one more. -/
def InCalls (own : ε → Option ω) (result : ε → Option β) (events : κ → List ω) (value : κ → β)
    (opened : List ω → Prop) (tr : List ε) : Prop :=
  ∃ (calls : List κ) (rest : List ω), tr.filterMap own = calls.flatMap events ++ rest
    ∧ tr.filterMap result = calls.map value ∧ opened rest

theorem InCalls.init (h : opened []) : InCalls own result events value opened [] :=
  ⟨[], [], rfl, rfl, h⟩

/-- A step inside a call. -/
theorem InCalls.go (h : InCalls own result events value opened tr) (he : own e = some w)
    (hres : result e = none) (hopen : ∀ rest, opened rest → opened' (rest ++ [w])) :
    InCalls own result events value opened' (tr ++ [e]) := by
  obtain ⟨calls, rest, hown, hresults, hrest⟩ := h
  refine ⟨calls, rest ++ [w], ?_, ?_, hopen rest hrest⟩
  · rw [List.filterMap_append, hown, List.filterMap_cons_some he, List.filterMap_nil,
      List.append_assoc]
  · rw [List.filterMap_append, hresults, List.filterMap_cons_none hres, List.filterMap_nil,
      List.append_nil]

/-- The last step of a call. -/
theorem InCalls.ret (h : InCalls own result events value opened tr) (he : own e = some w)
    {x : β} (hres : result e = some x)
    (hcall : ∀ rest, opened rest → ∃ call, events call = rest ++ [w] ∧ value call = x)
    (hnil : opened' []) : InCalls own result events value opened' (tr ++ [e]) := by
  obtain ⟨calls, rest, hown, hresults, hrest⟩ := h
  obtain ⟨call, hevents, hvalue⟩ := hcall rest hrest
  refine ⟨calls ++ [call], [], ?_, ?_, hnil⟩
  · rw [List.filterMap_append, hown, List.filterMap_cons_some he, List.filterMap_nil,
      List.flatMap_append, List.flatMap_singleton, hevents, List.append_nil, List.append_assoc]
  · rw [List.filterMap_append, hresults, List.filterMap_cons_some hres, List.filterMap_nil,
      List.map_append, List.map_singleton, hvalue]

/-- A step of another thread. -/
theorem InCalls.others (h : InCalls own result events value opened tr) (he : own e = none)
    (hres : result e = none) : InCalls own result events value opened (tr ++ [e]) := by
  obtain ⟨calls, rest, hown, hresults, hrest⟩ := h
  refine ⟨calls, rest, ?_, ?_, hrest⟩
  · rw [List.filterMap_append, hown, List.filterMap_cons_none he, List.filterMap_nil,
      List.append_nil]
  · rw [List.filterMap_append, hresults, List.filterMap_cons_none hres, List.filterMap_nil,
      List.append_nil]

/-- Calls are not long. -/
theorem InCalls.length_le (h : InCalls own result events value opened tr) {most left : Nat}
    (hcalls : ∀ call, (events call).length ≤ most)
    (hopen : ∀ rest, opened rest → rest.length ≤ left) :
    (tr.filterMap own).length ≤ most * (tr.filterMap result).length + left := by
  obtain ⟨calls, rest, hown, hresults, hrest⟩ := h
  have hflat : (calls.flatMap events).length ≤ most * calls.length := by
    clear hown hresults
    induction calls with
    | nil => exact Nat.zero_le _
    | cons call calls ih =>
        rw [List.flatMap_cons, List.length_append, List.length_cons, Nat.mul_succ, Nat.add_comm]
        exact Nat.add_le_add ih (hcalls call)
  rw [hown, hresults, List.length_append, List.length_map]
  exact Nat.add_le_add hflat (hopen rest hrest)

end Calls

end Lib
