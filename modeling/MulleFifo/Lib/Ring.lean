/-
  MulleFifo.Lib.Ring — what a ring of cells holds after a list of stores.

  The `k`-th store of a ring of `size` cells goes to cell `k % size`.
  Positions are therefore unbounded and cells are positions mod `size`:

    • `mod_ne_of_window` — two positions less than `size` apart are two
      different cells,
    • `contents`         — the cells after a list of stores, over arbitrary
      initial cells,
    • `contents_window`  — the newest `size` stores are all still there,
    • `contents_eq`      — a cell holds the last item that was stored there,
      or its initial value,
    • `history`          — everything a cell ever held, oldest first: its
      initial value, then one item for each lap,
    • `history_window`   — among the newest `size` items, nothing in the
      history of the item's cell is newer than the item.
-/
import Mathlib.Data.List.Induction
import Mathlib.Data.Nat.ModEq
import Mathlib.Logic.Function.Basic

namespace Lib.Ring

variable {α : Type*}

/-! ## §1. Positions and cells. -/

/-- Two positions less than `size` apart are two different cells. -/
theorem mod_ne_of_window {size i j : Nat} (hij : i < j) (hj : j < i + size) :
    i % size ≠ j % size := by
  intro h
  have hdvd : size ∣ j - i := (Nat.modEq_iff_dvd' (Nat.le_of_lt hij)).mp h
  have hle : size ≤ j - i := Nat.le_of_dvd (by omega) hdvd
  omega

/-- Going `d` cells back from the cell of position `i + d`. -/
theorem back_mod {size d : Nat} (i : Nat) (hd : d ≤ size) :
    ((i + d) % size + size - d) % size = i % size := by
  have hback : (i + d) % size + size - d = (i + d) % size + (size - d) := by omega
  have hround : i + d + (size - d) = i + size := by omega
  rw [hback, Nat.mod_add_mod, hround, Nat.add_mod_right]

/-! ## §2. The cells after a list of stores. -/

/-- The cells after storing `xs` one by one, the `k`-th into `k % size`. -/
def contents (size : Nat) (init : Nat → α) (xs : List α) : Nat → α :=
  xs.zipIdx.foldl (fun cells x => Function.update cells (x.2 % size) x.1) init

/-- One more store. -/
theorem contents_snoc (size : Nat) (init : Nat → α) (xs : List α) (x : α) :
    contents size init (xs ++ [x])
      = Function.update (contents size init xs) (xs.length % size) x := by
  simp [contents, List.zipIdx_append]

/-- **The window**: among the newest `size` stores, none has been
overwritten. -/
theorem contents_window {size : Nat} (init : Nat → α) {xs : List α} {k : Nat}
    (hk : k < xs.length) (hwin : xs.length ≤ k + size) :
    contents size init xs (k % size) = xs[k] := by
  induction xs using List.reverseRecOn with
  | nil => simp at hk
  | append_singleton xs x ih =>
      simp only [List.length_append, List.length_singleton] at hk hwin
      rw [contents_snoc]
      by_cases hlast : k = xs.length
      · subst hlast
        simp
      · have hlt : k < xs.length := by omega
        have hne : k % size ≠ xs.length % size := mod_ne_of_window hlt (by omega)
        rw [Function.update_of_ne hne, ih hlt (by omega), List.getElem_append_left hlt]

/-- The last item that was stored into cell `i`, if there is one. -/
def lastAt (size : Nat) (xs : List α) (i : Nat) : Option α :=
  ((xs.zipIdx.filter fun x => x.2 % size = i).map Prod.fst).getLast?

/-- One more store: it is the last one of its cell. -/
theorem lastAt_snoc (size : Nat) (xs : List α) (x : α) (i : Nat) :
    lastAt size (xs ++ [x]) i = if xs.length % size = i then some x else lastAt size xs i := by
  unfold lastAt
  rw [List.zipIdx_append, List.filter_append, List.map_append]
  by_cases hi : xs.length % size = i
  · simp [hi]
  · simp [hi]

/-- **The closed form of the cells**: what was stored last, or nothing. -/
theorem contents_eq (size : Nat) (init : Nat → α) (xs : List α) (i : Nat) :
    contents size init xs i = (lastAt size xs i).getD (init i) := by
  induction xs using List.reverseRecOn with
  | nil => rfl
  | append_singleton xs x ih =>
      rw [contents_snoc, lastAt_snoc]
      by_cases hi : xs.length % size = i
      · subst hi
        rw [Function.update_self, if_pos rfl, Option.getD_some]
      · rw [Function.update_of_ne (Ne.symm hi), if_neg hi, ih]

/-! ## §3. The history of a cell. -/

/-- Everything cell `i` held while `xs` was stored one by one, oldest first. -/
def history (size : Nat) (init : Nat → α) (xs : List α) (i : Nat) : List α :=
  init i :: (xs.zipIdx.filter fun x => x.2 % size = i).map Prod.fst

/-- One more store joins the history of its cell. -/
theorem history_snoc (size : Nat) (init : Nat → α) (xs : List α) (x : α) (i : Nat) :
    history size init (xs ++ [x]) i
      = history size init xs i ++ if xs.length % size = i then [x] else [] := by
  unfold history
  rw [List.zipIdx_append, List.filter_append, List.map_append]
  by_cases hi : xs.length % size = i
  · simp [hi]
  · simp [hi]

/-- More stores only add to the history of a cell. -/
theorem history_prefix (size : Nat) (init : Nat → α) {xs ys : List α} (h : xs <+: ys) (i : Nat) :
    history size init xs i <+: history size init ys i := by
  obtain ⟨zs, rfl⟩ := h
  unfold history
  rw [List.zipIdx_append, List.filter_append, List.map_append, ← List.cons_append]
  exact List.prefix_append _ _

/-- The history of the cell that is stored next, when every item stands at
its lap: as long as there were laps. -/
theorem history_length_of {size : Nat} {init : Nat → α} {xs : List α}
    (h : ∀ k, (history size init xs (k % size))[k / size + 1]? = xs[k]?) :
    (history size init xs (xs.length % size)).length = xs.length / size + 1 := by
  have hnone := h xs.length
  rw [List.getElem?_eq_none (Nat.le_refl _), List.getElem?_eq_none_iff] at hnone
  apply Nat.le_antisymm hnone
  by_cases hlap : xs.length / size = 0
  · -- the first lap: there is the initial value
    rw [hlap]
    exact Nat.succ_pos _
  · -- a later lap: there is the item of the lap before
    have hpos : 0 < size := by
      apply Nat.pos_of_ne_zero
      intro hz
      rw [hz, Nat.div_zero] at hlap
      exact hlap rfl
    have hge : size ≤ xs.length := by
      apply Nat.le_of_not_lt
      intro hlt
      exact hlap (Nat.div_eq_of_lt hlt)
    have hlt : xs.length - size < xs.length := by omega
    have hprev := h (xs.length - size)
    rw [← Nat.mod_eq_sub_mod hge, ← Nat.div_eq_sub_div hpos hge,
      List.getElem?_eq_getElem hlt] at hprev
    exact (List.getElem?_eq_some_iff.mp hprev).1

/-- **Laps**: item `k` is at place `k / size + 1` in the history of its cell. -/
theorem history_getElem? (size : Nat) (init : Nat → α) (xs : List α) (k : Nat) :
    (history size init xs (k % size))[k / size + 1]? = xs[k]? := by
  induction xs using List.reverseRecOn generalizing k with
  | nil => rfl
  | append_singleton xs x ih =>
      have hlen := history_length_of ih
      rw [history_snoc]
      by_cases hcell : xs.length % size = k % size
      · rw [if_pos hcell]
        rw [hcell] at hlen
        rcases Nat.lt_trichotomy k xs.length with hlt | heq | hgt
        · -- an item of an earlier lap
          have hk := ih k
          rw [List.getElem?_eq_getElem hlt] at hk
          rw [List.getElem?_append_left (List.getElem?_eq_some_iff.mp hk).1, hk,
            List.getElem?_append_left hlt, List.getElem?_eq_getElem hlt]
        · -- the new item
          rw [heq] at hlen ⊢
          rw [← hlen, List.getElem?_append_right (Nat.le_refl _),
            List.getElem?_append_right (Nat.le_refl _), Nat.sub_self, Nat.sub_self]
        · -- an item of a later lap: not there yet
          have hdiv : xs.length / size ≤ k / size := Nat.div_le_div_right (Nat.le_of_lt hgt)
          have hne : xs.length / size ≠ k / size := by
            intro heq
            have h1 := Nat.div_add_mod k size
            have h2 := Nat.div_add_mod xs.length size
            rw [heq, hcell] at h2
            omega
          rw [List.getElem?_eq_none (by simp; omega), List.getElem?_eq_none (by simp; omega)]
      · -- another cell: the new item is not item `k`
        have hne : k ≠ xs.length := by
          intro heq
          exact hcell (by rw [heq])
        rw [if_neg hcell, List.append_nil, ih k]
        by_cases hlt : k < xs.length
        · rw [List.getElem?_append_left hlt]
        · rw [List.getElem?_eq_none (by omega), List.getElem?_eq_none (by simp; omega)]

/-- The history of the cell that is stored next: an item for each lap. -/
theorem history_length (size : Nat) (init : Nat → α) (xs : List α) :
    (history size init xs (xs.length % size)).length = xs.length / size + 1 :=
  history_length_of (history_getElem? size init xs)

/-- Before the lap after item `k` nothing newer is in the item's cell. -/
theorem history_length_le {size : Nat} (hpos : 0 < size) (init : Nat → α) {xs : List α} {k : Nat}
    (hwin : xs.length ≤ k + size) : (history size init xs (k % size)).length ≤ k / size + 2 := by
  have hnext := history_getElem? size init xs (k + size)
  rw [List.getElem?_eq_none hwin, Nat.add_mod_right, Nat.add_div_right k hpos,
    List.getElem?_eq_none_iff] at hnext
  exact hnext

/-- **The newest lap**: among the newest `size` items, what stands in the
history of an item's cell from the item's place on is the item. -/
theorem history_window {size : Nat} (init : Nat → α) {xs : List α} {k place : Nat} {x : α}
    (hk : k < xs.length) (hwin : xs.length ≤ k + size) (hplace : k / size + 1 ≤ place)
    (hx : (history size init xs (k % size))[place]? = some x) : xs[k]? = some x := by
  have hpos : 0 < size := by omega
  have hplace' : 0 < place := (Nat.succ_pos _).trans_le hplace
  obtain ⟨lap, rfl⟩ : ∃ lap, place = lap + 1 := ⟨place - 1, by omega⟩
  have hmod : (k % size + size * lap) % size = k % size := by
    rw [Nat.add_mul_mod_self_left, Nat.mod_mod]
  have hdiv : (k % size + size * lap) / size = lap := by
    rw [Nat.add_mul_div_left _ _ hpos, Nat.div_eq_of_lt (Nat.mod_lt _ hpos), Nat.zero_add]
  -- what stands there is item `k % size + size * lap`
  have hitem := history_getElem? size init xs (k % size + size * lap)
  rw [hmod, hdiv, hx] at hitem
  have hlt := (List.getElem?_eq_some_iff.mp hitem.symm).1
  have hsplit := Nat.div_add_mod k size
  -- which cannot be a lap ahead of item `k`
  have hlap : lap = k / size := by
    apply Nat.le_antisymm
    · apply Nat.le_of_not_lt
      intro hahead
      have hmul : size * (k / size + 1) ≤ size * lap := Nat.mul_le_mul_left size hahead
      rw [Nat.mul_succ] at hmul
      omega
    · omega
  have hsame : k % size + size * lap = k := by
    rw [hlap]
    omega
  rw [hsame] at hitem
  exact hitem.symm

end Lib.Ring
