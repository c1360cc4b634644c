/-
  MulleFifo.Lib.ViewMemory — weak memory with histories and views.

  Nothing is ever overwritten: a location keeps the list of all messages
  written to it, oldest first, and the position of a message is its time.
  Each thread has a VIEW — for every location the newest message it knows
  of — and a message carries a view along:

    • `load` may return any message not older than the thread knows of.
      It makes the message known; an acquiring load makes known what the
      message carries,
    • `store` appends a message; a releasing store carries what the thread
      knows.  (Locations that are stored to have one writer.)
    • `modify`, a read-modify-write, acts on the newest message.  What that
      message carries is carried on, whatever else is ordered: a release
      sequence is never broken by a read-modify-write.

  Coherence is built in, since views only grow.

  A memory can be looked at in part: `restrict` keeps the locations that an
  injective map picks, and the accesses to them do to the part what they do
  to the whole (`restrict_load`, `restrict_store`, `restrict_modify`), while
  a relaxed access to another location does nothing to it.

  Where no view knows of a message that is not there (`Grounded`), the
  newest message can always be loaded.  A memory used so keeps one value
  for each location, its `newest`.  A thread that wishes for a message gets
  the admissible one `nearest` to it.
-/
import Mathlib.Order.Lattice.Nat
import Mathlib.Logic.Function.Basic

namespace Lib

/-- For every location, a position of its history. -/
abbrev View (ι : Type*) := ι → Nat

/-- A value written to a location, and what its writer passes on. -/
structure Message (ι α : Type*) where
  value : α
  view : View ι

/-- The histories of all locations, and what every thread knows. -/
structure ViewMemory (ι θ : Type*) (V : ι → Type*) where
  hist : (l : ι) → List (Message ι (V l))
  view : θ → View ι

variable {ι θ : Type*} {V : ι → Type*}

/-- Knowing of one message only. -/
def View.only [DecidableEq ι] (l : ι) (time : Nat) : View ι :=
  Function.update (fun _ => 0) l time

/-- `v` if the flag is set. -/
def View.when (flag : Bool) (v : View ι) : View ι := if flag then v else fun _ => 0

theorem View.le_only [DecidableEq ι] {l : ι} {time : Nat} {v : View ι}
    (h : View.only l time ≤ v) : time ≤ v l := by
  have hl := h l
  rw [View.only, Function.update_self] at hl
  exact hl

theorem View.when_of {flag : Bool} (h : flag = true) (v : View ι) : View.when flag v = v := by
  unfold View.when
  rw [if_pos h]

/-- What `v` knows of the locations that `f` picks. -/
def View.restrict {κ : Type*} (f : κ → ι) (v : View ι) : View κ := fun k => v (f k)

/-- What `msg` passes on about the locations that `f` picks. -/
def Message.restrict {κ α : Type*} (f : κ → ι) (msg : Message ι α) : Message κ α :=
  ⟨msg.value, msg.view.restrict f⟩

/-- Knowing of one location, where that location is picked. -/
theorem View.restrict_only {κ : Type*} [DecidableEq ι] [DecidableEq κ] {f : κ → ι}
    (hf : Function.Injective f) (k : κ) (time : Nat) :
    View.restrict f (View.only (f k) time) = View.only k time := by
  funext k'
  show View.only (f k) time (f k') = View.only k time k'
  unfold View.only
  by_cases hk : k' = k
  · rw [hk, Function.update_self, Function.update_self]
  · rw [Function.update_of_ne (hf.ne hk), Function.update_of_ne hk]

/-- Knowing of a location that is not picked. -/
theorem View.restrict_only_other {κ : Type*} [DecidableEq ι] {f : κ → ι} {l : ι}
    (hl : ∀ k, f k ≠ l) (time : Nat) : View.restrict f (View.only l time) = fun _ => 0 := by
  funext k
  show View.only l time (f k) = 0
  unfold View.only
  rw [Function.update_of_ne (hl k)]

theorem View.restrict_sup {κ : Type*} (f : κ → ι) (v w : View ι) :
    View.restrict f (v ⊔ w) = v.restrict f ⊔ w.restrict f := rfl

theorem View.restrict_when {κ : Type*} (f : κ → ι) (flag : Bool) (v : View ι) :
    View.restrict f (View.when flag v) = View.when flag (v.restrict f) := by
  cases flag <;> rfl

namespace ViewMemory

/-- The locations that `f` picks, and what is known of them. -/
def restrict {κ : Type*} (f : κ → ι) (m : ViewMemory ι θ V) : ViewMemory κ θ fun k => V (f k) where
  hist k := (m.hist (f k)).map (Message.restrict f)
  view t := (m.view t).restrict f

/-! ## §1. Learning and writing. -/

section Learn

variable [DecidableEq θ]

/-- Thread `t` learns `v`. -/
def learn (t : θ) (v : View ι) (m : ViewMemory ι θ V) : ViewMemory ι θ V :=
  { m with view := Function.update m.view t (m.view t ⊔ v) }

/-- Views only grow. -/
theorem view_le_learn (t : θ) (v : View ι) (m : ViewMemory ι θ V) (t' : θ) :
    m.view t' ≤ (m.learn t v).view t' := by
  by_cases h : t' = t
  · subst h
    show m.view t' ≤ Function.update m.view t' (m.view t' ⊔ v) t'
    rw [Function.update_self]
    exact le_sup_left
  · show m.view t' ≤ Function.update m.view t (m.view t ⊔ v) t'
    rw [Function.update_of_ne h]

/-- Nobody else learns. -/
theorem view_learn_other {t t' : θ} (ht : t' ≠ t) (v : View ι) (m : ViewMemory ι θ V) :
    (m.learn t v).view t' = m.view t' := Function.update_of_ne ht _ _

/-- Learning nothing changes nothing. -/
theorem learn_nothing (t : θ) (m : ViewMemory ι θ V) : m.learn t (fun _ => 0) = m := by
  have hsame : m.view t ⊔ (fun _ => 0) = m.view t := sup_of_le_left fun _ => Nat.zero_le _
  unfold learn
  rw [hsame, Function.update_eq_self]

theorem restrict_learn {κ : Type*} (f : κ → ι) (t : θ) (v : View ι) (m : ViewMemory ι θ V) :
    (m.learn t v).restrict f = (m.restrict f).learn t (v.restrict f) := by
  have hview (t' : θ) : ((m.learn t v).restrict f).view t'
      = ((m.restrict f).learn t (v.restrict f)).view t' := by
    by_cases ht : t' = t
    · subst ht
      simp only [learn, restrict, Function.update_self]
      rfl
    · simp only [learn, restrict, Function.update_of_ne ht]
  show ViewMemory.mk _ _ = ViewMemory.mk _ _
  rw [ViewMemory.mk.injEq]
  exact ⟨rfl, funext hview⟩

theorem le_learn (t : θ) (v : View ι) (m : ViewMemory ι θ V) : v ≤ (m.learn t v).view t := by
  show v ≤ Function.update m.view t (m.view t ⊔ v) t
  rw [Function.update_self]
  exact le_sup_right

end Learn

/-- A message is appended to the history of `l`. -/
def append [DecidableEq ι] (l : ι) (msg : Message ι (V l)) (m : ViewMemory ι θ V) :
    ViewMemory ι θ V :=
  { m with hist := Function.update m.hist l (m.hist l ++ [msg]) }

/-- Appending to a location that is picked. -/
theorem restrict_append {κ : Type*} [DecidableEq ι] [DecidableEq κ] {f : κ → ι}
    (hf : Function.Injective f) (k : κ) (msg : Message ι (V (f k)))
    (m : ViewMemory ι θ V) :
    (m.append (f k) msg).restrict f = (m.restrict f).append k (msg.restrict f) := by
  have hhist (k' : κ) : ((m.append (f k) msg).restrict f).hist k'
      = ((m.restrict f).append k (msg.restrict f)).hist k' := by
    show ((m.append (f k) msg).hist (f k')).map _ = _
    by_cases hk : k' = k
    · subst hk
      simp only [append, restrict, Function.update_self, List.map_append, List.map_singleton]
    · simp only [append, restrict, Function.update_of_ne (hf.ne hk), Function.update_of_ne hk]
  show ViewMemory.mk _ _ = ViewMemory.mk _ _
  rw [ViewMemory.mk.injEq]
  exact ⟨funext hhist, rfl⟩

/-- Appending to a location that is not picked. -/
theorem restrict_append_other {κ : Type*} [DecidableEq ι] {f : κ → ι} {l : ι} (hl : ∀ k, f k ≠ l)
    (msg : Message ι (V l)) (m : ViewMemory ι θ V) :
    (m.append l msg).restrict f = m.restrict f := by
  have hhist (k : κ) : ((m.append l msg).restrict f).hist k = (m.restrict f).hist k := by
    simp only [append, restrict, Function.update_of_ne (hl k)]
  show ViewMemory.mk _ _ = ViewMemory.mk _ _
  rw [ViewMemory.mk.injEq]
  exact ⟨funext hhist, rfl⟩

/-! ## §2. The accesses. -/

variable [DecidableEq ι] [DecidableEq θ]

/-- Thread `t` loads the message at `time` of location `l`. -/
def load (acquire : Bool) (t : θ) (l : ι) (time : Nat) (m : ViewMemory ι θ V) :
    Option (V l × ViewMemory ι θ V) :=
  if m.view t l ≤ time then
    (m.hist l)[time]?.map fun msg =>
      (msg.value, m.learn t (View.only l time ⊔ View.when acquire msg.view))
  else none

/-- Thread `t` stores `x` to location `l`. -/
def store (release : Bool) (t : θ) (l : ι) (x : V l) (m : ViewMemory ι θ V) :
    ViewMemory ι θ V :=
  let m' := m.learn t (View.only l (m.hist l).length)
  m'.append l ⟨x, View.only l (m.hist l).length ⊔ View.when release (m'.view t)⟩

/-- Thread `t` applies `f` to the newest value of location `l`. -/
def modify (acquire release : Bool) (t : θ) (l : ι) (f : V l → V l) (m : ViewMemory ι θ V) :
    ViewMemory ι θ V :=
  match (m.hist l).getLast? with
  | none => m
  | some last =>
      let m' := m.learn t (View.only l (m.hist l).length ⊔ View.when acquire last.view)
      m'.append l ⟨f last.value,
        last.view ⊔ View.only l (m.hist l).length ⊔ View.when release (m'.view t)⟩

/-! ## §3. What an access does. -/

variable {m m' : ViewMemory ι θ V} {t : θ} {l : ι}

/-- **A load** returns a message that is not older than known, and the
message becomes known. -/
theorem load_some {acquire : Bool} {time : Nat} {x : V l}
    (h : m.load acquire t l time = some (x, m')) :
    ∃ msg, (m.hist l)[time]? = some msg ∧ x = msg.value ∧ m.view t l ≤ time
      ∧ m'.hist = m.hist ∧ (∀ t', m.view t' ≤ m'.view t') ∧ time ≤ m'.view t l
      ∧ (acquire = true → msg.view ≤ m'.view t) := by
  unfold load at h
  by_cases hknown : m.view t l ≤ time
  · rw [if_pos hknown] at h
    obtain ⟨msg, hmsg, hx⟩ := Option.map_eq_some_iff.mp h
    obtain ⟨rfl, rfl⟩ := Prod.mk.inj hx
    have hle := le_learn t (View.only l time ⊔ View.when acquire msg.view) m
    refine ⟨msg, hmsg, rfl, hknown, rfl, view_le_learn _ _ _,
      View.le_only (le_sup_left.trans hle), ?_⟩
    intro hacq
    rw [View.when_of hacq] at hle ⊢
    exact le_sup_right.trans hle
  · rw [if_neg hknown] at h
    exact absurd h (by simp)

/-- **A store** appends one message and makes it known. -/
theorem store_spec (release : Bool) (t : θ) (l : ι) (x : V l) (m : ViewMemory ι θ V) :
    ∃ v, (m.store release t l x).hist
        = Function.update m.hist l (m.hist l ++ [⟨x, v⟩])
      ∧ (∀ t', m.view t' ≤ (m.store release t l x).view t')
      ∧ (m.hist l).length ≤ (m.store release t l x).view t l :=
  ⟨_, rfl, fun t' => view_le_learn _ _ _ t', View.le_only (le_learn _ _ _)⟩

/-- Whatever a read-modify-write finds, views only grow. -/
theorem view_le_modify (acquire release : Bool) (t : θ) (l : ι) (f : V l → V l)
    (m : ViewMemory ι θ V) (t' : θ) :
    m.view t' ≤ (m.modify acquire release t l f).view t' := by
  unfold modify
  cases (m.hist l).getLast? with
  | none => exact le_refl _
  | some last => exact view_le_learn _ _ _ t'

/-- A read-modify-write of `l` leaves the other locations alone. -/
theorem modify_other (acquire release : Bool) (t : θ) (f : V l → V l) {l' : ι} (hl : l' ≠ l) :
    (m.modify acquire release t l f).hist l' = m.hist l' := by
  unfold modify
  cases (m.hist l).getLast? with
  | none => rfl
  | some last =>
      show Function.update m.hist l _ l' = m.hist l'
      rw [Function.update_of_ne hl]

/-- **A read-modify-write** appends one message made from the newest one,
and carries on what that one carried. -/
theorem modify_spec (acquire release : Bool) (t : θ) (f : V l → V l)
    {last : Message ι (V l)} (hlast : (m.hist l).getLast? = some last) :
    ∃ v, (m.modify acquire release t l f).hist
        = Function.update m.hist l (m.hist l ++ [⟨f last.value, v⟩])
      ∧ last.view ≤ v ∧ (release = true → m.view t ≤ v)
      ∧ (∀ t', m.view t' ≤ (m.modify acquire release t l f).view t')
      ∧ (m.hist l).length ≤ (m.modify acquire release t l f).view t l := by
  unfold modify
  rw [hlast]
  refine ⟨_, rfl, le_sup_left.trans le_sup_left, ?_, fun t' => view_le_learn _ _ _ t',
    View.le_only (le_sup_left.trans (le_learn _ _ _))⟩
  intro hrel
  rw [View.when_of hrel]
  exact (view_le_learn _ _ _ t).trans le_sup_right

/-- A load is learned from by the thread that loads. -/
theorem view_load_other {acquire : Bool} {time : Nat} {x : V l} {t' : θ} (ht : t' ≠ t)
    (h : m.load acquire t l time = some (x, m')) : m'.view t' = m.view t' := by
  unfold load at h
  by_cases hknown : m.view t l ≤ time
  · rw [if_pos hknown] at h
    obtain ⟨msg, _, hx⟩ := Option.map_eq_some_iff.mp h
    obtain ⟨_, rfl⟩ := Prod.mk.inj hx
    exact view_learn_other ht _ m
  · rw [if_neg hknown] at h
    exact absurd h (by simp)

/-- A store is learned from by its thread, and appended to its location. -/
theorem store_other_thread (release : Bool) {t' : θ} (ht : t' ≠ t) {l' : ι} (hl : l' ≠ l) (x : V l)
    (m : ViewMemory ι θ V) :
    (m.store release t l x).view t' = m.view t'
      ∧ (m.store release t l x).hist l' = m.hist l' :=
  ⟨view_learn_other ht _ m, Function.update_of_ne hl _ _⟩

/-- A read-modify-write is learned from by its thread, and what was there
stays in its place. -/
theorem modify_other_thread (acquire release : Bool) {t' : θ} (ht : t' ≠ t) (f : V l → V l)
    (m : ViewMemory ι θ V) :
    (m.modify acquire release t l f).view t' = m.view t'
      ∧ m.hist l <+: (m.modify acquire release t l f).hist l := by
  unfold modify
  cases (m.hist l).getLast? with
  | none => exact ⟨rfl, List.prefix_refl _⟩
  | some last =>
      refine ⟨view_learn_other ht _ m, ?_⟩
      show m.hist l <+: Function.update m.hist l (m.hist l ++ [_]) l
      rw [Function.update_self]
      exact List.prefix_append _ _

/-- Who knows of nothing in `l` and loads the first message there, which
knows of nothing either, still knows of nothing. -/
theorem view_load_first {acquire : Bool} {x y : V l} (hview : m.view t l = 0)
    (hfirst : (m.hist l)[0]? = some ⟨y, fun _ => 0⟩)
    (h : m.load acquire t l 0 = some (x, m')) : x = y ∧ m'.view t l = 0 := by
  unfold load at h
  rw [if_pos (Nat.le_of_eq hview), hfirst] at h
  obtain ⟨rfl, rfl⟩ := Prod.mk.inj (Option.some.inj h)
  refine ⟨rfl, ?_⟩
  show Function.update m.view t (m.view t ⊔ _) t l = 0
  rw [Function.update_self]
  show max (m.view t l) (max (View.only l 0 l) (View.when acquire (fun _ => 0) l)) = 0
  have honly : View.only l 0 l = 0 := Function.update_self _ _ _
  have hwhen : View.when acquire (fun _ => 0) l = 0 := by
    cases acquire <;> rfl
  rw [hview, honly, hwhen]
  rfl

/-- Only what becomes of the newest value matters. -/
theorem modify_congr (acquire release : Bool) (t : θ) {f g : V l → V l}
    (h : ∀ last, (m.hist l).getLast? = some last → f last.value = g last.value) :
    m.modify acquire release t l f = m.modify acquire release t l g := by
  unfold modify
  cases hlast : (m.hist l).getLast? with
  | none => rfl
  | some last =>
      show append l ⟨f last.value, _⟩ _ = append l ⟨g last.value, _⟩ _
      rw [h last hlast]

/-! ## §4. A part of the memory. -/

section Restrict

variable {κ : Type*} {f : κ → ι}

/-- **A load** of a location that is picked. -/
theorem restrict_load [DecidableEq κ] (hf : Function.Injective f) (acquire : Bool) (t : θ)
    (k : κ) (time : Nat) (m : ViewMemory ι θ V) :
    (m.restrict f).load acquire t k time
      = (m.load acquire t (f k) time).map fun r => (r.1, r.2.restrict f) := by
  unfold load
  show (if m.view t (f k) ≤ time then _ else none) = _
  by_cases hknown : m.view t (f k) ≤ time
  · rw [if_pos hknown, if_pos hknown, Option.map_map]
    show (((m.hist (f k)).map (Message.restrict f))[time]?).map _ = _
    rw [List.getElem?_map, Option.map_map]
    congr 1
    funext msg
    show (msg.value, _) = (msg.value, _)
    rw [restrict_learn, ← View.restrict_only hf]
    cases acquire <;> rfl
  · rw [if_neg hknown, if_neg hknown]
    rfl

/-- **A store** to a location that is picked. -/
theorem restrict_store [DecidableEq κ] (hf : Function.Injective f) (release : Bool) (t : θ)
    (k : κ) (x : V (f k)) (m : ViewMemory ι θ V) :
    (m.restrict f).store release t k x = (m.store release t (f k) x).restrict f := by
  have hlen : ((m.restrict f).hist k).length = (m.hist (f k)).length := List.length_map _
  unfold store
  rw [hlen, ← View.restrict_only hf, ← restrict_learn, restrict_append hf]
  cases release <;> rfl

/-- **A read-modify-write** of a location that is picked. -/
theorem restrict_modify [DecidableEq κ] (hf : Function.Injective f) (acquire release : Bool)
    (t : θ) (k : κ) (g : V (f k) → V (f k)) (m : ViewMemory ι θ V) :
    (m.restrict f).modify acquire release t k g
      = (m.modify acquire release t (f k) g).restrict f := by
  have hlen : ((m.restrict f).hist k).length = (m.hist (f k)).length := List.length_map _
  have hlast : ((m.restrict f).hist k).getLast?
      = (m.hist (f k)).getLast?.map (Message.restrict f) := List.getLast?_map
  unfold modify
  rw [hlast, hlen]
  cases (m.hist (f k)).getLast? with
  | none => rfl
  | some last =>
      have hknow : View.only k (m.hist (f k)).length ⊔ View.when acquire (last.restrict f).view
          = View.restrict f
              (View.only (f k) (m.hist (f k)).length ⊔ View.when acquire last.view) := by
        rw [View.restrict_sup, View.restrict_only hf, View.restrict_when]
        rfl
      simp only [Option.map_some]
      rw [restrict_append hf]
      rw [hknow, ← restrict_learn, ← View.restrict_only hf]
      cases release <;> rfl

/-- A relaxed load of a location that is not picked. -/
theorem restrict_load_other {l : ι} (hl : ∀ k, f k ≠ l) {time : Nat} {x : V l}
    (h : m.load false t l time = some (x, m')) : m'.restrict f = m.restrict f := by
  unfold load at h
  by_cases hknown : m.view t l ≤ time
  · rw [if_pos hknown] at h
    obtain ⟨msg, _, hx⟩ := Option.map_eq_some_iff.mp h
    obtain ⟨_, rfl⟩ := Prod.mk.inj hx
    rw [restrict_learn, View.restrict_sup, View.restrict_only_other hl, View.restrict_when]
    exact learn_nothing t (m.restrict f)
  · rw [if_neg hknown] at h
    exact absurd h (by simp)

/-- A store to a location that is not picked. -/
theorem restrict_store_other {l : ι} (hl : ∀ k, f k ≠ l) (release : Bool) (t : θ) (x : V l)
    (m : ViewMemory ι θ V) : (m.store release t l x).restrict f = m.restrict f := by
  unfold store
  rw [restrict_append_other hl, restrict_learn, View.restrict_only_other hl]
  exact learn_nothing t (m.restrict f)

end Restrict

/-! ## §5. The newest values. -/

section Newest

omit [DecidableEq ι] [DecidableEq θ]

/-- The time of the newest message. -/
def newestTime (m : ViewMemory ι θ V) (l : ι) : Nat := (m.hist l).length - 1

/-- The value of the newest message. -/
def newest (m : ViewMemory ι θ V) (l : ι) : Option (V l) := (m.hist l).getLast?.map (·.value)

/-- The view knows of no message that is not there. -/
def Closed (m : ViewMemory ι θ V) (v : View ι) : Prop := ∀ l, v l < (m.hist l).length

theorem Closed.sup {v w : View ι} (hv : m.Closed v) (hw : m.Closed w) : m.Closed (v ⊔ w) :=
  fun l => max_lt (hv l) (hw l)

theorem Closed.when {v : View ι} (h0 : m.Closed fun _ => 0) (hv : m.Closed v) (flag : Bool) :
    m.Closed (View.when flag v) := by
  cases flag with
  | false => exact h0
  | true => exact hv

/-- No history is empty, and no view knows of a message that is not there. -/
structure Grounded (m : ViewMemory ι θ V) : Prop where
  held : m.Closed fun _ => 0
  known : ∀ t, m.Closed (m.view t)
  carried : ∀ l, ∀ msg ∈ m.hist l, m.Closed msg.view

/-- There is a newest message. -/
theorem Grounded.exists_newest (hG : m.Grounded) (l : ι) :
    ∃ last, (m.hist l).getLast? = some last ∧ (m.hist l)[m.newestTime l]? = some last := by
  have hlt : m.newestTime l < (m.hist l).length := Nat.sub_lt (hG.held l) Nat.one_pos
  refine ⟨(m.hist l)[m.newestTime l], ?_, List.getElem?_eq_getElem hlt⟩
  rw [List.getLast?_eq_getElem?]
  exact List.getElem?_eq_getElem hlt

end Newest

section Append

omit [DecidableEq θ]

theorem hist_append_self (l : ι) (msg : Message ι (V l)) (m : ViewMemory ι θ V) :
    (m.append l msg).hist l = m.hist l ++ [msg] := Function.update_self _ _ _

theorem hist_append_other {l l' : ι} (hl : l' ≠ l) (msg : Message ι (V l))
    (m : ViewMemory ι θ V) : (m.append l msg).hist l' = m.hist l' :=
  Function.update_of_ne hl _ _

/-- What was appended is the newest value. -/
theorem newest_append (l : ι) (msg : Message ι (V l)) (m : ViewMemory ι θ V) :
    (m.append l msg).newest = Function.update m.newest l (some msg.value) := by
  funext l'
  unfold newest
  by_cases hl : l' = l
  · subst hl
    rw [hist_append_self, Function.update_self, List.getLast?_append_cons]
    rfl
  · rw [hist_append_other hl, Function.update_of_ne hl]

theorem Closed.only {time : Nat} (h0 : m.Closed fun _ => 0) (h : time < (m.hist l).length) :
    m.Closed (View.only l time) := by
  intro l'
  unfold View.only
  by_cases hl : l' = l
  · subst hl
    rw [Function.update_self]
    exact h
  · rw [Function.update_of_ne hl]
    exact h0 l'

/-- Nothing that is there goes away. -/
theorem Closed.append {v : View ι} (hv : m.Closed v) (msg : Message ι (V l)) :
    (m.append l msg).Closed v := by
  intro l'
  by_cases hl : l' = l
  · subst hl
    rw [hist_append_self, List.length_append]
    exact (hv l').trans_le (Nat.le_add_right _ _)
  · rw [hist_append_other hl]
    exact hv l'

/-- What was appended is there. -/
theorem Closed.appended (h0 : m.Closed fun _ => 0) (msg : Message ι (V l)) :
    (m.append l msg).Closed (View.only l (m.hist l).length) := by
  refine (h0.append msg).only ?_
  rw [hist_append_self, List.length_append]
  exact Nat.lt_succ_self _

end Append

namespace Grounded

omit [DecidableEq ι] in
/-- What is learned is there. -/
theorem learn (hG : m.Grounded) {v : View ι} (hv : m.Closed v) (t : θ) :
    (m.learn t v).Grounded where
  held := hG.held
  known t' := by
    show m.Closed (Function.update m.view t (m.view t ⊔ v) t')
    by_cases ht : t' = t
    · rw [ht, Function.update_self]
      exact (hG.known t).sup hv
    · rw [Function.update_of_ne ht]
      exact hG.known t'
  carried := hG.carried

omit [DecidableEq θ] in
/-- A message is appended that knows of what is there then. -/
theorem append (hG : m.Grounded) {msg : Message ι (V l)}
    (hmsg : (m.append l msg).Closed msg.view) : (m.append l msg).Grounded where
  held := hG.held.append msg
  known t := (hG.known t).append msg
  carried l' msg' hmem := by
    by_cases hl : l' = l
    · subst hl
      rw [hist_append_self] at hmem
      rcases List.mem_append.mp hmem with hold | hnew
      · exact (hG.carried l' msg' hold).append msg
      · rw [List.mem_singleton.mp hnew]
        exact hmsg
    · rw [hist_append_other hl] at hmem
      exact (hG.carried l' msg' hmem).append msg

omit [DecidableEq θ] in
/-- What a load learns is there. -/
theorem closed_load (hG : m.Grounded) (acquire : Bool) {time : Nat} {msg : Message ι (V l)}
    (hmsg : (m.hist l)[time]? = some msg) :
    m.Closed (View.only l time ⊔ View.when acquire msg.view) := by
  have hlt := (List.getElem?_eq_some_iff.mp hmsg).1
  have hview : m.Closed msg.view := hG.carried l msg (List.mem_of_getElem? hmsg)
  exact (Closed.only hG.held hlt).sup (Closed.when hG.held hview acquire)

/-- **A load** of whatever message. -/
theorem loaded (hG : m.Grounded) {acquire : Bool} {t : θ} {time : Nat} {x : V l}
    (h : m.load acquire t l time = some (x, m')) : m'.Grounded := by
  unfold ViewMemory.load at h
  by_cases hknown : m.view t l ≤ time
  · rw [if_pos hknown] at h
    obtain ⟨msg, hmsg, hx⟩ := Option.map_eq_some_iff.mp h
    obtain ⟨_, rfl⟩ := Prod.mk.inj hx
    exact hG.learn (hG.closed_load acquire hmsg) t
  · rw [if_neg hknown] at h
    exact absurd h (by simp)

/-- **A load of the newest message** is always possible. -/
theorem load (hG : m.Grounded) (acquire : Bool) (t : θ) (l : ι) :
    ∃ last m', (m.hist l).getLast? = some last
      ∧ m.load acquire t l (m.newestTime l) = some (last.value, m')
      ∧ m'.Grounded ∧ m'.hist = m.hist := by
  obtain ⟨last, hlast, htime⟩ := hG.exists_newest l
  have hknown : m.view t l ≤ m.newestTime l := Nat.le_sub_one_of_lt (hG.known t l)
  refine ⟨last, m.learn t (View.only l (m.newestTime l) ⊔ View.when acquire last.view), hlast,
    ?_, hG.learn (hG.closed_load acquire htime) t, rfl⟩
  unfold ViewMemory.load
  rw [if_pos hknown, htime]
  rfl

/-- A message is appended, and its writer learns of it first. -/
theorem write (hG : m.Grounded) (t : θ) {msg : Message ι (V l)} {v : View ι}
    (hv : (m.append l msg).Closed v) (hmsg : (m.append l msg).Closed msg.view) :
    ((m.learn t v).append l msg).Grounded :=
  (hG.append hmsg).learn hv t

/-- What the writer knows then. -/
theorem closed_learn (hG : m.Grounded) (t : θ) {msg : Message ι (V l)} {v : View ι}
    (hv : (m.append l msg).Closed v) : (m.append l msg).Closed ((m.learn t v).view t) := by
  have hself : (m.learn t v).view t = m.view t ⊔ v := Function.update_self _ _ _
  rw [hself]
  exact ((hG.known t).append msg).sup hv

/-- **A store** makes its value the newest. -/
theorem store (hG : m.Grounded) (release : Bool) (t : θ) (l : ι) (x : V l) :
    (m.store release t l x).Grounded
      ∧ (m.store release t l x).newest = Function.update m.newest l (some x) := by
  refine ⟨?_, newest_append l _ _⟩
  have hnew (msg : Message ι (V l)) := Closed.appended hG.held msg
  have hheld (msg : Message ι (V l)) := hG.held.append msg
  exact hG.write t (hnew _)
    ((hnew _).sup (Closed.when (hheld _) (hG.closed_learn t (hnew _)) release))

/-- **A read-modify-write** acts on the newest value. -/
theorem modify (hG : m.Grounded) (acquire release : Bool) (t : θ) (l : ι) (f : V l → V l)
    {x : V l} (hx : m.newest l = some x) :
    (m.modify acquire release t l f).Grounded
      ∧ (m.modify acquire release t l f).newest = Function.update m.newest l (some (f x)) := by
  obtain ⟨last, hlast, rfl⟩ := Option.map_eq_some_iff.mp hx
  have hview : m.Closed last.view := hG.carried l last (List.mem_of_getLast? hlast)
  unfold ViewMemory.modify
  rw [hlast]
  refine ⟨?_, newest_append l _ _⟩
  have hnew (msg : Message ι (V l)) := Closed.appended hG.held msg
  have hheld (msg : Message ι (V l)) := hG.held.append msg
  have hlearn (msg : Message ι (V l)) : (m.append l msg).Closed
      (View.only l (m.hist l).length ⊔ View.when acquire last.view) :=
    (hnew msg).sup (Closed.when (hheld msg) (hview.append msg) acquire)
  exact hG.write t (hlearn _) (((hview.append _).sup (hnew _)).sup
    (Closed.when (hheld _) (hG.closed_learn t (hlearn _)) release))

end Grounded

/-! ## §6. The message nearest to a wish. -/

omit [DecidableEq ι] [DecidableEq θ] in
/-- The message a load of `l` can return that is nearest to the one at `wish`. -/
def nearest (m : ViewMemory ι θ V) (t : θ) (l : ι) (wish : Nat) : Nat :=
  min (m.newestTime l) (max (m.view t l) wish)

omit [DecidableEq ι] [DecidableEq θ] in
/-- Who is ready for the newest message gets it. -/
theorem nearest_newest {wish : Nat} (h : m.newestTime l ≤ wish) :
    m.nearest t l wish = m.newestTime l :=
  Nat.min_eq_left (h.trans (Nat.le_max_right _ _))

/-- A message that can be returned is nearest to itself. -/
theorem nearest_of_load {acquire : Bool} {time : Nat} {x : V l}
    (h : m.load acquire t l time = some (x, m')) : m.nearest t l time = time := by
  obtain ⟨msg, hmsg, _, hknown, _⟩ := load_some h
  have hlt := (List.getElem?_eq_some_iff.mp hmsg).1
  unfold nearest newestTime
  rw [Nat.max_eq_right hknown]
  exact Nat.min_eq_right (Nat.le_sub_one_of_lt hlt)

/-- **It can be returned.** -/
theorem Grounded.load_nearest (hG : m.Grounded) (acquire : Bool) (t : θ) (l : ι) (wish : Nat) :
    ∃ r, m.load acquire t l (m.nearest t l wish) = some r := by
  have hknown : m.view t l ≤ m.nearest t l wish :=
    Nat.le_min.mpr ⟨Nat.le_sub_one_of_lt (hG.known t l), Nat.le_max_left _ _⟩
  have hlt : m.nearest t l wish < (m.hist l).length :=
    (Nat.min_le_left _ _).trans_lt (Nat.sub_lt (hG.held l) Nat.one_pos)
  unfold ViewMemory.load
  rw [if_pos hknown, List.getElem?_eq_getElem hlt]
  exact ⟨_, rfl⟩

end ViewMemory

end Lib
