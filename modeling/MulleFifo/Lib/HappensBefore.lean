/-
  MulleFifo.Lib.HappensBefore — happens-before in an interleaving.

  A trace is a list of events, and its positions are ordered by time.  Time
  alone is no synchronisation: what one thread did is visible to another
  only along

    • program order — two events of one thread,
    • synchronisation on ONE atomic variable — an access to it synchronises
      with the update whose value it observes, and with the updates before
      that one (all updates are read-modify-writes, so none breaks the
      release sequence).

  `HappensBefore` is the transitive closure of the two.
-/
import MulleFifo.Lib.Events
import Mathlib.Logic.Relation

namespace Lib

variable {ε θ : Type*}

/-! ## §1. The relation. -/

/-- How events synchronise: who takes them, which update the atomic
variable, and which access it at all. -/
structure SyncModel (ε θ : Type*) where
  thread : ε → θ
  update : ε → Bool
  access : ε → Bool

variable (S : SyncModel ε θ)

/-- Two events of one thread, in this order. -/
def ProgramOrder (tr : List ε) (i j : Nat) : Prop :=
  i < j ∧ ∃ e f, tr[i]? = some e ∧ tr[j]? = some f ∧ S.thread e = S.thread f

/-- Position `i` updates the variable. -/
def UpdateAt (tr : List ε) (i : Nat) : Prop := ∃ e, tr[i]? = some e ∧ S.update e = true

/-- Position `i` accesses the variable. -/
def AccessAt (tr : List ε) (i : Nat) : Prop := ∃ e, tr[i]? = some e ∧ S.access e = true

/-- The access at `j` observes the value left by the update at `u`. -/
def Observes (tr : List ε) (u j : Nat) : Prop :=
  u < j ∧ UpdateAt S tr u ∧ AccessAt S tr j ∧ ∀ v, u < v → v < j → ¬ UpdateAt S tr v

/-- The update at `i` synchronises with the access at `j`: it is the
update observed there or an earlier one. -/
def SyncWith (tr : List ε) (i j : Nat) : Prop :=
  ∃ u, Observes S tr u j ∧ UpdateAt S tr i ∧ i ≤ u

/-- The transitive closure of program order and synchronisation. -/
def HappensBefore (tr : List ε) : Nat → Nat → Prop :=
  Relation.TransGen fun i j => ProgramOrder S tr i j ∨ SyncWith S tr i j

variable {S}

/-! ## §2. Edges. -/

/-- Every access observes some update, once there is one. -/
theorem exists_observes {tr : List ε} {j : Nat} (hj : AccessAt S tr j) :
    ∀ (d i : Nat), j - i ≤ d → i < j → UpdateAt S tr i → ∃ u, Observes S tr u j ∧ i ≤ u := by
  intro d
  induction d with
  | zero => intro i hd hlt _; omega
  | succ d ih =>
      intro i hd hlt hi
      by_cases hnext : ∃ v, i < v ∧ v < j ∧ UpdateAt S tr v
      · obtain ⟨v, hiv, hvj, hv⟩ := hnext
        obtain ⟨u, hu, hvu⟩ := ih v (by omega) hvj hv
        exact ⟨u, hu, by omega⟩
      · refine ⟨i, ⟨hlt, hi, hj, ?_⟩, Nat.le_refl i⟩
        intro v hiv hvj hv
        exact hnext ⟨v, hiv, hvj, hv⟩

/-- An update synchronises with every later access. -/
theorem syncWith_of_lt {tr : List ε} {i j : Nat} (hlt : i < j) (hi : UpdateAt S tr i)
    (hj : AccessAt S tr j) : SyncWith S tr i j := by
  obtain ⟨u, hu, hle⟩ := exists_observes hj (j - i) i (Nat.le_refl _) hlt hi
  exact ⟨u, hu, hi, hle⟩

/-- **Publication**: what a thread did before an update happens before what
another thread does after an access that comes later. -/
theorem HappensBefore.publish {tr : List ε} {i u l j : Nat} (hiu : ProgramOrder S tr i u)
    (hlt : u < l) (hu : UpdateAt S tr u) (hl : AccessAt S tr l) (hlj : ProgramOrder S tr l j) :
    HappensBefore S tr i j :=
  ((Relation.TransGen.single (.inl hiu)).tail (.inr (syncWith_of_lt hlt hu hl))).tail (.inl hlj)

end Lib
