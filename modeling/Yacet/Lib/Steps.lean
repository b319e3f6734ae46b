import Mathlib.Data.Nat.Notation
import Mathlib.Logic.Relation

/-!
# Runs of guarded steps

A system is a partial step function; the label of a step carries whatever the system leaves open.

* `Reach` — the states that steps lead to whose guards hold before them.
* `Reach.invariant` — what every guarded step preserves holds in all of them.
* `exists_reach_of_measure` — a step that lowers a measure, wherever the goal is not met, leads to
  the goal.
-/

namespace Steps

variable {α σ : Type*} {step : α → σ → Option σ} {Guard : α → σ → Prop} {I : σ → Prop}
  {s t : σ}

/-- A step whose guard holds before it. -/
def Next (step : α → σ → Option σ) (Guard : α → σ → Prop) (s t : σ) : Prop :=
  ∃ a, Guard a s ∧ step a s = some t

/-- `t` is reached from `s` by guarded steps. -/
def Reach (step : α → σ → Option σ) (Guard : α → σ → Prop) : σ → σ → Prop :=
  Relation.ReflTransGen (Next step Guard)

namespace Reach

theorem refl : Reach step Guard s s := Relation.ReflTransGen.refl

/-- **An invariant of every guarded step holds in every state of a guarded run.** -/
theorem invariant (h : Reach step Guard s t) (h0 : I s)
    (hstep : ∀ a s t, I s → Guard a s → step a s = some t → I t) : I t := by
  induction h with
  | refl => exact h0
  | tail _ hnext ih =>
      obtain ⟨a, hguard, hrun⟩ := hnext
      exact hstep a _ _ ih hguard hrun

/-- A run under a stronger guard. -/
theorem mono {Guard' : α → σ → Prop} (h : Reach step Guard s t)
    (hguard : ∀ a s, Guard a s → Guard' a s) : Reach step Guard' s t := by
  induction h with
  | refl => exact refl
  | tail _ hnext ih =>
      obtain ⟨a, ha, hrun⟩ := hnext
      exact ih.tail ⟨a, hguard a _ ha, hrun⟩

end Reach

/-- **If every state short of the goal has a step that lowers a measure, the goal can be
reached.** -/
theorem exists_reach_of_measure {Goal : σ → Prop} (μ : σ → ℕ)
    (hstep : ∀ s, I s → ¬ Goal s → ∃ a t, Guard a s ∧ step a s = some t ∧ I t ∧ μ t < μ s)
    (h : I s) : ∃ t, Reach step Guard s t ∧ Goal t := by
  induction hμ : μ s using Nat.strongRecOn generalizing s with
  | _ m ih =>
      by_cases hgoal : Goal s
      · exact ⟨s, Reach.refl, hgoal⟩
      · obtain ⟨a, u, hguard, hrun, hu, hlt⟩ := hstep s h hgoal
        obtain ⟨t, hreach, ht⟩ := ih (μ u) (hμ ▸ hlt) hu rfl
        exact ⟨t, Relation.ReflTransGen.head ⟨a, hguard, hrun⟩ hreach, ht⟩

/-- The steps of a list of labels, one after the other, as long as their guards hold. -/
def runGuarded (step : α → σ → Option σ) (Guard : α → σ → Prop) [∀ a s, Decidable (Guard a s)]
    (as : List α) (s : σ) : Option σ :=
  as.foldlM (fun s a => if Guard a s then step a s else none) s

theorem reach_of_runGuarded [∀ a s, Decidable (Guard a s)] {as : List α}
    (h : runGuarded step Guard as s = some t) : Reach step Guard s t := by
  induction as generalizing s with
  | nil =>
      cases h
      exact Reach.refl
  | cons a as ih =>
      rw [runGuarded, List.foldlM_cons] at h
      obtain ⟨u, hu, hrest⟩ := Option.bind_eq_some_iff.1 h
      split at hu
      · rename_i hguard
        exact Relation.ReflTransGen.head ⟨a, hguard, hu⟩ (ih hrest)
      · cases hu

end Steps
