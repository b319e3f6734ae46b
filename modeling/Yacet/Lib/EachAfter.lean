import Mathlib.Data.List.Basic
import Mathlib.Tactic

/-!
# A condition on each element of a list and the elements before it

* `EachAfter P l` — every element `a` of `l` satisfies `P pre a`, where `pre` is what precedes it.
* `eachAfter_append` — the step of an induction that reads a list from left to right.
-/

/-- Every element satisfies `P` together with the elements before it. -/
def EachAfter {α : Type*} (P : List α → α → Prop) (l : List α) : Prop :=
  ∀ pre a post, l = pre ++ a :: post → P pre a

variable {α : Type*} {P : List α → α → Prop} {l : List α} {a : α}

theorem eachAfter_nil : EachAfter P [] := by
  intro pre a post h
  simp at h

theorem eachAfter_append : EachAfter P (l ++ [a]) ↔ EachAfter P l ∧ P l a := by
  constructor
  · refine fun h => ⟨fun pre b post he => ?_, h l a [] rfl⟩
    exact h pre b (post ++ [a]) (by rw [he]; simp)
  · rintro ⟨h1, h2⟩ pre b post he
    rcases post.eq_nil_or_concat with rfl | ⟨post, x, rfl⟩
    · obtain ⟨rfl, hab⟩ := List.append_inj' he rfl
      rw [List.cons.injEq] at hab
      rw [← hab.1]
      exact h2
    · rw [List.concat_eq_append, ← List.cons_append, ← List.append_assoc] at he
      exact h1 pre b post (List.append_inj' he rfl).1
