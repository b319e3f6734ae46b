import Mathlib.Data.Finset.Card
import Mathlib.Tactic

/-!
# Condition variables and lost wake-ups

The waiters of a condition variable sleep until a signal, or nothing at all, wakes them; a woken
waiter has still to get the mutex, and another thread may come first.

* `Cond` — who sleeps, and who has been woken and has not come on yet.
* `signal` — wakes one sleeper, if there is one.
* `NoLost n c` — whoever sleeps while `n` units are there sleeps because as many waiters are woken.
* `NoLost.signal`, `NoLost.leave` — **a unit that comes with a signal and a unit that a woken waiter
  takes leave no wake-up lost.**
-/

namespace Condition

variable {ι : Type*} [DecidableEq ι]

/-- The waiters of a condition variable. -/
structure Cond (ι : Type*) [DecidableEq ι] where
  asleep : Finset ι
  woken : Finset ι
  apart : Disjoint asleep woken

namespace Cond

def init : Cond ι := ⟨∅, ∅, Finset.disjoint_empty_left ∅⟩

/-- `pthread_cond_wait` up to where the thread sleeps. -/
def sleep (c : Cond ι) (t : ι) : Cond ι where
  asleep := insert t c.asleep
  woken := c.woken.erase t
  apart := by
    rw [Finset.disjoint_insert_left]
    exact ⟨Finset.notMem_erase t _, c.apart.mono_right (Finset.erase_subset t _)⟩

/-- A thread wakes. -/
def wake (c : Cond ι) (t : ι) : Cond ι where
  asleep := c.asleep.erase t
  woken := insert t c.woken
  apart := by
    rw [Finset.disjoint_insert_right]
    exact ⟨Finset.notMem_erase t _, c.apart.mono_left (Finset.erase_subset t _)⟩

/-- A woken thread has got the mutex and comes back from `pthread_cond_wait`. -/
def leave (c : Cond ι) (t : ι) : Cond ι where
  asleep := c.asleep
  woken := c.woken.erase t
  apart := c.apart.mono_right (Finset.erase_subset t _)

/-- `pthread_cond_signal`; `who` is the thread that it wakes. -/
def signal (c : Cond ι) : Option ι → Option (Cond ι)
  | none => if c.asleep = ∅ then some c else none
  | some t => if t ∈ c.asleep then some (c.wake t) else none

variable {c c' : Cond ι} {t u : ι} {who : Option ι}

/-- A waiter sleeps or has been woken. -/
def Waits (c : Cond ι) (t : ι) : Prop := t ∈ c.asleep ∨ t ∈ c.woken

@[simp] theorem not_waits_init : ¬ (init : Cond ι).Waits u := by
  simp [Waits, init]

theorem waits_sleep : (c.sleep t).Waits u ↔ u = t ∨ c.Waits u := by
  unfold Waits sleep
  simp only [Finset.mem_insert, Finset.mem_erase]
  by_cases hut : u = t
  · simp [hut]
  · simp [hut]

theorem waits_wake (ht : c.Waits t) : (c.wake t).Waits u ↔ c.Waits u := by
  unfold Waits wake
  simp only [Finset.mem_insert, Finset.mem_erase]
  by_cases hut : u = t
  · subst hut
    exact iff_of_true (Or.inr (Or.inl rfl)) ht
  · simp [hut]

theorem waits_leave (ht : t ∈ c.woken) : (c.leave t).Waits u ↔ u ≠ t ∧ c.Waits u := by
  have hno : t ∉ c.asleep := fun hmem => Finset.disjoint_left.1 c.apart hmem ht
  unfold Waits leave
  simp only [Finset.mem_erase]
  by_cases hut : u = t
  · subst hut
    simp [hno]
  · simp [hut]

theorem signal_cases (h : c.signal who = some c') :
    c.asleep = ∅ ∧ c' = c ∨ ∃ t ∈ c.asleep, c' = c.wake t := by
  unfold signal at h
  split at h
  · split at h
    · rename_i hempty
      cases h
      exact Or.inl ⟨hempty, rfl⟩
    · cases h
  · split at h
    · rename_i ht
      cases h
      exact Or.inr ⟨_, ht, rfl⟩
    · cases h

theorem waits_signal (h : c.signal who = some c') : c'.Waits u ↔ c.Waits u := by
  rcases signal_cases h with ⟨-, rfl⟩ | ⟨t, ht, rfl⟩
  · exact Iff.rfl
  · exact waits_wake (Or.inl ht)

end Cond

/-! ## Wake-ups -/

open Cond

/-- Whoever sleeps while `n` units are there sleeps because as many waiters are woken. -/
def NoLost (n : ℕ) (c : Cond ι) : Prop := c.asleep.Nonempty → n ≤ c.woken.card

variable {c c' : Cond ι} {t : ι} {who : Option ι} {m n : ℕ}

theorem noLost_zero (c : Cond ι) : NoLost 0 c := fun _ => Nat.zero_le _

namespace NoLost

theorem mono (h : NoLost n c) (hmn : m ≤ n) : NoLost m c := fun hne => hmn.trans (h hne)

/-- A thread wakes without a reason. -/
theorem wake (h : NoLost n c) (ht : t ∈ c.asleep) : NoLost n (c.wake t) :=
  fun _ => (h ⟨t, ht⟩).trans (Finset.card_le_card (Finset.subset_insert t _))

/-- **A unit comes with a signal.** -/
theorem signal (h : NoLost n c) (hs : c.signal who = some c') : NoLost (n + 1) c' := by
  rcases signal_cases hs with ⟨hempty, rfl⟩ | ⟨t, ht, rfl⟩
  · intro hne
    rw [hempty] at hne
    exact absurd hne Finset.not_nonempty_empty
  · intro _
    have hnew : t ∉ c.woken := Finset.disjoint_left.1 c.apart ht
    show n + 1 ≤ (insert t c.woken).card
    rw [Finset.card_insert_of_notMem hnew]
    exact Nat.succ_le_succ (h ⟨t, ht⟩)

/-- **A woken waiter takes a unit.** -/
theorem leave (h : NoLost n c) (t : ι) : NoLost (n - 1) (c.leave t) := by
  intro hne
  have hle := h hne
  have hcard : c.woken.card - 1 ≤ (c.woken.erase t).card := Finset.pred_card_le_card_erase
  show n - 1 ≤ (c.woken.erase t).card
  omega

end NoLost

end Condition
