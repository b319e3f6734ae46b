import Mathlib.Data.Set.Insert
import Mathlib.Logic.Function.Basic

/-!
# Threads over one store

Each thread has a memory of its own and reaches a part of a store that all of them share.

* `Bounded` — a step reads and writes only its footprint.
* `run_alone` — where the footprints are disjoint, a thread fares as in the run of its own steps.
* `run_agree` — so what it reaches depends neither on the steps of the others nor on what they find.
* `reach`, `alone_reach` — threads that reach two names each.
-/

namespace Footprint

variable {ι κ ν μ α : Type*}

/-- The steps of one thread, on its memory and the store. -/
abbrev Program (κ ν μ α : Type*) := α → μ → (κ → ν) → Option (μ × (κ → ν))

/-- The two stores hold the same under the names of the footprint. -/
def Agree (foot : Set κ) (s s' : κ → ν) : Prop := ∀ k ∈ foot, s k = s' k

/-- The steps read and write only their footprint. -/
structure Bounded (p : Program κ ν μ α) (foot : Set κ) : Prop where
  frame : ∀ {a m s m' s'}, p a m s = some (m', s') → ∀ k ∉ foot, s' k = s k
  reads : ∀ {a m s m' s' u}, Agree foot s u → p a m s = some (m', s') →
    ∃ u', p a m u = some (m', u') ∧ Agree foot s' u'

/-- The memories of the threads and the store. -/
structure Shared (ι κ ν μ : Type*) where
  mem : ι → μ
  store : κ → ν

/-- The program of a thread that reaches two names. -/
def reach [DecidableEq κ] (k l : κ) (f : α → μ → ν → ν → Option (μ × ν × ν)) : Program κ ν μ α :=
  fun a m s => (f a m (s k) (s l)).map fun (m', v, w) =>
    (m', Function.update (Function.update s l w) k v)

theorem reach_bounded [DecidableEq κ] (k l : κ) (f : α → μ → ν → ν → Option (μ × ν × ν)) :
    Bounded (reach k l f) {k, l} := by
  constructor
  · intro a m s m' s' h i hi
    obtain ⟨⟨m'', v, w⟩, -, heq⟩ := Option.map_eq_some_iff.1 h
    cases heq
    rw [Set.mem_insert_iff, Set.mem_singleton_iff, not_or] at hi
    rw [Function.update_of_ne hi.1, Function.update_of_ne hi.2]
  · intro a m s m' s' u hagree h
    obtain ⟨⟨m'', v, w⟩, hf, heq⟩ := Option.map_eq_some_iff.1 h
    cases heq
    refine ⟨Function.update (Function.update u l w) k v, ?_, ?_⟩
    · rw [reach, ← hagree k (by simp), ← hagree l (by simp), hf]
      rfl
    · rintro i hi
      by_cases hik : i = k
      · rw [hik, Function.update_self, Function.update_self]
      · have hil : i = l := by simpa [hik] using hi
        rw [Function.update_of_ne hik, Function.update_of_ne hik, hil, Function.update_self,
          Function.update_self]

/-! ## Runs -/

/-- The steps of a thread alone. -/
def alone (p : Program κ ν μ α) : List α → μ → (κ → ν) → Option (μ × (κ → ν))
  | [], m, s => some (m, s)
  | a :: as, m, s => (p a m s).bind fun (m', s') => alone p as m' s'

variable [DecidableEq ι] {p : ι → Program κ ν μ α} {foot : ι → Set κ} {i : ι}
  {ls ls₁ ls₂ : List (ι × α)} {σ σ' σ₁ σ₂ τ₁ τ₂ : Shared ι κ ν μ} {s : κ → ν}

/-- The steps of all threads, in some order. -/
def run (p : ι → Program κ ν μ α) : List (ι × α) → Shared ι κ ν μ → Option (Shared ι κ ν μ)
  | [], σ => some σ
  | (i, a) :: ls, σ => (p i a (σ.mem i) σ.store).bind fun (m, s) =>
      run p ls ⟨Function.update σ.mem i m, s⟩

/-- The labels of one thread. -/
def own (i : ι) (ls : List (ι × α)) : List α :=
  ls.filterMap fun l => if l.1 = i then some l.2 else none

/-- **A thread fares as in the run of its own steps**, from any store that agrees on its
footprint. -/
theorem run_alone (hb : ∀ i, Bounded (p i) (foot i))
    (hd : ∀ i j, i ≠ j → ∀ k ∈ foot i, k ∉ foot j) (h : run p ls σ = some σ')
    (hagree : Agree (foot i) σ.store s) :
    ∃ s', alone (p i) (own i ls) (σ.mem i) s = some (σ'.mem i, s') ∧
      Agree (foot i) σ'.store s' := by
  induction ls generalizing σ s with
  | nil =>
      cases h
      exact ⟨s, rfl, hagree⟩
  | cons l ls ih =>
      obtain ⟨j, a⟩ := l
      obtain ⟨⟨m, u⟩, hstep, hrest⟩ := Option.bind_eq_some_iff.1 h
      by_cases hji : j = i
      · subst hji
        obtain ⟨u', hstep', hagree'⟩ := (hb j).reads hagree hstep
        obtain ⟨s', hrun, hs'⟩ := ih hrest hagree'
        refine ⟨s', ?_, hs'⟩
        rw [own, List.filterMap_cons_some (by rw [if_pos rfl]), alone, hstep']
        simp only [Function.update_self] at hrun
        exact hrun
      · have hagree' : Agree (foot i) u s := by
          intro k hk
          rw [(hb j).frame hstep k (hd i j (Ne.symm hji) k hk)]
          exact hagree k hk
        obtain ⟨s', hrun, hs'⟩ := ih hrest hagree'
        refine ⟨s', ?_, hs'⟩
        rw [own, List.filterMap_cons_none (by rw [if_neg hji])]
        simp only [Function.update_of_ne (Ne.symm hji)] at hrun
        exact hrun

/-- **What a thread reaches does not depend on the others**: two runs in which it takes the same
steps from the same start leave the same under its names. -/
theorem run_agree (hb : ∀ i, Bounded (p i) (foot i))
    (hd : ∀ i j, i ≠ j → ∀ k ∈ foot i, k ∉ foot j) (h₁ : run p ls₁ σ₁ = some τ₁)
    (h₂ : run p ls₂ σ₂ = some τ₂) (hown : own i ls₁ = own i ls₂) (hmem : σ₁.mem i = σ₂.mem i)
    (hagree : Agree (foot i) σ₁.store σ₂.store) : Agree (foot i) τ₁.store τ₂.store := by
  obtain ⟨s₁, hrun₁, hs₁⟩ := run_alone hb hd h₁ hagree
  obtain ⟨s₂, hrun₂, hs₂⟩ := run_alone hb hd h₂ (fun _ _ => rfl)
  rw [hown, hmem, hrun₂] at hrun₁
  obtain ⟨-, rfl⟩ := Prod.mk.inj (Option.some.inj hrun₁)
  intro k hk
  rw [hs₁ k hk, hs₂ k hk]

/-! ## One thread -/

/-- The steps of one thread run like the thread alone. -/
theorem run_own {as : List α} {m : μ} (h : alone (p i) as (σ.mem i) σ.store = some (m, s)) :
    run p (as.map (Prod.mk i)) σ = some ⟨Function.update σ.mem i m, s⟩ := by
  induction as generalizing σ with
  | nil =>
      cases h
      rw [Function.update_eq_self]
      rfl
  | cons a as ih =>
      obtain ⟨⟨m', s'⟩, hstep, hrest⟩ := Option.bind_eq_some_iff.1 h
      rw [List.map_cons, run, hstep]
      have hnext := @ih ⟨Function.update σ.mem i m', s'⟩ (by simpa using hrest)
      rw [Function.update_idem] at hnext
      exact hnext

theorem own_map_of_ne {j : ι} (h : i ≠ j) (as : List α) : own j (as.map (Prod.mk i)) = [] := by
  rw [own, List.filterMap_map, List.filterMap_eq_nil_iff]
  intro a _
  exact if_neg h

/-- The steps of a thread on the two contents that it reaches. -/
def both {ν μ α : Type*} (f : α → μ → ν → ν → Option (μ × ν × ν)) :
    List α → μ → ν → ν → Option (μ × ν × ν)
  | [], m, v, w => some (m, v, w)
  | a :: as, m, v, w => (f a m v w).bind fun (m, v, w) => both f as m v w

theorem both_append {f : α → μ → ν → ν → Option (μ × ν × ν)} {as bs : List α} {m m' : μ}
    {v w v' w' : ν} (h : both f as m v w = some (m', v', w')) :
    both f (as ++ bs) m v w = both f bs m' v' w' := by
  induction as generalizing m v w with
  | nil =>
      cases h
      rfl
  | cons a as ih =>
      obtain ⟨⟨m₁, v₁, w₁⟩, hstep, hrest⟩ := Option.bind_eq_some_iff.1 h
      rw [List.cons_append, both, hstep]
      exact ih hrest

/-- **A thread that reaches two different names** leaves under them what its steps make of the two
contents. -/
theorem alone_reach [DecidableEq κ] {k l : κ} (hkl : k ≠ l)
    {f : α → μ → ν → ν → Option (μ × ν × ν)} {as : List α} {m m' : μ} {v w : ν}
    (h : both f as m (s k) (s l) = some (m', v, w)) :
    ∃ s', alone (reach k l f) as m s = some (m', s') ∧ s' k = v ∧ s' l = w := by
  induction as generalizing m s with
  | nil =>
      cases h
      exact ⟨s, rfl, rfl, rfl⟩
  | cons a as ih =>
      obtain ⟨⟨m₁, v₁, w₁⟩, hstep, hrest⟩ := Option.bind_eq_some_iff.1 h
      have hnext : reach k l f a m s =
          some (m₁, Function.update (Function.update s l w₁) k v₁) := by
        rw [reach, hstep]
        rfl
      rw [alone, hnext]
      refine ih ?_
      rw [Function.update_self, Function.update_of_ne (Ne.symm hkl), Function.update_self]
      exact hrest

end Footprint
