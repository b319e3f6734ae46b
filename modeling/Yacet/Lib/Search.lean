import Mathlib.Data.List.Sort
import Mathlib.Data.List.TakeWhile
import Mathlib.Tactic

/-!
# Binary search and runs of equal keys

`bsearch` over the comparisons of a key with the elements of an array, and the two scans that widen
a hit to all elements of the same key.

* `bsearch_some`, `bsearch_none` — on a sorted array the search finds an equal element iff there is
  one.
* `runStart` — the backward scan from a hit; `takeWhile` on what follows is the forward scan.
* `run_eq_filter` — **on a sorted array the two scans collect exactly the elements of the key.**
* `lookupRun_eq_filter` — so do search and scans together.
* `runAt` — the scans from any place that a search may land on.
-/

namespace Search

/-! ## Binary search -/

/-- `bsearch` on the positions from `l` to `u`; `cmp i` compares the key with element `i`. -/
def bsearchLoop (cmp : ℕ → ℤ) : ℕ → ℕ → ℕ → Option ℕ
  | 0, _, _ => none
  | fuel + 1, l, u =>
    if l < u then
      let i := (l + u) / 2
      if cmp i < 0 then bsearchLoop cmp fuel l i
      else if cmp i > 0 then bsearchLoop cmp fuel (i + 1) u
      else some i
    else none

/-- `bsearch` in an array of length `n`. -/
def bsearch (cmp : ℕ → ℤ) (n : ℕ) : Option ℕ := bsearchLoop cmp n 0 n

variable {cmp : ℕ → ℤ} {fuel l u n i j : ℕ}

theorem bsearchLoop_some (h : bsearchLoop cmp fuel l u = some i) : l ≤ i ∧ i < u ∧ cmp i = 0 := by
  induction fuel generalizing l u with
  | zero => cases h
  | succ fuel ih =>
      rw [bsearchLoop] at h
      split at h
      · simp only at h
        split at h
        · obtain ⟨hl, hu, hi⟩ := ih h
          exact ⟨hl, by omega, hi⟩
        · split at h
          · obtain ⟨hl, hu, hi⟩ := ih h
            exact ⟨by omega, hu, hi⟩
          · cases h
            exact ⟨by omega, by omega, by omega⟩
      · cases h

/-- What is smaller or greater than the key stays so on its side. -/
structure Monotone (cmp : ℕ → ℤ) (n : ℕ) : Prop where
  neg : ∀ i j, i ≤ j → j < n → cmp i < 0 → cmp j < 0
  pos : ∀ i j, i ≤ j → j < n → cmp j > 0 → cmp i > 0

/-- **The search misses no equal element.** -/
theorem bsearchLoop_isSome (hmono : Monotone cmp n) (hfuel : u ≤ l + fuel) (hu : u ≤ n)
    (hj : l ≤ j ∧ j < u) (hzero : cmp j = 0) : (bsearchLoop cmp fuel l u).isSome := by
  induction fuel generalizing l u with
  | zero => omega
  | succ fuel ih =>
      rw [bsearchLoop, if_pos (by omega)]
      simp only
      split
      · rename_i hneg
        have hji : j < (l + u) / 2 := by
          by_contra hle
          have := hmono.neg _ j (by omega) (by omega) hneg
          omega
        exact ih (by omega) (by omega) ⟨hj.1, hji⟩
      · split
        · rename_i hpos
          have hij : (l + u) / 2 < j := by
            by_contra hle
            have := hmono.pos j _ (by omega) (by omega) hpos
            omega
          exact ih (by omega) hu ⟨hij, hj.2⟩
        · rfl

theorem bsearch_some (h : bsearch cmp n = some i) : i < n ∧ cmp i = 0 := by
  obtain ⟨-, hi, hzero⟩ := bsearchLoop_some h
  exact ⟨hi, hzero⟩

theorem bsearch_none (hmono : Monotone cmp n) (h : bsearch cmp n = none) :
    ∀ j < n, cmp j ≠ 0 := by
  intro j hj hzero
  have hsome : (bsearchLoop cmp n 0 n).isSome :=
    bsearchLoop_isSome hmono (by omega) le_rfl ⟨Nat.zero_le j, hj⟩ hzero
  rw [bsearch] at h
  rw [h] at hsome
  cases hsome

/-! ## Runs -/

/-- The backward scan: as long as the element in front has the key. -/
def runStart (same : ℕ → Bool) : ℕ → ℕ
  | 0 => 0
  | i + 1 => if same i then runStart same i else i + 1

variable {same : ℕ → Bool}

theorem runStart_le (same : ℕ → Bool) (i : ℕ) : runStart same i ≤ i := by
  induction i with
  | zero => exact le_rfl
  | succ i ih =>
      rw [runStart]
      split
      · exact ih.trans (Nat.le_succ i)
      · exact le_rfl

/-- The scan stops at the front or behind an element of another key. -/
theorem runStart_stop (same : ℕ → Bool) (i : ℕ) (h : j + 1 = runStart same i) :
    same j = false := by
  induction i with
  | zero => cases h
  | succ i ih =>
      rw [runStart] at h
      split at h
      · exact ih h
      · rename_i hsame
        cases h
        exact Bool.not_eq_true _ ▸ hsame

/-- It has passed elements of the key only. -/
theorem runStart_same (h : runStart same i ≤ j) (hj : j < i) : same j = true := by
  induction i with
  | zero => omega
  | succ i ih =>
      rw [runStart] at h
      split at h
      · rename_i hsame
        rcases Nat.lt_or_eq_of_le (Nat.le_of_lt_succ hj) with hlt | rfl
        · exact ih h hlt
        · exact hsame
      · omega

section Keys

variable {α : Type*} {key : α → ℕ} {v : ℕ} {xs : List α}

/-- The forward scan over a sorted rest takes all elements of the least key. -/
theorem takeWhile_eq_filter (h : xs.Pairwise fun a b => key a ≤ key b) (hv : ∀ a ∈ xs, v ≤ key a) :
    xs.takeWhile (fun a => key a = v) = xs.filter fun a => key a = v := by
  induction xs with
  | nil => rfl
  | cons x xs ih =>
      obtain ⟨hx, hxs⟩ := List.pairwise_cons.1 h
      rw [List.takeWhile_cons, List.filter_cons]
      split
      · rw [ih hxs fun a ha => hv a (List.mem_cons_of_mem _ ha)]
      · rename_i hne
        rw [eq_comm, List.filter_eq_nil_iff]
        intro a ha
        have h1 := hv x List.mem_cons_self
        have h2 := hx a ha
        simp only [decide_eq_true_eq] at hne ⊢
        omega

theorem key_le (h : xs.Pairwise fun a b => key a ≤ key b) (hij : i ≤ j) (hj : j < xs.length) :
    key xs[i] ≤ key xs[j] := by
  rcases Nat.lt_or_eq_of_le hij with hlt | rfl
  · exact List.pairwise_iff_getElem.1 h i j _ hj hlt
  · exact le_rfl

/-- **Both scans together collect the elements of the key.** -/
theorem run_eq_filter (h : xs.Pairwise fun a b => key a ≤ key b) (hi : i < xs.length)
    (hkey : key xs[i] = v) :
    (xs.drop (runStart (fun j => xs[j]?.map key = some v) i)).takeWhile (fun a => key a = v) =
      xs.filter fun a => key a = v := by
  have hsame : ∀ j, (hj : j < xs.length) →
      (decide (xs[j]?.map key = some v) = true ↔ key xs[j] = v) := by
    intro j hj
    simp [List.getElem?_eq_getElem hj]
  generalize hs : runStart (fun j => xs[j]?.map key = some v) i = s
  have hsi : s ≤ i := hs ▸ runStart_le _ i
  have hfront : ∀ a ∈ xs.take s, key a ≠ v := by
    intro a ha heq
    obtain ⟨j, hj, rfl⟩ := List.mem_iff_getElem.1 ha
    rw [List.length_take] at hj
    rw [List.getElem_take] at heq
    obtain ⟨t, rfl⟩ : ∃ t, s = t + 1 := ⟨s - 1, by omega⟩
    have hstop : ¬ key xs[t] = v := by
      rw [← hsame t (by omega), Bool.not_eq_true]
      exact runStart_stop _ i hs.symm
    have hjt := key_le h (show j ≤ t by omega) (by omega)
    have hti := key_le h (show t ≤ i by omega) hi
    omega
  have hrest : ∀ a ∈ xs.drop s, v ≤ key a := by
    have hstart : key xs[s] = v := by
      rcases Nat.lt_or_eq_of_le hsi with hlt | rfl
      · exact (hsame s (by omega)).1 (runStart_same hs.le hlt)
      · exact hkey
    intro a ha
    obtain ⟨j, hj, rfl⟩ := List.mem_iff_getElem.1 ha
    rw [List.length_drop] at hj
    rw [List.getElem_drop, ← hstart]
    exact key_le h (Nat.le_add_right s j) (by omega)
  calc (xs.drop s).takeWhile (fun a => key a = v)
      = (xs.drop s).filter fun a => key a = v :=
        takeWhile_eq_filter (h.sublist (List.drop_sublist s xs)) hrest
    _ = (xs.take s).filter (fun a => key a = v) ++ (xs.drop s).filter fun a => key a = v := by
        have hnil : (xs.take s).filter (fun a => key a = v) = [] := by
          rw [List.filter_eq_nil_iff]
          intro a ha
          simpa using hfront a ha
        rw [hnil, List.nil_append]
    _ = xs.filter fun a => key a = v := by
        rw [← List.filter_append, List.take_append_drop]

/-! ## Search and scans on a list -/

/-- `bsearch` in an array; `cmp` compares the key with an element. -/
def search (cmp : α → ℤ) (xs : List α) : Option ℕ :=
  bsearch (fun i => (xs[i]?.map cmp).getD 0) xs.length

/-- The elements of key `v` around the hit of a search. -/
def lookupRun (cmp : α → ℤ) (key : α → ℕ) (v : ℕ) (xs : List α) : List α :=
  match search cmp xs with
  | none => []
  | some i =>
    (xs.drop (runStart (fun j => xs[j]?.map key = some v) i)).takeWhile fun a => key a = v

/-- Both scans from position `i`. -/
def runAt (key : α → ℕ) (v : ℕ) (xs : List α) (i : ℕ) : List α :=
  (xs.drop (runStart (fun j => xs[j]?.map key = some v) i)).takeWhile fun a => key a = v

theorem runAt_sublist : (runAt key v xs i).Sublist xs :=
  (List.takeWhile_sublist _).trans (List.drop_sublist _ _)

theorem key_of_mem_runAt {a : α} (h : a ∈ runAt key v xs i) : key a = v := by
  unfold runAt at h
  simpa using List.mem_takeWhile_imp h

/-- A scan that starts where no element up to it has the key takes nothing. -/
theorem runAt_eq_nil (hi : i < xs.length) (h : ∀ j (hj : j < xs.length), j ≤ i → key xs[j] ≠ v) :
    runAt key v xs i = [] := by
  have hstart : runStart (fun j => xs[j]?.map key = some v) i < xs.length :=
    (runStart_le _ i).trans_lt hi
  rw [runAt, List.drop_eq_getElem_cons hstart, List.takeWhile_cons, if_neg]
  simpa using h _ hstart (runStart_le _ i)

/-- Scans by two keys that agree on which elements to take. -/
theorem runAt_congr {key' : α → ℕ} {v' : ℕ} (h : ∀ a ∈ xs, key a = v ↔ key' a = v') :
    runAt key v xs i = runAt key' v' xs i := by
  have hsame : (fun j : ℕ => decide (xs[j]?.map key = some v)) =
      fun j => decide (xs[j]?.map key' = some v') := by
    funext j
    by_cases hj : j < xs.length
    · have hkey := h xs[j] (List.getElem_mem hj)
      simp [List.getElem?_eq_getElem hj, hkey]
    · simp [List.getElem?_eq_none (not_lt.1 hj)]
  have htake : ∀ ys : List α, (∀ a ∈ ys, a ∈ xs) →
      ys.takeWhile (fun a => key a = v) = ys.takeWhile fun a => key' a = v' := by
    intro ys hys
    induction ys with
    | nil => rfl
    | cons y ys ih =>
        rw [List.forall_mem_cons] at hys
        rw [List.takeWhile_cons, List.takeWhile_cons, ih hys.2]
        simp [h y hys.1]
  rw [runAt, runAt, hsame]
  exact htake _ fun a ha => List.mem_of_mem_drop ha

variable {cmp : α → ℤ}

theorem search_some (h : search cmp xs = some i) : ∃ hi : i < xs.length, cmp xs[i] = 0 := by
  obtain ⟨hi, hzero⟩ := bsearch_some h
  refine ⟨hi, ?_⟩
  simpa [List.getElem?_eq_getElem hi] using hzero

/-- The elements smaller than the key come first and those greater than it last. -/
def Parted (cmp : α → ℤ) (xs : List α) : Prop :=
  xs.Pairwise fun a b => (cmp a < 0 → cmp b < 0) ∧ (0 < cmp b → 0 < cmp a)

theorem Parted.monotone (h : Parted cmp xs) :
    Monotone (fun i => (xs[i]?.map cmp).getD 0) xs.length := by
  have hget := List.pairwise_iff_getElem.1 h
  constructor
  · intro i j hij hj hneg
    rcases Nat.eq_or_lt_of_le hij with rfl | hlt
    · exact hneg
    · simp only [List.getElem?_eq_getElem hj, List.getElem?_eq_getElem (hij.trans_lt hj),
        Option.map_some, Option.getD_some] at hneg ⊢
      exact (hget i j _ hj hlt).1 hneg
  · intro i j hij hj hpos
    rcases Nat.eq_or_lt_of_le hij with rfl | hlt
    · exact hpos
    · simp only [List.getElem?_eq_getElem hj, List.getElem?_eq_getElem (hij.trans_lt hj),
        Option.map_some, Option.getD_some] at hpos ⊢
      exact (hget i j _ hj hlt).2 hpos

/-- **The search of a parted array misses no equal element.** -/
theorem Parted.search_none (h : Parted cmp xs) (hnone : search cmp xs = none) :
    ∀ a ∈ xs, cmp a ≠ 0 := by
  intro a ha hzero
  obtain ⟨j, hj, rfl⟩ := List.mem_iff_getElem.1 ha
  refine bsearch_none h.monotone hnone j hj ?_
  simp [List.getElem?_eq_getElem hj, hzero]

/-- The comparison orders the elements by their keys. -/
structure Compares (cmp : α → ℤ) (key : α → ℕ) (v : ℕ) (xs : List α) : Prop where
  neg : ∀ a ∈ xs, cmp a < 0 ↔ v < key a
  pos : ∀ a ∈ xs, cmp a > 0 ↔ key a < v

theorem Compares.zero (h : Compares cmp key v xs) {a : α} (ha : a ∈ xs) :
    cmp a = 0 ↔ key a = v := by
  have hneg := h.neg a ha
  have hpos := h.pos a ha
  omega

theorem Compares.parted (h : Compares cmp key v xs) (hs : xs.Pairwise fun a b => key a ≤ key b) :
    Parted cmp xs := by
  have hpos : ∀ a ∈ xs, 0 < cmp a ↔ key a < v := h.pos
  apply hs.imp_of_mem
  intro a b ha hb hle
  rw [h.neg a ha, h.neg b hb, hpos a ha, hpos b hb]
  exact ⟨fun hlt => hlt.trans_le hle, fun hlt => hle.trans_lt hlt⟩

theorem search_none (h : Compares cmp key v xs) (hs : xs.Pairwise fun a b => key a ≤ key b)
    (hnone : search cmp xs = none) : ∀ a ∈ xs, key a ≠ v := by
  intro a ha heq
  exact (h.parted hs).search_none hnone a ha ((h.zero ha).2 heq)

/-- **On a sorted array the lookup is the filter.** -/
theorem lookupRun_eq_filter (h : Compares cmp key v xs)
    (hs : xs.Pairwise fun a b => key a ≤ key b) :
    lookupRun cmp key v xs = xs.filter fun a => key a = v := by
  unfold lookupRun
  split
  · rename_i hnone
    rw [eq_comm, List.filter_eq_nil_iff]
    intro a ha
    simpa using search_none h hs hnone a ha
  · rename_i i hsome
    obtain ⟨hi, hzero⟩ := search_some hsome
    exact run_eq_filter hs hi ((h.zero (List.getElem_mem hi)).1 hzero)

end Keys

/-! ## Sorting by a comparison -/

/-- A comparison that orders the elements of a list by their keys sorts it by them. -/
theorem pairwise_insertionSort {α κ : Type*} [LinearOrder κ] {key : α → κ} {r : α → α → Prop}
    [DecidableRel r] {xs : List α} (h : ∀ a ∈ xs, ∀ b ∈ xs, r a b ↔ key a ≤ key b) :
    (xs.insertionSort r).Pairwise fun a b => key a ≤ key b := by
  have : Std.Total fun a b : α => key a ≤ key b := ⟨fun a b => le_total _ _⟩
  have : IsTrans α fun a b => key a ≤ key b := ⟨fun _ _ _ => le_trans⟩
  have heq : xs.insertionSort r = xs.insertionSort fun a b => key a ≤ key b := by
    have := List.map_insertionSort (s := fun a b => key a ≤ key b) (r := r) id xs h
    simpa using this
  rw [heq]
  exact List.pairwise_insertionSort _ _

end Search
