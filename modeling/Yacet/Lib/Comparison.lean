import Yacet.Lib.Search

/-!
# What `qsort` and `bsearch` promise

The two functions rely on their comparison: `qsort` sorts only by one that orders the elements, and
`bsearch` misses nothing only in an array that its key cuts in two.

* `Orders cmp xs` — the comparison is a total order on the elements, up to equal ones.
* `Qsort`, `Bsearch` — what the functions may return.
* `qsort_insertionSort`, `bsearch_search` — a stable sort and the binary search return such a thing.
* `exists_runAt_eq_filter` — wherever a search lands, the scans around it take all equal elements.
* `orders_bmod_iff` — **a difference that is cut down to a machine integer orders the elements iff
  they lie on one half of the circle.**
-/

namespace Comparison

open Search

variable {α : Type*} {cmp : α → α → ℤ} {xs ys : List α}

/-- A comparison that is a total order on the elements, up to equal ones. -/
structure Orders (cmp : α → α → ℤ) (xs : List α) : Prop where
  antisymm : ∀ a ∈ xs, ∀ b ∈ xs, cmp a b < 0 ↔ 0 < cmp b a
  trans : ∀ a ∈ xs, ∀ b ∈ xs, ∀ c ∈ xs, cmp a b ≤ 0 → cmp b c ≤ 0 → cmp a c ≤ 0

/-- What `qsort` may make of an array. -/
structure Qsort (cmp : α → α → ℤ) (xs ys : List α) : Prop where
  perm : ys.Perm xs
  sorted : Orders cmp xs → ys.Pairwise fun a b => cmp a b ≤ 0

/-- What `bsearch` may answer; `cmp` compares the key with an element. -/
structure Bsearch (cmp : α → ℤ) (xs : List α) (found : Option ℕ) : Prop where
  some : ∀ i, found = some i → ∃ hi : i < xs.length, cmp xs[i] = 0
  none : Parted cmp xs → found = none → ∀ a ∈ xs, cmp a ≠ 0

namespace Orders

theorem of_key {key : α → ℤ} (h : ∀ a ∈ xs, ∀ b ∈ xs, cmp a b = key a - key b) : Orders cmp xs := by
  constructor
  · intro a ha b hb
    rw [h a ha b hb, h b hb a ha]
    omega
  · intro a ha b hb c hc
    rw [h a ha b hb, h b hb c hc, h a ha c hc]
    omega

theorem total (h : Orders cmp xs) {a b : α} (ha : a ∈ xs) (hb : b ∈ xs) :
    cmp a b ≤ 0 ∨ cmp b a ≤ 0 := by
  have := h.antisymm b hb a ha
  omega

theorem mono (h : Orders cmp ys) (hsub : ∀ a ∈ xs, a ∈ ys) : Orders cmp xs :=
  ⟨fun a ha b hb => h.antisymm a (hsub a ha) b (hsub b hb),
    fun a ha b hb c hc => h.trans a (hsub a ha) b (hsub b hb) c (hsub c hc)⟩

/-- Some element is smallest. -/
theorem exists_min (h : Orders cmp xs) (hne : xs ≠ []) : ∃ m ∈ xs, ∀ b ∈ xs, cmp m b ≤ 0 := by
  induction xs with
  | nil => exact absurd rfl hne
  | cons x xs ih =>
      have hself : cmp x x ≤ 0 := by
        have := h.total List.mem_cons_self (List.mem_cons_self (a := x) (l := xs))
        omega
      by_cases hnil : xs = []
      · subst hnil
        exact ⟨x, List.mem_cons_self, by simpa using hself⟩
      · obtain ⟨m, hm, hmin⟩ := ih (h.mono fun a ha => List.mem_cons_of_mem x ha) hnil
        have hm' := List.mem_cons_of_mem x hm
        rcases h.total List.mem_cons_self hm' with hle | hle
        · refine ⟨x, List.mem_cons_self, List.forall_mem_cons.2 ⟨hself, fun b hb => ?_⟩⟩
          exact h.trans x List.mem_cons_self m hm' b (List.mem_cons_of_mem x hb) hle (hmin b hb)
        · exact ⟨m, hm', List.forall_mem_cons.2 ⟨hle, hmin⟩⟩

end Orders

/-! ## Functions that keep the promise -/

/-- **A stable sort sorts as `qsort` may.** -/
theorem qsort_insertionSort (cmp : α → α → ℤ) (xs : List α) :
    Qsort cmp xs (xs.insertionSort fun a b => cmp a b ≤ 0) := by
  refine ⟨List.perm_insertionSort _ _, fun h => ?_⟩
  -- on the elements themselves the comparison is total and transitive
  let r : {a // a ∈ xs} → {a // a ∈ xs} → Prop := fun a b => cmp a.1 b.1 ≤ 0
  have : Std.Total r := ⟨fun a b => h.total a.2 b.2⟩
  have : IsTrans _ r := ⟨fun a b c => h.trans a.1 a.2 b.1 b.2 c.1 c.2⟩
  have hmap := List.map_insertionSort (r := r) (s := fun a b => cmp a b ≤ 0) Subtype.val xs.attach
    fun _ _ _ _ => Iff.rfl
  rw [List.attach_map_subtype_val] at hmap
  rw [← hmap, List.pairwise_map]
  exact List.pairwise_insertionSort r xs.attach

/-- **The binary search answers as `bsearch` may.** -/
theorem bsearch_search (cmp : α → ℤ) (xs : List α) : Bsearch cmp xs (search cmp xs) :=
  ⟨fun _ hi => search_some hi, fun hparted hnone => hparted.search_none hnone⟩

/-- **Wherever a search lands in a sorted array, the scans take all elements of the key**, if the
comparison is the difference of the places. -/
theorem exists_runAt_eq_filter {cmp : α → ℤ} {key place : α → ℕ} {v p : ℕ} {found : Option ℕ}
    (hsorted : xs.Pairwise fun a b => place a ≤ place b)
    (hcmp : ∀ a ∈ xs, cmp a = (p : ℤ) - place a) (hkey : ∀ a ∈ xs, key a = v ↔ place a = p)
    (hfind : Bsearch cmp xs found) {a : α} (ha : a ∈ xs) (hav : key a = v) :
    ∃ i, found = some i ∧ runAt key v xs i = xs.filter fun a => key a = v := by
  have hparted : Parted cmp xs := by
    apply hsorted.imp_of_mem
    intro b c hb hc hle
    rw [hcmp b hb, hcmp c hc]
    omega
  cases found with
  | none =>
      have hne := hfind.none hparted rfl a ha
      rw [hcmp a ha, (hkey a ha).1 hav, sub_self] at hne
      exact absurd rfl hne
  | some i =>
      obtain ⟨hi, hzero⟩ := hfind.some i rfl
      have hland : place xs[i] = p := by
        rw [hcmp _ (List.getElem_mem hi)] at hzero
        omega
      have hfilter : xs.filter (fun a => place a = p) = xs.filter fun a => key a = v := by
        apply List.filter_congr
        intro b hb
        rw [decide_eq_decide, hkey b hb]
      refine ⟨i, rfl, ?_⟩
      rw [runAt_congr hkey, ← hfilter]
      exact run_eq_filter hsorted hi hland

/-! ## Differences that wrap around -/

/-- Elements on one half of a circle of `m` points. -/
def OnHalf (m : ℕ) (key : α → ℤ) (xs : List α) : Prop := ∃ c, ∀ a ∈ xs, (key a - c) % m * 2 < m

theorem onHalf_map {β : Type*} {m : ℕ} {key : α → ℤ} {f : β → α} {bs : List β} :
    OnHalf m key (bs.map f) ↔ OnHalf m (fun b => key (f b)) bs := by
  simp only [OnHalf, List.forall_mem_map]

/-- On one half the difference that is cut down is the difference from its beginning. -/
theorem bmod_sub_eq {m : ℕ} {a b c : ℤ} (ha : (a - c) % m * 2 < m) (hb : (b - c) % m * 2 < m) :
    (a - b).bmod m = (a - c) % m - (b - c) % m := by
  rcases Nat.eq_zero_or_pos m with rfl | hm
  · simp at ha hb ⊢
  · have hpos : (m : ℤ) ≠ 0 := by omega
    have ha' := Int.emod_nonneg (a - c) hpos
    have hb' := Int.emod_nonneg (b - c) hpos
    have hmod : (a - b) % m = ((a - c) % m - (b - c) % m) % m := by
      rw [← Int.sub_emod]
      congr 1
      omega
    rw [← Int.emod_bmod, hmod, Int.emod_bmod]
    exact Int.bmod_eq_of_le_mul_two (by omega) (by omega)

/-- **The difference orders the elements iff they lie on one half of the circle.** -/
theorem orders_bmod_iff {m : ℕ} (hm : 0 < m) {key : α → ℤ} :
    Orders (fun a b => (key a - key b).bmod m) xs ↔ OnHalf m key xs := by
  constructor
  · intro h
    by_cases hne : xs = []
    · subst hne
      exact ⟨0, by simp⟩
    · obtain ⟨p, hp, hmin⟩ := h.exists_min hne
      refine ⟨key p, fun a ha => ?_⟩
      have hnonneg : ¬ (key a - key p).bmod m < 0 := by
        rw [h.antisymm a ha p hp]
        exact not_lt.2 (hmin a ha)
      by_contra hge
      apply hnonneg
      have hlt := Int.emod_lt_of_pos (key a - key p) (show (0 : ℤ) < m by omega)
      rw [Int.bmod_neg _ _ (by omega)]
      omega
  · rintro ⟨c, hc⟩
    exact Orders.of_key fun a ha b hb => bmod_sub_eq (hc a ha) (hc b hb)

end Comparison
