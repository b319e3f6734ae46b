import Mathlib.Data.List.Dedup
import Mathlib.Data.List.Sort
import Mathlib.Tactic

/-!
# Ranks in a list with repeats

* `rank`, `below` — how many of the distinct members, and how many of all members, lie below a
  value.
* `rank_succ` — a value directly above a member has the next rank.
* `below_getElem` — in a sorted list, the first of equal members stands behind those below it.
* `ascending_iff` — **a list has exactly the members, ascending, iff each of them stands at its rank
  and the greatest one is the last.**
-/

namespace Ranks

variable {α : Type*} [LinearOrder α] {l l' : List α} {s x : α}

/-- The number of distinct members below `s`. -/
def rank (l : List α) (s : α) : ℕ := l.dedup.countP (· < s)

/-- The number of members below `s`. -/
def below (l : List α) (s : α) : ℕ := l.countP (· < s)

theorem below_perm (h : l.Perm l') (s : α) : below l s = below l' s := h.countP_eq _

theorem rank_eq_zero (h : ∀ r ∈ l, s ≤ r) : rank l s = 0 :=
  List.countP_eq_zero.2 fun r hr => by simpa using h r (List.mem_dedup.1 hr)

/-- The members up to a member are those below it and itself. -/
theorem countP_le_eq (hx : x ∈ l) : l.dedup.countP (· ≤ x) = rank l x + 1 := by
  have hcount : l.dedup.countP (fun r => decide (r = x)) = 1 := by
    have hone := List.count_eq_one_of_mem (List.nodup_dedup l) (List.mem_dedup.2 hx)
    rwa [List.count, List.countP_congr (q := fun r => decide (r = x)) (by simp)] at hone
  rw [rank, ← hcount]
  generalize l.dedup = d
  induction d with
  | nil => rfl
  | cons r d ih =>
      rw [List.countP_cons, List.countP_cons, List.countP_cons, ih]
      rcases lt_trichotomy r x with h | h | h
      · simp [h.le, h, h.ne]
        omega
      · simp [h]
        omega
      · simp [not_le.2 h, not_lt.2 h.le, h.ne']

theorem rank_lt_length (hx : x ∈ l) : rank l x < l.length := by
  have hle : rank l x + 1 ≤ l.dedup.length := countP_le_eq hx ▸ List.countP_le_length
  exact hle.trans (List.dedup_sublist l).length_le

/-- A value directly above a member has the next rank. -/
theorem rank_succ (hx : x ∈ l) (h : ∀ r ∈ l, r < s ↔ r ≤ x) : rank l s = rank l x + 1 := by
  rw [← countP_le_eq hx, rank]
  exact List.countP_congr fun r hr => by simpa using h r (List.mem_dedup.1 hr)

/-- The greatest member has the last rank. -/
theorem length_dedup (hx : x ∈ l) (h : ∀ r ∈ l, r ≤ x) : l.dedup.length = rank l x + 1 := by
  rw [← countP_le_eq hx]
  exact (List.countP_eq_length.2 fun r hr => by simpa using h r (List.mem_dedup.1 hr)).symm

/-! ## Sorted lists -/

/-- The members below a value are counted by the first that is not below it. -/
theorem countP_lt_eq {j : ℕ} (hj : j ≤ l.length) (hleft : ∀ r ∈ l.take j, r < s)
    (hright : ∀ r ∈ l.drop j, s ≤ r) : l.countP (· < s) = j := by
  rw [← List.take_append_drop j l, List.countP_append,
    List.countP_eq_length.2 fun r hr => by simpa using hleft r hr,
    List.countP_eq_zero.2 fun r hr => by simpa using hright r hr, List.length_take,
    min_eq_left hj, Nat.add_zero]

/-- What stands before and behind a place of a sorted list. -/
theorem le_of_mem_drop {j : ℕ} (h : l.Pairwise (· ≤ ·)) (hj : j < l.length) :
    ∀ r ∈ l.drop j, l[j] ≤ r := by
  intro r hr
  rw [List.drop_eq_getElem_cons hj] at hr
  have htail := h.sublist (List.drop_sublist j l)
  rw [List.drop_eq_getElem_cons hj, List.pairwise_cons] at htail
  rcases List.mem_cons.1 hr with rfl | hr
  · exact le_rfl
  · exact htail.1 r hr

/-- The first of equal members stands behind exactly those below it. -/
theorem below_getElem {j : ℕ} (h : l.Pairwise (· ≤ ·)) (hj : j < l.length)
    (hfirst : ∀ r ∈ l.take j, r < l[j]) : below l l[j] = j :=
  countP_lt_eq hj.le hfirst (le_of_mem_drop h hj)

/-- In an ascending list with the same members each member stands at its rank. -/
theorem getElem?_rank {d : List α} (hd : d.Pairwise (· < ·)) (hmem : ∀ r, r ∈ d ↔ r ∈ l) {r : α}
    (hr : r ∈ l) : d[rank l r]? = some r := by
  obtain ⟨t, ht, rfl⟩ := List.getElem_of_mem ((hmem r).2 hr)
  have hperm : l.dedup.Perm d :=
    (List.perm_ext_iff_of_nodup (List.nodup_dedup l) (hd.imp fun h => h.ne)).2 fun r => by
      rw [List.mem_dedup, hmem r]
  have hrank : rank l d[t] = t := by
    rw [rank, hperm.countP_eq]
    refine countP_lt_eq ht.le (fun r hr => ?_) (le_of_mem_drop (hd.imp fun h => h.le) ht)
    obtain ⟨u, hu, rfl⟩ := List.mem_take_iff_getElem.1 hr
    exact List.pairwise_iff_getElem.1 hd u t (by omega) ht (by omega)
  rw [hrank, List.getElem?_eq_getElem ht]

/-- **A list has exactly the members, ascending, iff each member stands at its rank and the greatest
one is the last.** -/
theorem ascending_iff {d : List α} (hx : x ∈ l) (hmax : ∀ r ∈ l, r ≤ x) :
    (d.Pairwise (· < ·) ∧ ∀ r, r ∈ d ↔ r ∈ l) ↔
      d.length = rank l x + 1 ∧ ∀ r ∈ l, d[rank l r]? = some r := by
  rw [← length_dedup hx hmax]
  have hlen : ∀ d' : List α, d'.Pairwise (· < ·) → (∀ r, r ∈ d' ↔ r ∈ l) →
      d'.length = l.dedup.length := fun d' hd' hmem =>
    ((List.perm_ext_iff_of_nodup (hd'.imp fun h => h.ne) (List.nodup_dedup l)).2 fun r => by
      rw [List.mem_dedup, hmem r]).length_eq
  refine ⟨fun ⟨hd, hmem⟩ => ⟨hlen d hd hmem, fun r hr => getElem?_rank hd hmem hr⟩,
    fun ⟨hlength, hat⟩ => ?_⟩
  -- the sorted list without repeats agrees with `d` at every place
  have hsorted := List.pairwise_insertionSort (· ≤ ·) l.dedup
  have hperm := List.perm_insertionSort (· ≤ ·) l.dedup
  have hasc : (l.dedup.insertionSort (· ≤ ·)).Pairwise (· < ·) :=
    (hsorted.and (hperm.nodup_iff.2 (List.nodup_dedup l))).imp fun h => lt_of_le_of_ne h.1 h.2
  have hnodup : (l.dedup.insertionSort (· ≤ ·)).Nodup := hasc.imp fun h => h.ne
  have hmem : ∀ r, r ∈ l.dedup.insertionSort (· ≤ ·) ↔ r ∈ l := fun r => by
    rw [hperm.mem_iff, List.mem_dedup]
  have heq : d = l.dedup.insertionSort (· ≤ ·) := by
    refine List.ext_getElem? fun t => ?_
    by_cases ht : t < (l.dedup.insertionSort (· ≤ ·)).length
    · have hr := (hmem _).1 (List.getElem_mem ht)
      have hrank := getElem?_rank hasc hmem hr
      rw [List.getElem?_eq_some_iff] at hrank
      obtain ⟨hlt, hval⟩ := hrank
      have ht' := hnodup.getElem_inj_iff.1 hval
      rw [List.getElem?_eq_getElem ht, ← hat _ hr, ht']
    · rw [List.getElem?_eq_none (by rw [hlength, ← hperm.length_eq]; omega),
        List.getElem?_eq_none (by omega)]
  rw [heq]
  exact ⟨hasc, hmem⟩

end Ranks
