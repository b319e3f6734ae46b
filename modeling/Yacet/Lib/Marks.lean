import Yacet.Lib.Patchwork

/-!
# Marks in a text

A text with marks in it, and the offsets that the marks have once they are taken out.

* `positions` — where the marks are; `offset` — how much of what is kept stands in front.
* `offsets` — the offsets of the marks.
* `slice_offset` — **between the offsets of two positions stands what is kept of the text between
  them.**
* `pairs`, `unclosed` — every second mark closes the one before it, and the last may be open.
* `pairs_append_of_none`, `pairs_append_of_some` — the next mark opens, or closes the open one.
-/

namespace Marks

variable {α : Type*} {mark keep : α → Bool} {l : List α} {a : α}

/-- The positions of the marks. -/
def positions (mark : α → Bool) (l : List α) : List ℕ :=
  (List.range l.length).filter fun i => l[i]?.any mark

/-- The length of what is kept in front of position `i`. -/
def offset (keep : α → Bool) (l : List α) (i : ℕ) : ℕ := ((l.take i).filter keep).length

theorem positions_append : positions mark (l ++ [a]) =
    positions mark l ++ if mark a then [l.length] else [] := by
  have hold :
    (List.range l.length).filter (fun i => (l ++ [a])[i]?.any mark) = positions mark l := by
    apply List.filter_congr
    intro i hi
    rw [List.getElem?_append_left (List.mem_range.1 hi)]
  have hnew : (l ++ [a])[l.length]?.any mark = mark a := by simp
  rw [positions, List.length_append, List.length_singleton, List.range_succ,
    List.filter_append, hold,
    List.filter_singleton, hnew, Bool.cond_eq_ite]

theorem lt_length_of_mem_positions {i : ℕ} (h : i ∈ positions mark l) : i < l.length :=
  List.mem_range.1 (List.mem_filter.1 h).1

theorem pairwise_positions : (positions mark l).Pairwise (· < ·) :=
  List.pairwise_lt_range.filter _

theorem offset_append {i : ℕ} (h : i ≤ l.length) : offset keep (l ++ [a]) i = offset keep l i := by
  rw [offset, List.take_append_of_le_length h, offset]

theorem offset_le_length (i : ℕ) : offset keep l i ≤ l.length :=
  (List.length_filter_le _ _).trans (List.length_take_le' _ _)

theorem offset_mono {i j : ℕ} (h : i ≤ j) : offset keep l i ≤ offset keep l j :=
  ((List.take_prefix_take_left h).sublist.filter keep).length_le

theorem offset_length : offset keep l l.length = (l.filter keep).length := by
  rw [offset, List.take_length]

/-- The offsets of the marks. -/
def offsets (mark keep : α → Bool) (l : List α) : List ℕ :=
  (positions mark l).map (offset keep l)

theorem pairwise_offsets : (offsets mark keep l).Pairwise (· ≤ ·) :=
  List.pairwise_map.2 (pairwise_positions.imp fun h => offset_mono h.le)

theorem offsets_append : offsets mark keep (l ++ [a]) =
    offsets mark keep l ++ if mark a then [(l.filter keep).length] else [] := by
  have hold : (positions mark l).map (offset keep (l ++ [a])) = offsets mark keep l :=
    List.map_congr_left fun i hi => offset_append (lt_length_of_mem_positions hi).le
  rw [offsets, positions_append, List.map_append, hold]
  congr 1
  split
  · rw [List.map_singleton, offset_append le_rfl, offset_length]
  · rfl

/-- **Between the offsets of two positions stands what is kept of the text between them.** -/
theorem slice_offset {i j : ℕ} (h : i ≤ j) :
    (l.filter keep).slice (offset keep l i) (offset keep l j) = (l.slice i j).filter keep := by
  have hj : offset keep l j = offset keep l i + ((l.slice i j).filter keep).length := by
    rw [offset, offset, ← List.take_append_slice h, List.filter_append, List.length_append]
  have hcut : l.filter keep =
      (l.take i).filter keep ++ ((l.slice i j).filter keep ++ (l.drop j).filter keep) := by
    rw [← List.filter_append, ← List.filter_append, ← List.append_assoc, List.take_append_slice h,
      List.take_append_drop]
  rw [hj, hcut]
  exact List.slice_middle_all _ _ _

/-! ## Opening and closing marks -/

/-- The marks by two. -/
def pairs : List α → List (α × α)
  | a :: b :: l => (a, b) :: pairs l
  | _ => []

/-- The mark that has not been closed. -/
def unclosed : List α → Option α
  | [] => none
  | [a] => some a
  | _ :: _ :: l => unclosed l

theorem getElem?_pairs (l : List α) (k : ℕ) : (pairs l)[k]? =
    (l[2 * k]?).bind fun a => (l[2 * k + 1]?).map fun b => (a, b) := by
  induction l using pairs.induct generalizing k with
  | case1 a b l ih =>
      cases k with
      | zero => rfl
      | succ k =>
          rw [pairs, List.getElem?_cons_succ, ih, show 2 * (k + 1) = 2 * k + 1 + 1 by omega]
          rfl
  | case2 l hl =>
      match l with
      | [] => simp [pairs]
      | [a] => cases k <;> simp [pairs, Nat.mul_succ]
      | a :: b :: l => exact absurd rfl (hl a b l)

theorem mem_of_mem_pairs {e : α × α} (h : e ∈ pairs l) : e.1 ∈ l ∧ e.2 ∈ l := by
  induction l using pairs.induct with
  | case1 a b l ih =>
      rcases List.mem_cons.1 h with rfl | h
      · simp
      · simp [ih h]
  | case2 l hl =>
      match l with
      | [] => cases h
      | [a] => cases h
      | a :: b :: l => exact absurd rfl (hl a b l)

/-- The pairs of an ascending list ascend. -/
theorem pairwise_pairs [Preorder α] (h : l.Pairwise (· ≤ ·)) :
    (pairs l).Pairwise (fun e e' => e.2 ≤ e'.1) ∧ ∀ e ∈ pairs l, e.1 ≤ e.2 := by
  induction l using pairs.induct with
  | case1 a b l ih =>
      rw [List.pairwise_cons, List.pairwise_cons] at h
      obtain ⟨hord, hle⟩ := ih h.2.2
      refine ⟨List.pairwise_cons.2 ⟨fun e he => h.2.1 _ (mem_of_mem_pairs he).1, hord⟩, ?_⟩
      intro e he
      rcases List.mem_cons.1 he with rfl | he
      · exact h.1 b List.mem_cons_self
      · exact hle e he
  | case2 l hl =>
      match l with
      | [] => exact ⟨List.Pairwise.nil, nofun⟩
      | [a] => exact ⟨List.Pairwise.nil, nofun⟩
      | a :: b :: l => exact absurd rfl (hl a b l)

/-- The next mark opens. -/
theorem pairs_append_of_none (h : unclosed l = none) :
    pairs (l ++ [a]) = pairs l ∧ unclosed (l ++ [a]) = some a := by
  induction l using pairs.induct with
  | case1 b c l ih =>
      obtain ⟨hpairs, hopen⟩ := ih h
      exact ⟨by simp [pairs, hpairs], by simpa [unclosed] using hopen⟩
  | case2 l hl =>
      match l with
      | [] => exact ⟨rfl, rfl⟩
      | [b] => cases h
      | b :: c :: l => exact absurd rfl (hl b c l)

/-- The next mark closes. -/
theorem pairs_append_of_some {o : α} (h : unclosed l = some o) :
    pairs (l ++ [a]) = pairs l ++ [(o, a)] ∧ unclosed (l ++ [a]) = none := by
  induction l using pairs.induct with
  | case1 b c l ih =>
      obtain ⟨hpairs, hopen⟩ := ih h
      exact ⟨by simp [pairs, hpairs], by simpa [unclosed] using hopen⟩
  | case2 l hl =>
      match l with
      | [] => cases h
      | [b] =>
          cases h
          exact ⟨rfl, rfl⟩
      | b :: c :: l => exact absurd rfl (hl b c l)

end Marks
