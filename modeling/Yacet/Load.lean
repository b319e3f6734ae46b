import Yacet.Edits
import Yacet.IntervalUnion

/-!
# Loading the rows of a range (`query_select_named_range`)

The rows arrive in `Base` order and go through `range_file_add_it` one after the other.

* `Loaded` — the list so far, each node with the row that opened it: the rows that touch or overlap
  what is there already disappear into the last node, which keeps the id of its first row.
* `load_rows` — loading in `Base` order never reaches the absorb branch and keeps `Loaded`.
* `RowsFit` — no row sticks out behind the earlier rows it touches; only then has every node the
  bound of its own row.
-/

namespace Yacet

open Patchwork

/-- The rows of one range on one file, as `QUERY_SELECT_NAMED_RANGE` returns them. -/
structure Selected (table : List OffsetRow) (fileId rangeId : ℕ) (rows : List OffsetRow) :
    Prop where
  perm : rows.Perm (table.filter fun r => r.fileId = fileId ∧ r.rangeId = rangeId)
  sorted : rows.Pairwise fun r s => r.base ≤ s.base

instance (table : List OffsetRow) (fileId rangeId : ℕ) (rows : List OffsetRow) :
    Decidable (Selected table fileId rangeId rows) :=
  decidable_of_iff (rows.Perm (table.filter fun r => r.fileId = fileId ∧ r.rangeId = rangeId) ∧
    rows.Pairwise fun r s => r.base ≤ s.base) ⟨fun h => ⟨h.1, h.2⟩, fun h => ⟨h.perm, h.sorted⟩⟩

/-- The node that a fetched row asks for. -/
def OffsetRow.node (r : OffsetRow) : ItNode := ⟨r.offsetId, r.base, r.bound⟩

@[simp] theorem OffsetRow.node_id {r : OffsetRow} : r.node.id = r.offsetId := rfl

@[simp] theorem OffsetRow.node_base {r : OffsetRow} : r.node.base = r.base := rfl

@[simp] theorem OffsetRow.node_bound {r : OffsetRow} : r.node.bound = r.bound := rfl

/-- The fetch loop; `none` is a run into the absorb branch. -/
def loadRows (rf : ItList) (rows : List OffsetRow) : Option ItList :=
  rows.foldlM (fun rf r => rangeFileAddIt rf r.node) rf

/-- A row that touches or overlaps an earlier row ends within an earlier row. -/
def RowsFit (rows : List OffsetRow) : Prop :=
  EachAfter (fun pre r => (∃ s ∈ pre, r.base ≤ s.bound) → ∃ s ∈ pre, r.bound ≤ s.bound) rows

/-- The nodes after the rows `pre`, each with its first row. -/
structure Loaded (pre : List OffsetRow) (ps : List (ItNode × OffsetRow)) : Prop where
  separated : Separated (ps.map Prod.fst)
  first : ∀ p ∈ ps, p.1.id = p.2.offsetId ∧ p.1.base = p.2.base ∧ p.2.bound ≤ p.1.bound
  mem : ∀ p ∈ ps, p.2 ∈ pre
  reach : ∀ p ∈ ps, ∃ r ∈ pre, p.1.bound = r.bound
  below : ∀ r ∈ pre, ∃ p ∈ ps, r.bound ≤ p.1.bound
  fit : (∀ p ∈ ps, p.1.bound = p.2.bound) ↔ RowsFit pre

theorem loaded_nil : Loaded [] [] where
  separated := Separated.nil
  first := by simp
  mem := by simp
  reach := by simp
  below := by simp
  fit := ⟨fun _ => eachAfter_nil, by simp⟩

variable {pre : List OffsetRow} {ps : List (ItNode × OffsetRow)} {r : OffsetRow}

namespace Loaded

/-- A row behind all nodes opens a new node. -/
theorem append (h : Loaded pre ps) (hr : r.base ≤ r.bound)
    (hlast : ∀ p ∈ ps, p.1.bound < r.base) :
    itInsertNew r.node (ps.map Prod.fst) = some (true, (ps ++ [(r.node, r)]).map Prod.fst) ∧
      Loaded (pre ++ [r]) (ps ++ [(r.node, r)]) := by
  have hbefore : ∀ s ∈ pre, s.bound < r.base := fun s hs => by
    obtain ⟨p, hp, hsp⟩ := h.below s hs
    have := hlast p hp
    omega
  constructor
  · have hskip := @itInsertNew_skip r.node (ps.map Prod.fst) [] fun m hm => by
      obtain ⟨p, hp, rfl⟩ := List.mem_map.1 hm
      have h1 := hlast p hp
      have h2 := h.separated.le p.1 hm
      rw [itIntersect_eq_false_iff]
      rw [OffsetRow.node_base, OffsetRow.node_bound]
      omega
    rw [List.append_nil] at hskip
    rw [hskip]
    simp [itInsertNew]
  · refine ⟨?_, ?_, ?_, ?_, ?_, ?_⟩
    · rw [List.map_append, List.map_singleton, separated_append, separated_cons]
      refine ⟨h.separated, ⟨hr, by simp, Separated.nil⟩, fun a ha b hb => ?_⟩
      obtain ⟨p, hp, rfl⟩ := List.mem_map.1 ha
      rw [List.mem_singleton.1 hb]
      exact hlast p hp
    · intro p hp
      rcases List.mem_append.1 hp with hp | hp
      · exact h.first p hp
      · rw [List.mem_singleton.1 hp]
        exact ⟨rfl, rfl, Nat.le_refl _⟩
    · intro p hp
      rcases List.mem_append.1 hp with hp | hp
      · exact List.mem_append_left _ (h.mem p hp)
      · rw [List.mem_singleton.1 hp]
        simp
    · intro p hp
      rcases List.mem_append.1 hp with hp | hp
      · obtain ⟨s, hs, he⟩ := h.reach p hp
        exact ⟨s, List.mem_append_left _ hs, he⟩
      · rw [List.mem_singleton.1 hp]
        exact ⟨r, by simp, rfl⟩
    · intro s hs
      rcases List.mem_append.1 hs with hs | hs
      · obtain ⟨p, hp, hsp⟩ := h.below s hs
        exact ⟨p, List.mem_append_left _ hp, hsp⟩
      · rw [List.mem_singleton.1 hs]
        exact ⟨(r.node, r), by simp, Nat.le_refl _⟩
    · rw [RowsFit, eachAfter_append, ← RowsFit, ← h.fit, List.forall_mem_append]
      refine and_congr_right fun _ => ⟨fun _ => ?_, fun _ => ?_⟩
      · rintro ⟨s, hs, hle⟩
        have := hbefore s hs
        omega
      · simp

/-- A position behind all nodes but the last is reached by a row iff the last node reaches it. -/
theorem exists_le_bound_iff {p : ItNode × OffsetRow} (h : Loaded pre (ps ++ [p])) {b : ℕ}
    (hbefore : ∀ q ∈ ps, q.1.bound < b) : (∃ s ∈ pre, b ≤ s.bound) ↔ b ≤ p.1.bound := by
  constructor
  · rintro ⟨s, hs, hle⟩
    obtain ⟨q, hq, hsq⟩ := h.below s hs
    rcases List.mem_append.1 hq with hq | hq
    · have := hbefore q hq
      omega
    · rw [List.mem_singleton.1 hq] at hsq
      omega
  · intro hle
    obtain ⟨s, hs, he⟩ := h.reach p (by simp)
    exact ⟨s, hs, by omega⟩

/-- The nodes in front of the last one end before it begins. -/
theorem bound_lt_last {p : ItNode × OffsetRow} (h : Loaded pre (ps ++ [p])) :
    ∀ q ∈ ps, q.1.bound < p.1.base := by
  intro q hq
  have hsep := h.separated
  rw [List.map_append, List.map_singleton, separated_append] at hsep
  exact hsep.2.2 q.1 (List.mem_map_of_mem hq) p.1 (by simp)

/-- The list that a row leaves which touches or overlaps the last node. -/
theorem insert_extend {p : ItNode × OffsetRow} (h : Loaded pre (ps ++ [p]))
    (hpr : p.1.base ≤ r.base) (hr : r.base ≤ r.bound) (hlast : r.base ≤ p.1.bound) :
    itInsertNew r.node ((ps ++ [p]).map Prod.fst) =
      some (false, (ps ++ [(p.1.extend r.node, p.2)]).map Prod.fst) := by
  have hi : itIntersect r.node p.1 = true := by
    have hp := (h.separated.le p.1 (List.mem_map_of_mem (by simp)))
    rw [itIntersect_iff, OffsetRow.node_base, OffsetRow.node_bound]
    omega
  rw [List.map_append, itInsertNew_skip]
  · simp [itInsertNew, hi, itRest]
  · intro m hm
    obtain ⟨q, hq, rfl⟩ := List.mem_map.1 hm
    have h1 := h.bound_lt_last q hq
    have h2 := h.separated.le q.1 (List.mem_map_of_mem (List.mem_append_left _ hq))
    rw [itIntersect_eq_false_iff, OffsetRow.node_base, OffsetRow.node_bound]
    omega

/-- The extended node keeps the bound of its own row iff the new row ends within the old node. -/
theorem fit_extend {p : ItNode × OffsetRow} (h : Loaded pre (ps ++ [p])) (hpr : p.1.base ≤ r.base)
    (hr : r.base ≤ r.bound) (hlast : r.base ≤ p.1.bound) {x : ItNode}
    (hx : x.bound = max p.1.bound r.bound) :
    (∀ q ∈ ps ++ [(x, p.2)], q.1.bound = q.2.bound) ↔ RowsFit (pre ++ [r]) := by
  have hend := h.exists_le_bound_iff (b := r.bound) fun q hq => by
    have := h.bound_lt_last q hq
    omega
  have hstart : ∃ s ∈ pre, r.base ≤ s.bound :=
    (h.exists_le_bound_iff fun q hq => (h.bound_lt_last q hq).trans_le hpr).2 hlast
  obtain ⟨-, -, hbound⟩ := h.first p (by simp)
  rw [RowsFit, eachAfter_append, ← RowsFit, ← h.fit, List.forall_mem_append,
    List.forall_mem_append, List.forall_mem_singleton, List.forall_mem_singleton, hend,
    imp_iff_right hstart, and_assoc]
  refine and_congr_right fun _ => ?_
  show x.bound = p.2.bound ↔ _
  clear hend
  omega

/-- A row that touches or overlaps the last node disappears into it. -/
theorem extend {p : ItNode × OffsetRow} (h : Loaded pre (ps ++ [p]))
    (hsorted : ∀ s ∈ pre, s.base ≤ r.base) (hr : r.base ≤ r.bound) (hlast : r.base ≤ p.1.bound) :
    itInsertNew r.node ((ps ++ [p]).map Prod.fst) =
        some (false, (ps ++ [(p.1.extend r.node, p.2)]).map Prod.fst) ∧
      Loaded (pre ++ [r]) (ps ++ [(p.1.extend r.node, p.2)]) := by
  have hp : p ∈ ps ++ [p] := by simp
  obtain ⟨hid, hbase, hbound⟩ := h.first p hp
  have hpr : p.1.base ≤ r.base := by
    rw [hbase]
    exact hsorted _ (h.mem p hp)
  refine ⟨h.insert_extend hpr hr hlast, ?_⟩
  have hext : p.1.extend r.node = ⟨p.1.id, p.1.base, max p.1.bound r.bound⟩ :=
    ItNode.extend_of_le hpr
  generalize p.1.extend r.node = x at hext
  have hxid : x.id = p.1.id := by rw [hext]
  have hxbase : x.base = p.1.base := by rw [hext]
  have hxbound : x.bound = max p.1.bound r.bound := by rw [hext]
  refine ⟨?_, ?_, ?_, ?_, ?_, h.fit_extend hpr hr hlast hxbound⟩
  · have hsep := h.separated
    have hpp := h.separated.le p.1 (List.mem_map_of_mem hp)
    rw [List.map_append, List.map_singleton, separated_append] at hsep
    rw [List.map_append, List.map_singleton, separated_append, separated_cons]
    refine ⟨hsep.1, ⟨by simp only; omega, by simp, Separated.nil⟩, fun a ha b hb => ?_⟩
    obtain ⟨q, hq, rfl⟩ := List.mem_map.1 ha
    have := h.bound_lt_last q hq
    rw [List.mem_singleton.1 hb]
    show q.1.bound < x.base
    omega
  · intro q hq
    rcases List.mem_append.1 hq with hq | hq
    · exact h.first q (List.mem_append_left _ hq)
    · rw [List.mem_singleton.1 hq]
      exact ⟨hxid.trans hid, hxbase.trans hbase, by simp only; omega⟩
  · intro q hq
    rcases List.mem_append.1 hq with hq | hq
    · exact List.mem_append_left _ (h.mem q (List.mem_append_left _ hq))
    · rw [List.mem_singleton.1 hq]
      exact List.mem_append_left _ (h.mem p hp)
  · intro q hq
    rcases List.mem_append.1 hq with hq | hq
    · obtain ⟨s, hs, he⟩ := h.reach q (List.mem_append_left _ hq)
      exact ⟨s, List.mem_append_left _ hs, he⟩
    · rw [List.mem_singleton.1 hq]
      rcases Nat.le_total p.1.bound r.bound with hle | hle
      · exact ⟨r, by simp, by simp only; omega⟩
      · obtain ⟨s, hs, he⟩ := h.reach p hp
        exact ⟨s, List.mem_append_left _ hs, by simp only; omega⟩
  · intro s hs
    rcases List.mem_append.1 hs with hs | hs
    · obtain ⟨q, hq, hsq⟩ := h.below s hs
      rcases List.mem_append.1 hq with hq | hq
      · exact ⟨q, List.mem_append_left _ hq, hsq⟩
      · rw [List.mem_singleton.1 hq] at hsq
        exact ⟨(x, p.2), by simp, by simp only; omega⟩
    · rw [List.mem_singleton.1 hs]
      exact ⟨(x, p.2), by simp, by simp only; omega⟩

end Loaded

/-- **Loading in `Base` order** reaches no fault and leaves the rows' nodes. -/
theorem load_rows {rows : List OffsetRow} (hsorted : rows.Pairwise fun r s => r.base ≤ s.base)
    (hle : ∀ r ∈ rows, r.base ≤ r.bound) :
    ∃ ps, loadRows ⟨[], 0⟩ rows = some ⟨ps.map Prod.fst, ps.length⟩ ∧ Loaded rows ps := by
  induction rows using List.reverseRecOn with
  | nil => exact ⟨[], rfl, loaded_nil⟩
  | append_singleton rows r ih =>
      obtain ⟨hs, _, hcross⟩ := List.pairwise_append.1 hsorted
      obtain ⟨ps, hload, hps⟩ := ih hs fun s hs => hle s (List.mem_append_left _ hs)
      have hr := hle r (by simp)
      have hsorted' : ∀ s ∈ rows, s.base ≤ r.base := fun s hs => hcross s hs r (by simp)
      have hrun : loadRows ⟨[], 0⟩ (rows ++ [r]) =
          rangeFileAddIt ⟨ps.map Prod.fst, ps.length⟩ r.node := by
        rw [loadRows, List.foldlM_append, ← loadRows, hload]
        simp
      rw [hrun, rangeFileAddIt]
      by_cases hlast : ∀ p ∈ ps, p.1.bound < r.base
      · obtain ⟨h1, h2⟩ := hps.append hr hlast
        exact ⟨_, by rw [h1]; simp, h2⟩
      · rcases ps.eq_nil_or_concat with rfl | ⟨ps, p, rfl⟩
        · simp at hlast
        · rw [List.concat_eq_append] at *
          have hp : r.base ≤ p.1.bound := by
            by_contra hlt
            refine hlast fun q hq => ?_
            rcases List.mem_append.1 hq with hq | hq
            · have h1 := hps.separated
              rw [List.map_append, List.map_singleton, separated_append, separated_cons] at h1
              have h2 := h1.2.2 q.1 (List.mem_map_of_mem hq) p.1 (by simp)
              have h3 := h1.2.1.1
              omega
            · rw [List.mem_singleton.1 hq]
              omega
          obtain ⟨h1, h2⟩ := hps.extend hsorted' hr hp
          exact ⟨_, by rw [h1]; simp, h2⟩

/-- **Rows that do not touch are loaded as they are.** -/
theorem load_apart {rows : List OffsetRow} (hap : rows.Pairwise fun r s => r.bound < s.base)
    (hle : ∀ r ∈ rows, r.base ≤ r.bound) :
    loadRows ⟨[], 0⟩ rows = some ⟨rows.map OffsetRow.node, rows.length⟩ := by
  suffices h : loadRows ⟨[], 0⟩ rows = some ⟨rows.map OffsetRow.node, rows.length⟩ ∧
      Loaded rows (rows.map fun r => (r.node, r)) from h.1
  induction rows using List.reverseRecOn with
  | nil => exact ⟨rfl, loaded_nil⟩
  | append_singleton rows r ih =>
      obtain ⟨hap, _, hcross⟩ := List.pairwise_append.1 hap
      obtain ⟨hload, hrows⟩ := ih hap fun s hs => hle s (List.mem_append_left _ hs)
      have hlast : ∀ p ∈ rows.map fun s => (s.node, s), p.1.bound < r.base := by
        intro p hp
        obtain ⟨s, hs, rfl⟩ := List.mem_map.1 hp
        exact hcross s hs r (List.mem_singleton_self r)
      obtain ⟨hins, hrows⟩ := hrows.append (hle r (by simp)) hlast
      constructor
      · rw [loadRows, List.foldlM_append, ← loadRows, hload]
        rw [List.map_map] at hins
        simp only [List.foldlM_cons, List.foldlM_nil, Option.bind_eq_bind, Option.bind_some,
          rangeFileAddIt]
        have hins' : itInsertNew r.node (rows.map OffsetRow.node) =
            some (true, (rows ++ [r]).map OffsetRow.node) := by
          simpa [Function.comp_def] using hins
        rw [hins']
        simp
      · simpa using hrows

end Yacet
