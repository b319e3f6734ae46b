import Yacet.Interval
import Yacet.Lib.Patchwork

/-!
# The `Offset` table and its `UPDATE` (`sql.c`, `QUERY_RESIZE_FILE`)

* `updateOffset` — one row under the `UPDATE` of `QUERY_RESIZE_FILE`, whose assignments MySQL
  evaluates from left to right.
* `rowOf` — the row with a given `OffsetId`, the primary key.
* `updateOffset_tracks` — where the rows are marks of a patchwork, the `UPDATE` is the replacement
  of one patch: every row follows its marks.
-/

namespace Yacet

/-- A row of `Offset`. -/
structure OffsetRow where
  offsetId : ℕ
  fileId : ℕ
  rangeId : ℕ
  base : ℕ
  bound : ℕ
  conflict : Bool
  deriving DecidableEq, Repr

/-- `p + @ns - (@ob - @b)`. -/
def resized (ns b ob p : ℕ) : ℕ := ((p : ℤ) + ns - ((ob : ℤ) - b)).toNat

/-- The `UPDATE` on one row; `Bound` and `Conflict` already see the new `Base`. -/
def updateOffset (fileId oid ns b ob : ℕ) (r : OffsetRow) : OffsetRow :=
  if r.fileId = fileId then
    let base := if r.offsetId ≠ oid ∧ r.base ≥ ob then resized ns b ob r.base else r.base
    let bound := if r.bound ≥ ob then resized ns b ob r.bound else r.bound
    let conflict :=
      if r.offsetId = oid then false
      else if (b < base ∧ ob < bound ∧ ob > base) ∨ (b ≤ base ∧ ob ≥ bound) ∨
          (b > base ∧ b < bound ∧ ob > bound) then true
      else r.conflict
    { r with base := base, bound := bound, conflict := conflict }
  else r

/-- `WHERE OffsetId = ?`. -/
def rowOf (table : List OffsetRow) (id : ℕ) : Option OffsetRow :=
  table.find? fun r => r.offsetId = id

variable {fileId oid ns b ob p id : ℕ} {r : OffsetRow} {table : List OffsetRow}

theorem resized_eq (h : ob ≤ p) : resized ns b ob p = p - ob + b + ns := by
  unfold resized
  omega

@[simp] theorem updateOffset_offsetId :
    (updateOffset fileId oid ns b ob r).offsetId = r.offsetId := by
  unfold updateOffset
  split <;> rfl

@[simp] theorem updateOffset_fileId : (updateOffset fileId oid ns b ob r).fileId = r.fileId := by
  unfold updateOffset
  split <;> rfl

@[simp] theorem updateOffset_rangeId : (updateOffset fileId oid ns b ob r).rangeId = r.rangeId := by
  unfold updateOffset
  split <;> rfl

theorem updateOffset_base (hf : r.fileId = fileId) : (updateOffset fileId oid ns b ob r).base =
    if r.offsetId ≠ oid ∧ r.base ≥ ob then resized ns b ob r.base else r.base := by
  unfold updateOffset
  rw [if_pos hf]

theorem updateOffset_bound (hf : r.fileId = fileId) : (updateOffset fileId oid ns b ob r).bound =
    if r.bound ≥ ob then resized ns b ob r.bound else r.bound := by
  unfold updateOffset
  rw [if_pos hf]

theorem updateOffset_of_ne (hf : r.fileId ≠ fileId) : updateOffset fileId oid ns b ob r = r := by
  unfold updateOffset
  rw [if_neg hf]

theorem rowOf_some (h : rowOf table id = some r) : r ∈ table ∧ r.offsetId = id := by
  refine ⟨List.mem_of_find?_eq_some h, ?_⟩
  simpa using List.find?_some h

theorem rowOf_of_mem (hnd : (table.map OffsetRow.offsetId).Nodup) (hr : r ∈ table) :
    rowOf table r.offsetId = some r := by
  induction table with
  | nil => cases hr
  | cons t table ih =>
      rw [List.map_cons, List.nodup_cons] at hnd
      rcases List.mem_cons.1 hr with rfl | hr
      · simp [rowOf]
      · have hne : t.offsetId ≠ r.offsetId := fun he =>
          hnd.1 (he ▸ List.mem_map_of_mem hr)
        simp only [rowOf, List.find?_cons, hne, decide_false]
        exact ih hnd.2 hr

/-- A change of the rows that keeps the key commutes with the lookup. -/
theorem rowOf_map {u : OffsetRow → OffsetRow} (hu : ∀ r, (u r).offsetId = r.offsetId) :
    rowOf (table.map u) id = (rowOf table id).map u := by
  unfold rowOf
  rw [List.find?_map]
  simp only [Function.comp_def, hu]

/-! ## Rows as marks of a patchwork -/

open Patchwork

variable {β : Type*} {g τ : ℕ → List β} {lo hi : Mark} {i : ℕ} {c : List β}

/-- The row's positions are those of the marks. -/
structure Tracks (g τ : ℕ → List β) (r : OffsetRow) (lo hi : Mark) : Prop where
  base : r.base = lo.pos g τ
  bound : r.bound = hi.pos g τ

/-- The `UPDATE` for the row of patch `i` moves the row `id` as it moves the marks. -/
structure Admits (g : ℕ → List β) (p : List β) (i oid id : ℕ) (lo hi : Mark) : Prop where
  own : id = oid → lo.gap ≤ i
  lo : id ≠ oid → lo.Before g p i
  hi : hi.Before g p i

theorem resized_mark {m : Mark} (h : i < m.gap) :
    resized c.length (start g τ i) (stop g τ i) (m.pos g τ) =
      m.pos g (Function.update τ i c) := by
  have h1 := Mark.stop_le_pos (g := g) (τ := τ) h
  have h2 := Mark.pos_update_of_lt (g := g) (τ := τ) (c := c) h
  rw [resized_eq h1]
  rw [stop_eq] at h1 ⊢
  omega

/-- **The `UPDATE` refines the replacement of a patch.** -/
theorem updateOffset_tracks (hf : r.fileId = fileId) (h : Tracks g τ r lo hi)
    (ha : Admits g (τ i) i oid r.offsetId lo hi) :
    Tracks g (Function.update τ i c)
      (updateOffset fileId oid c.length (start g τ i) (stop g τ i) r) lo hi := by
  constructor
  · rw [updateOffset_base hf, h.base]
    split
    · rename_i hcond
      -- a moved base lies behind the patch
      refine resized_mark ?_
      by_contra hle
      have := ha.lo hcond.1 τ rfl (by omega)
      omega
    · rename_i hcond
      refine (Mark.pos_update_of_le ?_).symm
      by_contra hlt
      have := Mark.stop_le_pos (g := g) (τ := τ) (i := i) (m := lo) (by omega)
      refine hcond ⟨fun hid => hlt (ha.own hid), this⟩
  · rw [updateOffset_bound hf, h.bound]
    split
    · rename_i hcond
      refine resized_mark ?_
      by_contra hle
      have := ha.hi τ rfl (by omega)
      omega
    · rename_i hcond
      refine (Mark.pos_update_of_le ?_).symm
      by_contra hlt
      exact hcond (Mark.stop_le_pos (by omega))

end Yacet
