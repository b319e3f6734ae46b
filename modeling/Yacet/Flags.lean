import Yacet.Resize

/-!
# The `Conflict` flags of a push (`sql.c`, `QUERY_RESIZE_FILE`)

The `UPDATE` judges the overlap of a row with the edited row after it has assigned `Base` and
`Bound` of the same row, so the conditions compare old positions of the edited row with new ones of
the other.

* `updateOffset_conflict_behind`, `updateOffset_conflict_equal`, … — the flag for each position of
  the other row.
* `FlagsOk` — what the flags are to say after the push of one row.
* `resize_flagsOk_iff` — **they do iff no row behind the edited one is moved onto its old interval
  and no row equal to it grows**, rows with a standing flag apart.
-/

namespace Yacet

/-- The row lies in `[b, ob)` or equals it, or each of the two sticks out of the other on one
side. -/
def Disturbs (b ob : ℕ) (r : OffsetRow) : Prop :=
  (b ≤ r.base ∧ r.bound ≤ ob) ∨ (b < r.base ∧ r.base < ob ∧ ob < r.bound) ∨
    (r.base < b ∧ b < r.bound ∧ r.bound < ob)

instance (b ob : ℕ) (r : OffsetRow) : Decidable (Disturbs b ob r) := by
  unfold Disturbs
  infer_instance

/-- The flags after the push of the row `e`. -/
structure FlagsOk (fileId : ℕ) (e : OffsetRow) (table table' : List OffsetRow) : Prop where
  edited : ∀ r' ∈ rowOf table' e.offsetId, r'.conflict = false
  apart : ∀ r ∈ table, r.fileId = fileId → r.offsetId ≠ e.offsetId →
    (r.bound ≤ e.base ∨ e.bound ≤ r.base) → ∀ r' ∈ rowOf table' r.offsetId, r'.conflict = r.conflict
  disturbed : ∀ r ∈ table, r.fileId = fileId → r.offsetId ≠ e.offsetId → Disturbs e.base e.bound r →
    ∀ r' ∈ rowOf table' r.offsetId, r'.conflict = true

/-- The edit of `e` to the size `ns` spares the row: it has its flag already; or, if it lies behind
`e`, it is moved to a place that ends behind the old end of `e` and begins there or behind or where
`e` begins; and if it equals `e` it does not grow. -/
def Spared (e : OffsetRow) (ns : ℕ) (r : OffsetRow) : Prop :=
  r.conflict = true ∨
    (e.bound ≤ r.base → e.bound < r.bound - e.bound + e.base + ns ∧
      (r.base - e.bound + e.base + ns = e.base ∨ e.bound ≤ r.base - e.bound + e.base + ns)) ∧
    (r.base = e.base → r.bound = e.bound → ns ≤ e.bound - e.base)

instance (e : OffsetRow) (ns : ℕ) (r : OffsetRow) : Decidable (Spared e ns r) := by
  unfold Spared
  infer_instance

/-! ## One row under the `UPDATE` -/

section Row

variable {fileId oid ns b ob : ℕ} {r : OffsetRow}

theorem updateOffset_conflict (hf : r.fileId = fileId) (hid : r.offsetId ≠ oid) :
    (updateOffset fileId oid ns b ob r).conflict =
      let base := if r.base ≥ ob then resized ns b ob r.base else r.base
      let bound := if r.bound ≥ ob then resized ns b ob r.bound else r.bound
      if (b < base ∧ ob < bound ∧ ob > base) ∨ (b ≤ base ∧ ob ≥ bound) ∨
          (b > base ∧ b < bound ∧ ob > bound) then true else r.conflict := by
  unfold updateOffset
  rw [if_pos hf]
  simp only [hid, ne_eq, not_false_eq_true, true_and, if_false]

theorem updateOffset_conflict_edited (hf : r.fileId = fileId) :
    (updateOffset fileId r.offsetId ns b ob r).conflict = false := by
  unfold updateOffset
  rw [if_pos hf]
  simp

theorem updateOffset_conflict_before (hf : r.fileId = fileId) (hid : r.offsetId ≠ oid)
    (hr : r.base < r.bound) (hb : b < ob) (h : r.bound ≤ b) :
    (updateOffset fileId oid ns b ob r).conflict = r.conflict := by
  rw [updateOffset_conflict hf hid]
  simp only
  rw [if_neg (show ¬ r.base ≥ ob by omega), if_neg (show ¬ r.bound ≥ ob by omega), if_neg]
  omega

/-- **A row behind the edited one is judged where it has been moved to.** -/
theorem updateOffset_conflict_behind (hf : r.fileId = fileId) (hid : r.offsetId ≠ oid)
    (hr : r.base < r.bound) (hb : b < ob) (h : ob ≤ r.base) :
    (updateOffset fileId oid ns b ob r).conflict =
      if ob < r.bound - ob + b + ns ∧ (r.base - ob + b + ns = b ∨ ob ≤ r.base - ob + b + ns) then
        r.conflict else true := by
  have hbase : resized ns b ob r.base = r.base - ob + b + ns := resized_eq h
  have hbound : resized ns b ob r.bound = r.bound - ob + b + ns := resized_eq (by omega)
  rw [updateOffset_conflict hf hid]
  simp only
  rw [if_pos h, if_pos (show r.bound ≥ ob by omega), hbase, hbound, ite_eq_iff']
  constructor
  · intro hflag
    rw [if_neg]
    omega
  · intro hflag
    rw [if_pos]
    omega

/-- The row that equals the edited one is not flagged when the edit grows. -/
theorem updateOffset_conflict_equal (hf : r.fileId = fileId) (hid : r.offsetId ≠ oid)
    (hb : b < ob) (hbase : r.base = b) (hbound : r.bound = ob) :
    (updateOffset fileId oid ns b ob r).conflict = if ns ≤ ob - b then true else r.conflict := by
  have hres : resized ns b ob r.bound = r.bound - ob + b + ns := resized_eq (by omega)
  rw [updateOffset_conflict hf hid]
  simp only
  rw [if_neg (show ¬ r.base ≥ ob by omega), if_pos (show r.bound ≥ ob by omega), hres]
  congr 1
  rw [eq_iff_iff]
  omega

/-- Every other row that the edit disturbs is flagged. -/
theorem updateOffset_conflict_disturbed (hf : r.fileId = fileId) (hid : r.offsetId ≠ oid)
    (hr : r.base < r.bound) (h : Disturbs b ob r) (hne : ¬ (r.base = b ∧ r.bound = ob)) :
    (updateOffset fileId oid ns b ob r).conflict = true := by
  unfold Disturbs at h
  rw [updateOffset_conflict hf hid]
  simp only
  rw [if_neg (show ¬ r.base ≥ ob by omega)]
  by_cases hend : ob ≤ r.bound
  · rw [if_pos hend, resized_eq hend, if_pos]
    omega
  · rw [if_neg hend, if_pos]
    omega

end Row

/-! ## The table -/

variable {fileId ns p : ℕ} {e : OffsetRow} {table : List OffsetRow}

theorem resizedTable_one (hids : (table.map OffsetRow.offsetId).Nodup) (he : e ∈ table) :
    resizedTable fileId [⟨e.offsetId, p, p + ns⟩] table =
      table.map (updateOffset fileId e.offsetId ns e.base e.bound) := by
  have hrow := resizeRow_of_row fileId (s := ⟨table, 0, 0, 0, []⟩) (n := ⟨e.offsetId, p, p + ns⟩)
    (rowOf_of_mem hids he)
  rw [resizedTable, List.foldl_cons, List.foldl_nil, hrow]
  simp only [Nat.add_sub_cancel_left]

/-- The rows after the push, by their ids. -/
theorem forall_rowOf_resized (hids : (table.map OffsetRow.offsetId).Nodup) (he : e ∈ table)
    {r : OffsetRow} (hr : r ∈ table) {P : OffsetRow → Prop} :
    (∀ r' ∈ rowOf (resizedTable fileId [⟨e.offsetId, p, p + ns⟩] table) r.offsetId, P r') ↔
      P (updateOffset fileId e.offsetId ns e.base e.bound r) := by
  rw [resizedTable_one hids he, rowOf_map fun _ => updateOffset_offsetId, rowOf_of_mem hids hr]
  simp

/-- **The flags are right iff every other row is spared.** -/
theorem resize_flagsOk_iff (hids : (table.map OffsetRow.offsetId).Nodup)
    (hrows : ∀ r ∈ table, r.fileId = fileId → r.base < r.bound) (he : e ∈ table)
    (hfile : e.fileId = fileId) :
    FlagsOk fileId e table (resizedTable fileId [⟨e.offsetId, p, p + ns⟩] table) ↔
      ∀ r ∈ table, r.fileId = fileId → r.offsetId ≠ e.offsetId → Spared e ns r := by
  have heb := hrows e he hfile
  constructor
  · intro h r hr hf hid
    have hrb := hrows r hr hf
    by_cases hflag : r.conflict = true
    · exact Or.inl hflag
    · refine Or.inr ⟨fun hbehind => ?_, fun hbase hbound => ?_⟩
      · have hapart := h.apart r hr hf hid (Or.inr hbehind)
        rw [forall_rowOf_resized hids he hr,
          updateOffset_conflict_behind hf hid hrb heb hbehind] at hapart
        by_contra hmoved
        rw [if_neg hmoved] at hapart
        exact hflag hapart.symm
      · have hequal := h.disturbed r hr hf hid (Or.inl ⟨hbase.ge, hbound.le⟩)
        rw [forall_rowOf_resized hids he hr,
          updateOffset_conflict_equal hf hid heb hbase hbound] at hequal
        by_contra hgrows
        rw [if_neg hgrows] at hequal
        exact hflag hequal
  · intro h
    refine ⟨?_, fun r hr hf hid hapart => ?_, fun r hr hf hid hdist => ?_⟩
    · rw [forall_rowOf_resized hids he he]
      exact updateOffset_conflict_edited hfile
    · have hrb := hrows r hr hf
      rw [forall_rowOf_resized hids he hr]
      rcases hapart with hbefore | hbehind
      · exact updateOffset_conflict_before hf hid hrb heb hbefore
      · rw [updateOffset_conflict_behind hf hid hrb heb hbehind]
        rcases h r hr hf hid with hflag | ⟨hmoved, -⟩
        · rw [hflag, ite_self]
        · exact if_pos (hmoved hbehind)
    · have hrb := hrows r hr hf
      rw [forall_rowOf_resized hids he hr]
      by_cases hequal : r.base = e.base ∧ r.bound = e.bound
      · rw [updateOffset_conflict_equal hf hid heb hequal.1 hequal.2]
        rcases h r hr hf hid with hflag | ⟨-, hsize⟩
        · rw [hflag, ite_self]
        · exact if_pos (hsize hequal.1 hequal.2)
      · exact updateOffset_conflict_disturbed hf hid hrb hdist hequal

/-- A row in front, one that overlaps, one inside, and one far enough behind. -/
theorem resize_flagsOk_spared :
    let e : OffsetRow := ⟨1, 1, 7, 10, 20, true⟩
    let table : List OffsetRow := [e, ⟨2, 1, 8, 0, 10, false⟩, ⟨3, 1, 8, 15, 25, false⟩,
      ⟨4, 1, 9, 12, 14, false⟩, ⟨5, 1, 8, 40, 45, false⟩, ⟨6, 2, 8, 20, 21, false⟩]
    FlagsOk 1 e table (resizedTable 1 [⟨1, 3, 3 + 4⟩] table) ↔
      ∀ r ∈ table, r.fileId = 1 → r.offsetId ≠ 1 → Spared e 4 r :=
  resize_flagsOk_iff (by decide) (by decide) (by decide) rfl

/-- `[0, 10)` is cut down to two bytes: the row `[10, 30)`, which only touches it, is moved to
`[2, 22)` and flagged. -/
theorem resize_flags_touching :
    let e : OffsetRow := ⟨1, 1, 7, 0, 10, false⟩
    let table : List OffsetRow := [e, ⟨2, 1, 8, 10, 30, false⟩]
    rowOf (resizedTable 1 [⟨1, 0, 0 + 2⟩] table) 2 = some ⟨2, 1, 8, 2, 22, true⟩ ∧
      ¬ FlagsOk 1 e table (resizedTable 1 [⟨1, 0, 0 + 2⟩] table) := by
  intro e table
  refine ⟨by decide, fun h => ?_⟩
  have hflag := h.apart ⟨2, 1, 8, 10, 30, false⟩ (by decide) rfl (by decide) (Or.inr le_rfl)
    ⟨2, 1, 8, 2, 22, true⟩ (by decide)
  cases hflag

end Yacet
