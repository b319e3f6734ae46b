import Yacet.Lib.Patchwork

/-!
# Records in a block of bytes

An array of records of `w` bytes each, in a block without any other structure.

* `record`, `records` — one of them, and the first `n` of them.
* `resize` — the block grown, or cut.
* `setRecord` — one record overwritten.
* `shift` — the records behind `i` moved down by one, one after the other.
* `records_resize`, `records_setRecord`, `records_shift` — **a resized block keeps the records that
  fit into it, one that is written behind them is appended to them, and a shift erases record `i`.**
-/

namespace Records

variable {β : Type*} {w n i j k : ℕ} {block fresh v : List β}

/-- Record `i` of a block. -/
def record (w : ℕ) (block : List β) (i : ℕ) : List β := (block.drop (i * w)).take w

/-- The first `n` records. -/
def records (w : ℕ) (block : List β) (n : ℕ) : List (List β) := (List.range n).map (record w block)

/-- A block cut to `size` bytes or grown to them, with `fresh` in the bytes behind. -/
def resize (block : List β) (size : ℕ) (fresh : ℕ → β) : List β :=
  block.take size ++ (List.range (size - block.length)).map fresh

/-- The bytes `v` written at an offset. -/
def write (block : List β) (offset : ℕ) (v : List β) : List β :=
  block.take offset ++ v ++ block.drop (offset + v.length)

/-- Record `i` overwritten. -/
def setRecord (w : ℕ) (block : List β) (i : ℕ) (v : List β) : List β := write block (i * w) v

/-- The record behind `i` copied over record `i`, and so on for `k` records. -/
def shift (w : ℕ) : ℕ → ℕ → List β → List β
  | 0, _, block => block
  | k + 1, i, block => shift w k (i + 1) (setRecord w block i (record w block (i + 1)))

theorem length_records : (records w block n).length = n := by simp [records]

theorem records_succ : records w block (n + 1) = records w block n ++ [record w block n] := by
  rw [records, List.range_succ, List.map_append]
  rfl

theorem getElem?_records (hi : i < n) : (records w block n)[i]? = some (record w block i) := by
  rw [records, List.getElem?_map, List.getElem?_range hi]
  rfl

theorem length_record (h : (i + 1) * w ≤ block.length) : (record w block i).length = w := by
  rw [Nat.succ_mul] at h
  rw [record, List.length_take, List.length_drop]
  omega

theorem records_congr {block' : List β} (h : ∀ i < n, record w block i = record w block' i) :
    records w block n = records w block' n :=
  List.map_congr_left fun i hi => h i (List.mem_range.1 hi)

/-! ## Resizing -/

/-- What lies in the first `m` bytes does not depend on what is behind them. -/
theorem record_take_append {m : ℕ} (h : (i + 1) * w ≤ m) (hm : m ≤ block.length) :
    record w (block.take m ++ fresh) i = record w block i := by
  rw [Nat.succ_mul] at h
  rw [record, record, List.drop_append_of_le_length (by rw [List.length_take]; omega),
    List.drop_take, List.take_append_of_le_length (by simp; omega), List.take_take]
  congr 1
  omega

theorem length_resize {size : ℕ} {fresh : ℕ → β} : (resize block size fresh).length = size := by
  simp only [resize, List.length_append, List.length_take, List.length_map, List.length_range]
  omega

/-- **Records that fit into the resized block are kept.** -/
theorem records_resize {size : ℕ} {fresh : ℕ → β} (h : n * w ≤ size) (hn : n * w ≤ block.length) :
    records w (resize block size fresh) n = records w block n := by
  apply records_congr
  intro i hi
  have hi' : (i + 1) * w ≤ n * w := Nat.mul_le_mul_right w hi
  rw [resize, List.take_eq_take_min]
  exact record_take_append (by omega) (min_le_right size block.length)

/-! ## Writing -/

theorem length_write (h : i + v.length ≤ block.length) :
    (write block i v).length = block.length := by
  simp only [write, List.length_append, List.length_take, List.length_drop]
  omega

theorem length_setRecord (hv : v.length = w) (h : (i + 1) * w ≤ block.length) :
    (setRecord w block i v).length = block.length := by
  rw [Nat.succ_mul] at h
  exact length_write (by omega)

theorem record_setRecord_self (hv : v.length = w) (h : i * w ≤ block.length) :
    record w (setRecord w block i v) i = v := by
  have hlen : (block.take (i * w)).length = i * w := by rw [List.length_take, min_eq_left h]
  rw [record, setRecord, write, List.append_assoc, List.drop_left' hlen,
    List.take_append_of_le_length hv.ge, ← hv, List.take_length]

theorem record_setRecord_of_lt (h : j < i) (hi : i * w ≤ block.length) :
    record w (setRecord w block i v) j = record w block j := by
  rw [setRecord, write, List.append_assoc]
  exact record_take_append (Nat.mul_le_mul_right w h) hi

theorem record_setRecord_of_gt (hv : v.length = w) (h : i < j) (hi : i * w ≤ block.length) :
    record w (setRecord w block i v) j = record w block j := by
  have hle : i * w + w ≤ j * w := by
    rw [← Nat.succ_mul]
    exact Nat.mul_le_mul_right w h
  have hlen : (block.take (i * w) ++ v).length = i * w + w := by
    rw [List.length_append, List.length_take, hv]
    omega
  rw [record, record, setRecord, write, hv, List.drop_append, List.drop_of_length_le (by omega),
    List.nil_append, List.drop_drop, hlen]
  congr 2
  omega

/-- **A record written behind the others is appended to them.** -/
theorem records_setRecord (hv : v.length = w) (h : n * w ≤ block.length) :
    records w (setRecord w block n v) (n + 1) = records w block n ++ [v] := by
  rw [records_succ, record_setRecord_self hv h]
  congr 1
  exact records_congr fun i hi => record_setRecord_of_lt hi h

/-! ## Shifting -/

theorem length_shift (h : (i + k + 1) * w ≤ block.length) :
    (shift w k i block).length = block.length := by
  induction k generalizing i block with
  | zero => rfl
  | succ k ih =>
      have hle : (i + 1 + 1) * w ≤ (i + (k + 1) + 1) * w := Nat.mul_le_mul_right w (by omega)
      have hle' : (i + 1) * w ≤ (i + 1 + 1) * w := Nat.mul_le_mul_right w (by omega)
      have hset :=
        length_setRecord (length_record (le_trans hle h)) (le_trans hle' (le_trans hle h))
      rw [shift, ih (by rw [hset]; rwa [show i + 1 + k + 1 = i + (k + 1) + 1 by omega]), hset]

/-- Where record `j` comes from. -/
theorem record_shift (h : (i + k + 1) * w ≤ block.length) :
    record w (shift w k i block) j =
      if i ≤ j ∧ j < i + k then record w block (j + 1) else record w block j := by
  induction k generalizing i block with
  | zero => rw [shift, if_neg (by omega)]
  | succ k ih =>
      have hle : (i + 1 + 1) * w ≤ (i + (k + 1) + 1) * w := Nat.mul_le_mul_right w (by omega)
      have hle' : (i + 1) * w ≤ (i + 1 + 1) * w := Nat.mul_le_mul_right w (by omega)
      have hle'' : i * w ≤ (i + 1) * w := Nat.mul_le_mul_right w (by omega)
      have hv := length_record (le_trans hle h)
      have hset := length_setRecord hv (le_trans hle' (le_trans hle h))
      have hi : i * w ≤ block.length := le_trans hle'' (le_trans hle' (le_trans hle h))
      rw [shift, ih (by rw [hset]; rwa [show i + 1 + k + 1 = i + (k + 1) + 1 by omega])]
      rcases lt_trichotomy j i with hj | rfl | hj
      · rw [if_neg (by omega), if_neg (by omega), record_setRecord_of_lt hj hi]
      · rw [if_neg (by omega), if_pos (by omega), record_setRecord_self hv hi]
      · rw [record_setRecord_of_gt hv hj hi, record_setRecord_of_gt hv (by omega) hi]
        by_cases hjk : j < i + (k + 1)
        · rw [if_pos (by omega), if_pos (by omega)]
        · rw [if_neg (by omega), if_neg (by omega)]

/-- **A shift up to the last record erases record `i`.** -/
theorem records_shift (h : (i + k + 1) * w ≤ block.length) :
    records w (shift w k i block) (i + k) = (records w block (i + k + 1)).eraseIdx i := by
  apply List.ext_getElem?
  intro j
  rw [List.getElem?_eraseIdx]
  by_cases hj : j < i + k
  · rw [getElem?_records hj, record_shift h, getElem?_records (by omega),
      getElem?_records (by omega)]
    by_cases hji : j < i
    · rw [if_neg (by omega), if_pos hji]
    · rw [if_pos (by omega), if_neg hji]
  · rw [List.getElem?_eq_none (by rw [length_records]; omega), if_neg (by omega),
      List.getElem?_eq_none (by rw [length_records]; omega)]

end Records
