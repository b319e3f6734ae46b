import Yacet.Resize
import Mathlib.Data.List.Nodup
import Mathlib.Data.List.Sort

/-!
# Pushing a list of edited rows

The rows that any of the sessions edits cut the file into a patchwork (`gaps`, `patches`); every
other row that overlaps none of them lies in one gap.

* `RowMarks` — the marks of the edited rows and of the rows in the gaps; `tracksAll_rows` and
  `admitsAll_rows` say that the table follows them and that pushes keep it so.
* `resize_edits`, `push_edits` — one push of a session on the patchwork.
* `queryResizeFile_splices` — a push replaces exactly the edited rows' texts: in the file, in what
  the edited rows cut out of it, and in what every other row cuts out of it.
-/

namespace Yacet

open Patchwork

variable {β : Type*}

/-- An edited row, and its list node, whose positions are those of the new text in the swap
file. -/
structure Edit where
  row : OffsetRow
  node : ItNode
  deriving DecidableEq, Repr

/-- The new text. -/
def Edit.text (swp : List β) (e : Edit) : List β := swp.slice e.node.base e.node.bound

/-- The row's positions with the new text. -/
def Edit.span (swp : List β) (e : Edit) : Span β := ⟨e.row.base, e.row.bound, e.text swp⟩

/-- `r` ends where `s` begins or before, and before `s` ends. -/
def OffsetRow.Precedes (r s : OffsetRow) : Prop := r.bound ≤ s.base ∧ r.bound < s.bound

instance (r s : OffsetRow) : Decidable (r.Precedes s) := inferInstanceAs (Decidable (_ ∧ _))

/-- Rows of a file in ascending order.  They may touch; an empty row must not touch the one before
it. -/
structure RowsListed (fileId : ℕ) (table rows : List OffsetRow) : Prop where
  row : ∀ r ∈ rows, rowOf table r.offsetId = some r
  file : ∀ r ∈ rows, r.fileId = fileId
  le : ∀ r ∈ rows, r.base ≤ r.bound
  ascending : rows.Pairwise OffsetRow.Precedes

/-- The rows end inside a file of length `L`. -/
structure RowsOk (fileId L : ℕ) (table rows : List OffsetRow) : Prop
    extends RowsListed fileId table rows where
  inside : ∀ r ∈ rows, r.bound ≤ L

/-- A push: edited rows in ascending order, with texts in the swap file. -/
structure EditsListed (fileId : ℕ) (table : List OffsetRow) (swp : List β) (edits : List Edit) :
    Prop where
  rows : RowsListed fileId table (edits.map Edit.row)
  id : ∀ e ∈ edits, e.node.id = e.row.offsetId
  text : ∀ e ∈ edits, e.node.base ≤ e.node.bound ∧ e.node.bound ≤ swp.length

/-- The edited rows end inside a file of length `L`. -/
structure EditsOk (fileId L : ℕ) (table : List OffsetRow) (swp : List β) (edits : List Edit) : Prop
    extends EditsListed fileId table swp edits where
  inside : ∀ e ∈ edits, e.row.bound ≤ L

theorem EditsOk.rowsOk {fileId L : ℕ} {table : List OffsetRow} {swp : List β} {edits : List Edit}
    (h : EditsOk fileId L table swp edits) : RowsOk fileId L table (edits.map Edit.row) :=
  ⟨h.rows, List.forall_mem_map.2 h.inside⟩

/-- Sorted by `Base`, non-empty rows that do not overlap ascend. -/
theorem precedes_insertionSort {l : List OffsetRow} (hne : ∀ r ∈ l, r.base < r.bound)
    (hapart : l.Pairwise fun r s => r.bound ≤ s.base ∨ s.bound ≤ r.base) :
    (l.insertionSort fun r s => r.base ≤ s.base).Pairwise OffsetRow.Precedes := by
  have hapart' : (l.insertionSort fun r s => r.base ≤ s.base).Pairwise fun r s =>
      r.bound ≤ s.base ∨ s.bound ≤ r.base :=
    ((List.perm_insertionSort _ l).pairwise_iff fun h => h.symm).2 hapart
  have hsorted : (l.insertionSort fun r s => r.base ≤ s.base).Pairwise fun r s =>
      r.base ≤ s.base := by
    have : Std.Total fun r s : OffsetRow => r.base ≤ s.base := ⟨fun r s => Nat.le_total _ _⟩
    have : IsTrans OffsetRow fun r s => r.base ≤ s.base := ⟨fun _ _ _ => Nat.le_trans⟩
    exact List.pairwise_insertionSort _ _
  refine (hapart'.and hsorted).imp_of_mem fun {r s} hr hs hrs => ?_
  have h1 := hne r ((List.mem_insertionSort _).1 hr)
  have h2 := hne s ((List.mem_insertionSort _).1 hs)
  unfold OffsetRow.Precedes
  omega

/-! ## The patchwork of the edited rows -/

def baseAt (rows : List OffsetRow) (i : ℕ) : ℕ := (rows[i]?.map OffsetRow.base).getD 0

def boundAt (rows : List OffsetRow) (i : ℕ) : ℕ := (rows[i]?.map OffsetRow.bound).getD 0

def idAt (rows : List OffsetRow) (i : ℕ) : ℕ := (rows[i]?.map OffsetRow.offsetId).getD 0

/-- The text between the edited rows. -/
def gaps (F : List β) (rows : List OffsetRow) : ℕ → List β :=
  cutGap F (baseAt rows) (boundAt rows) rows.length

/-- The text of the edited rows. -/
def patches (F : List β) (rows : List OffsetRow) : ℕ → List β :=
  cutPatch F (baseAt rows) (boundAt rows)

variable {fileId i L : ℕ} {F swp : List β} {table rows : List OffsetRow} {edits : List Edit}

theorem baseAt_of_lt (hi : i < rows.length) : baseAt rows i = rows[i].base := by
  simp [baseAt, hi]

theorem boundAt_of_lt (hi : i < rows.length) : boundAt rows i = rows[i].bound := by
  simp [boundAt, hi]

theorem idAt_of_lt (hi : i < rows.length) : idAt rows i = rows[i].offsetId := by
  simp [idAt, hi]

namespace RowsOk

theorem ascendingSpans (h : RowsOk fileId F.length table rows) :
    Ascending F (baseAt rows) (boundAt rows) rows.length where
  le i hi := by
    rw [baseAt_of_lt hi, boundAt_of_lt hi]
    exact h.le _ (List.getElem_mem hi)
  next i hi := by
    rw [baseAt_of_lt hi, boundAt_of_lt (by omega)]
    exact (List.pairwise_iff_getElem.1 h.ascending i (i + 1) (by omega) hi (by omega)).1
  inside i hi := by
    rw [boundAt_of_lt hi]
    exact h.inside _ (List.getElem_mem hi)

theorem flat_eq (h : RowsOk fileId F.length table rows) :
    flat (gaps F rows) (patches F rows) rows.length = F := cut_flat h.ascendingSpans

theorem start_eq (h : RowsOk fileId F.length table rows) (hi : i < rows.length) :
    start (gaps F rows) (patches F rows) i = rows[i].base := by
  rw [← baseAt_of_lt hi]
  exact cut_start h.ascendingSpans hi

theorem stop_eq (h : RowsOk fileId F.length table rows) (hi : i < rows.length) :
    stop (gaps F rows) (patches F rows) i = rows[i].bound := by
  rw [← boundAt_of_lt hi]
  exact cut_stop h.ascendingSpans hi

theorem patch_ne_nil (h : RowsOk fileId F.length table rows) (hi : i < rows.length)
    (hne : rows[i].base < rows[i].bound) : patches F rows i ≠ [] := by
  have h1 := h.start_eq hi
  have h2 := h.stop_eq hi
  have h3 := Patchwork.stop_eq (g := gaps F rows) (τ := patches F rows) (i := i)
  intro hnil
  rw [hnil, List.length_nil] at h3
  omega

/-- An empty row has text in front of it. -/
theorem gap_ne_nil (h : RowsOk fileId F.length table rows) {j : ℕ} (hj : j < i)
    (hi : i < rows.length) (hnil : patches F rows i = []) : gaps F rows i ≠ [] := by
  have h1 := (List.pairwise_iff_getElem.1 h.ascending (i - 1) i (by omega) hi (by omega)).2
  rw [← h.stop_eq hi, ← h.stop_eq (show i - 1 < rows.length by omega)] at h1
  have h2 := Patchwork.stop_eq (g := gaps F rows) (τ := patches F rows) (i := i)
  have h3 : stop (gaps F rows) (patches F rows) (i - 1) =
      (lead (gaps F rows) (patches F rows) i).length := by
    rw [stop, show i - 1 + 1 = i by omega]
  intro hgap
  rw [hnil, start, hgap, List.length_nil] at h2
  omega

theorem nodup (h : RowsOk fileId L table rows) : rows.Nodup := by
  refine h.ascending.imp fun {r t} hrt heq => ?_
  rw [heq] at hrt
  exact Nat.lt_irrefl _ hrt.2

/-- Different places in the list hold different rows. -/
theorem idAt_inj (h : RowsOk fileId F.length table rows) {i j : ℕ} (hi : i < rows.length)
    (hj : j < rows.length) (hid : idAt rows i = idAt rows j) : i = j := by
  rw [idAt_of_lt hi, idAt_of_lt hj] at hid
  have hri := h.row _ (List.getElem_mem hi)
  have hrj := h.row _ (List.getElem_mem hj)
  rw [hid, hrj] at hri
  have hrow : rows[j] = rows[i] := Option.some.inj hri
  rcases Nat.lt_trichotomy i j with hlt | heq | hlt
  · have := (List.pairwise_iff_getElem.1 h.ascending i j hi hj hlt).2
    rw [hrow] at this
    omega
  · exact heq
  · have := (List.pairwise_iff_getElem.1 h.ascending j i hj hi hlt).2
    rw [hrow] at this
    omega

end RowsOk

/-- The marks that the rows of the file follow: an edited row is a patch; any other row is tracked
where both its ends lie in gaps and stay in front of the patches behind them. -/
def RowMarks (fileId : ℕ) (F : List β) (table rows : List OffsetRow) (id : ℕ) (lo hi : Mark) :
    Prop :=
  (∃ i < rows.length, id = idAt rows i ∧ lo = Mark.atStart (gaps F rows) i ∧ hi = Mark.atStop i) ∨
  ((∀ r ∈ rows, r.offsetId ≠ id) ∧
    (∃ r, rowOf table id = some r ∧ r.fileId = fileId ∧
      Tracks (gaps F rows) (patches F rows) r lo hi) ∧
    ∀ i < rows.length, lo.Before (gaps F rows) (patches F rows i) i ∧
      hi.Before (gaps F rows) (patches F rows i) i)

theorem rowMarks_edited {s : OffsetRow} (hs : s ∈ rows) :
    RowMarks fileId F table rows s.offsetId (Mark.atStart (gaps F rows) (rows.idxOf s))
      (Mark.atStop (rows.idxOf s)) := by
  have hi := List.idxOf_lt_length_of_mem hs
  exact Or.inl ⟨rows.idxOf s, hi, by rw [idAt_of_lt hi, List.getElem_idxOf], rfl, rfl⟩

theorem tracksAll_rows (h : RowsOk fileId F.length table rows) :
    TracksAll (gaps F rows) (patches F rows) fileId (RowMarks fileId F table rows) table := by
  rintro id lo hi (⟨i, hi, rfl, rfl, rfl⟩ | ⟨_, hr, _⟩)
  · have hmem := List.getElem_mem hi
    refine ⟨rows[i], ?_, h.file _ hmem, ?_, ?_⟩
    · rw [idAt_of_lt hi]
      exact h.row _ hmem
    · exact (h.start_eq hi).symm
    · exact (h.stop_eq hi).symm
  · exact hr

/-- Pushes of rows that still hold their text keep the tracking. -/
theorem admitsAll_rows (h : RowsOk fileId F.length table rows) {is : List ℕ} {τ : ℕ → List β}
    (his : ∀ i ∈ is, i < rows.length) (hτ : ∀ i ∈ is, τ i = patches F rows i) :
    AdmitsAll (gaps F rows) τ is (idAt rows) (RowMarks fileId F table rows) where
  edited i hi := Or.inl ⟨i, his i hi, rfl, rfl, rfl⟩
  admits i hi id lo hi' hM := by
    have hlt := his i hi
    rw [hτ i hi]
    rcases hM with ⟨j, hj, rfl, rfl, rfl⟩ | ⟨hother, _, hbefore⟩
    · -- another edited row lies before the end of patch `i` or behind it
      have hmark : ∀ m : Mark, m.off ≤ (gaps F rows m.gap).length → m.gap ≠ i →
          m.Before (gaps F rows) (patches F rows i) i := fun m hm hgap τ hτ hle => by
        by_cases hnil : patches F rows i = []
        · exact Mark.before_of_gap hm (h.gap_ne_nil (show m.gap < i by omega) hlt hnil) hgap τ
            hτ hle
        · exact Mark.before_of_ne_nil hm hnil τ hτ hle
      refine ⟨fun hid => ?_, fun hid => ?_, ?_⟩
      · rw [h.idAt_inj hj hlt hid]
        exact Nat.le_refl _
      · exact hmark _ (Nat.le_refl _) fun he => hid (congrArg (idAt rows) he)
      · by_cases hgap : j + 1 = i
        · intro τ hτ hle
          by_cases hnil : patches F rows i = []
          · have hg := List.length_pos_iff.2 (h.gap_ne_nil (show j < i by omega) hlt hnil)
            have := start_le_stop (g := gaps F rows) (τ := τ) (i := i)
            rw [Mark.pos_atStop, stop, hgap]
            unfold start at this
            omega
          · exact Mark.pos_lt_stop (Nat.zero_le _) hle (by rw [hτ]; exact hnil)
        · exact hmark _ (Nat.zero_le _) hgap
    · refine ⟨fun hid => ?_, fun _ => (hbefore i hlt).1, (hbefore i hlt).2⟩
      refine absurd ?_ (hother rows[i] (List.getElem_mem hlt))
      rw [hid, idAt_of_lt hlt]

/-! ## One push -/

/-- The places of a session's rows among all edited rows. -/
def places (rows : List OffsetRow) (edits : List Edit) : List ℕ :=
  edits.map fun e => rows.idxOf e.row

/-- The session's node for place `i`. -/
def nodeAt (rows : List OffsetRow) (edits : List Edit) (i : ℕ) : ItNode :=
  ((edits.find? fun e => rows.idxOf e.row = i).map Edit.node).getD ⟨0, 0, 0⟩

/-- The session's text for place `i`. -/
def textAt (swp : List β) (rows : List OffsetRow) (edits : List Edit) (i : ℕ) : List β :=
  swp.slice (nodeAt rows edits i).base (nodeAt rows edits i).bound

section Places

variable (h : RowsOk fileId F.length table rows) (hsub : ∀ e ∈ edits, e.row ∈ rows)
  (hasc : edits.Pairwise fun d e => d.row.Precedes e.row)
include h hsub hasc

omit h in
theorem rows_eq_of_edit {d e : Edit} (hd : d ∈ edits) (he : e ∈ edits)
    (hrow : rows.idxOf d.row = rows.idxOf e.row) : d = e := by
  have hrow : d.row = e.row := by
    have h1 := List.getElem_idxOf (List.idxOf_lt_length_of_mem (hsub d hd))
    have h2 := List.getElem_idxOf (List.idxOf_lt_length_of_mem (hsub e he))
    rw [← h1, ← h2]
    simp only [hrow]
  have hnd : (edits.map Edit.row).Nodup := by
    rw [List.Nodup, List.pairwise_map]
    refine hasc.imp fun {a b} hab heq => ?_
    rw [heq] at hab
    exact Nat.lt_irrefl _ hab.2
  exact List.inj_on_of_nodup_map hnd hd he hrow

omit h in
theorem nodeAt_place {e : Edit} (he : e ∈ edits) :
    nodeAt rows edits (rows.idxOf e.row) = e.node := by
  unfold nodeAt
  cases hf : edits.find? fun d => decide (rows.idxOf d.row = rows.idxOf e.row) with
  | none =>
      have := List.find?_eq_none.1 hf e he
      simp at this
  | some d =>
      have hd := List.find?_some hf
      have hmem := List.mem_of_find?_eq_some hf
      rw [decide_eq_true_eq] at hd
      rw [rows_eq_of_edit hsub hasc hmem he hd]
      rfl

omit h in
theorem textAt_place {e : Edit} (he : e ∈ edits) :
    textAt swp rows edits (rows.idxOf e.row) = e.text swp := by
  rw [textAt, nodeAt_place hsub hasc he, Edit.text]

omit h in
theorem places_map_node : (places rows edits).map (nodeAt rows edits) = edits.map Edit.node := by
  rw [places, List.map_map]
  exact List.map_congr_left fun e he => nodeAt_place hsub hasc he

theorem places_sorted : (places rows edits).Pairwise (· < ·) := by
  rw [places, List.pairwise_map]
  refine hasc.imp_of_mem fun {a b} ha hb hab => ?_
  have hia := List.idxOf_lt_length_of_mem (hsub a ha)
  have hib := List.idxOf_lt_length_of_mem (hsub b hb)
  have h1 := List.getElem_idxOf hia
  have h2 := List.getElem_idxOf hib
  by_contra hle
  rcases Nat.eq_or_lt_of_le (Nat.le_of_not_lt hle) with heq | hlt
  · have hrow : a.row = b.row := by
      rw [← h1, ← h2]
      simp only [heq]
    rw [hrow] at hab
    exact Nat.lt_irrefl _ hab.2
  · have hba := List.pairwise_iff_getElem.1 h.ascending _ _ hib hia hlt
    rw [h1, h2] at hba
    exact Nat.lt_asymm hab.2 hba.2

omit h hasc in
theorem places_lt : ∀ i ∈ places rows edits, i < rows.length := by
  intro i hi
  obtain ⟨e, he, rfl⟩ := List.mem_map.1 hi
  exact List.idxOf_lt_length_of_mem (hsub e he)

/-- On the file before any push, the session's patches with its texts. -/
theorem spans_places : spans (gaps F rows) (patches F rows) (textAt swp rows edits)
    (places rows edits) = edits.map (Edit.span swp) := by
  rw [spans, places, List.map_map]
  refine List.map_congr_left fun e he => ?_
  have hi := places_lt hsub _ (List.mem_map_of_mem he)
  simp only [Function.comp_apply, Edit.span, textAt_place hsub hasc he, h.start_eq hi,
    h.stop_eq hi, List.getElem_idxOf]

/-- **One push on the patchwork of all edited rows.**  `P` is whatever else its `UPDATE`s keep. -/
theorem resize_edits {τ : ℕ → List β} {table' : List OffsetRow}
    {P : (ℕ → List β) → List OffsetRow → Prop}
    (hstep : ∀ i < rows.length, ∀ τ table, ∀ c : List β, P τ table → P (Function.update τ i c)
      (table.map (updateOffset fileId (idAt rows i) c.length (start (gaps F rows) τ i)
        (stop (gaps F rows) τ i))))
    (hid : ∀ e ∈ edits, e.node.id = e.row.offsetId)
    (htext : ∀ e ∈ edits, e.node.base ≤ e.node.bound ∧ e.node.bound ≤ swp.length)
    (hτ : ∀ e ∈ edits, τ (rows.idxOf e.row) = patches F rows (rows.idxOf e.row))
    (ht : TracksAll (gaps F rows) τ fileId (RowMarks fileId F table rows) table')
    (hP : P τ table') :
    let ss := spans (gaps F rows) τ (textAt swp rows edits) (places rows edits)
    let τ' := override (textAt swp rows edits) (places rows edits) τ
    let table'' := resizedTable fileId (edits.map Edit.node) table'
    Chain (flat (gaps F rows) τ rows.length).length 0 ss ∧
    List.Forall₂ (OffsetUpdate.Names swp) (collected fileId (edits.map Edit.node) table') ss ∧
    TracksAll (gaps F rows) τ' fileId (RowMarks fileId F table rows) table'' ∧ P τ' table'' := by
  have hlt := places_lt hsub
  rw [← places_map_node hsub hasc]
  refine resize_patches (fun i hi τ table => hstep i (hlt i hi) τ table _)
    (places_sorted h hsub hasc) hlt (fun i hi => ?_) (fun i hi => ?_) ht
    (admitsAll_rows h hlt fun i hi => ?_) hP
  all_goals
    have hi' := hi
    obtain ⟨e, he, rfl⟩ := List.mem_map.1 hi'
  · rw [nodeAt_place hsub hasc he, hid e he, idAt_of_lt (hlt _ hi), List.getElem_idxOf]
  · rw [nodeAt_place hsub hasc he, textAt_place hsub hasc he]
    exact ⟨(htext e he).1, (htext e he).2, rfl⟩
  · exact hτ e he

/-- The push as a whole, where all its calls succeed. -/
theorem push_edits {ok : Call → Bool} (zero : β) {τ : ℕ → List β} {table' : List OffsetRow}
    {P : (ℕ → List β) → List OffsetRow → Prop}
    (hstep : ∀ i < rows.length, ∀ τ table, ∀ c : List β, P τ table → P (Function.update τ i c)
      (table.map (updateOffset fileId (idAt rows i) c.length (start (gaps F rows) τ i)
        (stop (gaps F rows) τ i))))
    (hok : ∀ c, ok c = true) (hid : ∀ e ∈ edits, e.node.id = e.row.offsetId)
    (htext : ∀ e ∈ edits, e.node.base ≤ e.node.bound ∧ e.node.bound ≤ swp.length)
    (hτ : ∀ e ∈ edits, τ (rows.idxOf e.row) = patches F rows (rows.idxOf e.row))
    (ht : TracksAll (gaps F rows) τ fileId (RowMarks fileId F table rows) table')
    (hP : P τ table') :
    let τ' := override (textAt swp rows edits) (places rows edits) τ
    let table'' := resizedTable fileId (edits.map Edit.node) table'
    queryResizeFile ok zero fileId (edits.map Edit.node) swp
        ⟨flat (gaps F rows) τ rows.length, table'⟩ =
      some (0, ⟨flat (gaps F rows) τ' rows.length, table''⟩) ∧
    TracksAll (gaps F rows) τ' fileId (RowMarks fileId F table rows) table'' ∧ P τ' table'' := by
  obtain ⟨h1, h2, h3, h4⟩ := resize_edits h hsub hasc hstep hid htext hτ ht hP
  refine ⟨?_, h3, h4⟩
  rw [queryResizeFile_ok zero hok h1 h2,
    replaceSpans_flat_zero (places_sorted h hsub hasc) (places_lt hsub)]

end Places

/-! ## What a push does to the bytes -/

/-- The mark of position `p`: the gap in front of the first edited row that does not begin before
`p`. -/
def markAt (rows : List OffsetRow) (p : ℕ) : Mark :=
  let k := rows.findIdx fun r => p ≤ r.base
  ⟨k, p - cutFrom (boundAt rows) k⟩

theorem markAt_gap_mono (rows : List OffsetRow) {p q : ℕ} (hpq : p ≤ q) :
    (markAt rows p).gap ≤ (markAt rows q).gap := by
  refine List.findIdx_le_findIdx fun r _ => ?_
  rw [decide_eq_true_eq, decide_eq_true_eq]
  exact Nat.le_trans hpq

/-- A position that is not strictly inside an edited row is that of its mark. -/
theorem RowsOk.markAt_pos (h : RowsOk fileId F.length table rows) {p : ℕ} (hp : p ≤ F.length)
    (hout : ∀ r ∈ rows, p ≤ r.base ∨ r.bound ≤ p) :
    (markAt rows p).Valid (gaps F rows) rows.length ∧
      (markAt rows p).pos (gaps F rows) (patches F rows) = p := by
  refine cut_mark h.ascendingSpans List.findIdx_le_length ?_ ?_
  · generalize hk : rows.findIdx (fun r => decide (p ≤ r.base)) = k
    cases k with
    | zero => exact Nat.zero_le _
    | succ k =>
        have hlt : k < rows.length := by
          have hle : rows.findIdx (fun r => decide (p ≤ r.base)) ≤ rows.length :=
            List.findIdx_le_length
          omega
        have hbefore : k < rows.findIdx (fun r => decide (p ≤ r.base)) := by omega
        have hnot := List.not_of_lt_findIdx hbefore
        rw [decide_eq_false_iff_not] at hnot
        show boundAt rows k ≤ p
        rw [boundAt_of_lt hlt]
        exact (hout _ (List.getElem_mem hlt)).resolve_left hnot
  · split
    · rename_i hlt
      rw [baseAt_of_lt hlt]
      simpa using List.findIdx_getElem (w := hlt)
    · exact hp

/-- A row that overlaps no edited row lies in one gap. -/
theorem markAt_gap_eq (hne : ∀ r ∈ rows, r.base < r.bound) {p q : ℕ} (hpq : p ≤ q)
    (hdis : ∀ r ∈ rows, q ≤ r.base ∨ r.bound ≤ p) :
    (markAt rows p).gap = (markAt rows q).gap := by
  refine Nat.le_antisymm (markAt_gap_mono rows hpq) (List.findIdx_le_findIdx fun r hr => ?_)
  rw [decide_eq_true_eq, decide_eq_true_eq]
  intro hp
  have := hne r hr
  rcases hdis r hr with h1 | h1 <;> omega

/-- Marks keep their order whatever the patches are. -/
theorem RowsOk.markAt_pos_mono (h : RowsOk fileId F.length table rows) {p q : ℕ} (hpq : p ≤ q)
    (hq : q ≤ F.length) (hp' : ∀ r ∈ rows, p ≤ r.base ∨ r.bound ≤ p)
    (hq' : ∀ r ∈ rows, q ≤ r.base ∨ r.bound ≤ q) (τ : ℕ → List β) :
    (markAt rows p).pos (gaps F rows) τ ≤ (markAt rows q).pos (gaps F rows) τ := by
  obtain ⟨⟨_, hv⟩, hp⟩ := h.markAt_pos (Nat.le_trans hpq hq) hp'
  obtain ⟨_, hq⟩ := h.markAt_pos hq hq'
  rcases Nat.eq_or_lt_of_le (markAt_gap_mono rows hpq) with heq | hlt
  · unfold Mark.pos at hp hq ⊢
    rw [heq] at hp ⊢
    omega
  · exact Nat.le_trans (Mark.pos_le_start hv (Nat.le_refl _))
      (Nat.le_trans start_le_stop (Mark.stop_le_pos hlt))

/-- Where no edited row is empty, a row whose ends are not strictly inside edited rows is
tracked. -/
theorem RowsOk.rowMarks_other (h : RowsOk fileId F.length table rows)
    (hne : ∀ r ∈ rows, r.base < r.bound) {id : ℕ} {r : OffsetRow} (hr : rowOf table id = some r)
    (hf : r.fileId = fileId) (hother : ∀ s ∈ rows, s.offsetId ≠ id) (hle : r.base ≤ r.bound)
    (hin : r.bound ≤ F.length) (hbase : ∀ s ∈ rows, r.base ≤ s.base ∨ s.bound ≤ r.base)
    (hbound : ∀ s ∈ rows, r.bound ≤ s.base ∨ s.bound ≤ r.bound) :
    RowMarks fileId F table rows id (markAt rows r.base) (markAt rows r.bound) := by
  obtain ⟨hv, hpos⟩ := h.markAt_pos (Nat.le_trans hle hin) hbase
  obtain ⟨hv', hpos'⟩ := h.markAt_pos hin hbound
  refine Or.inr ⟨hother, ⟨r, hr, hf, hpos.symm, hpos'.symm⟩, fun i hi => ?_⟩
  have hnil := h.patch_ne_nil hi (hne _ (List.getElem_mem hi))
  exact ⟨Mark.before_of_ne_nil hv.2 hnil, Mark.before_of_ne_nil hv'.2 hnil⟩

/-- The `UPDATE`s of other rows keep an empty row empty. -/
theorem resizedTable_empty (fileId : ℕ) {id : ℕ} {it : List ItNode} {r : OffsetRow}
    (hr : rowOf table id = some r) (hempty : r.base = r.bound) (hid : ∀ n ∈ it, n.id ≠ id) :
    ∃ r', rowOf (resizedTable fileId it table) id = some r' ∧ r'.base = r'.bound := by
  unfold resizedTable
  have hloop : ∀ s : Resize, (∃ r, rowOf s.table id = some r ∧ r.base = r.bound) →
      ∃ r', rowOf (it.foldl (resizeRow fileId) s).table id = some r' ∧ r'.base = r'.bound := by
    induction it with
    | nil => exact fun s hs => hs
    | cons n ns ih =>
        rintro s ⟨r, hr, he⟩
        refine ih (fun m hm => hid m (List.mem_cons_of_mem _ hm)) _ ?_
        have hne : r.offsetId ≠ n.id := by
          rw [(rowOf_some hr).2]
          exact (hid n List.mem_cons_self).symm
        refine ⟨_, (rowOf_map fun r => updateOffset_offsetId).trans (by rw [hr]; rfl), ?_⟩
        by_cases hf : r.fileId = fileId
        · rw [updateOffset_base hf, updateOffset_bound hf, he]
          simp only [ne_eq, hne, not_false_eq_true, true_and]
        · simp only [updateOffset_of_ne hf, he]
  exact hloop _ ⟨r, hr, hempty⟩

/-- The rows share no position. -/
def OffsetRow.Apart (r s : OffsetRow) : Prop :=
  ∀ x, ¬ (r.base ≤ x ∧ x < r.bound ∧ s.base ≤ x ∧ x < s.bound)

theorem OffsetRow.Apart.cases {r s : OffsetRow} (h : r.Apart s) (hs : s.base < s.bound)
    (hr : r.base < r.bound) : r.bound ≤ s.base ∨ s.bound ≤ r.base := by
  have := h (max r.base s.base)
  omega

/-- **A push replaces the texts of its rows**: (1) in the file; (2) each edited row cuts its new
text out of the new file; (3) every other row of the file that shares no position with an edited
row cuts out the same bytes as before. -/
theorem queryResizeFile_splices {ok : Call → Bool} {zero : β} (hok : ∀ c, ok c = true)
    (h : EditsOk fileId F.length table swp edits) (hne : ∀ e ∈ edits, e.row.base < e.row.bound) :
    ∃ out, queryResizeFile ok zero fileId (edits.map Edit.node) swp ⟨F, table⟩ = some out ∧
    out.1 = 0 ∧
    out.2.backing = replaceSpans F 0 (edits.map (Edit.span swp)) ∧
    (∀ e ∈ edits, ∃ r, rowOf out.2.table e.row.offsetId = some r ∧
      out.2.backing.slice r.base r.bound = e.text swp) ∧
    ∀ id r, rowOf table id = some r → r.fileId = fileId → r.base ≤ r.bound → r.bound ≤ F.length →
      (∀ e ∈ edits, e.row.offsetId ≠ id ∧ r.Apart e.row) →
      ∃ r', rowOf out.2.table id = some r' ∧
        out.2.backing.slice r'.base r'.bound = F.slice r.base r.bound := by
  have hrows := h.rowsOk
  obtain ⟨⟨-, hid, htext⟩, -⟩ := h
  have hsub : ∀ e ∈ edits, e.row ∈ edits.map Edit.row := fun e he => List.mem_map_of_mem he
  have hasc : edits.Pairwise fun d e => d.row.Precedes e.row := List.pairwise_map.1 hrows.ascending
  have hfrom : ∀ r ∈ edits.map Edit.row, ∃ e ∈ edits, e.row = r := fun r hr => List.mem_map.1 hr
  generalize edits.map Edit.row = rows at hrows hsub hfrom
  have hlt := places_lt hsub
  obtain ⟨hrun, htracks, -⟩ := push_edits (P := fun _ _ => True) hrows hsub hasc zero
    (fun _ _ _ _ _ _ => trivial) hok hid htext (fun _ _ => rfl) (tracksAll_rows hrows) trivial
  rw [hrows.flat_eq] at hrun
  refine ⟨_, hrun, rfl, ?_, fun e he => ?_, fun id r hr hf hle hin hdis => ?_⟩
  · show flat _ _ _ = _
    rw [← replaceSpans_flat_zero (places_sorted hrows hsub hasc) hlt, hrows.flat_eq,
      spans_places hrows hsub hasc]
  · have hmem : rows.idxOf e.row ∈ places rows edits := List.mem_map_of_mem he
    obtain ⟨r, hr, _, hb⟩ := htracks _ _ _ (rowMarks_edited (hsub e he))
    refine ⟨r, hr, ?_⟩
    rw [hb.base, hb.bound, Mark.pos_atStart, Mark.pos_atStop]
    show (flat _ _ _).slice _ _ = _
    rw [flat_slice_patch (hlt _ hmem), override_of_mem hmem, textAt_place hsub hasc he]
  · by_cases hempty : r.base = r.bound
    · have hother : ∀ n ∈ edits.map Edit.node, n.id ≠ id := fun n hn => by
        obtain ⟨e, he, rfl⟩ := List.mem_map.1 hn
        rw [hid e he]
        exact (hdis e he).1
      obtain ⟨r', hr', he'⟩ := resizedTable_empty fileId hr hempty hother
      refine ⟨r', hr', ?_⟩
      rw [he', hempty, List.slice_self, List.slice_self]
    · have hnonempty : ∀ s ∈ rows, s.base < s.bound := fun s hs => by
        obtain ⟨e, he, rfl⟩ := hfrom s hs
        exact hne e he
      have hapart : ∀ s ∈ rows, r.bound ≤ s.base ∨ s.bound ≤ r.base := fun s hs => by
        obtain ⟨e, he, rfl⟩ := hfrom s hs
        exact (hdis e he).2.cases (hne e he) (by omega)
      have hb : ∀ s ∈ rows, r.base ≤ s.base ∨ s.bound ≤ r.base := fun s hs => by
        have := hapart s hs
        omega
      have hb' : ∀ s ∈ rows, r.bound ≤ s.base ∨ s.bound ≤ r.bound := fun s hs => by
        have := hapart s hs
        omega
      obtain ⟨r', hr', _, ht⟩ :=
        htracks id _ _ (hrows.rowMarks_other hnonempty hr hf (fun s hs => by
        obtain ⟨e, he, rfl⟩ := hfrom s hs
        exact (hdis e he).1) hle hin hb hb')
      refine ⟨r', hr', ?_⟩
      -- both before and after the push the row cuts a piece out of the same gap
      obtain ⟨_, hpos⟩ := hrows.markAt_pos (Nat.le_trans hle hin) hb
      obtain ⟨hv', hpos'⟩ := hrows.markAt_pos hin hb'
      have hgap := markAt_gap_eq hnonempty hle hapart
      have hbefore := flat_slice_gap (τ := patches F rows) hv' hgap
      rw [hpos, hpos', hrows.flat_eq] at hbefore
      rw [ht.base, ht.bound, hbefore]
      exact flat_slice_gap hv' hgap

/-- Two touching rows, the first emptied and the second grown. -/
theorem queryResizeFile_splices_touching :
    ∃ out, queryResizeFile (fun _ => true) 0 1 [⟨7, 0, 0⟩, ⟨8, 1, 4⟩] [0, 9, 9, 9]
        ⟨[1, 2, 3, 4, 5], [⟨8, 1, 0, 3, 4, false⟩, ⟨7, 1, 0, 1, 3, false⟩]⟩ = some out ∧
      out.1 = 0 ∧ out.2.backing = [1, 9, 9, 9, 5] :=
  let edits : List Edit :=
    [⟨⟨7, 1, 0, 1, 3, false⟩, ⟨7, 0, 0⟩⟩, ⟨⟨8, 1, 0, 3, 4, false⟩, ⟨8, 1, 4⟩⟩]
  have h : EditsOk 1 5 [⟨8, 1, 0, 3, 4, false⟩, ⟨7, 1, 0, 1, 3, false⟩] [0, 9, 9, 9] edits :=
    ⟨⟨⟨by decide, by decide, by decide, by decide⟩, by decide, by decide⟩, by decide⟩
  have hne : ∀ e ∈ edits, e.row.base < e.row.bound := by decide
  let ⟨out, hrun, hret, hfile, _⟩ :=
    queryResizeFile_splices (F := [1, 2, 3, 4, 5]) (fun _ => rfl) h hne
  ⟨out, hrun, hret, hfile⟩

end Yacet
