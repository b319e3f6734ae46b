import Yacet.Moves

/-!
# Which rows stay valid under a push

The ends of a row are moved each by itself.  An end that lies in an edited row, further behind its
base than the new text is long, stays where it is while the text behind it comes down.

* `OffsetRow.StaysValid` — carried through the replacements, the ends of a row stay in order and
  inside the file; `staysValid_one` for a single edited row, `staysValid_of_reached` where no end is
  cut off.
* `push_valid_iff` — **after a push all rows of the file are valid iff all of them have been such**.
* `push_invalidates_overlapping` — a push that is not so.
* `updateOffset_valid`, `push_valid_or_conflict` — what a push leaves invalid it flags.
-/

namespace Yacet

open Patchwork

variable {β : Type*}

/-- `Base <= Bound <= file size`. -/
def OffsetRow.Valid (L : ℕ) (r : OffsetRow) : Prop := r.base ≤ r.bound ∧ r.bound ≤ L

instance (L : ℕ) (r : OffsetRow) : Decidable (r.Valid L) := inferInstanceAs (Decidable (_ ∧ _))

/-- Position `p` lies strictly inside the row. -/
def OffsetRow.Inside (r : OffsetRow) (p : ℕ) : Prop := r.base < p ∧ p < r.bound

/-- On their way through the replacements the ends of the row keep in order and inside a file of
length `L`. -/
def OffsetRow.StaysValid (ss : List (Span β)) (L : ℕ) (r : OffsetRow) : Prop :=
  walk ss r.base ≤ walk ss r.bound ∧ walk ss r.bound ≤ L

variable {fileId oid ns b ob L L' i : ℕ} {r : OffsetRow} {F swp : List β}
  {table : List OffsetRow} {edits : List Edit} {s : Span β} {ss : List (Span β)}

/-- One edited row: no row may end at it or behind it and lose more than it is long, and no row may
end in front of its end with less text behind it than is lost. -/
theorem staysValid_one (hr : r.Valid L) :
    r.StaysValid [s] L ↔
      ¬ (r.base < s.bound ∧ s.bound ≤ r.bound ∧ (r.bound : ℤ) - r.base < s.loss) ∧
        ¬ (r.bound < s.bound ∧ (L : ℤ) < r.bound + s.loss) := by
  obtain ⟨h1, h2⟩ := hr
  simp only [OffsetRow.StaysValid, walk, Nat.cast_le]
  split_ifs with hbase hbound
  · omega
  · omega
  · omega
  · omega

/-- A row whose ends are not cut off stays valid. -/
theorem staysValid_of_reached (hle : ∀ s ∈ ss, s.base ≤ s.bound) (hL : ∀ s ∈ ss, s.bound ≤ L)
    (hasc : ss.Pairwise Span.Precedes) (hbase : Reached r.base ss) (hbound : Reached r.bound ss)
    (hr : r.Valid L) : r.StaysValid ss L :=
  ⟨walk_mono hle hasc hbase hbound (Nat.cast_le.2 hr.1),
    walk_le hL hasc hbound (Nat.cast_le.2 hr.2)⟩

/-- A push takes no row away and puts none in. -/
theorem exists_rowOf_resizedTable {it : List ItNode} {id : ℕ} {r' : OffsetRow}
    (h : rowOf (resizedTable fileId it table) id = some r') :
    ∃ r, rowOf table id = some r ∧ r.fileId = r'.fileId := by
  have hloop : ∀ s : Resize, rowOf (it.foldl (resizeRow fileId) s).table id = some r' →
      ∃ r, rowOf s.table id = some r ∧ r.fileId = r'.fileId := by
    clear h
    induction it with
    | nil => exact fun s hs => ⟨r', hs, rfl⟩
    | cons n ns ih =>
        intro s hs
        obtain ⟨r, hr, hf⟩ := ih _ hs
        rw [resizeRow, rowOf_map fun r => updateOffset_offsetId, Option.map_eq_some_iff] at hr
        obtain ⟨t, ht, rfl⟩ := hr
        rw [updateOffset_fileId] at hf
        exact ⟨t, ht, hf⟩
  exact hloop _ h

/-- A row after the push is valid iff its ends, carried through the replacements, are in order and
inside the file. -/
theorem resizedTable_valid_iff {id : ℕ} (h : EditsListed fileId table swp edits)
    (hne : ∀ e ∈ edits, e.row.base < e.row.bound)
    (hc : Chain F.length 0 (edits.map (Edit.span swp))) (hr : rowOf table id = some r)
    (hf : r.fileId = fileId) :
    ∃ r', rowOf (resizedTable fileId (edits.map Edit.node) table) id = some r' ∧
      r'.fileId = fileId ∧
      (r'.Valid (replaceSpans F 0 (edits.map (Edit.span swp))).length ↔
        r.StaysValid (edits.map (Edit.span swp)) F.length) := by
  have hlen := length_replaceSpans_eq hc
  obtain ⟨r', hr', hf', hb, hob⟩ := rowOf_resizedTable h hr hf fun e he _ => hne e he
  refine ⟨r', hr', hf', ?_⟩
  unfold OffsetRow.Valid OffsetRow.StaysValid
  omega

/-- **After a push all rows of the file are valid iff their ends, carried through the replacements,
are in order and inside the file.** -/
theorem push_valid_iff {ok : Call → Bool} {zero : β} (hok : ∀ c, ok c = true)
    (h : EditsListed fileId table swp edits) (hne : ∀ e ∈ edits, e.row.base < e.row.bound)
    (hvalid : ∀ id r, rowOf table id = some r → r.fileId = fileId → r.Valid F.length) :
    ∃ out, queryResizeFile ok zero fileId (edits.map Edit.node) swp ⟨F, table⟩ = some out ∧
      ((∀ id r, rowOf out.2.table id = some r → r.fileId = fileId →
          r.Valid out.2.backing.length) ↔
        ∀ id r, rowOf table id = some r → r.fileId = fileId →
          r.StaysValid (edits.map (Edit.span swp)) F.length) := by
  have hchain : Chain F.length 0 (edits.map (Edit.span swp)) := h.chain_of_le fun e he => by
    have her : e.row ∈ edits.map Edit.row := List.mem_map_of_mem he
    exact (hvalid _ _ (h.rows.row _ her) (h.rows.file _ her)).2
  refine ⟨_, queryResizeFile_ok zero hok hchain h.collected, ?_⟩
  constructor
  · intro hall id r hr hf
    obtain ⟨r', hr', hf', hv⟩ := resizedTable_valid_iff h hne hchain hr hf
    exact hv.1 (hall id r' hr' hf')
  · intro hall id r' hr' hf'
    obtain ⟨r, hr, hf⟩ := exists_rowOf_resizedTable hr'
    obtain ⟨t, ht, -, hv⟩ := resizedTable_valid_iff h hne hchain hr (hf.trans hf')
    rw [hr'] at ht
    rw [Option.some.inj ht]
    exact hv.2 (hall id r hr (hf.trans hf'))

/-- `[3,8)` is emptied: its neighbour `[6,10)` becomes `[6,5)`, and `[4,6)` sticks out of the new
file of five bytes. -/
theorem push_invalidates_overlapping :
    let table : List OffsetRow :=
      [⟨1, 1, 0, 3, 8, false⟩, ⟨2, 1, 1, 6, 10, false⟩, ⟨3, 1, 2, 4, 6, false⟩]
    let F : List ℕ := [0, 1, 2, 3, 4, 5, 6, 7, 8, 9]
    (∀ r ∈ table, r.fileId = 1 ∧ r.Valid F.length) ∧
    EditsListed 1 table ([] : List ℕ) [⟨⟨1, 1, 0, 3, 8, false⟩, ⟨1, 0, 0⟩⟩] ∧
    queryResizeFile (fun _ => true) 0 1 [⟨1, 0, 0⟩] [] ⟨F, table⟩ =
      some (0, ⟨[0, 1, 2, 8, 9],
        [⟨1, 1, 0, 3, 3, false⟩, ⟨2, 1, 1, 6, 5, true⟩, ⟨3, 1, 2, 4, 6, true⟩]⟩) ∧
    ¬ (⟨2, 1, 1, 6, 5, true⟩ : OffsetRow).Valid 5 ∧
      ¬ (⟨3, 1, 2, 4, 6, true⟩ : OffsetRow).Valid 5 := by
  refine ⟨by decide, ⟨⟨by decide, by decide, by decide, by decide⟩, by decide, by decide⟩, by rfl,
    by decide, by decide⟩

/-- `[3,8)` beside its neighbour only. -/
def neighbours : List OffsetRow := [⟨1, 1, 0, 3, 8, false⟩, ⟨2, 1, 1, 6, 10, false⟩]

theorem neighbours_valid : ∀ id r, rowOf neighbours id = some r → r.fileId = 1 → r.Valid 10 := by
  intro id r hr _
  obtain ⟨hmem, _⟩ := rowOf_some hr
  have hall : ∀ r ∈ neighbours, r.Valid 10 := by decide
  exact hall r hmem

theorem neighbours_edits :
    EditsOk 1 10 neighbours ([] : List ℕ) [⟨⟨1, 1, 0, 3, 8, false⟩, ⟨1, 0, 0⟩⟩] :=
  ⟨⟨⟨by decide, by decide, by decide, by decide⟩, by decide, by decide⟩, by decide⟩

/-- The ends of the neighbour cross: the condition fails. -/
theorem push_valid_iff_emptied :
    ∃ out, queryResizeFile (fun _ => true) 0 1 [⟨1, 0, 0⟩] []
        ⟨[0, 1, 2, 3, 4, 5, 6, 7, 8, 9], neighbours⟩ = some out ∧
      ((∀ id r, rowOf out.2.table id = some r → r.fileId = 1 → r.Valid out.2.backing.length) ↔
        ∀ id r, rowOf neighbours id = some r → r.fileId = 1 →
          r.StaysValid [(⟨3, 8, []⟩ : Span ℕ)] 10) := by
  exact push_valid_iff (F := [0, 1, 2, 3, 4, 5, 6, 7, 8, 9]) (fun _ => rfl)
    neighbours_edits.toEditsListed (by decide) neighbours_valid

/-! ## What a push leaves invalid -/

/-- One `UPDATE` on a row other than the edited one: what it leaves invalid it flags. -/
theorem updateOffset_valid (hf : r.fileId = fileId) (hid : r.offsetId ≠ oid) (hb : b ≤ ob)
    (hob : ob ≤ L) (hL : L' + (ob - b) = L + ns) (h : r.conflict = true ∨ r.Valid L) :
    (updateOffset fileId oid ns b ob r).conflict = true ∨
      (updateOffset fileId oid ns b ob r).Valid L' := by
  unfold updateOffset
  rw [if_pos hf]
  simp only [hid, if_false, ne_eq, not_false_eq_true, true_and]
  rcases h with h | ⟨h1, h2⟩
  · left
    simp only [h, ite_self]
  · by_cases hbase : r.base ≥ ob
    · -- behind the edited row: both ends move
      have hbound : r.bound ≥ ob := by omega
      right
      simp only [OffsetRow.Valid, hbase, hbound, if_true, resized_eq]
      omega
    · by_cases hbound : r.bound ≥ ob
      · simp only [OffsetRow.Valid, hbase, hbound, if_true, if_false, resized_eq]
        split_ifs
        · exact Or.inl rfl
        · right
          omega
      · simp only [OffsetRow.Valid, hbase, hbound, if_false]
        split_ifs
        · exact Or.inl rfl
        · right
          omega

/-- No end of a listed row lies strictly inside another. -/
theorem RowsListed.not_inside {rows : List OffsetRow} {e : OffsetRow}
    (h : RowsListed fileId table rows) (hr : r ∈ rows) (he : e ∈ rows) :
    ¬ e.Inside r.base ∧ ¬ e.Inside r.bound := by
  let Clear (r e : OffsetRow) : Prop := ¬ e.Inside r.base ∧ ¬ e.Inside r.bound
  have hsymm : Std.Symm fun r e => Clear r e ∧ Clear e r := ⟨fun _ _ hre => ⟨hre.2, hre.1⟩⟩
  have hself : ∀ r ∈ rows, Clear r r ∧ Clear r r := fun r _ => by
    simp [Clear, OffsetRow.Inside]
  have hapart : rows.Pairwise fun r e => Clear r e ∧ Clear e r :=
    h.ascending.imp_of_mem fun {r e} hr he hre => by
      have h1 := hre.1
      have h2 := h.le r hr
      have h3 := h.le e he
      simp only [Clear, OffsetRow.Inside]
      omega
  exact (hapart.forall_of_forall hself hr he).1

/-- An end that is not inside an edited row is not cut off. -/
theorem reached_of_not_inside {p : ℕ} (hno : ∀ e ∈ edits, ¬ e.row.Inside p) :
    Reached (p : ℤ) (edits.map (Edit.span swp)) := by
  intro s hs
  obtain ⟨e, he, rfl⟩ := List.mem_map.1 hs
  have hout := hno e he
  simp only [OffsetRow.Inside, Edit.span] at hout ⊢
  omega

/-- A row that is not edited is valid after the push, or flagged: each `UPDATE` keeps it so. -/
theorem resized_valid_or_flagged {id : ℕ} (h : EditsOk fileId F.length table swp edits)
    (hr : rowOf table id = some r) (hf : r.fileId = fileId) (hvalid : r.Valid F.length)
    (hother : ∀ e ∈ edits.map Edit.row, e.offsetId ≠ id) :
    ∃ r', rowOf (resizedTable fileId (edits.map Edit.node) table) id = some r' ∧
      (r'.conflict = true ∨
        r'.Valid (replaceSpans F 0 (edits.map (Edit.span swp))).length) := by
  have hrows := h.rowsOk
  have hsub : ∀ e ∈ edits, e.row ∈ edits.map Edit.row := fun e he => List.mem_map_of_mem he
  have hasc : edits.Pairwise fun d e => d.row.Precedes e.row := List.pairwise_map.1 hrows.ascending
  generalize edits.map Edit.row = rows at hrows hsub hother
  obtain ⟨-, -, -, r', hr', -, hv⟩ := resize_edits
    (P := fun τ T => ∃ r', rowOf T id = some r' ∧ r'.fileId = fileId ∧
      (r'.conflict = true ∨ r'.Valid (flat (gaps F rows) τ rows.length).length)) hrows hsub hasc
    (fun i hi τ T c hP => by
      obtain ⟨r', hr', hf', hv⟩ := hP
      refine ⟨_, (rowOf_map fun r => updateOffset_offsetId).trans (by rw [hr']; rfl),
        by rw [updateOffset_fileId, hf'], ?_⟩
      have hid' : r'.offsetId ≠ idAt rows i := by
        rw [(rowOf_some hr').2, idAt_of_lt hi]
        exact (hother _ (List.getElem_mem hi)).symm
      refine updateOffset_valid hf' hid' start_le_stop (stop_le_length_flat hi) ?_ hv
      rw [stop_eq, Nat.add_sub_cancel_left]
      exact length_flat_update hi)
    h.id h.text (fun _ _ => rfl) (tracksAll_rows hrows)
    ⟨r, hr, hf, Or.inr (by rw [hrows.flat_eq]; exact hvalid)⟩
  have hflat := replaceSpans_flat_zero (g := gaps F rows) (τ := patches F rows)
    (d := textAt swp rows edits) (places_sorted hrows hsub hasc) (places_lt hsub)
  rw [hrows.flat_eq, spans_places hrows hsub hasc] at hflat
  rw [hflat]
  exact ⟨r', hr', hv⟩

/-- After a push every row of the file is valid, or carries the conflict flag and had an end strictly
inside an edited row. -/
theorem push_valid_or_conflict {ok : Call → Bool} {zero : β} (hok : ∀ c, ok c = true)
    (h : EditsOk fileId F.length table swp edits) (hne : ∀ e ∈ edits, e.row.base < e.row.bound)
    (hvalid : ∀ id r, rowOf table id = some r → r.fileId = fileId → r.Valid F.length) :
    ∃ out, queryResizeFile ok zero fileId (edits.map Edit.node) swp ⟨F, table⟩ = some out ∧
    ∀ id r, rowOf table id = some r → r.fileId = fileId →
      ∃ r', rowOf out.2.table id = some r' ∧ (r'.Valid out.2.backing.length ∨
        (r'.conflict = true ∧ ∃ e ∈ edits, e.row.Inside r.base ∨ e.row.Inside r.bound)) := by
  have hlisted := h.toEditsListed
  refine ⟨_, queryResizeFile_ok zero hok h.chain h.collected, fun id r hr hf => ?_⟩
  obtain ⟨r', hr', -, hiff⟩ := resizedTable_valid_iff hlisted hne h.chain hr hf
  refine ⟨r', hr', ?_⟩
  by_cases hin : ∃ e ∈ edits, e.row.Inside r.base ∨ e.row.Inside r.bound
  · -- an edited row has no end inside another, so this one is not edited
    have hother : ∀ s ∈ edits.map Edit.row, s.offsetId ≠ id := by
      rintro s hs rfl
      obtain ⟨e, he, hinside⟩ := hin
      rw [hlisted.rows.row s hs] at hr
      obtain rfl := Option.some.inj hr
      have hout := hlisted.rows.not_inside hs (List.mem_map_of_mem he)
      exact hinside.elim hout.1 hout.2
    obtain ⟨t, ht, hcase⟩ := resized_valid_or_flagged h hr hf (hvalid id r hr hf) hother
    rw [hr'] at ht
    obtain rfl := Option.some.inj ht
    exact hcase.symm.imp_right fun hc => ⟨hc, hin⟩
  · have hno : ∀ e ∈ edits, ¬ e.row.Inside r.base ∧ ¬ e.row.Inside r.bound := fun e he =>
      not_or.1 fun hinside => hin ⟨e, he, hinside⟩
    refine Or.inl (hiff.2 (staysValid_of_reached hlisted.spans_le ?_ hlisted.spans_ascend
      (reached_of_not_inside fun e he => (hno e he).1)
      (reached_of_not_inside fun e he => (hno e he).2) (hvalid id r hr hf)))
    intro s hs
    obtain ⟨e, he, rfl⟩ := List.mem_map.1 hs
    exact h.inside e he

/-- The neighbour, whose ends have crossed, is flagged. -/
theorem push_valid_or_conflict_emptied :
    ∃ out, queryResizeFile (fun _ => true) 0 1 [⟨1, 0, 0⟩] []
        ⟨[0, 1, 2, 3, 4, 5, 6, 7, 8, 9], neighbours⟩ = some out ∧
      ∃ r', rowOf out.2.table 2 = some r' ∧
        (r'.Valid out.2.backing.length ∨ r'.conflict = true) := by
  obtain ⟨out, hout, hrows⟩ := push_valid_or_conflict (F := [0, 1, 2, 3, 4, 5, 6, 7, 8, 9])
    (fun _ => rfl) neighbours_edits (by decide) neighbours_valid
  obtain ⟨r', hr', hcase⟩ := hrows 2 ⟨2, 1, 1, 6, 10, false⟩ rfl rfl
  exact ⟨out, hout, r', hr', hcase.imp_right And.left⟩

end Yacet
