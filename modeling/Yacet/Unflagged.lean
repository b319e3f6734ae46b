import Yacet.Flags
import Yacet.Lib.Shift
import Yacet.Regions

/-!
# What an unset `Conflict` is worth

Rows of different ranges may overlap in any way.  `Conflict` of a row stays unset through a run of
pushes only if each of them replaced text in front of the row, behind it or inside it.

* `editRow` — one `UPDATE` and the new text in its place; `push_eq_edits` says that a push is the
  `editRow`s of its list, one after the other.
* `follow` — the text of a row as its reader would expect it: with the edits inside the row at their
  places, and what the row itself was last pushed.
* `unflagged_cases` — where an edited row lies, if a row is not flagged by its `UPDATE`.
* `unflagged_shows` — **after any run of pushes a row whose flag is not set shows that text.**
-/

namespace Yacet

open Patchwork Shift

variable {β : Type*}

/-! ## One edited row -/

/-- The `UPDATE` for row `x.1` with the text `x.2` in its place. -/
def editRow (fileId : ℕ) (s : Stores β) (x : ℕ × List β) : Stores β :=
  match rowOf s.table x.1 with
  | some e => ⟨s.backing.splice e.base e.bound x.2,
      s.table.map (updateOffset fileId x.1 x.2.length e.base e.bound)⟩
  | none => s

/-- The edited row is not empty and lies in the file. -/
def EditOk (fileId : ℕ) (s : Stores β) (x : ℕ × List β) : Prop :=
  ∃ e, rowOf s.table x.1 = some e ∧ e.fileId = fileId ∧ e.base < e.bound ∧
    e.bound ≤ s.backing.length

def EditsRun (fileId : ℕ) : Stores β → List (ℕ × List β) → Prop
  | _, [] => True
  | s, x :: xs => EditOk fileId s x ∧ EditsRun fileId (editRow fileId s x) xs

/-- The text `t` of row `id` after the edit: its new one, or with the edit at its place in it. -/
def nextText (id : ℕ) (s : Stores β) (t : List β) (x : ℕ × List β) : List β :=
  if x.1 = id then x.2
  else
    match rowOf s.table id, rowOf s.table x.1 with
    | some r, some e =>
      if r.base ≤ e.base ∧ e.bound ≤ r.bound then t.splice (e.base - r.base) (e.bound - r.base) x.2
      else t
    | _, _ => t

/-- The text of row `id` through a run of edits. -/
def follow (fileId id : ℕ) : Stores β → List β → List (ℕ × List β) → List β
  | _, t, [] => t
  | s, t, x :: xs => follow fileId id (editRow fileId s x) (nextText id s t x) xs

/-- Row `id` shows the text `t`, or it is flagged. -/
def ShowsUnlessFlagged (fileId id : ℕ) (s : Stores β) (t : List β) : Prop :=
  ∃ r, rowOf s.table id = some r ∧ r.fileId = fileId ∧
    (r.conflict = false → r.base ≤ r.bound ∧ r.bound ≤ s.backing.length ∧
      s.backing.slice r.base r.bound = t)

variable {fileId id oid ns b ob : ℕ} {r e : OffsetRow} {s : Stores β} {t c : List β}
  {x : ℕ × List β} {xs : List (ℕ × List β)}

theorem updateOffset_base_shift (hf : r.fileId = fileId) (hid : r.offsetId ≠ oid) :
    (updateOffset fileId oid ns b ob r).base = shift b ob ns r.base := by
  rw [updateOffset_base hf]
  split
  · rename_i hcond
    rw [resized_eq hcond.2, shift_of_le hcond.2]
  · rename_i hcond
    exact (shift_of_lt (Nat.not_le.1 fun hle => hcond ⟨hid, hle⟩)).symm

theorem updateOffset_bound_shift (hf : r.fileId = fileId) :
    (updateOffset fileId oid ns b ob r).bound = shift b ob ns r.bound := by
  rw [updateOffset_bound hf]
  split
  · rename_i hcond
    rw [resized_eq hcond, shift_of_le hcond]
  · rename_i hcond
    exact (shift_of_lt (Nat.not_le.1 hcond)).symm

/-- **A row that comes out unflagged** lies in front of the edited row, behind it or around it. -/
theorem unflagged_cases (hf : r.fileId = fileId) (hid : r.offsetId ≠ oid)
    (h : (updateOffset fileId oid ns b ob r).conflict = false) :
    r.conflict = false ∧ (r.bound ≤ b ∨ ob ≤ r.base ∨ (r.base ≤ b ∧ ob ≤ r.bound)) := by
  rw [updateOffset_conflict hf hid] at h
  rcases ite_eq_iff.1 h with ⟨_, h⟩ | ⟨hflag, h⟩
  · cases h
  · refine ⟨h, ?_⟩
    by_contra hpos
    rw [if_neg (show ¬ r.base ≥ ob by omega)] at hflag
    by_cases hend : r.bound ≥ ob
    · rw [if_pos hend, resized_eq hend] at hflag
      omega
    · rw [if_neg hend] at hflag
      omega

theorem rowOf_editRow (he : rowOf s.table x.1 = some e) :
    rowOf (editRow fileId s x).table id =
      (rowOf s.table id).map (updateOffset fileId x.1 x.2.length e.base e.bound) := by
  simp only [editRow, he]
  exact rowOf_map fun _ => updateOffset_offsetId

/-- One edit, for the row itself and for every other. -/
theorem ShowsUnlessFlagged.edit (h : ShowsUnlessFlagged fileId id s t) (hx : EditOk fileId s x) :
    ShowsUnlessFlagged fileId id (editRow fileId s x) (nextText id s t x) := by
  obtain ⟨r, hr, hf, hshow⟩ := h
  obtain ⟨e, he, hef, hlt, hin⟩ := hx
  have hrid := (rowOf_some hr).2
  have hb := hlt.le.trans hin
  have hlen := List.length_splice (c := x.2) hlt.le hin
  have hbacking : (editRow fileId s x).backing = s.backing.splice e.base e.bound x.2 := by
    simp only [editRow, he]
  refine ⟨_, (rowOf_editRow he).trans (by rw [hr]; rfl), updateOffset_fileId.trans hf, ?_⟩
  rw [hbacking, updateOffset_bound_shift hf]
  by_cases hown : x.1 = id
  · rw [hown] at he
    rw [hr, Option.some.injEq] at he
    subst he
    intro _
    have hbase : (updateOffset fileId x.1 x.2.length r.base r.bound r).base = r.base := by
      rw [updateOffset_base hf, if_neg fun hcond => hcond.1 (hrid.trans hown.symm)]
    rw [hbase, shift_end, nextText, if_pos hown]
    exact ⟨Nat.le_add_right _ _, by omega, List.slice_splice_self hb⟩
  · intro hflag
    have hne : r.offsetId ≠ x.1 := fun heq => hown (heq.symm.trans hrid)
    obtain ⟨hunflagged, hpos⟩ := unflagged_cases hf hne hflag
    obtain ⟨hle, hlast, htext⟩ := hshow hunflagged
    rw [updateOffset_base_shift hf hne, nextText, if_neg hown]
    simp only [hr, he]
    by_cases haround : r.base ≤ e.base ∧ e.bound ≤ r.bound
    · rw [if_pos haround, shift_of_lt (show r.base < e.bound by omega), ← htext,
        List.slice_splice_around haround.1 hlt.le haround.2 hlast, shift_of_le haround.2]
      exact ⟨by omega, by omega, rfl⟩
    · rw [if_neg haround]
      rcases hpos with hfront | hbehind | hin
      · rw [shift_of_lt (show r.base < e.bound by omega),
          shift_of_lt (show r.bound < e.bound by omega), List.slice_splice_before hb hfront]
        exact ⟨hle, by omega, htext⟩
      · rw [List.slice_splice_behind hb hbehind hle, shift_of_le hbehind,
          shift_of_le (hbehind.trans hle)]
        exact ⟨by omega, by omega, htext⟩
      · exact absurd hin haround

theorem ShowsUnlessFlagged.edits (h : ShowsUnlessFlagged fileId id s t)
    (hxs : EditsRun fileId s xs) :
    ShowsUnlessFlagged fileId id (xs.foldl (editRow fileId) s) (follow fileId id s t xs) := by
  induction xs generalizing s t with
  | nil => exact h
  | cons x xs ih => exact ih (h.edit hxs.1) hxs.2

/-! ## Pushes as edits -/

/-- The rows and texts of a push that succeeds. -/
def Push.edits (p : Push β) : List (ℕ × List β) :=
  if p.Succeeds then p.it.map fun n => (n.id, p.swp.slice n.base n.bound) else []

/-- A push of non-empty rows in ascending order, with texts in the swap file.  Where it gets to
write, its unchecked transfers and its commit succeed too. -/
structure PushProper (fileId : ℕ) (s : Stores β) (p : Push β) : Prop where
  rows : ∃ es, RowsOk fileId s.backing.length s.table es ∧ (∀ e ∈ es, e.base < e.bound) ∧
    p.it.map ItNode.id = es.map OffsetRow.offsetId
  text : ∀ n ∈ p.it, n.base ≤ n.bound ∧ n.bound ≤ p.swp.length
  calls : p.Succeeds → ∀ c, p.ok c = true

def ProperRun (zero : β) (fileId : ℕ) : Stores β → List (Push β) → Prop
  | _, [] => True
  | s, p :: ps => PushProper fileId s p ∧ ProperRun zero fileId (p.run zero fileId s) ps

section Patches

variable {g τ d : ℕ → List β} {M : ℕ → Mark → Mark → Prop} {is : List ℕ} {eid : ℕ → ℕ} {n : ℕ}

/-- The loop of a push, row by row. -/
theorem foldl_editRow_patches (st : Resize) {node : ℕ → ItNode} (hs : is.Pairwise (· < ·))
    (his : ∀ i ∈ is, i < n) (hid : ∀ i ∈ is, (node i).id = eid i)
    (hsize : ∀ i ∈ is, (node i).bound - (node i).base = (d i).length)
    (hne : ∀ i ∈ is, τ i ≠ []) (ht : TracksAll g τ fileId M st.table)
    (ha : AdmitsAll g τ is eid M) :
    (is.map fun i => (eid i, d i)).foldl (editRow fileId) ⟨flat g τ n, st.table⟩ =
        ⟨flat g (override d is τ) n, ((is.map node).foldl (resizeRow fileId) st).table⟩ ∧
      EditsRun fileId ⟨flat g τ n, st.table⟩ (is.map fun i => (eid i, d i)) := by
  induction is generalizing τ st with
  | nil =>
      have hnil : override d [] τ = τ := by funext i; exact if_neg (by simp)
      rw [hnil]
      exact ⟨rfl, trivial⟩
  | cons i is ih =>
      obtain ⟨hlt, hs⟩ := List.pairwise_cons.1 hs
      have hi := his i List.mem_cons_self
      obtain ⟨e, he, hf, hb⟩ := ht _ _ _ (ha.edited i List.mem_cons_self)
      have hbase : e.base = start g τ i := hb.base
      have hbound : e.bound = stop g τ i := hb.bound
      have hround := resizeRow_of_row fileId (s := st) (n := node i) (r := e)
        (by rw [hid i List.mem_cons_self]; exact he)
      rw [hid i List.mem_cons_self, hsize i List.mem_cons_self, hbase, hbound] at hround
      have hedit : editRow fileId ⟨flat g τ n, st.table⟩ (eid i, d i) =
          ⟨flat g (Function.update τ i (d i)) n, (resizeRow fileId st (node i)).table⟩ := by
        simp only [editRow, he, hround, hbase, hbound, flat_update_eq_splice hi]
      have hrest : ∀ j ∈ is, Function.update τ i (d i) j = τ j := fun j hj =>
        Function.update_of_ne (by have := hlt j hj; omega) _ _
      have hi' : i ∉ is := fun hmem => Nat.lt_irrefl i (hlt i hmem)
      obtain ⟨h1, h2⟩ := ih (resizeRow fileId st (node i)) (τ := Function.update τ i (d i)) hs
        (fun j hj => his j (List.mem_cons_of_mem _ hj))
        (fun j hj => hid j (List.mem_cons_of_mem _ hj))
        (fun j hj => hsize j (List.mem_cons_of_mem _ hj))
        (fun j hj => by rw [hrest j hj]; exact hne j (List.mem_cons_of_mem _ hj))
        (by rw [hround]; exact ht.update (ha.admits i List.mem_cons_self))
        ⟨fun j hj => ha.edited j (List.mem_cons_of_mem _ hj), fun j hj => by
          rw [hrest j hj]; exact ha.admits j (List.mem_cons_of_mem _ hj)⟩
      rw [override_cons hi'] at h1
      rw [List.map_cons, List.foldl_cons, hedit]
      refine ⟨h1, ⟨e, he, hf, ?_, ?_⟩, ?_⟩
      · rw [hbase, hbound]
        exact start_lt_stop (hne i List.mem_cons_self)
      · rw [hbound]
        exact stop_le_length_flat hi
      · rw [hedit]
        exact h2

end Patches

/-- **A push is the edits of its rows, one after the other.** -/
theorem push_eq_edits {p : Push β} (zero : β) (h : PushProper fileId s p) :
    p.run zero fileId s = p.edits.foldl (editRow fileId) s ∧ EditsRun fileId s p.edits := by
  by_cases hs : p.Succeeds
  · obtain ⟨F, table⟩ := s
    obtain ⟨es, hrows, hne, hids⟩ := h.rows
    obtain ⟨is, hat⟩ := Push.exists_at hrows (by rw [hids])
    have hedits : p.edits = is.map fun i => (idAt es i, p.patch es i) := by
      rw [Push.edits, if_pos hs]
      conv_lhs => rw [← hat.nodes, List.map_map]
      exact List.map_congr_left fun i hi => Prod.ext (hat.id i hi) rfl
    have hsize : ∀ i ∈ is, (p.node (idAt es i)).bound - (p.node (idAt es i)).base =
        (p.patch es i).length := fun i hi => by
      rw [Push.patch, List.length_slice_of_le (h.text _ (hat.mem i hi)).2]
    have ha := admitsAll_rows hrows hat.lt fun _ _ => rfl
    have ht := tracksAll_rows hrows
    obtain ⟨hrun, -⟩ := Push.run_patches zero hat hat.lt h.text (h.calls hs) ht ha
      hrows.flat_eq.symm
    obtain ⟨hfold, hedited⟩ := foldl_editRow_patches ⟨table, 0, 0, 0, []⟩ hat.sorted hat.lt
      hat.id hsize
      (fun i hi => hrows.patch_ne_nil (hat.lt i hi) (hne _ (List.getElem_mem (hat.lt i hi)))) ht ha
    rw [hrows.flat_eq] at hfold hedited
    rw [hat.nodes] at hfold
    rw [hedits, hrun, hfold, resizedTable]
    exact ⟨rfl, hedited⟩
  · rw [Push.run_of_fail zero hs, Push.edits, if_neg hs]
    exact ⟨rfl, trivial⟩

theorem EditsRun.append {ys : List (ℕ × List β)} (hxs : EditsRun fileId s xs)
    (hys : EditsRun fileId (xs.foldl (editRow fileId) s) ys) : EditsRun fileId s (xs ++ ys) := by
  induction xs generalizing s with
  | nil => exact hys
  | cons x xs ih => exact ⟨hxs.1, ih hxs.2 hys⟩

theorem runPushes_eq_edits {ps : List (Push β)} (zero : β) (h : ProperRun zero fileId s ps) :
    runPushes zero fileId s ps = (ps.flatMap Push.edits).foldl (editRow fileId) s ∧
      EditsRun fileId s (ps.flatMap Push.edits) := by
  induction ps generalizing s with
  | nil => exact ⟨rfl, trivial⟩
  | cons p ps ih =>
      obtain ⟨hrun, hedits⟩ := push_eq_edits zero h.1
      obtain ⟨h1, h2⟩ := ih h.2
      rw [hrun] at h1 h2
      rw [List.flatMap_cons, List.foldl_append]
      refine ⟨?_, hedits.append h2⟩
      rw [runPushes, List.foldl_cons, hrun]
      exact h1

/-- **What an unset flag is worth.**  The rows of the file may overlap in any way.  After any run of
pushes, a row whose `Conflict` is not set lies in the file and shows the text it had, with each edit
that lay within it at its place, and all of it replaced whenever the row itself was pushed. -/
theorem unflagged_shows {zero : β} {F : List β} {table : List OffsetRow} {ps : List (Push β)}
    (h : ProperRun zero fileId ⟨F, table⟩ ps) (hr : rowOf table id = some r)
    (hf : r.fileId = fileId) (hle : r.base ≤ r.bound) (hin : r.bound ≤ F.length) :
    let out := runPushes zero fileId ⟨F, table⟩ ps
    ∃ r', rowOf out.table id = some r' ∧ r'.fileId = fileId ∧
      (r'.conflict = false → r'.base ≤ r'.bound ∧ r'.bound ≤ out.backing.length ∧
        out.backing.slice r'.base r'.bound =
          follow fileId id ⟨F, table⟩ (F.slice r.base r.bound) (ps.flatMap Push.edits)) := by
  obtain ⟨hrun, hedits⟩ := runPushes_eq_edits zero h
  intro out
  have hshow : ShowsUnlessFlagged fileId id ⟨F, table⟩ (F.slice r.base r.bound) :=
    ⟨r, hr, hf, fun _ => ⟨hle, hin, rfl⟩⟩
  have hout : out = _ := hrun
  rw [hout]
  exact hshow.edits hedits

/-- Row 2 is pushed twice inside row 1, and overlaps row 3, which is flagged. -/
theorem unflagged_shows_enclosing :
    let table : List OffsetRow :=
      [⟨1, 5, 0, 0, 6, false⟩, ⟨2, 5, 1, 2, 4, false⟩, ⟨3, 5, 2, 3, 5, false⟩]
    let ps : List (Push ℕ) :=
      [⟨fun _ => true, [⟨2, 0, 3⟩], [7, 8, 9], by decide⟩,
        ⟨fun _ => true, [⟨2, 0, 1⟩], [6], by decide⟩]
    let out := runPushes 0 5 ⟨[1, 2, 3, 4, 5, 6, 7], table⟩ ps
    rowOf out.table 3 = some ⟨3, 5, 2, 3, 4, true⟩ ∧
      rowOf out.table 1 = some ⟨1, 5, 0, 0, 5, false⟩ ∧
        out.backing.slice 0 5 = [1, 2, 6, 5, 6] := by
  intro table ps out
  have hrun : ProperRun 0 5 ⟨[1, 2, 3, 4, 5, 6, 7], table⟩ ps := by
    refine ⟨⟨⟨[⟨2, 5, 1, 2, 4, false⟩], ⟨⟨?_, ?_, ?_, ?_⟩, ?_⟩, ?_, ?_⟩, ?_, fun _ _ => rfl⟩,
      ⟨⟨[⟨2, 5, 1, 2, 5, false⟩], ⟨⟨?_, ?_, ?_, ?_⟩, ?_⟩, ?_, ?_⟩, ?_, fun _ _ => rfl⟩, trivial⟩
    all_goals decide
  have hrow : rowOf out.table 1 = some ⟨1, 5, 0, 0, 5, false⟩ := by decide
  have hold : rowOf table 1 = some ⟨1, 5, 0, 0, 6, false⟩ := rfl
  obtain ⟨r, hr, _, hshow⟩ := unflagged_shows hrun hold rfl (by decide) (by decide)
  obtain rfl : ⟨1, 5, 0, 0, 5, false⟩ = r := Option.some.inj (hrow.symm.trans hr)
  refine ⟨by decide, hrow, ?_⟩
  exact (hshow rfl).2.2.trans (by decide)

end Yacet
