import Yacet.Edits
import Yacet.Lib.Walk

/-!
# Where a push moves the rows (`sql.c`, `QUERY_RESIZE_FILE`)

Every round of `query_resize_file` runs its `UPDATE` on the positions that the rounds before have
left; `delta` is how far they have moved the rows that are still to come.

* `AtDelta` — the rows of the rounds to come stand `delta` from where they were before the push.
* `AtDelta.round` — the step lemma: what a round does to any row of the file.
* `walk_rounds` — the ends of a row walk through the replacements, each by itself.
* `rowOf_resizedTable`, `rowOf_resizedTable_edited` — **where the rows are after the push**.
* `EditsListed.collected` — the updates handed to `write_offset_update` name the old positions of
  the rows.
* `Holds` — what a push is to leave in the file and in the rows; `rowsHold_resizedTable` for the rows.
-/

namespace Yacet

open Patchwork

variable {β : Type*}

/-! ## One round -/

/-- The row of an edit to come stands `delta` from its old place. -/
def AtDelta (fileId : ℕ) (s : Resize) (e : Edit) : Prop :=
  ∃ r, rowOf s.table e.node.id = some r ∧ r.fileId = fileId ∧
    (r.base : ℤ) = e.row.base + s.delta ∧ (r.bound : ℤ) = e.row.bound + s.delta

variable {fileId id L : ℕ} {s : Resize} {e : Edit} {r : OffsetRow} {z : ℤ} {F swp : List β}
  {table table' : List OffsetRow} {edits : List Edit}

theorem Edit.length_text (h : e.node.base ≤ e.node.bound ∧ e.node.bound ≤ swp.length) :
    (e.text swp).length = e.node.bound - e.node.base := by
  rw [Edit.text, List.length_slice, Nat.min_eq_left h.2]

theorem AtDelta.delta (h : AtDelta fileId s e)
    (htext : e.node.base ≤ e.node.bound ∧ e.node.bound ≤ swp.length) :
    (resizeRow fileId s e.node).delta = s.delta - (e.span swp).loss := by
  obtain ⟨r, hr, -, hbase, hbound⟩ := h
  have hlen := Edit.length_text htext
  rw [resizeRow_of_row fileId hr]
  simp only [Span.loss, Edit.span, hlen]
  omega

theorem AtDelta.ou (h : AtDelta fileId s e) :
    (resizeRow fileId s e.node).ou =
      s.ou ++ [⟨e.row.base, e.row.bound, e.node.base, e.node.bound⟩] := by
  obtain ⟨r, hr, -, hbase, hbound⟩ := h
  have hb : (r.base : ℤ) - s.delta = e.row.base := by omega
  have hob : (r.bound : ℤ) - s.delta = e.row.bound := by omega
  rw [resizeRow_of_row fileId hr]
  simp only [hb, hob]

/-- **The step lemma**: a round takes an end of a row on by one step of the walk, except for the
base of the edited row itself, which stays. -/
theorem AtDelta.round (h : AtDelta fileId s e)
    (htext : e.node.base ≤ e.node.bound ∧ e.node.bound ≤ swp.length)
    (hr : rowOf s.table id = some r) (hf : r.fileId = fileId) :
    ∃ r', rowOf (resizeRow fileId s e.node).table id = some r' ∧ r'.fileId = fileId ∧
      (id = e.node.id → r'.base = r.base) ∧
      (id ≠ e.node.id → (r.base : ℤ) = z + s.delta → (r'.base : ℤ) =
        (if (e.row.bound : ℤ) ≤ z then z else z + (e.span swp).loss) +
          (resizeRow fileId s e.node).delta) ∧
      ∀ w : ℤ, (r.bound : ℤ) = w + s.delta → (r'.bound : ℤ) =
        (if (e.row.bound : ℤ) ≤ w then w else w + (e.span swp).loss) +
          (resizeRow fileId s e.node).delta := by
  have hdelta := h.delta htext
  have hlen := Edit.length_text htext
  obtain ⟨t, ht, htf, hbase, hbound⟩ := h
  have hid := (rowOf_some hr).2
  have hstep : ∀ (p : ℕ) (w : ℤ), (p : ℤ) = w + s.delta →
      ((if p ≥ t.bound then resized (e.node.bound - e.node.base) t.base t.bound p else p : ℕ) : ℤ) =
        (if (e.row.bound : ℤ) ≤ w then w else w + (e.span swp).loss) +
          (s.delta - (e.span swp).loss) := by
    intro p w hp
    simp only [Span.loss, Edit.span, hlen]
    by_cases hmove : p ≥ t.bound
    · rw [if_pos hmove, resized_eq hmove, if_pos (by omega)]
      omega
    · rw [if_neg hmove, if_neg (by omega)]
      omega
  rw [hdelta, resizeRow_of_row fileId ht]
  refine ⟨_, (rowOf_map fun r => updateOffset_offsetId).trans (by rw [hr]; rfl),
    by rw [updateOffset_fileId, hf], ?_, ?_, ?_⟩
  · intro hown
    rw [updateOffset_base hf, hid, if_neg fun hcond => hcond.1 hown]
  · intro hne hz
    rw [updateOffset_base hf, hid, ← hstep r.base z hz]
    simp only [ne_eq, hne, not_false_eq_true, true_and]
  · intro w hw
    rw [updateOffset_bound hf, ← hstep r.bound w hw]

/-- The rounds to come find their rows moved by the new `delta`. -/
theorem AtDelta.next {d : Edit} (h : AtDelta fileId s e) (hd : AtDelta fileId s d)
    (htext : e.node.base ≤ e.node.bound ∧ e.node.bound ≤ swp.length)
    (hid : d.node.id ≠ e.node.id) (hed : e.row.Precedes d.row) :
    AtDelta fileId (resizeRow fileId s e.node) d := by
  obtain ⟨r, hr, hf, hbase, hbound⟩ := hd
  obtain ⟨r', hr', hf', -, hbase', hbound'⟩ := h.round htext hr hf (z := d.row.base)
  have hb := hbase' hid hbase
  have hob := hbound' d.row.bound hbound
  rw [if_pos (by exact_mod_cast hed.1)] at hb
  rw [if_pos (by exact_mod_cast hed.2.le)] at hob
  exact ⟨r', hr', hf', hb, hob⟩

/-! ## The loop -/

/-- What the loop needs of the edits that are still to come. -/
structure Pending (fileId : ℕ) (swp : List β) (s : Resize) (edits : List Edit) : Prop where
  row : ∀ e ∈ edits, AtDelta fileId s e
  text : ∀ e ∈ edits, e.node.base ≤ e.node.bound ∧ e.node.bound ≤ swp.length
  ids : edits.Pairwise fun d e => e.node.id ≠ d.node.id
  ascending : edits.Pairwise fun d e => d.row.Precedes e.row

theorem Pending.tail (h : Pending fileId swp s (e :: edits)) :
    Pending fileId swp (resizeRow fileId s e.node) edits := by
  obtain ⟨hids, hids'⟩ := List.pairwise_cons.1 h.ids
  obtain ⟨hasc, hasc'⟩ := List.pairwise_cons.1 h.ascending
  refine ⟨fun d hd => ?_, fun d hd => h.text d (List.mem_cons_of_mem _ hd), hids', hasc'⟩
  exact (h.row e List.mem_cons_self).next (h.row d (List.mem_cons_of_mem _ hd))
    (h.text e List.mem_cons_self) (hids d hd) (hasc d hd)

theorem Pending.front {ds es : List Edit} (h : Pending fileId swp s (ds ++ es)) :
    Pending fileId swp s ds :=
  ⟨fun d hd => h.row d (List.mem_append_left _ hd), fun d hd => h.text d (List.mem_append_left _ hd),
    (List.pairwise_append.1 h.ids).1, (List.pairwise_append.1 h.ascending).1⟩

theorem Pending.rounds {ds es : List Edit} (h : Pending fileId swp s (ds ++ es)) :
    Pending fileId swp ((ds.map Edit.node).foldl (resizeRow fileId) s) es := by
  induction ds generalizing s with
  | nil => exact h
  | cons d ds ih => exact ih h.tail

theorem ou_rounds (h : Pending fileId swp s edits) :
    ((edits.map Edit.node).foldl (resizeRow fileId) s).ou =
      s.ou ++ edits.map fun e => ⟨e.row.base, e.row.bound, e.node.base, e.node.bound⟩ := by
  induction edits generalizing s with
  | nil => simp
  | cons e edits ih =>
      rw [List.map_cons, List.foldl_cons, ih h.tail, (h.row e List.mem_cons_self).ou, List.map_cons,
        List.append_assoc, List.singleton_append]

/-- **The ends of a row walk through the replacements**, each by itself; an edited row must not be
empty. -/
theorem walk_rounds {w : ℤ} (h : Pending fileId swp s edits) (hr : rowOf s.table id = some r)
    (hf : r.fileId = fileId) (hid : ∀ e ∈ edits, id = e.node.id → e.row.base < e.row.bound)
    (hz : (r.base : ℤ) = z + s.delta)
    (hw : (r.bound : ℤ) = w + s.delta) :
    ∃ r', rowOf ((edits.map Edit.node).foldl (resizeRow fileId) s).table id = some r' ∧
      r'.fileId = fileId ∧
      (r'.base : ℤ) = walk (edits.map (Edit.span swp)) z + s.delta -
        losses (edits.map (Edit.span swp)) ∧
      (r'.bound : ℤ) = walk (edits.map (Edit.span swp)) w + s.delta -
        losses (edits.map (Edit.span swp)) := by
  induction edits generalizing s r z w with
  | nil => exact ⟨r, hr, hf, by simpa [walk] using hz, by simpa [walk] using hw⟩
  | cons e edits ih =>
      have he := h.row e List.mem_cons_self
      have htext := h.text e List.mem_cons_self
      have hdelta := he.delta htext
      obtain ⟨r₁, hr₁, hf₁, hown, hbase, hbound⟩ := he.round htext hr hf (z := z)
      have hz₁ : (r₁.base : ℤ) = (if (e.row.bound : ℤ) ≤ z then z else z + (e.span swp).loss) +
          (resizeRow fileId s e.node).delta := by
        by_cases hne : id = e.node.id
        · -- the base of the edited row lies in front of its end, so it would not have moved anyway
          have hlt := hid e List.mem_cons_self hne
          obtain ⟨t, ht, -, htb, -⟩ := he
          rw [← hne, hr] at ht
          rw [← Option.some.inj ht] at htb
          rw [hown hne, hdelta, if_neg (by omega)]
          omega
        · exact hbase hne hz
      obtain ⟨r', hr', hf', hb, hob⟩ := ih h.tail hr₁ hf₁
        (fun d hd => hid d (List.mem_cons_of_mem _ hd)) hz₁ (hbound w hw)
      rw [hdelta] at hb hob
      refine ⟨r', hr', hf', ?_, ?_⟩
      · rw [hb]
        simp only [List.map_cons, walk, losses_cons, Edit.span]
        omega
      · rw [hob]
        simp only [List.map_cons, walk, losses_cons, Edit.span]
        omega

/-! ## A push -/

namespace EditsListed

theorem spans_le (h : EditsListed fileId table swp edits) :
    ∀ s ∈ edits.map (Edit.span swp), s.base ≤ s.bound :=
  List.forall_mem_map.2 fun _ he => h.rows.le _ (List.mem_map_of_mem he)

theorem spans_ascend (h : EditsListed fileId table swp edits) :
    (edits.map (Edit.span swp)).Pairwise Span.Precedes := by
  have hasc := List.pairwise_map.1 h.rows.ascending
  exact List.pairwise_map.2 hasc

theorem pending (h : EditsListed fileId table swp edits) :
    Pending fileId swp ⟨table, 0, 0, 0, []⟩ edits := by
  have hasc := List.pairwise_map.1 h.rows.ascending
  have hrow : ∀ e ∈ edits, rowOf table e.node.id = some e.row := fun e he => by
    rw [h.id e he]
    exact h.rows.row _ (List.mem_map_of_mem he)
  refine ⟨fun e he => ?_, h.text, ?_, hasc⟩
  · exact ⟨e.row, hrow e he, h.rows.file _ (List.mem_map_of_mem he), (add_zero _).symm,
      (add_zero _).symm⟩
  · refine hasc.imp_of_mem fun {d e} hd he hde hids => ?_
    -- two edits of one row would precede one another
    have hde' := hrow e he
    rw [hids, hrow d hd] at hde'
    rw [← Option.some.inj hde'] at hde
    exact Nat.lt_irrefl _ hde.2

/-- The updates name the rows as they were before the push. -/
theorem collected (h : EditsListed fileId table swp edits) :
    List.Forall₂ (OffsetUpdate.Names swp) (collected fileId (edits.map Edit.node) table)
      (edits.map (Edit.span swp)) := by
  rw [Yacet.collected, ou_rounds h.pending, List.nil_append, List.forall₂_map_left_iff,
    List.forall₂_map_right_iff, List.forall₂_same]
  exact fun e he => ⟨rfl, rfl, (h.text e he).1, (h.text e he).2, rfl⟩

theorem chain_of_le (h : EditsListed fileId table swp edits) (hL : ∀ e ∈ edits, e.row.bound ≤ L) :
    Chain L 0 (edits.map (Edit.span swp)) := by
  have hle := h.spans_le
  have hasc := h.spans_ascend
  have hbound : ∀ s ∈ edits.map (Edit.span swp), s.bound ≤ L := List.forall_mem_map.2 hL
  generalize edits.map (Edit.span swp) = ss at hle hasc hbound
  have hchain : ∀ pos : ℕ, pos ≤ L → (∀ s ∈ ss, pos ≤ s.base) → Chain L pos ss := by
    induction ss with
    | nil => exact fun pos hpos _ => hpos
    | cons s ss ih =>
        intro pos _ hfront
        obtain ⟨hs, hasc⟩ := List.pairwise_cons.1 hasc
        rw [List.forall_mem_cons] at hle hbound hfront
        exact ⟨hfront.1, hle.1, ih hle.2 hasc hbound.2 s.bound hbound.1 fun t ht => (hs t ht).1⟩
  exact hchain 0 (Nat.zero_le L) fun _ _ => Nat.zero_le _

theorem chain (h : EditsListed fileId table swp edits) :
    ∃ L, Chain L 0 (edits.map (Edit.span swp)) := by
  obtain ⟨L, hL⟩ := (edits.map fun e => e.row.bound).toFinset.exists_le
  exact ⟨L, h.chain_of_le fun e he => hL _ (List.mem_toFinset.2 (List.mem_map_of_mem he))⟩

end EditsListed

theorem EditsOk.chain (h : EditsOk fileId L table swp edits) :
    Chain L 0 (edits.map (Edit.span swp)) := h.toEditsListed.chain_of_le h.inside

/-- **Where a row is after the push**, if it is not an empty one that is edited. -/
theorem rowOf_resizedTable (h : EditsListed fileId table swp edits) (hr : rowOf table id = some r)
    (hf : r.fileId = fileId)
    (hid : ∀ e ∈ edits, e.row.offsetId = id → e.row.base < e.row.bound) :
    ∃ r', rowOf (resizedTable fileId (edits.map Edit.node) table) id = some r' ∧
      r'.fileId = fileId ∧
      (r'.base : ℤ) = walk (edits.map (Edit.span swp)) r.base - losses (edits.map (Edit.span swp)) ∧
      (r'.bound : ℤ) =
        walk (edits.map (Edit.span swp)) r.bound - losses (edits.map (Edit.span swp)) := by
  obtain ⟨r', hr', hf', hb, hob⟩ := walk_rounds h.pending hr hf
    (fun e he hne => hid e he (by rw [hne, h.id e he])) (add_zero _).symm (add_zero _).symm
  exact ⟨r', hr', hf', by simpa using hb, by simpa using hob⟩

/-- A row and the text that is to stand there. -/
structure Change (β : Type*) where
  row : OffsetRow
  text : List β

def Change.span (c : Change β) : Span β := ⟨c.row.base, c.row.bound, c.text⟩

/-- The changed rows hold their new texts, one behind the other; a row of the file that lies between
them has moved with the text around it; the rows of other files are left alone. -/
structure RowsHold (fileId : ℕ) (changes : List (Change β)) (table table' : List OffsetRow) :
    Prop where
  changed : ∀ c ∈ changes, ∃ r, rowOf table' c.row.offsetId = some r ∧
    (r.base : ℤ) = c.row.base -
      losses ((changes.filter fun d => d.row.Precedes c.row).map Change.span) ∧
    r.bound = r.base + c.text.length
  moved : ∀ id r, rowOf table id = some r → r.fileId = fileId → r.base ≤ r.bound →
    (∀ c ∈ changes, c.row.offsetId ≠ id ∧ (c.row.bound ≤ r.base ∨ r.Precedes c.row)) →
    ∃ r', rowOf table' id = some r' ∧
      (r'.base : ℤ) = r.base -
        losses ((changes.filter fun c => c.row.bound ≤ r.base).map Change.span) ∧
      r'.bound = r'.base + (r.bound - r.base)
  foreign : ∀ id r, rowOf table id = some r → r.fileId ≠ fileId → rowOf table' id = some r

/-- The file and the rows hold the changes. -/
structure Holds (fileId : ℕ) (changes : List (Change β)) (F : List β) (table : List OffsetRow)
    (s : Stores β) : Prop where
  file : s.backing = replaceSpans F 0 (changes.map Change.span)
  rows : RowsHold fileId changes table s.table

/-- The row of the edit with its new text. -/
def Edit.change (swp : List β) (e : Edit) : Change β := ⟨e.row, e.text swp⟩

theorem spans_of_changes (swp : List β) (edits : List Edit) :
    (edits.map (Edit.change swp)).map Change.span = edits.map (Edit.span swp) := by
  rw [List.map_map]
  rfl

variable {changes changes' : List (Change β)} {stores : Stores β}

/-- What the file and the rows hold can be read off them. -/
theorem Holds.unique (h : Holds fileId changes F table stores)
    (h' : Holds fileId changes' F table stores)
    (hrows : changes.map Change.row = changes'.map Change.row) : changes = changes' := by
  have hcount : changes.length = changes'.length := by simpa using congrArg List.length hrows
  have hrow : ∀ (i : ℕ) (hi : i < changes.length) (hi' : i < changes'.length),
      changes[i].row = changes'[i].row := fun i hi hi' => by
    have hget :=
      List.getElem_of_eq hrows (by rwa [List.length_map] : i < (changes.map Change.row).length)
    rwa [List.getElem_map, List.getElem_map] at hget
  have hlen : ∀ (i : ℕ) (hi : i < changes.length) (hi' : i < changes'.length),
      changes[i].text.length = changes'[i].text.length := fun i hi hi' => by
    obtain ⟨r, hr, -, hbound⟩ := h.rows.changed _ (List.getElem_mem hi)
    obtain ⟨r', hr', -, hbound'⟩ := h'.rows.changed _ (List.getElem_mem hi')
    rw [hrow i hi hi', hr'] at hr
    rw [Option.some.inj hr] at hbound'
    omega
  have hspans : changes.map Change.span = changes'.map Change.span := by
    refine replaceSpans_inj ?_ (h.file.symm.trans h'.file)
    rw [List.forall₂_map_left_iff, List.forall₂_map_right_iff]
    refine List.forall₂_iff_get.2 ⟨hcount, fun i hi hi' => ?_⟩
    exact ⟨congrArg OffsetRow.base (hrow i hi hi'), congrArg OffsetRow.bound (hrow i hi hi'),
      hlen i hi hi'⟩
  refine List.ext_getElem hcount fun i hi hi' => ?_
  have hspan :=
    List.getElem_of_eq hspans (by rwa [List.length_map] : i < (changes.map Change.span).length)
  rw [List.getElem_map, List.getElem_map] at hspan
  have htext := congrArg Span.text hspan
  have hi_row := hrow i hi hi'
  generalize changes[i] = c at hi_row htext
  generalize changes'[i] = d at hi_row htext
  cases c
  cases d
  simp only at hi_row
  simp only [Change.span] at htext
  rw [hi_row, htext]

end Yacet
