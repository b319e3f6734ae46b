import Yacet.Offset
import Yacet.Splice

/-!
# `query_resize_file` (`sql.c`)

* `resizeRow` — the database side of one round of the loop: fetch the row, run the `UPDATE`, take
  the positions in the old file down with the running `delta`.
* `queryResizeFile` — the transaction around the loop.
* `resize_run` — the loop over the rows of ascending patches: the table follows the edited
  patchwork, and the recorded positions are those of the patches in the old file.
* `queryResizeFile_arrives` — the transaction for every outcome of its calls.
* `resize_patches` — a push replaces the patches of its rows, in the file and in the table.
-/

namespace Yacet

open Descriptor Patchwork

variable {β : Type*}

/-- The locals of the loop: the table within the transaction, `db_base`, `db_bound`, `delta` and
the updates collected so far. -/
structure Resize where
  table : List OffsetRow
  dbBase : ℕ
  dbBound : ℕ
  delta : ℤ
  ou : List OffsetUpdate
  deriving DecidableEq, Repr

/-- One round of `it_foreach(&rf->it, p_itn)`; a missing row leaves the variables as they were. -/
def resizeRow (fileId : ℕ) (s : Resize) (n : ItNode) : Resize :=
  let newSz := n.bound - n.base
  let (dbBase, dbBound) := match rowOf s.table n.id with
    | some r => (r.base, r.bound)
    | none => (s.dbBase, s.dbBound)
  { table := s.table.map (updateOffset fileId n.id newSz dbBase dbBound)
    dbBase := dbBase
    dbBound := dbBound
    delta := s.delta + newSz - ((dbBound : ℤ) - dbBase)
    ou := s.ou ++ [⟨(dbBase : ℤ) - s.delta, (dbBound : ℤ) - s.delta, n.base, n.bound⟩] }

/-- The statements of round `i` all succeed. -/
def roundOk (ok : Call → Bool) (i : ℕ) : Bool :=
  ok (.setVars i) && ok (.selectInto i) && ok (.selectRow i) && ok (.storeRow i) &&
    ok (.fetchRow i) && ok (.update i)

/-- The loop; `none` is `goto fail`. -/
def resizeLoop (ok : Call → Bool) (fileId : ℕ) : ℕ → Resize → List ItNode → Option Resize
  | _, s, [] => some s
  | i, s, n :: ns =>
    if roundOk ok i then resizeLoop ok fileId (i + 1) (resizeRow fileId s n) ns else none

/-- The backing file and the committed rows. -/
structure Stores (β : Type*) where
  backing : List β
  table : List OffsetRow
  deriving DecidableEq

/-- The statements in front of the loop all succeed. -/
def beginOk (ok : Call → Bool) : Bool :=
  ok .prepare && ok .malloc && ok .startTransaction && ok .lockOffsets && ok .storeOffsets &&
    ok .fetchOffsets

/-- `query_resize_file`: its return value and what it leaves.  A rollback restores the rows, not
the file. -/
def queryResizeFile (ok : Call → Bool) (zero : β) (fileId : ℕ) (it : List ItNode) (swp : List β)
    (s : Stores β) : Option (ℤ × Stores β) :=
  if beginOk ok then
    match resizeLoop ok fileId 0 ⟨s.table, 0, 0, 0, []⟩ it with
    | none => some (-1, s)
    | some r =>
      (writeOffsetUpdate ok zero r.ou swp s.backing).map fun (ret, backing) =>
        if ret ≥ 0 then
          if ok .commit then (0, ⟨backing, r.table⟩) else (-1, ⟨backing, s.table⟩)
        else (-1, ⟨backing, s.table⟩)
  else some (-1, s)

/-! ## The loop -/

theorem resizeLoop_eq (ok : Call → Bool) (fileId : ℕ) (it : List ItNode) (i : ℕ) (s : Resize) :
    resizeLoop ok fileId i s it =
      if ∀ k < it.length, roundOk ok (i + k) = true then
        some (it.foldl (resizeRow fileId) s) else none := by
  induction it generalizing i s with
  | nil => simp [resizeLoop]
  | cons n ns ih =>
      rw [resizeLoop, ih]
      have hiff : (∀ k < (n :: ns).length, roundOk ok (i + k) = true) ↔
          roundOk ok i = true ∧ ∀ k < ns.length, roundOk ok (i + 1 + k) = true := by
        constructor
        · intro h
          refine ⟨h 0 (by simp), fun k hk => ?_⟩
          have := h (k + 1) (by simpa using hk)
          rwa [show i + 1 + k = i + (k + 1) by omega]
        · rintro ⟨h1, h2⟩ k hk
          cases k with
          | zero => exact h1
          | succ k =>
              rw [show i + (k + 1) = i + 1 + k by omega]
              exact h2 k (by simpa using hk)
      by_cases h1 : roundOk ok i = true
      · rw [if_pos h1]
        simp only [hiff, h1, true_and, List.foldl_cons]
      · rw [if_neg h1, if_neg fun h => h1 (hiff.1 h).1]

theorem resizeRow_of_row (fileId : ℕ) {s : Resize} {n : ItNode} {r : OffsetRow}
    (h : rowOf s.table n.id = some r) :
    resizeRow fileId s n =
      { table := s.table.map (updateOffset fileId n.id (n.bound - n.base) r.base r.bound)
        dbBase := r.base
        dbBound := r.bound
        delta := s.delta + (n.bound - n.base : ℕ) - ((r.bound : ℤ) - r.base)
        ou := s.ou ++ [⟨(r.base : ℤ) - s.delta, (r.bound : ℤ) - s.delta, n.base, n.bound⟩] } := by
  simp only [resizeRow, h]

/-- Every row that `M` names stands in the table and follows its marks. -/
def TracksAll (g τ : ℕ → List β) (fileId : ℕ) (M : ℕ → Mark → Mark → Prop)
    (table : List OffsetRow) : Prop :=
  ∀ id lo hi, M id lo hi →
    ∃ r, rowOf table id = some r ∧ r.fileId = fileId ∧ Tracks g τ r lo hi

/-- The rows that `M` names admit the edits of the patches `is`, whose rows are `eid`. -/
structure AdmitsAll (g τ : ℕ → List β) (is : List ℕ) (eid : ℕ → ℕ)
    (M : ℕ → Mark → Mark → Prop) : Prop where
  edited : ∀ i ∈ is, M (eid i) (Mark.atStart g i) (Mark.atStop i)
  admits : ∀ i ∈ is, ∀ id lo hi, M id lo hi → Admits g (τ i) i (eid i) id lo hi

variable {g τ : ℕ → List β} {fileId : ℕ} {M : ℕ → Mark → Mark → Prop} {table : List OffsetRow}
  {is : List ℕ} {eid : ℕ → ℕ} {i : ℕ} {c : List β}

/-- One `UPDATE` keeps the tracking, for the patchwork with the patch replaced. -/
theorem TracksAll.update (h : TracksAll g τ fileId M table)
    (ha : ∀ id lo hi, M id lo hi → Admits g (τ i) i (eid i) id lo hi) :
    TracksAll g (Function.update τ i c) fileId M
      (table.map (updateOffset fileId (eid i) c.length (start g τ i) (stop g τ i))) := by
  intro id lo hi hM
  obtain ⟨r, hr, hf, ht⟩ := h id lo hi hM
  obtain ⟨_, hid⟩ := rowOf_some hr
  refine ⟨_, ?_, ?_, updateOffset_tracks hf ht (hid ▸ ha id lo hi hM)⟩
  · rw [rowOf_map fun r => updateOffset_offsetId, hr]
    rfl
  · rw [updateOffset_fileId, hf]

/-- **The loop refines the replacement of its patches**: the table follows the edited patchwork,
and undoing `delta` gives the positions of the patches in the file before the push.  `P` is
whatever else each of the `UPDATE`s keeps. -/
theorem resize_run {node : ℕ → ItNode} {d τ₀ : ℕ → List β} {k : ℕ} {s : Resize}
    {P : (ℕ → List β) → List OffsetRow → Prop}
    (hstep : ∀ i ∈ is, ∀ τ table, P τ table → P (Function.update τ i (d i))
      (table.map (updateOffset fileId (eid i) (d i).length (start g τ i) (stop g τ i))))
    (hs : is.Pairwise (· < ·)) (hge : ∀ i ∈ is, k ≤ i) (hid : ∀ i ∈ is, (node i).id = eid i)
    (hsize : ∀ i ∈ is, (node i).bound - (node i).base = (d i).length)
    (ht : TracksAll g τ fileId M s.table) (ha : AdmitsAll g τ is eid M) (hP : P τ s.table)
    (hdelta : ∀ m, k ≤ m → ((lead g τ m).length : ℤ) = (lead g τ₀ m).length + s.delta) :
    TracksAll g (override d is τ) fileId M ((is.map node).foldl (resizeRow fileId) s).table ∧
    P (override d is τ) ((is.map node).foldl (resizeRow fileId) s).table ∧
    ((is.map node).foldl (resizeRow fileId) s).ou =
      s.ou ++ is.map fun i => ⟨start g τ₀ i, stop g τ₀ i, (node i).base, (node i).bound⟩ := by
  induction is generalizing k τ s with
  | nil =>
      have hnil : override d [] τ = τ := by funext i; exact if_neg (by simp)
      rw [hnil]
      exact ⟨ht, hP, by simp⟩
  | cons i is ih =>
      obtain ⟨hlt, hs⟩ := List.pairwise_cons.1 hs
      have hki := hge i List.mem_cons_self
      have hni := hid i List.mem_cons_self
      have hsz := hsize i List.mem_cons_self
      -- the row of patch `i` as the `SELECT`s see it
      obtain ⟨r, hr, _, hrt⟩ := ht _ _ _ (ha.edited i List.mem_cons_self)
      have hbase : r.base = start g τ i := hrt.base
      have hbound : r.bound = stop g τ i := hrt.bound
      have hround := resizeRow_of_row fileId (s := s) (n := node i) (r := r)
        (by rw [hni]; exact hr)
      have hlead := hdelta i hki
      have hlead' := hdelta (i + 1) (by omega)
      have hstop := stop_eq (g := g) (τ := τ) (i := i)
      rw [hni, hsz, hbase, hbound] at hround
      have hrest : ∀ j ∈ is, Function.update τ i (d i) j = τ j := fun j hj =>
        Function.update_of_ne (by have := hlt j hj; omega) _ _
      have hi : i ∉ is := fun hmem => Nat.lt_irrefl i (hlt i hmem)
      obtain ⟨h1, h2, h3⟩ := ih (k := i + 1) (τ := Function.update τ i (d i))
        (s := resizeRow fileId s (node i)) (fun j hj => hstep j (List.mem_cons_of_mem _ hj)) hs hlt
        (fun j hj => hid j (List.mem_cons_of_mem _ hj))
        (fun j hj => hsize j (List.mem_cons_of_mem _ hj))
        (by rw [hround]; exact ht.update (ha.admits i List.mem_cons_self))
        ⟨fun j hj => ha.edited j (List.mem_cons_of_mem _ hj), fun j hj => by
          rw [hrest j hj]; exact ha.admits j (List.mem_cons_of_mem _ hj)⟩
        (by rw [hround]; exact hstep i List.mem_cons_self τ s.table hP)
        (fun m hm => by
          have h3 := hdelta m (by omega)
          have h4 := length_lead_update_of_lt (g := g) (τ := τ) (c := d i) (show i < m from hm)
          rw [hround]
          show ((lead g (Function.update τ i (d i)) m).length : ℤ) =
            (lead g τ₀ m).length + (s.delta + (d i).length - ((stop g τ i : ℤ) - start g τ i))
          omega)
      rw [override_cons hi] at h1 h2
      refine ⟨h1, h2, ?_⟩
      have e1 : (start g τ i : ℤ) - s.delta = start g τ₀ i := by
        unfold start
        omega
      have e2 : (stop g τ i : ℤ) - s.delta = stop g τ₀ i := by
        unfold stop
        omega
      rw [List.map_cons, List.foldl_cons, h3, hround, e1, e2]
      simp

/-! ## The transaction -/

/-- The rows after the loop. -/
def resizedTable (fileId : ℕ) (it : List ItNode) (table : List OffsetRow) : List OffsetRow :=
  (it.foldl (resizeRow fileId) ⟨table, 0, 0, 0, []⟩).table

/-- The updates the loop collects. -/
def collected (fileId : ℕ) (it : List ItNode) (table : List OffsetRow) : List OffsetUpdate :=
  (it.foldl (resizeRow fileId) ⟨table, 0, 0, 0, []⟩).ou

/-- Every statement in front of `write_offset_update` succeeds. -/
def StatementsOk (ok : Call → Bool) (n : ℕ) : Prop :=
  beginOk ok = true ∧ ∀ k < n, roundOk ok k = true

instance (ok : Call → Bool) (n : ℕ) : Decidable (StatementsOk ok n) := by
  unfold StatementsOk
  infer_instance

/-- The run ends in `zk_release_lock` with an `it_node_t` that nothing has set. -/
def Undefined (ok : Call → Bool) (n : ℕ) : Prop :=
  StatementsOk ok n ∧ (ok .openTmp && ok .masterNode) = false

instance (ok : Call → Bool) (n : ℕ) : Decidable (Undefined ok n) := by
  unfold Undefined
  infer_instance

/-- Everything up to the commit succeeds as far as it is checked. -/
def CheckedOk (ok : Call → Bool) (n : ℕ) : Prop :=
  StatementsOk ok n ∧
    (ok .openTmp && ok .masterNode && ok .masterLock && ok .openBacking && ok .sendBack) = true

instance (ok : Call → Bool) (n : ℕ) : Decidable (CheckedOk ok n) := by
  unfold CheckedOk
  infer_instance

theorem checkedOk_of_ok {ok : Call → Bool} (hok : ∀ c, ok c = true) (n : ℕ) : CheckedOk ok n := by
  simp [CheckedOk, StatementsOk, beginOk, roundOk, hok]

theorem CheckedOk.defined {ok : Call → Bool} {n : ℕ} (h : CheckedOk ok n) : ¬ Undefined ok n := by
  rintro ⟨-, hfail⟩
  have hall := h.2
  rw [hfail] at hall
  simp at hall

variable {ok : Call → Bool} {zero : β} {it : List ItNode} {F swp : List β} {ss : List (Span β)}

/-- **`query_resize_file` for every list, every table and every outcome of its calls.** -/
theorem queryResizeFile_arrives (ok : Call → Bool) (zero : β) (fileId : ℕ) (it : List ItNode)
    (swp F : List β) (table : List OffsetRow) :
    queryResizeFile ok zero fileId it swp ⟨F, table⟩ =
      if Undefined ok it.length then none
      else some
        (if CheckedOk ok it.length then
          let backing := copiedBack ok zero F (arrives ok F swp 0 0 0 (collected fileId it table))
          if ok .commit then (0, ⟨backing, resizedTable fileId it table⟩)
          else (-1, ⟨backing, table⟩)
        else (-1, ⟨F, table⟩)) := by
  have hrounds : (∀ k < it.length, roundOk ok (0 + k) = true) ↔
      ∀ k < it.length, roundOk ok k = true := by simp only [Nat.zero_add]
  unfold queryResizeFile
  rw [resizeLoop_eq]
  by_cases hst : StatementsOk ok it.length
  · rw [if_pos hst.1, if_pos (hrounds.2 hst.2)]
    have hwrite := writeOffsetUpdate_arrives ok zero (collected fileId it table) swp F
    unfold collected at hwrite
    simp only [hwrite, Undefined, CheckedOk, hst, true_and]
    cases ok .openTmp && ok .masterNode with
    | false => rfl
    | true =>
        simp only [Bool.true_and]
        cases ok .masterLock && ok .openBacking && ok .sendBack with
        | false => rfl
        | true => rfl
  · have hundef : ¬ Undefined ok it.length := fun h => hst h.1
    have hchecked : ¬ CheckedOk ok it.length := fun h => hst h.1
    rw [if_neg hundef, if_neg hchecked]
    by_cases hb : beginOk ok = true
    · rw [if_pos hb, if_neg fun h => hst ⟨hb, hrounds.1 h⟩]
    · rw [if_neg hb]

theorem queryResizeFile_isSome (ok : Call → Bool) (zero : β) (fileId : ℕ) (it : List ItNode)
    (swp : List β) (s : Stores β) (h : ¬ Undefined ok it.length) :
    (queryResizeFile ok zero fileId it swp s).isSome = true := by
  obtain ⟨F, table⟩ := s
  rw [queryResizeFile_arrives, if_neg h]
  rfl

/-- The same where the updates name spans of the file. -/
theorem queryResizeFile_eq (ok : Call → Bool) (zero : β)
    (hm : List.Forall₂ (OffsetUpdate.Names swp) (collected fileId it table) ss) :
    queryResizeFile ok zero fileId it swp ⟨F, table⟩ =
      if Undefined ok it.length then none
      else some
        (if CheckedOk ok it.length then
          let backing := copiedBack ok zero F (transferred ok F 0 0 0 ss)
          if ok .commit then (0, ⟨backing, resizedTable fileId it table⟩)
          else (-1, ⟨backing, table⟩)
        else (-1, ⟨F, table⟩)) := by
  rw [queryResizeFile_arrives, ← arrives_eq_transferred ok hm]

variable {n : ℕ} {node : ℕ → ItNode} {d : ℕ → List β}

/-- The loop from the start of a push. -/
theorem resize_push {P : (ℕ → List β) → List OffsetRow → Prop}
    (hstep : ∀ i ∈ is, ∀ τ table, P τ table → P (Function.update τ i (d i))
      (table.map (updateOffset fileId (eid i) (d i).length (start g τ i) (stop g τ i))))
    (hs : is.Pairwise (· < ·)) (hid : ∀ i ∈ is, (node i).id = eid i)
    (hsize : ∀ i ∈ is, (node i).bound - (node i).base = (d i).length)
    (ht : TracksAll g τ fileId M table) (ha : AdmitsAll g τ is eid M) (hP : P τ table) :
    TracksAll g (override d is τ) fileId M (resizedTable fileId (is.map node) table) ∧
    P (override d is τ) (resizedTable fileId (is.map node) table) ∧
    collected fileId (is.map node) table =
      is.map fun i => ⟨start g τ i, stop g τ i, (node i).base, (node i).bound⟩ := by
  have hstart : ∀ m, 0 ≤ m →
      ((lead g τ m).length : ℤ) = (lead g τ m).length + (⟨table, 0, 0, 0, []⟩ : Resize).delta :=
    fun m _ => by simp
  obtain ⟨h1, h2, h3⟩ := resize_run (d := d) (s := ⟨table, 0, 0, 0, []⟩) hstep hs
    (fun i _ => Nat.zero_le i) hid hsize ht ha hP hstart
  exact ⟨h1, h2, by rw [collected, h3, List.nil_append]⟩

/-- The collected updates name the patches and the new texts. -/
theorem collected_names (hswp : ∀ i ∈ is, (node i).base ≤ (node i).bound ∧
      (node i).bound ≤ swp.length ∧ d i = swp.slice (node i).base (node i).bound) :
    List.Forall₂ (OffsetUpdate.Names swp)
      (is.map fun i => ⟨start g τ i, stop g τ i, (node i).base, (node i).bound⟩)
      (spans g τ d is) := by
  rw [spans, List.forall₂_map_left_iff, List.forall₂_map_right_iff, List.forall₂_same]
  intro i hi
  obtain ⟨h1, h2, h3⟩ := hswp i hi
  exact ⟨rfl, rfl, h1, h2, h3⟩

theorem queryResizeFile_ok {L : ℕ} (zero : β) (hok : ∀ c, ok c = true) (hc : Chain L 0 ss)
    (hm : List.Forall₂ (OffsetUpdate.Names swp) (collected fileId it table) ss) :
    queryResizeFile ok zero fileId it swp ⟨F, table⟩ =
      some (0, ⟨replaceSpans F 0 ss, resizedTable fileId it table⟩) := by
  have hchecked := checkedOk_of_ok hok it.length
  rw [queryResizeFile_eq ok zero hm, if_neg hchecked.defined, if_pos hchecked]
  simp only [hok, if_true, copiedBack_of_ok hok hc]

/-- **What a push does with the patches of its rows**: the collected updates name them with their
new texts, and the table follows the patchwork in which they are replaced. -/
theorem resize_patches {P : (ℕ → List β) → List OffsetRow → Prop}
    (hstep : ∀ i ∈ is, ∀ τ table, P τ table → P (Function.update τ i (d i))
      (table.map (updateOffset fileId (eid i) (d i).length (start g τ i) (stop g τ i))))
    (hs : is.Pairwise (· < ·)) (hn : ∀ i ∈ is, i < n) (hid : ∀ i ∈ is, (node i).id = eid i)
    (hswp : ∀ i ∈ is, (node i).base ≤ (node i).bound ∧ (node i).bound ≤ swp.length ∧
      d i = swp.slice (node i).base (node i).bound)
    (ht : TracksAll g τ fileId M table) (ha : AdmitsAll g τ is eid M) (hP : P τ table) :
    Chain (flat g τ n).length 0 (spans g τ d is) ∧
    List.Forall₂ (OffsetUpdate.Names swp) (collected fileId (is.map node) table) (spans g τ d is) ∧
    TracksAll g (override d is τ) fileId M (resizedTable fileId (is.map node) table) ∧
    P (override d is τ) (resizedTable fileId (is.map node) table) := by
  have hsize : ∀ i ∈ is, (node i).bound - (node i).base = (d i).length := fun i hi => by
    obtain ⟨h1, h2, h3⟩ := hswp i hi
    rw [h3, List.length_slice_of_le h2]
  obtain ⟨h1, h2, h3⟩ := resize_push hstep hs hid hsize ht ha hP
  exact ⟨chain_spans (k := 0) hs hn (Nat.zero_le n) (fun i _ => Nat.zero_le i),
    by rw [h3]; exact collected_names hswp, h1, h2⟩

end Yacet
