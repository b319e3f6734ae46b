import Yacet.Load
import Yacet.PushOutcome

/-!
# A session that edits nothing

Load, pull, search, push, with no other session in between.  The push names each node by the row
that opened it, but resizes it by the size of the whole node, so rows that were merged into a node
and stick out of its first row are written twice.

* `soloSession` — the session, from the rows of the range to what the push leaves.
* `soloSession_unchanged_iff` — the backing file is unchanged iff a NUL hides an oracle (then the
  push gives up) or the rows fit.
-/

namespace Yacet

open Descriptor Patchwork

/-- A complete session on one file whose editor changes nothing; `old` is what the swap file held
before. -/
def soloSession (ok : Call → Bool) (o : Oracles) (fileId : ℕ) (rows : List OffsetRow)
    (old : List Byte) (s : Stores Byte) : Option PushResult :=
  (loadRows ⟨[], 0⟩ rows).bind fun rf =>
    pushSwapFile ok true fileId o rf.it (addOracles o rf.it s.backing old) s

variable {fileId rangeId L : ℕ} {F swp old tail : List Byte} {table rows pre : List OffsetRow}
  {ps : List (ItNode × OffsetRow)} {o : Oracles} {ok : Call → Bool}

theorem Selected.row (h : Selected table fileId rangeId rows)
    (hids : (table.map OffsetRow.offsetId).Nodup) {r : OffsetRow} (hr : r ∈ rows) :
    rowOf table r.offsetId = some r ∧ r.fileId = fileId := by
  have hmem := h.perm.mem_iff.1 hr
  rw [List.mem_filter, decide_eq_true_eq] at hmem
  exact ⟨rowOf_of_mem hids hmem.1, hmem.2.1⟩

/-- The first rows of the nodes make a proper push. -/
theorem Loaded.rowsOk (h : Loaded rows ps)
    (hrow : ∀ r ∈ rows, rowOf table r.offsetId = some r ∧ r.fileId = fileId)
    (hvalid : ∀ r ∈ rows, r.base ≤ r.bound ∧ r.bound ≤ L) :
    RowsOk fileId L table (ps.map Prod.snd) := by
  have hmem : ∀ r ∈ ps.map Prod.snd, r ∈ rows := fun r hr => by
    obtain ⟨p, hp, rfl⟩ := List.mem_map.1 hr
    exact h.mem p hp
  refine ⟨⟨fun r hr => (hrow r (hmem r hr)).1, fun r hr => (hrow r (hmem r hr)).2,
    fun r hr => (hvalid r (hmem r hr)).1, ?_⟩, fun r hr => (hvalid r (hmem r hr)).2⟩
  rw [List.pairwise_map]
  refine (List.pairwise_map.1 h.separated.gap).imp_of_mem fun {p q} hp hq hpq => ?_
  have h1 := (h.first p hp).2.2
  have h2 := (h.first q hq).2.1
  have h3 := (hvalid _ (h.mem q hq)).1
  exact ⟨by omega, by omega⟩

/-- The spans that the push replaces: a node's first row, with the text of the whole node. -/
def nodeSpans (F : List Byte) (ps : List (ItNode × OffsetRow)) : List (Span Byte) :=
  ps.map fun p => ⟨p.2.base, p.2.bound, F.slice p.1.base p.1.bound⟩

/-- The texts found between the oracles are those of the nodes. -/
theorem spans_located (h : swp = swapBytes o (pulled F 0 (ps.map Prod.fst)) tail) :
    (editsOf (ps.map Prod.snd) (located o 0 (pulled F 0 (ps.map Prod.fst)) (ps.map Prod.fst))).map
      (Edit.span swp) = nodeSpans F ps := by
  have htexts := located_texts (List.drop_zero.trans h) (length_pulled F _ _)
  rw [← spans_of_changes, changesOf_located, htexts, pulled_texts, List.map_map, changesOf,
    List.zipWith_map, List.zipWith_self, List.map_map]
  rfl

/-- **The push leaves the file alone iff every node has the bound of its first row.** -/
theorem replaceSpans_nodeSpans (h : Loaded rows ps) (hc : Chain F.length 0 (nodeSpans F ps))
    (hvalid : ∀ r ∈ rows, r.base ≤ r.bound ∧ r.bound ≤ F.length) :
    replaceSpans F 0 (nodeSpans F ps) = F ↔ RowsFit rows := by
  rw [← h.fit]
  have hbound : ∀ p ∈ ps, p.1.bound ≤ F.length := fun p hp => by
    obtain ⟨r, hr, he⟩ := h.reach p hp
    have := (hvalid r hr).2
    omega
  constructor
  · intro heq p hp
    obtain ⟨_, hlen⟩ := length_replaceSpans hc fun s hs => by
      obtain ⟨q, hq, rfl⟩ := List.mem_map.1 hs
      have h1 := h.first q hq
      simp only [List.length_slice_of_le (hbound q hq)]
      omega
    have hp' := hlen (by rw [heq, Nat.sub_zero]) _ (List.mem_map_of_mem hp)
    simp only [List.length_slice_of_le (hbound p hp)] at hp'
    have h1 := h.first p hp
    have h2 := h.separated.le p.1 (List.mem_map_of_mem hp)
    have h3 := (hvalid _ (h.mem p hp)).1
    omega
  · intro hfit
    refine (replaceSpans_self hc fun s hs => ?_).trans (List.drop_zero)
    obtain ⟨p, hp, rfl⟩ := List.mem_map.1 hs
    simp only [(h.first p hp).2.1, hfit p hp]

/-- **A session that edits nothing leaves the file alone iff an oracle is hidden or the rows
fit.** -/
theorem soloSession_unchanged_iff (hok : ∀ c, ok c = true) (ho : o.Proper)
    (hids : (table.map OffsetRow.offsetId).Nodup) (hsel : Selected table fileId rangeId rows)
    (hvalid : ∀ r ∈ rows, r.base ≤ r.bound ∧ r.bound ≤ F.length)
    (hocc : ∀ rf, loadRows ⟨[], 0⟩ rows = some rf →
      OnlyWritten o (addOracles o rf.it F old) 0 (pulled F 0 rf.it)) :
    ∃ rf out, loadRows ⟨[], 0⟩ rows = some rf ∧
      soloSession ok o fileId rows old ⟨F, table⟩ = some out ∧
      (out.stores.backing = F ↔ ¬ Visible (pulled F 0 rf.it) ∨ RowsFit rows) := by
  obtain ⟨ps, hload, hps⟩ := load_rows hsel.sorted fun r hr => (hvalid r hr).1
  have hocc := hocc _ hload
  simp only at hocc
  suffices hpush : ∃ out, pushSwapFile ok true fileId o (ps.map Prod.fst)
      (addOracles o (ps.map Prod.fst) F old) ⟨F, table⟩ = some out ∧
      (out.stores.backing = F ↔ ¬ Visible (pulled F 0 (ps.map Prod.fst)) ∨ RowsFit rows) by
    obtain ⟨out, hout, hiff⟩ := hpush
    exact ⟨_, out, hload, by rw [soloSession, hload]; exact hout, hiff⟩
  have hrows := hps.rowsOk (fun r hr => hsel.row hids hr) hvalid
  have hasc : Ascends F.length 0 (ps.map Prod.fst) := by
    have hgap := hps.separated.gap.imp fun h => Nat.le_of_lt h
    refine ascends_of_pairwise hgap hps.separated.le (fun n hn => ?_) (fun _ _ => Nat.zero_le _)
      (Nat.zero_le _)
    obtain ⟨p, hp, rfl⟩ := List.mem_map.1 hn
    obtain ⟨r, hr, he⟩ := hps.reach p hp
    have := (hvalid r hr).2
    omega
  obtain ⟨junk, hswp⟩ := addOracles_eq o old hasc
  generalize addOracles o (ps.map Prod.fst) F old = swp at hocc hswp ⊢
  obtain ⟨hfound, hloc⟩ := searchLoop_pulled (i := 0) hok ho ((List.drop_zero).trans hswp)
    (length_pulled F _ _) hocc
  by_cases hv : Visible (pulled F 0 (ps.map Prod.fst))
  · -- every oracle is found: the push replaces the nodes' first rows
    have hsearch : searchLoop ok o swp 0 0 (ps.map Prod.fst) =
        (true, located o 0 (pulled F 0 (ps.map Prod.fst)) (ps.map Prod.fst)) :=
      Prod.ext (hfound.2 hv) (hloc hv)
    have hwf := searchLoop_wellFormed ok swp ho.closing_ne (ps.map Prod.fst) 0 0
    have hids' := searchLoop_ids (o := o) ok swp (ps.map Prod.fst) 0 0
    rw [hsearch] at hwf hids'
    have hid : (located o 0 (pulled F 0 (ps.map Prod.fst)) (ps.map Prod.fst)).map ItNode.id =
        (ps.map Prod.snd).map OffsetRow.offsetId := by
      rw [hids', List.map_map, List.map_map]
      exact List.map_congr_left fun p hp => (hps.first p hp).1
    have hedits := editsListed_of_found hrows.toRowsListed hid (hwf rfl)
    obtain ⟨hrow, hnode, -⟩ := editsOf_maps hid
    have hspans := spans_located hswp
    have hc : Chain F.length 0 (nodeSpans F ps) := by
      rw [← hspans]
      refine hedits.chain_of_le fun e he => hrows.inside e.row ?_
      rw [← hrow]
      exact List.mem_map_of_mem he
    have hm := hedits.collected
    rw [hnode, hspans] at hm
    have hrun := queryResizeFile_ok (F := F) nul hok hc hm
    have hpush : ∃ s it, pushSwapFile ok true fileId o (ps.map Prod.fst) swp ⟨F, table⟩ =
        some ⟨0, true, s, it⟩ ∧ s.backing = replaceSpans F 0 (nodeSpans F ps) := by
      unfold pushSwapFile
      simp only [hsearch, if_true, hrun, Option.map_some]
      exact ⟨_, _, rfl, rfl⟩
    obtain ⟨s, it, hout, hfile⟩ := hpush
    refine ⟨_, hout, ?_⟩
    simp only [hv, not_true_eq_false, false_or, hfile]
    exact replaceSpans_nodeSpans hps hc hvalid
  · have hnot : (searchLoop ok o swp 0 0 (ps.map Prod.fst)).1 = false :=
      Bool.eq_false_of_not_eq_true fun h => hv (hfound.1 h)
    refine ⟨⟨-2, false, ⟨F, table⟩, (searchLoop ok o swp 0 0 (ps.map Prod.fst)).2⟩, ?_, ?_⟩
    · unfold pushSwapFile
      simp [hnot]
    · simp [hv]

/-- Two rows with text between them. -/
theorem soloSession_unchanged_separate :
    let o : Oracles := ⟨List.replicate 8 60, List.replicate 8 62⟩
    let F : List Byte := [97, 98, 99]
    let table : List OffsetRow := [⟨2, 1, 7, 2, 3, false⟩, ⟨1, 1, 7, 0, 1, false⟩]
    let rows : List OffsetRow := [⟨1, 1, 7, 0, 1, false⟩, ⟨2, 1, 7, 2, 3, false⟩]
    ∃ rf out, loadRows ⟨[], 0⟩ rows = some rf ∧
      soloSession (fun _ => true) o 1 rows [] ⟨F, table⟩ = some out ∧
      (out.stores.backing = F ↔ ¬ Visible (pulled F 0 rf.it) ∨ RowsFit rows) := by
  intro o F table rows
  have ho : o.Proper := ⟨by decide, by decide, by decide, by decide, by decide, by decide⟩
  have hsel : Selected table 1 7 rows := ⟨List.Perm.swap _ _ _, by decide⟩
  refine soloSession_unchanged_iff (fun _ => rfl) ho (by decide) hsel (by decide) fun rf hrf => ?_
  have hload : loadRows ⟨[], 0⟩ rows = some ⟨[⟨1, 0, 1⟩, ⟨2, 2, 3⟩], 2⟩ := by decide
  rw [hload] at hrf
  cases hrf
  exact onlyWritten_of_bounded ho (by decide)

/-- Two touching rows: the second one's text is written twice. -/
theorem soloSession_touching_rows :
    let o : Oracles := ⟨List.replicate 8 60, List.replicate 8 62⟩
    let F : List Byte := [97, 98, 99, 100]
    let table : List OffsetRow := [⟨1, 1, 7, 0, 2, false⟩, ⟨2, 1, 7, 2, 4, false⟩]
    Selected table 1 7 table ∧
    loadRows ⟨[], 0⟩ table = some ⟨[⟨1, 0, 4⟩], 1⟩ ∧
    OnlyWritten o (addOracles o [⟨1, 0, 4⟩] F []) 0 (pulled F 0 [⟨1, 0, 4⟩]) ∧
    (soloSession (fun _ => true) o 1 table [] ⟨F, table⟩).map (fun out => out.stores.backing) =
      some [97, 98, 99, 100, 99, 100] := by
  intro o F table
  have ho : o.Proper := ⟨by decide, by decide, by decide, by decide, by decide, by decide⟩
  exact ⟨⟨List.Perm.refl _, by decide⟩, by decide, onlyWritten_of_bounded ho (by decide),
    by decide +kernel⟩

end Yacet
