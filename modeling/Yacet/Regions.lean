import Yacet.Edits

/-!
# The file as a set of regions

Rows that are pushed again and again, by any number of sessions and in any order.  A push reads the
positions of its rows from the database, which every earlier push has moved.

* `Push` — one call of `query_resize_file`: the answers of its calls, the list of the session and
  its swap file; `runPushes` is a run of them.
* `Push.write` — what the run is for: a file of named regions, in which a push replaces the texts of
  the regions it names, or nothing if it fails.
* `Shows` — the stores show the regions' texts; `Shows.push` is one push, `runPushes_shows` the run.
-/

namespace Yacet

open Patchwork

variable {β : Type*}

/-- One call of `query_resize_file` that comes back. -/
structure Push (β : Type*) where
  ok : Call → Bool
  it : List ItNode
  swp : List β
  defined : ¬ Undefined ok it.length

def Push.run (zero : β) (fileId : ℕ) (s : Stores β) (p : Push β) : Stores β :=
  ((queryResizeFile p.ok zero fileId p.it p.swp s).get
    (queryResizeFile_isSome p.ok zero fileId p.it p.swp s p.defined)).2

def runPushes (zero : β) (fileId : ℕ) (s : Stores β) (ps : List (Push β)) : Stores β :=
  ps.foldl (Push.run zero fileId) s

/-! ## Regions -/

/-- No checked call fails. -/
def Push.Succeeds (p : Push β) : Prop := CheckedOk p.ok p.it.length

instance (p : Push β) : Decidable p.Succeeds := inferInstanceAs (Decidable (CheckedOk _ _))

/-- The text that the push has for region `id`. -/
def Push.text (p : Push β) (id : ℕ) : Option (List β) :=
  (p.it.find? fun n => n.id = id).map fun n => p.swp.slice n.base n.bound

/-- The regions' texts after the push. -/
def Push.write (t : ℕ → List β) (p : Push β) (id : ℕ) : List β :=
  if p.Succeeds then (p.text id).getD (t id) else t id

/-- The texts that the rows of a table cut out of a file. -/
def contents (F : List β) (table : List OffsetRow) (id : ℕ) : List β :=
  match rowOf table id with
  | some r => F.slice r.base r.bound
  | none => []

/-- A push of some of the regions, in ascending order.  Where it gets to write, its unchecked
transfers and its commit succeed too, and none of its regions is empty. -/
structure PushOk (rows : List OffsetRow) (t : ℕ → List β) (p : Push β) : Prop where
  ids : (p.it.map ItNode.id).Sublist (rows.map OffsetRow.offsetId)
  text : ∀ n ∈ p.it, n.base ≤ n.bound ∧ n.bound ≤ p.swp.length
  calls : p.Succeeds → ∀ c, p.ok c = true
  shown : p.Succeeds → ∀ n ∈ p.it, t n.id ≠ []

/-- Each push of the run finds its regions so. -/
def PushesOk (rows : List OffsetRow) : (ℕ → List β) → List (Push β) → Prop
  | _, [] => True
  | t, p :: ps => PushOk rows t p ∧ PushesOk rows (p.write t) ps

variable {fileId i L : ℕ} {zero : β} {F : List β} {table rows : List OffsetRow} {t : ℕ → List β}
  {s : Stores β} {p : Push β} {ps : List (Push β)}

theorem Push.run_eq {out : ℤ × Stores β}
    (h : queryResizeFile p.ok zero fileId p.it p.swp s = some out) :
    p.run zero fileId s = out.2 := by
  simp only [Push.run, h, Option.get_some]

/-! ## The stores and the regions -/

/-- The texts of the regions as patches. -/
def regionPatches (rows : List OffsetRow) (t : ℕ → List β) (i : ℕ) : List β := t (idAt rows i)

/-- A region is a patch; any other row of the file is tracked where both its ends are in gaps. -/
def RegionMarks (fileId : ℕ) (F : List β) (table rows : List OffsetRow) (id : ℕ) (lo hi : Mark) :
    Prop :=
  (∃ i < rows.length, id = idAt rows i ∧ lo = Mark.atStart (gaps F rows) i ∧ hi = Mark.atStop i) ∨
  ((∀ r ∈ rows, r.offsetId ≠ id) ∧
    (∃ r, rowOf table id = some r ∧ r.fileId = fileId ∧
      Tracks (gaps F rows) (patches F rows) r lo hi) ∧
    lo.Valid (gaps F rows) rows.length ∧ hi.Valid (gaps F rows) rows.length)

/-- The stores show the texts `t`: the file is the initial one with them in place, and every row is
where its text is. -/
structure Shows (fileId : ℕ) (F : List β) (table rows : List OffsetRow) (t : ℕ → List β)
    (s : Stores β) : Prop where
  file : s.backing = flat (gaps F rows) (regionPatches rows t) rows.length
  tracks : TracksAll (gaps F rows) (regionPatches rows t) fileId
    (RegionMarks fileId F table rows) s.table

theorem regionMarks_region (hi : i < rows.length) :
    RegionMarks fileId F table rows (idAt rows i) (Mark.atStart (gaps F rows) i) (Mark.atStop i) :=
  Or.inl ⟨i, hi, rfl, rfl, rfl⟩

theorem RowsOk.contents_idAt (h : RowsOk fileId F.length table rows) (hi : i < rows.length) :
    contents F table (idAt rows i) = patches F rows i := by
  have hrow := h.row _ (List.getElem_mem hi)
  simp only [contents, idAt_of_lt hi, hrow, patches, cutPatch, baseAt_of_lt hi, boundAt_of_lt hi]

theorem RegionMarks.gap_le {id : ℕ} {lo hi : Mark} (h : RegionMarks fileId F table rows id lo hi) :
    lo.gap ≤ rows.length ∧ hi.gap ≤ rows.length := by
  rcases h with ⟨i, hi, -, rfl, rfl⟩ | ⟨-, -, hlo, hhi⟩
  · exact ⟨Nat.le_of_lt hi, hi⟩
  · exact ⟨hlo.1, hhi.1⟩

/-- Only the patches of the regions count. -/
theorem tracksAll_congr {τ σ : ℕ → List β} (hτ : ∀ i < rows.length, τ i = σ i)
    (ht : TracksAll (gaps F rows) τ fileId (RegionMarks fileId F table rows) s.table) :
    TracksAll (gaps F rows) σ fileId (RegionMarks fileId F table rows) s.table := by
  intro id lo hi hM
  obtain ⟨r, hr, hf, hb⟩ := ht id lo hi hM
  obtain ⟨hlo, hhi⟩ := hM.gap_le
  have hpos : ∀ m : Mark, m.gap ≤ rows.length → m.pos (gaps F rows) τ = m.pos (gaps F rows) σ := by
    intro m hm
    unfold Mark.pos
    rw [lead_congr fun k hk => hτ k (by omega)]
  exact ⟨r, hr, hf, hb.base.trans (hpos lo hlo), hb.bound.trans (hpos hi hhi)⟩

/-- Before any push. -/
theorem Shows.start (h : RowsOk fileId F.length table rows) :
    Shows fileId F table rows (contents F table) ⟨F, table⟩ := by
  have hτ : ∀ i < rows.length, patches F rows i = regionPatches rows (contents F table) i :=
    fun i hi => (h.contents_idAt hi).symm
  refine ⟨?_, tracksAll_congr hτ ?_⟩
  · rw [← flat_congr hτ]
    exact h.flat_eq.symm
  · rintro id lo hi (⟨i, hi, rfl, rfl, rfl⟩ | ⟨_, hr, _, _⟩)
    · have hmem := List.getElem_mem hi
      refine ⟨rows[i], ?_, h.file _ hmem, (h.start_eq hi).symm, (h.stop_eq hi).symm⟩
      rw [idAt_of_lt hi]
      exact h.row _ hmem
    · exact hr

/-- Pushes of regions that show text keep the tracking. -/
theorem admitsAll_regions (h : RowsOk fileId F.length table rows) {is : List ℕ} {τ : ℕ → List β}
    (his : ∀ i ∈ is, i < rows.length) (hτ : ∀ i ∈ is, τ i ≠ []) :
    AdmitsAll (gaps F rows) τ is (idAt rows) (RegionMarks fileId F table rows) where
  edited i hi := regionMarks_region (his i hi)
  admits i hi id lo hi' hM := by
    have hlt := his i hi
    have hne := hτ i hi
    rcases hM with ⟨j, hj, rfl, rfl, rfl⟩ | ⟨hother, _, hlo, hhi⟩
    · refine ⟨fun hid => ?_, fun _ => ?_, ?_⟩
      · rw [h.idAt_inj hj hlt hid]
        exact Nat.le_refl _
      · exact Mark.before_of_ne_nil (Nat.le_refl _) hne
      · exact Mark.before_of_ne_nil (Nat.zero_le _) hne
    · refine ⟨fun hid => ?_, fun _ => ?_, ?_⟩
      · refine absurd ?_ (hother rows[i] (List.getElem_mem hlt))
        rw [hid, idAt_of_lt hlt]
      · exact Mark.before_of_ne_nil hlo.2 hne
      · exact Mark.before_of_ne_nil hhi.2 hne

/-! ## One push -/

/-- The node of a push for region `id`. -/
def Push.node (p : Push β) (id : ℕ) : ItNode := (p.it.find? fun n => n.id = id).getD ⟨0, 0, 0⟩

theorem Push.node_id (hnd : (p.it.map ItNode.id).Nodup) {n : ItNode} (hn : n ∈ p.it) :
    p.node n.id = n := by
  unfold Push.node
  cases hf : p.it.find? fun m => decide (m.id = n.id) with
  | none =>
      have := List.find?_eq_none.1 hf n hn
      simp at this
  | some m =>
      have hid := List.find?_some hf
      rw [decide_eq_true_eq] at hid
      exact List.inj_on_of_nodup_map hnd (List.mem_of_find?_eq_some hf) hn hid

/-- The push's text for the region at place `i`. -/
def Push.patch (p : Push β) (rows : List OffsetRow) (i : ℕ) : List β :=
  p.swp.slice (p.node (idAt rows i)).base (p.node (idAt rows i)).bound

/-- The regions of the push stand at the places `is` among all regions. -/
structure Push.At (rows : List OffsetRow) (p : Push β) (is : List ℕ) : Prop where
  sorted : is.Pairwise (· < ·)
  lt : ∀ i ∈ is, i < rows.length
  ids : is.map (idAt rows) = p.it.map ItNode.id
  nodes : is.map (fun i => p.node (idAt rows i)) = p.it
  mem : ∀ i ∈ is, p.node (idAt rows i) ∈ p.it
  id : ∀ i ∈ is, (p.node (idAt rows i)).id = idAt rows i

theorem Push.exists_at (h : RowsOk fileId F.length table rows)
    (hids : (p.it.map ItNode.id).Sublist (rows.map OffsetRow.offsetId)) :
    ∃ is, p.At rows is := by
  obtain ⟨ks, h1, h2⟩ := List.sublist_eq_map_getElem hids
  have hlt : ∀ k : Fin (rows.map OffsetRow.offsetId).length, (k : ℕ) < rows.length := fun k =>
    Nat.lt_of_lt_of_eq k.isLt (List.length_map _)
  have hsort : (ks.map Fin.val).Pairwise (· < ·) := List.pairwise_map.2 h2
  have his : ∀ i ∈ ks.map Fin.val, i < rows.length := by
    intro i hi
    obtain ⟨k, _, rfl⟩ := List.mem_map.1 hi
    exact hlt k
  have hmap : (ks.map Fin.val).map (idAt rows) = p.it.map ItNode.id := by
    rw [h1, List.map_map]
    refine List.map_congr_left fun k _ => ?_
    rw [Function.comp_apply, idAt_of_lt (hlt k)]
    exact (List.getElem_map _).symm
  generalize ks.map Fin.val = is at hsort his hmap
  have hnd : (p.it.map ItNode.id).Nodup := by
    rw [← hmap]
    refine List.Nodup.map_on (fun i hi j hj hij => h.idAt_inj (his i hi) (his j hj) hij) ?_
    exact hsort.imp fun hij => Nat.ne_of_lt hij
  have hnode : ∀ i ∈ is, p.node (idAt rows i) ∈ p.it ∧
      (p.node (idAt rows i)).id = idAt rows i := fun i hi => by
    have hmem : idAt rows i ∈ p.it.map ItNode.id := hmap ▸ List.mem_map_of_mem hi
    obtain ⟨n, hn, hid⟩ := List.mem_map.1 hmem
    rw [← hid, p.node_id hnd hn]
    exact ⟨hn, rfl⟩
  have hnodes : (is.map (idAt rows)).map p.node = p.it := by
    rw [hmap, List.map_map]
    exact (List.map_congr_left fun n hn => p.node_id hnd hn).trans (List.map_id _)
  rw [List.map_map] at hnodes
  exact ⟨is, hsort, his, hmap, hnodes, fun i hi => (hnode i hi).1, fun i hi => (hnode i hi).2⟩

/-- What a push that succeeds does to a patchwork that the table follows. -/
theorem Push.run_patches (zero : β) {τ : ℕ → List β} {g : ℕ → List β} {n : ℕ}
    {M : ℕ → Mark → Mark → Prop}
    {is : List ℕ} (hat : p.At rows is) (hn : ∀ i ∈ is, i < n)
    (htext : ∀ n ∈ p.it, n.base ≤ n.bound ∧ n.bound ≤ p.swp.length) (hok : ∀ c, p.ok c = true)
    (ht : TracksAll g τ fileId M s.table) (ha : AdmitsAll g τ is (idAt rows) M)
    (hfile : s.backing = flat g τ n) :
    p.run zero fileId s =
        ⟨flat g (override (p.patch rows) is τ) n, resizedTable fileId p.it s.table⟩ ∧
      TracksAll g (override (p.patch rows) is τ) fileId M (resizedTable fileId p.it s.table) := by
  have hswp : ∀ i ∈ is, (p.node (idAt rows i)).base ≤ (p.node (idAt rows i)).bound ∧
      (p.node (idAt rows i)).bound ≤ p.swp.length ∧
      p.patch rows i = p.swp.slice (p.node (idAt rows i)).base (p.node (idAt rows i)).bound :=
    fun i hi => ⟨(htext _ (hat.mem i hi)).1, (htext _ (hat.mem i hi)).2, rfl⟩
  obtain ⟨h1, h2, h3, -⟩ := resize_patches (P := fun _ _ => True) (fun _ _ _ _ _ => trivial)
    hat.sorted hn hat.id hswp ht ha trivial
  rw [hat.nodes] at h2 h3
  obtain ⟨backing, table'⟩ := s
  obtain rfl := hfile
  refine ⟨?_, h3⟩
  rw [Push.run_eq (queryResizeFile_ok zero hok h1 h2), replaceSpans_flat_zero hat.sorted hn]

/-- A push that succeeds overrides the patches of its regions. -/
theorem Push.write_eq_override (hs : p.Succeeds) {is : List ℕ} (hat : p.At rows is)
    (h : RowsOk fileId F.length table rows) (hi : i < rows.length) :
    override (p.patch rows) is (regionPatches rows t) i = regionPatches rows (p.write t) i := by
  have hfind : (p.it.find? fun n => n.id = idAt rows i).isSome ↔ i ∈ is := by
    rw [List.find?_isSome]
    constructor
    · rintro ⟨n, hn, hid⟩
      rw [decide_eq_true_eq] at hid
      have hmem : n.id ∈ is.map (idAt rows) := hat.ids ▸ List.mem_map_of_mem hn
      obtain ⟨k, hk, hid'⟩ := List.mem_map.1 hmem
      rwa [← h.idAt_inj (hat.lt k hk) hi (hid'.trans hid)]
    · intro hmem
      exact ⟨_, hat.mem i hmem, decide_eq_true (hat.id i hmem)⟩
  simp only [regionPatches, Push.write, if_pos hs, Push.text]
  cases hf : p.it.find? fun n => decide (n.id = idAt rows i) with
  | none =>
      have hnot : i ∉ is := fun hmem => by
        have := hfind.2 hmem
        rw [hf] at this
        cases this
      rw [override_of_notMem hnot]
      rfl
  | some n =>
      have hmem : i ∈ is := hfind.1 (by rw [hf]; rfl)
      rw [override_of_mem hmem, Push.patch, Push.node, hf]
      rfl

/-- A push that fails leaves the stores alone. -/
theorem Push.run_of_fail (zero : β) (hs : ¬ p.Succeeds) : p.run zero fileId s = s := by
  obtain ⟨F, table⟩ := s
  unfold Push.Succeeds at hs
  have hout : queryResizeFile p.ok zero fileId p.it p.swp ⟨F, table⟩ = some (-1, ⟨F, table⟩) := by
    rw [queryResizeFile_arrives, if_neg p.defined, if_neg hs]
  exact Push.run_eq hout

/-- **One push refines the replacement of its regions.** -/
theorem Shows.push (h : RowsOk fileId F.length table rows) (hp : PushOk rows t p)
    (hsh : Shows fileId F table rows t s) :
    Shows fileId F table rows (p.write t) (p.run zero fileId s) := by
  by_cases hs : p.Succeeds
  · obtain ⟨is, hat⟩ := Push.exists_at h hp.ids
    have hshown : ∀ i ∈ is, regionPatches rows t i ≠ [] := fun i hi => by
      have := hp.shown hs _ (hat.mem i hi)
      rwa [hat.id i hi] at this
    obtain ⟨hrun, htracks⟩ := Push.run_patches zero hat hat.lt hp.text (hp.calls hs)
      hsh.tracks (admitsAll_regions h hat.lt hshown) hsh.file
    have hwrite : ∀ i < rows.length, override (p.patch rows) is (regionPatches rows t) i =
        regionPatches rows (p.write t) i := fun i hi => p.write_eq_override hs hat h hi
    rw [hrun]
    exact ⟨flat_congr hwrite, tracksAll_congr hwrite htracks⟩
  · have hwrite : p.write t = t := by
      funext id
      exact if_neg hs
    rw [Push.run_of_fail zero hs, hwrite]
    exact hsh

/-! ## Runs -/

theorem Shows.run (h : RowsOk fileId F.length table rows) (hsh : Shows fileId F table rows t s)
    (hps : PushesOk rows t ps) :
    Shows fileId F table rows (ps.foldl Push.write t) (runPushes zero fileId s ps) := by
  induction ps generalizing t s with
  | nil => exact hsh
  | cons p ps ih => exact ih (hsh.push h hps.1) hps.2

/-- Each region is where its text is. -/
theorem Shows.region (hsh : Shows fileId F table rows t s) {r : OffsetRow} (hr : r ∈ rows) :
    ∃ r', rowOf s.table r.offsetId = some r' ∧
      s.backing.slice r'.base r'.bound = t r.offsetId := by
  have hi := List.idxOf_lt_length_of_mem hr
  have hid : idAt rows (rows.idxOf r) = r.offsetId := by rw [idAt_of_lt hi, List.getElem_idxOf]
  obtain ⟨r', hr', _, hb⟩ := hsh.tracks _ _ _ (regionMarks_region hi)
  refine ⟨r', hid ▸ hr', ?_⟩
  rw [hb.base, hb.bound, Mark.pos_atStart, Mark.pos_atStop, hsh.file, flat_slice_patch hi,
    regionPatches, hid]

/-- The file is the initial one with the regions' texts in place. -/
theorem Shows.file_eq (h : RowsOk fileId F.length table rows)
    (hsh : Shows fileId F table rows t s) :
    s.backing = replaceSpans F 0 (rows.map fun r => ⟨r.base, r.bound, t r.offsetId⟩) := by
  have hspans : spans (gaps F rows) (patches F rows) (regionPatches rows t)
      (List.range rows.length) = rows.map fun r => ⟨r.base, r.bound, t r.offsetId⟩ := by
    refine List.ext_getElem (by simp [spans]) fun i hi _ => ?_
    have hi : i < rows.length := by simpa [spans] using hi
    simp only [spans, List.getElem_map, List.getElem_range, h.start_eq hi, h.stop_eq hi,
      regionPatches, idAt_of_lt hi]
  rw [← hspans]
  have hflat := replaceSpans_flat_zero (g := gaps F rows) (τ := patches F rows)
    (d := regionPatches rows t) (List.pairwise_lt_range (n := rows.length))
    fun i => List.mem_range.1
  rw [h.flat_eq] at hflat
  rw [hflat, hsh.file]
  exact flat_congr fun i hi => (override_of_mem (List.mem_range.2 hi)).symm

/-- A row apart from all regions keeps its text. -/
theorem Shows.apart (h : RowsOk fileId F.length table rows) (hne : ∀ r ∈ rows, r.base < r.bound)
    (hsh : Shows fileId F table rows t s) {id : ℕ} {r : OffsetRow} (hr : rowOf table id = some r)
    (hf : r.fileId = fileId) (hlt : r.base < r.bound) (hin : r.bound ≤ F.length)
    (hap : ∀ q ∈ rows, r.Apart q) :
    ∃ r', rowOf s.table id = some r' ∧
      s.backing.slice r'.base r'.bound = F.slice r.base r.bound := by
  have hdis : ∀ q ∈ rows, r.bound ≤ q.base ∨ q.bound ≤ r.base := fun q hq =>
    (hap q hq).cases (hne q hq) hlt
  have hother : ∀ q ∈ rows, q.offsetId ≠ id := by
    intro q hq hid
    have hrow := h.row q hq
    rw [hid, hr, Option.some.injEq] at hrow
    have := hdis q hq
    rw [hrow] at this
    have := hne q hq
    omega
  obtain ⟨hlo, hpos⟩ := h.markAt_pos (Nat.le_trans hlt.le hin) fun q hq => by
    have := hdis q hq
    have := hne q hq
    omega
  obtain ⟨hhi, hpos'⟩ := h.markAt_pos hin fun q hq => by
    have := hdis q hq
    have := hne q hq
    omega
  obtain ⟨r', hr', _, hb⟩ := hsh.tracks _ _ _
    (Or.inr ⟨hother, ⟨r, hr, hf, hpos.symm, hpos'.symm⟩, hlo, hhi⟩)
  refine ⟨r', hr', ?_⟩
  -- before and after the pushes the row cuts a piece out of the same gap
  have hgap := markAt_gap_eq hne hlt.le hdis
  have hbefore := flat_slice_gap (τ := patches F rows) hhi hgap
  rw [hpos, hpos', h.flat_eq] at hbefore
  rw [hb.base, hb.bound, hbefore, hsh.file]
  exact flat_slice_gap hhi hgap

/-- **A file of regions.**  Whatever the order of the pushes and the sizes of their texts, and
however often a region is pushed: each region shows the text that was last pushed to it, the rest of
the file is as it was, and so is the text of every row apart from the regions. -/
theorem runPushes_shows (h : RowsOk fileId F.length table rows)
    (hne : ∀ r ∈ rows, r.base < r.bound) (hps : PushesOk rows (contents F table) ps) :
    let out := runPushes zero fileId ⟨F, table⟩ ps
    let t := ps.foldl Push.write (contents F table)
    (∀ r ∈ rows, ∃ r', rowOf out.table r.offsetId = some r' ∧
      out.backing.slice r'.base r'.bound = t r.offsetId) ∧
    out.backing = replaceSpans F 0 (rows.map fun r => ⟨r.base, r.bound, t r.offsetId⟩) ∧
    ∀ id r, rowOf table id = some r → r.fileId = fileId → r.base < r.bound → r.bound ≤ F.length →
      (∀ q ∈ rows, r.Apart q) → ∃ r', rowOf out.table id = some r' ∧
        out.backing.slice r'.base r'.bound = F.slice r.base r.bound := by
  intro out t
  have hsh : Shows fileId F table rows t out := (Shows.start h).run h hps
  exact ⟨fun r hr => hsh.region hr, hsh.file_eq h, fun id r hr hf hlt hin hap =>
    hsh.apart h hne hr hf hlt hin hap⟩

/-- Two touching regions; the second is pushed twice, and a push of the first in between fails at
its first `UPDATE`. -/
theorem runPushes_shows_again :
    let table : List OffsetRow := [⟨1, 5, 0, 0, 2, false⟩, ⟨2, 5, 1, 2, 3, false⟩]
    let ps : List (Push ℕ) := [⟨fun _ => true, [⟨2, 0, 3⟩], [7, 8, 9], by decide⟩,
      ⟨fun c => c ≠ .update 0, [⟨1, 0, 0⟩], [], by decide⟩,
      ⟨fun _ => true, [⟨1, 0, 1⟩, ⟨2, 1, 2⟩], [6, 7], by decide⟩]
    (runPushes 0 5 ⟨[1, 2, 3, 4], table⟩ ps).backing = [6, 7, 4] := by
  intro table ps
  have hrows : RowsOk 5 [1, 2, 3, 4].length table table := by
    refine ⟨⟨?_, ?_, ?_, ?_⟩, ?_⟩
    all_goals decide
  refine (runPushes_shows hrows ?_ ?_).2.1
  · decide
  · refine ⟨⟨by decide, by decide, fun _ _ => rfl, fun _ => by decide⟩,
      ⟨by decide, by decide, fun h => absurd h (by decide), fun h => absurd h (by decide)⟩,
      ⟨by decide, by decide, fun _ _ => rfl, fun _ => by decide⟩, trivial⟩

/-- An emptied region that is pushed again: the region in front of it grows over the new text. -/
example :
    let table : List OffsetRow := [⟨1, 5, 0, 0, 2, false⟩, ⟨2, 5, 1, 2, 3, false⟩]
    let out := runPushes 0 5 ⟨[1, 2, 3, 4], table⟩
      [⟨fun _ => true, [⟨2, 0, 0⟩], [], by decide⟩, ⟨fun _ => true, [⟨2, 0, 1⟩], [9], by decide⟩]
    rowOf out.table 1 = some ⟨1, 5, 0, 0, 3, false⟩ ∧ out.backing.slice 0 3 = [1, 2, 9] := by
  decide

end Yacet
