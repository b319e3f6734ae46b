import Yacet.Moves

/-!
# Pushes of several sessions in any order

* `Job` — a session whose texts are in its swap file; `pushAll` pushes a list of them.
* `jobRows` — all rows the jobs edit, in ascending order; they cut the file into one patchwork, and
  every push is an override of its own patches (`pushAll_run`).
* `pushAll_perm_inside` — overrides of different patches commute.
* `pushAll_table` — the rows do not depend on the file: they move as they would in a longer one.
* `pushAll_perm` — **the positions of the edited rows and of the rows apart from them do not depend
  on the order, and neither does the file, if the edited rows end inside it**.
* `pushAll_perm_outside` — behind the end of the file the order of the texts is that of the pushes.
-/

namespace Yacet

open Patchwork

variable {β : Type*}

/-- A session ready to push. -/
structure Job (β : Type*) where
  edits : List Edit
  swp : List β

/-- `query_resize_file` for one session. -/
def Job.push (ok : Call → Bool) (zero : β) (fileId : ℕ) (s : Stores β) (j : Job β) :
    Option (Stores β) :=
  (queryResizeFile ok zero fileId (j.edits.map Edit.node) j.swp s).map Prod.snd

def pushAll (ok : Call → Bool) (zero : β) (fileId : ℕ) (s : Stores β) (jobs : List (Job β)) :
    Option (Stores β) :=
  jobs.foldlM (Job.push ok zero fileId) s

/-- The rows of two edits do not overlap. -/
def EditsApart (d e : Edit) : Prop := d.row.bound ≤ e.row.base ∨ e.row.bound ≤ d.row.base

/-- Every job is a proper push, and no two edit overlapping rows. -/
structure JobsOk (fileId : ℕ) (table : List OffsetRow) (jobs : List (Job β)) : Prop where
  each : ∀ j ∈ jobs, EditsListed fileId table j.swp j.edits
  nonempty : ∀ j ∈ jobs, ∀ e ∈ j.edits, e.row.base < e.row.bound
  apart : jobs.Pairwise fun j k => ∀ d ∈ j.edits, ∀ e ∈ k.edits, EditsApart d e

/-- The edited rows end inside a file of length `L`. -/
def JobsInside (L : ℕ) (jobs : List (Job β)) : Prop :=
  ∀ j ∈ jobs, ∀ e ∈ j.edits, e.row.bound ≤ L

/-- All edited rows, in ascending order. -/
def jobRows (jobs : List (Job β)) : List OffsetRow :=
  (jobs.flatMap fun j => j.edits.map Edit.row).insertionSort fun r s => r.base ≤ s.base

variable {fileId : ℕ} {F : List β} {table rows : List OffsetRow} {jobs : List (Job β)}

theorem mem_jobRows {r : OffsetRow} :
    r ∈ jobRows jobs ↔ ∃ j ∈ jobs, ∃ e ∈ j.edits, e.row = r := by
  simp only [jobRows, List.mem_insertionSort, List.mem_flatMap, List.mem_map]

theorem JobsOk.jobRows_nonempty (h : JobsOk fileId table jobs) :
    ∀ r ∈ jobRows jobs, r.base < r.bound := fun r hr => by
  obtain ⟨j, hj, e, he, rfl⟩ := mem_jobRows.1 hr
  exact h.nonempty j hj e he

theorem JobsOk.rowsOk {L : ℕ} (h : JobsOk fileId table jobs) (hin : JobsInside L jobs) :
    RowsOk fileId L table (jobRows jobs) := by
  have hmem : ∀ r ∈ jobRows jobs, rowOf table r.offsetId = some r ∧ r.fileId = fileId ∧
      r.base ≤ r.bound ∧ r.bound ≤ L := fun r hr => by
    obtain ⟨j, hj, e, he, rfl⟩ := mem_jobRows.1 hr
    have hrows := (h.each j hj).rows
    have her : e.row ∈ j.edits.map Edit.row := List.mem_map_of_mem he
    exact ⟨hrows.row _ her, hrows.file _ her, hrows.le _ her, hin j hj e he⟩
  refine ⟨⟨fun r hr => (hmem r hr).1, fun r hr => (hmem r hr).2.1, fun r hr => (hmem r hr).2.2.1,
    ?_⟩, fun r hr => (hmem r hr).2.2.2⟩
  have hne : ∀ r ∈ jobs.flatMap fun j => j.edits.map Edit.row, r.base < r.bound := by
    intro r hr
    exact h.jobRows_nonempty r ((List.mem_insertionSort _).2 hr)
  refine precedes_insertionSort hne ?_
  rw [List.pairwise_flatMap]
  refine ⟨fun j hj => (h.each j hj).rows.ascending.imp fun hrs => Or.inl hrs.1, ?_⟩
  refine h.apart.imp fun {j k} hjk r hr s hs => ?_
  obtain ⟨d, hd, rfl⟩ := List.mem_map.1 hr
  obtain ⟨e, he, rfl⟩ := List.mem_map.1 hs
  exact hjk d hd e he

/-- The patches after a job. -/
def Job.edit (rows : List OffsetRow) (τ : ℕ → List β) (j : Job β) : ℕ → List β :=
  override (textAt j.swp rows j.edits) (places rows j.edits) τ

/-- What a job needs of the patchwork of all edited rows. -/
structure Job.Fits (rows : List OffsetRow) (j : Job β) : Prop where
  sub : ∀ e ∈ j.edits, e.row ∈ rows
  ascending : j.edits.Pairwise fun d e => d.row.Precedes e.row
  id : ∀ e ∈ j.edits, e.node.id = e.row.offsetId
  text : ∀ e ∈ j.edits, e.node.base ≤ e.node.bound ∧ e.node.bound ≤ j.swp.length

/-- **A run of pushes on the patchwork**: each row is pushed while it still holds its text. -/
theorem pushAll_run {ok : Call → Bool} (zero : β) (hok : ∀ c, ok c = true)
    (h : RowsOk fileId F.length table rows) {τ : ℕ → List β} {table' : List OffsetRow}
    (hfit : ∀ j ∈ jobs, j.Fits rows)
    (hplaces : jobs.Pairwise fun j k => ∀ i ∈ places rows j.edits, i ∉ places rows k.edits)
    (hτ : ∀ j ∈ jobs, ∀ i ∈ places rows j.edits, τ i = patches F rows i)
    (ht : TracksAll (gaps F rows) τ fileId (RowMarks fileId F table rows) table') :
    ∃ table'', pushAll ok zero fileId ⟨flat (gaps F rows) τ rows.length, table'⟩ jobs =
        some ⟨flat (gaps F rows) (jobs.foldl (Job.edit rows) τ) rows.length, table''⟩ ∧
      TracksAll (gaps F rows) (jobs.foldl (Job.edit rows) τ) fileId
        (RowMarks fileId F table rows) table'' := by
  induction jobs generalizing τ table' with
  | nil => exact ⟨table', rfl, ht⟩
  | cons j jobs ih =>
      obtain ⟨hhead, hplaces⟩ := List.pairwise_cons.1 hplaces
      obtain ⟨hsub, hasc, hid, htext⟩ := hfit j List.mem_cons_self
      obtain ⟨hrun, ht', -⟩ := push_edits (P := fun _ _ => True) h hsub hasc zero
        (fun _ _ _ _ _ _ => trivial) hok hid htext
        (fun e he => hτ j List.mem_cons_self _ (List.mem_map_of_mem he)) ht trivial
      obtain ⟨table'', h1, h2⟩ := ih (τ := j.edit rows τ)
        (fun k hk => hfit k (List.mem_cons_of_mem _ hk)) hplaces
        (fun k hk i hi => by
          -- the job just pushed has left the patches of the others alone
          have hnot : i ∉ places rows j.edits := fun hij => hhead k hk i hij hi
          rw [Job.edit, override_of_notMem hnot]
          exact hτ k (List.mem_cons_of_mem _ hk) i hi) ht'
      refine ⟨table'', ?_, h2⟩
      rw [pushAll, List.foldlM_cons, Job.push, hrun]
      exact h1

theorem Job.edit_comm {j k : Job β} (hjk : ∀ i ∈ places rows j.edits, i ∉ places rows k.edits)
    (τ : ℕ → List β) : k.edit rows (j.edit rows τ) = j.edit rows (k.edit rows τ) := by
  funext i
  simp only [Job.edit]
  by_cases hj : i ∈ places rows j.edits
  · rw [override_of_notMem (hjk i hj), override_of_mem hj, override_of_mem hj]
  · rw [override_of_notMem hj]
    by_cases hk : i ∈ places rows k.edits
    · rw [override_of_mem hk, override_of_mem hk]
    · rw [override_of_notMem hk, override_of_notMem hk, override_of_notMem hj]

theorem JobsOk.fits (h : JobsOk fileId table jobs) :
    ∀ j ∈ jobs, j.Fits (jobRows jobs) := fun j hj => by
  obtain ⟨hrows, hid, htext⟩ := h.each j hj
  exact ⟨fun e he => mem_jobRows.2 ⟨j, hj, e, he, rfl⟩, List.pairwise_map.1 hrows.ascending, hid,
    htext⟩

theorem JobsOk.places_disjoint (h : JobsOk fileId table jobs) :
    jobs.Pairwise fun j k =>
      ∀ i ∈ places (jobRows jobs) j.edits, i ∉ places (jobRows jobs) k.edits := by
  refine h.apart.imp_of_mem fun {j k} hj hk hjk i hij hik => ?_
  obtain ⟨d, hd, rfl⟩ := List.mem_map.1 hij
  obtain ⟨e, he, heq⟩ := List.mem_map.1 hik
  have hrow : e.row = d.row := by
    have h1 := List.getElem_idxOf (List.idxOf_lt_length_of_mem ((h.fits j hj).sub d hd))
    have h2 := List.getElem_idxOf (List.idxOf_lt_length_of_mem ((h.fits k hk).sub e he))
    rw [← h1, ← h2]
    simp only [heq]
  have hne := h.nonempty j hj d hd
  have := hjk d hd e he
  rw [EditsApart, hrow] at this
  omega

/-- Pushes of rows that end inside the file commute. -/
theorem pushAll_perm_inside {ok : Call → Bool} (zero : β) (hok : ∀ c, ok c = true)
    {jobs' : List (Job β)} (h : JobsOk fileId table jobs) (hin : JobsInside F.length jobs)
    (hp : jobs.Perm jobs') :
    ∃ out out', pushAll ok zero fileId ⟨F, table⟩ jobs = some out ∧
      pushAll ok zero fileId ⟨F, table⟩ jobs' = some out' ∧ out.backing = out'.backing ∧
      ∀ id r, rowOf table id = some r → r.fileId = fileId →
        ((∃ j ∈ jobs, ∃ e ∈ j.edits, e.row = r) ∨ (r.base ≤ r.bound ∧ r.bound ≤ F.length ∧
          ∀ j ∈ jobs, ∀ e ∈ j.edits, r.bound ≤ e.row.base ∨ e.row.bound ≤ r.base)) →
        ∃ s s', rowOf out.table id = some s ∧ rowOf out'.table id = some s' ∧
          s.base = s'.base ∧ s.bound = s'.bound := by
  have hrows := h.rowsOk hin
  have hne := h.jobRows_nonempty
  have hdisj := h.places_disjoint
  have hfit := h.fits
  have hfrom : ∀ r, r ∈ jobRows jobs → ∃ j ∈ jobs, ∃ e ∈ j.edits, e.row = r :=
    fun r => mem_jobRows.1
  have hto : ∀ j ∈ jobs, ∀ e ∈ j.edits, e.row ∈ jobRows jobs :=
    fun j hj e he => mem_jobRows.2 ⟨j, hj, e, he, rfl⟩
  generalize jobRows jobs = rows at hrows hne hdisj hfit hfrom hto
  have hmem : ∀ j, j ∈ jobs' → j ∈ jobs := fun j => hp.mem_iff.2
  obtain ⟨T, h1, ht⟩ := pushAll_run zero hok hrows hfit hdisj
    (fun _ _ _ _ => rfl) (tracksAll_rows hrows)
  obtain ⟨T', h1', ht'⟩ := pushAll_run zero hok hrows
    (fun j hj => hfit j (hmem j hj))
    ((hp.pairwise_iff fun h i hi hj => h i hj hi).1 hdisj) (fun _ _ _ _ => rfl)
    (tracksAll_rows hrows)
  have hcomm : jobs.foldl (Job.edit rows) (patches F rows) =
      jobs'.foldl (Job.edit rows) (patches F rows) := by
    refine hp.foldl_eq' ?_ _
    have hsymm : Std.Symm fun j k : Job β =>
        ∀ τ, k.edit rows (j.edit rows τ) = j.edit rows (k.edit rows τ) :=
      ⟨fun _ _ hjk τ => (hjk τ).symm⟩
    exact fun j hj k hk => (hdisj.imp fun hjk τ => Job.edit_comm hjk τ).forall_of_forall
      (fun _ _ _ => rfl) hj hk
  rw [hrows.flat_eq] at h1 h1'
  rw [hcomm] at h1 ht
  refine ⟨_, _, h1, h1', rfl, fun id r hr hf hcase => ?_⟩
  obtain ⟨lo, hi, hM⟩ : ∃ lo hi, RowMarks fileId F table rows id lo hi := by
    by_cases hmem : ∃ s ∈ rows, s.offsetId = id
    · obtain ⟨s, hs, rfl⟩ := hmem
      exact ⟨_, _, rowMarks_edited hs⟩
    · rcases hcase with ⟨j, hj, e, he, rfl⟩ | ⟨hle, hin, hdis⟩
      · exact absurd ⟨e.row, hto j hj e he, (rowOf_some hr).2⟩ hmem
      · have hdis' : ∀ s ∈ rows, r.bound ≤ s.base ∨ s.bound ≤ r.base := fun s hs => by
          obtain ⟨j, hj, e, he, rfl⟩ := hfrom s hs
          exact hdis j hj e he
        refine ⟨_, _, hrows.rowMarks_other hne hr hf (fun s hs hid => hmem ⟨s, hs, hid⟩) hle hin
          (fun s hs => ?_) fun s hs => ?_⟩
        all_goals
          have := hdis' s hs
          omega
  obtain ⟨s, hs, _, hs1⟩ := ht id lo hi hM
  obtain ⟨s', hs', _, hs1'⟩ := ht' id lo hi hM
  exact ⟨s, s', hs, hs', hs1.base.trans hs1'.base.symm, hs1.bound.trans hs1'.bound.symm⟩

theorem Job.push_ok {ok : Call → Bool} (zero : β) (hok : ∀ c, ok c = true) (fileId : ℕ)
    (F : List β) (table : List OffsetRow) (j : Job β) :
    ∃ F', j.push ok zero fileId ⟨F, table⟩ =
      some ⟨F', resizedTable fileId (j.edits.map Edit.node) table⟩ := by
  have hchecked := checkedOk_of_ok hok (j.edits.map Edit.node).length
  rw [Job.push, queryResizeFile_arrives, if_neg hchecked.defined, if_pos hchecked]
  simp only [hok, if_true, Option.map_some]
  exact ⟨_, rfl⟩

/-- The rows move in every file alike. -/
theorem pushAll_table {ok : Call → Bool} (zero : β) (hok : ∀ c, ok c = true) (fileId : ℕ)
    (jobs : List (Job β)) (F F' : List β) (table : List OffsetRow) :
    ∃ G G' table', pushAll ok zero fileId ⟨F, table⟩ jobs = some ⟨G, table'⟩ ∧
      pushAll ok zero fileId ⟨F', table⟩ jobs = some ⟨G', table'⟩ := by
  induction jobs generalizing F F' table with
  | nil => exact ⟨F, F', table, rfl, rfl⟩
  | cons j jobs ih =>
      obtain ⟨F₁, h₁⟩ := Job.push_ok zero hok fileId F table j
      obtain ⟨F₂, h₂⟩ := Job.push_ok zero hok fileId F' table j
      simp only [pushAll, List.foldlM_cons, h₁, h₂]
      exact ih F₁ F₂ _

theorem exists_jobsInside (jobs : List (Job β)) (n : ℕ) : ∃ L, n ≤ L ∧ JobsInside L jobs := by
  obtain ⟨L, hL⟩ :=
    (n :: jobs.flatMap fun j => j.edits.map fun e => e.row.bound).toFinset.exists_le
  simp only [List.mem_toFinset] at hL
  refine ⟨L, hL n List.mem_cons_self, fun j hj e he => hL _ (List.mem_cons_of_mem _ ?_)⟩
  exact List.mem_flatMap.2 ⟨j, hj, List.mem_map_of_mem he⟩

/-- **Pushes commute**: in every order they give the same positions to every edited row and to every
row apart from all edited rows, and the same file, if the edited rows end inside it. -/
theorem pushAll_perm {ok : Call → Bool} (zero : β) (hok : ∀ c, ok c = true) {jobs' : List (Job β)}
    (h : JobsOk fileId table jobs) (hp : jobs.Perm jobs') :
    ∃ out out', pushAll ok zero fileId ⟨F, table⟩ jobs = some out ∧
      pushAll ok zero fileId ⟨F, table⟩ jobs' = some out' ∧
      (JobsInside F.length jobs → out.backing = out'.backing) ∧
      ∀ id r, rowOf table id = some r → r.fileId = fileId →
        ((∃ j ∈ jobs, ∃ e ∈ j.edits, e.row = r) ∨ (r.base ≤ r.bound ∧
          ∀ j ∈ jobs, ∀ e ∈ j.edits, r.bound ≤ e.row.base ∨ e.row.bound ≤ r.base)) →
        ∃ s s', rowOf out.table id = some s ∧ rowOf out'.table id = some s' ∧
          s.base = s'.base ∧ s.bound = s'.bound := by
  obtain ⟨G, -, T, hrun, -⟩ := pushAll_table zero hok fileId jobs F F table
  obtain ⟨G', -, T', hrun', -⟩ := pushAll_table zero hok fileId jobs' F F table
  refine ⟨_, _, hrun, hrun', fun hin => ?_, fun id r hr hf hcase => ?_⟩
  · obtain ⟨out, out', h1, h2, hfile, -⟩ := pushAll_perm_inside zero hok h hin hp
    rw [hrun] at h1
    rw [hrun'] at h2
    rw [Option.some.inj h1, Option.some.inj h2]
    exact hfile
  · -- the rows move as in a file that is long enough for all of them
    obtain ⟨L, hL, hin⟩ := exists_jobsInside jobs r.bound
    have hlen : (List.replicate L zero).length = L := List.length_replicate
    obtain ⟨out, out', h1, h2, -, hrows⟩ := pushAll_perm_inside (F := List.replicate L zero) zero
      hok h (by rwa [hlen]) hp
    obtain ⟨_, _, T₁, e1, e1'⟩ := pushAll_table zero hok fileId jobs F (List.replicate L zero) table
    obtain ⟨_, _, T₂, e2, e2'⟩ :=
      pushAll_table zero hok fileId jobs' F (List.replicate L zero) table
    rw [hrun] at e1
    rw [hrun'] at e2
    rw [h1] at e1'
    rw [h2] at e2'
    cases e1
    cases e2
    cases e1'
    cases e2'
    exact hrows id r hr hf (hcase.imp_right fun hother => ⟨hother.1, by omega, hother.2⟩)

/-- Two sessions with interleaved touching rows, one of which empties its row. -/
theorem pushAll_perm_interleaved :
    let table : List OffsetRow :=
      [⟨1, 5, 0, 0, 2, false⟩, ⟨2, 5, 1, 2, 3, false⟩, ⟨3, 5, 0, 3, 4, false⟩]
    let j : Job ℕ := ⟨[⟨⟨1, 5, 0, 0, 2, false⟩, ⟨1, 0, 1⟩⟩, ⟨⟨3, 5, 0, 3, 4, false⟩, ⟨3, 1, 3⟩⟩],
      [7, 8, 9]⟩
    let k : Job ℕ := ⟨[⟨⟨2, 5, 1, 2, 3, false⟩, ⟨2, 0, 0⟩⟩], []⟩
    ∃ out out', pushAll (fun _ => true) 0 5 ⟨[1, 2, 3, 4], table⟩ [j, k] = some out ∧
      pushAll (fun _ => true) 0 5 ⟨[1, 2, 3, 4], table⟩ [k, j] = some out' ∧
      out.backing = out'.backing := by
  intro table j k
  have hjobs : JobsOk 5 table [j, k] := by
    refine ⟨?_, by simp [j, k], by simp [EditsApart, j, k]⟩
    rintro i hi
    simp only [List.mem_cons, List.not_mem_nil, or_false] at hi
    rcases hi with rfl | rfl
    · exact ⟨⟨by decide, by decide, by decide, by decide⟩, by decide, by decide⟩
    · exact ⟨⟨by decide, by decide, by decide, by decide⟩, by decide, by decide⟩
  have hok : ∀ c : Call, (fun _ => true : Call → Bool) c = true := fun _ => rfl
  obtain ⟨out, out', h1, h2, hfile, -⟩ :=
    pushAll_perm (F := [1, 2, 3, 4]) 0 hok hjobs (List.Perm.swap _ _ _)
  exact ⟨out, out', h1, h2, hfile (by simp [JobsInside, j, k])⟩

/-- Rows that end behind the end of the file: the push of the one in front drops the text that has
been put behind it.  A third row, with its `Base` behind its `Bound`, ends elsewhere too. -/
theorem pushAll_perm_outside :
    let table : List OffsetRow :=
      [⟨1, 5, 0, 1, 4, false⟩, ⟨2, 5, 1, 4, 5, false⟩, ⟨3, 5, 2, 3, 0, false⟩]
    let j : Job ℕ := ⟨[⟨⟨1, 5, 0, 1, 4, false⟩, ⟨1, 0, 0⟩⟩], []⟩
    let k : Job ℕ := ⟨[⟨⟨2, 5, 1, 4, 5, false⟩, ⟨2, 0, 2⟩⟩], [80, 81]⟩
    JobsOk 5 table [j, k] ∧
    ∃ out out', pushAll (fun _ => true) 0 5 ⟨[10, 11], table⟩ [j, k] = some out ∧
      pushAll (fun _ => true) 0 5 ⟨[10, 11], table⟩ [k, j] = some out' ∧
      out.backing = [10, 80, 81] ∧ out'.backing = [10] ∧
      (rowOf out.table 3).map OffsetRow.base = some 4 ∧
      (rowOf out'.table 3).map OffsetRow.base = some 3 := by
  intro table j k
  refine ⟨⟨?_, by simp [j, k], by simp [EditsApart, j, k]⟩,
    ⟨[10, 80, 81], [⟨1, 5, 0, 1, 1, true⟩, ⟨2, 5, 1, 1, 3, false⟩, ⟨3, 5, 2, 4, 0, true⟩]⟩,
    ⟨[10], [⟨1, 5, 0, 1, 1, false⟩, ⟨2, 5, 1, 1, 3, true⟩, ⟨3, 5, 2, 3, 0, true⟩]⟩,
    by decide +kernel, by decide +kernel, rfl, rfl, rfl, rfl⟩
  rintro i hi
  simp only [List.mem_cons, List.not_mem_nil, or_false] at hi
  rcases hi with rfl | rfl
  · exact ⟨⟨by decide, by decide, by decide, by decide⟩, by decide, by decide⟩
  · exact ⟨⟨by decide, by decide, by decide, by decide⟩, by decide, by decide⟩

end Yacet
