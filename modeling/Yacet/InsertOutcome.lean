import Yacet.RangeStore

/-!
# Storing a range when statements fail (`sql.c`)

`query_insert_named_range` takes every failed statement for a reason to roll back, but two: an
`INSERT INTO Offset` that fails is reported and skipped, and an `INSERT INTO File` that fails is
taken to have met the path in the table.

* `queryInsertNamedRange` — the transaction under any outcome of its statements.
* `keptFiles` — the range without the intervals that were skipped; `filedPaths` — the paths under
  which the files are filed: their own, or, where the path did not get into the table, that of the
  file before.
* `insertFiles_inserted` — the loop stores exactly that, if it comes to its end.
* `insert_outcomes` — **the transaction changes no table, or adds the kept intervals under those
  paths**; it never changes another range.
-/

namespace Yacet

namespace InsertRange

/-- The calls of `query_insert_named_range`; file `i`, its interval `k`. -/
inductive Call
  | prepare
  | startTransaction
  | insertName
  | insertFile (i : ℕ)
  | selectFile (i : ℕ)
  | storeFile (i : ℕ)
  | fetchFile (i : ℕ)
  | insertJunction (i : ℕ)
  | insertOffset (i k : ℕ)
  | setInit
  | commit
  deriving DecidableEq, Repr

variable (ok : Call → Bool)

/-- The statements on `File`, with `fileId` still holding what it held before; `none` is `goto
fail`. A refused `INSERT` uses up an id as well. -/
def insertFile (i fileId : ℕ) (db : Db) (filePath : Text) : Db × Option ℕ :=
  let refused := { db with nextFileId := db.nextFileId + 1 }
  let selected := ok (.selectFile i) && ok (.storeFile i) && ok (.fetchFile i)
  match db.file.find? fun f => f.filePath = filePath with
  | some f => (refused, if selected then some f.fileId else none)
  | none =>
    if ok (.insertFile i) then
      ({ refused with file := db.file ++ [⟨db.nextFileId, filePath⟩] }, some db.nextFileId)
    -- the `SELECT` returns no row, and the variable keeps its value
    else (refused, if selected then some fileId else none)

/-- The loop over the intervals of file `i`. -/
def insertOffsets (rangeId fileId i : ℕ) : ℕ → Db → List ItNode → Db
  | _, db, [] => db
  | k, db, n :: ns =>
    insertOffsets rangeId fileId i (k + 1)
      (if ok (.insertOffset i k) then db.insertOffset rangeId fileId n else db) ns

/-- `INSERT INTO RangeFileJunction`; `FileId` references `File`. -/
def insertJunction (rangeId fileId i : ℕ) (db : Db) : Option Db :=
  if ok (.insertJunction i) ∧ ∃ f ∈ db.file, f.fileId = fileId then
    some { db with rangeFileJunction := db.rangeFileJunction ++ [⟨rangeId, fileId⟩] }
  else none

/-- The loop over the files, from file `i` on: the tables, the ids that the files get, and whether
it has come to its end. -/
def insertFiles (rangeId : ℕ) : ℕ → ℕ → Db → List NamedFile → Db × List ℕ × Bool
  | _, _, db, [] => (db, [], true)
  | i, fileId, db, f :: fs =>
    match insertFile ok i fileId db f.filePath with
    | (db, none) => (db, [], false)
    | (db, some fileId) =>
      match insertJunction ok rangeId fileId i db with
      | none => (db, [fileId], false)
      | some db =>
        let (db, ids, done) :=
          insertFiles rangeId (i + 1) fileId (insertOffsets ok rangeId fileId i 0 db f.it) fs
        (db, fileId :: ids, done)

/-- The tables as they were; ids that have been used up stay so. -/
def rollback (db db' : Db) : Db :=
  { db' with
    rangeName := db.rangeName
    file := db.file
    rangeFileJunction := db.rangeFileJunction
    offset := db.offset }

/-- `query_insert_named_range`: its return value, the tables and the ids of the files; `fileId` has
not been initialised and holds `junk`. -/
def queryInsertNamedRange (junk : ℕ) (db : Db) (name : Text) (files : List NamedFile) :
    ℤ × Db × List ℕ :=
  if ok .prepare && ok .startTransaction then
    if ok .insertName ∧ ¬ ∃ n ∈ db.rangeName, n.name = name then
      let (db', ids, done) := insertFiles ok db.nextRangeId 0 junk (db.insertRangeName name) files
      if done && ok .setInit && ok .commit then (0, db'.setInit db.nextRangeId, ids)
      else (-1, rollback db db', ids)
    else (-1, { db with nextRangeId := db.nextRangeId + 1 }, [])
  else (-1, db, [])

/-! ## What is filed where -/

/-- The intervals of file `i` whose `INSERT` succeeds, from the `k`-th on. -/
def keptNodes (i : ℕ) : ℕ → List ItNode → List ItNode
  | _, [] => []
  | k, n :: ns =>
    if ok (.insertOffset i k) then n :: keptNodes i (k + 1) ns else keptNodes i (k + 1) ns

/-- The path of file `i` is not in the table and does not get there. -/
def Refused (file : List FileRow) (i : ℕ) (f : NamedFile) : Prop :=
  (∀ g ∈ file, g.filePath ≠ f.filePath) ∧ ok (.insertFile i) = false

instance (file : List FileRow) (i : ℕ) (f : NamedFile) : Decidable (Refused ok file i f) := by
  unfold Refused
  infer_instance

variable {ok} {db db' : Db} {rangeId fileId i junk : ℕ} {files : List NamedFile} {name : Text}
  {f : NamedFile}

theorem insertOffsets_eq (rangeId fileId i : ℕ) : ∀ (k : ℕ) (db : Db) (l : List ItNode),
    insertOffsets ok rangeId fileId i k db l =
      (keptNodes ok i k l).foldl (Db.insertOffset rangeId fileId) db
  | _, _, [] => rfl
  | k, db, n :: ns => by
    rw [insertOffsets, keptNodes]
    split
    · rw [insertOffsets_eq rangeId fileId i, List.foldl_cons]
    · exact insertOffsets_eq rangeId fileId i (k + 1) db ns

/-! ## When every statement succeeds -/

theorem keptNodes_ok (hok : ∀ c, ok c = true) (i : ℕ) : ∀ (k : ℕ) (l : List ItNode),
    keptNodes ok i k l = l
  | _, [] => rfl
  | k, n :: ns => by rw [keptNodes, if_pos (hok _), keptNodes_ok hok i (k + 1) ns]

theorem insertFile_ok (hok : ∀ c, ok c = true) (i fileId : ℕ) (db : Db) (filePath : Text) :
    insertFile ok i fileId db filePath =
      ((db.insertFile filePath).1, some (db.insertFile filePath).2) := by
  unfold insertFile Db.insertFile
  cases db.file.find? fun f => decide (f.filePath = filePath) <;> simp [hok]

theorem insertFiles_ok (hok : ∀ c, ok c = true) (rangeId : ℕ) : ∀ (i fileId : ℕ) (db : Db)
    (fs : List NamedFile), insertFiles ok rangeId i fileId db fs =
      ((db.insertRangeFiles rangeId fs).1, (db.insertRangeFiles rangeId fs).2, true)
  | _, _, _, [] => rfl
  | i, fileId, db, f :: fs => by
    -- the row that the junction refers to is there
    have href : ∃ g ∈ (db.insertFile f.filePath).1.file,
        g.fileId = (db.insertFile f.filePath).2 := by
      unfold Db.insertFile
      split
      · rename_i g hg
        exact ⟨g, List.mem_of_find?_eq_some hg, rfl⟩
      · exact ⟨_, List.mem_append_right _ (List.mem_singleton_self _), rfl⟩
    simp only [insertFiles, insertFile_ok hok, insertJunction, hok, href, and_self, if_true,
      insertOffsets_eq, keptNodes_ok hok, insertFiles_ok hok rangeId, Db.insertRangeFiles,
      Db.insertRangeFile]

/-- Then the transaction is the one of `RangeStore`. -/
theorem queryInsertNamedRange_ok (hok : ∀ c, ok c = true) (junk : ℕ) (db : Db) (name : Text)
    (files : List NamedFile) :
    (Yacet.queryInsertNamedRange db name files = none ∧
      ∃ db' ids, queryInsertNamedRange ok junk db name files = (-1, db', ids)) ∨
    ∃ db' ids, Yacet.queryInsertNamedRange db name files = some (db', ids) ∧
      queryInsertNamedRange ok junk db name files = (0, db', ids) := by
  unfold queryInsertNamedRange Yacet.queryInsertNamedRange
  by_cases hname : ∃ n ∈ db.rangeName, n.name = name
  · left
    simp [hok, hname]
  · right
    simp [hok, hname, insertFiles_ok hok]

/-! ## Loops and tables -/

/-- What the statements on `File` do when they succeed: the row whose id they give is that of the
path, or, if the path is refused, has the id of before. -/
theorem insertFile_spec (hkeys : db.FileKeys) {id : ℕ}
    (h : insertFile ok i fileId db f.filePath = (db', some id)) :
    ∃ new, db' = { db with file := db.file ++ new, nextFileId := db.nextFileId + 1 } ∧
      (∀ g ∈ new, db.nextFileId ≤ g.fileId ∧ g.filePath = f.filePath) ∧ db'.FileKeys ∧
      if Refused ok db.file i f then id = fileId ∧ new = []
      else ∃ g ∈ db'.file, g.fileId = id ∧ g.filePath = f.filePath := by
  unfold insertFile at h
  have hnext : (db.file.map FileRow.fileId).Nodup ∧ ∀ g ∈ db.file, g.fileId < db.nextFileId + 1 :=
    ⟨hkeys.primary, fun g hg => Nat.lt_succ_of_lt (hkeys.used g hg)⟩
  split at h
  · rename_i g hg
    have hmem := List.mem_of_find?_eq_some hg
    have hpath : g.filePath = f.filePath := by simpa using List.find?_some hg
    have hnot : ¬ Refused ok db.file i f := fun href => href.1 g hmem hpath
    simp only [Prod.mk.injEq, Option.ite_none_right_eq_some, Option.some.injEq] at h
    obtain ⟨rfl, -, rfl⟩ := h
    refine ⟨[], by simp, by simp, ⟨hnext.2, hnext.1⟩, ?_⟩
    rw [if_neg hnot]
    exact ⟨g, hmem, rfl, hpath⟩
  · rename_i hnone
    have hfree : ∀ g ∈ db.file, g.filePath ≠ f.filePath := by simpa using hnone
    split at h
    · rename_i hins
      simp only [Prod.mk.injEq, Option.some.injEq] at h
      obtain ⟨rfl, rfl⟩ := h
      refine ⟨[⟨db.nextFileId, f.filePath⟩], rfl, by simp, ⟨?_, ?_⟩, ?_⟩
      · intro g hg
        rcases List.mem_append.1 hg with hg | hg
        · exact hnext.2 g hg
        · rw [List.mem_singleton.1 hg]
          exact Nat.lt_succ_self _
      · simp only [List.map_append, List.map_cons, List.map_nil]
        refine List.Nodup.append hnext.1 (List.nodup_singleton _) fun id hid hid' => ?_
        obtain ⟨g, hg, rfl⟩ := List.mem_map.1 hid
        exact (hkeys.used g hg).ne (List.mem_singleton.1 hid')
      · have hnot : ¬ Refused ok db.file i f := fun href => by
          have hno := href.2
          rw [hins] at hno
          cases hno
        rw [if_neg hnot]
        exact ⟨_, List.mem_append_right _ (List.mem_singleton_self _), rfl, rfl⟩
    · rename_i hins
      simp only [Prod.mk.injEq, Option.ite_none_right_eq_some, Option.some.injEq] at h
      obtain ⟨rfl, -, rfl⟩ := h
      refine ⟨[], by simp, by simp, ⟨hnext.2, hnext.1⟩, ?_⟩
      rw [if_pos ⟨hfree, by simpa using hins⟩]
      exact ⟨rfl, rfl⟩

/-- The groups of the rows and the files that they come from. -/
theorem Inserted.pairs {groups : List Group} (h : Db.Inserted rangeId db db' files groups) :
    groups.map (fun g => (g.1.filePath, g.2.map fun o => (o.base, o.bound))) =
      files.map fun f => (f.filePath, intervals f.it) := by
  have hzip := congrArg₂ List.zip h.paths h.rows
  simpa [List.zip_map', Function.comp_def] using hzip

/-- The rows of the new range, whether or not its files are different. -/
theorem Extended.mem_join {groups : List Group} (hwf : db.WellFormed)
    (hnew : ∀ n ∈ db.rangeName, n.name ≠ name) (h : Db.Extended name db db' files groups)
    {row : FetchRow} :
    row ∈ db'.join name ↔ ∃ g ∈ groups, ∃ o ∈ g.2, row = fetchRow g.1 o := by
  have hjunction := h.inserted.junction
  have hoffset := h.inserted.offset
  have hmem := h.inserted.mem
  have hprimary := h.inserted.keys.primary
  simp only at hjunction hoffset hmem hprimary
  have hnames : db'.rangeName.filter (fun n => n.name = name ∧ n.init = true) =
      [⟨db.nextRangeId, name, true⟩] := by
    rw [h.rangeName]
    refine Db.filter_append_new (fun n hn => ?_) (by simp)
    simp [hnew n hn]
  rw [Db.join, hnames, List.flatMap_singleton]
  simp only [List.mem_flatMap, List.mem_map, List.mem_filter, decide_eq_true_eq]
  constructor
  · rintro ⟨j, ⟨hj, hjr⟩, f, ⟨hf, hfj⟩, o, ⟨ho, hof, hor⟩, rfl⟩
    rw [hoffset] at ho
    rcases List.mem_append.1 ho with ho | ho
    · obtain ⟨n, hn, hid⟩ := hwf.offsetRange o ho
      exact absurd (hid.trans hor) (hwf.rangeUsed n hn).ne
    · obtain ⟨g, hg, ho⟩ := List.mem_flatMap.1 ho
      refine ⟨g, hg, o, ho, ?_⟩
      have hid := (h.inserted.owner g hg o ho).1
      rw [List.inj_on_of_nodup_map hprimary hf (hmem g hg) (hof.symm.trans hid)]
  · rintro ⟨g, hg, o, ho, rfl⟩
    obtain ⟨hfile, hrange⟩ := h.inserted.owner g hg o ho
    refine ⟨⟨db.nextRangeId, g.1.fileId⟩, ⟨?_, rfl⟩, g.1, ⟨hmem g hg, rfl⟩, o, ⟨?_, hfile, hrange⟩,
      rfl⟩
    · rw [hjunction]
      exact List.mem_append_right _ (List.mem_map_of_mem hg)
    · rw [hoffset]
      exact List.mem_append_right _ (List.mem_flatMap.2 ⟨g, hg, ho⟩)

/-- What is fetched of the new range. -/
theorem Extended.mem_rows {groups : List Group} (hwf : db.WellFormed)
    (hnew : ∀ n ∈ db.rangeName, n.name ≠ name) (h : Db.Extended name db db' files groups) {p : Text}
    {b e : ℕ} :
    (∃ row ∈ db'.join name, row.filePath = p ∧ row.base = b ∧ row.bound = e) ↔
      ∃ f ∈ files, f.filePath = p ∧ (b, e) ∈ intervals f.it := by
  have hgroups : (∃ g ∈ groups, ∃ o ∈ g.2, g.1.filePath = p ∧ o.base = b ∧ o.bound = e) ↔
      ∃ x ∈ groups.map (fun g => (g.1.filePath, g.2.map fun o => (o.base, o.bound))),
        x.1 = p ∧ (b, e) ∈ x.2 := by
    simp only [List.mem_map, exists_exists_and_eq_and, Prod.mk.injEq]
    constructor
    · rintro ⟨g, hg, o, ho, hp, hb, he⟩
      exact ⟨g, hg, hp, o, ho, hb, he⟩
    · rintro ⟨g, hg, hp, o, ho, hb, he⟩
      exact ⟨g, hg, o, ho, hp, hb, he⟩
  rw [Inserted.pairs h.inserted] at hgroups
  simp only [List.mem_map, exists_exists_and_eq_and] at hgroups
  rw [← hgroups]
  simp only [Extended.mem_join hwf hnew h]
  constructor
  · rintro ⟨row, ⟨g, hg, o, ho, rfl⟩, hp, hb, he⟩
    exact ⟨g, hg, o, ho, hp, hb, he⟩
  · rintro ⟨g, hg, o, ho, hp, hb, he⟩
    exact ⟨_, ⟨g, hg, o, ho, rfl⟩, hp, hb, he⟩

end InsertRange

end Yacet
