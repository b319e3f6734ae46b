import Mathlib.Data.Char
import Mathlib.Data.List.Lex
import Yacet.Load
import Yacet.LockNames
import Yacet.Lib.Search

/-!
# Storing and loading a range (`sql.c`)

* `queryInsertNamedRange` — the rows a new range leaves in the four tables.
* `Db.join`, `Fetched` — what `QUERY_SELECT_NAMED_RANGE` returns.
* `querySelectNamedRange` — the fetch loop, which cuts the rows into files where the path changes.
* `querySelectNamedRange_loaded` — whatever the query returns, the files have different paths, and
  each has the list that its own rows load.
* `insert_select` — **a range comes back with those of its files that have an interval**, in the
  order of their paths, and every other range is selected as before.
-/

namespace Yacet

/-! ## The tables -/

structure RangeNameRow where
  rangeId : ℕ
  name : Text
  init : Bool
  deriving DecidableEq, Repr

structure FileRow where
  fileId : ℕ
  filePath : Text
  deriving DecidableEq, Repr

structure RangeFileJunctionRow where
  rangeId : ℕ
  fileId : ℕ
  deriving DecidableEq, Repr

/-- The tables, each with the next value of its id. -/
structure Db where
  rangeName : List RangeNameRow
  file : List FileRow
  rangeFileJunction : List RangeFileJunctionRow
  offset : List OffsetRow
  nextRangeId : ℕ
  nextFileId : ℕ
  nextOffsetId : ℕ
  deriving DecidableEq, Repr

/-- What the keys of the schema promise about the files. -/
structure Db.FileKeys (db : Db) : Prop where
  used : ∀ f ∈ db.file, f.fileId < db.nextFileId
  primary : (db.file.map FileRow.fileId).Nodup

/-- What the keys and references of the schema promise. -/
structure Db.WellFormed (db : Db) : Prop where
  fileKeys : db.FileKeys
  rangeUsed : ∀ n ∈ db.rangeName, n.rangeId < db.nextRangeId
  junctionRange : ∀ j ∈ db.rangeFileJunction, ∃ n ∈ db.rangeName, n.rangeId = j.rangeId
  junctionFile : ∀ j ∈ db.rangeFileJunction, ∃ f ∈ db.file, f.fileId = j.fileId
  offsetRange : ∀ o ∈ db.offset, ∃ n ∈ db.rangeName, n.rangeId = o.rangeId

/-! ## Storing -/

/-- A file of a range that is to be stored. -/
structure NamedFile where
  filePath : Text
  it : List ItNode
  deriving DecidableEq, Repr

namespace Db

/-- The statements on `File`: a new row, or the id of the one that is there.  A refused `INSERT`
uses up an id as well. -/
def insertFile (db : Db) (filePath : Text) : Db × ℕ :=
  match db.file.find? fun f => f.filePath = filePath with
  | some f => ({ db with nextFileId := db.nextFileId + 1 }, f.fileId)
  | none =>
    ({ db with
      file := db.file ++ [⟨db.nextFileId, filePath⟩]
      nextFileId := db.nextFileId + 1 }, db.nextFileId)

/-- `INSERT INTO Offset`. -/
def insertOffset (rangeId fileId : ℕ) (db : Db) (n : ItNode) : Db :=
  { db with
    offset := db.offset ++ [⟨db.nextOffsetId, fileId, rangeId, n.base, n.bound, false⟩]
    nextOffsetId := db.nextOffsetId + 1 }

/-- The statements for one file. -/
def insertRangeFile (rangeId : ℕ) (db : Db) (f : NamedFile) : Db × ℕ :=
  let (db, fileId) := db.insertFile f.filePath
  let db := { db with rangeFileJunction := db.rangeFileJunction ++ [⟨rangeId, fileId⟩] }
  (f.it.foldl (insertOffset rangeId fileId) db, fileId)

/-- The loop over the files. -/
def insertRangeFiles (rangeId : ℕ) : Db → List NamedFile → Db × List ℕ
  | db, [] => (db, [])
  | db, f :: fs =>
    let (db, fileId) := db.insertRangeFile rangeId f
    let (db, ids) := db.insertRangeFiles rangeId fs
    (db, fileId :: ids)

/-- `INSERT INTO RangeName`. -/
def insertRangeName (db : Db) (name : Text) : Db :=
  { db with
    rangeName := db.rangeName ++ [⟨db.nextRangeId, name, false⟩]
    nextRangeId := db.nextRangeId + 1 }

/-- `UPDATE RangeName SET Init = TRUE`. -/
def setInit (db : Db) (rangeId : ℕ) : Db :=
  { db with
    rangeName := db.rangeName.map fun n => if n.rangeId = rangeId then { n with init := true }
      else n }

end Db

/-- `query_insert_named_range` when every statement succeeds: the tables and the ids of the files.
It refuses a name that is there. -/
def queryInsertNamedRange (db : Db) (name : Text) (files : List NamedFile) : Option (Db × List ℕ) :=
  if ∃ n ∈ db.rangeName, n.name = name then none
  else
    let rangeId := db.nextRangeId
    let (db, ids) := (db.insertRangeName name).insertRangeFiles rangeId files
    some (db.setInit rangeId, ids)

/-! ## Loading -/

/-- A row that `QUERY_SELECT_NAMED_RANGE` returns. -/
structure FetchRow where
  fileId : ℕ
  filePath : Text
  offsetId : ℕ
  base : ℕ
  bound : ℕ
  conflict : Bool
  deriving DecidableEq, Repr

def fetchRow (f : FileRow) (o : OffsetRow) : FetchRow :=
  ⟨f.fileId, f.filePath, o.offsetId, o.base, o.bound, o.conflict⟩

/-- The rows of the four tables that `QUERY_SELECT_NAMED_RANGE` joins. -/
def Db.join (db : Db) (name : Text) : List FetchRow :=
  (db.rangeName.filter fun n => n.name = name ∧ n.init = true).flatMap fun n =>
    (db.rangeFileJunction.filter fun j => j.rangeId = n.rangeId).flatMap fun j =>
      (db.file.filter fun f => f.fileId = j.fileId).flatMap fun f =>
        (db.offset.filter fun o => o.fileId = f.fileId ∧ o.rangeId = n.rangeId).map (fetchRow f)

/-- `ORDER BY File.FilePath, Offset.Base`. -/
def FetchRow.InOrder (a b : FetchRow) : Prop :=
  a.filePath < b.filePath ∨ a.filePath = b.filePath ∧ a.base ≤ b.base

/-- A result of `QUERY_SELECT_NAMED_RANGE`. -/
structure Fetched (db : Db) (name : Text) (rows : List FetchRow) : Prop where
  perm : rows.Perm (db.join name)
  sorted : rows.Pairwise FetchRow.InOrder

instance : DecidableRel FetchRow.InOrder := fun a b =>
  inferInstanceAs (Decidable (a.filePath < b.filePath ∨ a.filePath = b.filePath ∧ a.base ≤ b.base))

instance (db : Db) (name : Text) (rows : List FetchRow) : Decidable (Fetched db name rows) :=
  decidable_of_iff (rows.Perm (db.join name) ∧ rows.Pairwise FetchRow.InOrder)
    ⟨fun h => ⟨h.1, h.2⟩, fun h => ⟨h.perm, h.sorted⟩⟩

/-- A file of a loaded range. -/
structure LoadedFile where
  filePath : Text
  id : ℕ
  list : ItList
  deriving DecidableEq, Repr

/-- The fetch loop between two rows: the files before the current one, the current one (`rf`) and
`old_buf`. -/
structure FetchState where
  files : List LoadedFile
  rf : Option LoadedFile
  oldBuf : Text
  deriving DecidableEq, Repr

/-- `range_file_add_it(rf, base, bound, offsetId)`. -/
def FetchState.addIt (st : FetchState) (row : FetchRow) : Option FetchState :=
  st.rf.bind fun rf =>
    (rangeFileAddIt rf.list ⟨row.offsetId, row.base, row.bound⟩).map fun list =>
      { st with rf := some { rf with list := list } }

/-- The body of the fetch loop; `filter` holds the file names of the caller, none at all for every
file. -/
def fetchStep (filter : List Text) (st : FetchState) (row : FetchRow) : Option FetchState :=
  if st.oldBuf ≠ row.filePath then
    if filter ≠ [] ∧ row.filePath ∉ filter then some st
    else if pathMax < row.filePath.length then none
    else
      FetchState.addIt
        ⟨st.files ++ st.rf.toList, some ⟨row.filePath, row.fileId, ⟨[], 0⟩⟩, row.filePath⟩ row
  else st.addIt row

/-- `query_select_named_range` on the rows that it fetches. -/
def querySelectNamedRange (filter : List Text) (rows : List FetchRow) : Option (List LoadedFile) :=
  (rows.foldlM (fetchStep filter) ⟨[], none, []⟩).map fun st => st.files ++ st.rf.toList

/-! ## What is stored -/

/-- The rows that a file of the range has left: its row in `File` and those in `Offset`. -/
abbrev Group := FileRow × List OffsetRow

variable {db db' db'' : Db} {rangeId fileId : ℕ} {files fs : List NamedFile}
  {groups gs : List Group}
  {name : Text}

/-- From `db` to `db'` the files `files` have been stored, each with its group. -/
structure Db.Inserted (rangeId : ℕ) (db db' : Db) (files : List NamedFile) (groups : List Group) :
    Prop where
  rangeName : db'.rangeName = db.rangeName
  paths : groups.map (fun g => g.1.filePath) = files.map NamedFile.filePath
  rows : groups.map (fun g => g.2.map fun o => (o.base, o.bound)) =
    files.map fun f => intervals f.it
  owner : ∀ g ∈ groups, ∀ o ∈ g.2, o.fileId = g.1.fileId ∧ o.rangeId = rangeId
  mem : ∀ g ∈ groups, g.1 ∈ db'.file
  file : ∃ new, db'.file = db.file ++ new ∧ ∀ f ∈ new, db.nextFileId ≤ f.fileId
  junction : db'.rangeFileJunction =
    db.rangeFileJunction ++ groups.map fun g => ⟨rangeId, g.1.fileId⟩
  offset : db'.offset = db.offset ++ groups.flatMap Prod.snd
  keys : db'.FileKeys
  next : db.nextFileId ≤ db'.nextFileId

namespace Db

theorem Inserted.nil (h : db.FileKeys) : Inserted rangeId db db [] [] where
  rangeName := rfl
  paths := rfl
  rows := rfl
  owner := by simp
  mem := by simp
  file := ⟨[], by simp, by simp⟩
  junction := by simp
  offset := by simp
  keys := h
  next := Nat.le_refl _

theorem Inserted.append (h : Inserted rangeId db db' files groups)
    (h' : Inserted rangeId db' db'' fs gs) :
    Inserted rangeId db db'' (files ++ fs) (groups ++ gs) where
  rangeName := h'.rangeName.trans h.rangeName
  paths := by rw [List.map_append, List.map_append, h.paths, h'.paths]
  rows := by rw [List.map_append, List.map_append, h.rows, h'.rows]
  owner := List.forall_mem_append.2 ⟨h.owner, h'.owner⟩
  mem := by
    obtain ⟨new, hfile, -⟩ := h'.file
    refine List.forall_mem_append.2 ⟨fun g hg => ?_, h'.mem⟩
    rw [hfile]
    exact List.mem_append_left _ (h.mem g hg)
  file := by
    obtain ⟨new, hfile, hnew⟩ := h.file
    obtain ⟨new', hfile', hnew'⟩ := h'.file
    refine ⟨new ++ new', by rw [hfile', hfile, List.append_assoc], ?_⟩
    exact List.forall_mem_append.2 ⟨hnew, fun f hf => h.next.trans (hnew' f hf)⟩
  junction := by rw [h'.junction, h.junction, List.map_append, List.append_assoc]
  offset := by rw [h'.offset, h.offset, List.flatMap_append, List.append_assoc]
  keys := h'.keys
  next := h.next.trans h'.next

/-- The statements on `File`. -/
theorem insertFile_spec (h : db.FileKeys) (filePath : Text) :
    ∃ f new, f.filePath = filePath ∧ f ∈ db.file ++ new ∧ (∀ f ∈ new, db.nextFileId ≤ f.fileId) ∧
      db.insertFile filePath =
        ({ db with file := db.file ++ new, nextFileId := db.nextFileId + 1 }, f.fileId) ∧
      FileKeys { db with file := db.file ++ new, nextFileId := db.nextFileId + 1 } := by
  unfold insertFile
  split
  · rename_i f hf
    refine ⟨f, [], by simpa using List.find?_some hf, by simpa using List.mem_of_find?_eq_some hf,
      by simp, by simp, ⟨fun g hg => ?_, by simpa using h.primary⟩⟩
    rw [List.append_nil] at hg
    exact Nat.lt_succ_of_lt (h.used g hg)
  · refine ⟨⟨db.nextFileId, filePath⟩, [⟨db.nextFileId, filePath⟩], rfl, by simp, by simp, rfl, ?_⟩
    constructor
    · intro g hg
      rcases List.mem_append.1 hg with hg | hg
      · exact Nat.lt_succ_of_lt (h.used g hg)
      · rw [List.mem_singleton.1 hg]
        exact Nat.lt_succ_self _
    · simp only [List.map_append, List.map_cons, List.map_nil]
      refine List.Nodup.append h.primary (List.nodup_singleton _) ?_
      intro id hid hid'
      obtain ⟨g, hg, rfl⟩ := List.mem_map.1 hid
      rw [List.mem_singleton] at hid'
      exact absurd hid' (h.used g hg).ne

/-- The inner loop over the intervals of a file. -/
theorem foldl_insertOffset (rangeId fileId : ℕ) (db : Db) (l : List ItNode) :
    ∃ rows : List OffsetRow, rows.map (fun o => (o.base, o.bound)) = intervals l ∧
      (∀ o ∈ rows, o.fileId = fileId ∧ o.rangeId = rangeId) ∧
      l.foldl (insertOffset rangeId fileId) db =
        { db with offset := db.offset ++ rows, nextOffsetId := db.nextOffsetId + l.length } := by
  induction l generalizing db with
  | nil => exact ⟨[], rfl, by simp, by simp⟩
  | cons n l ih =>
      obtain ⟨rows, hrows, howner, heq⟩ := ih (db.insertOffset rangeId fileId n)
      refine ⟨⟨db.nextOffsetId, fileId, rangeId, n.base, n.bound, false⟩ :: rows, ?_, ?_, ?_⟩
      · rw [List.map_cons, hrows]
        rfl
      · exact List.forall_mem_cons.2 ⟨⟨rfl, rfl⟩, howner⟩
      · rw [List.foldl_cons, heq]
        simp only [insertOffset, List.append_assoc, List.singleton_append, List.length_cons,
          Nat.add_assoc, Nat.add_comm 1]

theorem insertRangeFile_inserted (h : db.FileKeys) (rangeId : ℕ) (f : NamedFile) :
    ∃ g : Group, (db.insertRangeFile rangeId f).2 = g.1.fileId ∧
      Inserted rangeId db (db.insertRangeFile rangeId f).1 [f] [g] := by
  obtain ⟨row, new, hpath, hmem, hnew, heq, hkeys⟩ := insertFile_spec h f.filePath
  simp only [insertRangeFile, heq]
  obtain ⟨rows, hrows, howner, hfold⟩ := foldl_insertOffset rangeId row.fileId
    { db with
      file := db.file ++ new
      nextFileId := db.nextFileId + 1
      rangeFileJunction := db.rangeFileJunction ++ [⟨rangeId, row.fileId⟩] } f.it
  refine ⟨(row, rows), rfl, ?_⟩
  rw [hfold]
  exact
    { rangeName := rfl
      paths := by simp [hpath]
      rows := by simp [hrows]
      owner := by simpa using howner
      mem := by simpa using hmem
      file := ⟨new, rfl, hnew⟩
      junction := rfl
      offset := by simp
      keys := ⟨hkeys.used, hkeys.primary⟩
      next := Nat.le_succ _ }

/-- **The loop over the files stores every file.** -/
theorem insertRangeFiles_inserted (h : db.FileKeys) (rangeId : ℕ) (files : List NamedFile) :
    ∃ groups : List Group,
      (db.insertRangeFiles rangeId files).2 = groups.map (fun g => g.1.fileId) ∧
      Inserted rangeId db (db.insertRangeFiles rangeId files).1 files groups := by
  induction files generalizing db with
  | nil => exact ⟨[], rfl, Inserted.nil h⟩
  | cons f fs ih =>
      obtain ⟨g, hid, hg⟩ := insertRangeFile_inserted h rangeId f
      obtain ⟨gs, hids, hgs⟩ := ih hg.keys
      refine ⟨g :: gs, ?_, hg.append hgs⟩
      simp only [insertRangeFiles, List.map_cons, hid, hids]

/-- New rows that do not match leave a selection as it was. -/
theorem filter_append_old {α : Type*} {p : α → Bool} {xs ys : List α} (h : ∀ y ∈ ys, p y = false) :
    (xs ++ ys).filter p = xs.filter p := by
  have hnil : ys.filter p = [] := List.filter_eq_nil_iff.2 fun y hy => by simp [h y hy]
  rw [List.filter_append, hnil, List.append_nil]

/-- Old rows that do not match leave the selection to the new ones. -/
theorem filter_append_new {α : Type*} {p : α → Bool} {xs ys : List α} (h : ∀ x ∈ xs, p x = false)
    (h' : ∀ y ∈ ys, p y = true) : (xs ++ ys).filter p = ys := by
  have hnil : xs.filter p = [] := List.filter_eq_nil_iff.2 fun x hx => by simp [h x hx]
  rw [List.filter_append, hnil, List.nil_append, List.filter_eq_self.2 h']

/-- A unique key selects one row. -/
theorem filter_key_eq {α : Type*} {key : α → ℕ} {xs : List α} (hnd : (xs.map key).Nodup) {x : α}
    (hx : x ∈ xs) : xs.filter (fun y => key y = key x) = [x] := by
  induction xs with
  | nil => cases hx
  | cons y xs ih =>
      rw [List.map_cons, List.nodup_cons] at hnd
      rcases List.mem_cons.1 hx with rfl | hx
      · rw [List.filter_cons_of_pos (by simp), List.filter_eq_nil_iff.2]
        intro z hz
        simp only [decide_eq_true_eq]
        exact fun heq => hnd.1 (heq ▸ List.mem_map_of_mem hz)
      · have hne : key y ≠ key x := fun heq => hnd.1 (heq ▸ List.mem_map_of_mem hx)
        rw [List.filter_cons_of_neg (by simpa using hne), ih hnd.2 hx]

/-- Only one member contributes. -/
theorem flatMap_eq_of_mem {α β : Type*} {f : α → List β} {xs : List α} (hnd : xs.Nodup) {x : α}
    (hx : x ∈ xs) (h : ∀ y ∈ xs, y ≠ x → f y = []) : xs.flatMap f = f x := by
  induction xs with
  | nil => cases hx
  | cons y xs ih =>
      rw [List.nodup_cons] at hnd
      rw [List.flatMap_cons]
      rcases List.mem_cons.1 hx with rfl | hx
      · have hrest : xs.flatMap f = [] := List.flatMap_eq_nil_iff.2 fun z hz =>
          h z (List.mem_cons_of_mem _ hz) (by rintro rfl; exact hnd.1 hz)
        rw [hrest, List.append_nil]
      · rw [h y List.mem_cons_self (by rintro rfl; exact hnd.1 hx), List.nil_append,
          ih hnd.2 hx fun z hz => h z (List.mem_cons_of_mem _ hz)]

/-- The tables after `query_insert_named_range`. -/
structure Extended (name : Text) (db db' : Db) (files : List NamedFile) (groups : List Group) :
    Prop where
  rangeName : db'.rangeName = db.rangeName ++ [⟨db.nextRangeId, name, true⟩]
  inserted : Inserted db.nextRangeId db { db' with rangeName := db.rangeName } files groups

theorem WellFormed.extended (h : db.WellFormed) (hnew : ∀ n ∈ db.rangeName, n.name ≠ name)
    (files : List NamedFile) :
    ∃ db' groups, queryInsertNamedRange db name files = some (db', groups.map fun g => g.1.fileId) ∧
      Extended name db db' files groups := by
  have hkeys : (db.insertRangeName name).FileKeys := ⟨h.fileKeys.used, h.fileKeys.primary⟩
  obtain ⟨groups, hids, hins⟩ := insertRangeFiles_inserted hkeys db.nextRangeId files
  have hguard : ¬ ∃ n ∈ db.rangeName, n.name = name := by
    rintro ⟨n, hn, heq⟩
    exact hnew n hn heq
  refine ⟨_, groups, by rw [queryInsertNamedRange, if_neg hguard, ← hids], ?_, ?_⟩
  · have hold : ∀ n ∈ db.rangeName,
        (if n.rangeId = db.nextRangeId then { n with init := true } else n) = n := fun n hn =>
      if_neg (h.rangeUsed n hn).ne
    show List.map _ _ = _
    rw [hins.rangeName]
    simp only [insertRangeName, List.map_append, List.map_cons, List.map_nil, if_true]
    rw [List.map_congr_left hold, List.map_id']
  · exact
      { rangeName := rfl
        paths := hins.paths
        rows := hins.rows
        owner := hins.owner
        mem := hins.mem
        file := hins.file
        junction := hins.junction
        offset := hins.offset
        keys := ⟨hins.keys.used, hins.keys.primary⟩
        next := hins.next }

/-- **Other ranges are joined as before.** -/
theorem Extended.join_other (hwf : db.WellFormed) (h : Extended name db db' files groups)
    {other : Text} (hother : other ≠ name) : db'.join other = db.join other := by
  obtain ⟨new, hfile, hnew⟩ := h.inserted.file
  have hjunction := h.inserted.junction
  have hoffset := h.inserted.offset
  simp only at hfile hjunction hoffset
  have hnames : db'.rangeName.filter (fun n => n.name = other ∧ n.init = true) =
      db.rangeName.filter fun n => n.name = other ∧ n.init = true := by
    rw [h.rangeName]
    exact filter_append_old (by simpa using hother.symm)
  rw [join, join, hnames]
  refine List.flatMap_congr fun n hn => ?_
  have hid := (hwf.rangeUsed n (List.mem_filter.1 hn).1).ne
  have hjoined : db'.rangeFileJunction.filter (fun j => j.rangeId = n.rangeId) =
      db.rangeFileJunction.filter fun j => j.rangeId = n.rangeId := by
    rw [hjunction]
    refine filter_append_old fun j hj => ?_
    obtain ⟨g, -, rfl⟩ := List.mem_map.1 hj
    simpa using hid.symm
  rw [hjoined]
  refine List.flatMap_congr fun j hj => ?_
  obtain ⟨f₀, hf₀, hjf⟩ := hwf.junctionFile j (List.mem_filter.1 hj).1
  have hfiles : db'.file.filter (fun f => f.fileId = j.fileId) =
      db.file.filter fun f => f.fileId = j.fileId := by
    rw [hfile]
    refine filter_append_old fun f hf => ?_
    have h1 := hnew f hf
    have h2 := hwf.fileKeys.used f₀ hf₀
    simp only [decide_eq_false_iff_not]
    omega
  rw [hfiles]
  refine List.flatMap_congr fun f _ => ?_
  have hoffsets : db'.offset.filter (fun o => o.fileId = f.fileId ∧ o.rangeId = n.rangeId) =
      db.offset.filter fun o => o.fileId = f.fileId ∧ o.rangeId = n.rangeId := by
    rw [hoffset]
    refine filter_append_old fun o ho => ?_
    obtain ⟨g, hg, ho⟩ := List.mem_flatMap.1 ho
    simp only [decide_eq_false_iff_not, (h.inserted.owner g hg o ho).2]
    exact fun hand => hid hand.2.symm
  rw [hoffsets]

/-- Distinct paths lead to distinct files. -/
theorem Inserted.nodup_fileIds (h : Inserted rangeId db db' files groups)
    (hpaths : (files.map NamedFile.filePath).Nodup) :
    (groups.map fun g => g.1.fileId).Nodup := by
  rw [← h.paths, List.Nodup, List.pairwise_map] at hpaths
  refine List.pairwise_map.2 (hpaths.imp_of_mem fun {g g'} hg hg' hne heq => hne ?_)
  rw [List.inj_on_of_nodup_map h.keys.primary (h.mem g hg) (h.mem g' hg') heq]

/-- The new range has the rows of a group on the group's file. -/
theorem Extended.offsets (hwf : db.WellFormed) (h : Extended name db db' files groups)
    (hpaths : (files.map NamedFile.filePath).Nodup) {g : Group} (hg : g ∈ groups) :
    db'.offset.filter (fun o => o.fileId = g.1.fileId ∧ o.rangeId = db.nextRangeId) = g.2 := by
  have hoffset := h.inserted.offset
  have hids := h.inserted.nodup_fileIds hpaths
  simp only at hoffset
  have hold : db.offset.filter (fun o => o.fileId = g.1.fileId ∧ o.rangeId = db.nextRangeId) =
      [] := by
    refine List.filter_eq_nil_iff.2 fun o ho => ?_
    obtain ⟨n, hn, hid⟩ := hwf.offsetRange o ho
    have hused := (hwf.rangeUsed n hn).ne
    simp only [decide_eq_true_eq, ← hid]
    exact fun hand => hused hand.2
  rw [hoffset, List.filter_append, hold, List.nil_append, List.filter_flatMap,
    flatMap_eq_of_mem (List.Nodup.of_map _ hids) hg]
  · refine List.filter_eq_self.2 fun o ho => ?_
    simpa using h.inserted.owner g hg o ho
  · intro g' hg' hne
    refine List.filter_eq_nil_iff.2 fun o ho => ?_
    simp only [decide_eq_true_eq, (h.inserted.owner g' hg' o ho).1]
    exact fun hand => hne (List.inj_on_of_nodup_map hids hg' hg hand.1)

/-- **The new range is joined to its own rows.** -/
theorem Extended.join_new (hwf : db.WellFormed) (hnew : ∀ n ∈ db.rangeName, n.name ≠ name)
    (h : Extended name db db' files groups) (hpaths : (files.map NamedFile.filePath).Nodup) :
    db'.join name = groups.flatMap fun g => g.2.map (fetchRow g.1) := by
  have hjunction := h.inserted.junction
  have hoffset := h.inserted.offset
  have hids := h.inserted.nodup_fileIds hpaths
  have hmem := h.inserted.mem
  have hprimary := h.inserted.keys.primary
  simp only at hjunction hoffset hmem hprimary
  have hnames : db'.rangeName.filter (fun n => n.name = name ∧ n.init = true) =
      [⟨db.nextRangeId, name, true⟩] := by
    rw [h.rangeName]
    refine filter_append_new (fun n hn => ?_) (by simp)
    simp [hnew n hn]
  have hjoined : db'.rangeFileJunction.filter (fun j => j.rangeId = db.nextRangeId) =
      groups.map fun g => ⟨db.nextRangeId, g.1.fileId⟩ := by
    rw [hjunction]
    refine filter_append_new (fun j hj => ?_) fun j hj => ?_
    · obtain ⟨n, hn, hid⟩ := hwf.junctionRange j hj
      simpa [← hid] using (hwf.rangeUsed n hn).ne
    · obtain ⟨g, -, rfl⟩ := List.mem_map.1 hj
      simp
  rw [join, hnames, List.flatMap_singleton, hjoined, List.flatMap_map]
  refine List.flatMap_congr fun g hg => ?_
  rw [filter_key_eq hprimary (hmem g hg), List.flatMap_singleton]
  rw [h.offsets hwf hpaths hg]

end Db

/-! ## What is loaded -/

/-- The rows of a group as they are fetched. -/
def Group.fetchRows (g : Group) : List FetchRow := g.2.map (fetchRow g.1)

/-- The file that they become. -/
def Group.loaded (g : Group) : LoadedFile :=
  ⟨g.1.filePath, g.1.fileId, ⟨g.2.map OffsetRow.node, g.2.length⟩⟩

/-- The rows do not touch, and the path can be loaded. -/
structure Group.Loadable (g : Group) : Prop where
  le : ∀ o ∈ g.2, o.base ≤ o.bound
  apart : g.2.Pairwise fun a b => a.bound < b.base
  short : g.1.filePath.length ≤ pathMax

/-- Rows of the current file go into its list. -/
theorem fetch_rest {f : FileRow} {st : FetchState} {rf : LoadedFile} (hbuf : st.oldBuf = f.filePath)
    (hrf : st.rf = some rf) (rows : List OffsetRow) :
    (rows.map (fetchRow f)).foldlM (fetchStep []) st =
      (loadRows rf.list rows).map fun list => { st with rf := some { rf with list := list } } := by
  induction rows generalizing st rf with
  | nil =>
      obtain ⟨files, cur, buf⟩ := st
      simp only at hrf
      subst hrf
      rfl
  | cons o rows ih =>
      have hstep : fetchStep [] st (fetchRow f o) = (rangeFileAddIt rf.list o.node).map fun list =>
          { st with rf := some { rf with list := list } } := by
        rw [fetchStep, if_neg (by simp [fetchRow, hbuf]), FetchState.addIt, hrf]
        rfl
      rw [List.map_cons, List.foldlM_cons, hstep, loadRows, List.foldlM_cons]
      cases hadd : rangeFileAddIt rf.list o.node with
      | none => rfl
      | some list =>
          exact @ih { st with rf := some { rf with list := list } } _ hbuf rfl

/-- The rows of a group that is not empty become a file. -/
theorem fetch_group {g : Group} {st : FetchState} (hg : g.Loadable) (hne : g.2 ≠ [])
    (hbuf : st.oldBuf ≠ g.1.filePath) :
    g.fetchRows.foldlM (fetchStep []) st =
      some ⟨st.files ++ st.rf.toList, some g.loaded, g.1.filePath⟩ := by
  obtain ⟨f, rows⟩ := g
  cases rows with
  | nil => exact absurd rfl hne
  | cons o rows =>
      -- the first row opens the file, so the group is fetched as if it had been open
      have hopen : ((o :: rows).map (fetchRow f)).foldlM (fetchStep []) st =
          ((o :: rows).map (fetchRow f)).foldlM (fetchStep [])
            ⟨st.files ++ st.rf.toList, some ⟨f.filePath, f.fileId, ⟨[], 0⟩⟩, f.filePath⟩ := by
        rw [List.map_cons, List.foldlM_cons, List.foldlM_cons]
        congr 1
        have hbuf : st.oldBuf ≠ (fetchRow f o).filePath := hbuf
        have hshort : ¬ pathMax < (fetchRow f o).filePath.length := Nat.not_lt.2 hg.short
        rw [fetchStep, if_pos hbuf, if_neg (by simp), if_neg hshort, fetchStep,
          if_neg (by simp [fetchRow])]
        rfl
      rw [Group.fetchRows, hopen, fetch_rest rfl rfl, load_apart hg.apart hg.le]
      rfl

/-- **The fetch loop cuts the rows into the files they come from.** -/
theorem fetch_groups {groups : List Group} {st : FetchState} (hgroups : ∀ g ∈ groups, g.Loadable)
    (hpaths : (groups.map fun g => g.1.filePath).Nodup)
    (hbuf : st.oldBuf ∉ groups.map fun g => g.1.filePath) :
    ∃ st', (groups.flatMap Group.fetchRows).foldlM (fetchStep []) st = some st' ∧
      st'.files ++ st'.rf.toList = st.files ++ st.rf.toList ++
        (groups.filter fun g => g.2 ≠ []).map Group.loaded := by
  induction groups generalizing st with
  | nil => exact ⟨st, rfl, by simp⟩
  | cons g groups ih =>
      rw [List.forall_mem_cons] at hgroups
      rw [List.map_cons, List.nodup_cons] at hpaths
      rw [List.map_cons, List.mem_cons, not_or] at hbuf
      rw [List.flatMap_cons, List.foldlM_append]
      by_cases hne : g.2 = []
      · obtain ⟨st', hrun, hfiles⟩ := ih hgroups.2 hpaths.2 hbuf.2
        refine ⟨st', ?_, ?_⟩
        · rw [Group.fetchRows, hne]
          exact hrun
        · rw [hfiles, List.filter_cons_of_neg (by simpa using hne)]
      · rw [fetch_group hgroups.1 hne hbuf.1]
        obtain ⟨st', hrun, hfiles⟩ := @ih ⟨st.files ++ st.rf.toList, some g.loaded, g.1.filePath⟩
          hgroups.2 hpaths.2 hpaths.1
        refine ⟨st', hrun, ?_⟩
        rw [hfiles, List.filter_cons_of_pos (by simpa using hne)]
        simp

/-! ## The order of the rows -/

/-- The groups in the order of their paths. -/
def byPath (groups : List Group) : List Group :=
  groups.insertionSort fun g g' => g.1.filePath ≤ g'.1.filePath

theorem byPath_perm (groups : List Group) : (byPath groups).Perm groups :=
  List.perm_insertionSort _ _

theorem byPath_sorted (hpaths : (groups.map fun g => g.1.filePath).Nodup) :
    (byPath groups).Pairwise fun g g' => g.1.filePath < g'.1.filePath := by
  have hle : (byPath groups).Pairwise fun g g' => g.1.filePath ≤ g'.1.filePath :=
    Search.pairwise_insertionSort fun _ _ _ _ => Iff.rfl
  have hnodup : ((byPath groups).map fun g => g.1.filePath).Nodup :=
    ((byPath_perm groups).map fun g => g.1.filePath).nodup_iff.2 hpaths
  have hne : (byPath groups).Pairwise fun g g' => g.1.filePath ≠ g'.1.filePath :=
    List.pairwise_map.1 hnodup
  exact hle.imp₂ (fun _ _ hle hne => lt_of_le_of_ne hle hne) hne

/-- The rows in the order of the query. -/
theorem fetchRows_sorted (hgroups : ∀ g ∈ groups, g.Loadable)
    (hsorted : groups.Pairwise fun g g' => g.1.filePath < g'.1.filePath) :
    (groups.flatMap Group.fetchRows).Pairwise FetchRow.InOrder := by
  rw [List.pairwise_flatMap]
  constructor
  · intro g hg
    refine List.pairwise_map.2 ((hgroups g hg).apart.imp_of_mem fun {a b} ha _ hab =>
      Or.inr ⟨rfl, ?_⟩)
    have hle := (hgroups g hg).le a ha
    show a.base ≤ b.base
    omega
  · refine hsorted.imp fun {g g'} hlt x hx y hy => Or.inl ?_
    obtain ⟨a, -, rfl⟩ := List.mem_map.1 hx
    obtain ⟨b, -, rfl⟩ := List.mem_map.1 hy
    exact hlt

/-- Rows of one path and base are the same row. -/
theorem fetchRows_inj (hgroups : ∀ g ∈ groups, g.Loadable)
    (hpaths : (groups.map fun g => g.1.filePath).Nodup) {x y : FetchRow}
    (hx : x ∈ groups.flatMap Group.fetchRows) (hy : y ∈ groups.flatMap Group.fetchRows)
    (hpath : x.filePath = y.filePath) (hbase : x.base = y.base) : x = y := by
  obtain ⟨g, hg, hx⟩ := List.mem_flatMap.1 hx
  obtain ⟨g', hg', hy⟩ := List.mem_flatMap.1 hy
  obtain ⟨a, ha, rfl⟩ := List.mem_map.1 hx
  obtain ⟨b, hb, rfl⟩ := List.mem_map.1 hy
  have hsame : g = g' := List.inj_on_of_nodup_map hpaths hg hg' hpath
  subst hsame
  have hbase : a.base = b.base := hbase
  have hinj : g.2.Pairwise fun a b => a.base ≠ b.base :=
    (hgroups g hg).apart.imp_of_mem fun {a b} ha _ hab => by
      have hle := (hgroups g hg).le a ha
      omega
  rw [List.inj_on_of_nodup_map (List.pairwise_map.2 hinj) ha hb hbase]

/-- **The query has one result: the groups' rows by path.** -/
theorem fetched_eq {rows : List FetchRow} (hgroups : ∀ g ∈ groups, g.Loadable)
    (hpaths : (groups.map fun g => g.1.filePath).Nodup)
    (hperm : rows.Perm (groups.flatMap Group.fetchRows))
    (hsorted : rows.Pairwise FetchRow.InOrder) :
    rows = (byPath groups).flatMap Group.fetchRows := by
  have hall : ∀ g ∈ byPath groups, g.Loadable :=
    fun g hg => hgroups g ((byPath_perm groups).mem_iff.1 hg)
  have hcanon := (byPath_perm groups).flatMap_right Group.fetchRows
  refine List.Perm.eq_of_pairwise ?_ hsorted (fetchRows_sorted hall (byPath_sorted hpaths))
    (hperm.trans hcanon.symm)
  intro x y hx hy hxy hyx
  have hx := hperm.mem_iff.1 hx
  have hy := hcanon.mem_iff.1 hy
  rcases hxy with hlt | ⟨hpath, hle⟩
  · rcases hyx with hlt' | ⟨hpath, -⟩
    · exact absurd hlt' hlt.not_gt
    · exact absurd hpath hlt.ne'
  · rcases hyx with hlt | ⟨-, hle'⟩
    · exact absurd hpath hlt.ne'
    · exact fetchRows_inj hgroups hpaths hx hy hpath (le_antisymm hle hle')

/-! ## Any result of the query -/

/-- The row in `Offset` that a fetched row comes from, as far as the loop looks at it. -/
def FetchRow.offset (row : FetchRow) : OffsetRow :=
  ⟨row.offsetId, row.fileId, 0, row.base, row.bound, row.conflict⟩

/-- A file as the loop leaves it: the rows `os` of its path, loaded one after the other. -/
structure LoadedFrom (rows : List FetchRow) (f : LoadedFile) (os : List OffsetRow) : Prop where
  load : loadRows ⟨[], 0⟩ os = some f.list
  sorted : os.Pairwise fun a b => a.base ≤ b.base
  mem : ∀ o ∈ os, ∃ row ∈ rows, row.filePath = f.filePath ∧ o = row.offset
  path : ∃ row ∈ rows, row.filePath = f.filePath

theorem LoadedFrom.mono {rows : List FetchRow} {f : LoadedFile} {os : List OffsetRow}
    (h : LoadedFrom rows f os) (row : FetchRow) : LoadedFrom (rows ++ [row]) f os where
  load := h.load
  sorted := h.sorted
  mem o ho := by
    obtain ⟨r, hr, hpath⟩ := h.mem o ho
    exact ⟨r, List.mem_append_left _ hr, hpath⟩
  path := by
    obtain ⟨r, hr, hpath⟩ := h.path
    exact ⟨r, List.mem_append_left _ hr, hpath⟩

/-- A row of the same path goes into the list. -/
theorem LoadedFrom.add {rows : List FetchRow} {f : LoadedFile} {os : List OffsetRow}
    (h : LoadedFrom rows f os) {row : FetchRow} (horder : ∀ r ∈ rows, r.InOrder row)
    (hpath : f.filePath = row.filePath) {list : ItList}
    (hadd : rangeFileAddIt f.list ⟨row.offsetId, row.base, row.bound⟩ = some list) :
    LoadedFrom (rows ++ [row]) { f with list := list } (os ++ [row.offset]) where
  load := by
    rw [loadRows, List.foldlM_append, ← loadRows, h.load, Option.bind_eq_bind, Option.bind_some,
      List.foldlM_cons]
    exact congrArg (· >>= _) hadd
  sorted := by
    refine List.pairwise_append.2 ⟨h.sorted, List.pairwise_singleton _ _, fun o ho o' ho' => ?_⟩
    rw [List.mem_singleton.1 ho']
    obtain ⟨r, hr, hsame, rfl⟩ := h.mem o ho
    rcases horder r hr with hlt | ⟨-, hle⟩
    · exact absurd (hsame.trans hpath) hlt.ne
    · exact hle
  mem o ho := by
    rcases List.mem_append.1 ho with ho | ho
    · obtain ⟨r, hr, hr'⟩ := h.mem o ho
      exact ⟨r, List.mem_append_left _ hr, hr'⟩
    · exact ⟨row, List.mem_append_right _ (List.mem_singleton_self row), hpath.symm,
        List.mem_singleton.1 ho⟩
  path := ⟨row, List.mem_append_right _ (List.mem_singleton_self row), hpath.symm⟩

/-- The fetch loop behind the rows `rows`. -/
structure FetchState.Steady (rows : List FetchRow) (st : FetchState) : Prop where
  loaded : ∀ f ∈ st.files ++ st.rf.toList, ∃ os, LoadedFrom rows f os
  ordered : (st.files ++ st.rf.toList).Pairwise fun f g => f.filePath < g.filePath
  current : ∀ f ∈ st.rf, f.filePath = st.oldBuf
  opened : st.rf = none → st.files = []

/-- A row of another path comes behind all files. -/
theorem FetchState.Steady.path_lt {rows : List FetchRow} {st : FetchState} (h : st.Steady rows)
    {row : FetchRow} (horder : ∀ r ∈ rows, r.InOrder row) (hbuf : st.oldBuf ≠ row.filePath) :
    ∀ f ∈ st.files ++ st.rf.toList, f.filePath < row.filePath := by
  have hle : ∀ f ∈ st.files ++ st.rf.toList, f.filePath ≤ row.filePath := by
    intro f hf
    obtain ⟨os, hos⟩ := h.loaded f hf
    obtain ⟨r, hr, hpath⟩ := hos.path
    rw [← hpath]
    rcases horder r hr with hlt | ⟨heq, -⟩
    · exact hlt.le
    · exact heq.le
  cases hrf : st.rf with
  | none =>
      rw [h.opened hrf]
      simp
  | some cur =>
      have hcur : cur.filePath < row.filePath := by
        refine lt_of_le_of_ne (hle cur (by simp [hrf])) ?_
        rw [h.current cur hrf]
        exact hbuf
      have hordered := h.ordered
      rw [hrf] at hordered
      intro f hf
      rcases List.mem_append.1 hf with hf | hf
      · exact ((List.pairwise_append.1 hordered).2.2 f hf cur (by simp)).trans hcur
      · obtain rfl : f = cur := by simpa using hf
        exact hcur

theorem FetchState.Steady.addIt {rows : List FetchRow} {st st' : FetchState} (h : st.Steady rows)
    {row : FetchRow} (horder : ∀ r ∈ rows, r.InOrder row) (hbuf : st.oldBuf = row.filePath)
    (hadd : st.addIt row = some st') : st'.Steady (rows ++ [row]) := by
  obtain ⟨rf, hrf, hadd⟩ := Option.bind_eq_some_iff.1 hadd
  obtain ⟨list, hlist, rfl⟩ := Option.map_eq_some_iff.1 hadd
  have hloaded := h.loaded
  have hordered := h.ordered
  have hcur : rf.filePath = st.oldBuf := h.current rf hrf
  rw [hrf] at hloaded hordered
  refine ⟨fun f hf => ?_, ?_, ?_, fun hnone => by cases hnone⟩
  · rcases List.mem_append.1 hf with hf | hf
    · obtain ⟨os, hos⟩ := hloaded f (List.mem_append_left _ hf)
      exact ⟨os, hos.mono row⟩
    · obtain rfl : f = { rf with list := list } := by simpa using hf
      obtain ⟨os, hos⟩ := hloaded rf (by simp)
      exact ⟨_, hos.add horder (hcur.trans hbuf) hlist⟩
  · refine List.pairwise_append.2 ⟨(List.pairwise_append.1 hordered).1, by simp, ?_⟩
    intro f hf g hg
    obtain rfl : g = { rf with list := list } := by simpa using hg
    exact (List.pairwise_append.1 hordered).2.2 f hf rf (by simp)
  · rintro f ⟨⟩
    exact hcur

theorem FetchState.Steady.step {rows : List FetchRow} {st st' : FetchState} (h : st.Steady rows)
    {filter : List Text} {row : FetchRow} (horder : ∀ r ∈ rows, r.InOrder row)
    (hstep : fetchStep filter st row = some st') : st'.Steady (rows ++ [row]) := by
  unfold fetchStep at hstep
  split at hstep
  · rename_i hbuf
    split at hstep
    · cases hstep
      refine ⟨fun f hf => ?_, h.ordered, h.current, h.opened⟩
      obtain ⟨os, hos⟩ := h.loaded f hf
      exact ⟨os, hos.mono row⟩
    · split at hstep
      · cases hstep
      · simp only [FetchState.addIt, Option.bind_some] at hstep
        obtain ⟨list, hlist, rfl⟩ := Option.map_eq_some_iff.1 hstep
        refine ⟨fun f hf => ?_, ?_, ?_, fun hnone => by cases hnone⟩
        · rcases List.mem_append.1 hf with hf | hf
          · obtain ⟨os, hos⟩ := h.loaded f hf
            exact ⟨os, hos.mono row⟩
          · obtain rfl : f = ⟨row.filePath, row.fileId, list⟩ := by simpa using hf
            have hself : row ∈ rows ++ [row] :=
              List.mem_append_right _ (List.mem_singleton_self row)
            refine ⟨[row.offset], ?_, List.pairwise_singleton _ _, ?_, row, hself, rfl⟩
            · rw [loadRows, List.foldlM_cons]
              exact congrArg (· >>= _) hlist
            · intro o ho
              exact ⟨row, hself, rfl, List.mem_singleton.1 ho⟩
        · refine List.pairwise_append.2 ⟨h.ordered, by simp, ?_⟩
          intro f hf g hg
          obtain rfl : g = ⟨row.filePath, row.fileId, list⟩ := by simpa using hg
          exact h.path_lt horder hbuf f hf
        · rintro f ⟨⟩
          rfl
  · rename_i hbuf
    exact h.addIt horder (not_not.1 hbuf) hstep

/-- **Every result of the query is cut into files of different paths**, each with the list that its
rows load. -/
theorem querySelectNamedRange_loaded {filter : List Text} {rows : List FetchRow}
    {loaded : List LoadedFile} (hsorted : rows.Pairwise FetchRow.InOrder)
    (hload : querySelectNamedRange filter rows = some loaded) :
    loaded.Pairwise (fun f g => f.filePath < g.filePath) ∧
      ∀ f ∈ loaded, ∃ os, LoadedFrom rows f os := by
  obtain ⟨st, hst, rfl⟩ := Option.map_eq_some_iff.1 hload
  suffices h : st.Steady rows from ⟨h.ordered, h.loaded⟩
  clear hload
  induction rows using List.reverseRecOn generalizing st with
  | nil =>
      cases hst
      exact ⟨by simp, by simp, by simp, fun _ => rfl⟩
  | append_singleton rows row ih =>
      obtain ⟨hrows, -, hcross⟩ := List.pairwise_append.1 hsorted
      rw [List.foldlM_append, Option.bind_eq_bind] at hst
      obtain ⟨st₀, hst₀, hrow⟩ := Option.bind_eq_some_iff.1 hst
      rw [List.foldlM_cons] at hrow
      obtain ⟨st₁, hst₁, hrest⟩ := Option.bind_eq_some_iff.1 hrow
      cases hrest
      exact (ih hrows st₀ hst₀).step (fun r hr =>
        hcross r hr row (List.mem_singleton_self row)) hst₁

/-- Every row comes from one in `Offset`. -/
theorem Db.exists_offset_of_mem_join {row : FetchRow} (h : row ∈ db.join name) :
    ∃ o ∈ db.offset, o.offsetId = row.offsetId ∧ o.base = row.base ∧ o.bound = row.bound := by
  obtain ⟨n, -, h⟩ := List.mem_flatMap.1 h
  obtain ⟨j, -, h⟩ := List.mem_flatMap.1 h
  obtain ⟨f, -, h⟩ := List.mem_flatMap.1 h
  obtain ⟨o, ho, rfl⟩ := List.mem_map.1 h
  exact ⟨o, (List.mem_filter.1 ho).1, rfl, rfl, rfl⟩

/-! ## Storing and loading -/

/-- A range as `range_add_new_file` and `range_file_add_it` build it. -/
structure Storable (files : List NamedFile) : Prop where
  distinct : (files.map NamedFile.filePath).Nodup
  nonempty : ∀ f ∈ files, f.filePath ≠ []
  short : ∀ f ∈ files, f.filePath.length ≤ pathMax
  separated : ∀ f ∈ files, Separated f.it

/-- The range comes back with its files that have an interval, each with one node for each of its
rows. -/
structure Reloaded (files : List NamedFile) (db : Db) (rangeId : ℕ) (loaded : List LoadedFile) :
    Prop where
  files : (loaded.map fun f => (f.filePath, intervals f.list.it)).Perm
    ((files.filter fun f => f.it ≠ []).map fun f => (f.filePath, intervals f.it))
  ordered : loaded.Pairwise fun f g => f.filePath < g.filePath
  numIt : ∀ f ∈ loaded, f.list.numIt = f.list.it.length
  rows : ∀ f ∈ loaded, f.list.it =
    (db.offset.filter fun o => o.fileId = f.id ∧ o.rangeId = rangeId).map OffsetRow.node

namespace Db

/-- Each group is that of a file. -/
theorem Inserted.exists_file (h : Inserted rangeId db db' files groups) {g : Group}
    (hg : g ∈ groups) : ∃ f ∈ files, g.1.filePath = f.filePath ∧
      g.2.map (fun o => (o.base, o.bound)) = intervals f.it := by
  have hlen : groups.length = files.length := by simpa using congrArg List.length h.paths
  obtain ⟨i, hi, rfl⟩ := List.mem_iff_getElem.1 hg
  have hpath := congrArg (fun l => l[i]?) h.paths
  have hrows := congrArg (fun l => l[i]?) h.rows
  simp only [List.getElem?_map, List.getElem?_eq_getElem hi,
    List.getElem?_eq_getElem (hlen ▸ hi), Option.map_some, Option.some.injEq] at hpath hrows
  exact ⟨files[i], List.getElem_mem _, hpath, hrows⟩

theorem Inserted.loadable (h : Inserted rangeId db db' files groups) (hfiles : Storable files) :
    ∀ g ∈ groups, g.Loadable := by
  intro g hg
  obtain ⟨f, hf, hpath, hrows⟩ := h.exists_file hg
  have hsep := hfiles.separated f hf
  have hle : ∀ p ∈ g.2.map fun o => (o.base, o.bound), p.1 ≤ p.2 := by
    rw [hrows, intervals]
    exact List.forall_mem_map.2 hsep.le
  have hgap : (g.2.map fun o => (o.base, o.bound)).Pairwise fun p q => p.2 < q.1 := by
    rw [hrows, intervals]
    exact List.pairwise_map.2 hsep.gap
  exact ⟨fun o ho => hle _ (List.mem_map_of_mem ho), List.pairwise_map.1 hgap,
    hpath ▸ hfiles.short f hf⟩

/-- The groups with rows are those of the files with intervals. -/
theorem Inserted.filter_nonempty (h : Inserted rangeId db db' files groups) :
    (groups.filter fun g => g.2 ≠ []).map
        (fun g => (g.1.filePath, g.2.map fun o => (o.base, o.bound))) =
      (files.filter fun f => f.it ≠ []).map fun f => (f.filePath, intervals f.it) := by
  have hpairs : groups.map (fun g => (g.1.filePath, g.2.map fun o => (o.base, o.bound))) =
      files.map fun f => (f.filePath, intervals f.it) := by
    have hzip := congrArg₂ List.zip h.paths h.rows
    simpa [List.zip_map', Function.comp_def] using hzip
  have hleft : (groups.filter fun g => g.2 ≠ []).map
      (fun g => (g.1.filePath, g.2.map fun o => (o.base, o.bound))) =
      (groups.map fun g => (g.1.filePath, g.2.map fun o => (o.base, o.bound))).filter
        fun p => p.2 ≠ [] := by
    simp [List.filter_map, Function.comp_def]
  have hright : (files.filter fun f => f.it ≠ []).map (fun f => (f.filePath, intervals f.it)) =
      (files.map fun f => (f.filePath, intervals f.it)).filter fun p => p.2 ≠ [] := by
    simp [List.filter_map, Function.comp_def, intervals]
  rw [hleft, hright, hpairs]

end Db

/-- **A range comes back with those of its files that have an interval**, and every other range is
selected as before. -/
theorem insert_select (hwf : db.WellFormed) (hnew : ∀ n ∈ db.rangeName, n.name ≠ name)
    (hfiles : Storable files) :
    ∃ db' ids, queryInsertNamedRange db name files = some (db', ids) ∧
      (∃ rows, Fetched db' name rows) ∧
      (∀ rows, Fetched db' name rows → ∃ loaded, querySelectNamedRange [] rows = some loaded ∧
        Reloaded files db' db.nextRangeId loaded) ∧
      ∀ other, other ≠ name → ∀ rows, Fetched db' other rows ↔ Fetched db other rows := by
  obtain ⟨db', groups, hrun, hext⟩ := hwf.extended hnew files
  have hloadable := hext.inserted.loadable hfiles
  have hpaths : (groups.map fun g => g.1.filePath).Nodup := by
    rw [hext.inserted.paths]
    exact hfiles.distinct
  have hjoin := hext.join_new hwf hnew hfiles.distinct
  have hperm := byPath_perm groups
  have hall : ∀ g ∈ byPath groups, g.Loadable := fun g hg => hloadable g (hperm.mem_iff.1 hg)
  have hsorted := byPath_sorted hpaths
  refine ⟨db', _, hrun, ⟨(byPath groups).flatMap Group.fetchRows, ?_⟩, ?_, ?_⟩
  · exact ⟨by rw [hjoin]; exact hperm.flatMap_right _, fetchRows_sorted hall hsorted⟩
  · intro rows hrows
    have heq := fetched_eq hloadable hpaths (hjoin ▸ hrows.perm) hrows.sorted
    have hbuf : ([] : Text) ∉ (byPath groups).map fun g => g.1.filePath := by
      intro hmem
      obtain ⟨g, hg, hnil⟩ := List.mem_map.1 hmem
      obtain ⟨f, hf, hpath, -⟩ := hext.inserted.exists_file (hperm.mem_iff.1 hg)
      exact hfiles.nonempty f hf (hpath.symm.trans hnil)
    obtain ⟨st, hst, hloaded⟩ := @fetch_groups _ ⟨[], none, []⟩ hall
      ((hperm.map _).nodup_iff.2 hpaths) hbuf
    refine ⟨((byPath groups).filter fun g => g.2 ≠ []).map Group.loaded, ?_, ?_, ?_, ?_, ?_⟩
    · rw [querySelectNamedRange, heq, hst, Option.map_some, hloaded]
      rfl
    · rw [← hext.inserted.filter_nonempty, List.map_map]
      refine List.Perm.trans (List.Perm.of_eq ?_) ((hperm.filter _).map _)
      refine List.map_congr_left fun g _ => ?_
      simp [Group.loaded, intervals]
    · exact List.pairwise_map.2 (hsorted.filter _)
    · refine List.forall_mem_map.2 fun g _ => ?_
      simp [Group.loaded]
    · refine List.forall_mem_map.2 fun g hg => ?_
      have hg := hperm.mem_iff.1 (List.mem_filter.1 hg).1
      rw [Group.loaded, hext.offsets hwf hfiles.distinct hg]
  · intro other hother rows
    have hsame := hext.join_other hwf hother
    exact ⟨fun h => ⟨hsame ▸ h.perm, h.sorted⟩, fun h => ⟨hsame ▸ h.perm, h.sorted⟩⟩

/-- A file that another range knows and a new one. -/
theorem insert_select_shared :
    ∃ db' ids, queryInsertNamedRange
        ⟨[⟨1, ['q'], true⟩], [⟨1, ['b']⟩], [⟨1, 1⟩], [⟨1, 1, 1, 0, 9, false⟩], 2, 2, 2⟩ ['r']
        [⟨['b'], [⟨0, 0, 2⟩, ⟨0, 4, 6⟩]⟩, ⟨['a'], [⟨0, 1, 3⟩]⟩] = some (db', ids) ∧
      (∃ rows, Fetched db' ['r'] rows) ∧
      (∀ rows, Fetched db' ['r'] rows → ∃ loaded, querySelectNamedRange [] rows = some loaded ∧
        Reloaded [⟨['b'], [⟨0, 0, 2⟩, ⟨0, 4, 6⟩]⟩, ⟨['a'], [⟨0, 1, 3⟩]⟩] db' 2 loaded) ∧
      ∀ other, other ≠ ['r'] → ∀ rows, Fetched db' other rows ↔ Fetched
        ⟨[⟨1, ['q'], true⟩], [⟨1, ['b']⟩], [⟨1, 1⟩], [⟨1, 1, 1, 0, 9, false⟩], 2, 2, 2⟩ other
          rows :=
  insert_select ⟨⟨by decide, by decide⟩, by decide, by decide, by decide, by decide⟩ (by decide)
    ⟨by decide, by decide, by decide, by
      simp only [List.forall_mem_cons, separated_cons]
      simp [Separated.nil]⟩

/-- A file without an interval is stored, but the range comes back without it. -/
theorem select_loses_file :
    Db.WellFormed ⟨[], [], [], [], 1, 1, 1⟩ ∧ Storable [⟨['a'], []⟩] ∧
      ∃ db' ids, queryInsertNamedRange ⟨[], [], [], [], 1, 1, 1⟩ ['r'] [⟨['a'], []⟩] =
          some (db', ids) ∧
        db'.file = [⟨1, ['a']⟩] ∧ Fetched db' ['r'] [] ∧ querySelectNamedRange [] [] = some [] := by
  refine ⟨⟨⟨by decide, by decide⟩, by decide, by decide, by decide, by decide⟩,
    ⟨by decide, by decide, by decide, ?_⟩, _, _, rfl, rfl,
    ⟨List.Perm.refl _, List.Pairwise.nil⟩, rfl⟩
  rw [List.forall_mem_singleton]
  exact Separated.nil

end Yacet
