import Yacet.IntervalNodes
import Yacet.MasterNodes
import Yacet.RangeStore

/-!
# The nodes a selection leaves (`query_select_named_range`)

The rows of the range are loaded, locked one after the other, and released by the threads that edit
the files; `fail_unlock` releases nothing.

* `step` — `query_select_named_range` beside any number of other clients, in the interval
  directories of all files, and beside their transactions: the first check commits the one that has
  the rows.
* `Smooth` — no answer is lost once a context has a node, no other client's node blocks a row, no
  other transaction makes rows overlap while the locks are taken, and what else makes the selection
  return -1 happens while it has no node.
* `Clean` — one node at most for each context, none after an error, none in the range after -1, and
  no context kept out by a node of another one.
* `clean_of_smooth` — **a smooth selection stays clean.**
-/

namespace Yacet

open CText Tickets Steps

namespace Select

/-! ## The selection -/

/-- A node of the range: the file it locks in, its number among the clients there, and its row. -/
structure Context where
  filePath : Text
  client : ℕ
  id : ℕ
  deriving DecidableEq, Repr

/-- In every directory the clients with even numbers are the contexts of the selection. -/
def Ours (c : ℕ) : Prop := c % 2 = 0

instance : DecidablePred Ours := fun c => inferInstanceAs (Decidable (c % 2 = 0))

def contexts (files : List LoadedFile) : List Context :=
  files.flatMap fun f => f.list.it.zipIdx.map fun x => ⟨f.filePath, 2 * x.2, x.1.id⟩

/-- Where the selection stands.  `through` is whether `prepare_file_threads` gets to its end, `left`
holds the contexts that have not been released. -/
inductive Main
  | loading
  | locking (i j : ℕ)
  | committing
  | preparing
  | running (through : Bool) (left : List Context)
  | returned (ret : ℤ)
  deriving DecidableEq, Repr

structure State where
  db : Db
  locks : Text → IntervalLock.System
  files : List LoadedFile
  main : Main

def start (db : Db) : State := ⟨db, fun _ => IntervalLock.start, [], .loading⟩

/-- A step of the selection, with what the database, ZooKeeper and the threads make of it, or a call
or a transaction of another client. -/
inductive Act
  | load (rows : List FetchRow)
  | loadFails
  | call (a : IntervalLock.Act)
  | next
  | commit (ok : Bool)
  | prepare (ok through : Bool)
  | release (k : Context) (a : IntervalLock.Act)
  | finish
  | other (filePath : Text) (a : IntervalLock.Act)
  | commits (db : Db)

/-- What the keys of the table `Offset` promise: the ids are different, and they have less than 32
bits. -/
structure Keys (table : List OffsetRow) : Prop where
  ids : (table.map OffsetRow.offsetId).Nodup
  bound : ∀ r ∈ table, r.offsetId < 2 ^ 31

instance (table : List OffsetRow) : Decidable (Keys table) :=
  decidable_of_iff ((table.map OffsetRow.offsetId).Nodup ∧ ∀ r ∈ table, r.offsetId < 2 ^ 31)
    ⟨fun h => ⟨h.1, h.2⟩, fun h => ⟨h.ids, h.bound⟩⟩

/-- The id of the file as `query_select_file_intervals` looks it up. -/
def fileIdAt (db : Db) (filePath : Text) : Option ℕ :=
  (db.file.find? fun f => f.filePath = filePath).map FileRow.fileId

/-- What another transaction may leave: rows come and move, but none goes, and the files stay. -/
structure Follows (db db' : Db) : Prop where
  keys : Keys db'.offset
  rows : ∀ r ∈ db.offset, ∃ r' ∈ db'.offset, r'.offsetId = r.offsetId ∧ r'.fileId = r.fileId
  files : ∀ f ∈ db.file, fileIdAt db' f.filePath = fileIdAt db f.filePath

instance (db db' : Db) : Decidable (Follows db db') :=
  decidable_of_iff (Keys db'.offset ∧
      (∀ r ∈ db.offset, ∃ r' ∈ db'.offset, r'.offsetId = r.offsetId ∧ r'.fileId = r.fileId) ∧
      ∀ f ∈ db.file, fileIdAt db' f.filePath = fileIdAt db f.filePath)
    ⟨fun h => ⟨h.1, h.2.1, h.2.2⟩, fun h => ⟨h.keys, h.rows, h.files⟩⟩

/-- A call in the interval directory of a file. -/
def State.lock (filePath : Text) (a : IntervalLock.Act) (q : State) : Option State :=
  (fileIdAt q.db filePath).bind fun fileId =>
    (IntervalLock.step q.db.offset fileId filePath a (q.locks filePath)).map fun σ =>
      { q with locks := Function.update q.locks filePath σ }

def State.phase (q : State) (k : Context) : IntervalLock.Phase :=
  (q.locks k.filePath).phase k.client

/-- The context that is being locked. -/
def State.turn (q : State) : Option Context :=
  match q.main with
  | .locking i j => do
    let f ← q.files[i]?
    let n ← f.list.it[j]?
    return ⟨f.filePath, 2 * j, n.id⟩
  | _ => none

/-- The function that makes a call: `zk_acquire_lock`, `zk_release_lock`, or none when the session
ends. -/
inductive Part
  | acquiring
  | releasing
  | leaving
  deriving DecidableEq, Repr

def part : IntervalLock.Act → Part
  | .release _ | .delete _ _ _ => .releasing
  | .leave _ => .leaving
  | _ => .acquiring

/-- The row that a call begins to acquire. -/
def wanted : IntervalLock.Act → Option ℕ
  | .acquire _ id => some id
  | _ => none

/-- The client that begins to release. -/
def releaser : IntervalLock.Act → Option ℕ
  | .release c => some c
  | _ => none

def isReleasing : IntervalLock.Phase → Bool
  | .releasing _ _ _ _ => true
  | _ => false

/-- `query_select_named_range` for the range `name`, and the calls and transactions of other
clients. -/
def step (name : Text) (filter : List Text) (lock : Bool) : Act → State → Option State
  | .load rows, q =>
    if q.main = .loading ∧ Fetched q.db name rows then
      (querySelectNamedRange filter rows).map fun files =>
        { q with files := files, main := if lock then .locking 0 0 else .committing }
    else none
  | .loadFails, q => if q.main = .loading then some { q with main := .returned (-1) } else none
  | .call a, q =>
    q.turn.bind fun k =>
      if a.actor = k.client ∧ part a = .acquiring ∧
          ∀ id ∈ wanted a, id = k.id ∧ q.phase k = .idle then
        q.lock k.filePath a
      else none
  | .next, q =>
    match q.main with
    | .locking i j =>
      match q.files[i]? with
      | none => some { q with main := .committing }
      | some f =>
        match f.list.it[j]? with
        | none =>
          -- `acquired_count` is the length of the list here
          some { q with main := if j < f.list.numIt then .returned (-1) else .locking (i + 1) 0 }
        | some _ =>
          match (q.locks f.filePath).phase (2 * j) with
          | .done _ _ true => some { q with main := .locking i (j + 1) }
          | .done _ _ false => some { q with main := .returned (-1) }
          | _ => none
    | _ => none
  | .commit ok, q =>
    if q.main = .committing then
      some { q with
        main := if ok = false then .returned (-1) else if lock then .preparing else .returned 0 }
    else none
  | .prepare ok through, q =>
    if q.main = .preparing then
      some { q with main := if ok then .running through (contexts q.files) else .returned (-1) }
    else none
  | .release k a, q =>
    match q.main with
    | .running through left =>
      if k ∈ contexts q.files ∧ a.actor = k.client ∧ part a = .releasing ∧
          ((releaser a).isSome → through = true ∨ k ∈ left) then
        (q.lock k.filePath a).map fun q' =>
          { q' with main := .running through (if (releaser a).isSome then left.erase k else left) }
      else none
    | _ => none
  | .finish, q =>
    match q.main with
    | .running through left =>
      if (through = true ∨ left = []) ∧ ∀ k ∈ contexts q.files, isReleasing (q.phase k) = false then
        some { q with main := .returned (if through then 0 else -1) }
      else none
    | _ => none
  | .other filePath a, q => if Ours a.actor then none else q.lock filePath a
  | .commits db', q => if Follows q.db db' then some { q with db := db' } else none

/-! ## Smooth steps -/

/-- No node of a context is left in the directories of the range. -/
def Bare (q : State) : Prop :=
  ∀ f ∈ q.files, ∀ e ∈ (q.locks f.filePath).dir.nodes, ¬ Ours e.2.client

instance (q : State) : Decidable (Bare q) := by
  unfold Bare
  infer_instance

def Act.locks : Act → Option IntervalLock.Act
  | .call a => some a
  | _ => none

/-- The context and its call when a thread releases. -/
def Act.releases : Act → Option (Context × IntervalLock.Act)
  | .release k a => some (k, a)
  | _ => none

/-- `TXN_COMMIT` or `pcq_init` fails. -/
def Act.refuses : Act → Bool
  | .commit ok => !ok
  | .prepare ok _ => !ok
  | _ => false

/-- The call ends `zk_acquire_lock` with an error. -/
def givesUp (p : IntervalLock.Phase) : IntervalLock.Act → Bool
  | .parentFails _ => true
  | .createFails _ =>
    match p with
    | .trying _ count _ => !decide (count + 1 < 3)
    | _ => false
  | _ => false

/-- The last `zoo_delete` of `zk_release_lock` has no effect. -/
def leavesNode (p : IntervalLock.Phase) : IntervalLock.Act → Bool
  | .delete _ false answered =>
    match p with
    | .releasing _ _ _ count => !decide (answered = false ∧ count + 1 < 3)
    | _ => false
  | _ => false

/-- `prepare_file_threads` is going to return -1. -/
def Main.failing : Main → Bool
  | .running through _ => !through
  | _ => false

def Act.loads : Act → List FetchRow
  | .load rows => rows
  | _ => []

def Act.leaves : Act → Option Db
  | .commits db => some db
  | _ => none

/-- A transaction that makes no two rows of a file of the range overlap and does not empty the row
that is being locked. -/
def Gentle (q : State) (db' : Db) : Prop :=
  (∀ f ∈ q.files, ∀ fileId ∈ fileIdAt db' f.filePath,
    IntervalLock.LeavesApart fileId q.db.offset db'.offset) ∧
  ∀ k ∈ q.turn, ∀ id ∈ (q.phase k).row, IntervalLock.LeavesFilled q.db.offset db'.offset id

/-- Locks are being taken. -/
def Main.isLocking : Main → Bool
  | .locking _ _ => true
  | _ => false

/-- A step after which no node of a context has to stay behind. -/
def Smooth (a : Act) (q : State) : Prop :=
  (∀ row ∈ a.loads, row.base ≤ row.bound) ∧
  (∀ k ∈ q.turn, ∀ b ∈ a.locks, b.lossy = false ∧ (givesUp (q.phase k) b = true → Bare q) ∧
    (b.lists = true → ∀ fileId ∈ fileIdAt q.db k.filePath, ∀ x ∈ (q.phase k).waiting,
      IntervalLock.Free q.db.offset fileId Ours x.1 (getSequenceNumber x.2)
        (q.locks k.filePath).dir)) ∧
  (a.refuses = true → Bare q) ∧
  (∀ x ∈ a.releases, q.main.failing = true → leavesNode (q.phase x.1) x.2 = true →
    NoneOf IntervalLock.Node.client x.1.client (q.locks x.1.filePath).dir) ∧
  ∀ db' ∈ a.leaves, q.main.isLocking = true → Gentle q db'

instance (q : State) (db' : Db) : Decidable (Gentle q db') := by
  unfold Gentle
  infer_instance

instance (a : Act) (q : State) : Decidable (Smooth a q) := by
  unfold Smooth
  infer_instance

/-- What a selection is to keep. -/
structure Clean (q : State) : Prop where
  single : ∀ p c, Ours c → ∀ e ∈ (q.locks p).dir.nodes, ∀ e' ∈ (q.locks p).dir.nodes,
    e.2.client = c → e'.2.client = c → e = e'
  error : ∀ p c id left, Ours c → (q.locks p).phase c = .done id left false →
    NoneOf IntervalLock.Node.client c (q.locks p).dir
  returned : q.main = .returned (-1) → Bare q
  admitted : ∀ p c id count lockName children newInterval rows, Ours c →
    (q.locks p).phase c = .ready id count lockName children newInterval rows →
    ∃ relevant, IntervalLock.sortedRelevantIntervals children newInterval rows = some relevant ∧
      IntervalLock.eligibility lockName relevant = .acquired

/-! ## The contexts of a range -/

variable {db : Db} {name : Text} {filter : List Text} {lock : Bool} {files : List LoadedFile}
  {q q' : State} {p : Text} {a : Act}

theorem mem_contexts {k : Context} : k ∈ contexts files ↔
    ∃ f ∈ files, ∃ j n, f.list.it[j]? = some n ∧ k = ⟨f.filePath, 2 * j, n.id⟩ := by
  unfold contexts
  rw [List.mem_flatMap]
  refine exists_congr fun f => and_congr_right fun _ => ?_
  rw [List.mem_map]
  constructor
  · rintro ⟨⟨n, j⟩, hx, rfl⟩
    exact ⟨j, n, List.mem_zipIdx_iff_getElem?.1 hx, rfl⟩
  · rintro ⟨j, n, hn, rfl⟩
    exact ⟨(n, j), List.mem_zipIdx_iff_getElem?.2 hn, rfl⟩

theorem ours_of_mem {k : Context} (h : k ∈ contexts files) : Ours k.client := by
  obtain ⟨f, -, j, n, -, rfl⟩ := mem_contexts.1 h
  exact Nat.mul_mod_right 2 j

theorem turn_mem {k : Context} (h : k ∈ q.turn) : k ∈ contexts q.files := by
  unfold State.turn at h
  split at h
  · obtain ⟨f, hf, h⟩ := Option.bind_eq_some_iff.1 h
    obtain ⟨n, hn, h⟩ := Option.bind_eq_some_iff.1 h
    cases h
    exact mem_contexts.2 ⟨f, List.mem_of_getElem? hf, _, n, hn, rfl⟩
  · cases h

/-- A node of a loaded file has the id of a row, begins where that begins and ends no earlier. -/
structure Covers (n : ItNode) (r : OffsetRow) : Prop where
  id : n.id = r.offsetId
  base : n.base = r.base
  bound : r.bound ≤ n.bound
  le : r.base ≤ r.bound

/-- **The rows of a file that have been loaded are apart.** -/
theorem not_blocks_of_lt (hkeys : Keys db.offset) {m n : ItNode} {r t : OffsetRow}
    (hr : r ∈ db.offset) (ht : t ∈ db.offset) (hm : Covers m r) (hn : Covers n t)
    (hlt : m.bound < n.base) (fileId : ℕ) :
    ¬ IntervalLock.Blocks db.offset fileId m.id n.id := by
  have hunique : ∀ x ∈ db.offset, ∀ y ∈ db.offset, x.offsetId = y.offsetId → x = y :=
    fun x hx y hy => List.inj_on_of_nodup_map hkeys.ids hx hy
  have hbase := hm.base
  have hbound := hm.bound
  have hbase' := hn.base
  have hle := hm.le
  rintro (hid | ⟨x, hx, y, hy, hxid, hyid, hconf⟩)
  · rw [hm.id, hn.id] at hid
    obtain rfl := hunique r hr t ht hid
    omega
  · obtain rfl := hunique x (IntervalLock.mem_fileRows.1 hx).1 r hr (hxid.trans hm.id)
    obtain rfl := hunique y (IntervalLock.mem_fileRows.1 hy).1 t ht (hyid.trans hn.id)
    rw [itConflict_iff, OffsetRow.node_base, OffsetRow.node_bound, OffsetRow.node_base,
      OffsetRow.node_bound] at hconf
    omega

/-- A loaded file: its list in order, each node with a row. -/
structure InOrder (db : Db) (f : LoadedFile) : Prop where
  numIt : f.list.numIt = f.list.it.length
  gap : f.list.it.Pairwise fun m n => m.bound < n.base
  covers : ∀ n ∈ f.list.it, ∃ r ∈ db.offset, Covers n r

theorem inOrder_of_loadedFrom {rows : List FetchRow} (hrows : Fetched db name rows)
    (hle : ∀ row ∈ rows, row.base ≤ row.bound) {f : LoadedFile} {os : List OffsetRow}
    (h : LoadedFrom rows f os) : InOrder db f := by
  have hrow : ∀ o ∈ os, o.base ≤ o.bound ∧ ∃ r ∈ db.offset, r.offsetId = o.offsetId ∧
      r.base = o.base ∧ r.bound = o.bound := by
    intro o ho
    obtain ⟨row, hmem, -, rfl⟩ := h.mem o ho
    exact ⟨hle row hmem, Db.exists_offset_of_mem_join (hrows.perm.mem_iff.1 hmem)⟩
  obtain ⟨ps, hload, hps⟩ := load_rows h.sorted fun o ho => (hrow o ho).1
  have hlist : f.list = ⟨ps.map Prod.fst, ps.length⟩ := Option.some.inj (h.load.symm.trans hload)
  refine ⟨by simp [hlist], by rw [hlist]; exact hps.separated.gap, fun n hn => ?_⟩
  rw [hlist] at hn
  obtain ⟨x, hx, rfl⟩ := List.mem_map.1 hn
  obtain ⟨hxle, r, hr, hid, hbase, hbound⟩ := hrow x.2 (hps.mem x hx)
  obtain ⟨hxid, hxbase, hxbound⟩ := hps.first x hx
  exact ⟨r, hr, hxid.trans hid.symm, hxbase.trans hbase.symm, hbound.le.trans hxbound, by omega⟩

/-- The file of a row that is fetched is looked up. -/
theorem exists_fileIdAt {row : FetchRow} (h : row ∈ db.join name) :
    ∃ fileId, fileId ∈ fileIdAt db row.filePath := by
  obtain ⟨n, -, h⟩ := List.mem_flatMap.1 h
  obtain ⟨j, -, h⟩ := List.mem_flatMap.1 h
  obtain ⟨f, hf, h⟩ := List.mem_flatMap.1 h
  obtain ⟨o, -, rfl⟩ := List.mem_map.1 h
  have hfound : (db.file.find? fun g => g.filePath = f.filePath).isSome = true :=
    List.find?_isSome.2 ⟨f, (List.mem_filter.1 hf).1, decide_eq_true rfl⟩
  obtain ⟨g, hg⟩ := Option.isSome_iff_exists.1 hfound
  exact ⟨g.fileId, by rw [fileIdAt, fetchRow, hg]; rfl⟩

/-- The contexts of a range have rows. -/
def Rowed (db : Db) (files : List LoadedFile) : Prop :=
  ∀ k ∈ contexts files, ∃ r ∈ db.offset, r.offsetId = k.id

/-- They do not block each other. -/
def Apart (db : Db) (files : List LoadedFile) : Prop :=
  ∀ p, ∀ fileId ∈ fileIdAt db p, ∀ c c' i j, ⟨p, c, i⟩ ∈ contexts files →
    ⟨p, c', j⟩ ∈ contexts files → c ≠ c' → ¬ IntervalLock.Blocks db.offset fileId i j

theorem rowed_of_inOrder (hfiles : ∀ f ∈ files, InOrder db f) : Rowed db files := by
  intro k hk
  obtain ⟨f, hf, j, n, hn, rfl⟩ := mem_contexts.1 hk
  obtain ⟨r, hr, hcovers⟩ := (hfiles f hf).covers n (List.mem_of_getElem? hn)
  exact ⟨r, hr, hcovers.id.symm⟩

theorem apart_of_inOrder (hkeys : Keys db.offset)
    (hpaths : files.Pairwise fun f g => f.filePath < g.filePath)
    (hfiles : ∀ f ∈ files, InOrder db f) : Apart db files := by
  intro p fileId _ c c' i j hi hj hne
  obtain ⟨f, hf, a, m, hm, hk⟩ := mem_contexts.1 hi
  obtain ⟨g, hg, b, n, hn, hk'⟩ := mem_contexts.1 hj
  obtain ⟨rfl, rfl, rfl⟩ := Context.mk.inj hk
  obtain ⟨hpath, rfl, rfl⟩ := Context.mk.inj hk'
  have hsame : f = g := by
    refine List.inj_on_of_nodup_map (f := LoadedFile.filePath) ?_ hf hg hpath
    exact List.pairwise_map.2 (hpaths.imp fun hlt => hlt.ne)
  subst hsame
  have hf := hfiles f hf
  obtain ⟨r, hr, hmr⟩ := hf.covers m (List.mem_of_getElem? hm)
  obtain ⟨t, ht, hnt⟩ := hf.covers n (List.mem_of_getElem? hn)
  obtain ⟨ha, rfl⟩ := List.getElem?_eq_some_iff.1 hm
  obtain ⟨hb, rfl⟩ := List.getElem?_eq_some_iff.1 hn
  have hgap := List.pairwise_iff_getElem.1 hf.gap
  rcases Nat.lt_or_gt_of_ne (fun hab : a = b => hne (by rw [hab])) with hlt | hgt
  · exact not_blocks_of_lt hkeys hr ht hmr hnt (hgap a b ha hb hlt) fileId
  · intro hblocks
    exact not_blocks_of_lt hkeys ht hr hnt hmr (hgap b a hb ha hgt) fileId hblocks.symm

/-! ## Another transaction -/

section Follows

variable {db' : Db}

theorem Follows.fileIdAt (h : Follows db db') {fileId : ℕ} (hid : fileId ∈ fileIdAt db p) :
    fileId ∈ fileIdAt db' p := by
  obtain ⟨f, hf, rfl⟩ := Option.map_eq_some_iff.1 hid
  have hpath : f.filePath = p := by simpa using List.find?_some hf
  rw [← hpath, h.files f (List.mem_of_find?_eq_some hf), hpath]
  exact hid

theorem Follows.keeps (h : Follows db db') (fileId : ℕ) :
    IntervalLock.Keeps fileId db.offset db'.offset := by
  intro r hr
  obtain ⟨hmem, hfile⟩ := IntervalLock.mem_fileRows.1 hr
  obtain ⟨r', hr', hid, hfile'⟩ := h.rows r hmem
  exact ⟨r', IntervalLock.mem_fileRows.2 ⟨hr', hfile'.trans hfile⟩, hid⟩

theorem Rowed.follows (h : Rowed db files) (hdb : Follows db db') : Rowed db' files := by
  intro k hk
  obtain ⟨r, hr, hid⟩ := h k hk
  obtain ⟨r', hr', hid', -⟩ := hdb.rows r hr
  exact ⟨r', hr', hid'.trans hid⟩

/-- A row that has been there before has stayed in its file. -/
theorem Follows.hasRow (h : Follows db db') {fileId id : ℕ}
    (hrow : ∃ r ∈ db.offset, r.offsetId = id)
    (hafter : IntervalLock.HasRow db'.offset fileId id) :
    IntervalLock.HasRow db.offset fileId id := by
  obtain ⟨r, hr, rfl⟩ := hrow
  obtain ⟨t, ht, htid⟩ := hafter
  obtain ⟨htmem, htfile⟩ := IntervalLock.mem_fileRows.1 ht
  obtain ⟨r', hr', hid, hfile⟩ := h.rows r hr
  obtain rfl : r' = t := List.inj_on_of_nodup_map h.keys.ids hr' htmem (hid.trans htid.symm)
  exact ⟨r, IntervalLock.mem_fileRows.2 ⟨hr, hfile.symm.trans htfile⟩, rfl⟩

theorem path_of_mem {k : Context} (hk : k ∈ contexts files) :
    ∃ f ∈ files, f.filePath = k.filePath := by
  obtain ⟨f, hf, j, n, -, rfl⟩ := mem_contexts.1 hk
  exact ⟨f, hf, rfl⟩

/-- Contexts stay apart if the transaction makes no rows overlap. -/
theorem Apart.follows (h : Apart db files) (hrowed : Rowed db files) (hdb : Follows db db')
    (hids : ∀ f ∈ files, ∃ fileId, fileId ∈ Select.fileIdAt db f.filePath)
    (hgentle : ∀ f ∈ files, ∀ fileId ∈ Select.fileIdAt db' f.filePath,
      IntervalLock.LeavesApart fileId db.offset db'.offset) : Apart db' files := by
  intro p fileId hid c c' i j hi hj hne hblocks
  obtain ⟨f, hf, rfl⟩ := path_of_mem hi
  obtain ⟨g, hg⟩ := hids f hf
  obtain rfl : g = fileId := Option.mem_unique (hdb.fileIdAt hg) hid
  refine h _ g hg c c' i j hi hj hne ?_
  rcases hblocks with hij | ⟨r, hr, t, ht, rfl, rfl, hconf⟩
  · exact Or.inl hij
  · exact (hgentle f hf g hid).blocks (hdb.hasRow (hrowed _ hi) ⟨r, hr, rfl⟩)
      (hdb.hasRow (hrowed _ hj) ⟨t, ht, rfl⟩) (Or.inr ⟨r, hr, t, ht, rfl, rfl, hconf⟩)

end Follows

/-! ## Calls in a directory -/

/-- The directories and the contexts in them. -/
structure Locks (db : Db) (files : List LoadedFile) (locks : Text → IntervalLock.System) :
    Prop where
  unused : ∀ p, fileIdAt db p = none → locks p = IntervalLock.start
  steady : ∀ p, ∀ fileId ∈ fileIdAt db p,
    IntervalLock.Steady db.offset fileId Ours (fun c id => ⟨p, c, id⟩ ∈ contexts files) (locks p)

theorem Locks.start (db : Db) (files : List LoadedFile) :
    Locks db files fun _ => IntervalLock.start :=
  ⟨fun _ _ => rfl, fun _ _ _ => IntervalLock.Steady.start _ _ _ _⟩

theorem Locks.exists_steady {locks : Text → IntervalLock.System} (h : Locks db files locks)
    (p : Text) :
    ∃ fileId, IntervalLock.Steady db.offset fileId Ours (fun c id => ⟨p, c, id⟩ ∈ contexts files)
      (locks p) := by
  cases hid : fileIdAt db p with
  | none =>
      rw [h.unused p hid]
      exact ⟨0, IntervalLock.Steady.start _ _ _ _⟩
  | some fileId => exact ⟨fileId, h.steady p fileId hid⟩

/-- What a call leaves as it was, and what it does where it is made. -/
structure Called (p : Text) (a : IntervalLock.Act) (q q' : State) : Prop where
  db : q'.db = q.db
  files : q'.files = q.files
  main : q'.main = q.main
  others : ∀ p', p' ≠ p → q'.locks p' = q.locks p'
  step : ∃ fileId ∈ fileIdAt q.db p,
    IntervalLock.step q.db.offset fileId p a (q.locks p) = some (q'.locks p)

theorem called_of_lock {b : IntervalLock.Act} (h : q.lock p b = some q') : Called p b q q' := by
  obtain ⟨fileId, hid, h⟩ := Option.bind_eq_some_iff.1 h
  obtain ⟨σ, hσ, rfl⟩ := Option.map_eq_some_iff.1 h
  refine ⟨rfl, rfl, rfl, fun p' hp => Function.update_of_ne hp _ _, fileId, hid, ?_⟩
  simpa using hσ

namespace Called

variable {b : IntervalLock.Act}

theorem by_actor (h : Called p b q q') :
    By IntervalLock.Node.client b.actor (q.locks p) (q'.locks p) := by
  obtain ⟨fileId, -, hstep⟩ := h.step
  exact IntervalLock.step_by hstep

theorem phase_of_ne (h : Called p b q q') {p' : Text} {c : ℕ} (hne : p' = p → c ≠ b.actor) :
    (q'.locks p').phase c = (q.locks p').phase c := by
  by_cases hp : p' = p
  · subst hp
    exact h.by_actor.phase c (hne rfl)
  · rw [h.others p' hp]

theorem noneOf_of_ne (h : Called p b q q') {p' : Text} {c : ℕ} (hne : p' = p → c ≠ b.actor)
    (hnone : NoneOf IntervalLock.Node.client c (q.locks p').dir) :
    NoneOf IntervalLock.Node.client c (q'.locks p').dir := by
  by_cases hp : p' = p
  · subst hp
    exact h.by_actor.noneOf (hne rfl) hnone
  · rw [h.others p' hp]
    exact hnone

/-- A call that brings no node of a context keeps the range bare. -/
theorem bare (h : Called p b q q') (hbare : Bare q)
    (hnodes : ∀ e ∈ (q'.locks p).dir.nodes, Ours e.2.client → e ∈ (q.locks p).dir.nodes) :
    Bare q' := by
  intro f hf e he hours
  rw [h.files] at hf
  by_cases hp : f.filePath = p
  · rw [hp] at he
    exact hbare f hf e (by rw [hp]; exact hnodes e he hours) hours
  · rw [h.others _ hp] at he
    exact hbare f hf e he hours

/-- So does a call of another client. -/
theorem bare_other (h : Called p b q q') (hother : ¬ Ours b.actor) (hbare : Bare q) :
    Bare q' := by
  refine h.bare hbare fun e he hours => h.by_actor.mem he ?_
  intro heq
  rw [heq] at hours
  exact hother hours

theorem locks (h : Called p b q q') (hlocks : Locks q.db q.files q.locks)
    (hstep : ∀ fileId ∈ fileIdAt q.db p,
      IntervalLock.Steady q.db.offset fileId Ours (fun c id => ⟨p, c, id⟩ ∈ contexts q.files)
        (q.locks p) →
      IntervalLock.step q.db.offset fileId p b (q.locks p) = some (q'.locks p) →
      IntervalLock.Steady q.db.offset fileId Ours (fun c id => ⟨p, c, id⟩ ∈ contexts q.files)
        (q'.locks p)) : Locks q'.db q'.files q'.locks := by
  rw [h.files, h.db]
  obtain ⟨fileId, hid, hrun⟩ := h.step
  constructor
  · intro p' hnone
    have hp : p' ≠ p := by
      rintro rfl
      rw [Option.mem_def.1 hid] at hnone
      cases hnone
    rw [h.others p' hp]
    exact hlocks.unused p' hnone
  · intro p' g hg
    by_cases hp : p' = p
    · subst hp
      obtain rfl : fileId = g := Option.mem_unique hid hg
      exact hstep fileId hid (hlocks.steady p' fileId hid) hrun
    · rw [h.others p' hp]
      exact hlocks.steady p' g hg

end Called

/-! ## Own calls -/

section Own

variable {table : List OffsetRow} {fileId : ℕ} {ctx : ℕ → ℕ → Prop} {σ τ : IntervalLock.System}
  {b : IntervalLock.Act}

/-- A smooth acquisition that ends without the lock has given up before it had a node. -/
theorem givesUp_of_done (hσ : IntervalLock.Steady table fileId Ours ctx σ) (hours : Ours b.actor)
    (hpart : part b = .acquiring) (hlossy : b.lossy = false)
    (hstep : IntervalLock.step table fileId p b σ = some τ) {id : ℕ} {left : Option Text}
    (hdone : τ.phase b.actor = .done id left false) :
    givesUp (σ.phase b.actor) b = true ∧ τ.dir = σ.dir := by
  obtain ⟨d, p, rfl, hgoes⟩ := IntervalLock.goes_of_step hstep
  rw [System.phase_enter_self] at hdone
  cases hgoes with
  | parentFails h => exact ⟨rfl, rfl⟩
  | createFails h =>
      refine ⟨?_, rfl⟩
      rw [IntervalLock.Act.actor, h]
      unfold IntervalLock.Phase.failed at hdone
      split at hdone
      · cases hdone
      · rename_i hcount
        simp [givesUp, hcount]
  | @decide c id count lockName children newInterval rows server relevant p hphase hrel hp =>
      have hadm := hσ.admitted c hours
      rw [hphase] at hadm
      obtain ⟨relevant', hrel', hacq⟩ := hadm
      obtain rfl : relevant' = relevant := Option.some.inj (hrel'.symm.trans hrel)
      rw [hacq] at hp
      cases hp
      cases hdone
  | acquire hid => cases hdone
  | create h hs hbound => cases hdone
  | createLost h hs hbound => cases hlossy
  | list h hperm => cases hdone
  | listFails h => cases hlossy
  | readRows h hperm hrow => cases hdone
  | readRowsFails h => cases hlossy
  | release h => cases hpart
  | delete h => cases hpart
  | leave => cases hpart

/-- A release is under way or has left no node. -/
theorem isReleasing_or_noneOf (htidy : Tidy IntervalLock.books b.actor σ)
    (hpart : part b = .releasing)
    (hleft : leavesNode (σ.phase b.actor) b = true →
      NoneOf IntervalLock.Node.client b.actor σ.dir)
    (hstep : IntervalLock.step table fileId p b σ = some τ) :
    isReleasing (τ.phase b.actor) = true ∨ NoneOf IntervalLock.Node.client b.actor τ.dir := by
  obtain ⟨d, p', rfl, hgoes⟩ := IntervalLock.goes_of_step hstep
  rw [System.phase_enter_self]
  cases hgoes with
  | release h => exact Or.inl rfl
  | @delete c id count made answered lockAcquired lockName h =>
      by_cases hmore : answered = false ∧ count + 1 < 3
      · rw [if_pos hmore]
        exact Or.inl rfl
      · refine Or.inr ?_
        cases made with
        | true =>
            refine htidy.noneOf_remove fun e he => ?_
            have hname : IntervalLock.nodeName e = lockName := by
              rw [IntervalLock.Act.actor, h] at he
              exact (Option.mem_some_iff.1 he).symm
            rw [hname]
            exact beq_self_eq_true _
        | false =>
            refine hleft ?_
            rw [IntervalLock.Act.actor, h]
            simpa only [leavesNode, Bool.not_eq_true', decide_eq_false_iff_not] using hmore
  | _ => cases hpart

/-- A release neither fails like an acquisition nor begins one. -/
theorem plain_of_releasing (hpart : part b = .releasing) :
    b.lossy = false ∧ b.acquires = false ∧ b.lists = false := by
  cases b with
  | release c => exact ⟨rfl, rfl, rfl⟩
  | delete c made answered => exact ⟨rfl, rfl, rfl⟩
  | _ => cases hpart

/-- A release does not end without the lock. -/
theorem ne_done_of_releasing (htidy : Tidy IntervalLock.books b.actor σ)
    (hpart : part b = .releasing) (hstep : IntervalLock.step table fileId p b σ = some τ)
    (id : ℕ) (left : Option Text) : τ.phase b.actor ≠ .done id left false := by
  obtain ⟨d, p', rfl, hgoes⟩ := IntervalLock.goes_of_step hstep
  rw [System.phase_enter_self]
  intro hdone
  cases hgoes with
  | release h => cases hdone
  | @delete c id' count made answered lockAcquired lockName h =>
      split at hdone
      · cases hdone
      · cases hdone
        have hkept := htidy.fresh (by rw [IntervalLock.Act.actor, h]; rfl)
        rw [IntervalLock.Act.actor, h] at hkept
        cases hkept
  | _ => cases hpart

end Own

/-! ## A call of a context -/

/-- A call of `zk_acquire_lock` that does not make its context start over. -/
structure Acquires (q : State) (k : Context) (b : IntervalLock.Act) : Prop where
  turn : k ∈ q.turn
  actor : b.actor = k.client
  part : part b = .acquiring
  wanted : ∀ id ∈ wanted b, id = k.id ∧ q.phase k = .idle
  lossy : b.lossy = false
  givesUp : givesUp (q.phase k) b = true → Bare q
  free : b.lists = true → ∀ fileId ∈ fileIdAt q.db k.filePath, ∀ x ∈ (q.phase k).waiting,
    IntervalLock.Free q.db.offset fileId Ours x.1 (getSequenceNumber x.2) (q.locks k.filePath).dir

namespace Acquires

variable {k : Context} {b : IntervalLock.Act}

theorem ours (h : Acquires q k b) : Ours b.actor := h.actor ▸ ours_of_mem (turn_mem h.turn)

theorem phase (h : Acquires q k b) : (q.locks k.filePath).phase b.actor = q.phase k := by
  rw [h.actor]
  rfl

/-- It begins with the row of the context. -/
theorem acquire (h : Acquires q k b) (hacq : b.acquires = true) :
    q.phase k = .idle ∧ b = .acquire b.actor k.id := by
  cases b with
  | acquire c id =>
      obtain ⟨rfl, hidle⟩ := h.wanted id rfl
      exact ⟨hidle, rfl⟩
  | _ => cases hacq

/-- The directory stays steady. -/
theorem steady (h : Acquires q k b) (hkeys : Keys q.db.offset) (hapart : Apart q.db q.files)
    {fileId : ℕ} (hid : fileId ∈ fileIdAt q.db k.filePath) {τ : IntervalLock.System}
    (hsteady : IntervalLock.Steady q.db.offset fileId Ours
      (fun c id => ⟨k.filePath, c, id⟩ ∈ contexts q.files) (q.locks k.filePath))
    (hstep : IntervalLock.step q.db.offset fileId k.filePath b (q.locks k.filePath) = some τ) :
    IntervalLock.Steady q.db.offset fileId Ours
      (fun c id => ⟨k.filePath, c, id⟩ ∈ contexts q.files) τ := by
  refine hsteady.step hkeys.ids hkeys.bound (fun _ c c' i j => hapart _ fileId hid c c' i j)
    h.ours ?_
    ⟨h.lossy, fun hacq => ?_, ?_⟩ hstep
  · intro id heq
    obtain ⟨-, hb⟩ := h.acquire (by rw [heq]; rfl)
    rw [heq] at hb
    obtain ⟨-, rfl⟩ := IntervalLock.Act.acquire.inj hb
    show ⟨k.filePath, b.actor, k.id⟩ ∈ contexts q.files
    rw [h.actor]
    exact turn_mem h.turn
  · refine (hsteady.tidy _ h.ours).noneOf ?_
    rw [h.phase, (h.acquire hacq).1]
    rfl
  · rw [h.phase]
    intro hlists
    exact h.free hlists fileId hid

/-- If it ends without the lock, the range is bare. -/
theorem bare (h : Acquires q k b) (hlocks : Locks q.db q.files q.locks)
    (hcalled : Called k.filePath b q q') {id : ℕ} {left : Option Text}
    (hdone : (q'.locks k.filePath).phase b.actor = .done id left false) : Bare q' := by
  obtain ⟨fileId, hid, hstep⟩ := hcalled.step
  obtain ⟨hup, hdir⟩ :=
    givesUp_of_done (hlocks.steady _ fileId hid) h.ours h.part h.lossy hstep hdone
  rw [h.phase] at hup
  refine hcalled.bare (h.givesUp hup) fun e he _ => ?_
  rwa [hdir] at he

end Acquires

/-! ## The invariant -/

/-- What holds in every state of a smooth selection. -/
structure Steady (q : State) : Prop where
  keys : Keys q.db.offset
  locks : Locks q.db q.files q.locks
  known : ∀ f ∈ q.files, ∃ fileId, fileId ∈ fileIdAt q.db f.filePath
  rowed : Rowed q.db q.files
  apart : q.main.isLocking = true → Apart q.db q.files
  busy : ∀ p c, Ours c → ((q.locks p).phase c).busy = true →
    ∃ k ∈ q.turn, k.filePath = p ∧ k.client = c
  numIt : ∀ f ∈ q.files, f.list.numIt = f.list.it.length
  loading : q.main = .loading → q.files = []
  failed : (∀ ret, q.main ≠ .returned ret) → ∀ p c, Ours c → ∀ id left,
    (q.locks p).phase c = .done id left false →
      (∃ k ∈ q.turn, k.filePath = p ∧ k.client = c) ∧ Bare q
  released : ∀ left, q.main = .running false left → ∀ k ∈ contexts q.files,
    k ∈ left ∨ isReleasing (q.phase k) = true ∨
      NoneOf IntervalLock.Node.client k.client (q.locks k.filePath).dir
  returned : q.main = .returned (-1) → Bare q

theorem Steady.start (hkeys : Keys db.offset) : Steady (start db) where
  keys := hkeys
  locks := Locks.start db []
  known _ hf := by cases hf
  rowed _ hk := by cases hk
  apart hmain := by cases hmain
  busy _ _ _ hbusy := by cases hbusy
  numIt _ hf := by cases hf
  loading _ := rfl
  failed _ _ _ _ _ _ hdone := by cases hdone
  released _ hmain := by cases hmain
  returned hmain := by cases hmain

theorem locking_of_turn {k : Context} (h : k ∈ q.turn) : ∃ i j, q.main = .locking i j := by
  unfold State.turn at h
  split at h
  · rename_i i j hmain
    exact ⟨i, j, hmain⟩
  · cases h

theorem Called.turn {b : IntervalLock.Act} (h : Called p b q q') : q'.turn = q.turn := by
  unfold State.turn
  rw [h.main, h.files]

/-- A call of another client leaves the rows, the files and the selection. -/
structure Stands (q q' : State) : Prop where
  keys : Keys q'.db.offset
  known : ∀ f ∈ q'.files, ∃ fileId, fileId ∈ fileIdAt q'.db f.filePath
  rowed : Rowed q'.db q'.files
  apart : q'.main.isLocking = true → Apart q'.db q'.files
  numIt : ∀ f ∈ q'.files, f.list.numIt = f.list.it.length

theorem Called.stands {b : IntervalLock.Act} (hcalled : Called p b q q') (h : Steady q) :
    Stands q q' where
  keys := hcalled.db ▸ h.keys
  known := hcalled.db ▸ hcalled.files ▸ h.known
  rowed := hcalled.db ▸ hcalled.files ▸ h.rowed
  apart := hcalled.db ▸ hcalled.files ▸ hcalled.main ▸ h.apart
  numIt := hcalled.files ▸ h.numIt

namespace Steady

variable {b : IntervalLock.Act}

theorem tidy (h : Steady q) (p : Text) {c : ℕ} (hc : Ours c) :
    Tidy IntervalLock.books c (q.locks p) := by
  obtain ⟨fileId, hsteady⟩ := h.locks.exists_steady p
  exact hsteady.tidy c hc

/-- **Other clients leave the selection steady.** -/
theorem other (h : Steady q) (hcalled : Called p b q q') (hother : ¬ Ours b.actor) : Steady q' := by
  have hne : ∀ {p' : Text} {c : ℕ}, Ours c → p' = p → c ≠ b.actor := by
    rintro p' c hc - rfl
    exact hother hc
  have hbare := hcalled.bare_other hother
  obtain ⟨hkeys, hknown, hrowed, hapart, hnum⟩ := hcalled.stands h
  refine ⟨hkeys, hcalled.locks h.locks fun fileId _ hsteady hstep =>
    hsteady.step_other hother hstep, hknown, hrowed, hapart, ?_, hnum, ?_, ?_, ?_, ?_⟩
  · intro p' c hc hbusy
    rw [hcalled.phase_of_ne (hne hc)] at hbusy
    rw [hcalled.turn]
    exact h.busy p' c hc hbusy
  · rw [hcalled.files, hcalled.main]
    exact h.loading
  · intro hmain p' c hc id left hdone
    rw [hcalled.main] at hmain
    rw [hcalled.phase_of_ne (hne hc)] at hdone
    obtain ⟨hturn, hb⟩ := h.failed hmain p' c hc id left hdone
    rw [hcalled.turn]
    exact ⟨hturn, hbare hb⟩
  · intro left hmain k hk
    rw [hcalled.main] at hmain
    rw [hcalled.files] at hk
    have hours := ours_of_mem hk
    rcases h.released left hmain k hk with hleft | hphase | hnone
    · exact Or.inl hleft
    · refine Or.inr (Or.inl ?_)
      rw [State.phase, hcalled.phase_of_ne (hne hours)]
      exact hphase
    · exact Or.inr (Or.inr (hcalled.noneOf_of_ne (hne hours) hnone))
  · intro hmain
    rw [hcalled.main] at hmain
    exact hbare (h.returned hmain)

/-- **So do their transactions, if they are gentle while locks are taken.** -/
theorem commits (h : Steady q) {db' : Db} (hdb : Follows q.db db')
    (hgentle : q.main.isLocking = true → Gentle q db') : Steady { q with db := db' } where
  keys := hdb.keys
  locks := by
    constructor
    · intro p hnone
      refine h.locks.unused p ?_
      rw [Option.eq_none_iff_forall_not_mem]
      intro fileId hid
      have hafter := hdb.fileIdAt hid
      rw [hnone] at hafter
      cases hafter
    · intro p fileId hid
      cases hold : fileIdAt q.db p with
      | none =>
          show IntervalLock.Steady db'.offset fileId Ours _ (q.locks p)
          rw [h.locks.unused p hold]
          exact IntervalLock.Steady.start _ _ _ _
      | some g =>
          obtain rfl : g = fileId := Option.mem_unique (hdb.fileIdAt hold) hid
          refine (h.locks.steady p g hold).commit (hdb.keeps g) fun c hc hbusy => ?_
          -- only the context whose turn it is can be busy
          obtain ⟨k, hk, rfl, rfl⟩ := h.busy p c hc hbusy
          obtain ⟨i, j, hmain⟩ := locking_of_turn hk
          obtain ⟨hapart, hfilled⟩ := hgentle (by rw [hmain]; rfl)
          obtain ⟨f, hf, hpath⟩ := path_of_mem (turn_mem hk)
          exact ⟨hapart f hf g (hpath ▸ hid), hfilled k hk⟩
  known f hf := by
    obtain ⟨fileId, hid⟩ := h.known f hf
    exact ⟨fileId, hdb.fileIdAt hid⟩
  rowed := h.rowed.follows hdb
  apart hmain := (h.apart hmain).follows h.rowed hdb h.known (hgentle hmain).1
  busy := h.busy
  numIt := h.numIt
  loading := h.loading
  failed := h.failed
  released := h.released
  returned := h.returned

/-- **A smooth call of `zk_acquire_lock`.** -/
theorem call (h : Steady q) {k : Context} (hcall : Acquires q k b)
    (hcalled : Called k.filePath b q q') : Steady q' := by
  obtain ⟨i, j, hmain⟩ := locking_of_turn hcall.turn
  have hlocking : q.main.isLocking = true := by
    rw [hmain]
    rfl
  obtain ⟨hkeys, hknown, hrowed, hapart, hnum⟩ := hcalled.stands h
  refine ⟨hkeys, hcalled.locks h.locks fun fileId hid hsteady hstep =>
    hcall.steady h.keys (h.apart hlocking) hid hsteady hstep, hknown, hrowed, hapart, ?_, hnum,
    ?_, ?_, ?_, ?_⟩
  · intro p' c hc hbusy
    rw [hcalled.turn]
    by_cases hself : p' = k.filePath ∧ c = b.actor
    · obtain ⟨rfl, rfl⟩ := hself
      exact ⟨k, hcall.turn, rfl, hcall.actor.symm⟩
    · rw [hcalled.phase_of_ne fun hp hc => hself ⟨hp, hc⟩] at hbusy
      exact h.busy p' c hc hbusy
  · rw [hcalled.main, hmain]
    intro hmain
    cases hmain
  · intro hret p' c hc id left hdone
    rw [hcalled.main] at hret
    rw [hcalled.turn]
    by_cases hself : p' = k.filePath ∧ c = b.actor
    · obtain ⟨rfl, rfl⟩ := hself
      exact ⟨⟨k, hcall.turn, rfl, hcall.actor.symm⟩, hcall.bare h.locks hcalled hdone⟩
    · have hne : p' = k.filePath → c ≠ b.actor := fun hp hc => hself ⟨hp, hc⟩
      rw [hcalled.phase_of_ne hne] at hdone
      obtain ⟨⟨k', hk', hp, hclient⟩, -⟩ := h.failed hret p' c hc id left hdone
      obtain rfl : k' = k := Option.mem_unique hk' hcall.turn
      exact absurd (hclient.symm.trans hcall.actor.symm) (hne hp.symm)
  · intro left hrun
    rw [hcalled.main, hmain] at hrun
    cases hrun
  · intro hrun
    rw [hcalled.main, hmain] at hrun
    cases hrun

/-- A release makes nobody busy. -/
theorem not_busy_of_releasing {table : List OffsetRow} {fileId : ℕ} {σ τ : IntervalLock.System}
    (hpart : part b = .releasing) (hstep : IntervalLock.step table fileId p b σ = some τ) :
    (τ.phase b.actor).busy = false := by
  obtain ⟨d, p', rfl, hgoes⟩ := IntervalLock.goes_of_step hstep
  rw [System.phase_enter_self]
  cases hgoes with
  | release h => rfl
  | delete h => split <;> rfl
  | _ => cases hpart

/-- **A call of `zk_release_lock` while the threads run.** -/
theorem release (h : Steady q) {k : Context} {through : Bool}
    {left : List Context} (hmain : q.main = .running through left) (hk : k ∈ contexts q.files)
    (hcalled : Called k.filePath b q q') (hactor : b.actor = k.client)
    (hpart : part b = .releasing)
    (hleft : through = false → leavesNode (q.phase k) b = true →
      NoneOf IntervalLock.Node.client k.client (q.locks k.filePath).dir) :
    Steady { q' with
      main := .running through (if (releaser b).isSome then left.erase k else left) } := by
  have hours : Ours b.actor := hactor ▸ ours_of_mem hk
  have hphase : (q.locks k.filePath).phase b.actor = q.phase k := by
    rw [hactor]
    rfl
  have htidy := h.tidy k.filePath hours
  have hturn : q.turn = none := by simp [State.turn, hmain]
  have hidle : ∀ p c, Ours c → ((q.locks p).phase c).busy ≠ true := by
    intro p c hc hbusy
    obtain ⟨k', hk', -⟩ := h.busy p c hc hbusy
    rw [hturn] at hk'
    cases hk'
  obtain ⟨fileId, hid, hstep⟩ := hcalled.step
  obtain ⟨hkeys, hknown, hrowed, -, hnum⟩ := hcalled.stands h
  refine ⟨hkeys, ?_, hknown, hrowed, ?_, ?_, hnum, ?_, ?_, ?_, ?_⟩
  · obtain ⟨hlossy, hacquires, hlists⟩ := plain_of_releasing hpart
    refine hcalled.locks h.locks fun fileId hid hsteady hstep => ?_
    refine hsteady.step h.keys.ids h.keys.bound (by simp [hlists]) hours ?_
      ⟨hlossy, by simp [hacquires], by simp [hlists]⟩ hstep
    intro id heq
    rw [heq] at hpart
    cases hpart
  · intro hlocking
    cases hlocking
  · intro p' c hc hbusy
    by_cases hself : p' = k.filePath ∧ c = b.actor
    · obtain ⟨rfl, rfl⟩ := hself
      rw [not_busy_of_releasing hpart hstep] at hbusy
      cases hbusy
    · have hbusy : ((q'.locks p').phase c).busy = true := hbusy
      rw [hcalled.phase_of_ne fun hp hc => hself ⟨hp, hc⟩] at hbusy
      exact absurd hbusy (hidle p' c hc)
  · intro hload
    cases hload
  · intro _ p' c hc id left' hdone
    by_cases hself : p' = k.filePath ∧ c = b.actor
    · obtain ⟨rfl, rfl⟩ := hself
      exact absurd hdone (ne_done_of_releasing htidy hpart hstep id left')
    · have hne : p' = k.filePath → c ≠ b.actor := fun hp hc => hself ⟨hp, hc⟩
      have hdone : (q'.locks p').phase c = .done id left' false := hdone
      rw [hcalled.phase_of_ne hne] at hdone
      obtain ⟨⟨k', hk', -⟩, -⟩ := h.failed (by simp [hmain]) p' c hc id left' hdone
      rw [hturn] at hk'
      cases hk'
  · intro left' hrun k' hk'
    obtain ⟨rfl, rfl⟩ := Main.running.inj hrun
    have hk' : k' ∈ contexts q'.files := hk'
    rw [hcalled.files] at hk'
    show _ ∨ isReleasing ((q'.locks k'.filePath).phase k'.client) = true ∨
      NoneOf IntervalLock.Node.client k'.client (q'.locks k'.filePath).dir
    by_cases hself : k'.filePath = k.filePath ∧ k'.client = b.actor
    · obtain ⟨hp, hc⟩ := hself
      rw [hp, hc]
      refine Or.inr (isReleasing_or_noneOf htidy hpart ?_ hstep)
      rw [hphase, hactor]
      exact hleft rfl
    · have hne : k'.filePath = k.filePath → k'.client ≠ b.actor := fun hp hc => hself ⟨hp, hc⟩
      rcases h.released left hmain k' hk' with hmem | hrel | hnone
      · refine Or.inl ?_
        split
        · refine (List.mem_erase_of_ne ?_).2 hmem
          rintro rfl
          exact hself ⟨rfl, hactor.symm⟩
        · exact hmem
      · refine Or.inr (Or.inl ?_)
        rw [hcalled.phase_of_ne hne]
        exact hrel
      · exact Or.inr (Or.inr (hcalled.noneOf_of_ne hne hnone))
  · intro hret
    cases hret

/-- No context is being locked, nor has one been refused. -/
structure Rests (q : State) : Prop where
  busy : ∀ p c, Ours c → ((q.locks p).phase c).busy ≠ true
  done : ∀ p c, Ours c → ∀ id left, (q.locks p).phase c ≠ .done id left false

theorem rests (h : Steady q) (hmain : ∀ ret, q.main ≠ .returned ret) (hturn : q.turn = none) :
    Rests q where
  busy p c hc hbusy := by
    obtain ⟨k, hk, -⟩ := h.busy p c hc hbusy
    rw [hturn] at hk
    cases hk
  done p c hc id left hdone := by
    obtain ⟨⟨k, hk, -⟩, -⟩ := h.failed hmain p c hc id left hdone
    rw [hturn] at hk
    cases hk

/-- The selection goes on. -/
theorem enter (h : Steady q) {m : Main} (hload : m ≠ .loading) (hrests : Rests q)
    (hlocking : m.isLocking = true → q.main.isLocking = true) (hret : ∀ ret, m ≠ .returned ret)
    (hrun : ∀ left, m = .running false left → ∀ k ∈ contexts q.files, k ∈ left) :
    Steady { q with main := m } where
  keys := h.keys
  locks := h.locks
  known := h.known
  rowed := h.rowed
  apart hmain := h.apart (hlocking hmain)
  busy p c hc hbusy := absurd hbusy (hrests.busy p c hc)
  numIt := h.numIt
  loading hmain := absurd hmain hload
  failed _ p c hc id left heq := absurd heq (hrests.done p c hc id left)
  released left hmain k hk := Or.inl (hrun left hmain k hk)
  returned hmain := absurd hmain (hret _)

/-- The selection returns. -/
theorem exit (h : Steady q) {ret : ℤ} (hidle : ∀ p c, Ours c → ((q.locks p).phase c).busy ≠ true)
    (hbare : ret = -1 → Bare q) : Steady { q with main := .returned ret } where
  keys := h.keys
  locks := h.locks
  known := h.known
  rowed := h.rowed
  apart hmain := by cases hmain
  busy p c hc hbusy := absurd hbusy (hidle p c hc)
  numIt := h.numIt
  loading hmain := by cases hmain
  failed hmain := absurd rfl (hmain ret)
  released left hmain := by cases hmain
  returned hmain := hbare (Main.returned.inj hmain)

theorem bare_of_noneOf (h : Steady q) (hnone : ∀ k ∈ contexts q.files,
    NoneOf IntervalLock.Node.client k.client (q.locks k.filePath).dir) : Bare q := by
  intro f hf e he hours
  obtain ⟨fileId, hid⟩ := h.known f hf
  exact hnone _ ((h.locks.steady _ fileId hid).node e he hours) e he rfl

theorem load (h : Steady q) (hmain : q.main = .loading) {rows : List FetchRow}
    (hrows : Fetched q.db name rows) (hle : ∀ row ∈ rows, row.base ≤ row.bound)
    (hload : querySelectNamedRange filter rows = some files) :
    Steady { q with files := files, main := if lock then .locking 0 0 else .committing } := by
  obtain ⟨hpaths, hloaded⟩ := querySelectNamedRange_loaded hrows.sorted hload
  have horder : ∀ f ∈ files, InOrder q.db f := by
    intro f hf
    obtain ⟨os, hos⟩ := hloaded f hf
    exact inOrder_of_loadedFrom hrows hle hos
  have hturn : q.turn = none := by
    unfold State.turn
    rw [hmain]
  have hrests := h.rests (by simp [hmain]) hturn
  refine ⟨h.keys, ⟨h.locks.unused, fun p fileId hid => ?_⟩, fun f hf => ?_, rowed_of_inOrder horder,
    fun _ => apart_of_inOrder h.keys hpaths horder,
    fun p c hc hbusy => absurd hbusy (hrests.busy p c hc), fun f hf => (horder f hf).numIt,
    ?_, ?_, ?_, ?_⟩
  · refine (h.locks.steady p fileId hid).mono fun c id hmem => ?_
    rw [h.loading hmain] at hmem
    cases hmem
  · obtain ⟨os, hos⟩ := hloaded f hf
    obtain ⟨row, hrow, hpath⟩ := hos.path
    rw [← hpath]
    exact exists_fileIdAt (hrows.perm.mem_iff.1 hrow)
  · intro hmain
    cases lock <;> cases hmain
  · intro _ p c hc id left heq
    exact absurd heq (hrests.done p c hc id left)
  · intro left hmain
    cases lock <;> cases hmain
  · intro hmain
    cases lock <;> cases hmain

/-- **From one context to the next.** -/
theorem next (h : Steady q) (hstep : step name filter lock .next q = some q') : Steady q' := by
  simp only [step] at hstep
  split at hstep
  · rename_i i j hmain
    have hret : ∀ ret, q.main ≠ .returned ret := by simp [hmain]
    have hlocking : q.main.isLocking = true := by
      rw [hmain]
      rfl
    split at hstep
    · rename_i hf
      cases hstep
      have hturn : q.turn = none := by simp [State.turn, hmain, hf]
      exact h.enter (by simp) (h.rests hret hturn) (fun _ => hlocking) (by simp) (by simp)
    · rename_i f hf
      split at hstep
      · rename_i hn
        cases hstep
        have hturn : q.turn = none := by simp [State.turn, hmain, hf, hn]
        have hnum : ¬ j < f.list.numIt := by
          rw [h.numIt f (List.mem_of_getElem? hf)]
          exact Nat.not_lt.2 (List.getElem?_eq_none_iff.1 hn)
        rw [if_neg hnum]
        exact h.enter (by simp) (h.rests hret hturn) (fun _ => hlocking) (by simp) (by simp)
      · rename_i n hn
        have hturn : q.turn = some ⟨f.filePath, 2 * j, n.id⟩ := by
          simp [State.turn, hmain, hf, hn]
        -- the context whose turn it is has come to an end
        have hidle : ∀ id left acquired,
            (q.locks f.filePath).phase (2 * j) = .done id left acquired →
            ∀ p c, Ours c → ((q.locks p).phase c).busy ≠ true := by
          intro id left acquired hphase p c hc hbusy
          obtain ⟨k, hk, rfl, rfl⟩ := h.busy p c hc hbusy
          rw [hturn] at hk
          cases hk
          rw [hphase] at hbusy
          cases hbusy
        split at hstep
        · rename_i id left hphase
          cases hstep
          refine h.enter (by simp) ⟨hidle id left true hphase, fun p c hc id' left' hdone => ?_⟩
            (fun _ => hlocking) (by simp) (by simp)
          obtain ⟨⟨k, hk, hp, hclient⟩, -⟩ := h.failed hret p c hc id' left' hdone
          rw [hturn] at hk
          cases hk
          subst hp hclient
          rw [hphase] at hdone
          cases hdone
        · rename_i id left hphase
          cases hstep
          exact h.exit (hidle id left false hphase) fun _ =>
            (h.failed hret _ _ (Nat.mul_mod_right 2 j) id left hphase).2
        · cases hstep
  · cases hstep

theorem commit (h : Steady q) (hmain : q.main = .committing) {ok : Bool}
    (hbare : ok = false → Bare q) : Steady { q with
      main := if ok = false then .returned (-1) else if lock then .preparing
        else .returned 0 } := by
  have hturn : q.turn = none := by simp [State.turn, hmain]
  have hrests := h.rests (by simp [hmain]) hturn
  cases ok with
  | false => exact h.exit hrests.busy fun _ => hbare rfl
  | true =>
      cases lock with
      | false => exact h.exit hrests.busy (by simp)
      | true => exact h.enter (by simp) hrests (by simp [Main.isLocking]) (by simp) (by simp)

theorem prepare (h : Steady q) (hmain : q.main = .preparing) {ok through : Bool}
    (hbare : ok = false → Bare q) : Steady { q with
      main := if ok then .running through (contexts q.files) else .returned (-1) } := by
  have hturn : q.turn = none := by simp [State.turn, hmain]
  have hrests := h.rests (by simp [hmain]) hturn
  cases ok with
  | false => exact h.exit hrests.busy fun _ => hbare rfl
  | true =>
      refine h.enter (by simp) hrests (by simp [Main.isLocking]) (by simp) ?_
      rintro left ⟨⟩ k hk
      exact hk

/-- Once every context has been released the range is bare. -/
theorem finish (h : Steady q) {through : Bool} {left : List Context}
    (hmain : q.main = .running through left) (hleft : through = true ∨ left = [])
    (hquiet : ∀ k ∈ contexts q.files, isReleasing (q.phase k) = false) :
    Steady { q with main := .returned (if through then 0 else -1) } := by
  have hturn : q.turn = none := by simp [State.turn, hmain]
  have hrests := h.rests (by simp [hmain]) hturn
  cases through with
  | true => exact h.exit hrests.busy (by simp)
  | false =>
      refine h.exit hrests.busy fun _ => h.bare_of_noneOf fun k hk => ?_
      obtain rfl : left = [] := hleft.resolve_left (by simp)
      rcases h.released [] hmain k hk with hmem | hrel | hnone
      · cases hmem
      · rw [hquiet k hk] at hrel
        cases hrel
      · exact hnone

/-- **The step lemma.** -/
theorem step (h : Steady q) (hsmooth : Smooth a q)
    (hstep : step name filter lock a q = some q') : Steady q' := by
  obtain ⟨hle, hcall, hrefuses, hreleases, hleaves⟩ := hsmooth
  cases a with
  | load rows =>
      simp only [Select.step] at hstep
      split at hstep
      · rename_i hrows
        obtain ⟨files, hload, rfl⟩ := Option.map_eq_some_iff.1 hstep
        exact h.load hrows.1 hrows.2 hle hload
      · cases hstep
  | loadFails =>
      simp only [Select.step] at hstep
      split at hstep
      · rename_i hmain
        cases hstep
        have hturn : q.turn = none := by simp [State.turn, hmain]
        refine h.exit (h.rests (by simp [hmain]) hturn).busy fun _ f hf => ?_
        rw [h.loading hmain] at hf
        cases hf
      · cases hstep
  | call b =>
      obtain ⟨k, hk, hstep⟩ := Option.bind_eq_some_iff.1 hstep
      split at hstep
      · rename_i hcond
        obtain ⟨hactor, hpart, hwanted⟩ := hcond
        obtain ⟨hlossy, hgives, hfree⟩ := hcall k hk b rfl
        exact h.call ⟨hk, hactor, hpart, hwanted, hlossy, hgives, hfree⟩ (called_of_lock hstep)
      · cases hstep
  | next => exact h.next hstep
  | commit ok =>
      simp only [Select.step] at hstep
      split at hstep
      · rename_i hmain
        cases hstep
        exact h.commit hmain fun hok => hrefuses (by rw [hok]; rfl)
      · cases hstep
  | prepare ok through =>
      simp only [Select.step] at hstep
      split at hstep
      · rename_i hmain
        cases hstep
        exact h.prepare hmain fun hok => hrefuses (by rw [hok]; rfl)
      · cases hstep
  | release k b =>
      simp only [Select.step] at hstep
      split at hstep
      · rename_i through left hmain
        split at hstep
        · rename_i hcond
          obtain ⟨hk, hactor, hpart, -⟩ := hcond
          obtain ⟨q₁, hlock, rfl⟩ := Option.map_eq_some_iff.1 hstep
          refine h.release hmain hk (called_of_lock hlock) hactor hpart fun hthrough => ?_
          exact hreleases (k, b) rfl (by rw [hmain, hthrough]; rfl)
        · cases hstep
      · cases hstep
  | finish =>
      simp only [Select.step] at hstep
      split at hstep
      · rename_i through left hmain
        split at hstep
        · rename_i hcond
          cases hstep
          exact h.finish hmain hcond.1 hcond.2
        · cases hstep
      · cases hstep
  | other filePath b =>
      simp only [Select.step] at hstep
      split at hstep
      · cases hstep
      · rename_i hother
        exact h.other (called_of_lock hstep) hother
  | commits db' =>
      simp only [Select.step] at hstep
      split at hstep
      · rename_i hdb
        cases hstep
        exact h.commits hdb (hleaves db' rfl)
      · cases hstep

theorem clean (h : Steady q) : Clean q where
  single p c hc e he e' he' howner howner' := by
    obtain ⟨fileId, hsteady⟩ := h.locks.exists_steady p
    exact (hsteady.tidy c hc).unique hsteady.labelled.numbered he he' howner howner'
  error p c id left hc hdone := (h.tidy p hc).noneOf_of_fresh (by rw [hdone]; rfl)
  returned := h.returned
  admitted p c id count lockName children newInterval rows hc hphase := by
    obtain ⟨fileId, hsteady⟩ := h.locks.exists_steady p
    have hadm := hsteady.admitted c hc
    rw [hphase] at hadm
    exact hadm

end Steady

/-- **A smooth selection stays clean**, whatever the other clients do. -/
theorem clean_of_smooth (hkeys : Keys db.offset)
    (h : Reach (step name filter lock) Smooth (start db) q) : Clean q :=
  Steady.clean (h.invariant (Steady.start hkeys) fun _ _ _ hs hsmooth hstep =>
    hs.step hsmooth hstep)

/-- **A client whose own steps are smooth has one node at most in a directory, none after an error
and none in the range after -1, and is never kept out by a node of its own**, whatever the others
do. -/
theorem nodes_of_smooth (filePath : Text) (c : ℕ) (σ : MasterLock.System) (db : Db) (name : Text)
    (filter : List Text) (lock : Bool) (q : State) :
    (Reach (MasterLock.step filePath) (MasterLock.Smooth c) MasterLock.start σ →
      MasterLock.Neat filePath c σ) ∧
    (Keys db.offset → Reach (step name filter lock) Smooth (start db) q → Clean q) := by
  constructor
  · intro h
    exact MasterLock.neat_of_smooth h
  · intro hkeys h
    exact clean_of_smooth hkeys h

/-! ## Runs -/

/-- Two ranges with one row each, which overlap. -/
def twoRanges : Db where
  rangeName := [⟨1, ['r'], true⟩, ⟨2, ['q'], true⟩]
  file := [⟨1, ['/', 'f']⟩]
  rangeFileJunction := [⟨1, 1⟩, ⟨2, 1⟩]
  offset := [⟨1, 1, 1, 0, 5, false⟩, ⟨2, 1, 2, 3, 8, false⟩]
  nextRangeId := 3
  nextFileId := 2
  nextOffsetId := 3

/-- The same after a push of the second range, whose row has grown. -/
def twoRangesGrown : Db :=
  { twoRanges with offset := [⟨1, 1, 1, 0, 5, false⟩, ⟨2, 1, 2, 3, 9, false⟩] }

/-- The row is locked at the second attempt while another client comes behind it and a third pushes;
the threads fail and release it. -/
def lockedAndReleased : List Act :=
  [.load [⟨1, ['/', 'f'], 1, 0, 5, false⟩], .call (.acquire 0 1), .call (.createFails 0),
    .call (.create 0 0), .other ['/', 'f'] (.acquire 1 2), .other ['/', 'f'] (.create 1 1),
    .call (.list 0 [IntervalLock.intervalNode 2 1, IntervalLock.intervalNode 1 0]),
    .commits twoRangesGrown, .call (.readRows 0 twoRangesGrown.offset),
    .call (.decide 0 fun _ _ => ZOK), .next, .next, .next,
    .commit true, .prepare true false, .release ⟨['/', 'f'], 0, 1⟩ (.release 0),
    .release ⟨['/', 'f'], 0, 1⟩ (.delete 0 true true), .finish]

/-- A writer that takes the master lock and releases it. -/
def writesAlone : List MasterLock.Act :=
  [.acquire 0 .write, .create 0 0, .list 0 [lockNode MasterLock.Kind.write.word 0],
    .decide 0 fun _ _ => ZOK, .release 0, .delete 0 true true]

theorem nodes_of_smooth_two :
    ∃ σ q, Reach (MasterLock.step ['/', 'f']) (MasterLock.Smooth 0) MasterLock.start σ ∧
      Reach (step ['r'] [] true) Smooth (start twoRanges) q ∧
      q.main = .returned (-1) ∧ (q.locks ['/', 'f']).dir.nodes = [(1, ⟨1, 2⟩)] ∧
      MasterLock.Neat ['/', 'f'] 0 σ ∧ Clean q := by
  have hrun : ((runGuarded (MasterLock.step ['/', 'f']) (MasterLock.Smooth 0) writesAlone
      MasterLock.start).map fun _ => 0) = some 0 := by decide +kernel
  obtain ⟨σ, hσ, -⟩ := Option.map_eq_some_iff.1 hrun
  have hrun' : ((runGuarded (step ['r'] [] true) Smooth lockedAndReleased
      (start twoRanges)).map fun q => (q.main, (q.locks ['/', 'f']).dir.nodes)) =
        some (.returned (-1), [(1, ⟨1, 2⟩)]) := by decide +kernel
  obtain ⟨q, hq, heq⟩ := Option.map_eq_some_iff.1 hrun'
  obtain ⟨hmain, hnodes⟩ := Prod.mk.inj heq
  have hreach := reach_of_runGuarded hσ
  have hreach' := reach_of_runGuarded hq
  obtain ⟨hneat, hclean⟩ := nodes_of_smooth ['/', 'f'] 0 σ twoRanges ['r'] [] true q
  exact ⟨σ, q, hreach, hreach', hmain, hnodes, hneat hreach, hclean ⟨by decide, by decide⟩ hreach'⟩

/-- One answer is lost after the node has been created. -/
def listLost : List Act :=
  [.load [⟨1, ['/', 'f'], 1, 0, 5, false⟩], .call (.acquire 0 1), .call (.create 0 0),
    .call (.listFails 0), .call (.create 0 1),
    .call (.list 0 [IntervalLock.intervalNode 1 0, IntervalLock.intervalNode 1 1]),
    .call (.readRows 0 twoRanges.offset), .call (.decide 0 fun _ _ => ZOK), .next]

/-- The context stands behind its own first node, and both nodes stay when -1 is returned. -/
theorem listLost_leaves_nodes : ∃ q,
    Reach (step ['r'] [] true) (fun _ _ => True) (start twoRanges) q ∧
    q.main = .returned (-1) ∧ (q.locks ['/', 'f']).dir.nodes = [(0, ⟨0, 1⟩), (1, ⟨0, 1⟩)] ∧
    (∃ relevant, IntervalLock.sortedRelevantIntervals
        [IntervalLock.intervalNode 1 0, IntervalLock.intervalNode 1 1] ⟨1, 0, 5⟩
        [⟨1, 0, 5⟩, ⟨2, 3, 8⟩] = some relevant ∧
      IntervalLock.eligibility (IntervalLock.intervalNode 1 1) relevant = .behind ⟨⟨1, 0, 5⟩, 0⟩) ∧
    ¬ Clean q := by
  have hrun : ((runGuarded (step ['r'] [] true) (fun _ _ => True) listLost
      (start twoRanges)).map fun q => (q.main, (q.locks ['/', 'f']).dir.nodes)) =
        some (.returned (-1), [(0, ⟨0, 1⟩), (1, ⟨0, 1⟩)]) := by decide +kernel
  obtain ⟨q, hq, heq⟩ := Option.map_eq_some_iff.1 hrun
  obtain ⟨hmain, hnodes⟩ := Prod.mk.inj heq
  refine ⟨q, reach_of_runGuarded hq, hmain, hnodes, ⟨_, rfl, by decide +kernel⟩, fun hclean => ?_⟩
  have hsame := hclean.single ['/', 'f'] 0 rfl (0, ⟨0, 1⟩) (by simp [hnodes]) (1, ⟨0, 1⟩)
    (by simp [hnodes]) rfl rfl
  cases hsame

end Select

end Yacet
