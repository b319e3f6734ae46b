import Yacet.IntervalCheck
import Yacet.Load
import Yacet.Lib.Steps
import Yacet.Lib.Tickets

/-!
# Interval locks (`zkclient.c`)

A client that wants a row creates a numbered node for it, lists the directory, reads the rows of the
file and decides; every answer can be lost, and an attempt that fails leaves its node behind.  A
client that wants several rows takes part once for each.

* `step` — any number of clients; the table does not change.
* `Phase.Ok` — what a client knows: its list holds every node in front of its own, and once it has
  the lock no node in front belongs to its row or to one that overlaps it.
* `holders_apart` — **two clients that both have `lock_acquired = 1` and their nodes hold different
  rows that do not overlap**, in every run.
-/

namespace Yacet

open CText Tickets Steps

namespace IntervalLock

/-! ## Clients -/

/-- Who made a node, and for which row. -/
structure Node where
  client : ℕ
  id : ℕ
  deriving DecidableEq, Repr

def nodeName (e : ℕ × Node) : Text := intervalNode e.2.id e.1

/-- `<file>/interval/<name>`. -/
def fullPath (filePath name : Text) : Text :=
  lockPath filePath ['i', 'n', 't', 'e', 'r', 'v', 'a', 'l'] name

/-- Where a client stands with the row `id`.  `count` calls have failed before, `left` is the
`lock_name` of an earlier attempt.  `lock_acquired` is 0 until `zk_acquire_lock` has returned. -/
inductive Phase
  | idle
  | trying (id count : ℕ) (left : Option Text)
  | created (id count : ℕ) (lockName : Text)
  | listed (id count : ℕ) (lockName : Text) (children : List Text)
  | ready (id count : ℕ) (lockName : Text) (children : List Text) (newInterval : ItNode)
      (rows : List ItNode)
  | done (id : ℕ) (left : Option Text) (lockAcquired : Bool)
  | releasing (id : ℕ) (lockName : Text) (lockAcquired : Bool) (count : ℕ)
  deriving DecidableEq, Repr

abbrev System := Tickets.System Node Phase

def start : System := ⟨Dir.empty, fun _ => .idle⟩

/-- A call and what ZooKeeper and the database make of it. -/
inductive Act
  | acquire (c id : ℕ)
  | parentFails (c : ℕ)
  | create (c s : ℕ)
  | createLost (c s : ℕ)
  | createFails (c : ℕ)
  | list (c : ℕ) (children : List Text)
  | listFails (c : ℕ)
  | readRows (c : ℕ) (rows : List OffsetRow)
  | readRowsFails (c : ℕ)
  | decide (c : ℕ) (server : ℕ → Text → ℤ)
  | release (c : ℕ)
  | delete (c : ℕ) (made answered : Bool)
  | leave (c : ℕ)

/-- The next attempt of `zk_acquire_lock`, or the end of it. -/
def Phase.failed (id count : ℕ) (left : Option Text) : Phase :=
  if count + 1 < 3 then .trying id (count + 1) left else .done id left false

/-- `zoo_delete`. -/
def zooDelete (filePath path : Text) (d : Dir Node) : Dir Node :=
  d.remove fun e => fullPath filePath (nodeName e) == path

/-- Behind the decision: a client that is not let in looks once more for the node in front of it. -/
def Phase.decided (filePath : Text) (server : ℕ → Text → ℤ) (id count : ℕ) (lockName : Text) :
    Decision → Option Phase
  | .empty => some (.failed id count (some lockName))
  | .acquired => some (.done id (some lockName) true)
  | .behind x =>
    let path := fullPath filePath (intervalNode x.interval.id x.sequence.toNat)
    some (if existsRetry server (some path) = ZOK then .done id (some lockName) false
      else .failed id count (some lockName))
  | .fault => none

/-- The rows of the file. -/
def fileRows (table : List OffsetRow) (fileId : ℕ) : List OffsetRow :=
  table.filter fun r => r.fileId = fileId

/-- One step of one client. -/
def step (table : List OffsetRow) (fileId : ℕ) (filePath : Text) : Act → System → Option System
  | .acquire c id, σ =>
    if ∃ r ∈ fileRows table fileId, r.offsetId = id then
      match σ.phase c with
      | .idle => some (σ.enter c (.trying id 0 none))
      | .done _ _ _ => some (σ.enter c (.trying id 0 none))
      | _ => none
    else none
  | .parentFails c, σ =>
    match σ.phase c with
    | .trying id 0 left => some (σ.enter c (.done id left false))
    | _ => none
  | .create c s, σ =>
    match σ.phase c with
    | .trying id count _ =>
      if σ.dir.next ≤ s ∧ s < seqBound then
        (getLockName (fullPath filePath (intervalNode id s))).map fun lockName =>
          System.enter ⟨σ.dir.add s ⟨c, id⟩, σ.phase⟩ c (.created id count lockName)
      else none
    | _ => none
  | .createLost c s, σ =>
    match σ.phase c with
    | .trying id count left =>
      if σ.dir.next ≤ s ∧ s < seqBound then
        some (System.enter ⟨σ.dir.add s ⟨c, id⟩, σ.phase⟩ c (.failed id count left))
      else none
    | _ => none
  | .createFails c, σ =>
    match σ.phase c with
    | .trying id count left => some (σ.enter c (.failed id count left))
    | _ => none
  | .list c children, σ =>
    match σ.phase c with
    | .created id count lockName =>
      if children.Perm (σ.dir.nodes.map nodeName) then
        some (σ.enter c (.listed id count lockName children))
      else none
    | _ => none
  | .listFails c, σ =>
    match σ.phase c with
    | .created id count lockName => some (σ.enter c (.failed id count (some lockName)))
    | _ => none
  | .readRows c rows, σ =>
    match σ.phase c with
    | .listed id count lockName children =>
      if rows.Perm (fileRows table fileId) then
        (rowOf table id).map fun r =>
          σ.enter c (.ready id count lockName children r.node (rows.map OffsetRow.node))
      else none
    | _ => none
  | .readRowsFails c, σ =>
    match σ.phase c with
    | .listed id count lockName _ => some (σ.enter c (.failed id count (some lockName)))
    | _ => none
  | .decide c server, σ =>
    match σ.phase c with
    | .ready id count lockName children newInterval rows =>
      (sortedRelevantIntervals children newInterval rows).bind fun relevant =>
        (Phase.decided filePath server id count lockName (eligibility lockName relevant)).map
          (σ.enter c)
    | _ => none
  | .release c, σ =>
    match σ.phase c with
    | .done id (some lockName) lockAcquired =>
      some (σ.enter c (.releasing id lockName lockAcquired 0))
    | _ => none
  | .delete c made answered, σ =>
    match σ.phase c with
    | .releasing id lockName lockAcquired count =>
      let dir := if made then zooDelete filePath (fullPath filePath lockName) σ.dir else σ.dir
      some (System.enter ⟨dir, σ.phase⟩ c
        (if answered = false ∧ count + 1 < 3 then .releasing id lockName lockAcquired (count + 1)
          else .done id (some lockName) lockAcquired))
    | _ => none
  | .leave c, σ =>
    match σ.phase c with
    | .done _ _ _ => some (System.enter ⟨σ.dir.remove fun e => e.2.client == c, σ.phase⟩ c .idle)
    | _ => none

/-- The row and the name of the lock a client has acquired. -/
def Phase.lock : Phase → Option (ℕ × Text)
  | .done id (some lockName) true => some (id, lockName)
  | .releasing id lockName true _ => some (id, lockName)
  | _ => none

/-- Client `c` has `lock_acquired = 1` for row `id`, and its node is still there. -/
def HasLock (σ : System) (c id : ℕ) : Prop :=
  ∃ lockName, (σ.phase c).lock = some (id, lockName) ∧ ∃ e ∈ σ.dir.nodes, nodeName e = lockName

/-! ## What a client knows -/

/-- The rows are the same or overlap. -/
def Blocks (table : List OffsetRow) (fileId i j : ℕ) : Prop :=
  i = j ∨ ∃ r ∈ fileRows table fileId, ∃ t ∈ fileRows table fileId,
    r.offsetId = i ∧ t.offsetId = j ∧ itConflict r.node t.node = true

theorem Blocks.symm {table : List OffsetRow} {fileId i j : ℕ} (h : Blocks table fileId i j) :
    Blocks table fileId j i := by
  rcases h with rfl | ⟨r, hr, t, ht, hi, hj, hconf⟩
  · exact Or.inl rfl
  · rw [itConflict_comm] at hconf
    exact Or.inr ⟨t, ht, r, hr, hj, hi, hconf⟩

/-- A list of the directory holds all nodes in front of number `s`, and none of that number for
another row. -/
structure Listed (id s : ℕ) (children : List Text) (d : Dir Node) : Prop where
  names : ∀ name ∈ children, ∃ e : ℕ × Node, name = nodeName e ∧ e.2.id < seqBound ∧
    e.1 < seqBound ∧ (e.1 = s → e.2.id = id)
  seen : Front (fun e => nodeName e ∈ children) s d

/-- What `query_select_file_intervals` has read for row `id`. -/
structure Fetched (table : List OffsetRow) (fileId id : ℕ) (newInterval : ItNode)
    (rows : List ItNode) : Prop where
  own : ∃ r ∈ fileRows table fileId, r.offsetId = id ∧ newInterval = r.node
  perm : rows.Perm ((fileRows table fileId).map OffsetRow.node)

/-- The own node and, once the lock is acquired, what stands in front of it. -/
structure Claimed (table : List OffsetRow) (fileId c id : ℕ) (lockName : Text)
    (lockAcquired : Bool) (s : ℕ) (d : Dir Node) : Prop where
  name : lockName = nodeName (s, ⟨c, id⟩)
  issued : Issued ⟨c, id⟩ s d
  clear : lockAcquired = true → Front (fun e => ¬ Blocks table fileId id e.2.id) s d

/-- What a client can rely on where it stands. -/
def Phase.Ok (table : List OffsetRow) (fileId c : ℕ) (d : Dir Node) : Phase → Prop
  | .idle => True
  | .trying id _ left => (∃ r ∈ fileRows table fileId, r.offsetId = id) ∧
      ∀ lockName ∈ left, ∃ s, Claimed table fileId c id lockName false s d
  | .created id _ lockName => (∃ r ∈ fileRows table fileId, r.offsetId = id) ∧
      ∃ s, lockName = nodeName (s, ⟨c, id⟩) ∧ Owns ⟨c, id⟩ s d
  | .listed id _ lockName children => (∃ r ∈ fileRows table fileId, r.offsetId = id) ∧
      ∃ s, lockName = nodeName (s, ⟨c, id⟩) ∧ Owns ⟨c, id⟩ s d ∧ Listed id s children d
  | .ready id _ lockName children newInterval rows => Fetched table fileId id newInterval rows ∧
      ∃ s, lockName = nodeName (s, ⟨c, id⟩) ∧ Owns ⟨c, id⟩ s d ∧ Listed id s children d
  | .done id left lockAcquired => ∀ lockName ∈ left,
      ∃ s, Claimed table fileId c id lockName lockAcquired s d
  | .releasing id lockName lockAcquired _ =>
      ∃ s, Claimed table fileId c id lockName lockAcquired s d

section Knowledge

variable {table : List OffsetRow} {fileId c id s t : ℕ} {lockName : Text} {lockAcquired : Bool}
  {children : List Text} {d : Dir Node} {v : Node} {gone : ℕ × Node → Bool}

theorem Listed.add (h : Listed id s children d) (hs : s < d.next) (ht : d.next ≤ t) :
    Listed id s children (d.add t v) := ⟨h.names, h.seen.add hs ht v⟩

theorem Listed.remove (h : Listed id s children d) : Listed id s children (d.remove gone) :=
  ⟨h.names, h.seen.remove gone⟩

theorem Claimed.add (h : Claimed table fileId c id lockName lockAcquired s d) (ht : d.next ≤ t) :
    Claimed table fileId c id lockName lockAcquired s (d.add t v) :=
  ⟨h.name, h.issued.add ht, fun hacq => (h.clear hacq).add h.issued.lt ht v⟩

theorem Claimed.remove (h : Claimed table fileId c id lockName lockAcquired s d) :
    Claimed table fileId c id lockName lockAcquired s (d.remove gone) :=
  ⟨h.name, h.issued.remove, fun hacq => (h.clear hacq).remove gone⟩

/-- **New nodes and the loss of others' nodes leave a client what it knows.** -/
theorem stable (table : List OffsetRow) (fileId : ℕ) :
    Stable Node.client (Phase.Ok table fileId) where
  add c d p t v h ht := by
    cases p with
    | idle => trivial
    | trying id count left =>
        refine ⟨h.1, fun lockName hname => ?_⟩
        obtain ⟨s, hs⟩ := h.2 lockName hname
        exact ⟨s, hs.add ht⟩
    | created id count lockName =>
        obtain ⟨hid, s, hs, hown⟩ := h
        exact ⟨hid, s, hs, hown.add ht⟩
    | listed id count lockName children =>
        obtain ⟨hid, s, hs, hown, hlist⟩ := h
        exact ⟨hid, s, hs, hown.add ht, hlist.add hown.lt ht⟩
    | ready id count lockName children newInterval rows =>
        obtain ⟨hfetch, s, hs, hown, hlist⟩ := h
        exact ⟨hfetch, s, hs, hown.add ht, hlist.add hown.lt ht⟩
    | done id left lockAcquired =>
        intro lockName hname
        obtain ⟨s, hs⟩ := h lockName hname
        exact ⟨s, hs.add ht⟩
    | releasing id lockName lockAcquired count =>
        obtain ⟨s, hs⟩ := h
        exact ⟨s, hs.add ht⟩
  remove c d p gone h hgone := by
    have hkept : ∀ {s id}, Owns ⟨c, id⟩ s d → Owns ⟨c, id⟩ s (d.remove gone) := by
      intro s id hown
      exact hown.remove fun hmem => hgone _ hown.present hmem rfl
    cases p with
    | idle => trivial
    | trying id count left =>
        refine ⟨h.1, fun lockName hname => ?_⟩
        obtain ⟨s, hs⟩ := h.2 lockName hname
        exact ⟨s, hs.remove⟩
    | created id count lockName =>
        obtain ⟨hid, s, hs, hown⟩ := h
        exact ⟨hid, s, hs, hkept hown⟩
    | listed id count lockName children =>
        obtain ⟨hid, s, hs, hown, hlist⟩ := h
        exact ⟨hid, s, hs, hkept hown, hlist.remove⟩
    | ready id count lockName children newInterval rows =>
        obtain ⟨hfetch, s, hs, hown, hlist⟩ := h
        exact ⟨hfetch, s, hs, hkept hown, hlist.remove⟩
    | done id left lockAcquired =>
        intro lockName hname
        obtain ⟨s, hs⟩ := h lockName hname
        exact ⟨s, hs.remove⟩
    | releasing id lockName lockAcquired count =>
        obtain ⟨s, hs⟩ := h
        exact ⟨s, hs.remove⟩

/-- Two failures leave another attempt, three end the acquisition. -/
theorem ok_failed {count : ℕ} {left : Option Text}
    (hid : ∃ r ∈ fileRows table fileId, r.offsetId = id)
    (h : ∀ lockName ∈ left, ∃ s, Claimed table fileId c id lockName false s d) :
    (Phase.failed id count left).Ok table fileId c d := by
  unfold Phase.failed
  split
  · exact ⟨hid, h⟩
  · exact h

/-- After a failed attempt the context keeps the name of its node. -/
theorem ok_failed_of_owns {count : ℕ} (hid : ∃ r ∈ fileRows table fileId, r.offsetId = id)
    (h : Owns ⟨c, id⟩ s d) :
    (Phase.failed id count (some (nodeName (s, ⟨c, id⟩)))).Ok table fileId c d := by
  apply ok_failed hid
  rintro _ ⟨⟩
  exact ⟨s, rfl, h.toIssued, fun hfalse => by cases hfalse⟩

/-! ## The decision -/

/-- A deletion by name takes the own node only. -/
theorem client_of_deleted {filePath : Text} (h : Issued ⟨c, id⟩ s d) {e : ℕ × Node}
    (he : e ∈ d.nodes)
    (hpath : (fullPath filePath (nodeName e) == fullPath filePath (nodeName (s, ⟨c, id⟩))) = true) :
    e.2.client = c := by
  have hname := lockPath_inj (beq_iff_eq.1 hpath)
  exact congrArg Node.client (eq_of_lockNode (fun v : Node => zeroPadded 0 v.id) h he hname)

/-- What a list of the directory tells. -/
theorem listed_of_perm (h : children.Perm (d.nodes.map nodeName)) (hown : Owns ⟨c, id⟩ s d)
    (hids : ∀ e ∈ d.nodes, e.2.id < seqBound) (hnum : ∀ e ∈ d.nodes, e.1 < seqBound) :
    Listed id s children d where
  names name hname := by
    obtain ⟨e, he, rfl⟩ := List.mem_map.1 (h.mem_iff.1 hname)
    refine ⟨e, rfl, hids e he, hnum e he, ?_⟩
    rintro rfl
    exact congrArg Node.id (hown.own e.2 he)
  seen e he _ := h.mem_iff.2 (List.mem_map_of_mem he)

end Knowledge

section Decision

variable {table : List OffsetRow} {fileId c id s : ℕ} {children : List Text} {d : Dir Node}
  {newInterval : ItNode} {rows : List ItNode} {relevant : List Relevant}

theorem mem_fileRows {r : OffsetRow} :
    r ∈ fileRows table fileId ↔ r ∈ table ∧ r.fileId = fileId := by
  simp [fileRows]

theorem id_lt (hbound : ∀ r ∈ table, r.offsetId < seqBound)
    (hid : ∃ r ∈ fileRows table fileId, r.offsetId = id) : id < seqBound := by
  obtain ⟨r, hr, rfl⟩ := hid
  exact hbound r (mem_fileRows.1 hr).1

theorem Fetched.id_lt (h : Fetched table fileId id newInterval rows)
    (hbound : ∀ r ∈ table, r.offsetId < seqBound) : ∀ n ∈ rows, n.id < seqBound := by
  intro n hn
  obtain ⟨r, hr, rfl⟩ := List.mem_map.1 (h.perm.mem_iff.1 hn)
  exact hbound r (mem_fileRows.1 hr).1

theorem Listed.scan (h : Listed id s children d) {name : Text} (hname : name ∈ children) :
    ∃ e : ℕ × Node, sscanfLock name = some ⟨e.2.id, e.1⟩ ∧ e.2.id < seqBound ∧ e.1 < seqBound ∧
      (e.1 = s → e.2.id = id) := by
  obtain ⟨e, rfl, hid, hlt, hown⟩ := h.names name hname
  exact ⟨e, sscanfLock_intervalNode (hid.trans (by decide)) hlt, hid, hlt, hown⟩

/-- **A client that is let in has no node of its row or of an overlapping one in front of it.** -/
theorem Listed.clear_of_acquired (h : Listed id s children d) (hs : s < seqBound)
    (hd : ∀ e ∈ d.nodes, e.2.id < seqBound) (hids : (table.map OffsetRow.offsetId).Nodup)
    (hbound : ∀ r ∈ table, r.offsetId < seqBound)
    (hfetch : Fetched table fileId id newInterval rows)
    (hrel : sortedRelevantIntervals children newInterval rows = some relevant)
    (hacq : eligibility (nodeName (s, ⟨c, id⟩)) relevant = .acquired) :
    Front (fun e => ¬ Blocks table fileId id e.2.id) s d := by
  obtain ⟨hmem, -, hsorted⟩ := relevant_of_names hrel near_of_lt (by
    intro name hname
    obtain ⟨e, hscan, hid, hlt, -⟩ := h.scan hname
    exact ⟨_, hscan, hid, Int.natCast_nonneg _, Int.ofNat_lt.2 hlt⟩) (hfetch.id_lt hbound)
  obtain ⟨⟨x, hx, hxs⟩, hle⟩ := (acquired_iff hsorted).1 hacq
  rw [nodeName, intervalNode, toInt_getSequenceNumber _ hs] at hxs hle
  obtain ⟨r, hr, hrid, rfl⟩ := hfetch.own
  have hunique : ∀ t ∈ fileRows table fileId, t.offsetId = id → t = r := by
    intro t ht htid
    exact List.inj_on_of_nodup_map hids (mem_fileRows.1 ht).1 (mem_fileRows.1 hr).1
      (htid.trans hrid.symm)
  -- the node of the own number is the own one, so the own row is one of those that were kept
  have hself : itConflict r.node r.node = true := by
    obtain ⟨hin, hconf, name, hname, hseq⟩ := (hmem x).1 hx
    obtain ⟨e, hscan, -, -, hown⟩ := h.scan hname
    rw [hscan, Option.some.injEq, LockNode.mk.injEq, hxs] at hseq
    obtain ⟨t, ht, heq⟩ := List.mem_map.1 (hfetch.perm.mem_iff.1 hin)
    have htid : t.offsetId = id := by
      rw [← OffsetRow.node_id, heq, ← hseq.1]
      exact hown (by exact_mod_cast hseq.2)
    rwa [← heq, hunique t ht htid] at hconf
  intro e he hlt hblocks
  obtain ⟨t, ht, htid, hconf⟩ : ∃ t ∈ fileRows table fileId, t.offsetId = e.2.id ∧
      itConflict r.node t.node = true := by
    rcases hblocks with heq | ⟨r', hr', t, ht, hid, htid, hconf⟩
    · exact ⟨r, hr, hrid.trans heq, hself⟩
    · rw [hunique r' hr' hid] at hconf
      exact ⟨t, ht, htid, hconf⟩
  have hscan := sscanfLock_intervalNode ((hd e he).trans (by decide)) (hlt.trans hs)
  have hy : (⟨t.node, e.1⟩ : Relevant) ∈ relevant := by
    refine (hmem _).2 ⟨hfetch.perm.mem_iff.2 (List.mem_map_of_mem ht), hconf, nodeName e,
      h.seen e he hlt, ?_⟩
    rw [OffsetRow.node_id, htid]
    exact hscan
  have hse : (s : ℤ) ≤ e.1 := hle _ hy
  omega

end Decision

/-! ## Steps -/

/-- The invariant of all runs. -/
def Consistent (table : List OffsetRow) (fileId : ℕ) : System → Prop :=
  Inv seqBound (fun v => v.id < seqBound) (Phase.Ok table fileId)

theorem Consistent.start (table : List OffsetRow) (fileId : ℕ) : Consistent table fileId start :=
  Inv.start _ fun _ => trivial

section Steps

variable {table : List OffsetRow} {fileId : ℕ} {filePath : Text} {σ τ : System}

/-- The client that makes the call. -/
def Act.actor : Act → ℕ
  | .acquire c _ | .parentFails c | .create c _ | .createLost c _ | .createFails c | .list c _
  | .listFails c | .readRows c _ | .readRowsFails c | .decide c _ | .release c | .delete c _ _
  | .leave c => c

/-- What a call makes of the directory and of the client's phase. -/
inductive Goes (table : List OffsetRow) (fileId : ℕ) (filePath : Text) (σ : System) :
    Act → Dir Node → Phase → Prop
  | acquire {c id : ℕ} (hid : ∃ r ∈ fileRows table fileId, r.offsetId = id) :
      Goes table fileId filePath σ (.acquire c id) σ.dir (.trying id 0 none)
  | parentFails {c id : ℕ} {left : Option Text} (h : σ.phase c = .trying id 0 left) :
      Goes table fileId filePath σ (.parentFails c) σ.dir (.done id left false)
  | create {c s id count : ℕ} {left : Option Text} (h : σ.phase c = .trying id count left)
      (hs : σ.dir.next ≤ s) (hbound : s < seqBound) : Goes table fileId filePath σ (.create c s)
      (σ.dir.add s ⟨c, id⟩) (.created id count (nodeName (s, ⟨c, id⟩)))
  | createLost {c s id count : ℕ} {left : Option Text} (h : σ.phase c = .trying id count left)
      (hs : σ.dir.next ≤ s) (hbound : s < seqBound) : Goes table fileId filePath σ (.createLost c s)
      (σ.dir.add s ⟨c, id⟩) (.failed id count left)
  | createFails {c id count : ℕ} {left : Option Text} (h : σ.phase c = .trying id count left) :
      Goes table fileId filePath σ (.createFails c) σ.dir (.failed id count left)
  | list {c id count : ℕ} {lockName : Text} {children : List Text}
      (h : σ.phase c = .created id count lockName)
      (hperm : children.Perm (σ.dir.nodes.map nodeName)) :
      Goes table fileId filePath σ (.list c children) σ.dir (.listed id count lockName children)
  | listFails {c id count : ℕ} {lockName : Text} (h : σ.phase c = .created id count lockName) :
      Goes table fileId filePath σ (.listFails c) σ.dir (.failed id count (some lockName))
  | readRows {c id count : ℕ} {lockName : Text} {children : List Text} {rows : List OffsetRow}
      {r : OffsetRow} (h : σ.phase c = .listed id count lockName children)
      (hperm : rows.Perm (fileRows table fileId)) (hrow : rowOf table id = some r) :
      Goes table fileId filePath σ (.readRows c rows) σ.dir
        (.ready id count lockName children r.node (rows.map OffsetRow.node))
  | readRowsFails {c id count : ℕ} {lockName : Text} {children : List Text}
      (h : σ.phase c = .listed id count lockName children) :
      Goes table fileId filePath σ (.readRowsFails c) σ.dir (.failed id count (some lockName))
  | decide {c id count : ℕ} {lockName : Text} {children : List Text} {newInterval : ItNode}
      {rows : List ItNode} {server : ℕ → Text → ℤ} {relevant : List Relevant} {p : Phase}
      (h : σ.phase c = .ready id count lockName children newInterval rows)
      (hrel : sortedRelevantIntervals children newInterval rows = some relevant)
      (hp : Phase.decided filePath server id count lockName (eligibility lockName relevant) =
        some p) : Goes table fileId filePath σ (.decide c server) σ.dir p
  | release {c id : ℕ} {lockName : Text} {lockAcquired : Bool}
      (h : σ.phase c = .done id (some lockName) lockAcquired) :
      Goes table fileId filePath σ (.release c) σ.dir (.releasing id lockName lockAcquired 0)
  | delete {c id count : ℕ} {made answered lockAcquired : Bool} {lockName : Text}
      (h : σ.phase c = .releasing id lockName lockAcquired count) :
      Goes table fileId filePath σ (.delete c made answered)
        (if made then zooDelete filePath (fullPath filePath lockName) σ.dir else σ.dir)
        (if answered = false ∧ count + 1 < 3 then .releasing id lockName lockAcquired (count + 1)
          else .done id (some lockName) lockAcquired)
  | leave {c : ℕ} : Goes table fileId filePath σ (.leave c)
      (σ.dir.remove fun e => e.2.client == c) .idle

theorem goes_of_step {a : Act} (hstep : step table fileId filePath a σ = some τ) :
    ∃ d p, τ = System.enter ⟨d, σ.phase⟩ a.actor p ∧ Goes table fileId filePath σ a d p := by
  cases a with
  | acquire c id =>
      simp only [IntervalLock.step] at hstep
      split at hstep
      · rename_i hid
        split at hstep
        · cases hstep
          exact ⟨_, _, rfl, .acquire hid⟩
        · cases hstep
          exact ⟨_, _, rfl, .acquire hid⟩
        · cases hstep
      · cases hstep
  | parentFails c =>
      simp only [IntervalLock.step] at hstep
      split at hstep
      · rename_i hphase
        cases hstep
        exact ⟨_, _, rfl, .parentFails hphase⟩
      · cases hstep
  | create c s =>
      simp only [IntervalLock.step] at hstep
      split at hstep
      · rename_i id count left hphase
        split at hstep
        · rename_i hs
          obtain ⟨lockName, hname, rfl⟩ := Option.map_eq_some_iff.1 hstep
          rw [fullPath, getLockName_lockPath (slash_notMem_intervalNode id s)] at hname
          cases hname
          exact ⟨_, _, rfl, .create hphase hs.1 hs.2⟩
        · cases hstep
      · cases hstep
  | createLost c s =>
      simp only [IntervalLock.step] at hstep
      split at hstep
      · rename_i hphase
        split at hstep
        · rename_i hs
          cases hstep
          exact ⟨_, _, rfl, .createLost hphase hs.1 hs.2⟩
        · cases hstep
      · cases hstep
  | createFails c =>
      simp only [IntervalLock.step] at hstep
      split at hstep
      · rename_i hphase
        cases hstep
        exact ⟨_, _, rfl, .createFails hphase⟩
      · cases hstep
  | list c children =>
      simp only [IntervalLock.step] at hstep
      split at hstep
      · rename_i hphase
        split at hstep
        · rename_i hperm
          cases hstep
          exact ⟨_, _, rfl, .list hphase hperm⟩
        · cases hstep
      · cases hstep
  | listFails c =>
      simp only [IntervalLock.step] at hstep
      split at hstep
      · rename_i hphase
        cases hstep
        exact ⟨_, _, rfl, .listFails hphase⟩
      · cases hstep
  | readRows c rows =>
      simp only [IntervalLock.step] at hstep
      split at hstep
      · rename_i hphase
        split at hstep
        · rename_i hperm
          obtain ⟨r, hrow, rfl⟩ := Option.map_eq_some_iff.1 hstep
          exact ⟨_, _, rfl, .readRows hphase hperm hrow⟩
        · cases hstep
      · cases hstep
  | readRowsFails c =>
      simp only [IntervalLock.step] at hstep
      split at hstep
      · rename_i hphase
        cases hstep
        exact ⟨_, _, rfl, .readRowsFails hphase⟩
      · cases hstep
  | decide c server =>
      simp only [IntervalLock.step] at hstep
      split at hstep
      · rename_i hphase
        obtain ⟨relevant, hrel, hstep⟩ := Option.bind_eq_some_iff.1 hstep
        obtain ⟨p, hp, rfl⟩ := Option.map_eq_some_iff.1 hstep
        exact ⟨_, _, rfl, .decide hphase hrel hp⟩
      · cases hstep
  | release c =>
      simp only [IntervalLock.step] at hstep
      split at hstep
      · rename_i hphase
        cases hstep
        exact ⟨_, _, rfl, .release hphase⟩
      · cases hstep
  | delete c made answered =>
      simp only [IntervalLock.step] at hstep
      split at hstep
      · rename_i hphase
        cases hstep
        exact ⟨_, _, rfl, .delete hphase⟩
      · cases hstep
  | leave c =>
      simp only [IntervalLock.step] at hstep
      split at hstep
      · cases hstep
        exact ⟨_, _, rfl, .leave⟩
      · cases hstep

/-- **A call keeps the invariant**: a new node is its maker's, a list holds all that stands in
front, the row that is read is the own one, whoever is let in is clear, and only the own node is
deleted. -/
theorem Goes.consistent {a : Act} {d : Dir Node} {p : Phase}
    (hgoes : Goes table fileId filePath σ a d p) (h : Consistent table fileId σ)
    (hids : (table.map OffsetRow.offsetId).Nodup) (hbound : ∀ r ∈ table, r.offsetId < seqBound) :
    Consistent table fileId (System.enter ⟨d, σ.phase⟩ a.actor p) := by
  cases hgoes with
  | acquire hid => exact Inv.enter h ⟨hid, by simp⟩
  | parentFails hphase =>
      obtain ⟨-, hleft⟩ := Inv.of_phase h hphase
      exact Inv.enter h hleft
  | create hphase hs hlt =>
      obtain ⟨hid, -⟩ := Inv.of_phase h hphase
      exact Inv.add (stable table fileId) h hs hlt (id_lt hbound hid)
        ⟨hid, _, rfl, Owns.new h.numbered hs⟩
  | createLost hphase hs hlt =>
      -- a node whose answer is lost stays behind
      obtain ⟨hid, hleft⟩ := Inv.of_phase h hphase
      refine Inv.add (stable table fileId) h hs hlt (id_lt hbound hid) (ok_failed hid ?_)
      intro lockName hname
      obtain ⟨t, ht⟩ := hleft lockName hname
      exact ⟨t, ht.add hs⟩
  | createFails hphase =>
      obtain ⟨hid, hleft⟩ := Inv.of_phase h hphase
      exact Inv.enter h (ok_failed hid hleft)
  | list hphase hperm =>
      obtain ⟨hid, s, rfl, hown⟩ := Inv.of_phase h hphase
      refine Inv.enter h ⟨hid, s, rfl, hown, listed_of_perm hperm hown h.good ?_⟩
      intro e he
      exact (h.numbered.lt e he).trans_le h.bound
  | listFails hphase =>
      obtain ⟨hid, s, rfl, hown⟩ := Inv.of_phase h hphase
      exact Inv.enter h (ok_failed_of_owns hid hown)
  | readRows hphase hperm hrow =>
      obtain ⟨⟨t, ht, htid⟩, s, rfl, hown, hlist⟩ := Inv.of_phase h hphase
      have hself := rowOf_of_mem hids (mem_fileRows.1 ht).1
      rw [htid, hrow] at hself
      cases hself
      exact Inv.enter h ⟨⟨⟨_, ht, htid, rfl⟩, hperm.map _⟩, s, rfl, hown, hlist⟩
  | readRowsFails hphase =>
      obtain ⟨hid, s, rfl, hown, -⟩ := Inv.of_phase h hphase
      exact Inv.enter h (ok_failed_of_owns hid hown)
  | decide hphase hrel hp =>
      obtain ⟨hfetch, s, rfl, hown, hlist⟩ := Inv.of_phase h hphase
      have hs : s < seqBound := hown.lt.trans_le h.bound
      obtain ⟨r, hr, hrid, -⟩ := hfetch.own
      apply Inv.enter h
      cases hdec : eligibility (nodeName (s, ⟨_, _⟩)) _ with
      | empty =>
          rw [hdec] at hp
          cases hp
          exact ok_failed_of_owns ⟨r, hr, hrid⟩ hown
      | acquired =>
          rw [hdec] at hp
          cases hp
          rintro _ ⟨⟩
          exact ⟨s, rfl, hown.toIssued, fun _ =>
            hlist.clear_of_acquired hs h.good hids hbound hfetch hrel hdec⟩
      | behind x =>
          rw [hdec] at hp
          cases hp
          split
          · rintro _ ⟨⟩
            exact ⟨s, rfl, hown.toIssued, fun hfalse => by cases hfalse⟩
          · exact ok_failed_of_owns ⟨r, hr, hrid⟩ hown
      | fault =>
          rw [hdec] at hp
          cases hp
  | release hphase => exact Inv.enter h (Inv.of_phase h hphase _ rfl)
  | @delete c id count made answered lockAcquired lockName hphase =>
      obtain ⟨s, hclaim⟩ := Inv.of_phase h hphase
      have hnext : ∀ d, Claimed table fileId c id lockName lockAcquired s d →
          Phase.Ok table fileId c d (if answered = false ∧ count + 1 < 3 then
            .releasing id lockName lockAcquired (count + 1)
            else .done id (some lockName) lockAcquired) := by
        intro d hd
        split
        · exact ⟨s, hd⟩
        · rintro _ ⟨⟩
          exact ⟨s, hd⟩
      split
      · refine Inv.remove (stable table fileId) h (fun e he hpath => ?_) (hnext _ hclaim.remove)
        rw [hclaim.name] at hpath
        exact client_of_deleted hclaim.issued he hpath
      · exact Inv.enter h (hnext _ hclaim)
  | leave => exact Inv.remove (stable table fileId) h (fun e _ hgone => beq_iff_eq.1 hgone) trivial

/-- The step lemma. -/
theorem Consistent.step {a : Act} (hids : (table.map OffsetRow.offsetId).Nodup)
    (hbound : ∀ r ∈ table, r.offsetId < seqBound) (h : Consistent table fileId σ)
    (hstep : step table fileId filePath a σ = some τ) : Consistent table fileId τ := by
  obtain ⟨d, p, rfl, hgoes⟩ := goes_of_step hstep
  exact hgoes.consistent h hids hbound

/-- The node of an acquired lock is the client's, and nothing in front of it blocks its row. -/
theorem Consistent.owns_of_hasLock (h : Consistent table fileId σ) {c id : ℕ}
    (hc : HasLock σ c id) : ∃ s, Owns ⟨c, id⟩ s σ.dir ∧
      Front (fun e => ¬ Blocks table fileId id e.2.id) s σ.dir := by
  obtain ⟨lockName, hlock, e, he, hname⟩ := hc
  have hclaim : ∃ s, Claimed table fileId c id lockName true s σ.dir := by
    have hok := h.phase c
    cases hphase : σ.phase c with
    | done id' left lockAcquired =>
        rw [hphase] at hlock hok
        cases left with
        | none => cases hlock
        | some name =>
            cases lockAcquired with
            | false => cases hlock
            | true =>
                cases hlock
                exact hok lockName rfl
    | releasing id' name lockAcquired count =>
        rw [hphase] at hlock hok
        cases lockAcquired with
        | false => cases hlock
        | true =>
            cases hlock
            exact hok
    | _ =>
        rw [hphase] at hlock
        cases hlock
  obtain ⟨s, rfl, hissued, hclear⟩ := hclaim
  have hs : e.1 = s := lockNode_inj hname
  subst hs
  have hv : e.2 = ⟨c, id⟩ := hissued.own e.2 he
  exact ⟨e.1, ⟨hissued, hv ▸ he⟩, hclear rfl⟩

end Steps

/-- **Two clients that have acquired locks whose nodes are still there hold different rows that do
not overlap.** -/
theorem holders_apart {table : List OffsetRow} {fileId : ℕ} {filePath : Text} {σ : System}
    (hids : (table.map OffsetRow.offsetId).Nodup) (hbound : ∀ r ∈ table, r.offsetId < 2 ^ 31)
    (h : Reach (step table fileId filePath) (fun _ _ => True) start σ) {c c' i j : ℕ}
    (hne : c ≠ c') (hc : HasLock σ c i) (hc' : HasLock σ c' j) :
    i ≠ j ∧ ∀ r ∈ table, ∀ t ∈ table, r.fileId = fileId → t.fileId = fileId →
      r.offsetId = i → t.offsetId = j → itConflict r.node t.node = false := by
  have hinv : Consistent table fileId σ :=
    h.invariant (Consistent.start table fileId) fun _ _ _ hs _ hstep => hs.step hids hbound hstep
  obtain ⟨s, hown, hclear⟩ := hinv.owns_of_hasLock hc
  obtain ⟨t, hown', hclear'⟩ := hinv.owns_of_hasLock hc'
  have hapart : ¬ Blocks table fileId i j :=
    Front.exclusive (R := fun v w => Blocks table fileId v.id w.id) (fun _ _ => Blocks.symm)
      (hown.ne hown' fun heq => hne (congrArg Node.client heq)) hown.present hown'.present hclear
      hclear'
  constructor
  · intro hij
    exact hapart (Or.inl hij)
  · intro r hr t ht hrf htf hi hj
    rw [← Bool.not_eq_true]
    intro hconf
    exact hapart (Or.inr ⟨r, mem_fileRows.2 ⟨hr, hrf⟩, t, mem_fileRows.2 ⟨ht, htf⟩, hi, hj, hconf⟩)

/-- A client that goes through all steps of one attempt. -/
def attempt (c id s : ℕ) (children : List (ℕ × Node)) (rows : List OffsetRow) : List Act :=
  [.acquire c id, .create c s, .list c (children.map nodeName), .readRows c rows,
    .decide c fun _ _ => ZOK]

theorem holders_apart_two :
    let table : List OffsetRow := [⟨1, 1, 7, 0, 4, false⟩, ⟨2, 1, 8, 6, 9, false⟩,
      ⟨3, 1, 9, 2, 8, false⟩]
    ∃ σ, Reach (step table 1 ['/', 'f']) (fun _ _ => True) start σ ∧ HasLock σ 0 1 ∧ HasLock σ 1 2 ∧
      (1 ≠ 2 ∧ ∀ r ∈ table, ∀ t ∈ table, r.fileId = 1 → t.fileId = 1 → r.offsetId = 1 →
        t.offsetId = 2 → itConflict r.node t.node = false) := by
  intro table
  -- the third client's row overlaps the rows of both holders
  let acts : List Act := attempt 0 1 0 [(0, ⟨0, 1⟩)] table ++
    attempt 1 2 1 [(1, ⟨1, 2⟩), (0, ⟨0, 1⟩)] table ++
    attempt 2 3 4 [(0, ⟨0, 1⟩), (1, ⟨1, 2⟩), (4, ⟨2, 3⟩)] table
  have hrun : (runGuarded (step table 1 ['/', 'f']) (fun _ _ => True) acts start).bind
      (fun σ => some (σ.phase 0, σ.phase 1, σ.phase 2, σ.dir.nodes)) =
        some (.done 1 (some (intervalNode 1 0)) true, .done 2 (some (intervalNode 2 1)) true,
          .done 3 (some (intervalNode 3 4)) false, [(0, ⟨0, 1⟩), (1, ⟨1, 2⟩), (4, ⟨2, 3⟩)]) := by
    decide +kernel
  obtain ⟨σ, hσ, hphase⟩ := Option.bind_eq_some_iff.1 hrun
  simp only [Option.some.injEq, Prod.mk.injEq] at hphase
  obtain ⟨h0, h1, -, hnodes⟩ := hphase
  have hreach := reach_of_runGuarded hσ
  have hlock0 : HasLock σ 0 1 := ⟨intervalNode 1 0, by rw [h0]; rfl, (0, ⟨0, 1⟩),
    by rw [hnodes]; simp, rfl⟩
  have hlock1 : HasLock σ 1 2 := ⟨intervalNode 2 1, by rw [h1]; rfl, (1, ⟨1, 2⟩),
    by rw [hnodes]; simp, rfl⟩
  exact ⟨σ, hreach, hlock0, hlock1,
    holders_apart (by decide) (by decide) hreach (by decide) hlock0 hlock1⟩

end IntervalLock

end Yacet
