import Yacet.IntervalLock
import Yacet.Lib.Books

/-!
# The nodes interval locks leave (`zkclient.c`)

Some of the clients on a directory are the contexts of one process, each for a row of its own; the
rows do not overlap.

* `Smooth` — a call of such a context after which nothing has to be started over: no answer is lost
  once it has a node, and no node of another process keeps its row, which is not empty, from being
  locked.
* `FreeList.admitted` — **a list in which nothing blocks the own row lets the client in.**
* `Phase.Named` — what a client knows whatever becomes of the positions of the rows.
* `Steady.step`, `Steady.step_other` — smooth calls leave every context with one node at most, with
  none after an error, and let in whatever the siblings hold.
* `Steady.commit` — so does another transaction that makes no two rows overlap and empties none.
-/

namespace Yacet

open CText Tickets Steps

namespace IntervalLock

def Act.acquires : Act → Bool
  | .acquire _ _ => true
  | _ => false

def Act.lists : Act → Bool
  | .list _ _ => true
  | _ => false

/-- A call that ends with an error although the client has a node. -/
def Act.lossy : Act → Bool
  | .createLost _ _ | .listFails _ | .readRowsFails _ => true
  | _ => false

/-- The row of a node that waits for the list, and its name. -/
def Phase.waiting : Phase → Option (ℕ × Text)
  | .created id _ lockName => some (id, lockName)
  | _ => none

instance (table : List OffsetRow) (fileId i j : ℕ) : Decidable (Blocks table fileId i j) := by
  unfold Blocks
  infer_instance

/-- The row `id` is not empty, and no node of another process in front of number `s` blocks it. -/
def Free (table : List OffsetRow) (fileId : ℕ) (ours : ℕ → Prop) (id s : ℕ) (d : Dir Node) : Prop :=
  (∀ r ∈ table, r.offsetId = id → r.base < r.bound) ∧
    ∀ e ∈ d.nodes, e.1 < s → ¬ ours e.2.client → ¬ Blocks table fileId id e.2.id

instance (table : List OffsetRow) (fileId : ℕ) (ours : ℕ → Prop) [DecidablePred ours] (id s : ℕ)
    (d : Dir Node) : Decidable (Free table fileId ours id s d) := by
  unfold Free
  infer_instance

/-- A call that does not make its client start over for no reason of its own. -/
def Smooth (table : List OffsetRow) (fileId : ℕ) (ours : ℕ → Prop) (a : Act) (σ : System) : Prop :=
  a.lossy = false ∧ (a.acquires = true → NoneOf Node.client a.actor σ.dir) ∧
    (a.lists = true → ∀ x ∈ (σ.phase a.actor).waiting,
      Free table fileId ours x.1 (getSequenceNumber x.2) σ.dir)

/-! ## What a call does -/

/-- The name that a client keeps. -/
def Phase.kept : Phase → Option Text
  | .idle => none
  | .trying _ _ left => left
  | .created _ _ lockName => some lockName
  | .listed _ _ lockName _ => some lockName
  | .ready _ _ lockName _ _ _ => some lockName
  | .done _ left _ => left
  | .releasing _ lockName _ _ => some lockName

/-- The next call creates a node, or the lock has not been acquired. -/
def Phase.fresh : Phase → Bool
  | .trying _ _ _ => true
  | .done _ _ lockAcquired => !lockAcquired
  | .releasing _ _ lockAcquired _ => !lockAcquired
  | _ => false

/-- The row that a client is about. -/
def Phase.row : Phase → Option ℕ
  | .idle => none
  | .trying id _ _ => some id
  | .created id _ _ => some id
  | .listed id _ _ _ => some id
  | .ready id _ _ _ _ _ => some id
  | .done id _ _ => some id
  | .releasing id _ _ _ => some id

def books : Books Node Phase Text where
  owner := Node.client
  label := nodeName
  kept := Phase.kept
  fresh p := p.fresh = true
  label_inj _ _ h := lockNode_inj h

variable {table : List OffsetRow} {fileId : ℕ} {filePath : Text} {a : Act} {σ τ : System}
  {d : Dir Node} {p : Phase}

/-- A call concerns nobody else. -/
theorem step_by (hstep : step table fileId filePath a σ = some τ) :
    By Node.client a.actor σ τ := by
  obtain ⟨d, p, rfl, hgoes⟩ := goes_of_step hstep
  cases hgoes with
  | create h hs hbound => exact By.add hs rfl
  | createLost h hs hbound => exact By.add hs rfl
  | delete h =>
      split
      · exact By.remove _
      · exact By.enter
  | leave => exact By.remove _
  | _ => exact By.enter

/-! ## Being let in -/

/-- The row is one of the file. -/
def HasRow (table : List OffsetRow) (fileId id : ℕ) : Prop :=
  ∃ r ∈ fileRows table fileId, r.offsetId = id

/-- A list of the directory in which no node in front of number `s` blocks the row `id`. -/
structure FreeList (table : List OffsetRow) (fileId c id s : ℕ) (children : List Text) : Prop where
  bound : s < seqBound
  filled : ∀ r ∈ table, r.offsetId = id → r.base < r.bound
  own : nodeName (s, ⟨c, id⟩) ∈ children
  names : ∀ name ∈ children, ∃ e : ℕ × Node, name = nodeName e ∧ e.1 < seqBound ∧
    HasRow table fileId e.2.id ∧ (e.1 < s → ¬ Blocks table fileId id e.2.id)

section FreeList

variable {c id s : ℕ} {children : List Text} {newInterval : ItNode} {rows : List ItNode}

theorem exists_mapM {α β : Type*} {f : α → Option β} {xs : List α}
    (h : ∀ x ∈ xs, ∃ y, f x = some y) : ∃ ys, xs.mapM f = some ys := by
  induction xs with
  | nil => exact ⟨[], rfl⟩
  | cons x xs ih =>
      rw [List.forall_mem_cons] at h
      obtain ⟨y, hy⟩ := h.1
      obtain ⟨ys, hys⟩ := ih h.2
      exact ⟨y :: ys, by rw [List.mapM_cons, hy, hys]; rfl⟩

theorem FreeList.scan (h : FreeList table fileId c id s children)
    (hbound : ∀ r ∈ table, r.offsetId < seqBound) {name : Text}
    (hname : name ∈ children) : ∃ e : ℕ × Node, sscanfLock name = some ⟨e.2.id, e.1⟩ ∧
      e.1 < seqBound ∧ e.2.id < seqBound ∧ (e.1 < s → ¬ Blocks table fileId id e.2.id) := by
  obtain ⟨e, rfl, hlt, hrow, hfree⟩ := h.names name hname
  have hid := id_lt hbound hrow
  exact ⟨e, sscanfLock_intervalNode (hid.trans (by decide)) hlt, hlt, hid, hfree⟩

theorem FreeList.exists_relevant (h : FreeList table fileId c id s children)
    (hbound : ∀ r ∈ table, r.offsetId < seqBound) :
    ∃ relevant, sortedRelevantIntervals children newInterval rows = some relevant := by
  obtain ⟨locks, hlocks⟩ := exists_mapM fun name hname => by
    obtain ⟨e, hscan, -⟩ := h.scan hbound hname
    exact ⟨_, hscan⟩
  unfold sortedRelevantIntervals
  split
  · exact ⟨_, rfl⟩
  · rw [sortIntervalLocksByOffsetId, hlocks]
    exact ⟨_, rfl⟩

/-- **A list in which nothing blocks the own row lets the client in.** -/
theorem FreeList.admitted (h : FreeList table fileId c id s children)
    (hbound : ∀ r ∈ table, r.offsetId < seqBound)
    (hfetch : Fetched table fileId id newInterval rows) :
    ∃ relevant, sortedRelevantIntervals children newInterval rows = some relevant ∧
      eligibility (nodeName (s, ⟨c, id⟩)) relevant = .acquired := by
  obtain ⟨relevant, hrel⟩ : ∃ relevant,
      sortedRelevantIntervals children newInterval rows = some relevant := h.exists_relevant hbound
  obtain ⟨hmem, -, hsorted⟩ := relevant_of_names hrel near_of_lt (by
    intro name hname
    obtain ⟨e, hscan, hlt, hid, -⟩ := h.scan hbound hname
    exact ⟨_, hscan, hid, Int.natCast_nonneg _, Int.ofNat_lt.2 hlt⟩) (hfetch.id_lt hbound)
  have hfront : ∀ x ∈ relevant, (s : ℤ) ≤ x.sequence := by
    intro x hx
    obtain ⟨hrow, hconf, name, hname, hseq⟩ := (hmem x).1 hx
    obtain ⟨e, hscan, -, -, hfree⟩ := h.scan hbound hname
    rw [hscan, Option.some.injEq, LockNode.mk.injEq] at hseq
    by_contra hless
    obtain ⟨r, hr, hrid, hnew⟩ := hfetch.own
    obtain ⟨t, ht, htx⟩ := List.mem_map.1 (hfetch.perm.mem_iff.1 hrow)
    refine hfree (by omega) (Or.inr ⟨r, hr, t, ht, hrid, ?_, ?_⟩)
    · rw [hseq.1, ← htx, OffsetRow.node_id]
    · rw [← hnew, htx]
      exact hconf
  refine ⟨relevant, hrel, (acquired_iff hsorted).2 ?_⟩
  rw [nodeName, intervalNode, toInt_getSequenceNumber _ h.bound]
  refine ⟨⟨⟨newInterval, s⟩, ?_, rfl⟩, hfront⟩
  obtain ⟨r, hr, hrid, rfl⟩ := hfetch.own
  have hfilled := h.filled r (mem_fileRows.1 hr).1 hrid
  refine (hmem _).2 ⟨hfetch.perm.mem_iff.2 (List.mem_map_of_mem hr),
    itConflict_iff.2 ⟨hfilled, hfilled⟩, _, h.own, ?_⟩
  rw [OffsetRow.node_id, hrid]
  exact sscanfLock_intervalNode ((hrid ▸ hbound r (mem_fileRows.1 hr).1).trans (by decide)) h.bound

end FreeList

/-- What has been listed lets client `c` in. -/
def Phase.Admitted (table : List OffsetRow) (fileId c : ℕ) : Phase → Prop
  | .listed id _ lockName children =>
    ∃ s, lockName = nodeName (s, ⟨c, id⟩) ∧ FreeList table fileId c id s children
  | .ready _ _ lockName children newInterval rows => ∃ relevant,
    sortedRelevantIntervals children newInterval rows = some relevant ∧
      eligibility lockName relevant = .acquired
  | _ => True

theorem admitted_failed (c id count : ℕ) (left : Option Text) :
    (Phase.failed id count left).Admitted table fileId c := by
  unfold Phase.failed
  split <;> trivial

/-! ## Names -/

/-- The phase without what the client has listed, read and found out. -/
def Phase.forget : Phase → Phase
  | .listed id count lockName _ => .created id count lockName
  | .ready id count lockName _ _ _ => .created id count lockName
  | .done id left _ => .done id left false
  | .releasing id lockName _ count => .releasing id lockName false count
  | p => p

/-- What a client knows whatever becomes of the positions of the rows: its row is there, and the
name that it keeps is that of a node of its own. -/
def Phase.Named (table : List OffsetRow) (fileId c : ℕ) (d : Dir Node) (p : Phase) : Prop :=
  p.forget.Ok table fileId c d

theorem stable_named (table : List OffsetRow) (fileId : ℕ) :
    Stable Node.client (Phase.Named table fileId) where
  add c d p := (stable table fileId).add c d p.forget
  remove c d p := (stable table fileId).remove c d p.forget

/-- No row of the file has gone. -/
def Keeps (fileId : ℕ) (table table' : List OffsetRow) : Prop :=
  ∀ r ∈ fileRows table fileId, HasRow table' fileId r.offsetId

section Names

variable {c id : ℕ} {table' : List OffsetRow}

theorem HasRow.mono (h : HasRow table fileId id) (hkeeps : Keeps fileId table table') :
    HasRow table' fileId id := by
  obtain ⟨r, hr, rfl⟩ := h
  exact hkeeps r hr

theorem Claimed.forget {lockName : Text} {lockAcquired : Bool} {s : ℕ}
    (h : Claimed table fileId c id lockName lockAcquired s d) :
    Claimed table' fileId c id lockName false s d :=
  ⟨h.name, h.issued, fun hfalse => by cases hfalse⟩

theorem Named.mono (h : p.Named table fileId c d) (hkeeps : Keeps fileId table table') :
    p.Named table' fileId c d := by
  unfold Phase.Named at h ⊢
  cases p with
  | idle => trivial
  | trying id count left =>
      refine ⟨HasRow.mono h.1 hkeeps, fun lockName hname => ?_⟩
      obtain ⟨s, hs⟩ := h.2 lockName hname
      exact ⟨s, hs.forget⟩
  | created id count lockName => exact ⟨HasRow.mono h.1 hkeeps, h.2⟩
  | listed id count lockName children => exact ⟨HasRow.mono h.1 hkeeps, h.2⟩
  | ready id count lockName children newInterval rows => exact ⟨HasRow.mono h.1 hkeeps, h.2⟩
  | done id left lockAcquired =>
      intro lockName hname
      obtain ⟨s, hs⟩ := h lockName hname
      exact ⟨s, hs.forget⟩
  | releasing id lockName lockAcquired count =>
      obtain ⟨s, hs⟩ := h
      exact ⟨s, hs.forget⟩

theorem named_failed {count : ℕ} {left : Option Text} (hrow : HasRow table fileId id)
    (h : ∀ lockName ∈ left, ∃ s, Claimed table fileId c id lockName false s d) :
    (Phase.failed id count left).Named table fileId c d := by
  have hok : (Phase.failed id count left).Ok table fileId c d := ok_failed hrow h
  unfold Phase.failed at hok ⊢
  split at hok <;> rename_i hcount
  · rwa [if_pos hcount]
  · rwa [if_neg hcount]

theorem named_failed_of_owns {count s : ℕ} (hrow : HasRow table fileId id)
    (h : Owns ⟨c, id⟩ s d) :
    (Phase.failed id count (some (nodeName (s, ⟨c, id⟩)))).Named table fileId c d := by
  apply named_failed hrow
  rintro _ ⟨⟩
  exact ⟨s, rfl, h.toIssued, fun hfalse => by cases hfalse⟩

/-- Numbers in range, nodes of rows that are there, and clients that know their names. -/
def Labelled (table : List OffsetRow) (fileId : ℕ) : System → Prop :=
  Inv seqBound (fun v => HasRow table fileId v.id) (Phase.Named table fileId)

/-- **A call keeps the names**, whatever the rows are. -/
theorem Goes.labelled (hgoes : Goes table fileId filePath σ a d p) (h : Labelled table fileId σ) :
    Labelled table fileId (System.enter ⟨d, σ.phase⟩ a.actor p) := by
  have hst := stable_named table fileId
  cases hgoes with
  | acquire hid => exact Inv.enter h ⟨hid, by simp⟩
  | parentFails hphase =>
      obtain ⟨-, hleft⟩ := Inv.of_phase h hphase
      exact Inv.enter h hleft
  | create hphase hs hlt =>
      obtain ⟨hrow, -⟩ := Inv.of_phase h hphase
      exact Inv.add hst h hs hlt hrow ⟨hrow, _, rfl, Owns.new h.numbered hs⟩
  | createLost hphase hs hlt =>
      obtain ⟨hrow, hleft⟩ := Inv.of_phase h hphase
      refine Inv.add hst h hs hlt hrow (named_failed hrow fun lockName hname => ?_)
      obtain ⟨t, ht⟩ := hleft lockName hname
      exact ⟨t, ht.add hs⟩
  | createFails hphase =>
      obtain ⟨hrow, hleft⟩ := Inv.of_phase h hphase
      exact Inv.enter h (named_failed hrow hleft)
  | list hphase hperm =>
      have hnamed := Inv.of_phase h hphase
      exact Inv.enter h hnamed
  | listFails hphase =>
      obtain ⟨hrow, s, rfl, hown⟩ := Inv.of_phase h hphase
      exact Inv.enter h (named_failed_of_owns hrow hown)
  | readRows hphase hperm hrow =>
      have hnamed := Inv.of_phase h hphase
      exact Inv.enter h hnamed
  | readRowsFails hphase =>
      obtain ⟨hrow, s, rfl, hown⟩ := Inv.of_phase h hphase
      exact Inv.enter h (named_failed_of_owns hrow hown)
  | @decide c id count lockName children newInterval rows server relevant p hphase hrel hp =>
      obtain ⟨hrow, s, rfl, hown⟩ := Inv.of_phase h hphase
      have hdone : ∀ lockAcquired, (Phase.done id (some (nodeName (s, ⟨c, id⟩)))
          lockAcquired).Named table fileId c σ.dir := by
        rintro lockAcquired _ ⟨⟩
        exact ⟨s, rfl, hown.toIssued, fun hfalse => by cases hfalse⟩
      apply Inv.enter h
      cases hdec : eligibility (nodeName (s, ⟨c, id⟩)) relevant with
      | empty =>
          rw [hdec] at hp
          cases hp
          exact named_failed_of_owns hrow hown
      | acquired =>
          rw [hdec] at hp
          cases hp
          exact hdone true
      | behind x =>
          rw [hdec] at hp
          cases hp
          split
          · exact hdone false
          · exact named_failed_of_owns hrow hown
      | fault =>
          rw [hdec] at hp
          cases hp
  | release hphase => exact Inv.enter h (Inv.of_phase h hphase _ rfl)
  | @delete c id count made answered lockAcquired lockName hphase =>
      obtain ⟨s, hclaim⟩ := Inv.of_phase h hphase
      have hnext : ∀ d, Claimed table fileId c id lockName false s d →
          Phase.Named table fileId c d (if answered = false ∧ count + 1 < 3 then
            .releasing id lockName lockAcquired (count + 1)
            else .done id (some lockName) lockAcquired) := by
        intro d hd
        split
        · exact ⟨s, hd⟩
        · rintro _ ⟨⟩
          exact ⟨s, hd⟩
      split
      · refine Inv.remove hst h (fun e he hpath => ?_) (hnext _ hclaim.remove)
        rw [hclaim.name] at hpath
        exact client_of_deleted hclaim.issued he hpath
      · exact Inv.enter h (hnext _ hclaim)
  | leave => exact Inv.remove hst h (fun e _ hgone => beq_iff_eq.1 hgone) trivial

theorem Labelled.step (h : Labelled table fileId σ)
    (hstep : step table fileId filePath a σ = some τ) : Labelled table fileId τ := by
  obtain ⟨d, p, rfl, hgoes⟩ := goes_of_step hstep
  exact hgoes.labelled h

theorem Labelled.mono (h : Labelled table fileId σ) (hkeeps : Keeps fileId table table') :
    Labelled table' fileId σ where
  numbered := h.numbered
  bound := h.bound
  good e he := (h.good e he).mono hkeeps
  phase c := Named.mono (h.phase c) hkeeps

end Names

/-! ## Contexts -/

/-- What holds of the contexts of one process, `ours`, each for the row that `ctx` gives it. -/
structure Steady (table : List OffsetRow) (fileId : ℕ) (ours : ℕ → Prop) (ctx : ℕ → ℕ → Prop)
    (σ : System) : Prop where
  labelled : Labelled table fileId σ
  tidy : ∀ c, ours c → Tidy books c σ
  row : ∀ c, ours c → ∀ id ∈ (σ.phase c).row, ctx c id
  node : ∀ e ∈ σ.dir.nodes, ours e.2.client → ctx e.2.client e.2.id
  admitted : ∀ c, ours c → (σ.phase c).Admitted table fileId c

section Contexts

variable {ours : ℕ → Prop} {ctx ctx' : ℕ → ℕ → Prop}

theorem Steady.start (table : List OffsetRow) (fileId : ℕ) (ours : ℕ → Prop) (ctx : ℕ → ℕ → Prop) :
    Steady table fileId ours ctx start where
  labelled := Inv.start _ fun _ => trivial
  tidy _ _ := ⟨by simp [IntervalLock.start, Dir.empty], fun _ => rfl⟩
  row _ _ id hid := by cases hid
  node := by simp [IntervalLock.start, Dir.empty]
  admitted _ _ := trivial

theorem Steady.mono (h : Steady table fileId ours ctx σ) (hctx : ∀ c id, ctx c id → ctx' c id) :
    Steady table fileId ours ctx' σ where
  labelled := h.labelled
  tidy := h.tidy
  row c hc id hid := hctx c id (h.row c hc id hid)
  node e he hours := hctx _ _ (h.node e he hours)
  admitted := h.admitted

/-- **The siblings' nodes do not block**: nothing that stands in front of a free row blocks it. -/
theorem Steady.freeList (h : Steady table fileId ours ctx σ)
    (hapart : ∀ c c' i j, ctx c i → ctx c' j → c ≠ c' → ¬ Blocks table fileId i j) {c id count : ℕ}
    {lockName : Text} {children : List Text} (hc : ours c)
    (hphase : σ.phase c = .created id count lockName)
    (hperm : children.Perm (σ.dir.nodes.map nodeName))
    (hfree : Free table fileId ours id (getSequenceNumber lockName) σ.dir) :
    ∃ s, lockName = nodeName (s, ⟨c, id⟩) ∧ FreeList table fileId c id s children := by
  obtain ⟨-, s, rfl, hown⟩ := Inv.of_phase h.labelled hphase
  have hs : s < seqBound := hown.lt.trans_le h.labelled.bound
  rw [nodeName, intervalNode, getSequenceNumber_lockNode _ hs] at hfree
  refine ⟨s, rfl, hs, hfree.1, hperm.mem_iff.2 (List.mem_map_of_mem hown.present), ?_⟩
  intro name hname
  obtain ⟨e, he, rfl⟩ := List.mem_map.1 (hperm.mem_iff.1 hname)
  refine ⟨e, rfl, (h.labelled.numbered.lt e he).trans_le h.labelled.bound,
    h.labelled.good e he, fun hlt => ?_⟩
  by_cases hours : ours e.2.client
  · by_cases hsame : e.2.client = c
    · -- the client's own node is not in front of itself
      have hkept := (h.tidy c hc).known e he hsame
      rw [hphase] at hkept
      have hnum : s = e.1 := lockNode_inj (Option.mem_some_iff.1 hkept)
      omega
    · exact hapart _ _ _ _ (h.row c hc id (by rw [hphase]; rfl)) (h.node e he hours)
        (Ne.symm hsame)
  · exact hfree.2 e he hlt hours

theorem kept_failed (id count : ℕ) (left : Option Text) :
    (Phase.failed id count left).kept = left := by
  unfold Phase.failed
  split <;> rfl

theorem row_failed (id count : ℕ) (left : Option Text) :
    (Phase.failed id count left).row = some id := by
  unfold Phase.failed
  split <;> rfl

/-- A check stays with the row. -/
theorem row_decided {server : ℕ → Text → ℤ} {id count : ℕ} {lockName : Text} {dec : Decision}
    (h : Phase.decided filePath server id count lockName dec = some p) : p.row = some id := by
  cases dec with
  | empty =>
      cases h
      exact row_failed _ _ _
  | acquired =>
      cases h
      rfl
  | behind x =>
      cases h
      split
      · rfl
      · exact row_failed _ _ _
  | fault => cases h

/-- A client stays with its row until it acquires another. -/
theorem Goes.row (hgoes : Goes table fileId filePath σ a d p) :
    ∀ id ∈ p.row, a = .acquire a.actor id ∨ id ∈ (σ.phase a.actor).row := by
  intro id hid
  cases hgoes with
  | acquire hid' =>
      cases hid
      exact Or.inl rfl
  | createLost h hs hbound =>
      rw [row_failed] at hid
      exact Or.inr (by rw [Act.actor, h]; exact hid)
  | createFails h =>
      rw [row_failed] at hid
      exact Or.inr (by rw [Act.actor, h]; exact hid)
  | listFails h =>
      rw [row_failed] at hid
      exact Or.inr (by rw [Act.actor, h]; exact hid)
  | readRowsFails h =>
      rw [row_failed] at hid
      exact Or.inr (by rw [Act.actor, h]; exact hid)
  | decide h hrel hp =>
      rw [row_decided hp] at hid
      exact Or.inr (by rw [Act.actor, h]; exact hid)
  | delete h =>
      refine Or.inr ?_
      rw [Act.actor, h]
      split at hid <;> exact hid
  | leave => cases hid
  | parentFails h => exact Or.inr (by rw [Act.actor, h]; exact hid)
  | create h hs hbound => exact Or.inr (by rw [Act.actor, h]; exact hid)
  | list h hperm => exact Or.inr (by rw [Act.actor, h]; exact hid)
  | readRows h hperm hrow => exact Or.inr (by rw [Act.actor, h]; exact hid)
  | release h => exact Or.inr (by rw [Act.actor, h]; exact hid)

/-- A new node is for the client's row. -/
theorem Goes.node (hgoes : Goes table fileId filePath σ a d p) {e : ℕ × Node} (he : e ∈ d.nodes) :
    e ∈ σ.dir.nodes ∨ e.2.client = a.actor ∧ e.2.id ∈ (σ.phase a.actor).row := by
  cases hgoes with
  | create h hs hbound =>
      rcases Dir.mem_add.1 he with he | rfl
      · exact Or.inl he
      · exact Or.inr ⟨rfl, by rw [Act.actor, h]; rfl⟩
  | createLost h hs hbound =>
      rcases Dir.mem_add.1 he with he | rfl
      · exact Or.inl he
      · exact Or.inr ⟨rfl, by rw [Act.actor, h]; rfl⟩
  | delete h =>
      split at he
      · exact Or.inl (Dir.mem_remove.1 he).1
      · exact Or.inl he
  | leave => exact Or.inl (Dir.mem_remove.1 he).1
  | _ => exact Or.inl he

/-- Whoever decides takes the lock. -/
theorem Steady.decided {c id count : ℕ} {lockName : Text} {children : List Text}
    {newInterval : ItNode}
    {rows : List ItNode} {server : ℕ → Text → ℤ} {relevant : List Relevant} {p : Phase}
    (h : Steady table fileId ours ctx σ) (hours : ours c)
    (hphase : σ.phase c = .ready id count lockName children newInterval rows)
    (hrel : sortedRelevantIntervals children newInterval rows = some relevant)
    (hp : Phase.decided filePath server id count lockName (eligibility lockName relevant) =
      some p) :
    p = .done id (some lockName) true := by
  have hadm := h.admitted c hours
  rw [hphase] at hadm
  obtain ⟨relevant', hrel', hacq⟩ := hadm
  obtain rfl : relevant' = relevant := Option.some.inj (hrel'.symm.trans hrel)
  rw [hacq] at hp
  cases hp
  rfl

/-- A smooth call leaves the client tidy. -/
theorem Goes.tidy (hgoes : Goes table fileId filePath σ a d p)
    (h : Steady table fileId ours ctx σ) (hours : ours a.actor)
    (hsmooth : Smooth table fileId ours a σ) :
    Tidy books a.actor (System.enter ⟨d, σ.phase⟩ a.actor p) := by
  obtain ⟨hlossy, hacquires, -⟩ := hsmooth
  have htidy := h.tidy a.actor hours
  have hnew : ∀ {p : Phase}, p.kept = (σ.phase a.actor).kept →
      (p.fresh = true → (σ.phase a.actor).fresh = true) → Tidy books a.actor (σ.enter a.actor p) :=
    fun hkept hfresh => htidy.enter hkept fun hp => hkept.trans (htidy.fresh (hfresh hp))
  cases hgoes with
  | acquire hid' => exact Tidy.of_noneOf (hacquires rfl) fun _ => rfl
  | parentFails hphase =>
      refine hnew ?_ fun _ => ?_
      · rw [Act.actor, hphase]
        rfl
      · rw [Act.actor, hphase]
        rfl
  | create hphase hs hbound =>
      refine htidy.add ?_ rfl fun hp => by cases hp
      rw [Act.actor, hphase]
      rfl
  | createLost hphase hs hbound => cases hlossy
  | createFails hphase =>
      refine hnew ?_ fun _ => ?_
      · rw [kept_failed, Act.actor, hphase]
        rfl
      · rw [Act.actor, hphase]
        rfl
  | list hphase hperm => exact hnew (by rw [Act.actor, hphase]; rfl) fun hp => by cases hp
  | listFails hphase => cases hlossy
  | readRows hphase hperm hrow => exact hnew (by rw [Act.actor, hphase]; rfl) fun hp => by cases hp
  | readRowsFails hphase => cases hlossy
  | @decide c id count lockName children newInterval rows server relevant p hphase hrel hp =>
      obtain rfl := h.decided hours hphase hrel hp
      exact hnew (by rw [Act.actor, hphase]; rfl) fun hp => by cases hp
  | release hphase =>
      refine hnew ?_ fun hp => ?_
      · rw [Act.actor, hphase]
        rfl
      · rw [Act.actor, hphase]
        exact hp
  | @delete c id count made answered lockAcquired lockName hphase =>
      have hp : ∃ p : Phase, p = (if answered = false ∧ count + 1 < 3 then
          .releasing id lockName lockAcquired (count + 1)
          else .done id (some lockName) lockAcquired) ∧ p.kept = some lockName ∧
          p.fresh = !lockAcquired := by
        split
        · exact ⟨_, rfl, rfl, rfl⟩
        · exact ⟨_, rfl, rfl, rfl⟩
      obtain ⟨p, hp, hkept, hfresh⟩ := hp
      rw [← hp]
      have hsame : p.kept = (σ.phase c).kept := by
        rw [hkept, hphase]
        rfl
      have hstill : p.fresh = true → p.kept = none := by
        intro hp
        refine hsame.trans (htidy.fresh ?_)
        rw [Act.actor, hphase]
        exact hfresh.symm.trans hp
      split
      · exact htidy.remove hsame hstill
      · exact htidy.enter hsame hstill
  | @leave c =>
      refine Tidy.of_known (fun e he howner => ?_) (fun _ => rfl) σ.phase
      have hstays : (e.2.client == c) = false := (Dir.mem_remove.1 he).2
      exact absurd (beq_iff_eq.2 howner) (ne_true_of_eq_false hstays)

/-- Calls of others leave the contexts as they are. -/
theorem Steady.step_other (h : Steady table fileId ours ctx σ) (hother : ¬ ours a.actor)
    (hstep : step table fileId filePath a σ = some τ) :
    Steady table fileId ours ctx τ := by
  have hby := step_by hstep
  have hne : ∀ {c}, ours c → c ≠ a.actor := by
    rintro c hc rfl
    exact hother hc
  refine ⟨h.labelled.step hstep, fun c hc => (h.tidy c hc).of_by hby (hne hc),
    fun c hc => ?_, fun e he hc => h.node e (hby.mem he (hne hc)) hc, fun c hc => ?_⟩
  · rw [hby.phase c (hne hc)]
    exact h.row c hc
  · rw [hby.phase c (hne hc)]
    exact h.admitted c hc

/-- What a smooth call lists lets its client in. -/
theorem Steady.admitted_step (h : Steady table fileId ours ctx σ)
    (hids : (table.map OffsetRow.offsetId).Nodup) (hbound : ∀ r ∈ table, r.offsetId < seqBound)
    (hapart : a.lists = true → ∀ c c' i j, ctx c i → ctx c' j → c ≠ c' → ¬ Blocks table fileId i j)
    (hours : ours a.actor) (hsmooth : Smooth table fileId ours a σ)
    (hstep : step table fileId filePath a σ = some τ) :
    (τ.phase a.actor).Admitted table fileId a.actor := by
  obtain ⟨d, p, rfl, hgoes⟩ := goes_of_step hstep
  rw [System.phase_enter_self]
  cases hgoes with
  | @list c id count lockName children hphase hperm =>
      exact h.freeList (hapart rfl) hours hphase hperm (hsmooth.2.2 rfl (id, lockName) (by
        rw [Act.actor, hphase]
        rfl))
  | @readRows c id count lockName children rows r hphase hperm hrow =>
      have hadm := h.admitted _ hours
      rw [Act.actor, hphase] at hadm
      obtain ⟨s, rfl, hfree⟩ := hadm
      -- the row that is read is the one of the file
      obtain ⟨⟨t, ht, htid⟩, -⟩ := Inv.of_phase h.labelled hphase
      have hself := rowOf_of_mem hids (mem_fileRows.1 ht).1
      rw [htid, hrow] at hself
      cases hself
      exact hfree.admitted hbound ⟨⟨_, ht, htid, rfl⟩, hperm.map _⟩
  | @decide c id count lockName children newInterval rows server relevant p hphase hrel hp =>
      obtain rfl := h.decided hours hphase hrel hp
      trivial
  | createLost hphase hs hbound => exact admitted_failed _ _ _ _
  | createFails hphase => exact admitted_failed _ _ _ _
  | listFails hphase => exact admitted_failed _ _ _ _
  | readRowsFails hphase => exact admitted_failed _ _ _ _
  | delete hphase => split <;> trivial
  | _ => trivial

/-- **The step lemma.** -/
theorem Steady.step (h : Steady table fileId ours ctx σ)
    (hids : (table.map OffsetRow.offsetId).Nodup) (hbound : ∀ r ∈ table, r.offsetId < seqBound)
    (hapart : a.lists = true → ∀ c c' i j, ctx c i → ctx c' j → c ≠ c' → ¬ Blocks table fileId i j)
    (hours : ours a.actor) (hctx : ∀ id, a = .acquire a.actor id → ctx a.actor id)
    (hsmooth : Smooth table fileId ours a σ)
    (hstep : step table fileId filePath a σ = some τ) : Steady table fileId ours ctx τ := by
  have hby := step_by hstep
  have hlabelled : Labelled table fileId τ := h.labelled.step hstep
  have hadm := h.admitted_step hids hbound hapart hours hsmooth hstep
  obtain ⟨d, p, rfl, hgoes⟩ := goes_of_step hstep
  have hrow : ∀ id ∈ p.row, ctx a.actor id := by
    intro id hid
    rcases hgoes.row id hid with hacq | hid
    · exact hctx id hacq
    · exact h.row _ hours id hid
  refine ⟨hlabelled, fun c hc => ?_, fun c hc => ?_, fun e he hc => ?_, fun c hc => ?_⟩
  · by_cases hself : c = a.actor
    · subst hself
      exact hgoes.tidy h hours hsmooth
    · exact (h.tidy c hc).of_by hby hself
  · by_cases hself : c = a.actor
    · subst hself
      rw [System.phase_enter_self]
      exact hrow
    · rw [hby.phase c hself]
      exact h.row c hc
  · rcases hgoes.node he with he | ⟨hself, hid⟩
    · exact h.node e he hc
    · rw [hself]
      exact h.row _ hours _ hid
  · by_cases hself : c = a.actor
    · subst hself
      exact hadm
    · rw [hby.phase c hself]
      exact h.admitted c hc

/-! ## Other transactions -/

/-- The rows of the file that overlap afterwards have overlapped before. -/
def LeavesApart (fileId : ℕ) (table table' : List OffsetRow) : Prop :=
  ∀ r ∈ fileRows table fileId, ∀ t ∈ fileRows table fileId,
    Blocks table' fileId r.offsetId t.offsetId → Blocks table fileId r.offsetId t.offsetId

/-- The row is not empty afterwards if it was not before. -/
def LeavesFilled (table table' : List OffsetRow) (id : ℕ) : Prop :=
  (∀ r ∈ table, r.offsetId = id → r.base < r.bound) → ∀ r ∈ table', r.offsetId = id →
    r.base < r.bound

instance (fileId : ℕ) (table table' : List OffsetRow) :
    Decidable (LeavesApart fileId table table') := by
  unfold LeavesApart
  infer_instance

instance (table table' : List OffsetRow) (id : ℕ) : Decidable (LeavesFilled table table' id) := by
  unfold LeavesFilled
  infer_instance

variable {table' : List OffsetRow} {c id s : ℕ} {children : List Text}

theorem LeavesApart.blocks (h : LeavesApart fileId table table') {i j : ℕ}
    (hi : HasRow table fileId i) (hj : HasRow table fileId j) (hblocks : Blocks table' fileId i j) :
    Blocks table fileId i j := by
  obtain ⟨r, hr, rfl⟩ := hi
  obtain ⟨t, ht, rfl⟩ := hj
  exact h r hr t ht hblocks

theorem FreeList.commit (h : FreeList table fileId c id s children) (hrow : HasRow table fileId id)
    (hkeeps : Keeps fileId table table') (hapart : LeavesApart fileId table table')
    (hfilled : LeavesFilled table table' id) : FreeList table' fileId c id s children where
  bound := h.bound
  filled := hfilled h.filled
  own := h.own
  names name hname := by
    obtain ⟨e, heq, hlt, he, hfree⟩ := h.names name hname
    exact ⟨e, heq, hlt, he.mono hkeeps, fun hfront hblocks =>
      hfree hfront (hapart.blocks hrow he hblocks)⟩

/-- The client has begun and has not decided yet. -/
def Phase.busy : Phase → Bool
  | .trying _ _ _ | .created _ _ _ | .listed _ _ _ _ | .ready _ _ _ _ _ _ => true
  | _ => false

/-- **A transaction of another client leaves the contexts as they are**, if none of them is busy, or
if it makes no two rows of the file overlap and empties no row of a context. -/
theorem Steady.commit (h : Steady table fileId ours ctx σ) (hkeeps : Keeps fileId table table')
    (hgentle : ∀ c, ours c → (σ.phase c).busy = true → LeavesApart fileId table table' ∧
      ∀ id ∈ (σ.phase c).row, LeavesFilled table table' id) :
    Steady table' fileId ours ctx σ where
  labelled := h.labelled.mono hkeeps
  tidy := h.tidy
  row := h.row
  node := h.node
  admitted c hc := by
    have hadm := h.admitted c hc
    have hgentle := hgentle c hc
    have hnamed := h.labelled.phase c
    cases hphase : σ.phase c with
    | listed id count lockName children =>
        rw [hphase] at hadm hgentle hnamed
        obtain ⟨s, rfl, hfree⟩ := hadm
        obtain ⟨hapart, hfilled⟩ := hgentle rfl
        exact ⟨s, rfl, hfree.commit hnamed.1 hkeeps hapart (hfilled id rfl)⟩
    | ready id count lockName children newInterval rows =>
        rw [hphase] at hadm
        exact hadm
    | _ => trivial

end Contexts

end IntervalLock

end Yacet
