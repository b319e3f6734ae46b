import Yacet.IntervalLock
import Yacet.Resize
import Yacet.Lib.Shift

/-!
# Interval locks over a table that pushes change (`zkclient.c`, `sql.c`)

`query_resize_file` locks the rows of the file, gives its interval locks back, moves all rows and
commits.  A client that wants a lock has listed the directory before it reads the rows, so it joins
an old list with new positions.

* `step` — the clients of `IntervalLock.step`, and the transactions that change the table.
* `Spares` — a change of the table that makes no two rows overlap that did not before.
* `Past`, `Known` — what a client knows, it knows of a table of the past, and no overlap has come
  since.
* `Sound.step` — the step lemma, for a commit that spares the rows.
* `spares_of_harmless` — a push spares the rows if no row ends between the new and the old end of an
  edited one; so do all pushes on a file whose rows do not overlap (`harmless_of_apart`).
* `holders_apart_now` — **in every run with such pushes two clients that have acquired locks hold
  different rows that do not overlap in the present table.**
* `holders_overlap` — a push that shrinks a row under another one lets two clients in.
-/

namespace Yacet

open CText Tickets Steps

namespace LockedTable

open IntervalLock

/-! ## The system -/

/-- The committed rows, the push that has locked them (`SELECT … FOR UPDATE`) with the nodes of its
list, and the clients. -/
structure Site where
  table : List OffsetRow
  txn : Option (List ItNode)
  clients : IntervalLock.System

def start (table : List OffsetRow) : Site := ⟨table, none, IntervalLock.start⟩

inductive Move
  | client (a : Act)
  | lockOffsets (it : List ItNode)
  | commit
  | rollback

/-- `LOCK IN SHARE MODE`: the call waits for a transaction that has the rows. -/
def reads : Act → Bool
  | .readRows _ _ => true
  | _ => false

def step (fileId : ℕ) (filePath : Text) : Move → Site → Option Site
  | .client a, s =>
    if reads a = true ∧ s.txn.isSome = true then none
    else (IntervalLock.step s.table fileId filePath a s.clients).map fun σ => ⟨s.table, s.txn, σ⟩
  | .lockOffsets it, s => if s.txn.isSome then none else some ⟨s.table, some it, s.clients⟩
  | .commit, s => s.txn.map fun it => ⟨resizedTable fileId it s.table, none, s.clients⟩
  | .rollback, s => s.txn.map fun _ => ⟨s.table, none, s.clients⟩

/-- The rows that overlap afterwards have overlapped before. -/
def Spares (fileId : ℕ) (table table' : List OffsetRow) : Prop :=
  ∀ i j, Blocks table' fileId i j → Blocks table fileId i j

/-- Every commit spares the rows. -/
def Gentle (fileId : ℕ) : Move → Site → Prop
  | .commit, s => ∀ it ∈ s.txn, Spares fileId s.table (resizedTable fileId it s.table)
  | _, _ => True

/-! ## Tables of the past -/

/-- The keys of the rows. -/
def keys (table : List OffsetRow) : List (ℕ × ℕ) := table.map fun r => (r.offsetId, r.fileId)

/-- A table of the past: no row has come or gone, and no two have come to overlap. -/
structure Past (fileId : ℕ) (old table : List OffsetRow) : Prop where
  keys : keys old = keys table
  spares : Spares fileId old table

section Past

variable {fileId id : ℕ} {old table table' : List OffsetRow} {it : List ItNode}

theorem Past.refl (fileId : ℕ) (table : List OffsetRow) : Past fileId table table :=
  ⟨rfl, fun _ _ h => h⟩

theorem Past.trans (h : Past fileId old table) (h' : Past fileId table table') :
    Past fileId old table' :=
  ⟨h.keys.trans h'.keys, fun i j hb => h.spares i j (h'.spares i j hb)⟩

theorem offsetIds_of_keys (h : keys old = keys table) :
    old.map OffsetRow.offsetId = table.map OffsetRow.offsetId := by
  have hfst := congrArg (List.map Prod.fst) h
  simpa only [keys, List.map_map, Function.comp_def] using hfst

theorem exists_row_iff (h : keys old = keys table) :
    (∃ r ∈ fileRows old fileId, r.offsetId = id) ↔
    ∃ r ∈ fileRows table fileId, r.offsetId = id := by
  have hkey : ∀ t : List OffsetRow,
      (∃ r ∈ fileRows t fileId, r.offsetId = id) ↔ (id, fileId) ∈ keys t := by
    intro t
    simp only [mem_fileRows, keys, List.mem_map, Prod.mk.injEq]
    constructor
    · rintro ⟨r, ⟨hr, hf⟩, hid⟩
      exact ⟨r, hr, hid, hf⟩
    · rintro ⟨r, hr, hid, hf⟩
      exact ⟨r, ⟨hr, hf⟩, hid⟩
  rw [hkey, hkey, h]

theorem keys_foldl (fileId : ℕ) (it : List ItNode) (s : Resize) :
    keys (it.foldl (resizeRow fileId) s).table = keys s.table := by
  induction it generalizing s with
  | nil => rfl
  | cons n it ih =>
      rw [List.foldl_cons, ih, resizeRow]
      simp only [keys, List.map_map, Function.comp_def, updateOffset_offsetId, updateOffset_fileId]

/-- A push keeps the keys. -/
theorem keys_resizedTable (fileId : ℕ) (it : List ItNode) (table : List OffsetRow) :
    keys (resizedTable fileId it table) = keys table := keys_foldl fileId it _

end Past

/-! ## What the clients know -/

/-- A client is right about a table of the past. -/
def KnownOf (fileId : ℕ) (table : List OffsetRow) (c : ℕ) (d : Dir Node) (p : Phase) : Prop :=
  ∃ old, Past fileId old table ∧ p.Ok old fileId c d

/-- The invariant of the runs. -/
def Known (fileId : ℕ) (s : Site) : Prop :=
  Inv seqBound (fun v => v.id < seqBound) (KnownOf fileId s.table) s.clients

section Knowledge

variable {fileId c id : ℕ} {filePath : Text} {old table : List OffsetRow} {d : Dir Node}
  {p q : Phase}
  {σ τ : IntervalLock.System} {a : Act} {s t : Site} {m : Move}

theorem Claimed.now {lockName : Text} {lockAcquired : Bool} {k : ℕ} (hpast : Past fileId old table)
    (h : Claimed old fileId c id lockName lockAcquired k d) :
    Claimed table fileId c id lockName lockAcquired k d where
  name := h.name
  issued := h.issued
  clear hacq := (h.clear hacq).imp fun _ _ _ hnot hblocks => hnot (hpast.spares _ _ hblocks)

/-- A client that holds no rows it has read is right about the present table, too. -/
theorem ok_now (hpast : Past fileId old table) (h : p.Ok old fileId c d)
    (hp : ∀ id count lockName children newInterval rows,
      p ≠ .ready id count lockName children newInterval rows) : p.Ok table fileId c d := by
  cases p with
  | idle => trivial
  | trying id count left =>
      refine ⟨(exists_row_iff hpast.keys).1 h.1, fun lockName hname => ?_⟩
      obtain ⟨k, hk⟩ := h.2 lockName hname
      exact ⟨k, Claimed.now hpast hk⟩
  | created id count lockName => exact ⟨(exists_row_iff hpast.keys).1 h.1, h.2⟩
  | listed id count lockName children => exact ⟨(exists_row_iff hpast.keys).1 h.1, h.2⟩
  | ready id count lockName children newInterval rows => exact absurd rfl (hp _ _ _ _ _ _)
  | done id left lockAcquired =>
      intro lockName hname
      obtain ⟨k, hk⟩ := h lockName hname
      exact ⟨k, Claimed.now hpast hk⟩
  | releasing id lockName lockAcquired count =>
      obtain ⟨k, hk⟩ := h
      exact ⟨k, Claimed.now hpast hk⟩

/-- The clients other than `c` have not begun. -/
def alone (c : ℕ) (σ : IntervalLock.System) : IntervalLock.System :=
  ⟨σ.dir, fun c' => if c' = c then σ.phase c else .idle⟩

@[simp] theorem dir_alone : (alone c σ).dir = σ.dir := rfl

@[simp] theorem phase_alone : (alone c σ).phase c = σ.phase c := if_pos rfl

theorem phase_alone_of_ne {c' : ℕ} (hc : c' ≠ c) : (alone c σ).phase c' = .idle := if_neg hc

theorem consistent_alone (h : Inv seqBound (fun v => v.id < seqBound) (KnownOf fileId table) σ)
    (hok : (σ.phase c).Ok old fileId c σ.dir) : Consistent old fileId (alone c σ) where
  numbered := h.numbered
  bound := h.bound
  good := h.good
  phase c' := by
    by_cases hc : c' = c
    · subst hc
      rw [phase_alone]
      exact hok
    · rw [phase_alone_of_ne hc]
      trivial

/-- A call looks at the table only where it begins and where it reads the rows. -/
theorem goes_old (hgoes : Goes table fileId filePath σ a d p) (hkeys : keys old = keys table)
    (hread : reads a = false) : Goes old fileId filePath (alone a.actor σ) a d p := by
  cases hgoes with
  | acquire hid => exact .acquire ((exists_row_iff hkeys).2 hid)
  | parentFails h => exact .parentFails (phase_alone.trans h)
  | create h hs hlt => exact .create (phase_alone.trans h) hs hlt
  | createLost h hs hlt => exact .createLost (phase_alone.trans h) hs hlt
  | createFails h => exact .createFails (phase_alone.trans h)
  | list h hperm => exact .list (phase_alone.trans h) hperm
  | listFails h => exact .listFails (phase_alone.trans h)
  | readRows => cases hread
  | readRowsFails h => exact .readRowsFails (phase_alone.trans h)
  | decide h hrel hp => exact .decide (phase_alone.trans h) hrel hp
  | release h => exact .release (phase_alone.trans h)
  | delete h => exact .delete (phase_alone.trans h)
  | leave => exact .leave

/-- **A call takes place over a table that its client is right about**: the present one where it
reads the rows, otherwise the one of its knowledge. -/
theorem exists_goes (h : KnownOf fileId table a.actor σ.dir (σ.phase a.actor))
    (hgoes : Goes table fileId filePath σ a d p) :
    ∃ old, Past fileId old table ∧ (σ.phase a.actor).Ok old fileId a.actor σ.dir ∧
      Goes old fileId filePath (alone a.actor σ) a d p := by
  obtain ⟨old, hpast, hok⟩ := h
  by_cases hread : reads a = false
  · exact ⟨old, hpast, hok, goes_old hgoes hpast.keys hread⟩
  · cases hgoes with
    | readRows hphase hperm hrow =>
        refine ⟨table, Past.refl fileId table, ok_now hpast hok ?_,
          .readRows (phase_alone.trans hphase) hperm hrow⟩
        intro _ _ _ _ _ _ heq
        rw [Act.actor, hphase] at heq
        cases heq
    | _ => exact absurd rfl hread

/-- What another client knows survives a call. -/
theorem Goes.others (hgoes : Goes old fileId filePath (alone a.actor σ) a d p)
    (hok : (σ.phase a.actor).Ok old fileId a.actor σ.dir) (hc : c ≠ a.actor)
    (hq : q.Ok table fileId c σ.dir) : q.Ok table fileId c d := by
  cases hgoes with
  | create h hs hlt => exact (stable table fileId).add _ _ _ _ _ hq hs
  | createLost h hs hlt => exact (stable table fileId).add _ _ _ _ _ hq hs
  | @delete c₀ id count made answered lockAcquired lockName h =>
      split
      · refine (stable table fileId).remove _ _ _ _ hq fun e he hpath howner => hc ?_
        have hphase : σ.phase c₀ = .releasing id lockName lockAcquired count :=
          phase_alone.symm.trans h
        rw [Act.actor, hphase] at hok
        obtain ⟨k, hclaim⟩ := hok
        rw [hclaim.name] at hpath
        exact howner.symm.trans (client_of_deleted hclaim.issued he hpath)
      · exact hq
  | leave =>
      refine (stable table fileId).remove _ _ _ _ hq fun e _ hgone howner => hc ?_
      exact howner.symm.trans (beq_iff_eq.1 hgone)
  | _ => exact hq

/-- A call of a client. -/
theorem known_client (hids : (table.map OffsetRow.offsetId).Nodup)
    (hbound : ∀ r ∈ table, r.offsetId < seqBound)
    (h : Inv seqBound (fun v => v.id < seqBound) (KnownOf fileId table) σ)
    (hstep : IntervalLock.step table fileId filePath a σ = some τ) :
    Inv seqBound (fun v => v.id < seqBound) (KnownOf fileId table) τ := by
  obtain ⟨d, p, rfl, hgoes⟩ := goes_of_step hstep
  obtain ⟨old, hpast, hok, hgoes⟩ := exists_goes (h.phase a.actor) hgoes
  have hids' : (old.map OffsetRow.offsetId).Nodup := by
    rw [offsetIds_of_keys hpast.keys]
    exact hids
  have hbound' : ∀ r ∈ old, r.offsetId < seqBound := by
    intro r hr
    have hmem : r.offsetId ∈ table.map OffsetRow.offsetId := by
      rw [← offsetIds_of_keys hpast.keys]
      exact List.mem_map_of_mem hr
    obtain ⟨r', hr', heq⟩ := List.mem_map.1 hmem
    exact heq ▸ hbound r' hr'
  -- over that table the client goes on as if it were alone
  have hself := hgoes.consistent (consistent_alone h hok) hids' hbound'
  refine Inv.of_others hself.numbered hself.bound hself.good ?_ ⟨old, hpast, ?_⟩
  · intro c' hc
    obtain ⟨old', hpast', hok'⟩ := h.phase c'
    exact ⟨old', hpast', Goes.others hgoes hok hc hok'⟩
  · have hphase := hself.phase a.actor
    rw [System.phase_enter_self] at hphase
    exact hphase

/-- The rows of the site. -/
structure Sound (fileId : ℕ) (s : Site) : Prop where
  ids : (s.table.map OffsetRow.offsetId).Nodup
  bound : ∀ r ∈ s.table, r.offsetId < seqBound
  known : Known fileId s

/-- **The step lemma**: the calls of the clients keep what all of them know, and so does a commit
that spares the rows. -/
theorem Sound.step (h : Sound fileId s) (hgentle : Gentle fileId m s)
    (hstep : step fileId filePath m s = some t) : Sound fileId t := by
  cases m with
  | client a =>
      simp only [LockedTable.step] at hstep
      split at hstep
      · cases hstep
      · obtain ⟨σ, hσ, rfl⟩ := Option.map_eq_some_iff.1 hstep
        exact ⟨h.ids, h.bound, known_client h.ids h.bound h.known hσ⟩
  | lockOffsets it =>
      simp only [LockedTable.step] at hstep
      split at hstep
      · cases hstep
      · cases hstep
        exact ⟨h.ids, h.bound, h.known⟩
  | commit =>
      obtain ⟨it, hit, rfl⟩ := Option.map_eq_some_iff.1 hstep
      have hkeys := keys_resizedTable fileId it s.table
      have hpast : Past fileId s.table (resizedTable fileId it s.table) :=
        ⟨hkeys.symm, hgentle it hit⟩
      have hids := offsetIds_of_keys hkeys
      refine ⟨by rw [hids]; exact h.ids, fun r hr => ?_, ?_⟩
      · have hmem : r.offsetId ∈ s.table.map OffsetRow.offsetId := by
          rw [← hids]
          exact List.mem_map_of_mem hr
        obtain ⟨r', hr', heq⟩ := List.mem_map.1 hmem
        exact heq ▸ h.bound r' hr'
      · refine ⟨h.known.numbered, h.known.bound, h.known.good, fun c => ?_⟩
        obtain ⟨old, hold, hok⟩ := h.known.phase c
        exact ⟨old, hold.trans hpast, hok⟩
  | rollback =>
      obtain ⟨it, hit, rfl⟩ := Option.map_eq_some_iff.1 hstep
      exact ⟨h.ids, h.bound, h.known⟩

theorem Sound.start {table : List OffsetRow} (hids : (table.map OffsetRow.offsetId).Nodup)
    (hbound : ∀ r ∈ table, r.offsetId < seqBound) : Sound fileId (start table) :=
  ⟨hids, hbound, Inv.start _ fun _ => ⟨table, Past.refl fileId table, trivial⟩⟩

/-- The node of an acquired lock, and what stands in front of it, seen from the present table. -/
theorem owns_of_hasLock (h : Known fileId s) (hlock : HasLock s.clients c id) :
    ∃ k, Owns ⟨c, id⟩ k s.clients.dir ∧
      Front (fun e => ¬ Blocks s.table fileId id e.2.id) k s.clients.dir := by
  obtain ⟨old, hpast, hok⟩ := h.phase c
  have hnow : (s.clients.phase c).Ok s.table fileId c s.clients.dir := by
    refine ok_now hpast hok ?_
    intro _ _ _ _ _ _ hready
    obtain ⟨lockName, hname, -⟩ := hlock
    rw [hready] at hname
    cases hname
  have hlock' : HasLock (alone c s.clients) c id := by
    obtain ⟨lockName, hname, hnode⟩ := hlock
    exact ⟨lockName, by rw [phase_alone]; exact hname, hnode⟩
  exact (consistent_alone h hnow).owns_of_hasLock hlock'

/-- Clients that have acquired locks whose nodes are still there hold different rows that do not
overlap in the present table. -/
theorem Sound.clear_of_hasLock (h : Sound fileId s) {c c' i j : ℕ} (hne : c ≠ c')
    (hc : HasLock s.clients c i) (hc' : HasLock s.clients c' j) :
    i ≠ j ∧ ∀ r ∈ s.table, ∀ t ∈ s.table, r.fileId = fileId → t.fileId = fileId →
      r.offsetId = i → t.offsetId = j → itConflict r.node t.node = false := by
  obtain ⟨k, hown, hclear⟩ := owns_of_hasLock h.known hc
  obtain ⟨k', hown', hclear'⟩ := owns_of_hasLock h.known hc'
  have hapart : ¬ Blocks s.table fileId i j :=
    Front.exclusive (R := fun v w => Blocks s.table fileId v.id w.id) (fun _ _ => Blocks.symm)
      (hown.ne hown' fun heq => hne (congrArg Node.client heq)) hown.present hown'.present hclear
      hclear'
  constructor
  · intro hij
    exact hapart (Or.inl hij)
  · intro r hr t ht hrf htf hi hj
    rw [← Bool.not_eq_true]
    intro hconf
    exact hapart (Or.inr ⟨r, mem_fileRows.2 ⟨hr, hrf⟩, t, mem_fileRows.2 ⟨ht, htf⟩, hi, hj, hconf⟩)

end Knowledge

/-! ## Pushes that spare the rows -/

/-- No row of the file ends between the new end and the old end of an edited one, and no edited row
is empty, each at its `UPDATE`. -/
def Harmless (fileId : ℕ) : List OffsetRow → List ItNode → Prop
  | _, [] => True
  | table, n :: ns => ∃ e, rowOf table n.id = some e ∧ e.fileId = fileId ∧ e.base < e.bound ∧
      (∀ t ∈ fileRows table fileId, ¬ (e.base + (n.bound - n.base) < t.bound ∧ t.bound < e.bound)) ∧
      Harmless fileId (table.map (updateOffset fileId n.id (n.bound - n.base) e.base e.bound)) ns

instance decidableHarmless (fileId : ℕ) : ∀ (it : List ItNode) (table : List OffsetRow),
    Decidable (Harmless fileId table it)
  | [], _ => isTrue trivial
  | n :: ns, table =>
    match he : rowOf table n.id with
    | none => isFalse fun ⟨e, he', _⟩ => by
        rw [he] at he'
        cases he'
    | some e =>
      have := decidableHarmless fileId ns
        (table.map (updateOffset fileId n.id (n.bound - n.base) e.base e.bound))
      decidable_of_iff (e.fileId = fileId ∧ e.base < e.bound ∧
        (∀ t ∈ fileRows table fileId,
          ¬ (e.base + (n.bound - n.base) < t.bound ∧ t.bound < e.bound)) ∧
        Harmless fileId (table.map (updateOffset fileId n.id (n.bound - n.base) e.base e.bound)) ns)
        ⟨fun h => ⟨e, he, h⟩, fun ⟨e', he', h⟩ => by
          rw [he] at he'
          cases he'
          exact h⟩

section Harmless

open Shift

variable {fileId oid ns : ℕ} {table : List OffsetRow} {it : List ItNode} {e r : OffsetRow}

/-- Under the `UPDATE` for a row that is not empty the ends of all rows move alike. -/
theorem updateOffset_shift (ns : ℕ) (hr : r ∈ fileRows table fileId)
    (hids : (table.map OffsetRow.offsetId).Nodup) (he : rowOf table oid = some e)
    (hne : e.base < e.bound) :
    (updateOffset fileId oid ns e.base e.bound r).base = shift e.base e.bound ns r.base ∧
      (updateOffset fileId oid ns e.base e.bound r).bound = shift e.base e.bound ns r.bound := by
  obtain ⟨hmem, hf⟩ := mem_fileRows.1 hr
  have hown : r.offsetId = oid → r.base < e.bound := by
    intro hid
    have hrow := rowOf_of_mem hids hmem
    rw [hid, he] at hrow
    cases hrow
    exact hne
  constructor
  · rw [updateOffset_base hf]
    split
    · rename_i hcond
      rw [resized_eq hcond.2, shift_of_le hcond.2]
    · rename_i hcond
      refine (shift_of_lt ?_).symm
      by_contra hle
      exact hcond ⟨fun hid => hle (hown hid), Nat.not_lt.1 hle⟩
  · rw [updateOffset_bound hf]
    split
    · rename_i hcond
      rw [resized_eq hcond, shift_of_le hcond]
    · rename_i hcond
      exact (shift_of_lt (Nat.not_le.1 hcond)).symm

/-- One `UPDATE`. -/
theorem spares_update (hids : (table.map OffsetRow.offsetId).Nodup) (he : rowOf table oid = some e)
    (hne : e.base < e.bound)
    (hends : ∀ t ∈ fileRows table fileId, ¬ (e.base + ns < t.bound ∧ t.bound < e.bound)) :
    Spares fileId table (table.map (updateOffset fileId oid ns e.base e.bound)) := by
  rintro i j (rfl | ⟨r', hr', t', ht', hi, hj, hconf⟩)
  · exact Or.inl rfl
  · have hold : ∀ x' ∈ fileRows (table.map (updateOffset fileId oid ns e.base e.bound)) fileId,
        ∃ x ∈ fileRows table fileId, updateOffset fileId oid ns e.base e.bound x = x' := by
      intro x' hx'
      obtain ⟨hmem, hf⟩ := mem_fileRows.1 hx'
      obtain ⟨x, hx, rfl⟩ := List.mem_map.1 hmem
      rw [updateOffset_fileId] at hf
      exact ⟨x, mem_fileRows.2 ⟨hx, hf⟩, rfl⟩
    obtain ⟨r, hr, rfl⟩ := hold r' hr'
    obtain ⟨t, ht, rfl⟩ := hold t' ht'
    obtain ⟨hrbase, hrbound⟩ := updateOffset_shift ns hr hids he hne
    obtain ⟨htbase, htbound⟩ := updateOffset_shift ns ht hids he hne
    rw [itConflict_iff, OffsetRow.node_base, OffsetRow.node_bound, OffsetRow.node_base,
      OffsetRow.node_bound, hrbase, hrbound, htbase, htbound] at hconf
    rw [updateOffset_offsetId] at hi hj
    refine Or.inr ⟨r, hr, t, ht, hi, hj, itConflict_iff.2 ⟨?_, ?_⟩⟩
    · exact lt_of_shift_lt (hends t ht) hconf.1
    · exact lt_of_shift_lt (hends r hr) hconf.2

theorem spares_foldl {s : Resize} (hids : (s.table.map OffsetRow.offsetId).Nodup)
    (h : Harmless fileId s.table it) :
    Spares fileId s.table (it.foldl (resizeRow fileId) s).table := by
  induction it generalizing s with
  | nil => exact fun _ _ hb => hb
  | cons n it ih =>
      obtain ⟨e, he, -, hne, hends, hrest⟩ := h
      have hround := resizeRow_of_row fileId he
      have hkeys : keys (resizeRow fileId s n).table = keys s.table := keys_foldl fileId [n] s
      rw [List.foldl_cons]
      intro i j hb
      have hfirst := spares_update hids he hne hends
      rw [hround] at hkeys hb
      refine hfirst i j (ih ?_ hrest i j hb)
      rw [offsetIds_of_keys hkeys]
      exact hids

/-- **A push spares the rows if no row ends between the new and the old end of an edited one.** -/
theorem spares_of_harmless (hids : (table.map OffsetRow.offsetId).Nodup)
    (h : Harmless fileId table it) : Spares fileId table (resizedTable fileId it table) :=
  spares_foldl (s := ⟨table, 0, 0, 0, []⟩) hids h

/-- The rows of the file are proper and do not overlap. -/
structure Apart (fileId : ℕ) (table : List OffsetRow) : Prop where
  le : ∀ r ∈ fileRows table fileId, r.base ≤ r.bound
  apart : ∀ i j, Blocks table fileId i j → i = j

/-- Another row lies in front of `e` or behind it. -/
theorem Apart.cases (h : Apart fileId table) (he : e ∈ fileRows table fileId)
    (hr : r ∈ fileRows table fileId) (hid : r.offsetId ≠ e.offsetId) :
    r.bound ≤ e.base ∨ e.bound ≤ r.base := by
  have hle := h.le r hr
  by_contra hover
  refine hid (h.apart _ _ (Or.inr ⟨r, hr, e, he, rfl, rfl, itConflict_iff.2 ⟨?_, ?_⟩⟩))
  · show r.base < e.bound
    omega
  · show e.base < r.bound
    omega

/-- An `UPDATE` for a row that is not empty leaves the rows apart. -/
theorem Apart.update (h : Apart fileId table) (hids : (table.map OffsetRow.offsetId).Nodup)
    (he : rowOf table oid = some e) (hf : e.fileId = fileId) (hne : e.base < e.bound) (ns : ℕ) :
    (∀ t ∈ fileRows table fileId, ¬ (e.base + ns < t.bound ∧ t.bound < e.bound)) ∧
      Apart fileId (table.map (updateOffset fileId oid ns e.base e.bound)) := by
  have hmem : e ∈ fileRows table fileId := mem_fileRows.2 ⟨(rowOf_some he).1, hf⟩
  -- the edited row itself, and the others on one side of it
  have hcases : ∀ r ∈ fileRows table fileId,
      r = e ∨ r.bound ≤ e.base ∨ e.bound ≤ r.base := by
    intro r hr
    by_cases hid : r.offsetId = e.offsetId
    · exact Or.inl (List.inj_on_of_nodup_map hids (mem_fileRows.1 hr).1 (mem_fileRows.1 hmem).1 hid)
    · exact Or.inr (h.cases hmem hr hid)
  have hends : ∀ t ∈ fileRows table fileId, ¬ (e.base + ns < t.bound ∧ t.bound < e.bound) := by
    rintro t ht ⟨hlo, hhi⟩
    have hle := h.le t ht
    rcases hcases t ht with rfl | hfront | hback
    · omega
    · omega
    · omega
  refine ⟨hends, fun r' hr' => ?_, fun i j hb =>
    h.apart i j (spares_update hids he hne hends i j hb)⟩
  obtain ⟨hmem', hf'⟩ := mem_fileRows.1 hr'
  obtain ⟨r, hr, rfl⟩ := List.mem_map.1 hmem'
  rw [updateOffset_fileId] at hf'
  have hr : r ∈ fileRows table fileId := mem_fileRows.2 ⟨hr, hf'⟩
  obtain ⟨hbase, hbound⟩ := updateOffset_shift ns hr hids he hne
  have hle := h.le r hr
  rw [hbase, hbound]
  unfold shift
  rcases hcases r hr with rfl | hfront | hback
  · split_ifs <;> omega
  · split_ifs <;> omega
  · split_ifs <;> omega

/-- **On a file whose rows do not overlap every push of rows that are not empty is harmless.** -/
theorem harmless_of_apart (h : Apart fileId table) (hids : (table.map OffsetRow.offsetId).Nodup)
    (hit : ∀ n ∈ it, ∃ e, rowOf table n.id = some e ∧ e.fileId = fileId ∧ e.base < e.bound)
    (hdistinct : (it.map ItNode.id).Nodup) : Harmless fileId table it := by
  induction it generalizing table with
  | nil => trivial
  | cons n it ih =>
      rw [List.map_cons, List.nodup_cons] at hdistinct
      obtain ⟨e, he, hf, hne⟩ := hit n List.mem_cons_self
      obtain ⟨hends, hapart⟩ := h.update hids he hf hne (n.bound - n.base)
      refine ⟨e, he, hf, hne, hends, ih hapart ?_ ?_ hdistinct.2⟩
      · simpa only [List.map_map, Function.comp_def, updateOffset_offsetId] using hids
      · intro m hm
        obtain ⟨r, hr, hrf, hrne⟩ := hit m (List.mem_cons_of_mem _ hm)
        have hrow : r ∈ fileRows table fileId := mem_fileRows.2 ⟨(rowOf_some hr).1, hrf⟩
        have hid : r.offsetId ≠ e.offsetId := by
          rw [(rowOf_some hr).2, (rowOf_some he).2]
          intro heq
          exact hdistinct.1 (heq ▸ List.mem_map_of_mem hm)
        obtain ⟨hbase, hbound⟩ := updateOffset_shift (n.bound - n.base) hrow hids he hne
        refine ⟨_, by rw [rowOf_map fun _ => updateOffset_offsetId, hr]; rfl, ?_, ?_⟩
        · rw [updateOffset_fileId, hrf]
        · rw [hbase, hbound]
          -- a row beside the edited one keeps its size
          unfold shift
          rcases h.cases (mem_fileRows.2 ⟨(rowOf_some he).1, hf⟩) hrow hid with hfront | hback
          · split_ifs <;> omega
          · split_ifs <;> omega

end Harmless

/-! ## Runs -/

/-- Commits only of harmless pushes. -/
def Cautious (fileId : ℕ) : Move → Site → Prop
  | .commit, s => ∀ it ∈ s.txn, Harmless fileId s.table it
  | _, _ => True

instance (fileId : ℕ) (m : Move) (s : Site) : Decidable (Cautious fileId m s) := by
  unfold Cautious
  split
  · infer_instance
  · infer_instance

theorem Cautious.gentle {fileId : ℕ} {m : Move} {s : Site}
    (hids : (s.table.map OffsetRow.offsetId).Nodup) (h : Cautious fileId m s) :
    Gentle fileId m s := by
  cases m with
  | commit => exact fun it hit => spares_of_harmless hids (h it hit)
  | _ => trivial

/-- **As long as no row ends between the new and the old end of a row that a push edits, clients
that have acquired locks whose nodes are still there hold different rows that do not overlap in the
present table**, however old the tables are that they have read. -/
theorem holders_apart_now {table : List OffsetRow} {fileId : ℕ} {filePath : Text} {s : Site}
    (hids : (table.map OffsetRow.offsetId).Nodup) (hbound : ∀ r ∈ table, r.offsetId < 2 ^ 31)
    (h : Reach (step fileId filePath) (Cautious fileId) (start table) s) {c c' i j : ℕ}
    (hne : c ≠ c') (hc : HasLock s.clients c i) (hc' : HasLock s.clients c' j) :
    i ≠ j ∧ ∀ r ∈ s.table, ∀ t ∈ s.table, r.fileId = fileId → t.fileId = fileId →
      r.offsetId = i → t.offsetId = j → itConflict r.node t.node = false := by
  have hsound : Sound fileId s := h.invariant (Sound.start hids hbound)
    fun _ _ _ hs hcautious hstep => hs.step (hcautious.gentle hs.ids) hstep
  exact hsound.clear_of_hasLock hne hc hc'

/-- Three clients get their locks, the first one pushes, and its row grows. -/
theorem holders_apart_now_grown :
    let table : List OffsetRow := [⟨1, 1, 7, 0, 4, false⟩, ⟨2, 1, 8, 6, 9, false⟩,
      ⟨3, 1, 9, 10, 20, false⟩]
    ∃ s, Reach (step 1 ['/', 'f']) (Cautious 1) (start table) s ∧
      HasLock s.clients 1 2 ∧ HasLock s.clients 2 3 ∧
      s.table.map (fun r => (r.base, r.bound)) = [(0, 7), (9, 12), (13, 23)] ∧
      (2 ≠ 3 ∧ ∀ r ∈ s.table, ∀ t ∈ s.table, r.fileId = 1 → t.fileId = 1 → r.offsetId = 2 →
        t.offsetId = 3 → itConflict r.node t.node = false) := by
  intro table
  let nodes : List (ℕ × Node) := [(0, ⟨0, 1⟩), (1, ⟨1, 2⟩), (2, ⟨2, 3⟩)]
  let moves : List Move :=
    (attempt 0 1 0 (nodes.take 1) table ++ attempt 1 2 1 (nodes.take 2) table ++
    attempt 2 3 2 nodes table).map Move.client ++
    [.lockOffsets [⟨1, 0, 7⟩], .client (.release 0), .client (.delete 0 true true), .commit]
  have hrun : (runGuarded (step 1 ['/', 'f']) (Cautious 1) moves (start table)).bind
      (fun s => some (s.table.map fun r => (r.base, r.bound), s.clients.phase 1, s.clients.phase 2,
        s.clients.dir.nodes)) =
        some ([(0, 7), (9, 12), (13, 23)], .done 2 (some (intervalNode 2 1)) true,
          .done 3 (some (intervalNode 3 2)) true, [(1, ⟨1, 2⟩), (2, ⟨2, 3⟩)]) := by
    decide +kernel
  obtain ⟨s, hs, hphase⟩ := Option.bind_eq_some_iff.1 hrun
  simp only [Option.some.injEq, Prod.mk.injEq] at hphase
  obtain ⟨htable, h1, h2, hnodes⟩ := hphase
  have hreach := reach_of_runGuarded hs
  have hlock1 : HasLock s.clients 1 2 := ⟨intervalNode 2 1, by rw [h1]; rfl, (1, ⟨1, 2⟩),
    by rw [hnodes]; simp, rfl⟩
  have hlock2 : HasLock s.clients 2 3 := ⟨intervalNode 3 2, by rw [h2]; rfl, (2, ⟨2, 3⟩),
    by rw [hnodes]; simp, rfl⟩
  exact ⟨s, hreach, hlock1, hlock2, htable,
    holders_apart_now (by decide) (by decide) hreach (by decide) hlock1 hlock2⟩

/-- **Without the guard two clients can get locks of rows that overlap by now**: the first one
shrinks its row from ten bytes to two, the second has listed the directory before, and the third has
got its lock meanwhile. -/
theorem holders_overlap :
    let table : List OffsetRow := [⟨1, 1, 7, 10, 20, false⟩, ⟨2, 1, 8, 15, 18, false⟩,
      ⟨3, 1, 9, 20, 30, false⟩]
    ∃ s, Reach (step 1 ['/', 'f']) (fun _ _ => True) (start table) s ∧
      HasLock s.clients 1 2 ∧ HasLock s.clients 2 3 ∧
      ∃ r ∈ s.table, ∃ t ∈ s.table, r.offsetId = 2 ∧ t.offsetId = 3 ∧
        itConflict r.node t.node = true := by
  intro table
  let nodes : List (ℕ × Node) := [(0, ⟨0, 1⟩), (1, ⟨1, 2⟩), (2, ⟨2, 3⟩)]
  let table' : List OffsetRow := [⟨1, 1, 7, 10, 12, false⟩, ⟨2, 1, 8, 15, 18, true⟩,
    ⟨3, 1, 9, 12, 22, true⟩]
  let moves : List Move := (attempt 0 1 0 (nodes.take 1) table ++
    [Act.acquire 1 2, .create 1 1, .list 1 ((nodes.take 2).map nodeName)] ++
    attempt 2 3 2 nodes table).map Move.client ++
    [.lockOffsets [⟨1, 0, 2⟩], .client (.release 0), .client (.delete 0 true true), .commit,
      .client (.readRows 1 table'), .client (.decide 1 fun _ _ => ZOK)]
  have hrun : (runGuarded (step 1 ['/', 'f']) (fun _ _ => True) moves (start table)).bind
      (fun s => some (s.table, s.clients.phase 1, s.clients.phase 2, s.clients.dir.nodes)) =
        some (table', .done 2 (some (intervalNode 2 1)) true,
          .done 3 (some (intervalNode 3 2)) true,
          [(1, ⟨1, 2⟩), (2, ⟨2, 3⟩)]) := by
    decide +kernel
  obtain ⟨s, hs, hphase⟩ := Option.bind_eq_some_iff.1 hrun
  simp only [Option.some.injEq, Prod.mk.injEq] at hphase
  obtain ⟨htable, h1, h2, hnodes⟩ := hphase
  refine ⟨s, reach_of_runGuarded hs, ⟨intervalNode 2 1, by rw [h1]; rfl, (1, ⟨1, 2⟩), ?_, rfl⟩,
    ⟨intervalNode 3 2, by rw [h2]; rfl, (2, ⟨2, 3⟩), ?_, rfl⟩, ⟨2, 1, 8, 15, 18, true⟩, ?_,
    ⟨3, 1, 9, 12, 22, true⟩, ?_, rfl, rfl, by decide⟩
  · rw [hnodes]
    simp
  · rw [hnodes]
    simp
  · rw [htable]
    simp [table']
  · rw [htable]
    simp [table']

end LockedTable

end Yacet
