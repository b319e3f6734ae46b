import Yacet.Load
import Yacet.PushOutcome
import Yacet.Lib.Steps

/-!
# Write sessions on one file

Any number of sessions load, pull, edit and push the same file in any order.  A load commits its
transaction before the pull reads the file, so the positions in the list may be those of an older
file.  The push reads its positions from the database again.

* `System`, `step` — the sessions and their steps; a label carries what the system leaves open: the
  order of rows with equal `Base`, what the swap file held before, and what the user typed.
* `Fresh` — the state before a step is the one the session believes in.
* `sessions_fresh` — in every run of fresh steps a session is shown the current text of its rows,
  the file is the initial one with the finished sessions' texts in place, and a session that edits
  nothing changes nothing.
-/

namespace Yacet

open Descriptor Patchwork Steps

namespace Sessions

/-! ## The system -/

/-- Where a session stands.  `shown` is what the pull put around its oracles, `segs` what stands
there now. -/
inductive Phase
  | idle
  | loaded (it : List ItNode)
  | working (it : List ItNode) (shown segs : List Segment) (swp : List Byte)
  | done (segs : List Segment)

structure System where
  stores : Stores Byte
  phase : ℕ → Phase

/-- The steps of the session on range `s`. -/
inductive Act
  | load (s : ℕ) (rows : List OffsetRow)
  | pull (s : ℕ) (old : List Byte)
  | edit (s : ℕ) (segs : List Segment) (tail : List Byte)
  | push (s : ℕ)

def Act.session : Act → ℕ
  | .load s _ => s
  | .pull s _ => s
  | .edit s _ _ => s
  | .push s => s

def System.enter (σ : System) (s : ℕ) (p : Phase) : System :=
  { σ with phase := Function.update σ.phase s p }

@[simp] theorem System.enter_stores (σ : System) (s : ℕ) (p : Phase) :
    (σ.enter s p).stores = σ.stores := rfl

@[simp] theorem System.enter_self (σ : System) (s : ℕ) (p : Phase) : (σ.enter s p).phase s = p :=
  Function.update_self _ _ _

theorem System.enter_of_ne (σ : System) {s t : ℕ} (h : t ≠ s) (p : Phase) :
    (σ.enter s p).phase t = σ.phase t := Function.update_of_ne h _ _

/-- One step; every call of a push succeeds. -/
def step (o : Oracles) (fileId : ℕ) : Act → System → Option System
  | .load s rows, σ =>
    match σ.phase s with
    | .idle =>
      if Selected σ.stores.table fileId s rows then
        (loadRows ⟨[], 0⟩ rows).map fun rf => σ.enter s (.loaded rf.it)
      else none
    | _ => none
  | .pull s old, σ =>
    match σ.phase s with
    | .loaded it =>
      let shown := pulled σ.stores.backing 0 it
      some (σ.enter s (.working it shown shown (addOracles o it σ.stores.backing old)))
    | _ => none
  | .edit s segs' tail, σ =>
    match σ.phase s with
    | .working it shown segs swp =>
      if swp = swapBytes o segs tail ∧ segs'.map Segment.lead = segs.map Segment.lead then
        some (σ.enter s (.working it shown segs' (swapBytes o segs' tail)))
      else none
    | _ => none
  | .push s, σ =>
    match σ.phase s with
    | .working it shown segs swp =>
      (pushSwapFile (fun _ => true) true fileId o it swp σ.stores).map fun out =>
        System.enter ⟨out.stores, σ.phase⟩ s
          (if out.ret = 0 then .done segs else .working out.it shown segs swp)
    | _ => none

/-- Before any session. -/
def System.start (F : List Byte) (table : List OffsetRow) : System := ⟨⟨F, table⟩, fun _ => .idle⟩

/-- The rows of a load do not touch; the positions a pull uses are the current ones; the search of a
push finds the oracles that the pull wrote, or gives up. -/
def Fresh (o : Oracles) : Act → System → Prop
  | .load _ rows, _ => rows.Pairwise fun r t => itIntersect r.node t.node = false
  | .pull s _, σ => ∀ it, σ.phase s = .loaded it → ∀ n ∈ it, ∃ r,
      rowOf σ.stores.table n.id = some r ∧ r.base = n.base ∧ r.bound = n.bound
  | .edit _ _ _, _ => True
  | .push s, σ => ∀ it shown segs swp, σ.phase s = .working it shown segs swp →
      Firsts o swp 0 segs ∨ (searchLoop (fun _ => true) o swp 0 0 it).1 = false

/-- The rows of the sessions `ss` on the file, in ascending order. -/
def sessionRows (fileId : ℕ) (ss : List ℕ) (table : List OffsetRow) : List OffsetRow :=
  (table.filter fun r => r.fileId = fileId ∧ r.rangeId ∈ ss).insertionSort fun r t =>
    r.base ≤ t.base

/-- Those of one session. -/
def ownRows (rows : List OffsetRow) (s : ℕ) : List OffsetRow := rows.filter fun r => r.rangeId = s

/-- Pairwise disjoint, non-empty rows inside the file. -/
structure SessionsOk (fileId L : ℕ) (ss : List ℕ) (table : List OffsetRow) : Prop where
  ids : (table.map OffsetRow.offsetId).Nodup
  nonempty : ∀ r ∈ sessionRows fileId ss table, r.base < r.bound
  inside : ∀ r ∈ sessionRows fileId ss table, r.bound ≤ L
  apart : (sessionRows fileId ss table).Pairwise fun r t => itConflict r.node t.node = false

/-- What a step can do. -/
theorem step_cases {o : Oracles} {fileId : ℕ} {a : Act} {σ σ' : System}
    (h : step o fileId a σ = some σ') :
    (∃ s rows rf, a = .load s rows ∧ σ.phase s = .idle ∧ Selected σ.stores.table fileId s rows ∧
      loadRows ⟨[], 0⟩ rows = some rf ∧ σ' = σ.enter s (.loaded rf.it)) ∨
    (∃ s old it, a = .pull s old ∧ σ.phase s = .loaded it ∧
      σ' = σ.enter s (.working it (pulled σ.stores.backing 0 it) (pulled σ.stores.backing 0 it)
        (addOracles o it σ.stores.backing old))) ∨
    (∃ s segs' tail it shown segs, a = .edit s segs' tail ∧
      σ.phase s = .working it shown segs (swapBytes o segs tail) ∧
      segs'.map Segment.lead = segs.map Segment.lead ∧
      σ' = σ.enter s (.working it shown segs' (swapBytes o segs' tail))) ∨
    (∃ s it shown segs swp out, a = .push s ∧ σ.phase s = .working it shown segs swp ∧
      pushSwapFile (fun _ => true) true fileId o it swp σ.stores = some out ∧
      σ' = System.enter ⟨out.stores, σ.phase⟩ s
        (if out.ret = 0 then .done segs else .working out.it shown segs swp)) := by
  cases a with
  | load s rows =>
      simp only [step] at h
      split at h
      · rename_i hphase
        split at h
        · rename_i hsel
          obtain ⟨rf, hload, rfl⟩ := Option.map_eq_some_iff.1 h
          exact Or.inl ⟨s, rows, rf, rfl, hphase, hsel, hload, rfl⟩
        · cases h
      · cases h
  | pull s old =>
      simp only [step] at h
      split at h
      · rename_i it hphase
        cases h
        exact Or.inr (Or.inl ⟨s, old, it, rfl, hphase, rfl⟩)
      · cases h
  | edit s segs' tail =>
      simp only [step] at h
      split at h
      · rename_i it shown segs swp hphase
        split at h
        · rename_i hedit
          obtain ⟨rfl, hlead⟩ := hedit
          cases h
          exact Or.inr (Or.inr (Or.inl ⟨s, segs', tail, it, shown, segs, rfl, hphase, hlead, rfl⟩))
        · cases h
      · cases h
  | push s =>
      simp only [step] at h
      split at h
      · rename_i it shown segs swp hphase
        obtain ⟨out, hout, rfl⟩ := Option.map_eq_some_iff.1 h
        exact Or.inr (Or.inr (Or.inr ⟨s, it, shown, segs, swp, out, rfl, hphase, hout, rfl⟩))
      · cases h

/-- A push whose behaviour is defined. -/
theorem step_push {o : Oracles} {fileId s : ℕ} {σ : System} {it : List ItNode}
    {shown segs : List Segment} {swp : List Byte} {out : PushResult}
    (hphase : σ.phase s = .working it shown segs swp)
    (hout : pushSwapFile (fun _ => true) true fileId o it swp σ.stores = some out) :
    step o fileId (.push s) σ = some (System.enter ⟨out.stores, σ.phase⟩ s
      (if out.ret = 0 then .done segs else .working out.it shown segs swp)) := by
  simp only [step, hphase, hout, Option.map_some]

/-! ## What the sessions expect -/

/-- The text the rows of session `s` have, as far as the session has decided. -/
def Phase.Leaves (F : List Byte) (rows : List OffsetRow) (text : OffsetRow → List Byte) :
    Phase → Prop
  | .done segs => rows.map text = segs.map Segment.text
  | _ => ∀ r ∈ rows, text r = F.slice r.base r.bound

/-- The file is the initial one with the text of each row replaced by what its session left between
the oracles. -/
def Replaced (fileId : ℕ) (ss : List ℕ) (F : List Byte) (table : List OffsetRow) (σ : System) :
    Prop :=
  ∃ text : OffsetRow → List Byte,
    σ.stores.backing = replaceSpans F 0 ((sessionRows fileId ss table).map fun r =>
      ⟨r.base, r.bound, text r⟩) ∧
    ∀ s ∈ ss, (σ.phase s).Leaves F (ownRows (sessionRows fileId ss table) s) text

/-- The pull of session `s` shows the current text of its rows between the oracles. -/
def ShowsCurrent (o : Oracles) (fileId s : ℕ) (σ σ' : System) : Prop :=
  ∃ rows it shown swp tail, Selected σ.stores.table fileId s rows ∧
    σ'.phase s = .working it shown shown swp ∧ swp = swapBytes o shown tail ∧
    shown.map Segment.text = rows.map fun r => σ.stores.backing.slice r.base r.bound

/-- If session `s` has edited nothing, its push leaves the file alone. -/
def QuietPush (s : ℕ) (σ σ' : System) : Prop :=
  ∀ it shown swp, σ.phase s = .working it shown shown swp → σ'.stores.backing = σ.stores.backing

/-! ## The invariant -/

/-- What a session relies on, besides the text of its rows. -/
def Phase.Ready (o : Oracles) (F : List Byte) (rows : List OffsetRow) : Phase → Prop
  | .loaded it => it.map ItNode.id = rows.map OffsetRow.offsetId
  | .working it shown segs swp =>
    it.map ItNode.id = rows.map OffsetRow.offsetId ∧
      shown.map Segment.text = (rows.map fun r => F.slice r.base r.bound) ∧
      segs.length = it.length ∧ ∃ tail, swp = swapBytes o segs tail
  | _ => True

/-- The rows have been moved about, but no key has changed. -/
def Keyed (table table' : List OffsetRow) : Prop :=
  ∃ f : OffsetRow → OffsetRow, (∀ r, (f r).offsetId = r.offsetId ∧ (f r).fileId = r.fileId ∧
    (f r).rangeId = r.rangeId) ∧ table' = table.map f

/-- The file is a patchwork of the initial gaps and the texts of the sessions' rows, the table
follows it, and every session finds what it relies on. -/
structure Inv (o : Oracles) (fileId : ℕ) (ss : List ℕ) (F : List Byte)
    (table rows : List OffsetRow) (σ : System) (τ : ℕ → List Byte) : Prop where
  file : σ.stores.backing = flat (gaps F rows) τ rows.length
  tracks : TracksAll (gaps F rows) τ fileId (RowMarks fileId F table rows) σ.stores.table
  keyed : Keyed table σ.stores.table
  leaves : ∀ s ∈ ss, (σ.phase s).Leaves F (ownRows rows s) fun r => τ (rows.idxOf r)
  ready : ∀ s ∈ ss, (σ.phase s).Ready o F (ownRows rows s)

variable {o : Oracles} {fileId s L : ℕ} {ss : List ℕ} {F : List Byte}
  {table table' rows rs : List OffsetRow} {σ σ' : System} {τ : ℕ → List Byte}

theorem SessionsOk.rowsOk (h : SessionsOk fileId F.length ss table) :
    RowsOk fileId F.length table (sessionRows fileId ss table) := by
  have hmem : ∀ r ∈ sessionRows fileId ss table, r ∈ table ∧ r.fileId = fileId := by
    intro r hr
    rw [sessionRows, List.mem_insertionSort, List.mem_filter, decide_eq_true_eq] at hr
    exact ⟨hr.1, hr.2.1⟩
  refine ⟨⟨fun r hr => rowOf_of_mem h.ids (hmem r hr).1, fun r hr => (hmem r hr).2,
    fun r hr => (h.nonempty r hr).le, ?_⟩, h.inside⟩
  refine precedes_insertionSort (fun r hr => ?_) ?_
  · exact h.nonempty r ((List.mem_insertionSort _).2 hr)
  · have hapart : (sessionRows fileId ss table).Pairwise fun r t =>
        r.bound ≤ t.base ∨ t.bound ≤ r.base := by
      refine h.apart.imp fun {r t} hrt => ?_
      rw [← Bool.not_eq_true, itConflict_iff] at hrt
      simp only [OffsetRow.node_base, OffsetRow.node_bound] at hrt
      omega
    exact ((List.perm_insertionSort _ _).pairwise_iff fun h => h.symm).1 hapart

theorem mem_ownRows {r : OffsetRow} : r ∈ ownRows rows s ↔ r ∈ rows ∧ r.rangeId = s := by
  rw [ownRows, List.mem_filter, decide_eq_true_eq]

/-- The rows of one session, wherever they are now, are what a load selects. -/
theorem ownRows_perm (fileId : ℕ) (table : List OffsetRow) {f : OffsetRow → OffsetRow}
    (hf : ∀ r, (f r).offsetId = r.offsetId ∧ (f r).fileId = r.fileId ∧
      (f r).rangeId = r.rangeId) (hs : s ∈ ss) :
    ((ownRows (sessionRows fileId ss table) s).map f).Perm
      ((table.map f).filter fun r => r.fileId = fileId ∧ r.rangeId = s) := by
  rw [List.filter_map]
  refine List.Perm.map f ?_
  have hpred : ((fun r : OffsetRow => decide (r.fileId = fileId ∧ r.rangeId = s)) ∘ f) =
      fun r => decide (r.fileId = fileId ∧ r.rangeId = s) := by
    funext r
    simp only [Function.comp_apply, (hf r).2.1, (hf r).2.2]
  rw [hpred, ownRows, sessionRows]
  refine ((List.perm_insertionSort _ _).filter _).trans ?_
  rw [List.filter_filter]
  refine List.Perm.of_eq (List.filter_congr fun r _ => ?_)
  rw [← Bool.decide_and, decide_eq_decide]
  constructor
  · rintro ⟨h1, h2, _⟩
    exact ⟨h2, h1⟩
  · rintro ⟨h1, h2⟩
    exact ⟨h2, h1, h2 ▸ hs⟩

/-! ## The rows while the sessions run -/

theorem patches_idxOf {r : OffsetRow} (hr : r ∈ rows) :
    patches F rows (rows.idxOf r) = F.slice r.base r.bound := by
  have hi := List.idxOf_lt_length_of_mem hr
  rw [patches, cutPatch, baseAt_of_lt hi, boundAt_of_lt hi, List.getElem_idxOf]

section Rows

variable (h : RowsOk fileId F.length table rows)
include h

theorem ownRows_ordered :
    (ownRows rows s).Pairwise fun r t => rows.idxOf r < rows.idxOf t := by
  refine List.Pairwise.filter _ ?_
  rw [List.pairwise_iff_getElem]
  intro i j hi hj hij
  rw [h.nodup.idxOf_getElem i hi, h.nodup.idxOf_getElem j hj]
  exact hij

/-- **Where the rows are now**: the patches of the current patchwork. -/
theorem Inv.current (hinv : Inv o fileId ss F table rows σ τ) :
    ∃ f : OffsetRow → OffsetRow, (∀ r, (f r).offsetId = r.offsetId ∧ (f r).fileId = r.fileId ∧
      (f r).rangeId = r.rangeId) ∧ σ.stores.table = table.map f ∧
      ∀ r ∈ rows, rowOf σ.stores.table r.offsetId = some (f r) ∧
        (f r).base = start (gaps F rows) τ (rows.idxOf r) ∧
        (f r).bound = stop (gaps F rows) τ (rows.idxOf r) := by
  obtain ⟨f, hf, htable⟩ := hinv.keyed
  refine ⟨f, hf, htable, fun r hr => ?_⟩
  have hrow : rowOf σ.stores.table r.offsetId = some (f r) := by
    rw [htable, rowOf_map fun r => (hf r).1, h.row r hr]
    rfl
  obtain ⟨r', hr', _, htracks⟩ := hinv.tracks _ _ _ (rowMarks_edited hr)
  rw [hrow] at hr'
  cases hr'
  exact ⟨hrow, htracks.base, htracks.bound⟩

/-- The current rows of a session, in the order of the list. -/
theorem Inv.own_pairwise {f : OffsetRow → OffsetRow}
    (hf : ∀ r ∈ rows, (f r).base = start (gaps F rows) τ (rows.idxOf r) ∧
      (f r).bound = stop (gaps F rows) τ (rows.idxOf r)) :
    ((ownRows rows s).map f).Pairwise fun r t => r.bound ≤ t.base ∧ r.base ≤ t.base := by
  rw [List.pairwise_map]
  refine (ownRows_ordered h).imp_of_mem fun {r t} hr ht hrt => ?_
  obtain ⟨hr1, hr2⟩ := hf r (mem_ownRows.1 hr).1
  obtain ⟨ht1, _⟩ := hf t (mem_ownRows.1 ht).1
  have h1 := stop_le_start (g := gaps F rows) (τ := τ) hrt
  have h2 := start_le_stop (g := gaps F rows) (τ := τ) (i := rows.idxOf r)
  rw [hr1, hr2, ht1]
  exact ⟨h1, Nat.le_trans h2 h1⟩

end Rows

/-! ## The steps -/

/-- A node is what its row says. -/
theorem eq_map_node {u : OffsetRow → OffsetRow} (hu : ∀ r, (u r).offsetId = r.offsetId) :
    ∀ {it : List ItNode} {rs : List OffsetRow}, it.map ItNode.id = rs.map OffsetRow.offsetId →
      (∀ n ∈ it, ∀ r ∈ rs, n.id = r.offsetId → (u r).base = n.base ∧ (u r).bound = n.bound) →
      it = (rs.map u).map OffsetRow.node
  | [], [], _, _ => rfl
  | [], _ :: _, h, _ => by cases h
  | _ :: _, [], h, _ => by cases h
  | n :: ns, r :: rs, hid, h => by
    simp only [List.map_cons, List.cons.injEq] at hid
    obtain ⟨h1, h2⟩ := h n List.mem_cons_self r List.mem_cons_self hid.1
    have hnode : n = (u r).node := by
      rw [OffsetRow.node, hu r, h1, h2, ← hid.1]
    rw [List.map_cons, List.map_cons, ← hnode, ← eq_map_node hu hid.2 fun m hm t ht =>
      h m (List.mem_cons_of_mem _ hm) t (List.mem_cons_of_mem _ ht)]

section Steps

variable (hok : SessionsOk fileId F.length ss table) (hs : s ∈ ss)
  (hinv : Inv o fileId ss F table (sessionRows fileId ss table) σ τ)
include hok hs hinv

/-- A load of rows that do not touch takes all rows of the session, in order. -/
theorem load_own (hphase : σ.phase s = .idle) (hsel : Selected σ.stores.table fileId s rs)
    (hap : rs.Pairwise fun r t => itIntersect r.node t.node = false) :
    loadRows ⟨[], 0⟩ rs = some ⟨rs.map OffsetRow.node, rs.length⟩ ∧
      (rs.map OffsetRow.node).map ItNode.id =
        (ownRows (sessionRows fileId ss table) s).map OffsetRow.offsetId := by
  have h := hok.rowsOk
  obtain ⟨f, hf, htable, hrow⟩ := hinv.current h
  have hleaves := hinv.leaves s hs
  rw [hphase] at hleaves
  have hperm := ownRows_perm fileId table hf hs
  rw [← htable] at hperm
  have hown := Inv.own_pairwise h (s := s) fun r hr => (hrow r hr).2
  -- the session has not pushed yet, so its rows are not empty
  have hlt : ∀ r ∈ (ownRows (sessionRows fileId ss table) s).map f, r.base < r.bound := by
    intro r hr
    obtain ⟨t, ht, rfl⟩ := List.mem_map.1 hr
    have htr := (mem_ownRows.1 ht).1
    obtain ⟨_, h1, h2⟩ := hrow t htr
    rw [h1, h2]
    refine start_lt_stop ?_
    intro hnil
    have htext := hleaves t ht
    simp only [hnil] at htext
    have hlen := List.length_slice_of_le (a := t.base) (h.inside t htr)
    rw [← htext, List.length_nil] at hlen
    have := hok.nonempty t htr
    omega
  have heq : rs = (ownRows (sessionRows fileId ss table) s).map f := by
    have hperm' := hsel.perm.trans hperm.symm
    have hsorted : ((ownRows (sessionRows fileId ss table) s).map f).Pairwise fun r t =>
        r.base ≤ t.base := hown.imp fun h => h.2
    refine List.Perm.eq_of_pairwise ?_ hsel.sorted hsorted hperm'
    intro a b ha hb hab hba
    have hsymm : Std.Symm fun r t : OffsetRow => r.base = t.base → r = t :=
      ⟨fun _ _ hrt he => (hrt he.symm).symm⟩
    have hinj :=
      hown.imp_of_mem (S := fun r t => r.base = t.base → r = t) fun {r t} hr _ hrt he => by
      have := hlt r hr
      have := hrt.1
      omega
    exact hinj.forall_of_forall (fun _ _ _ => rfl) (hperm'.mem_iff.1 ha) hb
      (Nat.le_antisymm hab hba)
  constructor
  · refine load_apart ?_ ?_
    · refine (hsel.sorted.and hap).imp_of_mem fun {r t} hr ht hrt => ?_
      have hlt' := hlt t (heq ▸ ht)
      have hdis := itIntersect_eq_false_iff.1 hrt.2
      simp only [OffsetRow.node_base, OffsetRow.node_bound] at hdis
      have := hrt.1
      omega
    · intro r hr
      exact (hlt r (heq ▸ hr)).le
  · rw [heq, List.map_map, List.map_map]
    exact List.map_congr_left fun r _ => (hf r).1

/-- A pull with current positions shows the current text, which is still the initial one. -/
theorem pull_own {it : List ItNode} (hphase : σ.phase s = .loaded it)
    (hcur : ∀ n ∈ it, ∃ r, rowOf σ.stores.table n.id = some r ∧ r.base = n.base ∧
      r.bound = n.bound) (old : List Byte) :
    (∃ rs, Selected σ.stores.table fileId s rs ∧
      (pulled σ.stores.backing 0 it).map Segment.text =
        rs.map fun r => σ.stores.backing.slice r.base r.bound) ∧
    (∃ tail, addOracles o it σ.stores.backing old =
      swapBytes o (pulled σ.stores.backing 0 it) tail) ∧
    (pulled σ.stores.backing 0 it).map Segment.text =
      (ownRows (sessionRows fileId ss table) s).map fun r => F.slice r.base r.bound := by
  have h := hok.rowsOk
  obtain ⟨f, hf, htable, hrow⟩ := hinv.current h
  have hleaves := hinv.leaves s hs
  have hready := hinv.ready s hs
  rw [hphase] at hleaves hready
  have hperm := ownRows_perm fileId table hf hs
  rw [← htable] at hperm
  have hown := Inv.own_pairwise h (s := s) fun r hr => (hrow r hr).2
  have hit : it = ((ownRows (sessionRows fileId ss table) s).map f).map OffsetRow.node := by
    refine eq_map_node (fun r => (hf r).1) hready fun n hn r hr hid => ?_
    obtain ⟨r', hr', h1, h2⟩ := hcur n hn
    rw [hid, (hrow r (mem_ownRows.1 hr).1).1] at hr'
    cases hr'
    exact ⟨h1, h2⟩
  have hbound : ∀ n ∈ it, n.base ≤ n.bound ∧ n.bound ≤ σ.stores.backing.length := by
    intro n hn
    rw [hit, List.map_map] at hn
    obtain ⟨r, hr, rfl⟩ := List.mem_map.1 hn
    have hrm := (mem_ownRows.1 hr).1
    obtain ⟨_, h1, h2⟩ := hrow r hrm
    simp only [Function.comp_apply, OffsetRow.node_base, OffsetRow.node_bound, h1, h2, hinv.file]
    exact ⟨start_le_stop, stop_le_length_flat (List.idxOf_lt_length_of_mem hrm)⟩
  refine ⟨⟨_, ⟨hperm, hown.imp fun h => h.2⟩, ?_⟩, ?_, ?_⟩
  · rw [pulled_texts, hit, List.map_map]
    rfl
  · have hasc : Ascends σ.stores.backing.length 0 it := by
      refine ascends_of_pairwise ?_ (fun n hn => (hbound n hn).1) (fun n hn => (hbound n hn).2)
        (fun _ _ => Nat.zero_le _) (Nat.zero_le _)
      rw [hit, List.pairwise_map]
      exact hown.imp fun h => h.1
    obtain ⟨junk, hjunk⟩ := addOracles_eq o old hasc
    exact ⟨_, hjunk⟩
  · rw [pulled_texts, hit, List.map_map, List.map_map]
    refine List.map_congr_left fun r hr => ?_
    have hrm := (mem_ownRows.1 hr).1
    obtain ⟨_, h1, h2⟩ := hrow r hrm
    simp only [Function.comp_apply, OffsetRow.node_base, OffsetRow.node_bound, h1, h2, hinv.file]
    rw [flat_slice_patch (List.idxOf_lt_length_of_mem hrm)]
    exact hleaves r hr

/-- **A push whose search finds what the pull wrote** puts the session's texts in place of its
patches, and touches nothing else. -/
theorem push_own (ho : o.closing ≠ []) {it : List ItNode} {shown segs : List Segment}
    {swp : List Byte} (hphase : σ.phase s = .working it shown segs swp)
    (hfirst : Firsts o swp 0 segs) :
    ∃ τ' table', queryResizeFile (fun _ => true) nul fileId (located o 0 segs it) swp σ.stores =
        some (0, ⟨flat (gaps F (sessionRows fileId ss table)) τ'
          (sessionRows fileId ss table).length, table'⟩) ∧
      TracksAll (gaps F (sessionRows fileId ss table)) τ' fileId
        (RowMarks fileId F table (sessionRows fileId ss table)) table' ∧
      Keyed table table' ∧
      (ownRows (sessionRows fileId ss table) s).map
        (fun r => τ' ((sessionRows fileId ss table).idxOf r)) = segs.map Segment.text ∧
      ∀ r ∈ sessionRows fileId ss table, r.rangeId ≠ s →
        τ' ((sessionRows fileId ss table).idxOf r) = τ ((sessionRows fileId ss table).idxOf r) := by
  have h := hok.rowsOk
  have hleaves := hinv.leaves s hs
  have hready := hinv.ready s hs
  rw [hphase] at hleaves hready
  obtain ⟨hids, _, hlen, tail, hswp⟩ := hready
  have htrue : ∀ c : Call, (fun _ => true : Call → Bool) c = true := fun _ => rfl
  have hsearch := searchLoop_firsts htrue (i := 0) hfirst hlen
  have hwf := searchLoop_wellFormed (fun _ => true) swp ho it 0 0
  have hids' := searchLoop_ids (o := o) (fun _ => true) swp it 0 0
  rw [hsearch] at hwf hids'
  simp only [] at hwf hids'
  have htexts := located_texts ((List.drop_zero).trans hswp) hlen
  generalize located o 0 segs it = it' at hwf hids' htexts ⊢
  obtain ⟨hrow, hnode, hid⟩ := editsOf_maps (hids'.trans hids)
  generalize hedits : editsOf (ownRows (sessionRows fileId ss table) s) it' = edits
    at hrow hnode hid
  generalize sessionRows fileId ss table = rows at h hinv hleaves hrow
  have hown : ∀ e ∈ edits, e.row ∈ ownRows rows s := fun e he => by
    rw [← hrow]
    exact List.mem_map_of_mem he
  have hsub : ∀ e ∈ edits, e.row ∈ rows := fun e he => (mem_ownRows.1 (hown e he)).1
  have hasc : edits.Pairwise fun d e => d.row.Precedes e.row := by
    rw [← List.pairwise_map (R := OffsetRow.Precedes), hrow]
    exact h.ascending.filter _
  have htext : ∀ e ∈ edits, e.node.base ≤ e.node.bound ∧ e.node.bound ≤ swp.length := by
    intro e he
    refine hwf trivial e.node ?_
    rw [← hnode]
    exact List.mem_map_of_mem he
  have hτ : ∀ e ∈ edits, τ (rows.idxOf e.row) = patches F rows (rows.idxOf e.row) := by
    intro e he
    rw [patches_idxOf (hsub e he)]
    exact hleaves e.row (hown e he)
  obtain ⟨hrun, htracks, hkeyed⟩ := push_edits (P := fun _ t => Keyed table t) h hsub hasc nul
    (fun i _ _ t c hk => by
      obtain ⟨f, hf, rfl⟩ := hk
      refine ⟨_, fun r => ?_, List.map_map⟩
      simp [hf r]) htrue hid htext hτ hinv.tracks hinv.keyed
  rw [hnode, ← hinv.file] at hrun
  rw [hnode] at htracks hkeyed
  refine ⟨_, _, hrun, htracks, hkeyed, ?_, fun r hr hne => ?_⟩
  · rw [← htexts, ← hrow, ← hnode, List.map_map, List.map_map]
    refine List.map_congr_left fun e he => ?_
    have hplace : rows.idxOf e.row ∈ places rows edits := List.mem_map_of_mem he
    simp only [Function.comp_apply]
    rw [override_of_mem hplace, textAt_place hsub hasc he]
    rfl
  · refine override_of_notMem fun hmem => hne ?_
    obtain ⟨e, he, heq⟩ := List.mem_map.1 hmem
    have h1 := List.getElem_idxOf (List.idxOf_lt_length_of_mem (hsub e he))
    have h2 := List.getElem_idxOf (List.idxOf_lt_length_of_mem hr)
    simp only [heq] at h1
    rw [← h2, h1]
    exact (mem_ownRows.1 (hown e he)).2

end Steps

/-! ## Runs -/

theorem forall_enter {p : Phase} {P : ℕ → Phase → Prop} (hs : P s p)
    (hother : ∀ t ∈ ss, t ≠ s → P t (σ.phase t)) : ∀ t ∈ ss, P t ((σ.enter s p).phase t) := by
  intro t ht
  by_cases hts : t = s
  · subst hts
    rw [System.enter_self]
    exact hs
  · rw [System.enter_of_ne σ hts]
    exact hother t ht hts

theorem Inv.enter {p : Phase} (hinv : Inv o fileId ss F table rows σ τ)
    (hleaves : p.Leaves F (ownRows rows s) fun r => τ (rows.idxOf r))
    (hready : p.Ready o F (ownRows rows s)) :
    Inv o fileId ss F table rows (σ.enter s p) τ := by
  refine ⟨hinv.file, hinv.tracks, hinv.keyed, ?_, ?_⟩
  · exact forall_enter (P := fun t p => p.Leaves F (ownRows rows t) fun r => τ (rows.idxOf r))
      hleaves fun t ht _ => hinv.leaves t ht
  · exact forall_enter (P := fun t p => p.Ready o F (ownRows rows t)) hready
      fun t ht _ => hinv.ready t ht

theorem Phase.leaves_congr {p : Phase} {text text' : OffsetRow → List Byte}
    (h : ∀ r ∈ rows, text' r = text r) : p.Leaves F rows text → p.Leaves F rows text' := by
  intro hp
  cases p with
  | done segs =>
      exact (List.map_congr_left h).trans hp
  | idle => exact fun r hr => (h r hr).trans (hp r hr)
  | loaded it => exact fun r hr => (h r hr).trans (hp r hr)
  | working it shown segs swp => exact fun r hr => (h r hr).trans (hp r hr)

theorem inv_start (h : SessionsOk fileId F.length ss table) :
    Inv o fileId ss F table (sessionRows fileId ss table) (System.start F table)
      (patches F (sessionRows fileId ss table)) := by
  refine ⟨h.rowsOk.flat_eq.symm, tracksAll_rows h.rowsOk, ⟨id, fun _ => ⟨rfl, rfl, rfl⟩, ?_⟩,
    ?_, ?_⟩
  · rw [List.map_id]
    rfl
  · intro s _ r hr
    exact patches_idxOf (mem_ownRows.1 hr).1
  · intro s _
    trivial

/-- **A fresh step keeps the invariant.** -/
theorem inv_step {a : Act} (hok : SessionsOk fileId F.length ss table) (ho : o.closing ≠ [])
    (hinv : Inv o fileId ss F table (sessionRows fileId ss table) σ τ) (hs : a.session ∈ ss)
    (hfresh : Fresh o a σ) (hstep : step o fileId a σ = some σ') :
    ∃ τ', Inv o fileId ss F table (sessionRows fileId ss table) σ' τ' := by
  rcases step_cases hstep with ⟨s, rs, rf, rfl, hphase, hsel, hload, rfl⟩ |
    ⟨s, old, it, rfl, hphase, rfl⟩ | ⟨s, segs', tail, it, shown, segs, rfl, hphase, hlead, rfl⟩ |
    ⟨s, it, shown, segs, swp, out, rfl, hphase, hout, rfl⟩
  · obtain ⟨hload', hids⟩ := load_own hok hs hinv hphase hsel hfresh
    rw [hload] at hload'
    cases hload'
    have hleaves := hinv.leaves s hs
    rw [hphase] at hleaves
    exact ⟨τ, hinv.enter hleaves hids⟩
  · have hleaves := hinv.leaves s hs
    have hready := hinv.ready s hs
    rw [hphase] at hleaves hready
    obtain ⟨_, htail, hshown⟩ := pull_own hok hs hinv hphase (hfresh it hphase) old
    exact ⟨τ, hinv.enter hleaves ⟨hready, hshown, length_pulled _ _ _, htail⟩⟩
  · have hleaves := hinv.leaves s hs
    have hready := hinv.ready s hs
    rw [hphase] at hleaves hready
    obtain ⟨hids, hshown, hlen, _⟩ := hready
    have hlen' : segs'.length = segs.length := by simpa using congrArg List.length hlead
    exact ⟨τ, hinv.enter hleaves ⟨hids, hshown, hlen'.trans hlen, tail, rfl⟩⟩
  · have hleaves := hinv.leaves s hs
    have hready := hinv.ready s hs
    rw [hphase] at hleaves hready
    rcases hfresh it shown segs swp hphase with hfirst | hgive
    · obtain ⟨τ', table', hrun, htracks, hkeyed, hown, hother⟩ :=
        push_own hok hs hinv ho hphase hfirst
      have hsearch := searchLoop_firsts (fun _ => rfl : ∀ c : Call, (fun _ => true) c = true)
        (i := 0) hfirst hready.2.2.1
      simp only [pushSwapFile, hsearch, if_true, hrun, Option.map_some, Option.some.injEq] at hout
      subst hout
      simp only [if_true]
      generalize sessionRows fileId ss table = rows at hinv htracks hown hother
      refine ⟨τ', rfl, htracks, hkeyed, ?_, ?_⟩
      · refine forall_enter (P := fun t p => p.Leaves F (ownRows rows t)
          fun r => τ' (rows.idxOf r)) hown fun t ht hts => ?_
        refine Phase.leaves_congr (fun r hr => ?_) (hinv.leaves t ht)
        obtain ⟨hr1, hr2⟩ := mem_ownRows.1 hr
        exact hother r hr1 (hr2 ▸ hts)
      · exact forall_enter (P := fun t p => p.Ready o F (ownRows rows t)) trivial
          fun t ht _ => hinv.ready t ht
    · -- an oracle is not found: the editor is run again
      simp only [pushSwapFile, hgive, if_true, Bool.false_eq_true, if_false,
        Option.some.injEq] at hout
      subst hout
      refine ⟨τ, Inv.enter hinv hleaves ⟨?_, hready.2.1, ?_, hready.2.2.2⟩⟩
      · rw [searchLoop_ids]
        exact hready.1
      · have hids := searchLoop_ids (o := o) (fun _ => true) swp it 0 0
        have hlen : (searchLoop (fun _ => true) o swp 0 0 it).2.length = it.length := by
          simpa using congrArg List.length hids
        exact hready.2.2.1.trans hlen.symm

theorem inv_run (hok : SessionsOk fileId F.length ss table) (ho : o.closing ≠ [])
    (hrun : Reach (step o fileId) (fun a σ => a.session ∈ ss ∧ Fresh o a σ)
      (System.start F table) σ) :
    ∃ τ, Inv o fileId ss F table (sessionRows fileId ss table) σ τ := by
  refine hrun.invariant (I := fun σ =>
    ∃ τ, Inv o fileId ss F table (sessionRows fileId ss table) σ τ)
    ⟨_, inv_start hok⟩ ?_
  intro a σ σ' hinv hguard hstep
  obtain ⟨τ, hinv⟩ := hinv
  exact inv_step hok ho hinv hguard.1 hguard.2 hstep

theorem Inv.replaced (hok : SessionsOk fileId F.length ss table)
    (hinv : Inv o fileId ss F table (sessionRows fileId ss table) σ τ) :
    Replaced fileId ss F table σ := by
  have h := hok.rowsOk
  refine ⟨_, ?_, hinv.leaves⟩
  have hfile := hinv.file
  generalize sessionRows fileId ss table = rows at h hfile ⊢
  have hlt : ∀ i ∈ List.range rows.length, i < rows.length := fun i hi => List.mem_range.1 hi
  have hflat := replaceSpans_flat_zero (g := gaps F rows) (τ := patches F rows) (d := τ)
    List.pairwise_lt_range hlt
  have hall : flat (gaps F rows) (override τ (List.range rows.length) (patches F rows))
      rows.length = flat (gaps F rows) τ rows.length :=
    flat_congr fun k hk => override_of_mem (List.mem_range.2 hk)
  have hspans : spans (gaps F rows) (patches F rows) τ (List.range rows.length) =
      rows.map fun r => ⟨r.base, r.bound, τ (rows.idxOf r)⟩ := by
    refine List.ext_getElem (by simp [spans]) fun i h1 h2 => ?_
    have hi : i < rows.length := by simpa using h2
    simp only [spans, List.getElem_map, List.getElem_range, h.start_eq hi, h.stop_eq hi,
      h.nodup.idxOf_getElem i hi]
  rw [h.flat_eq, hall, hspans] at hflat
  rw [hfile, hflat]

/-- **In every run of fresh steps** the file is the initial one with the finished sessions' texts in
place; a pull shows the current text of the session's rows; a session that has edited nothing
changes nothing. -/
theorem sessions_fresh (hok : SessionsOk fileId F.length ss table) (ho : o.closing ≠ [])
    (hrun : Reach (step o fileId) (fun a σ => a.session ∈ ss ∧ Fresh o a σ)
      (System.start F table) σ) :
    Replaced fileId ss F table σ ∧
    (∀ s ∈ ss, ∀ old σ', Fresh o (.pull s old) σ → step o fileId (.pull s old) σ = some σ' →
      ShowsCurrent o fileId s σ σ') ∧
    ∀ s ∈ ss, ∀ σ', Fresh o (.push s) σ → step o fileId (.push s) σ = some σ' →
      QuietPush s σ σ' := by
  obtain ⟨τ, hinv⟩ := inv_run hok ho hrun
  refine ⟨hinv.replaced hok, ?_, ?_⟩
  · intro s hs old σ' hfresh hstep
    rcases step_cases hstep with ⟨_, _, _, ha, _⟩ | ⟨_, _, it, ha, hphase, rfl⟩ |
      ⟨_, _, _, _, _, _, ha, _⟩ | ⟨_, _, _, _, _, _, ha, _⟩
    · cases ha
    · cases ha
      obtain ⟨⟨rs, hsel, htext⟩, ⟨tail, htail⟩, _⟩ :=
        pull_own hok hs hinv hphase (hfresh it hphase) old
      exact ⟨rs, it, _, _, tail, hsel, System.enter_self _ _ _, htail, htext⟩
    · cases ha
    · cases ha
  · intro s hs σ' hfresh hstep it shown swp hphase
    have hleaves := hinv.leaves s hs
    have hready := hinv.ready s hs
    rw [hphase] at hleaves hready
    simp only [step, hphase] at hstep
    obtain ⟨out, hout, rfl⟩ := Option.map_eq_some_iff.1 hstep
    rw [System.enter_stores]
    rcases hfresh it shown shown swp hphase with hfirst | hgive
    · obtain ⟨τ', table', hpush, _, _, hown, hother⟩ := push_own hok hs hinv ho hphase hfirst
      have hsearch := searchLoop_firsts (fun _ => rfl : ∀ c : Call, (fun _ => true) c = true)
        (i := 0) hfirst hready.2.2.1
      simp only [pushSwapFile, hsearch, if_true, hpush, Option.map_some, Option.some.injEq] at hout
      subst hout
      have h := hok.rowsOk
      rw [hinv.file]
      generalize sessionRows fileId ss table = rows at h hleaves hready hown hother
      rw [hready.2.1, List.map_inj_left] at hown
      refine flat_congr fun k hk => ?_
      rw [← h.nodup.idxOf_getElem k hk]
      by_cases hks : rows[k].rangeId = s
      · -- the session's own text: what it was shown is what was there
        have hmem := mem_ownRows.2 ⟨List.getElem_mem hk, hks⟩
        exact (hown _ hmem).trans (hleaves _ hmem).symm
      · exact hother _ (List.getElem_mem hk) hks
    · simp only [pushSwapFile, hgive, if_true, Bool.false_eq_true, if_false,
        Option.some.injEq] at hout
      rw [← hout]

/-- One of two sessions runs to its end. -/
theorem sessions_fresh_one :
    let F : List Byte := [97, 98, 99]
    let table : List OffsetRow := [⟨1, 1, 7, 0, 1, false⟩, ⟨2, 1, 8, 2, 3, false⟩]
    ∃ σ, σ.stores.backing = ([120, 121, 98, 99] : List Byte) ∧ Replaced 1 [7, 8] F table σ := by
  intro F table
  let o : Oracles := ⟨[60], [62]⟩
  have hok : SessionsOk 1 F.length [7, 8] table := ⟨by decide, by decide, by decide, by decide⟩
  let σ₁ := (System.start F table).enter 7 (.loaded [⟨1, 0, 1⟩])
  let σ₂ := σ₁.enter 7 (.working [⟨1, 0, 1⟩] [⟨[], [97]⟩] [⟨[], [97]⟩] [60, 97, 62, 98, 99])
  let σ₃ := σ₂.enter 7 (.working [⟨1, 0, 1⟩] [⟨[], [97]⟩] [⟨[], [120, 121]⟩]
    [60, 120, 121, 62, 98, 99])
  let out : PushResult := ⟨0, true, ⟨[120, 121, 98, 99],
    [⟨1, 1, 7, 0, 2, false⟩, ⟨2, 1, 8, 3, 4, false⟩]⟩, [⟨1, 1, 3⟩]⟩
  let σ₄ := System.enter ⟨out.stores, σ₃.phase⟩ 7 (.done [⟨[], [120, 121]⟩])
  have hload : step o 1 (.load 7 [⟨1, 1, 7, 0, 1, false⟩]) (System.start F table) = some σ₁ := rfl
  have hpull : step o 1 (.pull 7 []) σ₁ = some σ₂ := by
    have hswp : addOracles o [⟨1, 0, 1⟩] F [] = [60, 97, 62, 98, 99] := by decide +kernel
    show some (σ₁.enter 7 (.working [⟨1, 0, 1⟩] [⟨[], [97]⟩] [⟨[], [97]⟩]
      (addOracles o [⟨1, 0, 1⟩] F []))) = some σ₂
    rw [hswp]
  have hedit : step o 1 (.edit 7 [⟨[], [120, 121]⟩] [98, 99]) σ₂ = some σ₃ := rfl
  have hpush : step o 1 (.push 7) σ₃ = some σ₄ := by
    have hout : pushSwapFile (fun _ => true) true 1 o [⟨1, 0, 1⟩] [60, 120, 121, 62, 98, 99]
        ⟨F, table⟩ = some out := by
      decide +kernel
    exact step_push (System.enter_self _ _ _) hout
  have hcurrent : Fresh o (.pull 7 []) σ₁ := by
    intro it hit n hn
    cases hit
    rw [List.mem_singleton.1 hn]
    exact ⟨⟨1, 1, 7, 0, 1, false⟩, rfl, rfl, rfl⟩
  have hfirst : Fresh o (.push 7) σ₃ := by
    intro it shown segs swp hw
    cases hw
    exact Or.inl ⟨by decide, by decide, trivial⟩
  have hrun : Reach (step o 1) (fun a σ => a.session ∈ [7, 8] ∧ Fresh o a σ)
      (System.start F table) σ₄ :=
    (((Reach.refl.tail ⟨_, ⟨by decide, List.pairwise_singleton _ _⟩, hload⟩).tail
      ⟨_, ⟨by decide, hcurrent⟩, hpull⟩).tail ⟨_, ⟨by decide, trivial⟩, hedit⟩).tail
      ⟨_, ⟨by decide, hfirst⟩, hpush⟩
  exact ⟨σ₄, by decide +kernel, (sessions_fresh hok (by decide) hrun).1⟩

/-- Session 8 loads its row, `c`; session 7 pushes three bytes for one; session 8 pulls from the old
position, is shown `z`, edits nothing and overwrites `c` with it. -/
theorem stale_pull_overwrites :
    let o : Oracles := ⟨[60], [62]⟩
    let F : List Byte := [97, 98, 99, 100]
    let table : List OffsetRow := [⟨1, 1, 7, 0, 1, false⟩, ⟨2, 1, 8, 2, 3, false⟩]
    SessionsOk 1 F.length [7, 8] table ∧
    ∃ σ₁ σ₂ σ₃, Reach (step o 1) (fun a _ => a.session ∈ [7, 8]) (System.start F table) σ₁ ∧
      step o 1 (.pull 8 []) σ₁ = some σ₂ ∧ step o 1 (.push 8) σ₂ = some σ₃ ∧
      σ₁.stores.backing = [120, 121, 122, 98, 99, 100] ∧
      σ₃.stores.backing = [120, 121, 122, 98, 122, 100] ∧
      ¬ ShowsCurrent o 1 8 σ₁ σ₂ ∧ ¬ QuietPush 8 σ₂ σ₃ := by
  intro o F table
  refine ⟨⟨by decide, by decide, by decide, by decide⟩, ?_⟩
  let it₇ : List ItNode := [⟨1, 0, 1⟩]
  let it₈ : List ItNode := [⟨2, 2, 3⟩]
  let a : List Segment := [⟨[], [97]⟩]
  let xyz : List Segment := [⟨[], [120, 121, 122]⟩]
  let z : List Segment := [⟨[120, 121], [122]⟩]
  let swp₇ : List Byte := [60, 120, 121, 122, 62, 98, 99, 100]
  let swp₈ : List Byte := [120, 121, 60, 122, 62, 98, 99, 100]
  let stores : Stores Byte := ⟨[120, 121, 122, 98, 99, 100],
    [⟨1, 1, 7, 0, 3, false⟩, ⟨2, 1, 8, 4, 5, false⟩]⟩
  let loaded := ((System.start F table).enter 8 (.loaded it₈)).enter 7 (.loaded it₇)
  let pulled₇ := loaded.enter 7 (.working it₇ a a [60, 97, 62, 98, 99, 100])
  let edited := pulled₇.enter 7 (.working it₇ a xyz swp₇)
  let pushed := System.enter ⟨stores, edited.phase⟩ 7 (.done xyz)
  let pulled₈ := pushed.enter 8 (.working it₈ z z swp₈)
  let out₇ : PushResult := ⟨0, true, stores, [⟨1, 1, 4⟩]⟩
  let out₈ : PushResult := ⟨0, true, ⟨[120, 121, 122, 98, 122, 100], stores.table⟩, [⟨2, 3, 4⟩]⟩
  have hswp₇ : addOracles o it₇ F [] = [60, 97, 62, 98, 99, 100] := by decide +kernel
  have hswp₈ : addOracles o it₈ stores.backing [] = swp₈ := by decide +kernel
  have hpush₇ : pushSwapFile (fun _ => true) true 1 o it₇ swp₇ ⟨F, table⟩ = some out₇ := by
    decide +kernel
  have hpush₈ : pushSwapFile (fun _ => true) true 1 o it₈ swp₈ stores = some out₈ := by
    decide +kernel
  have hload₈ : step o 1 (.load 8 [⟨2, 1, 8, 2, 3, false⟩]) (System.start F table) =
    some ((System.start F table).enter 8 (.loaded it₈)) := rfl
  have hload₇ : step o 1 (.load 7 [⟨1, 1, 7, 0, 1, false⟩])
    ((System.start F table).enter 8 (.loaded it₈)) = some loaded := rfl
  have hpull : step o 1 (.pull 7 []) loaded = some pulled₇ := by
    show some (loaded.enter 7 (.working it₇ a a (addOracles o it₇ F []))) = _
    rw [hswp₇]
  have hedit : step o 1 (.edit 7 xyz [98, 99, 100]) pulled₇ = some edited := rfl
  have hphase : edited.phase 7 = .working it₇ a xyz swp₇ := System.enter_self _ _ _
  have hpush : step o 1 (.push 7) edited = some pushed := step_push hphase hpush₇
  refine ⟨pushed, pulled₈, System.enter ⟨out₈.stores, pulled₈.phase⟩ 8 (.done z),
    ((((Reach.refl.tail ⟨_, by decide, hload₈⟩).tail ⟨_, by decide, hload₇⟩).tail
      ⟨_, by decide, hpull⟩).tail ⟨_, by decide, hedit⟩).tail ⟨_, by decide, hpush⟩,
    ?_, ?_, rfl, rfl, ?_, ?_⟩
  · show some (pushed.enter 8 (.working it₈ z z (addOracles o it₈ stores.backing []))) = _
    rw [hswp₈]
  · exact step_push (System.enter_self _ _ _) hpush₈
  · rintro ⟨rows, it, shown, swp, tail, hsel, hphase, _, htext⟩
    rw [System.enter_self] at hphase
    cases hphase
    have hrows : rows = [⟨2, 1, 8, 4, 5, false⟩] := by
      have hperm := hsel.perm
      rw [show pushed.stores.table.filter (fun r => r.fileId = 1 ∧ r.rangeId = 8) =
        [⟨2, 1, 8, 4, 5, false⟩] by decide] at hperm
      exact List.perm_singleton.1 hperm
    subst hrows
    exact absurd htext (by decide)
  · intro hquiet
    have heq := hquiet it₈ z swp₈ (System.enter_self _ _ _)
    exact absurd heq (by decide)

end Sessions

end Yacet
