import Yacet.Interval
import Yacet.LockNames
import Yacet.Lib.Search

/-!
# The check of an interval lock (`zkclient.c`)

A client joins the names of the `interval` directory with the rows that overlap its own and looks
for the smallest sequence number.

* `sortedRelevantIntervals` — `_get_sorted_shifted_relevant_intervals`: the nodes sorted by offset
  id, a binary search with two scans for every row, and a sort by sequence number.
* `mem_sortedRelevantIntervals` — **it pairs every overlapping row with every node of its id**, as
  long as the differences of ids fit in an `int` (`Near`).
* `eligibility` — what the client makes of it.
* `acquired_iff` — it is let in iff one of its relevant nodes has its number and none a smaller one.
-/

namespace Yacet

open CText Search

namespace IntervalLock

/-! ## Nodes and comparisons -/

/-- A name of the directory as `sscanf` reads it. -/
structure LockNode where
  id : ℕ
  sequence : ℤ
  deriving DecidableEq, Repr

/-- `sscanf(name, "%lu-%d", …)` on a name that starts with a digit; `none` where the sequence number
stays unset. -/
def sscanfLock (name : Text) : Option LockNode :=
  match strtoul name with
  | (id, '-' :: rest) => some ⟨min id (2 ^ 64 - 1), strtolInt rest⟩
  | _ => none

/-- `<offset id>-<sequence>`. -/
def intervalNode (id s : ℕ) : Text := lockNode (zeroPadded 0 id) s

theorem slash_notMem_intervalNode (id s : ℕ) : '/' ∉ intervalNode id s :=
  slash_notMem_lockNode (notMem_zeroPadded (by decide)) s

theorem sscanfLock_intervalNode {id s : ℕ} (hid : id < 2 ^ 64) (hs : s < seqBound) :
    sscanfLock (intervalNode id s) = some ⟨id, s⟩ := by
  have hmin : min id (2 ^ 64 - 1) = id := by omega
  rw [sscanfLock, intervalNode, lockNode, strtoul_zeroPadded 0 id _ (by simp)]
  simp only [hmin, strtolInt_zeroPadded 10 hs]

/-- A node with its number and the id of its row, by name. -/
def childName (e : ℕ × ℕ) : Text := intervalNode e.2 e.1

theorem mapM_sscanfLock_childName {nodes : List (ℕ × ℕ)} (hsize : ∀ e ∈ nodes, e.2 < 2 ^ 64)
    (hbound : ∀ e ∈ nodes, e.1 < seqBound) :
    (nodes.map childName).mapM sscanfLock = some (nodes.map fun e => ⟨e.2, e.1⟩) := by
  induction nodes with
  | nil => rfl
  | cons e nodes ih =>
      rw [List.forall_mem_cons] at hsize hbound
      rw [List.map_cons, List.mapM_cons, childName, sscanfLock_intervalNode hsize.1 hbound.1,
        ih hsize.2 hbound.2]
      rfl

/-- `cmpOffsetIdFunc`: the difference of the ids, cut down to an `int`. -/
def cmpOffsetId (a b : ℕ) : ℤ := ((a : ℤ) - b).bmod (2 ^ 32)

/-- `cmpSequenceFunc`. -/
def cmpSequence (a b : ℤ) : ℤ := (a - b).bmod (2 ^ 32)

/-- A difference that fits in an `int`. -/
theorem bmod_of_near {x : ℤ} (h : -seqBound < x) (h' : x < seqBound) : x.bmod (2 ^ 32) = x := by
  unfold seqBound at h h'
  norm_num at h h'
  apply Int.bmod_eq_of_le
  · norm_num
    omega
  · norm_num
    omega

theorem cmpSequence_of_lt {a b : ℤ} (ha : 0 ≤ a ∧ a < seqBound) (hb : 0 ≤ b ∧ b < seqBound) :
    cmpSequence a b = a - b :=
  bmod_of_near (by omega) (by omega)

/-- Ids whose differences fit in an `int`. -/
def Near (ids : Set ℕ) : Prop := ∀ a ∈ ids, ∀ b ∈ ids, a < b + seqBound

theorem near_of_lt : Near {id | id < seqBound} := by
  intro a ha b _
  exact ha.trans_le (Nat.le_add_left _ _)

theorem Near.mono {ids small : Set ℕ} (h : Near ids) (hsub : small ⊆ ids) : Near small :=
  fun a ha b hb => h a (hsub ha) b (hsub hb)

/-- On near ids the comparison is the difference. -/
theorem Near.cmpOffsetId {ids : Set ℕ} (h : Near ids) {a b : ℕ} (ha : a ∈ ids) (hb : b ∈ ids) :
    cmpOffsetId a b = (a : ℤ) - b := by
  have hab := h a ha b hb
  have hba := h b hb a ha
  exact bmod_of_near (by omega) (by omega)

/-! ## The join -/

/-- A copy of a row's node with the sequence number of a lock node. -/
structure Relevant where
  interval : ItNode
  sequence : ℤ
  deriving DecidableEq, Repr

/-- `_sort_interval_locks_by_offset_id`. -/
def sortIntervalLocksByOffsetId (children : List Text) : Option (List LockNode) :=
  (children.mapM sscanfLock).map fun locks =>
    locks.insertionSort fun a b => cmpOffsetId a.id b.id ≤ 0

/-- The rows that `query_select_file_intervals` keeps for the row `newInterval`. -/
def conflictingRows (newInterval : ItNode) (rows : List ItNode) : List ItNode :=
  rows.filter (itConflict newInterval)

/-- The copies of one row. -/
def relevantOf (locks : List LockNode) (cur : ItNode) : List Relevant :=
  (lookupRun (fun n => cmpOffsetId cur.id n.id) LockNode.id cur.id locks).map fun n =>
    ⟨cur, n.sequence⟩

/-- `_get_sorted_shifted_relevant_intervals`, behind its queries. -/
def sortedRelevantIntervals (children : List Text) (newInterval : ItNode) (rows : List ItNode) :
    Option (List Relevant) :=
  if children = [] then some []
  else
    (sortIntervalLocksByOffsetId children).map fun locks =>
      ((conflictingRows newInterval rows).flatMap (relevantOf locks)).insertionSort fun a b =>
        cmpSequence a.sequence b.sequence ≤ 0

theorem mem_of_mapM {α β : Type*} {f : α → Option β} {xs : List α} {ys : List β} {y : β}
    (h : xs.mapM f = some ys) : y ∈ ys ↔ ∃ x ∈ xs, f x = some y := by
  induction xs generalizing ys with
  | nil =>
      cases h
      simp
  | cons x xs ih =>
      rw [List.mapM_cons] at h
      obtain ⟨z, hz, h⟩ := Option.bind_eq_some_iff.1 h
      obtain ⟨zs, hzs, h⟩ := Option.bind_eq_some_iff.1 h
      cases h
      rw [List.mem_cons, ih hzs]
      simp [hz, eq_comm]

section Join

variable {children : List Text} {newInterval : ItNode} {rows : List ItNode} {locks : List LockNode}
  {relevant : List Relevant}

theorem relevantOf_eq {ids : Set ℕ} (hnear : Near ids) (hlocks : ∀ n ∈ locks, n.id ∈ ids)
    {cur : ItNode} (hcur : cur.id ∈ ids) :
    relevantOf (locks.insertionSort fun a b => cmpOffsetId a.id b.id ≤ 0) cur =
      ((locks.insertionSort fun a b => cmpOffsetId a.id b.id ≤ 0).filter
        fun n => n.id = cur.id).map fun n => ⟨cur, n.sequence⟩ := by
  have hsorted : (locks.insertionSort fun a b => cmpOffsetId a.id b.id ≤ 0).Pairwise
      fun a b => a.id ≤ b.id := by
    apply pairwise_insertionSort
    intro a ha b hb
    rw [hnear.cmpOffsetId (hlocks a ha) (hlocks b hb)]
    omega
  rw [relevantOf, lookupRun_eq_filter ?_ hsorted]
  constructor
  · intro n hn
    rw [hnear.cmpOffsetId hcur (hlocks n ((List.mem_insertionSort _).1 hn))]
    omega
  · intro n hn
    rw [hnear.cmpOffsetId hcur (hlocks n ((List.mem_insertionSort _).1 hn))]
    omega

/-- **The join pairs every overlapping row with every node of its id.** -/
theorem mem_sortedRelevantIntervals
    (h : sortedRelevantIntervals children newInterval rows = some relevant)
    {ids : Set ℕ} (hnear : Near ids) (hids : ∀ name ∈ children, ∀ n ∈ sscanfLock name, n.id ∈ ids)
    (hrows : ∀ r ∈ rows, r.id ∈ ids) {x : Relevant} :
    x ∈ relevant ↔ x.interval ∈ rows ∧ itConflict newInterval x.interval = true ∧
      ∃ name ∈ children, sscanfLock name = some ⟨x.interval.id, x.sequence⟩ := by
  unfold sortedRelevantIntervals at h
  split at h
  · rename_i hnil
    subst hnil
    cases h
    simp
  · obtain ⟨sorted, hsort, rfl⟩ := Option.map_eq_some_iff.1 h
    obtain ⟨locks, hmapM, rfl⟩ := Option.map_eq_some_iff.1 hsort
    have hlocks : ∀ n ∈ locks, n.id ∈ ids := by
      intro n hn
      obtain ⟨name, hname, hscan⟩ := (mem_of_mapM hmapM).1 hn
      exact hids name hname n hscan
    rw [List.mem_insertionSort, List.mem_flatMap]
    constructor
    · rintro ⟨cur, hcur, hx⟩
      obtain ⟨hmem, hconf⟩ := List.mem_filter.1 hcur
      rw [relevantOf_eq hnear hlocks (hrows cur hmem)] at hx
      obtain ⟨n, hn, rfl⟩ := List.mem_map.1 hx
      obtain ⟨hn, hid⟩ := List.mem_filter.1 hn
      have hid : n.id = cur.id := of_decide_eq_true hid
      refine ⟨hmem, hconf, ?_⟩
      rw [← hid]
      exact (mem_of_mapM hmapM).1 ((List.mem_insertionSort _).1 hn)
    · rintro ⟨hmem, hconf, hname⟩
      refine ⟨x.interval, List.mem_filter.2 ⟨hmem, hconf⟩, ?_⟩
      rw [relevantOf_eq hnear hlocks (hrows _ hmem)]
      refine List.mem_map.2 ⟨⟨x.interval.id, x.sequence⟩, List.mem_filter.2 ⟨?_, by simp⟩, rfl⟩
      exact (List.mem_insertionSort _).2 ((mem_of_mapM hmapM).2 hname)

/-- The result ascends. -/
theorem pairwise_sortedRelevantIntervals
    (h : sortedRelevantIntervals children newInterval rows = some relevant)
    (hseq : ∀ x ∈ relevant, 0 ≤ x.sequence ∧ x.sequence < seqBound) :
    relevant.Pairwise fun a b => a.sequence ≤ b.sequence := by
  unfold sortedRelevantIntervals at h
  split at h
  · cases h
    exact List.Pairwise.nil
  · obtain ⟨sorted, -, rfl⟩ := Option.map_eq_some_iff.1 h
    apply pairwise_insertionSort
    intro a ha b hb
    rw [cmpSequence_of_lt (hseq a ((List.mem_insertionSort _).2 ha))
      (hseq b ((List.mem_insertionSort _).2 hb))]
    omega

/-- **Names of nodes with near ids and numbers in range are paired with their rows, in order.** -/
theorem relevant_of_names
    (h : sortedRelevantIntervals children newInterval rows = some relevant) {ids : Set ℕ}
    (hnear : Near ids) (hnames : ∀ name ∈ children, ∃ n, sscanfLock name = some n ∧ n.id ∈ ids ∧
      0 ≤ n.sequence ∧ n.sequence < seqBound) (hrows : ∀ r ∈ rows, r.id ∈ ids) :
    (∀ x, x ∈ relevant ↔ x.interval ∈ rows ∧ itConflict newInterval x.interval = true ∧
      ∃ name ∈ children, sscanfLock name = some ⟨x.interval.id, x.sequence⟩) ∧
      (∀ x ∈ relevant, 0 ≤ x.sequence ∧ x.sequence < seqBound) ∧
      relevant.Pairwise fun a b => a.sequence ≤ b.sequence := by
  have hids : ∀ name ∈ children, ∀ n ∈ sscanfLock name, n.id ∈ ids := by
    intro name hname n hn
    obtain ⟨m, hm, hid, -⟩ := hnames name hname
    rw [hm] at hn
    cases hn
    exact hid
  have hmem := fun x => mem_sortedRelevantIntervals (x := x) h hnear hids hrows
  have hrange : ∀ x ∈ relevant, 0 ≤ x.sequence ∧ x.sequence < seqBound := by
    intro x hx
    obtain ⟨-, -, name, hname, hscan⟩ := (hmem x).1 hx
    obtain ⟨m, hm, -, hseq⟩ := hnames name hname
    rw [hm] at hscan
    cases hscan
    exact hseq
  exact ⟨hmem, hrange, pairwise_sortedRelevantIntervals h hrange⟩

end Join

/-! ## The decision -/

/-- What `_zk_determine_interval_lock_eligibility` makes of the relevant nodes.  `fault` steps back
from a failed binary search. -/
inductive Decision
  | empty
  | acquired
  | behind (x : Relevant)
  | fault
  deriving DecidableEq, Repr

def eligibility (lockName : Text) (relevant : List Relevant) : Decision :=
  let curSequence := toInt (getSequenceNumber lockName)
  match relevant with
  | [] => .empty
  | first :: _ =>
    if first.sequence = curSequence then .acquired
    else
      match search (fun x => cmpSequence curSequence x.sequence) relevant with
      | none => .fault
      | some 0 => .fault
      | some (i + 1) => (relevant[i]?.map Decision.behind).getD .fault

/-- The same, with the answer of the search for the own number. -/
def decisionAt (curSequence : ℤ) (relevant : List Relevant) (found : Option ℕ) : Decision :=
  match relevant with
  | [] => .empty
  | first :: _ =>
    if first.sequence = curSequence then .acquired
    else
      match found with
      | none => .fault
      | some 0 => .fault
      | some (i + 1) => (relevant[i]?.map Decision.behind).getD .fault

section Decision

variable {relevant : List Relevant} {cur : ℤ} {found : Option ℕ}

theorem eligibility_eq (lockName : Text) (relevant : List Relevant) :
    eligibility lockName relevant = decisionAt (toInt (getSequenceNumber lockName)) relevant
      (search (fun x => cmpSequence (toInt (getSequenceNumber lockName)) x.sequence) relevant) := by
  cases relevant with
  | nil => rfl
  | cons first rest => rfl

/-- A client that is placed behind another has found its own number, with the other in front. -/
theorem exists_of_decisionAt {x : Relevant} (h : decisionAt cur relevant found = .behind x) :
    ∃ i, found = some (i + 1) ∧ relevant[i]? = some x := by
  cases relevant with
  | nil => cases h
  | cons first rest =>
      unfold decisionAt at h
      simp only at h
      split at h
      · cases h
      · split at h
        · cases h
        · cases h
        · rename_i i
          cases hget : (first :: rest)[i]? with
          | none =>
              rw [hget] at h
              cases h
          | some y =>
              rw [hget] at h
              cases h
              exact ⟨i, rfl, hget⟩

/-- The own number is found at a later place: the client is behind the node in front of it. -/
theorem decisionAt_found {x : Relevant} {i : ℕ}
    (hfirst : ∀ first ∈ relevant.head?, first.sequence ≠ cur)
    (hget : relevant[i]? = some x) : decisionAt cur relevant (some (i + 1)) = .behind x := by
  cases relevant with
  | nil => cases hget
  | cons first rest =>
      unfold decisionAt
      simp only
      rw [if_neg (hfirst first rfl), hget]
      rfl

/-- **A client is let in iff a relevant node has its number and none a smaller one**, whatever the
search answers. -/
theorem decisionAt_acquired (hsorted : relevant.Pairwise fun a b => a.sequence ≤ b.sequence) :
    decisionAt cur relevant found = .acquired ↔
      (∃ x ∈ relevant, x.sequence = cur) ∧ ∀ x ∈ relevant, cur ≤ x.sequence := by
  cases relevant with
  | nil => simp [decisionAt]
  | cons first rest =>
      obtain ⟨hfirst, -⟩ := List.pairwise_cons.1 hsorted
      unfold decisionAt
      simp only
      split
      · rename_i heq
        rw [← heq, List.forall_mem_cons]
        exact ⟨fun _ => ⟨⟨first, List.mem_cons_self, rfl⟩, le_rfl, hfirst⟩, fun _ => rfl⟩
      · rename_i hne
        constructor
        · intro hdec
          split at hdec
          · cases hdec
          · cases hdec
          · rename_i i
            cases hget : (first :: rest)[i]? with
            | none => rw [hget] at hdec; cases hdec
            | some x => rw [hget] at hdec; cases hdec
        · rintro ⟨⟨x, hx, heq⟩, hle⟩
          have h1 := hle first List.mem_cons_self
          rcases List.mem_cons.1 hx with rfl | hx
          · exact absurd heq hne
          · have h2 := hfirst x hx
            exact absurd (le_antisymm (heq ▸ h2) h1) hne

theorem acquired_iff {lockName : Text}
    (hsorted : relevant.Pairwise fun a b => a.sequence ≤ b.sequence) :
    eligibility lockName relevant = .acquired ↔
      (∃ x ∈ relevant, x.sequence = toInt (getSequenceNumber lockName)) ∧
        ∀ x ∈ relevant, toInt (getSequenceNumber lockName) ≤ x.sequence := by
  rw [eligibility_eq, decisionAt_acquired hsorted]

end Decision

end IntervalLock

end Yacet
