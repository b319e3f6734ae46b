import Yacet.IntervalCheck
import Yacet.Lib.Comparison

/-!
# The join of interval nodes and rows (`zkclient.c`)

`_get_sorted_shifted_relevant_intervals` with any sort and any search that the standard allows.

* `Returns` — what the function may return.
* `returns_sortedRelevantIntervals` — a stable sort and a search that halves are such functions.
* `Yields` — one entry for each node of a row, in the order of the numbers.
* `Named.ordered`, `Named.sound` — whatever it returns is in order and has entries of this kind
  only.
* `Named.complete`, `Named.exists_missed` — the ids decide whether it may miss the nodes of a row.
* `Distinguished` — the comparison of ids orders those of the nodes and tells the rows' from all
  others.
* `joins_iff` — **the join is right iff no row has a node or the ids are distinguished**: the
  comparison cuts the difference of two ids down to 32 bits.
-/

namespace Yacet

open Comparison Search

namespace IntervalLock

/-! ## The function -/

/-- The entries of row `cur` if its search has answered `found`. -/
def copies (sorted : List LockNode) (cur : ItNode) (found : Option ℕ) : List Relevant :=
  match found with
  | none => []
  | some i => (runAt LockNode.id cur.id sorted i).map fun n => ⟨cur, n.sequence⟩

/-- What `_get_sorted_shifted_relevant_intervals` may return for the names of the directory and the
rows of its query. -/
inductive Returns (children : List Text) (rows : List ItNode) : List Relevant → Prop
  | empty (h : children = []) : Returns children rows []
  | joined {locks sorted : List LockNode} {found : ItNode → Option ℕ} {result : List Relevant}
      (children_ne : children ≠ [])
      (scan : children.mapM sscanfLock = some locks)
      (sort : Qsort (fun a b => cmpOffsetId a.id b.id) locks sorted)
      (find : ∀ r ∈ rows, Bsearch (fun n => cmpOffsetId r.id n.id) sorted (found r))
      (order : Qsort (fun a b => cmpSequence a.sequence b.sequence)
        (rows.flatMap fun r => copies sorted r (found r)) result) : Returns children rows result

theorem relevantOf_eq_copies (locks : List LockNode) (cur : ItNode) : relevantOf locks cur =
    copies locks cur (search (fun n => cmpOffsetId cur.id n.id) locks) := by
  unfold relevantOf lookupRun copies
  cases search (fun n => cmpOffsetId cur.id n.id) locks with
  | none => rfl
  | some i => rfl

/-- **The function with a stable sort and a search that halves is one of them.** -/
theorem returns_sortedRelevantIntervals {children : List Text} {own : ItNode} {rows : List ItNode}
    {relevant : List Relevant} (h : sortedRelevantIntervals children own rows = some relevant) :
    Returns children (conflictingRows own rows) relevant := by
  unfold sortedRelevantIntervals at h
  split at h
  · rename_i hnil
    cases h
    exact .empty hnil
  · rename_i hne
    obtain ⟨sorted, hsort, rfl⟩ := Option.map_eq_some_iff.1 h
    obtain ⟨locks, hscan, rfl⟩ := Option.map_eq_some_iff.1 hsort
    have heq : relevantOf (locks.insertionSort fun a b => cmpOffsetId a.id b.id ≤ 0) = fun r =>
        copies (locks.insertionSort fun a b => cmpOffsetId a.id b.id ≤ 0) r
          (search (fun n => cmpOffsetId r.id n.id)
            (locks.insertionSort fun a b => cmpOffsetId a.id b.id ≤ 0)) :=
      funext fun r => relevantOf_eq_copies _ r
    rw [heq]
    exact .joined hne hscan (qsort_insertionSort _ _) (fun r _ => bsearch_search _ _)
      (qsort_insertionSort _ _)

/-! ## What it is to return -/

/-- Rows with distinct ids, and nodes with distinct numbers, each by number and id of its row. -/
structure Named (nodes : List (ℕ × ℕ)) (rows : List ItNode) : Prop where
  rowIds : (rows.map ItNode.id).Nodup
  numbers : (nodes.map Prod.fst).Nodup
  bound : ∀ e ∈ nodes, e.1 < seqBound
  size : ∀ e ∈ nodes, e.2 < 2 ^ 64

/-- One entry for each node of a row, in the order of the numbers. -/
structure Yields (nodes : List (ℕ × ℕ)) (rows : List ItNode) (result : List Relevant) : Prop where
  ordered : result.Pairwise fun a b => a.sequence < b.sequence
  mem : ∀ x, x ∈ result ↔ x.interval ∈ rows ∧ ∃ e ∈ nodes, e.2 = x.interval.id ∧
    (e.1 : ℤ) = x.sequence

/-- The function returns, and whatever it returns is that. -/
def Joins (nodes : List (ℕ × ℕ)) (rows : List ItNode) : Prop :=
  (∃ result, Returns (nodes.map childName) rows result) ∧
    ∀ result, Returns (nodes.map childName) rows result → Yields nodes rows result

/-- No row has a node; or the ids of the nodes lie on one half of the circle of 32-bit numbers, and
none has the last 32 bits of a row's id that has a node itself. -/
def Distinguished (nodes : List (ℕ × ℕ)) (rows : List ItNode) : Prop :=
  (∀ r ∈ rows, ∀ e ∈ nodes, e.2 ≠ r.id) ∨
    OnHalf (2 ^ 32) (fun e : ℕ × ℕ => (e.2 : ℤ)) nodes ∧
      ∀ r ∈ rows, (∃ e ∈ nodes, e.2 = r.id) →
        ∀ e ∈ nodes, e.2 % 2 ^ 32 = r.id % 2 ^ 32 → e.2 = r.id

/-! ## Whatever the answers are -/

variable {nodes : List (ℕ × ℕ)} {rows : List ItNode} {result : List Relevant}
  {sorted : List LockNode} {found : ItNode → Option ℕ}

/-- A node as it is read from its name. -/
def nodeOf (e : ℕ × ℕ) : LockNode := ⟨e.2, e.1⟩

theorem mem_copies {r : ItNode} {hit : Option ℕ} {x : Relevant} (h : x ∈ copies sorted r hit) :
    x.interval = r ∧ ∃ n ∈ sorted, n.id = r.id ∧ n.sequence = x.sequence := by
  cases hit with
  | none => cases h
  | some i =>
      obtain ⟨n, hn, rfl⟩ := List.mem_map.1 h
      exact ⟨rfl, n, runAt_sublist.subset hn, key_of_mem_runAt hn, rfl⟩

/-- The numbers of a row's entries are, in order, numbers of nodes. -/
theorem sequences_copies_sublist (r : ItNode) (hit : Option ℕ) :
    ((copies sorted r hit).map Relevant.sequence).Sublist (sorted.map LockNode.sequence) := by
  cases hit with
  | none => exact List.nil_sublist _
  | some i =>
      rw [copies, List.map_map]
      exact runAt_sublist.map LockNode.sequence

namespace Named

theorem mapM_sscanfLock (h : Named nodes rows) :
    (nodes.map childName).mapM sscanfLock = some (nodes.map nodeOf) :=
  mapM_sscanfLock_childName h.size h.bound

theorem mem_nodes (hperm : sorted.Perm (nodes.map nodeOf)) {n : LockNode} (hn : n ∈ sorted) :
    ∃ e ∈ nodes, nodeOf e = n :=
  List.mem_map.1 (hperm.mem_iff.1 hn)

theorem nodup_sequences (h : Named nodes rows) (hperm : sorted.Perm (nodes.map nodeOf)) :
    (sorted.map LockNode.sequence).Nodup := by
  rw [(hperm.map LockNode.sequence).nodup_iff, List.map_map]
  have hcast : LockNode.sequence ∘ nodeOf = Nat.cast ∘ Prod.fst := rfl
  rw [hcast, ← List.map_map]
  exact h.numbers.map Nat.cast_injective

/-- The entries have distinct numbers. -/
theorem nodup_joined (h : Named nodes rows) (hperm : sorted.Perm (nodes.map nodeOf)) :
    ((rows.flatMap fun r => copies sorted r (found r)).map Relevant.sequence).Nodup := by
  have hseq := h.nodup_sequences hperm
  rw [List.map_flatMap, List.nodup_flatMap]
  refine ⟨fun r _ => (sequences_copies_sublist r _).nodup hseq, ?_⟩
  refine (List.pairwise_map.1 h.rowIds).imp fun {r t} hne s hr ht => ?_
  obtain ⟨x, hx, rfl⟩ := List.mem_map.1 hr
  obtain ⟨y, hy, hxy⟩ := List.mem_map.1 ht
  obtain ⟨-, n, hn, hnid, hnseq⟩ := mem_copies hx
  obtain ⟨-, m, hm, hmid, hmseq⟩ := mem_copies hy
  have hnm : n = m := List.inj_on_of_nodup_map hseq hn hm (by rw [hnseq, hmseq, hxy])
  exact hne (by rw [← hnid, ← hmid, hnm])

/-- An entry is made of a row and a node with the row's id. -/
theorem mem_joined (hperm : sorted.Perm (nodes.map nodeOf)) {x : Relevant}
    (hx : x ∈ rows.flatMap fun r => copies sorted r (found r)) :
    x.interval ∈ rows ∧ ∃ e ∈ nodes, e.2 = x.interval.id ∧ (e.1 : ℤ) = x.sequence := by
  obtain ⟨r, hr, hx⟩ := List.mem_flatMap.1 hx
  obtain ⟨rfl, n, hn, hid, hseq⟩ := mem_copies hx
  obtain ⟨e, he, rfl⟩ := mem_nodes hperm hn
  exact ⟨hr, e, he, hid, hseq⟩

/-- What is returned, but for the order. -/
theorem perm_of_returns (h : Named nodes rows)
    (hreturns : Returns (nodes.map childName) rows result) :
    result = [] ∧ nodes = [] ∨ ∃ (sorted : List LockNode) (found : ItNode → Option ℕ),
      Qsort (fun a b => cmpOffsetId a.id b.id) (nodes.map nodeOf) sorted ∧
      (∀ r ∈ rows, Bsearch (fun n => cmpOffsetId r.id n.id) sorted (found r)) ∧
      Qsort (fun a b => cmpSequence a.sequence b.sequence)
        (rows.flatMap fun r => copies sorted r (found r)) result := by
  cases hreturns with
  | empty hnil => exact Or.inl ⟨rfl, by simpa using hnil⟩
  | joined _ hscan hsort hfind horder =>
      rw [h.mapM_sscanfLock] at hscan
      cases hscan
      exact Or.inr ⟨_, _, hsort, hfind, horder⟩

/-- **Whatever the answers are, each entry is made of a row and one of its nodes.** -/
theorem sound (h : Named nodes rows) (hreturns : Returns (nodes.map childName) rows result)
    {x : Relevant} (hx : x ∈ result) :
    x.interval ∈ rows ∧ ∃ e ∈ nodes, e.2 = x.interval.id ∧ (e.1 : ℤ) = x.sequence := by
  rcases h.perm_of_returns hreturns with ⟨rfl, -⟩ | ⟨sorted, found, hsort, -, horder⟩
  · cases hx
  · exact mem_joined hsort.perm (horder.perm.mem_iff.1 hx)

theorem sequence_lt (h : Named nodes rows) (hreturns : Returns (nodes.map childName) rows result)
    {x : Relevant} (hx : x ∈ result) : 0 ≤ x.sequence ∧ x.sequence < seqBound := by
  obtain ⟨-, e, he, -, hseq⟩ := h.sound hreturns hx
  have hlt := h.bound e he
  rw [← hseq]
  exact ⟨by omega, by exact_mod_cast hlt⟩

/-- **Whatever the answers are, the entries are in the order of their numbers.** -/
theorem ordered (h : Named nodes rows) (hreturns : Returns (nodes.map childName) rows result) :
    result.Pairwise fun a b => a.sequence < b.sequence := by
  have hrange := fun x (hx : x ∈ result) => h.sequence_lt hreturns hx
  rcases h.perm_of_returns hreturns with ⟨rfl, -⟩ | ⟨sorted, found, hsort, -, horder⟩
  · exact List.Pairwise.nil
  · have horders : Orders (fun a b : Relevant => cmpSequence a.sequence b.sequence)
        (rows.flatMap fun r => copies sorted r (found r)) :=
      Orders.of_key fun a ha b hb => cmpSequence_of_lt (hrange a (horder.perm.mem_iff.2 ha))
        (hrange b (horder.perm.mem_iff.2 hb))
    have hnodup : (result.map Relevant.sequence).Nodup :=
      (horder.perm.map Relevant.sequence).nodup_iff.2 (h.nodup_joined hsort.perm)
    refine ((horder.sorted horders).and (List.pairwise_map.1 hnodup)).imp_of_mem ?_
    rintro a b ha hb ⟨hle, hne⟩
    rw [cmpSequence_of_lt (hrange a ha) (hrange b hb)] at hle
    omega

end Named

/-! ## Distinguished ids -/

theorem cmpOffsetId_eq_zero_iff {a b : ℕ} : cmpOffsetId a b = 0 ↔ b % 2 ^ 32 = a % 2 ^ 32 := by
  unfold cmpOffsetId
  constructor
  · intro h
    have hmod : ((a : ℤ) - b) % (2 ^ 32 : ℕ) = 0 := by
      rw [← Int.bmod_emod, h]
      rfl
    norm_num at hmod ⊢
    omega
  · intro h
    have hmod : ((a : ℤ) - b) % (2 ^ 32 : ℕ) = 0 := by
      norm_num at h ⊢
      omega
    rw [← Int.emod_bmod, hmod]
    rfl

/-- The nodes' ids on one half of the circle are ordered as they are read. -/
theorem onHalf_nodeOf : OnHalf (2 ^ 32) (fun e : ℕ × ℕ => (e.2 : ℤ)) nodes ↔
    Orders (fun a b : LockNode => cmpOffsetId a.id b.id) (nodes.map nodeOf) := by
  have hnodes : OnHalf (2 ^ 32) (fun n : LockNode => (n.id : ℤ)) (nodes.map nodeOf) ↔
      OnHalf (2 ^ 32) (fun e : ℕ × ℕ => (e.2 : ℤ)) nodes := onHalf_map
  exact hnodes.symm.trans (orders_bmod_iff (by norm_num)).symm

/-- **With distinguished ids the two scans of a row take all of its nodes**, wherever the search has
landed. -/
theorem mem_copies_of_distinguished (hperm : sorted.Perm (nodes.map nodeOf)) {c : ℤ}
    (hc : ∀ e ∈ nodes, ((e.2 : ℤ) - c) % (2 ^ 32 : ℕ) * 2 < (2 ^ 32 : ℕ))
    (hsorted : sorted.Pairwise fun a b => cmpOffsetId a.id b.id ≤ 0) {r : ItNode} {hit : Option ℕ}
    (hfind : Bsearch (fun n => cmpOffsetId r.id n.id) sorted hit) {e : ℕ × ℕ} (he : e ∈ nodes)
    (hid : e.2 = r.id) (hother : ∀ e ∈ nodes, e.2 % 2 ^ 32 = r.id % 2 ^ 32 → e.2 = r.id) :
    ⟨r, e.1⟩ ∈ copies sorted r hit := by
  -- an id by its place on the half
  set place : ℕ → ℕ := fun id => (((id : ℤ) - c) % (2 ^ 32 : ℕ)).toNat with hplace
  have hnonneg : ∀ id : ℕ, 0 ≤ ((id : ℤ) - c) % (2 ^ 32 : ℕ) := fun id =>
    Int.emod_nonneg _ (by norm_num)
  have hcmp :
    ∀ a ∈ sorted, ∀ b ∈ sorted, cmpOffsetId a.id b.id = (place a.id : ℤ) - place b.id := by
    intro a ha b hb
    obtain ⟨ea, hea, rfl⟩ := Named.mem_nodes hperm ha
    obtain ⟨eb, heb, rfl⟩ := Named.mem_nodes hperm hb
    rw [hplace]
    simp only [Int.toNat_of_nonneg (hnonneg _)]
    exact bmod_sub_eq (hc ea hea) (hc eb heb)
  have hmem : nodeOf e ∈ sorted := hperm.mem_iff.2 (List.mem_map_of_mem he)
  have hrow : (nodeOf e).id = r.id := hid
  have hplaces : sorted.Pairwise fun a b => place a.id ≤ place b.id := by
    apply hsorted.imp_of_mem
    intro a b ha hb hle
    rw [hcmp _ ha _ hb] at hle
    omega
  have hrowCmp : ∀ n ∈ sorted, cmpOffsetId r.id n.id = (place r.id : ℤ) - place n.id := by
    intro n hn
    rw [← hrow, hcmp _ hmem _ hn]
  have hkey : ∀ n ∈ sorted, n.id = r.id ↔ place n.id = place r.id := by
    intro n hn
    refine ⟨fun heq => by rw [heq], fun heq => ?_⟩
    have hzero : cmpOffsetId r.id n.id = 0 := by rw [hrowCmp n hn, heq, sub_self]
    obtain ⟨en, hen, rfl⟩ := Named.mem_nodes hperm hn
    exact hother en hen (cmpOffsetId_eq_zero_iff.1 hzero)
  obtain ⟨i, rfl, hrun⟩ := exists_runAt_eq_filter hplaces hrowCmp hkey hfind hmem hrow
  rw [copies, hrun]
  exact List.mem_map.2 ⟨nodeOf e, List.mem_filter.2 ⟨hmem, decide_eq_true hrow⟩, rfl⟩

/-- **A row with distinguished ids has an entry for each of its nodes.** -/
theorem Named.complete (h : Named nodes rows) (hreturns : Returns (nodes.map childName) rows result)
    (hhalf : OnHalf (2 ^ 32) (fun e : ℕ × ℕ => (e.2 : ℤ)) nodes) {r : ItNode} (hr : r ∈ rows)
    {e : ℕ × ℕ} (he : e ∈ nodes) (hid : e.2 = r.id)
    (hother : ∀ e ∈ nodes, e.2 % 2 ^ 32 = r.id % 2 ^ 32 → e.2 = r.id) : ⟨r, e.1⟩ ∈ result := by
  rcases h.perm_of_returns hreturns with ⟨-, rfl⟩ | ⟨sorted, found, hsort, hfind, horder⟩
  · cases he
  · have hsorted := hsort.sorted (onHalf_nodeOf.1 hhalf)
    obtain ⟨c, hc⟩ := hhalf
    refine horder.perm.mem_iff.2 (List.mem_flatMap.2 ⟨r, hr, ?_⟩)
    exact mem_copies_of_distinguished hsort.perm hc hsorted (hfind r hr) he hid hother

/-! ## Other ids -/

namespace Named

/-- A sort and searches that the standard allows make a result. -/
theorem exists_returns (h : Named nodes rows) (hne : nodes ≠ []) (found : ItNode → Option ℕ)
    (hsort : Qsort (fun a b => cmpOffsetId a.id b.id) (nodes.map nodeOf) sorted)
    (hfind : ∀ r ∈ rows, Bsearch (fun n => cmpOffsetId r.id n.id) sorted (found r)) :
    ∃ result, Returns (nodes.map childName) rows result ∧
      result.Perm (rows.flatMap fun r => copies sorted r (found r)) :=
  ⟨_, .joined (by simpa using hne) h.mapM_sscanfLock hsort hfind (qsort_insertionSort _ _),
    List.perm_insertionSort _ _⟩

variable {r : ItNode} {e x : ℕ × ℕ}

/-- The function returns. -/
theorem exists_returns_some (h : Named nodes rows) :
    ∃ result, Returns (nodes.map childName) rows result := by
  by_cases hnil : nodes = []
  · exact ⟨[], .empty (by rw [hnil]; rfl)⟩
  · obtain ⟨result, hreturns, -⟩ := h.exists_returns hnil _
      (qsort_insertionSort _ _) fun r _ => bsearch_search _ _
    exact ⟨result, hreturns⟩

/-- A search that makes the scans of a row miss its nodes leaves no entry of the row. -/
theorem exists_missed_of_copies (h : Named nodes rows) (hne : nodes ≠ [])
    (hsort : Qsort (fun a b => cmpOffsetId a.id b.id) (nodes.map nodeOf) sorted) (hit : Option ℕ)
    (hfind : Bsearch (fun n => cmpOffsetId r.id n.id) sorted hit)
    (hmissed : copies sorted r hit = []) :
    ∃ result, Returns (nodes.map childName) rows result ∧ ∀ x ∈ result, x.interval ≠ r := by
  have hanswers : ∀ t ∈ rows, Bsearch (fun n => cmpOffsetId t.id n.id) sorted
      (if t = r then hit else search (fun n => cmpOffsetId t.id n.id) sorted) := by
    intro t _
    split
    · rename_i heq
      rwa [heq]
    · exact bsearch_search _ _
  obtain ⟨result, hreturns, hperm⟩ := h.exists_returns hne _ hsort hanswers
  refine ⟨result, hreturns, fun x hx heq => ?_⟩
  obtain ⟨t, -, ht⟩ := List.mem_flatMap.1 (hperm.mem_iff.1 hx)
  obtain ⟨rfl, -⟩ := mem_copies ht
  simp [heq, hmissed] at ht

/-- Ids that are not on one half: some order of the array is not cut in two by the id of the row,
and the search may miss it. -/
theorem exists_missed_of_not_onHalf (h : Named nodes rows) (he : e ∈ nodes) (hid : e.2 = r.id)
    (hhalf : ¬ OnHalf (2 ^ 32) (fun e : ℕ × ℕ => (e.2 : ℤ)) nodes) :
    ∃ result, Returns (nodes.map childName) rows result ∧ ∀ x ∈ result, x.interval ≠ r := by
  have hown : cmpOffsetId r.id (nodeOf e).id = 0 := cmpOffsetId_eq_zero_iff.2 (by rw [← hid]; rfl)
  obtain ⟨x, hx, hdiff⟩ : ∃ x ∈ nodes, cmpOffsetId r.id (nodeOf x).id ≠ 0 := by
    by_contra hall
    push Not at hall
    refine hhalf ⟨r.id, fun x hx => ?_⟩
    have hmod := cmpOffsetId_eq_zero_iff.1 (hall x hx)
    have hsame : ((x.2 : ℤ) - r.id) % (2 ^ 32 : ℕ) = 0 := by
      norm_num [nodeOf] at hmod ⊢
      omega
    simp only [hsame]
    norm_num
  have hne : nodeOf e ≠ nodeOf x := by
    intro heq
    exact hdiff (heq ▸ hown)
  have hmem : ∀ e ∈ nodes, nodeOf e ∈ nodes.map nodeOf := fun e he => List.mem_map_of_mem he
  obtain ⟨sorted, hperm, hparted⟩ : ∃ sorted : List LockNode, sorted.Perm (nodes.map nodeOf) ∧
      ¬ Parted (fun n => cmpOffsetId r.id n.id) sorted := by
    rcases lt_or_gt_of_ne hdiff with hneg | hpos
    · -- the greater id in front of the row's
      refine ⟨_, (List.perm_cons_erase (hmem x hx)).symm, fun hparted => ?_⟩
      have hlt : cmpOffsetId r.id (nodeOf e).id < 0 := ((List.pairwise_cons.1 hparted).1 (nodeOf e)
        ((List.mem_erase_of_ne hne).2 (hmem e he))).1 hneg
      omega
    · -- the smaller id behind the row's
      refine ⟨_, (List.perm_cons_erase (hmem e he)).symm, fun hparted => ?_⟩
      have hgt : 0 < cmpOffsetId r.id (nodeOf e).id := ((List.pairwise_cons.1 hparted).1 (nodeOf x)
        ((List.mem_erase_of_ne hne.symm).2 (hmem x hx))).2 hpos
      omega
  refine h.exists_missed_of_copies (List.ne_nil_of_mem he)
    ⟨hperm, fun horders => absurd (onHalf_nodeOf.2 horders) hhalf⟩ none ⟨?_, ?_⟩ rfl
  · intro i hi
    cases hi
  · intro hcut
    exact absurd hcut hparted

/-- Another id with the last 32 bits of the row's: it may stand in front of the row's nodes, and the
search may land on it. -/
theorem exists_missed_of_congruent (h : Named nodes rows)
    (hhalf : OnHalf (2 ^ 32) (fun e : ℕ × ℕ => (e.2 : ℤ)) nodes) (hx : x ∈ nodes)
    (hmod : x.2 % 2 ^ 32 = r.id % 2 ^ 32) (hne : x.2 ≠ r.id) :
    ∃ result, Returns (nodes.map childName) rows result ∧ ∀ x ∈ result, x.interval ≠ r := by
  obtain ⟨c, hc⟩ := hhalf
  let key : LockNode → ℤ := fun n =>
    2 * (((n.id : ℤ) - c) % (2 ^ 32 : ℕ)) + if n.id = r.id then 1 else 0
  have hperm :
    ((nodes.map nodeOf).insertionSort fun a b => key a ≤ key b).Perm (nodes.map nodeOf) :=
    List.perm_insertionSort _ _
  have hsorted : ((nodes.map nodeOf).insertionSort fun a b => key a ≤ key b).Pairwise
      fun a b => key a ≤ key b := pairwise_insertionSort fun _ _ _ _ => Iff.rfl
  generalize (nodes.map nodeOf).insertionSort (fun a b => key a ≤ key b) = sorted at hperm hsorted
  obtain ⟨i, hi, hget⟩ := List.mem_iff_getElem.1 (hperm.mem_iff.2 (List.mem_map_of_mem hx))
  have hland : cmpOffsetId r.id sorted[i].id = 0 := by
    rw [hget]
    exact cmpOffsetId_eq_zero_iff.2 hmod
  have hplace : ((x.2 : ℤ) - c) % (2 ^ 32 : ℕ) = ((r.id : ℤ) - c) % (2 ^ 32 : ℕ) :=
    (Int.natCast_modEq_iff.2 hmod).sub_right c
  refine h.exists_missed_of_copies (List.ne_nil_of_mem hx) ⟨hperm, fun _ => ?_⟩ (some i) ⟨?_, ?_⟩ ?_
  · refine hsorted.imp_of_mem fun {a b} ha hb hle => ?_
    obtain ⟨ea, hea, rfl⟩ := mem_nodes hperm ha
    obtain ⟨eb, heb, rfl⟩ := mem_nodes hperm hb
    have hcmp :
      cmpOffsetId ea.2 eb.2 = ((ea.2 : ℤ) - c) % (2 ^ 32 : ℕ) - ((eb.2 : ℤ) - c) % (2 ^ 32 : ℕ) :=
      bmod_sub_eq (hc ea hea) (hc eb heb)
    have hea' : 0 ≤ if ea.2 = r.id then (1 : ℤ) else 0 := by split <;> omega
    have heb' : (if eb.2 = r.id then (1 : ℤ) else 0) ≤ 1 := by split <;> omega
    simp only [key, nodeOf] at hle ⊢
    omega
  · rintro j hj
    cases hj
    exact ⟨hi, hland⟩
  · intro _ hnone
    cases hnone
  · rw [copies, runAt_eq_nil hi, List.map_nil]
    intro j hj hji hown
    have hle : key sorted[j] ≤ key sorted[i] := by
      rcases Nat.eq_or_lt_of_le hji with rfl | hlt
      · exact le_rfl
      · exact List.pairwise_iff_getElem.1 hsorted j i hj hi hlt
    rw [hget] at hle
    simp only [key, nodeOf, if_neg hne, hplace, hown, if_true] at hle
    omega

/-- **The nodes of a row may be missed** if the ids are not on one half, or if another id has the
last 32 bits of the row's. -/
theorem exists_missed (h : Named nodes rows) (he : e ∈ nodes) (hid : e.2 = r.id)
    (hids : ¬ (OnHalf (2 ^ 32) (fun e : ℕ × ℕ => (e.2 : ℤ)) nodes ∧
      ∀ e ∈ nodes, e.2 % 2 ^ 32 = r.id % 2 ^ 32 → e.2 = r.id)) :
    ∃ result, Returns (nodes.map childName) rows result ∧ ∀ x ∈ result, x.interval ≠ r := by
  by_cases hhalf : OnHalf (2 ^ 32) (fun e : ℕ × ℕ => (e.2 : ℤ)) nodes
  · simp only [hhalf, true_and, not_forall] at hids
    obtain ⟨x, hx, hmod, hne⟩ := hids
    exact h.exists_missed_of_congruent hhalf hx hmod hne
  · exact h.exists_missed_of_not_onHalf he hid hhalf

end Named

/-- **The join is right iff the ids are distinguished.** -/
theorem joins_iff (h : Named nodes rows) : Joins nodes rows ↔ Distinguished nodes rows := by
  constructor
  · intro hjoins
    have hrow : ∀ r ∈ rows, (∃ e ∈ nodes, e.2 = r.id) →
        OnHalf (2 ^ 32) (fun e : ℕ × ℕ => (e.2 : ℤ)) nodes ∧
          ∀ e ∈ nodes, e.2 % 2 ^ 32 = r.id % 2 ^ 32 → e.2 = r.id := by
      rintro r hr ⟨e, he, hid⟩
      by_contra hids
      obtain ⟨result, hreturns, hmissed⟩ := h.exists_missed he hid hids
      exact hmissed _ (((hjoins.2 result hreturns).mem ⟨r, e.1⟩).2 ⟨hr, e, he, hid, rfl⟩) rfl
    by_cases hnone : ∀ r ∈ rows, ∀ e ∈ nodes, e.2 ≠ r.id
    · exact Or.inl hnone
    · push Not at hnone
      obtain ⟨r, hr, e, he, hid⟩ := hnone
      exact Or.inr ⟨(hrow r hr ⟨e, he, hid⟩).1, fun t ht hnode => (hrow t ht hnode).2⟩
  · intro hdist
    refine ⟨h.exists_returns_some, fun result hreturns => ⟨h.ordered hreturns, fun x => ?_⟩⟩
    refine ⟨h.sound hreturns, ?_⟩
    rintro ⟨hr, e, he, hid, hseq⟩
    rcases hdist with hnone | ⟨hhalf, hother⟩
    · exact absurd hid (hnone x.interval hr e he)
    · have hmem := h.complete hreturns hhalf hr he hid (hother x.interval hr ⟨e, he, hid⟩)
      rwa [hseq] at hmem

/-- Two rows with ids of more than 32 bits, the first with two nodes. -/
theorem joins_large_ids :
    Joins [(5, 2 ^ 40), (3, 2 ^ 40 + 1), (4, 2 ^ 40)] [⟨2 ^ 40, 0, 4⟩, ⟨2 ^ 40 + 1, 2, 6⟩] := by
  refine (joins_iff ⟨by decide, by decide, by decide, by decide⟩).2 (Or.inr ⟨⟨2 ^ 40, ?_⟩, ?_⟩)
  · simp
  · rintro r hr - e he hmod
    fin_cases hr <;> fin_cases he <;> simp at hmod ⊢

/-- Two nodes of another row stand in front of the row's, with the same last 32 bits: the search
lands on the second of them, and the scans take nothing. -/
theorem joins_same_last_bits :
    Named [(0, 2 ^ 32 + 1), (1, 2 ^ 32 + 1), (2, 1)] [⟨1, 0, 4⟩] ∧
      sortedRelevantIntervals ([(0, 2 ^ 32 + 1), (1, 2 ^ 32 + 1), (2, 1)].map childName) ⟨1, 0, 4⟩
        [⟨1, 0, 4⟩] = some [] ∧
      ¬ Joins [(0, 2 ^ 32 + 1), (1, 2 ^ 32 + 1), (2, 1)] [⟨1, 0, 4⟩] := by
  have hempty : sortedRelevantIntervals ([(0, 2 ^ 32 + 1), (1, 2 ^ 32 + 1), (2, 1)].map childName)
      ⟨1, 0, 4⟩ [⟨1, 0, 4⟩] = some [] := by decide
  refine ⟨⟨by decide, by decide, by decide, by decide⟩, hempty, fun hjoins => ?_⟩
  have hyields := hjoins.2 [] (returns_sortedRelevantIntervals hempty)
  have hmem := (hyields.mem ⟨⟨1, 0, 4⟩, 2⟩).2 ⟨by decide, (2, 1), by decide, rfl, rfl⟩
  cases hmem

end IntervalLock

end Yacet
