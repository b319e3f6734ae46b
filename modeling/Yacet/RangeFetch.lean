import Yacet.RangeStore

/-!
# What the fetch loop builds (`query_select_named_range`)

Here the rows are any rows in the order of their paths and bases, of selected and of other files,
and an interval may be empty or end before it begins (an edit of an overlapping row leaves such
rows).

* `MergeOf` — a list of nodes merges a list of rows.
* `Chained` — neighbours ascend and do not intersect: what keeps the loop out of the absorb branch.
* `Chained.insert` — a row that begins no earlier than the nodes keeps the list chained.
* `querySelectNamedRange_merges` — **the loop yields one file for each selected path, in order, with
  the merge of exactly its own rows, and a caller that asks for `num_it` locks asks for one for each
  node.**
-/

namespace Yacet

/-! ## One list -/

/-- The node that a fetched row asks for. -/
def FetchRow.node (row : FetchRow) : ItNode := ⟨row.offsetId, row.base, row.bound⟩

/-- The nodes `l` are the rows `os`, merged where they touch or overlap. -/
structure MergeOf (os l : List ItNode) : Prop where
  sorted : l.Pairwise fun a b => a.base ≤ b.base
  cover : ∀ x, Covered l x ↔ Covered os x
  within : ∀ o ∈ os, ∃ n ∈ l, o.Within n
  first : ∀ n ∈ l, ∃ o ∈ os, n.id = o.id ∧ n.base = o.base ∧ o.bound ≤ n.bound
  reach : ∀ n ∈ l, ∃ o ∈ os, n.bound = o.bound
  separated : (∀ o ∈ os, o.base ≤ o.bound) → Separated l

/-- Neighbours ascend and do not intersect. -/
def Chained (l : List ItNode) : Prop :=
  l.IsChain fun a b => a.base ≤ b.base ∧ itIntersect a b = false

variable {f p q : ItNode} {os l l' pre suf : List ItNode} {new : Bool}

theorem Chained.sorted (h : Chained l) : l.Pairwise fun a b => a.base ≤ b.base := by
  have hle : l.IsChain fun a b => a.base ≤ b.base := h.imp fun _ _ hab => hab.1
  have htrans : IsTrans ItNode fun a b => a.base ≤ b.base := ⟨fun _ _ _ => Nat.le_trans⟩
  exact List.isChain_iff_pairwise.1 hle

/-- The node that takes the new interval in does not reach the next one. -/
theorem Chained.extend (h : Chained (p :: suf)) (hle : ∀ n ∈ p :: suf, n.base ≤ f.base)
    (hi : itIntersect f p = true) :
    itRest (p.extend f) suf = true ∧ Chained (p.extend f :: suf) := by
  have hp := hle p List.mem_cons_self
  rw [ItNode.extend_of_le hp]
  rw [itIntersect_iff] at hi
  cases suf with
  | nil => exact ⟨rfl, List.isChain_singleton _⟩
  | cons q suf =>
      obtain ⟨⟨hpq, hno⟩, hrest⟩ := List.isChain_cons_cons.1 h
      have hq := hle q (List.mem_cons_of_mem _ List.mem_cons_self)
      have hno' : itIntersect ⟨p.id, p.base, max p.bound f.bound⟩ q = false := by
        rw [itIntersect_eq_false_iff] at hno ⊢
        simp only
        omega
      constructor
      · rw [itRest, hno', if_neg Bool.false_ne_true, if_neg (by simp only; omega)]
      · exact List.isChain_cons_cons.2 ⟨⟨hpq, hno'⟩, hrest⟩

/-- The absorb branch is not reached. -/
theorem Chained.isSome (h : Chained l) (hle : ∀ n ∈ l, n.base ≤ f.base) :
    ∃ new l', itInsertNew f l = some (new, l') := by
  induction l with
  | nil => exact ⟨true, [f], rfl⟩
  | cons p suf ih =>
      rw [itInsertNew]
      by_cases hi : itIntersect f p = true
      · rw [if_pos hi, if_pos (h.extend hle hi).1]
        exact ⟨_, _, rfl⟩
      · rw [if_neg hi]
        split
        · obtain ⟨new, l', hrest⟩ := ih h.tail fun n hn => hle n (List.mem_cons_of_mem _ hn)
          rw [hrest]
          exact ⟨_, _, rfl⟩
        · exact ⟨_, _, rfl⟩

/-- **A row that begins no earlier than the nodes keeps the list chained.** -/
theorem Chained.insert (h : Chained l) (hle : ∀ n ∈ l, n.base ≤ f.base)
    (hins : itInsertNew f l = some (new, l')) : Chained l' := by
  rcases itInsertNew_cases hins with ⟨pre, p, suf, rfl, rfl, -, hi, -, hpre⟩ |
    ⟨pre, suf, rfl, rfl, -, hpre, hsuf⟩
  · obtain ⟨h1, h2, h3⟩ := List.isChain_append.1 h
    have hext := Chained.extend h2 (fun n hn => hle n (List.mem_append_right _ hn)) hi
    refine List.isChain_append.2 ⟨h1, hext.2, fun a ha b hb => ?_⟩
    obtain rfl : p.extend f = b := Option.some.inj hb
    obtain ⟨hap, hno⟩ := h3 a ha p rfl
    have hp := hle p (by simp)
    have ha' := hpre a (List.mem_of_mem_getLast? ha)
    rw [itIntersect_iff] at hi
    rw [ItNode.extend_of_le hp]
    refine ⟨hap, ?_⟩
    rw [itIntersect_eq_false_iff] at hno ⊢
    simp only
    omega
  · obtain ⟨h1, h2, -⟩ := List.isChain_append.1 h
    refine List.isChain_append.2 ⟨h1, List.isChain_cons.2 ⟨fun b hb => ?_, h2⟩, fun a ha b hb => ?_⟩
    · obtain ⟨hno, hlt⟩ := hsuf b hb
      exact ⟨hlt, hno⟩
    · obtain rfl : f = b := Option.some.inj hb
      obtain ⟨hno, hlt⟩ := hpre a (List.mem_of_mem_getLast? ha)
      exact ⟨hlt.le, by rw [itIntersect_comm]; exact hno⟩

/-- No row, no node. -/
theorem mergeOf_nil : MergeOf [] [] where
  sorted := List.Pairwise.nil
  cover _ := Iff.rfl
  within := by simp
  first := by simp
  reach := by simp
  separated _ := Separated.nil

theorem mem_middle {n : ItNode} : n ∈ pre ++ f :: suf ↔ n = f ∨ n ∈ pre ++ suf :=
  List.perm_middle.mem_iff.trans List.mem_cons

theorem covered_middle {x : ℕ} :
    Covered (pre ++ f :: suf) x ↔ (f.base ≤ x ∧ x < f.bound) ∨ Covered (pre ++ suf) x := by
  rw [covered_append, covered_cons, covered_append, or_left_comm]

theorem covered_concat {x : ℕ} :
    Covered (os ++ [f]) x ↔ Covered os x ∨ (f.base ≤ x ∧ x < f.bound) := by
  rw [covered_middle, List.append_nil, or_comm]

/-- Rows of a longer list do for the nodes too. -/
theorem MergeOf.mono (h : MergeOf os l) (f : ItNode) {n : ItNode} (hn : n ∈ l) :
    (∃ o ∈ os ++ [f], n.id = o.id ∧ n.base = o.base ∧ o.bound ≤ n.bound) ∧
      ∃ o ∈ os ++ [f], n.bound = o.bound := by
  obtain ⟨o, ho, hfirst⟩ := h.first n hn
  obtain ⟨o', ho', hreach⟩ := h.reach n hn
  exact ⟨⟨o, List.mem_append_left _ ho, hfirst⟩, o', List.mem_append_left _ ho', hreach⟩

/-- A row that the node `p` takes in. -/
theorem MergeOf.extend (h : MergeOf os (pre ++ p :: suf)) (hbase : p.base ≤ f.base)
    (hi : f.base ≤ p.bound) (hid : q.id = p.id) (hqbase : q.base = p.base)
    (hqbound : q.bound = max p.bound f.bound)
    (hsorted : (pre ++ q :: suf).Pairwise fun a b => a.base ≤ b.base)
    (hsep : (∀ o ∈ os ++ [f], o.base ≤ o.bound) → Separated (pre ++ q :: suf)) :
    MergeOf (os ++ [f]) (pre ++ q :: suf) := by
  have hp : p ∈ pre ++ p :: suf := by simp
  have hself : f ∈ os ++ [f] := List.mem_append_right _ (List.mem_singleton_self f)
  have hqmem : q ∈ pre ++ q :: suf := by simp
  have hcases : ∀ n ∈ pre ++ q :: suf, n = q ∨ n ∈ pre ++ p :: suf :=
    fun n hn => (mem_middle.1 hn).imp_right fun hn => mem_middle.2 (Or.inr hn)
  have hcases' : ∀ n ∈ pre ++ p :: suf, n = p ∨ n ∈ pre ++ q :: suf :=
    fun n hn => (mem_middle.1 hn).imp_right fun hn => mem_middle.2 (Or.inr hn)
  refine ⟨hsorted, fun x => ?_, fun o ho => ?_, fun n hn => ?_, fun n hn => ?_, hsep⟩
  · have hext : q.base ≤ x ∧ x < q.bound ↔
        (p.base ≤ x ∧ x < p.bound) ∨ (f.base ≤ x ∧ x < f.bound) := by
      omega
    rw [covered_concat, ← h.cover, covered_middle, covered_middle, hext, or_right_comm]
  · rcases List.mem_append.1 ho with ho | ho
    · obtain ⟨n, hn, h1, h2⟩ := h.within o ho
      rcases hcases' n hn with rfl | hn
      · exact ⟨q, hqmem, hqbase.trans_le h1, h2.trans ((Nat.le_max_left _ _).trans_eq hqbound.symm)⟩
      · exact ⟨n, hn, h1, h2⟩
    · rw [List.mem_singleton.1 ho]
      exact ⟨q, hqmem, hqbase.trans_le hbase, (Nat.le_max_right _ _).trans_eq hqbound.symm⟩
  · rcases hcases n hn with rfl | hn
    · obtain ⟨⟨o, ho, h1, h2, h3⟩, -⟩ := h.mono f hp
      exact ⟨o, ho, hid.trans h1, hqbase.trans h2,
        h3.trans ((Nat.le_max_left _ _).trans_eq hqbound.symm)⟩
    · exact (h.mono f hn).1
  · rcases hcases n hn with rfl | hn
    · rcases Nat.le_total p.bound f.bound with hmax | hmax
      · exact ⟨f, hself, hqbound.trans (Nat.max_eq_right hmax)⟩
      · obtain ⟨-, o, ho, heq⟩ := h.mono f hp
        exact ⟨o, ho, hqbound.trans ((Nat.max_eq_left hmax).trans heq)⟩
    · exact (h.mono f hn).2

/-- A row that becomes a node. -/
theorem MergeOf.between (h : MergeOf os (pre ++ suf))
    (hsorted : (pre ++ f :: suf).Pairwise fun a b => a.base ≤ b.base)
    (hsep : (∀ o ∈ os ++ [f], o.base ≤ o.bound) → Separated (pre ++ f :: suf)) :
    MergeOf (os ++ [f]) (pre ++ f :: suf) := by
  have hself : f ∈ os ++ [f] := List.mem_append_right _ (List.mem_singleton_self f)
  refine ⟨hsorted, fun x => ?_, fun o ho => ?_, fun n hn => ?_, fun n hn => ?_, hsep⟩
  · rw [covered_concat, ← h.cover, covered_middle, or_comm]
  · rcases List.mem_append.1 ho with ho | ho
    · obtain ⟨n, hn, hwithin⟩ := h.within o ho
      exact ⟨n, mem_middle.2 (Or.inr hn), hwithin⟩
    · rw [List.mem_singleton.1 ho]
      exact ⟨f, mem_middle.2 (Or.inl rfl), Nat.le_refl _, Nat.le_refl _⟩
  · rcases mem_middle.1 hn with rfl | hn
    · exact ⟨n, hself, rfl, rfl, Nat.le_refl _⟩
    · exact (h.mono f hn).1
  · rcases mem_middle.1 hn with rfl | hn
    · exact ⟨n, hself, rfl⟩
    · exact (h.mono f hn).2

/-- **One more row, merged into a chained list.** -/
theorem MergeOf.insert (h : MergeOf os l) (hchain : Chained l) (hle : ∀ n ∈ l, n.base ≤ f.base)
    (hins : itInsertNew f l = some (new, l')) : MergeOf (os ++ [f]) l' := by
  have hsorted := (hchain.insert hle hins).sorted
  have hsep : (∀ o ∈ os ++ [f], o.base ≤ o.bound) → Separated l' := by
    intro hos
    rw [List.forall_mem_append, List.forall_mem_singleton] at hos
    exact itInsertNew_separated hos.2 (h.separated hos.1) hins
  rcases itInsertNew_cases hins with ⟨pre, p, suf, rfl, rfl, -, hi, -, -⟩ |
    ⟨pre, suf, rfl, rfl, -, -, -⟩
  · have hbase := hle p (by simp)
    have hext := ItNode.extend_of_le hbase
    rw [itIntersect_iff] at hi
    exact h.extend hbase hi.1 (by rw [hext]) (by rw [hext]) (by rw [hext]) hsorted hsep
  · exact h.between hsorted hsep

/-! ## The loop -/

/-- Rows in the order of the query.  No path is empty, and `buf` holds each of them. -/
structure ResultSet (rows : List FetchRow) : Prop where
  sorted : rows.Pairwise FetchRow.InOrder
  named : ∀ row ∈ rows, row.filePath ≠ []
  short : ∀ row ∈ rows, row.filePath.length ≤ pathMax

/-- The caller wants the file; no name at all stands for every file. -/
def Selects (filter : List Text) (path : Text) : Prop := filter = [] ∨ path ∈ filter

/-- The nodes that the rows of a path ask for. -/
def nodesOf (path : Text) (rows : List FetchRow) : List ItNode :=
  (rows.filter fun row => row.filePath = path).map FetchRow.node

/-- The list of a file after the rows `os`. -/
structure Filled (os : List ItNode) (list : ItList) : Prop where
  merge : MergeOf os list.it
  chained : Chained list.it
  numIt : list.numIt = list.it.length

/-- The files after the rows `rows`. -/
structure FetchState.Exact (filter : List Text) (rows : List FetchRow) (st : FetchState) :
    Prop where
  steady : st.Steady rows
  filled : ∀ f ∈ st.files ++ st.rf.toList, Filled (nodesOf f.filePath rows) f.list
  selected : ∀ f ∈ st.files ++ st.rf.toList, Selects filter f.filePath
  found : ∀ row ∈ rows, Selects filter row.filePath →
    ∃ f ∈ st.files ++ st.rf.toList, f.filePath = row.filePath
  fresh : st.rf = none → st.oldBuf = []

variable {rows : List FetchRow} {row : FetchRow} {st : FetchState} {filter : List Text}
  {path : Text}
  {list : ItList}

theorem filled_nil : Filled [] ⟨[], 0⟩ := ⟨mergeOf_nil, List.isChain_nil, rfl⟩

/-- `range_file_add_it` for a row that begins no earlier than the rows before it. -/
theorem Filled.addIt (h : Filled os list) (hle : ∀ o ∈ os, o.base ≤ f.base) :
    ∃ list', rangeFileAddIt list f = some list' ∧ Filled (os ++ [f]) list' := by
  have hle' : ∀ n ∈ list.it, n.base ≤ f.base := by
    intro n hn
    obtain ⟨o, ho, -, hbase, -⟩ := h.merge.first n hn
    rw [hbase]
    exact hle o ho
  obtain ⟨new, l', hins⟩ := h.chained.isSome hle'
  refine ⟨⟨l', if new then list.numIt + 1 else list.numIt⟩, ?_, ?_⟩
  · rw [rangeFileAddIt, hins]
    rfl
  · refine ⟨h.merge.insert h.chained hle' hins, h.chained.insert hle' hins, ?_⟩
    rw [itInsertNew_length hins, ← h.numIt]

theorem nodesOf_append_self : nodesOf row.filePath (rows ++ [row]) =
    nodesOf row.filePath rows ++ [row.node] := by
  simp [nodesOf]

theorem nodesOf_append_of_ne (h : row.filePath ≠ path) :
    nodesOf path (rows ++ [row]) = nodesOf path rows := by
  simp [nodesOf, h]

/-- The rows of the same path begin no later. -/
theorem nodesOf_le (horder : ∀ r ∈ rows, r.InOrder row) :
    ∀ o ∈ nodesOf row.filePath rows, o.base ≤ row.base := by
  intro o ho
  obtain ⟨r, hr, rfl⟩ := List.mem_map.1 ho
  obtain ⟨hmem, hpath⟩ := List.mem_filter.1 hr
  rcases horder r hmem with hlt | ⟨-, hle⟩
  · exact absurd (of_decide_eq_true hpath) hlt.ne
  · exact hle

namespace FetchState.Exact

theorem start : FetchState.Exact filter [] ⟨[], none, []⟩ where
  steady := ⟨by simp, by simp, by simp, fun _ => rfl⟩
  filled := by simp
  selected := by simp
  found := by simp
  fresh _ := rfl

/-- A row of a file that is not selected. -/
theorem skip (h : st.Exact filter rows) (horder : ∀ r ∈ rows, r.InOrder row)
    (hrow : ¬ Selects filter row.filePath) (hstep : fetchStep filter st row = some st) :
    st.Exact filter (rows ++ [row]) where
  steady := h.steady.step horder hstep
  filled f hf := by
    rw [nodesOf_append_of_ne]
    · exact h.filled f hf
    · rintro heq
      rw [heq] at hrow
      exact hrow (h.selected f hf)
  selected := h.selected
  found r hr hsel := by
    rcases List.mem_append.1 hr with hr | hr
    · exact h.found r hr hsel
    · rw [List.mem_singleton.1 hr] at hsel
      exact absurd hsel hrow
  fresh := h.fresh

/-- A row whose file is the last one, once it has been opened. -/
theorem add {files : List LoadedFile} {rf : LoadedFile}
    (hsteady : FetchState.Steady (rows ++ [row])
      ⟨files, some { rf with list := list }, row.filePath⟩)
    (hfilled : ∀ f ∈ files, Filled (nodesOf f.filePath rows) f.list)
    (hlist : Filled (nodesOf row.filePath rows ++ [row.node]) list)
    (hsel : ∀ f ∈ files, Selects filter f.filePath) (hrow : Selects filter row.filePath)
    (hpath : rf.filePath = row.filePath)
    (hfound : ∀ r ∈ rows, Selects filter r.filePath →
      (∃ f ∈ files, f.filePath = r.filePath) ∨ r.filePath = row.filePath) :
    FetchState.Exact filter (rows ++ [row]) ⟨files, some { rf with list := list },
      row.filePath⟩ where
  steady := hsteady
  filled f hf := by
    rcases List.mem_append.1 hf with hf' | hf'
    · have hlt :=
        (List.pairwise_append.1 hsteady.ordered).2.2 f hf' { rf with list := list } (by simp)
      rw [nodesOf_append_of_ne]
      · exact hfilled f hf'
      · rintro heq
        exact absurd (heq.symm.trans hpath.symm) hlt.ne
    · obtain rfl : f = { rf with list := list } := by simpa using hf'
      simp only [hpath]
      rw [nodesOf_append_self]
      exact hlist
  selected f hf := by
    rcases List.mem_append.1 hf with hf | hf
    · exact hsel f hf
    · obtain rfl : f = { rf with list := list } := by simpa using hf
      simp only [hpath]
      exact hrow
  found r hr hr' := by
    have hlast : ({ rf with list := list } : LoadedFile) ∈
        files ++ (some { rf with list := list }).toList := by simp
    rcases List.mem_append.1 hr with hr | hr
    · rcases hfound r hr hr' with ⟨f, hf, heq⟩ | heq
      · exact ⟨f, List.mem_append_left _ hf, heq⟩
      · exact ⟨_, hlast, hpath.trans heq.symm⟩
    · rw [List.mem_singleton.1 hr]
      exact ⟨_, hlast, hpath⟩
  fresh hnone := by cases hnone

/-- **One row.** -/
theorem step (h : st.Exact filter rows) (horder : ∀ r ∈ rows, r.InOrder row)
    (hnamed : row.filePath ≠ []) (hshort : row.filePath.length ≤ pathMax) :
    ∃ st', fetchStep filter st row = some st' ∧ st'.Exact filter (rows ++ [row]) := by
  have hle := nodesOf_le horder
  by_cases hbuf : st.oldBuf = row.filePath
  · -- a row of the current file
    obtain ⟨files, rf, buf⟩ := st
    simp only at hbuf
    subst hbuf
    cases rf with
    | none => exact absurd (h.fresh rfl) hnamed
    | some rf =>
        have hpath : rf.filePath = row.filePath := h.steady.current rf rfl
        have hrf := h.filled rf (by simp)
        rw [hpath] at hrf
        obtain ⟨list, hadd, hlist⟩ := hrf.addIt (f := row.node) hle
        have hstep : fetchStep filter ⟨files, some rf, row.filePath⟩ row =
            some ⟨files, some { rf with list := list }, row.filePath⟩ := by
          rw [fetchStep, if_neg (by simp), FetchState.addIt]
          simp only [Option.bind_some]
          rw [show rangeFileAddIt rf.list ⟨row.offsetId, row.base, row.bound⟩ = some list from hadd]
          rfl
        have hsel := h.selected rf (by simp)
        rw [hpath] at hsel
        refine ⟨_, hstep, add (h.steady.step horder hstep)
          (fun f hf => h.filled f (List.mem_append_left _ hf)) hlist
          (fun f hf => h.selected f (List.mem_append_left _ hf)) hsel hpath fun r hr hr' => ?_⟩
        obtain ⟨f, hf, heq⟩ := h.found r hr hr'
        rcases List.mem_append.1 hf with hf | hf
        · exact Or.inl ⟨f, hf, heq⟩
        · obtain rfl : f = rf := by simpa using hf
          exact Or.inr (heq.symm.trans hpath)
  · by_cases hrow : Selects filter row.filePath
    · -- the row opens its file
      have hno : ∀ o ∈ nodesOf row.filePath rows, False := by
        intro o ho
        obtain ⟨r, hr, -⟩ := List.mem_map.1 ho
        obtain ⟨hmem, hpath⟩ := List.mem_filter.1 hr
        have hpath := of_decide_eq_true hpath
        obtain ⟨f, hf, heq⟩ := h.found r hmem (by rw [hpath]; exact hrow)
        exact absurd (heq.trans hpath) (h.steady.path_lt horder hbuf f hf).ne
      have hnil : nodesOf row.filePath rows = [] := List.eq_nil_iff_forall_not_mem.2 hno
      obtain ⟨list, hadd, hlist⟩ := filled_nil.addIt (f := row.node) (by simp)
      have hfilter : ¬ (filter ≠ [] ∧ row.filePath ∉ filter) := by
        rcases hrow with hrow | hrow
        · simp [hrow]
        · simp [hrow]
      have hstep : fetchStep filter st row = some ⟨st.files ++ st.rf.toList,
          some ⟨row.filePath, row.fileId, list⟩, row.filePath⟩ := by
        rw [fetchStep, if_pos hbuf, if_neg hfilter, if_neg (Nat.not_lt.2 hshort), FetchState.addIt]
        simp only [Option.bind_some]
        rw [show rangeFileAddIt ⟨[], 0⟩ ⟨row.offsetId, row.base, row.bound⟩ = some list from hadd]
        rfl
      have hsteady := h.steady.step horder hstep
      have hlist' : Filled (nodesOf row.filePath rows ++ [row.node]) list := by
        rw [hnil]
        exact hlist
      exact ⟨_, hstep, @add _ _ _ _ _ ⟨row.filePath, row.fileId, ⟨[], 0⟩⟩ hsteady h.filled hlist'
        h.selected hrow rfl fun r hr hr' => Or.inl (h.found r hr hr')⟩
    · have hfilter : filter ≠ [] ∧ row.filePath ∉ filter := not_or.1 hrow
      have hstep : fetchStep filter st row = some st := by
        rw [fetchStep, if_pos hbuf, if_pos hfilter]
      exact ⟨st, hstep, h.skip horder hrow hstep⟩

end FetchState.Exact

/-- The loop over all rows. -/
theorem fetch_run (filter : List Text) (h : ResultSet rows) :
    ∃ st, rows.foldlM (fetchStep filter) ⟨[], none, []⟩ = some st ∧ st.Exact filter rows := by
  induction rows using List.reverseRecOn with
  | nil => exact ⟨_, rfl, FetchState.Exact.start⟩
  | append_singleton rows row ih =>
      obtain ⟨hrows, -, hcross⟩ := List.pairwise_append.1 h.sorted
      have hmem : ∀ r ∈ rows, r ∈ rows ++ [row] := fun r hr => List.mem_append_left _ hr
      obtain ⟨st, hrun, hst⟩ := ih ⟨hrows, fun r hr => h.named r (hmem r hr),
        fun r hr => h.short r (hmem r hr)⟩
      obtain ⟨st', hstep, hst'⟩ := hst.step (fun r hr => hcross r hr row (by simp))
        (h.named row (by simp)) (h.short row (by simp))
      refine ⟨st', ?_, hst'⟩
      rw [List.foldlM_append, hrun, Option.bind_eq_bind, Option.bind_some, List.foldlM_cons, hstep]
      rfl

/-! ## The locks -/

/-- The loop of `zk_lock_intervals` after `count` locks; `acquire` says for which nodes
`zk_acquire_lock` grants the lock. -/
def lockFrom (acquire : ItNode → Bool) (count : ℤ) : List ItNode → ℤ
  | [] => count
  | n :: ns => if acquire n then lockFrom acquire (count + 1) ns else -1

/-- `zk_lock_intervals`. -/
def zkLockIntervals (acquire : ItNode → Bool) (rf : LoadedFile) : ℤ :=
  lockFrom acquire 0 rf.list.it

theorem lockFrom_eq (acquire : ItNode → Bool) (count : ℤ) (l : List ItNode) :
    lockFrom acquire count l = if ∀ n ∈ l, acquire n = true then count + l.length else -1 := by
  induction l generalizing count with
  | nil => simp [lockFrom]
  | cons n l ih =>
      rw [lockFrom, ih]
      cases hn : acquire n with
      | false => simp [hn]
      | true =>
          simp only [if_true, List.forall_mem_cons, hn, true_and, List.length_cons, Nat.cast_add,
            Nat.cast_one]
          split
          · omega
          · rfl

/-- **Every result of the query becomes one file for each selected path**, in order, with the merge
of the rows of that path and the number of its nodes, which is the number of locks that the caller
asks for. -/
theorem querySelectNamedRange_merges (filter : List Text) (h : ResultSet rows) :
    ∃ loaded, querySelectNamedRange filter rows = some loaded ∧
      loaded.Pairwise (fun f g => f.filePath < g.filePath) ∧
      (∀ path, (∃ f ∈ loaded, f.filePath = path) ↔
        Selects filter path ∧ ∃ row ∈ rows, row.filePath = path) ∧
      ∀ f ∈ loaded, MergeOf (nodesOf f.filePath rows) f.list.it ∧
        f.list.numIt = f.list.it.length ∧
        ∀ acquire, ¬ zkLockIntervals acquire f < f.list.numIt ↔
          ∀ n ∈ f.list.it, acquire n = true := by
  obtain ⟨st, hrun, hst⟩ := fetch_run filter h
  refine ⟨st.files ++ st.rf.toList, ?_, hst.steady.ordered, fun path => ⟨?_, ?_⟩, fun f hf => ?_⟩
  · rw [querySelectNamedRange, hrun]
    rfl
  · rintro ⟨f, hf, rfl⟩
    obtain ⟨os, hos⟩ := hst.steady.loaded f hf
    exact ⟨hst.selected f hf, hos.path⟩
  · rintro ⟨hsel, row, hrow, rfl⟩
    exact hst.found row hrow hsel
  · have hfilled := hst.filled f hf
    refine ⟨hfilled.merge, hfilled.numIt, fun acquire => ?_⟩
    rw [zkLockIntervals, lockFrom_eq, hfilled.numIt]
    split
    · rename_i hall
      exact iff_of_true (by omega) hall
    · rename_i hno
      exact iff_of_false (by omega) hno

/-- Rows of `a`, `b` and `c`, of which `a` and `c` are selected; two rows of `c` touch. -/
theorem querySelectNamedRange_merges_two :
    let rows : List FetchRow := [⟨1, ['a'], 1, 0, 5, false⟩, ⟨2, ['b'], 2, 0, 3, false⟩,
      ⟨3, ['c'], 3, 1, 4, false⟩, ⟨3, ['c'], 4, 4, 6, false⟩]
    let filter : List Text := [['c'], ['a']]
    ResultSet rows ∧ ∃ loaded, querySelectNamedRange filter rows = some loaded ∧
      loaded.Pairwise (fun f g => f.filePath < g.filePath) ∧
      (∀ path, (∃ f ∈ loaded, f.filePath = path) ↔
        Selects filter path ∧ ∃ row ∈ rows, row.filePath = path) ∧
      ∀ f ∈ loaded, MergeOf (nodesOf f.filePath rows) f.list.it ∧
        f.list.numIt = f.list.it.length ∧
        ∀ acquire, ¬ zkLockIntervals acquire f < f.list.numIt ↔
          ∀ n ∈ f.list.it, acquire n = true := by
  have hrows : ResultSet [⟨1, ['a'], 1, 0, 5, false⟩, ⟨2, ['b'], 2, 0, 3, false⟩,
      ⟨3, ['c'], 3, 1, 4, false⟩, ⟨3, ['c'], 4, 4, 6, false⟩] :=
    ⟨by decide, by decide, by decide⟩
  exact ⟨hrows, querySelectNamedRange_merges [['c'], ['a']] hrows⟩

/-- The row of the file in between is dropped, and the touching rows share a node. -/
example : querySelectNamedRange [['c'], ['a']] [⟨1, ['a'], 1, 0, 5, false⟩,
    ⟨2, ['b'], 2, 0, 3, false⟩, ⟨3, ['c'], 3, 1, 4, false⟩, ⟨3, ['c'], 4, 4, 6, false⟩] =
      some [⟨['a'], 1, ⟨[⟨1, 0, 5⟩], 1⟩⟩, ⟨['c'], 3, ⟨[⟨3, 1, 6⟩], 1⟩⟩] := by decide

end Yacet
