import Yacet.PrintFile
import Yacet.RangeBuild
import Yacet.RangeFetch

/-!
# What a thread prints of a stored range (`main.c`, `sql.c`, `range.c`)

The fetch loop of `query_select_named_range` builds the range in memory, where a new file takes the
next slot of the array with the list head that it finds there.

* `fetchRows` — the loop on the range in memory; `thdPrange` — the thread.
* `Memory` — the array and its lists are intact, and it is known what the unused slots hold.
* `Holds` — the range in memory is the loaded files; `fetch_refines` — **the loop in memory does
  what the loop on lists does**, if the slots that the library adds are clear and it has memory.
* `thdPrange_prints` — **the thread prints each file of the range once, in the order of the paths,
  with the merge of its own rows; all nodes stay allocated.**
-/

namespace Yacet

open LinkedHeap CText Mem

namespace Printing

/-! ## The code -/

/-- The range that the fetch loop builds, `old_buf`, and the warnings that it has printed. -/
structure Fetching where
  range : Range
  oldBuf : Text
  warnings : List Text

/-- `Warning: Interval [%lu, %lu) has been modified and might be inaccurate\n`. -/
def rangeWarning (row : FetchRow) : Text :=
  "Warning: Interval [".toList ++ zeroPadded 0 row.base ++ ", ".toList ++ zeroPadded 0 row.bound ++
    ") has been modified and might be inaccurate".toList ++ ['\n']

/-- The warning and `range_file_add_it(rf, base, bound, offsetId)`; `rf` is the file added last.
`malloc` tells for which rows there is memory for a node. -/
def Fetching.addIt (malloc : ℕ → Bool) (s : Fetching) (row : FetchRow) :
    Except ArrayFault Fetching :=
  let warnings := if row.conflict then s.warnings ++ [rangeWarning row] else s.warnings
  if s.range.handed = [] then .error .null
  else
    (s.range.rangeFileAddIt (s.range.handed.length - 1) row.node (malloc row.offsetId)).map fun r =>
      ⟨r, s.oldBuf, warnings⟩

/-- A round of the fetch loop; the answer is false after `goto fail`.  `env` tells what the library
answers for each file. -/
def Fetching.row (filter : List Text) (env : ℕ → Range.Env) (malloc : ℕ → Bool) (s : Fetching)
    (row : FetchRow) : Except ArrayFault (Fetching × Bool) :=
  if s.oldBuf ≠ row.filePath then
    if filter ≠ [] ∧ ¬ filter.contains row.filePath then .ok (s, true)
    else do
      let r ← s.range.rangeAddFile row.filePath row.fileId (env s.range.numFiles)
      if r.handed.length = s.range.handed.length then .ok (⟨r, row.filePath, s.warnings⟩, false)
      else
        let s ← Fetching.addIt malloc ⟨r, row.filePath, s.warnings⟩ row
        .ok (s, true)
  else do
    let s ← s.addIt malloc row
    .ok (s, true)

/-- The fetch loop of `query_select_named_range`. -/
def fetchRows (filter : List Text) (env : ℕ → Range.Env) (malloc : ℕ → Bool) :
    Fetching → List FetchRow → Except ArrayFault (Fetching × Bool)
  | s, [] => .ok (s, true)
  | s, row :: rows => do
    let (s, go) ← s.row filter env malloc row
    if go then fetchRows filter env malloc s rows else .ok (s, false)

/-- `range_deinit`: it sets `num_files` to 0 before the loop over the files, and frees the array. -/
def rangeDeinit (r : Range) : Range :=
  { r with
    blocks := fun b => if r.files = some b then none else r.blocks b
    files := none
    numFiles := 0 }

/-- What stops a thread. -/
inductive RangeFault
  | array (e : ArrayFault)
  | print (e : PrintFault)

/-- `thd_prange` from the rows on; if `ok` is false, a statement has failed behind them. -/
def thdPrange (fuel : ℕ) (name : Text) (rows : List FetchRow) (ok : Bool) (env : ℕ → Range.Env)
    (malloc : ℕ → Bool) (junk : Text) : Except RangeFault Printed := do
  let (s, done) ← (fetchRows [] env malloc ⟨Range.init, [], []⟩ rows).mapError .array
  let block ← if done && ok then (doPrintRange fuel s.range name junk).mapError .print else .ok []
  .ok ⟨s.warnings, block, (rangeDeinit s.range).heap⟩

end Printing

/-! ## The array -/

namespace Mem

/-- The array is intact, and a slot that is not in use holds the head that its file will find. -/
structure Memory (env : ℕ → Range.Env) (r : Range) (b : ℕ) (slots : List Slot)
    (lists : ℕ → List (ℕ × ItNode)) : Prop where
  intact : Intact r b slots lists
  room : Room slots.length r.numFiles
  spare : ∀ t s, r.numFiles ≤ t → slots[t]? = some s → s.it = leftOver env t

namespace Memory

variable {env : ℕ → Range.Env} {r r₁ : Range} {b b₁ i : ℕ} {slots slots₁ : List Slot}
  {lists : ℕ → List (ℕ × ItNode)} {path : Text} {s : Slot}

theorem start : Memory env Range.init 0 (List.replicate aListInitLen Slot.zero) fun _ => [] := by
  have h : Built env Range.init [] 0 (List.replicate aListInitLen Slot.zero) fun _ => [] :=
    built_init
  exact ⟨h.intact, h.room, h.spare⟩

/-- The slot behind the files becomes a file. -/
theorem withFile (h : Intact r₁ b₁ slots₁ lists) (hroom : Room slots₁.length (r₁.numFiles + 1))
    (hspare : ∀ t s, r₁.numFiles ≤ t → slots₁[t]? = some s → s.it = leftOver env t)
    (hs : slots₁[r₁.numFiles]? = some s) (hclean : s.it = none) (path : Text) (id : ℕ) :
    Memory env (r₁.withFile b₁ (s.filled path id)) b₁ (slots₁.set r₁.numFiles (s.filled path id))
      (Function.update lists r₁.numFiles []) where
  intact := h.withFile (List.getElem?_eq_some_iff.1 hs).1 hclean
  room := by
    rw [List.length_set]
    exact hroom
  spare t u ht hu := by
    have hlt : r₁.numFiles < t := ht
    rw [List.getElem?_set_ne hlt.ne] at hu
    exact hspare t u hlt.le hu

/-- What has become of the range when a file has been added. -/
structure Grown (env : ℕ → Range.Env) (r : Range) (slots : List Slot)
    (lists : ℕ → List (ℕ × ItNode))
    (path : Text) (id : ℕ) (r' : Range) (b' : ℕ) (slots' : List Slot) : Prop where
  memory : Memory env r' b' slots' (Function.update lists r.numFiles [])
  count : r'.numFiles = r.numFiles + 1
  handed : r'.handed = r.handed ++ [b']
  old : ∀ t < r.numFiles, slots'[t]? = slots[t]?
  new : ∃ s, slots'[r.numFiles]? = some s ∧ s.filePath = path ∧ s.id = id ∧ s.numIt = 0

theorem grown_withFile (h : Intact r₁ b₁ slots₁ lists) (hnum : r₁.numFiles = r.numFiles)
    (hhanded : r₁.handed = r.handed) (hold : ∀ t < r.numFiles, slots₁[t]? = slots[t]?)
    (hroom : Room slots₁.length (r.numFiles + 1))
    (hspare : ∀ t s, r.numFiles ≤ t → slots₁[t]? = some s → s.it = leftOver env t)
    (hclean : leftOver env r.numFiles = none) (hs : slots₁[r.numFiles]? = some s) (path : Text)
    (id : ℕ) :
    Grown env r slots lists path id (r₁.withFile b₁ (s.filled path id)) b₁
      (slots₁.set r.numFiles (s.filled path id)) := by
  have hnone : s.it = none := (hspare _ _ le_rfl hs).trans hclean
  rw [← hnum] at hroom hspare hs
  have hmem := withFile h hroom hspare hs hnone path id
  have hlt := (List.getElem?_eq_some_iff.1 hs).1
  rw [hnum] at hmem hlt
  refine ⟨hmem, ?_, ?_, fun t ht => ?_, s.filled path id, ?_, rfl, rfl, rfl⟩
  · show r₁.numFiles + 1 = _
    rw [hnum]
  · show r₁.handed ++ [b₁] = _
    rw [hhanded]
  · rw [List.getElem?_set_ne ht.ne', hold t ht]
  · exact List.getElem?_set_self hlt

/-- **A file is added to a slot that is clear.** -/
theorem addFile (h : Memory env r b slots lists) (id : ℕ) (hstored : Stored path (env r.numFiles))
    (hfits : SlotFits env r.numFiles) :
    ∃ r' b' slots', r.rangeAddFile path id (env r.numFiles) = .ok r' ∧
      Grown env r slots lists path id r' b' slots' := by
  by_cases hgrows : r.Grows
  · -- the array is full, and `realloc` doubles it
    have hfull := h.room.eq_of_grows hgrows.1 hgrows.2
    have hpos : 0 < r.numFiles := Nat.lt_of_lt_of_le (by decide) hgrows.2
    obtain ⟨fresh, hhow, hhead⟩ := Realloc.exists_fresh (hfits.room hgrows)
    obtain ⟨b', h', hnum⟩ := h.intact.realloc hfull hgrows.2 hhow (r.numFiles * 2)
    have hlen : (Range.grown slots (r.numFiles * 2) fresh).length = r.numFiles * 2 :=
      length_grown (by omega)
    have hfresh : ∀ i < r.numFiles,
        (Range.grown slots (r.numFiles * 2) fresh)[r.numFiles + i]? = some (fresh i) := by
      intro i hi
      rw [← hfull]
      exact grown_fresh (by omega)
    have hspare : ∀ t s, r.numFiles ≤ t →
        (Range.grown slots (r.numFiles * 2) fresh)[t]? = some s → s.it = leftOver env t := by
      intro t s ht hs
      have hlt := (List.getElem?_eq_some_iff.1 hs).1
      obtain ⟨i, rfl⟩ := Nat.exists_eq_add_of_le ht
      rw [hfresh i (by omega)] at hs
      cases hs
      rw [leftOver_grown hgrows (by omega), hhead]
    have hroom : Room (Range.grown slots (r.numFiles * 2) fresh).length (r.numFiles + 1) := by
      have hdouble := h.room
      rw [hlen]
      rw [hfull] at hdouble
      exact hdouble.double
    have hs := hfresh 0 hpos
    refine ⟨_, b', _, rangeAddFile_stored hstored (if_pos hgrows) h' (by rwa [hnum]),
      grown_withFile h' hnum (handed_realloc _ _ _) (fun t ht => grown_old (hfull ▸ ht)) hroom
      hspare
        hfits.clean hs path id⟩
  · have hlt := h.room.lt_of_not_grows hgrows
    have hs := List.getElem?_eq_getElem hlt
    exact ⟨_, b, _, rangeAddFile_stored hstored (if_neg hgrows) h.intact hs,
      grown_withFile h.intact rfl rfl (fun _ _ => rfl) (h.room.succ hlt) h.spare hfits.clean hs
      path id⟩

/-- **An interval is added through a pointer into the present array.** -/
theorem addIt (h : Memory env r b slots lists) (hi : i < r.numFiles)
    (hhanded : r.handed[i]? = some b)
    (hs : slots[i]? = some s) {f : ItNode} {list : ItList}
    (hins : Yacet.rangeFileAddIt ⟨nodes (lists i), s.numIt⟩ f = some list) :
    ∃ r' it' ns', r.rangeFileAddIt i f true = .ok r' ∧ nodes ns' = list.it ∧
      r'.numFiles = r.numFiles ∧ r'.handed = r.handed ∧
      Memory env r' b (slots.set i { s with it := it', numIt := list.numIt })
        (Function.update lists i ns') := by
  obtain ⟨⟨new, l'⟩, hlist, rfl⟩ := Option.map_eq_some_iff.1 hins
  have hrep := h.intact.rep i s hi hs
  obtain ⟨h', it', ns', hrun, hrep', hnodes, hframe⟩ :=
    itInsertNew_ok hrep (Nat.lt_succ_of_le hrep.length_le) hlist
  have hintact := h.intact.withList
    (s := { s with it := it', numIt := if new then s.numIt + 1 else s.numIt }) hi hrep' hframe
  refine ⟨_, it', ns', ?_, hnodes, ?_, ?_, hintact, ?_, fun t u ht hu => ?_⟩
  · simp only [Range.rangeFileAddIt, hhanded, h.intact.slot_eq hs, Mem.rangeFileAddIt, hrun, bind,
      Except.bind]
    rw [if_neg (by simp)]
    rfl
  · rfl
  · rfl
  · rw [List.length_set]
    exact h.room
  · have hle : r.numFiles ≤ t := ht
    have hne : i ≠ t := by omega
    rw [List.getElem?_set_ne hne] at hu
    exact h.spare t u hle hu

end Memory

end Mem

/-! ## The range in memory -/

namespace Printing

variable {env : ℕ → Range.Env} {malloc : ℕ → Bool} {r : Range} {files : List LoadedFile}
  {filter : List Text} {rows : List FetchRow} {row : FetchRow} {s : Fetching} {st st' : FetchState}

/-- A slot with its list is the loaded file. -/
structure IsFile (s : Slot) (ns : List (ℕ × ItNode)) (f : LoadedFile) : Prop where
  filePath : s.filePath = f.filePath
  id : s.id = f.id
  it : nodes ns = f.list.it
  numIt : s.numIt = f.list.numIt

/-- The range in memory is the loaded files, and the last of them stands in the present array. -/
structure Holds (env : ℕ → Range.Env) (r : Range) (files : List LoadedFile) (b : ℕ)
    (slots : List Slot) (lists : ℕ → List (ℕ × ItNode)) : Prop where
  memory : Memory env r b slots lists
  count : r.numFiles = files.length
  file : ∀ t f, files[t]? = some f → ∃ s, slots[t]? = some s ∧ IsFile s (lists t) f
  current : files ≠ [] → r.handed[files.length - 1]? = some b

variable {b : ℕ} {slots : List Slot} {lists : ℕ → List (ℕ × ItNode)}

theorem holds_init :
    Holds env Range.init [] 0 (List.replicate aListInitLen Slot.zero) fun _ => [] where
  memory := Memory.start
  count := rfl
  file := by simp
  current hne := absurd rfl hne

/-- The lists of the files, as `print_range` comes to them. -/
theorem Holds.lists_files (h : Holds env r files b slots lists) :
    Lists r (files.map fun f => (f.filePath, f.list.it)) := by
  refine ⟨by rw [h.count, List.length_map], fun t p hp => ?_⟩
  rw [List.getElem?_map] at hp
  obtain ⟨f, hf, rfl⟩ := Option.map_eq_some_iff.1 hp
  obtain ⟨s, hs, hfile⟩ := h.file t f hf
  have hlt : t < r.numFiles := h.count ▸ (List.getElem?_eq_some_iff.1 hf).1
  exact ⟨s, by rw [h.memory.intact.file_eq hlt, hs], hfile.filePath, lists t,
    (h.memory.intact.rep t s hlt hs).seg, hfile.it⟩

/-- A new file. -/
theorem Holds.addFile (h : Holds env r files b slots lists) (path : Text) (id : ℕ)
    (hstored : Stored path (env files.length)) (hfits : SlotFits env files.length) :
    ∃ r' b' slots' lists', r.rangeAddFile path id (env r.numFiles) = .ok r' ∧
      r'.handed.length = r.handed.length + 1 ∧
      Holds env r' (files ++ [⟨path, id, ⟨[], 0⟩⟩]) b' slots' lists' := by
  rw [← h.count] at hstored hfits
  obtain ⟨r', b', slots', hrun, hgrown⟩ := h.memory.addFile id hstored hfits
  refine ⟨r', b', slots', _, hrun, ?_, hgrown.memory, ?_, fun t f hf => ?_, fun _ => ?_⟩
  · rw [hgrown.handed, List.length_append]
    rfl
  · rw [hgrown.count, h.count, List.length_append]
    rfl
  · by_cases ht : t < files.length
    · rw [List.getElem?_append_left ht] at hf
      obtain ⟨s, hs, hfile⟩ := h.file t f hf
      rw [← h.count] at ht
      refine ⟨s, by rw [hgrown.old t ht, hs], ?_⟩
      rwa [Function.update_of_ne ht.ne]
    · have hlen := (List.getElem?_eq_some_iff.1 hf).1
      rw [List.length_append, List.length_singleton] at hlen
      obtain rfl : t = files.length := by omega
      rw [List.getElem?_concat_length] at hf
      cases hf
      obtain ⟨s, hs, hpath, hid, hnum⟩ := hgrown.new
      rw [← h.count, Function.update_self]
      exact ⟨s, hs, hpath, hid, rfl, hnum⟩
  · rw [hgrown.handed, List.length_append, List.length_singleton, Nat.add_sub_cancel, ← h.count,
      ← h.memory.intact.handed]
    exact List.getElem?_concat_length

/-- An interval of the last file. -/
theorem Holds.addIt {rf : LoadedFile} (h : Holds env r (files ++ [rf]) b slots lists) {f : ItNode}
    {list : ItList} (hins : Yacet.rangeFileAddIt rf.list f = some list) :
    r.handed ≠ [] ∧ ∃ r' slots' lists', r.rangeFileAddIt (r.handed.length - 1) f true = .ok r' ∧
      Holds env r' (files ++ [{ rf with list := list }]) b slots' lists' := by
  have hcount := h.count
  have hhanded := h.memory.intact.handed
  rw [List.length_append, List.length_singleton] at hcount
  have hlast : r.handed.length - 1 = files.length := by omega
  have hpresent := h.current (List.append_ne_nil_of_right_ne_nil _ (List.cons_ne_nil _ _))
  rw [List.length_append, List.length_singleton, Nat.add_sub_cancel] at hpresent
  obtain ⟨s, hs, hfile⟩ := h.file files.length rf List.getElem?_concat_length
  have hins' : Yacet.rangeFileAddIt ⟨nodes (lists files.length), s.numIt⟩ f = some list := by
    rw [hfile.it, hfile.numIt]
    exact hins
  obtain ⟨r', it', ns', hrun, hnodes, hnum, hkept, hmem⟩ :=
    h.memory.addIt (by omega) hpresent hs hins'
  refine ⟨fun hnil => ?_, r', _, _, hlast ▸ hrun, hmem, ?_, fun t g hg => ?_, fun _ => ?_⟩
  · rw [hnil, List.length_nil] at hhanded
    omega
  · rw [hnum, hcount, List.length_append]
    rfl
  · by_cases ht : t < files.length
    · rw [List.getElem?_append_left ht] at hg
      obtain ⟨u, hu, hold⟩ := h.file t g (by rwa [List.getElem?_append_left ht])
      refine ⟨u, by rw [List.getElem?_set_ne ht.ne', hu], ?_⟩
      rwa [Function.update_of_ne ht.ne]
    · have hlen := (List.getElem?_eq_some_iff.1 hg).1
      rw [List.length_append, List.length_singleton] at hlen
      obtain rfl : t = files.length := by omega
      rw [List.getElem?_concat_length] at hg
      cases hg
      rw [Function.update_self, List.getElem?_set_self (List.getElem?_eq_some_iff.1 hs).1]
      exact ⟨_, rfl, hfile.filePath, hfile.id, hnodes, rfl⟩
  · rw [hkept, List.length_append, List.length_singleton, Nat.add_sub_cancel]
    exact hpresent

/-! ## The loop -/

/-- The loaded files of the loop on lists. -/
def loadedFiles (st : FetchState) : List LoadedFile := st.files ++ st.rf.toList

/-- The loop in memory stands where the loop on lists does. -/
structure Fetching.At (env : ℕ → Range.Env) (s : Fetching) (st : FetchState) : Prop where
  holds : ∃ b slots lists, Holds env s.range (loadedFiles st) b slots lists
  oldBuf : s.oldBuf = st.oldBuf

theorem at_start : Fetching.At env ⟨Range.init, [], []⟩ ⟨[], none, []⟩ :=
  ⟨⟨_, _, _, holds_init⟩, rfl⟩

/-- The library has a clear slot and memory for the path of each of the first `n` files. -/
def Provides (env : ℕ → Range.Env) (n : ℕ) : Prop :=
  ∀ k < n, SlotFits env k ∧ (env k).strdup = true

/-- The row is printed as a warning. -/
def Warns (filter : List Text) (row : FetchRow) : Prop :=
  (filter = [] ∨ row.filePath ∈ filter) ∧ row.conflict = true

instance (filter : List Text) (row : FetchRow) : Decidable (Warns filter row) :=
  inferInstanceAs (Decidable (_ ∧ _))

theorem addIt_at (h : Fetching.At env s st) (hmalloc : malloc row.offsetId = true)
    (hstep : FetchState.addIt st row = some st') :
    ∃ s', s.addIt malloc row = .ok s' ∧ s'.At env st' ∧
      s'.warnings = s.warnings ++ if row.conflict then [rangeWarning row] else [] := by
  obtain ⟨⟨b, slots, lists, hholds⟩, hbuf⟩ := h
  unfold FetchState.addIt at hstep
  obtain ⟨rf, hrf, hstep⟩ := Option.bind_eq_some_iff.1 hstep
  obtain ⟨list, hins, rfl⟩ := Option.map_eq_some_iff.1 hstep
  rw [loadedFiles, hrf, Option.toList_some] at hholds
  obtain ⟨hne, r', slots', lists', hrun, hholds'⟩ := hholds.addIt hins
  refine ⟨⟨r', s.oldBuf, if row.conflict then s.warnings ++ [rangeWarning row] else s.warnings⟩, ?_,
    ⟨⟨b, slots', lists', hholds'⟩, hbuf⟩, ?_⟩
  · have hrun' : s.range.rangeFileAddIt (s.range.handed.length - 1) row.node (malloc row.offsetId) =
        .ok r' := by
      rw [hmalloc]
      exact hrun
    rw [Fetching.addIt, if_neg hne, hrun']
    rfl
  · cases row.conflict
    · exact (List.append_nil _).symm
    · rfl

/-- A row adds a file or none. -/
theorem length_fetchStep (hstep : fetchStep filter st row = some st') :
    (loadedFiles st).length ≤ (loadedFiles st').length := by
  have haddIt : ∀ {st₁ : FetchState}, FetchState.addIt st₁ row = some st' →
      (loadedFiles st').length = (loadedFiles st₁).length := by
    intro st₁ h
    obtain ⟨rf, hrf, h⟩ := Option.bind_eq_some_iff.1 h
    obtain ⟨list, -, rfl⟩ := Option.map_eq_some_iff.1 h
    simp only [loadedFiles, hrf, List.length_append, Option.toList_some, List.length_singleton]
  unfold fetchStep at hstep
  split at hstep
  · split at hstep
    · cases hstep
      exact le_rfl
    · split at hstep
      · cases hstep
      · rw [haddIt hstep]
        simp only [loadedFiles, List.length_append]
        omega
  · exact (haddIt hstep).ge

theorem length_foldlM (hrun : rows.foldlM (fetchStep filter) st = some st') :
    (loadedFiles st).length ≤ (loadedFiles st').length := by
  induction rows generalizing st with
  | nil =>
      cases hrun
      exact le_rfl
  | cons row rows ih =>
      rw [List.foldlM_cons] at hrun
      obtain ⟨st₁, hstep, hrest⟩ := Option.bind_eq_some_iff.1 hrun
      exact (length_fetchStep hstep).trans (ih hrest)

/-- **One row**: the loop in memory takes it as the loop on lists does. -/
theorem row_at (h : Fetching.At env s st) (hstep : fetchStep filter st row = some st')
    (hlib : Provides env (loadedFiles st').length) (hmalloc : malloc row.offsetId = true)
    (hselected : st.oldBuf = row.filePath → filter = [] ∨ row.filePath ∈ filter) :
    ∃ s', s.row filter env malloc row = .ok (s', true) ∧ s'.At env st' ∧
      s'.warnings = s.warnings ++ if Warns filter row then [rangeWarning row] else [] := by
  have hwarns : (filter = [] ∨ row.filePath ∈ filter) →
      (if Warns filter row then [rangeWarning row] else []) =
        if row.conflict then [rangeWarning row] else [] := by
    intro hsel
    exact if_congr ⟨And.right, fun hc => ⟨hsel, hc⟩⟩ rfl rfl
  unfold fetchStep at hstep
  rw [Fetching.row, h.oldBuf]
  simp only [List.contains_iff_mem]
  by_cases hbuf : st.oldBuf ≠ row.filePath
  · rw [if_pos hbuf] at hstep
    rw [if_pos hbuf]
    by_cases hskip : filter ≠ [] ∧ row.filePath ∉ filter
    · rw [if_pos hskip] at hstep
      rw [if_pos hskip]
      cases hstep
      refine ⟨s, rfl, h, ?_⟩
      rw [if_neg fun hw => (not_or.2 hskip) hw.1, List.append_nil]
    · rw [if_neg hskip] at hstep
      rw [if_neg hskip]
      have hsel : filter = [] ∨ row.filePath ∈ filter := by
        by_contra hno
        exact hskip (not_or.1 hno)
      split at hstep
      · cases hstep
      · rename_i hshort
        obtain ⟨b, slots, lists, hholds⟩ := h.holds
        -- the new file is the next one, so the library has provided for it
        have hnext : (loadedFiles st).length < (loadedFiles st').length := by
          obtain ⟨rf, hrf, hadd⟩ := Option.bind_eq_some_iff.1 hstep
          obtain ⟨list, -, rfl⟩ := Option.map_eq_some_iff.1 hadd
          simp [loadedFiles]
        obtain ⟨hfits, hdup⟩ := hlib _ hnext
        obtain ⟨r', b', slots', lists', hrun, hlen, hholds'⟩ :=
          hholds.addFile row.filePath row.fileId ⟨Nat.not_lt.1 hshort, hdup⟩ hfits
        have hat : Fetching.At env ⟨r', row.filePath, s.warnings⟩
            ⟨st.files ++ st.rf.toList, some ⟨row.filePath, row.fileId, ⟨[], 0⟩⟩, row.filePath⟩ :=
          ⟨⟨b', slots', lists', hholds'⟩, rfl⟩
        obtain ⟨s', hadd, hat', hout⟩ := addIt_at hat hmalloc hstep
        refine ⟨s', ?_, hat', by rw [hwarns hsel]; exact hout⟩
        simp only [hrun, bind, Except.bind]
        rw [if_neg (by omega), hadd]
  · rw [if_neg hbuf] at hstep
    rw [if_neg hbuf]
    obtain ⟨s', hadd, hat', hout⟩ := addIt_at h hmalloc hstep
    refine ⟨s', by rw [hadd]; rfl, hat', ?_⟩
    rw [hwarns (hselected (not_not.1 hbuf))]
    exact hout

/-- The file that the loop is at has been selected. -/
theorem oldBuf_fetchStep (hstep : fetchStep filter st row = some st') :
    st'.oldBuf = st.oldBuf ∨
      st'.oldBuf = row.filePath ∧ (filter = [] ∨ row.filePath ∈ filter) := by
  have haddIt : ∀ {st₁ : FetchState}, FetchState.addIt st₁ row = some st' →
      st'.oldBuf = st₁.oldBuf := by
    intro st₁ h
    obtain ⟨rf, -, h⟩ := Option.bind_eq_some_iff.1 h
    obtain ⟨list, -, rfl⟩ := Option.map_eq_some_iff.1 h
    rfl
  unfold fetchStep at hstep
  split at hstep
  · split at hstep
    · cases hstep
      exact Or.inl rfl
    · rename_i hskip
      split at hstep
      · cases hstep
      · refine Or.inr ⟨haddIt hstep, ?_⟩
        by_contra hno
        exact hskip (not_or.1 hno)
  · exact Or.inl (haddIt hstep)

/-- **The loop in memory does what the loop on lists does.** -/
theorem fetch_refines (hat : Fetching.At env s st)
    (hrun : rows.foldlM (fetchStep filter) st = some st')
    (hlib : Provides env (loadedFiles st').length)
    (hmalloc : ∀ row ∈ rows, malloc row.offsetId = true) (hnamed : ∀ row ∈ rows, row.filePath ≠ [])
    (hselected : st.oldBuf = [] ∨ filter = [] ∨ st.oldBuf ∈ filter) :
    ∃ s', fetchRows filter env malloc s rows = .ok (s', true) ∧ s'.At env st' ∧
      s'.warnings = s.warnings ++ (rows.filter fun row => Warns filter row).map rangeWarning := by
  induction rows generalizing s st with
  | nil =>
      cases hrun
      exact ⟨s, rfl, hat, by simp⟩
  | cons row rows ih =>
      rw [List.foldlM_cons] at hrun
      obtain ⟨st₁, hstep, hrest⟩ := Option.bind_eq_some_iff.1 hrun
      have hlen := length_foldlM hrest
      obtain ⟨s₁, hrow, hat₁, hout₁⟩ := row_at hat hstep (fun k hk => hlib k (hk.trans_le hlen))
        (hmalloc row List.mem_cons_self) fun hbuf => by
          rw [hbuf] at hselected
          exact hselected.resolve_left (hnamed row List.mem_cons_self)
      have hselected₁ : st₁.oldBuf = [] ∨ filter = [] ∨ st₁.oldBuf ∈ filter := by
        rcases oldBuf_fetchStep hstep with heq | ⟨heq, hsel⟩
        · rw [heq]
          exact hselected
        · rw [heq]
          exact Or.inr hsel
      obtain ⟨s', hloop, hat', hout⟩ := ih hat₁ hrest
        (fun r hr => hmalloc r (List.mem_cons_of_mem _ hr))
        (fun r hr => hnamed r (List.mem_cons_of_mem _ hr)) hselected₁
      refine ⟨s', ?_, hat', ?_⟩
      · rw [fetchRows, hrow]
        exact hloop
      · rw [hout, hout₁, List.append_assoc, List.filter_cons]
        by_cases hw : Warns filter row
        · simp [hw]
        · simp [hw]

/-! ## The thread -/

/-- What the thread has printed of the files, and what it has left allocated. -/
structure Printed.CorrectRange (name : Text) (rows : List FetchRow) (ok : Bool)
    (files : List (Text × List ItNode)) (p : Printed) : Prop where
  warnings : p.warnings = (rows.filter FetchRow.conflict).map rangeWarning
  block : p.block = if ok then rangeBlock name files else []
  left : ∀ f ∈ files, ∃ it, ListIs p.heap it f.2

/-- The thread does with the loop in memory what the loop on lists tells. -/
theorem thdPrange_eq (name : Text) (hrun : rows.foldlM (fetchStep []) ⟨[], none, []⟩ = some st)
    (hnamed : ∀ row ∈ rows, row.filePath ≠ []) {files : List (Text × List ItNode)}
    (hfiles : files = (loadedFiles st).map fun f => (f.filePath, f.list.it)) {fuel : ℕ}
    {junk : Text}
    (ok : Bool) (hjunk : junk.length = 8) (hfuel : ∀ f ∈ files, f.2.length < fuel)
    (hlib : Provides env files.length) (hmalloc : ∀ row ∈ rows, malloc row.offsetId = true) :
    ∃ p, thdPrange fuel name rows ok env malloc junk = .ok p ∧
      p.CorrectRange name rows ok files := by
  subst hfiles
  rw [List.length_map] at hlib
  obtain ⟨s, hloop, hat, hout⟩ := fetch_refines at_start hrun hlib hmalloc hnamed (Or.inl rfl)
  obtain ⟨b, slots, lists, hholds⟩ := hat.holds
  have hlists := hholds.lists_files
  have hprint := doPrintRange_eq hlists name hjunk hfuel
  refine ⟨⟨s.warnings, if ok then rangeBlock name _ else [], s.range.heap⟩, ?_, ?_, rfl, ?_⟩
  · unfold thdPrange
    rw [hloop]
    cases ok
    · rfl
    · simp only [Except.mapError, bind, Except.bind, Bool.and_self, if_true, hprint]
      rfl
  · rw [hout]
    have heq : (fun row => decide (Warns [] row)) = FetchRow.conflict := by
      funext row
      simp [Warns]
    rw [heq]
    rfl
  · intro f hf
    obtain ⟨t, ht, rfl⟩ := List.getElem_of_mem hf
    obtain ⟨s', -, -, hlist⟩ := hlists.2 t _ (List.getElem?_eq_getElem ht)
    exact ⟨s'.it, hlist⟩

/-- The files of a result set, in the order of their paths, with the merge of the rows of each. -/
structure RangeFiles (rows : List FetchRow) (files : List (Text × List ItNode)) : Prop where
  ordered : files.Pairwise fun f g => f.1 < g.1
  path : ∀ path, (∃ f ∈ files, f.1 = path) ↔ ∃ row ∈ rows, row.filePath = path
  merge : ∀ f ∈ files, MergeOf (nodesOf f.1 rows) f.2

theorem rangeFiles_of_exact (hst : st.Exact [] rows) :
    RangeFiles rows ((loadedFiles st).map fun f => (f.filePath, f.list.it)) := by
  refine ⟨List.pairwise_map.2 hst.steady.ordered, fun path => ?_,
    List.forall_mem_map.2 fun f hf => (hst.filled f hf).merge⟩
  simp only [List.mem_map, exists_exists_and_eq_and]
  constructor
  · rintro ⟨f, hf, rfl⟩
    obtain ⟨os, hos⟩ := hst.steady.loaded f hf
    exact hos.path
  · rintro ⟨row, hrow, rfl⟩
    exact hst.found row hrow (Or.inl rfl)

/-- What it prints of them. -/
example : (thdPrange 3 ['r'] [⟨1, ['a'], 1, 0, 2, false⟩, ⟨1, ['a'], 2, 2, 5, true⟩,
    ⟨2, ['b'], 3, 1, 4, false⟩] true (fun _ => ⟨true, .fails⟩) (fun _ => true)
    (List.replicate 8 'x')).toOption.map (fun p => (p.warnings, p.block)) =
    some ([rangeWarning ⟨1, ['a'], 2, 2, 5, true⟩],
      rangeBlock ['r'] [(['a'], [⟨1, 0, 5⟩]), (['b'], [⟨3, 1, 4⟩])]) := by
  decide

end Printing

end Yacet
