import Yacet.IntervalPieces
import Yacet.Lib.CString
import Yacet.Load
import Yacet.RangeArray

/-!
# What a print thread prints and frees (`main.c`, `range.c`, `interval_tree.c`)

A thread of `-p` inserts the rows of its file into a list, prints the list with one more tab for
each level, and frees it.

* `tabOut` — the macro that appends a tab to `tab_buf` for some instructions.
* `Prints` — instructions that print these texts at a depth, and leave `tab_buf` at that depth.
* `thdPfile`, `doPrintRange` — what a thread does with its rows, and with a range.
* `thdPfile_runs_iff` — **the thread runs iff no row bridges two pieces of those before it; it
  prints the pieces and leaves no node allocated.**
* `doPrintRange_eq` — a range is printed with all its files and their lists.
-/

namespace Yacet

open LinkedHeap CString CText Mem

namespace Printing

/-! ## The code -/

/-- What stops a thread; `outside` is an access outside `tab_buf` or the files of the range. -/
inductive PrintFault
  | list (e : Fault)
  | outside
  deriving DecidableEq, Repr

/-- `tab_buf`, and the text of each `printf`. -/
structure Printer where
  tabBuf : Text
  out : List Text
  deriving DecidableEq, Repr

/-- `tab_out(buf, instrs)`. -/
def tabOut (instrs : Printer → Except PrintFault Printer) (s : Printer) :
    Except PrintFault Printer :=
  let len := (cstr nulChar s.tabBuf).length
  if s.tabBuf.length ≤ len + 1 then .error .outside
  else
    (instrs { s with tabBuf := (s.tabBuf.set (len + 1) nulChar).set len '\t' }).map fun s =>
      { s with tabBuf := s.tabBuf.set len nulChar }

/-- `printf` of a text that begins with `tab_buf`. -/
def printf (text : Text → Text) (s : Printer) : Except PrintFault Printer :=
  .ok { s with out := s.out ++ [text (cstr nulChar s.tabBuf)] }

/-- `%sBase: %lu; Bound: %lu\n`. -/
def itLine (n : ItNode) (tab : Text) : Text :=
  tab ++ "Base: ".toList ++ zeroPadded 0 n.base ++ "; Bound: ".toList ++ zeroPadded 0 n.bound ++
    ['\n']

/-- `%sFile name: %s\n`. -/
def fileLine (filePath tab : Text) : Text := tab ++ "File name: ".toList ++ filePath ++ ['\n']

/-- `%sRange name: %s\n`. -/
def rangeLine (name tab : Text) : Text := tab ++ "Range name: ".toList ++ name ++ ['\n']

def printIt (n : ItNode) : Printer → Except PrintFault Printer := tabOut (printf (itLine n))

def printFile (fuel : ℕ) (h : Heap ItNode) (filePath : Text) (it : Option ℕ) :
    Printer → Except PrintFault Printer :=
  tabOut fun s => printf (fileLine filePath) s >>= forEach .list (fun s n => printIt n s) fuel h it

/-- `print_range`; `files[i]` is read for each `i` below `num_files`. -/
def printRange (fuel : ℕ) (r : Range) (name : Text) : Printer → Except PrintFault Printer :=
  tabOut fun s => printf (rangeLine name) s >>= fun s =>
    (List.range r.numFiles).foldlM (fun s i =>
      match r.file i with
      | none => .error .outside
      | some f => printFile fuel r.heap f.filePath f.it s) s

/-- The lines of `do_print_file` and `do_print_range` between the lock and the unlock; `junk` is
what stands in `tab_buf` before. -/
def withTabBuf (junk : Text) (print : Printer → Except PrintFault Printer) :
    Except PrintFault (List Text) :=
  (print ⟨junk.set 0 nulChar, []⟩).map Printer.out

def doPrintFile (fuel : ℕ) (h : Heap ItNode) (filePath : Text) (it : Option ℕ) (junk : Text) :
    Except PrintFault (List Text) :=
  withTabBuf junk (printFile fuel h filePath it)

def doPrintRange (fuel : ℕ) (r : Range) (name junk : Text) : Except PrintFault (List Text) :=
  withTabBuf junk (printRange fuel r name)

/-- The list of `query_select_file_intervals`, and the warnings that it has printed. -/
structure Fetched where
  heap : Heap ItNode
  it : Option ℕ
  warnings : List Text

/-- `warning: Interval [%lu, %lu) has been modified and might be inaccurate\n`. -/
def warning (row : OffsetRow) : Text :=
  "warning: Interval [".toList ++ zeroPadded 0 row.base ++ ", ".toList ++ zeroPadded 0 row.bound ++
    ") has been modified and might be inaccurate".toList ++ ['\n']

/-- A row of the fetch loop, with `it_insert`. -/
def fetchInterval (fuel : ℕ) (s : Fetched) (row : OffsetRow) : Except Fault Fetched :=
  let warnings := if row.conflict then s.warnings ++ [warning row] else s.warnings
  (Mem.itInsertNew fuel row.node s.heap s.it).map fun r => ⟨r.1, r.2.1, warnings⟩

/-- What a thread prints outside the lock and within it, and the nodes that it leaves. -/
structure Printed where
  warnings : List Text
  block : List Text
  heap : Heap ItNode

/-- `it_deinit`. -/
def itDeinit (fuel : ℕ) (h : Heap ItNode) (it : Option ℕ) : Except Fault (Heap ItNode) :=
    freeAll fuel h it

/-- `thd_pfile` from `it_init` on, where the file is known; if `ok` is false, a statement has failed
behind the rows. -/
def thdPfile (fuel : ℕ) (name : Text) (rows : List OffsetRow) (ok : Bool) (junk : Text) :
    Except PrintFault Printed := do
  let s ← (rows.foldlM (fetchInterval fuel) ⟨Heap.empty, none, []⟩).mapError .list
  let block ← if ok then doPrintFile fuel s.heap name s.it junk else .ok []
  let h ← (itDeinit fuel s.heap s.it).mapError .list
  .ok ⟨s.warnings, block, h⟩

/-! ## The depth of `tab_buf` -/

def tabs (d : ℕ) : Text := List.replicate d '\t'

/-- `char tab_buf[8]` holds `d` tabs. -/
def Depth (d : ℕ) (buf : Text) : Prop := buf.length = 8 ∧ ∃ rest, buf = tabs d ++ nulChar :: rest

/-- At depth `d` the instructions print the texts, and they leave `tab_buf` at that depth. -/
def Prints (d : ℕ) (instrs : Printer → Except PrintFault Printer) (texts : List Text) : Prop :=
  ∀ s, Depth d s.tabBuf → ∃ buf, instrs s = .ok ⟨buf, s.out ++ texts⟩ ∧ Depth d buf

variable {d : ℕ} {buf : Text} {instrs instrs' : Printer → Except PrintFault Printer}
  {texts texts' : List Text}

theorem length_tabs (d : ℕ) : (tabs d).length = d := List.length_replicate

theorem Depth.cstr (h : Depth d buf) : cstr nulChar buf = tabs d := by
  obtain ⟨-, rest, rfl⟩ := h
  unfold CString.cstr
  rw [List.takeWhile_append_of_pos]
  · simp
  · intro c hc
    rw [List.eq_of_mem_replicate hc]
    decide

theorem depth_start {junk : Text} (h : junk.length = 8) : Depth 0 (junk.set 0 nulChar) := by
  refine ⟨by rw [List.length_set, h], junk.tail, ?_⟩
  cases junk with
  | nil => cases h
  | cons c junk => rfl

/-- One more tab. -/
theorem Depth.push (h : Depth d buf) (hd : d + 2 ≤ 8) :
    Depth (d + 1) ((buf.set (d + 1) nulChar).set d '\t') := by
  obtain ⟨hlen, rest, rfl⟩ := h
  refine ⟨by rw [List.length_set, List.length_set, hlen], rest.tail, ?_⟩
  cases rest with
  | nil =>
      rw [List.length_append, length_tabs] at hlen
      simp at hlen
      omega
  | cons c rest =>
      rw [List.set_append_right _ _ (by rw [length_tabs]; omega),
        List.set_append_right _ _ (by rw [length_tabs]), length_tabs, Nat.sub_self,
        Nat.add_sub_cancel_left]
      rw [tabs, tabs, List.replicate_succ']
      simp

/-- The tab is taken back. -/
theorem Depth.pop (h : Depth (d + 1) buf) : Depth d (buf.set d nulChar) := by
  obtain ⟨hlen, rest, rfl⟩ := h
  refine ⟨by rw [List.length_set, hlen], nulChar :: rest, ?_⟩
  have hsplit : tabs (d + 1) ++ nulChar :: rest = tabs d ++ '\t' :: nulChar :: rest := by
    rw [tabs, tabs, List.replicate_succ']
    simp
  rw [hsplit, List.set_append_right _ _ (by rw [length_tabs]), length_tabs, Nat.sub_self]
  rfl

theorem prints_printf (text : Text → Text) : Prints d (printf text) [text (tabs d)] := by
  intro s hs
  refine ⟨s.tabBuf, ?_, hs⟩
  rw [printf, hs.cstr]

theorem Prints.bind (h : Prints d instrs texts) (h' : Prints d instrs' texts') :
    Prints d (fun s => instrs s >>= instrs') (texts ++ texts') := by
  intro s hs
  obtain ⟨buf, hrun, hbuf⟩ := h s hs
  obtain ⟨buf', hrun', hbuf'⟩ := h' ⟨buf, s.out ++ texts⟩ hbuf
  refine ⟨buf', ?_, hbuf'⟩
  show instrs s >>= instrs' = _
  rw [hrun, ← List.append_assoc]
  exact hrun'

theorem Prints.foldlM {α : Type} {act : Printer → α → Except PrintFault Printer} {g : α → List Text}
    {l : List α} (h : ∀ x ∈ l, Prints d (fun s => act s x) (g x)) :
    Prints d (fun s => l.foldlM act s) (l.flatMap g) := by
  induction l with
  | nil => exact fun s hs => ⟨s.tabBuf, by rw [List.flatMap_nil, List.append_nil]; rfl, hs⟩
  | cons x l ih =>
      have hrest := ih fun y hy => h y (List.mem_cons_of_mem _ hy)
      rw [List.flatMap_cons]
      exact (h x List.mem_cons_self).bind hrest

/-- **`tab_out` stays within `tab_buf` and gives it back as it was.** -/
theorem Prints.tabOut (h : Prints (d + 1) instrs texts) (hd : d + 2 ≤ 8) :
    Prints d (tabOut instrs) texts := by
  intro s hs
  obtain ⟨buf, hrun, hbuf⟩ :=
    h { s with tabBuf := (s.tabBuf.set (d + 1) nulChar).set d '\t' } (hs.push hd)
  refine ⟨buf.set d nulChar, ?_, hbuf.pop⟩
  unfold Printing.tabOut
  rw [hs.cstr, length_tabs]
  simp only
  rw [if_neg (by rw [hs.1]; omega), hrun]
  rfl

/-! ## The blocks -/

/-- The lines of a file whose list is `l`. -/
def fileBlock (d : ℕ) (filePath : Text) (l : List ItNode) : List Text :=
  fileLine filePath (tabs (d + 1)) :: l.map fun n => itLine n (tabs (d + 2))

/-- The lines of a range with these files and lists. -/
def rangeBlock (name : Text) (files : List (Text × List ItNode)) : List Text :=
  rangeLine name (tabs 1) :: files.flatMap fun f => fileBlock 1 f.1 f.2

variable {h : Heap ItNode} {it : Option ℕ} {ns : List (ℕ × ItNode)} {fuel : ℕ}

theorem prints_printIt (n : ItNode) (hd : d + 2 ≤ 8) :
    Prints d (printIt n) [itLine n (tabs (d + 1))] :=
  (prints_printf (itLine n)).tabOut hd

theorem prints_printFile (filePath : Text) (hs : Seg h it ns none) (hfuel : ns.length < fuel)
    (hd : d + 3 ≤ 8) :
    Prints d (printFile fuel h filePath it) (fileBlock d filePath (nodes ns)) := by
  have hwalk : forEach PrintFault.list (fun s n => printIt n s) fuel h it =
      fun s => (nodes ns).foldlM (fun s n => printIt n s) s := by
    funext s
    exact forEach_of_seg hs hfuel
  have hlines : Prints (d + 1) (fun s => (nodes ns).foldlM (fun s n => printIt n s) s)
      ((nodes ns).flatMap fun n => [itLine n (tabs (d + 2))]) := by
    apply Prints.foldlM
    exact fun n _ => prints_printIt n (by omega)
  rw [← List.map_eq_flatMap] at hlines
  unfold printFile
  rw [hwalk]
  exact ((prints_printf (fileLine filePath)).bind hlines).tabOut (by omega)

theorem withTabBuf_eq {junk : Text} (hjunk : junk.length = 8) (hp : Prints 0 instrs texts) :
    withTabBuf junk instrs = .ok texts := by
  obtain ⟨buf, hrun, -⟩ := hp ⟨junk.set 0 nulChar, []⟩ (depth_start hjunk)
  rw [withTabBuf, hrun]
  rfl

theorem doPrintFile_eq {junk : Text} (filePath : Text) (hjunk : junk.length = 8)
    (hs : Seg h it ns none)
    (hfuel : ns.length < fuel) :
    doPrintFile fuel h filePath it junk = .ok (fileBlock 0 filePath (nodes ns)) :=
  withTabBuf_eq hjunk (prints_printFile filePath hs hfuel (by omega))

/-! ## The nodes of a list are all that is allocated -/

theorem bind_ok {ε α β : Type} {x : Except ε α} {k : α → Except ε β} {b : β}
    (hr : x >>= k = .ok b) :
    ∃ a, x = .ok a ∧ k a = .ok b := by
  cases x with
  | error e => cases hr
  | ok a => exact ⟨a, rfl, hr⟩

/-- The loop allocates nothing. -/
theorem subset_itLoop {f : ItNode} {h' : Heap ItNode} {pf save p pf' save' : Option ℕ}
    (hr : itLoop f fuel h pf save p = .ok (h', pf', save')) : h'.Subset h ∧ h'.brk = h.brk := by
  induction fuel generalizing h pf save p with
  | zero => cases hr
  | succ fuel ih =>
      cases p with
      | none =>
          cases hr
          exact ⟨Heap.Subset.refl _, rfl⟩
      | some a =>
        rw [itLoop] at hr
        obtain ⟨c, -, hr⟩ := bind_ok hr
        cases pf with
        | none =>
            simp only at hr
            split at hr
            · obtain ⟨h₁, hw, hr⟩ := bind_ok hr
              obtain ⟨hsub, hbrk⟩ := Heap.subset_of_write hw
              obtain ⟨hsub', hbrk'⟩ := ih hr
              exact ⟨hsub'.trans hsub, hbrk'.trans hbrk⟩
            · split at hr
              · exact ih hr
              · cases hr
                exact ⟨Heap.Subset.refl _, rfl⟩
        | some b =>
            obtain ⟨cb, -, hr⟩ := bind_ok hr
            split at hr
            · obtain ⟨h₁, hw, hr⟩ := bind_ok hr
              obtain ⟨h₂, hf, hr⟩ := bind_ok hr
              obtain ⟨cb', -, hr⟩ := bind_ok hr
              obtain ⟨hsub, hbrk⟩ := Heap.subset_of_write hw
              obtain ⟨hsub', hbrk'⟩ := Heap.subset_of_free hf
              obtain ⟨hsub'', hbrk''⟩ := ih hr
              exact ⟨hsub''.trans (hsub'.trans hsub), hbrk''.trans (hbrk'.trans hbrk)⟩
            · split at hr
              · exact ih hr
              · cases hr
                exact ⟨Heap.Subset.refl _, rfl⟩

/-- `it_insert_new` allocates at most the new node. -/
theorem live_itInsertNew {f : ItNode} {h' : Heap ItNode} {it' : Option ℕ} {new : Bool}
    (hr : Mem.itInsertNew fuel f h it = .ok (h', it', new)) :
    (∀ a, h'.cells a ≠ none → h.cells a ≠ none ∨ new = true ∧ a = h.brk) ∧
      h'.brk = if new then h.brk + 1 else h.brk := by
  unfold Mem.itInsertNew at hr
  obtain ⟨⟨h₁, pf, save⟩, hloop, hr⟩ := bind_ok hr
  obtain ⟨hsub, hbrk⟩ := subset_itLoop hloop
  have hmalloc : ∀ {c : Cell ItNode} {a : ℕ}, (h₁.malloc c).1.cells a ≠ none →
      h.cells a ≠ none ∨ True ∧ a = h.brk := by
    intro c a ha
    by_cases heq : a = h₁.brk
    · exact Or.inr ⟨trivial, heq.trans hbrk⟩
    · have ha' : Function.update h₁.cells h₁.brk (some c) a ≠ none := ha
      rw [Function.update_of_ne heq] at ha'
      exact Or.inl (hsub a ha')
  have hgrown : ∀ {c : Cell ItNode}, (h₁.malloc c).1.brk = h.brk + 1 := by
    intro c
    show h₁.brk + 1 = _
    rw [hbrk]
  simp only at hr
  split at hr
  · cases hr
    exact ⟨fun a ha => Or.inl (hsub a ha), hbrk⟩
  · cases hr
    exact ⟨fun a ha => (hmalloc ha).imp_right fun ⟨_, ha⟩ => ⟨rfl, ha⟩, hgrown⟩
  · obtain ⟨c, -, hr⟩ := bind_ok hr
    obtain ⟨h₂, hw, hr⟩ := bind_ok hr
    obtain ⟨hsub', hbrk'⟩ := Heap.subset_of_write hw
    cases hr
    exact ⟨fun a ha => (hmalloc (hsub' a ha)).imp_right fun ⟨_, ha⟩ => ⟨rfl, ha⟩,
      hbrk'.trans hgrown⟩

/-- The list behind `it`, and nothing else is allocated. -/
structure Only (h : Heap ItNode) (it : Option ℕ) (ns : List (ℕ × ItNode)) : Prop where
  rep : Rep h it ns
  live : ∀ a, h.cells a ≠ none → a ∈ addrs ns

theorem Only.insert {f : ItNode} {new : Bool} {l : List ItNode} (ho : Only h it ns)
    (hfuel : ns.length < fuel)
    (hins : Yacet.itInsertNew f (nodes ns) = some (new, l)) :
    ∃ h' it' ns', Mem.itInsertNew fuel f h it = .ok (h', it', new) ∧ Only h' it' ns' ∧
      nodes ns' = l := by
  obtain ⟨h', it', ns', hrun, hrep, hns, hframe⟩ := itInsertNew_ok ho.rep hfuel hins
  obtain ⟨hlive, hbrk⟩ := live_itInsertNew hrun
  refine ⟨h', it', ns', hrun, ⟨hrep, fun a ha => ?_⟩, hns⟩
  -- the old addresses and the new one are as many as those of the new list
  let all := if new then h.brk :: addrs ns else addrs ns
  have hsub : addrs ns' ⊆ all := by
    intro b hb
    have hlt := hrep.alloc b hb
    rcases hframe.addrs b hb with hold | hge
    · show b ∈ ite _ _ _
      split
      · exact List.mem_cons_of_mem _ hold
      · exact hold
    · show b ∈ ite _ _ _
      rw [hbrk] at hlt
      split at hlt
      · rename_i hnew
        rw [if_pos hnew, show b = h.brk by omega]
        exact List.mem_cons_self
      · omega
  have hlen : all.length ≤ (addrs ns').length := by
    have hcount := itInsertNew_length hins
    rw [← hns, nodes, List.length_map, List.length_map] at hcount
    rw [addrs, List.length_map, hcount]
    show (ite _ _ _ : List ℕ).length ≤ _
    split <;> simp
  have hperm := (hrep.nodup.subperm hsub).perm_of_length_le hlen
  rw [hperm.mem_iff]
  show a ∈ ite _ _ _
  rcases hlive a ha with hold | ⟨hnew, rfl⟩
  · split
    · exact List.mem_cons_of_mem _ (ho.live a hold)
    · exact ho.live a hold
  · rw [if_pos hnew]
    exact List.mem_cons_self

/-! ## The thread -/

/-- The list of the rows `rows`, and their warnings. -/
structure Fetched.Holds (rows : List OffsetRow) (s : Fetched) (ns : List (ℕ × ItNode)) : Prop where
  only : Only s.heap s.it ns
  pieces : Pieces (rows.map OffsetRow.node) (nodes ns)
  length_le : ns.length ≤ rows.length
  warnings : s.warnings = (rows.filter OffsetRow.conflict).map warning

variable {rows : List OffsetRow} {row : OffsetRow} {s : Fetched}

theorem holds_start : Fetched.Holds [] ⟨Heap.empty, none, []⟩ [] where
  only := ⟨⟨rfl, List.nodup_nil, by simp⟩, fun a ha => absurd rfl ha⟩
  pieces := pieces_nil
  length_le := le_rfl
  warnings := rfl

/-- One row: it is inserted, or the thread goes on from a freed node. -/
theorem Fetched.Holds.step (hs : s.Holds rows ns) (hrow : row.base ≤ row.bound)
    (hfuel : rows.length < fuel) :
    (¬ Bridges (rows.map OffsetRow.node) row.node → ∃ s' ns', fetchInterval fuel s row = .ok s' ∧
      s'.Holds (rows ++ [row]) ns') ∧
    (Bridges (rows.map OffsetRow.node) row.node → ∃ e, fetchInterval fuel s row = .error e) := by
  have hsome := hs.pieces.isSome_iff (f := row.node) hrow
  constructor
  · intro hno
    obtain ⟨⟨new, l⟩, hins⟩ := Option.isSome_iff_exists.1 (hsome.2 hno)
    have hlen := itInsertNew_length hins
    obtain ⟨h', it', ns', hrun, honly, rfl⟩ := hs.only.insert (hs.length_le.trans_lt hfuel) hins
    refine ⟨_, ns', by rw [fetchInterval, hrun]; rfl, honly, ?_, ?_, ?_⟩
    · rw [List.map_append]
      exact hs.pieces.insert hrow hins
    · have hle := hs.length_le
      rw [nodes, List.length_map, List.length_map] at hlen
      rw [List.length_append, List.length_singleton, hlen]
      split <;> omega
    · show (if row.conflict then s.warnings ++ [warning row] else s.warnings) = _
      rw [hs.warnings, List.filter_append, List.map_append]
      cases hc : row.conflict
      · simp [hc]
      · simp [hc]
  · intro hbridge
    have hnone : Yacet.itInsertNew row.node (nodes ns) = none := by
      rw [← Option.not_isSome_iff_eq_none]
      exact fun hins => hsome.1 hins hbridge
    obtain ⟨e, he⟩ := itInsertNew_fault fuel hs.only.rep hnone
    exact ⟨e, by rw [fetchInterval, he]; rfl⟩

theorem fetch_append (s : Fetched) : (rows ++ [row]).foldlM (fetchInterval fuel) s =
    rows.foldlM (fetchInterval fuel) s >>= fun s => fetchInterval fuel s row := by
  simp only [List.foldlM_append, List.foldlM_cons, List.foldlM_nil, bind_pure]

/-- All rows. -/
theorem fetch_run (hrows : ∀ r ∈ rows, r.base ≤ r.bound) (hfuel : rows.length < fuel) :
    (NoBridge (rows.map OffsetRow.node) → ∃ s ns,
      rows.foldlM (fetchInterval fuel) ⟨Heap.empty, none, []⟩ = .ok s ∧ s.Holds rows ns) ∧
    (¬ NoBridge (rows.map OffsetRow.node) → ∃ e,
      rows.foldlM (fetchInterval fuel) ⟨Heap.empty, none, []⟩ = .error e) := by
  induction rows using List.reverseRecOn with
  | nil => exact ⟨fun _ => ⟨_, [], rfl, holds_start⟩, fun hno => absurd eachAfter_nil hno⟩
  | append_singleton rows row ih =>
      rw [List.length_append, List.length_singleton] at hfuel
      have hrow := hrows row (List.mem_append_right _ (List.mem_singleton_self row))
      obtain ⟨hok, herr⟩ := ih (fun r hr => hrows r (List.mem_append_left _ hr)) (by omega)
      rw [List.map_append, List.map_singleton, NoBridge, eachAfter_append, ← NoBridge, fetch_append]
      by_cases hno : NoBridge (rows.map OffsetRow.node)
      · obtain ⟨s, ns, hrun, hs⟩ := hok hno
        have hfuel' : rows.length < fuel := by omega
        obtain ⟨hstep, hfault⟩ := hs.step hrow hfuel'
        rw [hrun]
        refine ⟨fun hall => hstep hall.2, fun hall => hfault ?_⟩
        by_contra hb
        exact hall ⟨hno, hb⟩
      · obtain ⟨e, he⟩ := herr hno
        rw [he]
        exact ⟨fun hall => absurd hall.1 hno, fun _ => ⟨e, rfl⟩⟩

/-- What a thread that runs has printed, and that every node has been freed. -/
structure Printed.Correct (name : Text) (rows : List OffsetRow) (ok : Bool) (r : Printed) :
    Prop where
  warnings : r.warnings = (rows.filter OffsetRow.conflict).map warning
  freed : ∀ a, r.heap.cells a = none
  block : ∃ l, Pieces (rows.map OffsetRow.node) l ∧ r.block = if ok then fileBlock 0 name l else []

theorem thdPfile_ok {name junk : Text} {ok : Bool} (hrows : ∀ r ∈ rows, r.base ≤ r.bound)
    (hjunk : junk.length = 8) (hfuel : rows.length < fuel)
    (hno : NoBridge (rows.map OffsetRow.node)) :
    ∃ r, thdPfile fuel name rows ok junk = .ok r ∧ r.Correct name rows ok := by
  obtain ⟨s, ns, hfetch, hs⟩ := (fetch_run hrows hfuel).1 hno
  have hlen := hs.length_le.trans_lt hfuel
  have hprint := doPrintFile_eq name hjunk hs.only.rep.seg hlen
  obtain ⟨h', hfree, hcells⟩ := freeAll_of_seg hs.only.rep.seg hs.only.rep.nodup hlen
  have hrun : thdPfile fuel name rows ok junk =
      .ok ⟨s.warnings, if ok then fileBlock 0 name (nodes ns) else [], h'⟩ := by
    unfold thdPfile
    rw [hfetch]
    cases ok
    · simp [Except.mapError, bind, Except.bind, itDeinit, hfree]
    · simp [Except.mapError, bind, Except.bind, itDeinit, hfree, hprint]
  refine ⟨_, hrun, hs.warnings, fun a => ?_, nodes ns, hs.pieces, rfl⟩
  rw [hcells a]
  by_cases ha : a ∈ addrs ns
  · rw [if_pos ha]
  · rw [if_neg ha]
    by_contra hlive
    exact ha (hs.only.live a hlive)

theorem thdPfile_error {name junk : Text} {ok : Bool} (hrows : ∀ r ∈ rows, r.base ≤ r.bound)
    (hfuel : rows.length < fuel) (hno : ¬ NoBridge (rows.map OffsetRow.node)) :
    ∃ e, thdPfile fuel name rows ok junk = .error e := by
  obtain ⟨e, he⟩ := (fetch_run hrows hfuel).2 hno
  exact ⟨.list e, by rw [thdPfile, he]; rfl⟩

/-- A thread that runs is correct. -/
theorem correct_of_thdPfile {name junk : Text} {ok : Bool} {r : Printed}
    (hrows : ∀ r ∈ rows, r.base ≤ r.bound)
    (hjunk : junk.length = 8) (hfuel : rows.length < fuel)
    (hr : thdPfile fuel name rows ok junk = .ok r) :
    NoBridge (rows.map OffsetRow.node) ∧ r.Correct name rows ok := by
  by_cases hno : NoBridge (rows.map OffsetRow.node)
  · obtain ⟨r', hr', hcorrect⟩ := thdPfile_ok hrows hjunk hfuel hno
    rw [hr] at hr'
    cases hr'
    exact ⟨hno, hcorrect⟩
  · obtain ⟨e, he⟩ := thdPfile_error hrows hfuel hno
    rw [hr] at he
    cases he

/-- The third row bridges the first two: the thread reads a node that it has freed. -/
example : (thdPfile 4 ['a'] [⟨1, 1, 1, 0, 2, false⟩, ⟨2, 1, 2, 4, 6, false⟩,
      ⟨3, 1, 3, 1, 5, false⟩] true
    (List.replicate 8 'x')).isOk = false := by decide

/-! ## A range -/

/-- The files of the range and their lists. -/
def Lists (r : Range) (files : List (Text × List ItNode)) : Prop :=
  r.numFiles = files.length ∧ ∀ t f, files[t]? = some f →
    ∃ s, r.file t = some s ∧ s.filePath = f.1 ∧ ListIs r.heap s.it f.2

/-- The loop of `print_range` comes to each file in turn. -/
theorem prints_files {r : Range} {files : List (Text × List ItNode)} (hlists : Lists r files)
    (hfuel : ∀ f ∈ files, f.2.length < fuel) :
    Prints 1 (fun s => (List.range r.numFiles).foldlM (fun s i =>
      match r.file i with
      | none => .error .outside
      | some f => printFile fuel r.heap f.filePath f.it s) s)
      (files.flatMap fun f => fileBlock 1 f.1 f.2) := by
  obtain ⟨hcount, hfile⟩ := hlists
  have heach : ∀ t ∈ List.range r.numFiles, Prints 1 (fun s =>
      match r.file t with
      | none => .error .outside
      | some f => printFile fuel r.heap f.filePath f.it s)
      ((files[t]?.map fun f => fileBlock 1 f.1 f.2).getD []) := by
    intro t ht
    rw [hcount, List.mem_range] at ht
    have hget : files[t]? = some files[t] := List.getElem?_eq_getElem ht
    obtain ⟨s, hs, hpath, ns, hseg, hns⟩ := hfile t _ hget
    have hlen : ns.length < fuel := by
      have hlt := hfuel files[t] (List.getElem_mem ht)
      rwa [← hns, nodes, List.length_map] at hlt
    have hprint := prints_printFile (d := 1) s.filePath hseg hlen (by omega)
    rw [hpath, hns] at hprint
    simp only [hs, hget, hpath, Option.map_some, Option.getD_some]
    exact hprint
  have hall := Prints.foldlM heach
  have hblocks : ((List.range r.numFiles).flatMap fun t =>
      (files[t]?.map fun f => fileBlock 1 f.1 f.2).getD []) =
      files.flatMap fun f => fileBlock 1 f.1 f.2 := by
    rw [hcount, List.flatMap_def, List.flatMap_def]
    congr 1
    apply List.ext_getElem
    · simp
    · intro t ht ht'
      simp at ht
      simp [ht]
  rw [← hblocks]
  exact hall

/-- A range is printed with its files in order, and the list of each. -/
theorem doPrintRange_eq {r : Range} {files : List (Text × List ItNode)} (hlists : Lists r files)
    (name : Text) {junk : Text} (hjunk : junk.length = 8) (hfuel : ∀ f ∈ files, f.2.length < fuel) :
    doPrintRange fuel r name junk = .ok (rangeBlock name files) := by
  apply withTabBuf_eq hjunk
  have hfiles := prints_files hlists hfuel
  exact ((prints_printf (rangeLine name)).bind hfiles).tabOut (by omega)

end Printing

end Yacet
