import Yacet.IntervalUnion
import Yacet.Lib.LinkedHeap

/-!
# `it_insert_new` on the heap

`Mem.itInsertNew` follows the pointers of `it_insert_new`: `p_f` is the local `f` or a list node,
`save` the list head or a list node, and the absorb branch relinks, frees and goes on from the
relinked node.  Reading a freed node is a fault.

* `itInsertNew_ok` / `itInsertNew_fault` — on a well-formed list the run is the list operation
  `Yacet.itInsertNew` where that succeeds; where it answers `none` (absorb), **every** run faults.
* `Holds` — what a sequence of `range_file_add_it` calls is meant to leave: the sorted union of the
  intervals, with its length in `num_it`.
* `rangeFileAddIt_sound_iff` — the calls terminate without fault in such a state iff no interval
  bridges two separate pieces of what was inserted before it.
-/

namespace Yacet

open LinkedHeap

namespace Mem

/-! ## The code -/

/-- `it_foreach(it, p_itn)` of `it_insert_new`.  `pf = none` is `p_f == &f`, `save = none` is
`save == it`; the last argument is `p_itn`. -/
def itLoop (f : ItNode) : ℕ → Heap ItNode → Option ℕ → Option ℕ → Option ℕ →
    Except Fault (Heap ItNode × Option ℕ × Option ℕ)
  | 0, _, _, _, _ => .error .outOfFuel
  | _ + 1, h, pf, save, none => .ok (h, pf, save)
  | fuel + 1, h, pf, save, some a => do
    let c ← h.read a
    match pf with
    | none =>
      if itIntersect f c.node then
        let h ← h.write a { c with node := c.node.extend f }
        itLoop f fuel h (some a) save c.next
      else if c.node.base < f.base then itLoop f fuel h none (some a) c.next
      else .ok (h, none, save)
    | some b =>
      let cb ← h.read b
      if itIntersect cb.node c.node then
        -- p_f->ls.next = &p_itn->ls; …; free(p_itn); p_itn = p_f
        let bound := if cb.node.bound < c.node.bound then c.node.bound else cb.node.bound
        let h ← h.write b ⟨some a, { cb.node with bound := bound }⟩
        let h ← h.free a
        let cb ← h.read b
        itLoop f fuel h (some b) save cb.next
      else if c.node.base < cb.node.base then itLoop f fuel h (some b) (some a) c.next
      else .ok (h, some b, save)

/-- `it_insert_new` on the list with first node `it`: the heap, the new first node and `*new`. -/
def itInsertNew (fuel : ℕ) (f : ItNode) (h : Heap ItNode) (it : Option ℕ) :
    Except Fault (Heap ItNode × Option ℕ × Bool) := do
  let (h, pf, save) ← itLoop f fuel h none none it
  match pf, save with
  | some _, _ => .ok (h, it, false)
  | none, none =>
    let (h, a) := h.malloc ⟨it, f⟩
    .ok (h, some a, true)
  | none, some s => do
    let c ← h.read s
    let (h, a) := h.malloc ⟨c.next, f⟩
    let h ← h.write s { c with next := some a }
    .ok (h, it, true)

/-- `struct range_file`: the list head and the number of intervals. -/
structure RangeFile where
  it : Option ℕ
  numIt : ℕ
  deriving DecidableEq, Repr

/-- `range_file_add_it`. -/
def rangeFileAddIt (fuel : ℕ) (s : Heap ItNode × RangeFile) (f : ItNode) :
    Except Fault (Heap ItNode × RangeFile) := do
  let (h, it, new) ← itInsertNew fuel f s.1 s.2.it
  .ok (h, ⟨it, if new then s.2.numIt + 1 else s.2.numIt⟩)

/-- A file right after `range_add_file` whose slot is empty. -/
def start : Heap ItNode × RangeFile := (Heap.empty, ⟨none, 0⟩)

/-- A sequence of `range_file_add_it` calls. -/
def addAll (fuel : ℕ) (ivs : List ItNode) (s : Heap ItNode × RangeFile) :
    Except Fault (Heap ItNode × RangeFile) :=
  ivs.foldlM (rangeFileAddIt fuel) s

/-! ## One insertion -/

/-- The list with first node `it` consists of the cells `ns`, at distinct allocated addresses. -/
structure Rep (h : Heap ItNode) (it : Option ℕ) (ns : List (ℕ × ItNode)) : Prop where
  seg : Seg h it ns none
  nodup : (addrs ns).Nodup
  alloc : ∀ a ∈ addrs ns, a < h.brk

/-- From the cells `ns` the insertion has made the cells `ns'`, without a change elsewhere. -/
structure Framed (h : Heap ItNode) (ns : List (ℕ × ItNode)) (h' : Heap ItNode)
    (ns' : List (ℕ × ItNode)) : Prop where
  brk : h.brk ≤ h'.brk
  addrs : ∀ a ∈ addrs ns', a ∈ addrs ns ∨ h.brk ≤ a
  cells : ∀ a, a ∉ LinkedHeap.addrs ns → a < h.brk → h'.cells a = h.cells a

variable {f : ItNode} {h : Heap ItNode} {p it save : Option ℕ} {ns : List (ℕ × ItNode)} {fuel : ℕ}

/-- A list elsewhere is not disturbed. -/
theorem Rep.frame {h' : Heap ItNode} {ns' ms : List (ℕ × ItNode)} (hr : Rep h it ms)
    (hf : Framed h ns h' ns') (hdisj : ∀ a ∈ addrs ms, a ∉ addrs ns) : Rep h' it ms where
  seg := hr.seg.frame fun a ha => hf.cells a (hdisj a ha) (hr.alloc a ha)
  nodup := hr.nodup
  alloc a ha := (hr.alloc a ha).trans_le hf.brk

theorem Framed.disjoint {h' : Heap ItNode} {ns' ms : List (ℕ × ItNode)} (hf : Framed h ns h' ns')
    (hr : Rep h it ms) (hdisj : ∀ a ∈ LinkedHeap.addrs ms, a ∉ LinkedHeap.addrs ns) :
    ∀ a ∈ LinkedHeap.addrs ms, a ∉ LinkedHeap.addrs ns' := by
  intro a ha ha'
  rcases hf.addrs a ha' with hold | hnew
  · exact hdisj a ha hold
  · exact absurd (hr.alloc a ha) (Nat.not_lt.2 hnew)

/-- The loop behind the extended node `b`: it ends, or the absorb branch faults. -/
theorem itLoop_rest {b : ℕ} {nx : Option ℕ} {nb : ItNode} (hb : h.cells b = some ⟨nx, nb⟩)
    (hs : Seg h p ns none) (hnb : b ∉ addrs ns) :
    (itRest nb (nodes ns) = true → ns.length < fuel →
      ∃ save', itLoop f fuel h (some b) save p = .ok (h, some b, save')) ∧
    (itRest nb (nodes ns) = false → ∃ e, itLoop f fuel h (some b) save p = .error e) := by
  induction ns generalizing p save fuel with
  | nil =>
      cases hs
      refine ⟨fun _ hf => ?_, fun hr => by simp [itRest] at hr⟩
      obtain ⟨k, rfl⟩ : ∃ k, fuel = k + 1 := ⟨fuel - 1, by simp at hf; omega⟩
      exact ⟨save, rfl⟩
  | cons n ns ih =>
      obtain ⟨a, v⟩ := n
      obtain ⟨rfl, na, hcell, hs⟩ := hs
      simp only [addrs, List.map_cons, List.mem_cons, not_or] at hnb
      cases fuel with
      | zero => exact ⟨fun _ hf => absurd hf (Nat.not_lt_zero _), fun _ => ⟨_, rfl⟩⟩
      | succ fuel =>
        have hstep : itLoop f (fuel + 1) h (some b) save (some a) =
            if itIntersect nb v then do
              let bound := if nb.bound < v.bound then v.bound else nb.bound
              let h ← h.write b ⟨some a, { nb with bound := bound }⟩
              let h ← h.free a
              let cb ← h.read b
              itLoop f fuel h (some b) save cb.next
            else if v.base < nb.base then itLoop f fuel h (some b) (some a) na
            else .ok (h, some b, save) := by
          rw [itLoop, Heap.read_of_cells hcell]
          show (do let cb ← h.read b; _) = _
          rw [Heap.read_of_cells hb]
          rfl
        have hrest : itRest nb (nodes ((a, v) :: ns)) =
            if itIntersect nb v then false
            else if v.base < nb.base then itRest nb (nodes ns) else true := rfl
        rw [hstep, hrest]
        split
        · -- absorb: the next node visited is the freed one
          refine ⟨fun hr => absurd hr (by decide), fun _ => ?_⟩
          have hba : a ≠ b := fun e => hnb.1 e.symm
          simp only [bind, Except.bind, Heap.write_of_cells hb]
          cases fuel with
          | zero => simp [Heap.free, Heap.read, hcell, hba, hnb.1, itLoop]
          | succ fuel => simp [Heap.free, Heap.read, hcell, hba, hnb.1, itLoop, bind, Except.bind]
        · split
          · obtain ⟨h1, h2⟩ := @ih na (some a) fuel hs hnb.2
            exact ⟨fun hr hf => h1 hr (by simp at hf; omega), h2⟩
          · exact ⟨fun _ _ => ⟨save, rfl⟩, fun hr => absurd hr (by decide)⟩

/-- One round of the loop before the first intersection. -/
theorem itLoop_first {a : ℕ} {v : ItNode} {nx : Option ℕ} (hcell : h.cells a = some ⟨nx, v⟩) :
    itLoop f (fuel + 1) h none save (some a) =
      if itIntersect f v then
        itLoop f fuel { h with cells := Function.update h.cells a (some ⟨nx, v.extend f⟩) }
          (some a) save nx
      else if v.base < f.base then itLoop f fuel h none (some a) nx
      else .ok (h, none, save) := by
  rw [itLoop, Heap.read_of_cells hcell]
  simp only [bind, Except.bind, Heap.write_of_cells hcell]

/-- Where the list operation would absorb, the run on the heap faults. -/
theorem itLoop_fault (hs : Seg h p ns none) (hnd : (addrs ns).Nodup)
    (hn : Yacet.itInsertNew f (nodes ns) = none) :
    ∃ e, itLoop f fuel h none save p = .error e := by
  induction ns generalizing p save fuel with
  | nil => cases hn
  | cons n ns ih =>
      obtain ⟨a, v⟩ := n
      obtain ⟨rfl, nx, hcell, hs⟩ := hs
      simp only [addrs, List.map_cons, List.nodup_cons] at hnd
      cases fuel with
      | zero => exact ⟨_, rfl⟩
      | succ fuel =>
        rw [itLoop_first hcell]
        simp only [nodes, List.map_cons, Yacet.itInsertNew] at hn
        split at hn
        · rename_i hi
          rw [if_pos hi]
          split at hn
          · cases hn
          · rename_i hr
            exact (itLoop_rest (Function.update_self _ _ _) (hs.frame_update hnd.1 _ _) hnd.1).2
              (Bool.eq_false_of_not_eq_true hr)
        · rename_i hi
          rw [if_neg hi]
          split at hn
          · rename_i hlt
            rw [Option.map_eq_none_iff] at hn
            rw [if_pos hlt]
            exact ih hs hnd.2 hn
          · cases hn

/-- Where the list operation extends a node, the run extends it in place. -/
theorem itLoop_extend {l' : List ItNode} (hs : Seg h p ns none) (hnd : (addrs ns).Nodup)
    (hf : ns.length < fuel) (he : Yacet.itInsertNew f (nodes ns) = some (false, l')) :
    ∃ h' b save' ns', itLoop f fuel h none save p = .ok (h', some b, save') ∧
      Seg h' p ns' none ∧ nodes ns' = l' ∧ addrs ns' = addrs ns ∧ h'.brk = h.brk ∧
      ∀ a, a ∉ addrs ns → h'.cells a = h.cells a := by
  induction ns generalizing p save fuel l' with
  | nil => cases he
  | cons n ns ih =>
      obtain ⟨a, v⟩ := n
      obtain ⟨rfl, nx, hcell, hs⟩ := hs
      simp only [addrs, List.map_cons, List.nodup_cons] at hnd
      obtain ⟨fuel, rfl⟩ : ∃ k, fuel = k + 1 := ⟨fuel - 1, by omega⟩
      simp only [List.length_cons, Nat.add_lt_add_iff_right] at hf
      rw [itLoop_first hcell]
      simp only [nodes, List.map_cons, Yacet.itInsertNew] at he
      split at he
      · rename_i hi
        rw [if_pos hi]
        split at he
        · rename_i hr
          cases he
          have hcell' := Function.update_self a (some (Cell.mk nx (v.extend f))) h.cells
          obtain ⟨save', hsave⟩ :=
            (@itLoop_rest f _ nx save _ fuel a _ _ hcell' (hs.frame_update hnd.1 _ h.brk)
              hnd.1).1 hr hf
          refine ⟨_, a, save', (a, v.extend f) :: ns, hsave, hs.overwrite_head hnd.1 _, rfl,
            rfl, rfl, fun b hb => ?_⟩
          simp only [addrs, List.map_cons, List.mem_cons, not_or] at hb
          exact Function.update_of_ne hb.1 _ _
        · cases he
      · rename_i hi
        rw [if_neg hi]
        split at he
        · rename_i hlt
          rw [if_pos hlt]
          rw [Option.map_eq_some_iff] at he
          obtain ⟨⟨new, l''⟩, hrec, heq⟩ := he
          cases heq
          obtain ⟨h', b, save', ns', h1, h2, h3, h4, h5, h6⟩ :=
            @ih nx (some a) fuel _ hs hnd.2 hf hrec
          refine ⟨h', b, save', (a, v) :: ns', h1, ⟨rfl, nx, ?_, h2⟩, ?_, ?_, h5, fun c hc => ?_⟩
          · rw [h6 a hnd.1, hcell]
          · rw [← h3]; rfl
          · show a :: addrs ns' = a :: addrs ns
            rw [h4]
          · simp only [addrs, List.map_cons, List.mem_cons, not_or] at hc
            exact h6 c hc.2
        · cases he

/-- Where the list operation inserts, the loop finds the place and leaves the heap alone. -/
theorem itLoop_insert {l' : List ItNode} (hs : Seg h p ns none) (hf : ns.length < fuel)
    (he : Yacet.itInsertNew f (nodes ns) = some (true, l')) :
    ∃ pre suf q, ns = pre ++ suf ∧ Seg h p pre q ∧ Seg h q suf none ∧
      l' = nodes pre ++ f :: nodes suf ∧
      itLoop f fuel h none save p = .ok (h, none, ((pre.getLast?).map Prod.fst).or save) := by
  induction ns generalizing p save fuel l' with
  | nil =>
      cases hs
      cases he
      obtain ⟨fuel, rfl⟩ : ∃ k, fuel = k + 1 := ⟨fuel - 1, by simp at hf; omega⟩
      exact ⟨[], [], none, rfl, rfl, rfl, rfl, rfl⟩
  | cons n ns ih =>
      obtain ⟨a, v⟩ := n
      have hs0 := hs
      obtain ⟨rfl, nx, hcell, hs⟩ := hs
      obtain ⟨fuel, rfl⟩ : ∃ k, fuel = k + 1 := ⟨fuel - 1, by omega⟩
      simp only [List.length_cons, Nat.add_lt_add_iff_right] at hf
      rw [itLoop_first hcell]
      simp only [nodes, List.map_cons, Yacet.itInsertNew] at he
      split at he
      · split at he <;> cases he
      · rename_i hi
        rw [if_neg hi]
        split at he
        · rename_i hlt
          rw [if_pos hlt]
          rw [Option.map_eq_some_iff] at he
          obtain ⟨⟨new, l''⟩, hrec, heq⟩ := he
          cases heq
          obtain ⟨pre, suf, q, rfl, h1, h2, rfl, h3⟩ := @ih nx (some a) fuel _ hs hf hrec
          refine ⟨(a, v) :: pre, suf, q, rfl, ⟨rfl, nx, hcell, h1⟩, h2, rfl, ?_⟩
          rw [h3, List.getLast?_cons]
          cases pre.getLast? <;> rfl
        · rename_i hlt
          cases he
          rw [if_neg hlt]
          exact ⟨[], (a, v) :: ns, some a, rfl, rfl, hs0, rfl, rfl⟩

/-- **Where the list operation answers `none`, `it_insert_new` faults**, however long it runs. -/
theorem itInsertNew_fault (fuel : ℕ) (hr : Rep h it ns)
    (hn : Yacet.itInsertNew f (nodes ns) = none) :
    ∃ e, itInsertNew fuel f h it = .error e := by
  obtain ⟨e, he⟩ := @itLoop_fault f h it none ns fuel hr.seg hr.nodup hn
  exact ⟨e, by rw [itInsertNew, he]; rfl⟩

/-- **`it_insert_new` refines the list operation.** -/
theorem itInsertNew_ok {new : Bool} {l' : List ItNode} (hr : Rep h it ns) (hf : ns.length < fuel)
    (he : Yacet.itInsertNew f (nodes ns) = some (new, l')) :
    ∃ h' it' ns', itInsertNew fuel f h it = .ok (h', it', new) ∧ Rep h' it' ns' ∧ nodes ns' = l' ∧
      Framed h ns h' ns' := by
  cases new with
  | false =>
      obtain ⟨h', b, save', ns', h1, h2, h3, h4, h5, h6⟩ :=
        @itLoop_extend f h it none ns fuel l' hr.seg hr.nodup hf he
      refine ⟨h', it, ns', ?_, ⟨h2, h4 ▸ hr.nodup, fun a ha => ?_⟩, h3, h5.ge, ?_, fun a ha _ =>
        h6 a ha⟩
      · rw [itInsertNew, h1]; rfl
      · rw [h5]
        exact hr.alloc a (h4 ▸ ha)
      · intro a ha
        exact Or.inl (h4 ▸ ha)
  | true =>
      obtain ⟨pre, suf, q, rfl, h1, h2, rfl, h3⟩ :=
        @itLoop_insert f h it none ns fuel l' hr.seg hf he
      have hnd := hr.nodup
      have halloc := hr.alloc
      simp only [addrs, List.map_append, List.mem_append] at halloc
      have hfresh : ∀ ms : List (ℕ × ItNode), (∀ a ∈ addrs ms, a < h.brk) → h.brk ∉ addrs ms :=
        fun ms H hm => Nat.lt_irrefl _ (H _ hm)
      have hpre := hfresh pre fun a ha => halloc a (Or.inl ha)
      have hsuf := hfresh suf fun a ha => halloc a (Or.inr ha)
      have hrep : ∀ h' : Heap ItNode, h'.brk = h.brk + 1 → ∀ it',
          Seg h' it' (pre ++ (h.brk, f) :: suf) none → Rep h' it' (pre ++ (h.brk, f) :: suf) := by
        intro h' hbrk it' hseg
        refine ⟨hseg, ?_, fun a ha => ?_⟩
        · simp only [addrs, List.map_append, List.map_cons] at hnd hpre hsuf ⊢
          rw [List.nodup_append] at hnd ⊢
          refine ⟨hnd.1, List.nodup_cons.2 ⟨hsuf, hnd.2.1⟩, fun a ha b hb => ?_⟩
          rcases List.mem_cons.1 hb with rfl | hb
          · rintro rfl; exact hpre ha
          · exact hnd.2.2 a ha b hb
        · rw [hbrk]
          simp only [addrs, List.map_append, List.map_cons, List.mem_append, List.mem_cons] at ha
          rcases ha with ha | rfl | ha
          · exact Nat.lt_succ_of_lt (halloc a (Or.inl ha))
          · exact Nat.lt_succ_self _
          · exact Nat.lt_succ_of_lt (halloc a (Or.inr ha))
      have hframe : ∀ h' : Heap ItNode, h'.brk = h.brk + 1 →
          (∀ a, a ∉ addrs (pre ++ suf) → a < h.brk → h'.cells a = h.cells a) →
          Framed h (pre ++ suf) h' (pre ++ (h.brk, f) :: suf) := by
        refine fun h' hbrk hcells => ⟨by omega, fun a ha => ?_, hcells⟩
        simp only [addrs, List.map_append, List.map_cons, List.mem_append, List.mem_cons] at ha ⊢
        rcases ha with ha | rfl | ha
        · exact Or.inl (Or.inl ha)
        · exact Or.inr (Nat.le_refl _)
        · exact Or.inl (Or.inr ha)
      rcases pre.eq_nil_or_concat with rfl | ⟨pre, ⟨s, v⟩, rfl⟩
      · cases h1
        exact ⟨_, some h.brk, (h.brk, f) :: suf, by rw [itInsertNew, h3]; rfl,
          hrep _ rfl _ (h2.insert_front hsuf _), by simp,
          hframe _ rfl fun a _ hlt => Function.update_of_ne hlt.ne _ _⟩
      · rw [List.concat_eq_append] at *
        have hcell := h1.cells_last
        have hsb : s ≠ h.brk := by
          rintro rfl
          exact hpre (by simp)
        have hcell' : (h.malloc ⟨q, f⟩).1.cells s = some ⟨q, v⟩ := by
          show Function.update _ _ _ s = _
          rw [Function.update_of_ne hsb, hcell]
        refine ⟨_, it, _, ?_, hrep _ rfl _ (h1.insert_behind h2 hnd ?_ _), by simp,
          hframe _ rfl fun a ha hlt => ?_⟩
        · rw [itInsertNew, h3]
          simp only [List.getLast?_append, List.getLast?_singleton, Option.some_or, Option.map_some,
            bind, Except.bind, Heap.read_of_cells hcell, Heap.write_of_cells hcell']
          rfl
        · rw [addrs, List.map_append, List.mem_append, not_or]
          exact ⟨hpre, hsuf⟩
        · have has : a ≠ s := by
            rintro rfl
            exact ha (by simp)
          show Function.update (Function.update _ _ _) _ _ a = _
          rw [Function.update_of_ne has, Function.update_of_ne hlt.ne]

/-! ## A sequence of insertions -/

/-- The state holds the union of the intervals `ivs` as the node list `l`. -/
structure Holds (s : Heap ItNode × RangeFile) (ivs l : List ItNode) : Prop where
  rep : ∃ ns, Rep s.1 s.2.it ns ∧ nodes ns = l
  numIt : s.2.numIt = l.length
  merged : Merged ivs l

variable {s : Heap ItNode × RangeFile} {ivs l : List ItNode}

theorem holds_start : Holds start [] [] :=
  ⟨⟨[], ⟨rfl, List.nodup_nil, by simp⟩, rfl⟩, rfl, merged_nil⟩

/-- One call: it keeps `Holds` where the new interval bridges nothing, and faults elsewhere. -/
theorem rangeFileAddIt_step (fuel : ℕ) (hs : Holds s ivs l) (hf : f.base < f.bound) :
    (¬ Bridges ivs f → l.length < fuel → ∃ s' l', rangeFileAddIt fuel s f = .ok s' ∧
      Holds s' (ivs ++ [f]) l' ∧ l'.length ≤ l.length + 1) ∧
    (Bridges ivs f → ∃ e, rangeFileAddIt fuel s f = .error e) := by
  obtain ⟨⟨ns, hrep, rfl⟩, hnum, hm⟩ := hs
  have hsome := hm.isSome_iff hf.le
  constructor
  · intro hb hfuel
    obtain ⟨⟨new, l'⟩, hi⟩ := Option.isSome_iff_exists.1 (hsome.2 hb)
    obtain ⟨h', it', ns', hrun, hrep', hns', -⟩ := itInsertNew_ok hrep (by simpa using hfuel) hi
    have hlen := itInsertNew_length hi
    refine ⟨(h', ⟨it', if new then s.2.numIt + 1 else s.2.numIt⟩), l', ?_,
      ⟨⟨ns', hrep', hns'⟩, ?_, hm.insert hf hi⟩, ?_⟩
    · rw [rangeFileAddIt, hrun]
      rfl
    · show (if new then s.2.numIt + 1 else s.2.numIt) = _
      rw [hnum, hlen]
    · rw [hlen]
      split <;> omega
  · intro hb
    have hnone : Yacet.itInsertNew f (nodes ns) = none := by
      rw [← Option.not_isSome_iff_eq_none]
      exact fun h => hsome.1 h hb
    obtain ⟨e, he⟩ := itInsertNew_fault fuel hrep hnone
    exact ⟨e, by rw [rangeFileAddIt, he]; rfl⟩

theorem addAll_append (s : Heap ItNode × RangeFile) :
    addAll fuel (ivs ++ [f]) s = addAll fuel ivs s >>= fun s' => rangeFileAddIt fuel s' f := by
  simp only [addAll, List.foldlM_append, List.foldlM_cons, List.foldlM_nil, bind_pure]

/-- A whole sequence of calls, with enough fuel. -/
theorem addAll_run (hivs : ∀ f ∈ ivs, f.base < f.bound) (hfuel : ivs.length < fuel) :
    (NoBridge ivs → ∃ s l, addAll fuel ivs start = .ok s ∧ Holds s ivs l ∧
      l.length ≤ ivs.length) ∧
    (¬ NoBridge ivs → ∃ e, addAll fuel ivs start = .error e) := by
  induction ivs using List.reverseRecOn with
  | nil =>
      exact ⟨fun _ => ⟨start, [], rfl, holds_start, Nat.le_refl _⟩, fun h => absurd eachAfter_nil h⟩
  | append_singleton ivs f ih =>
      simp only [List.mem_append, List.mem_singleton] at hivs
      simp only [List.length_append, List.length_singleton] at hfuel ⊢
      obtain ⟨ih1, ih2⟩ := ih (fun g hg => hivs g (Or.inl hg)) (by omega)
      rw [addAll_append, NoBridge, eachAfter_append, ← NoBridge]
      by_cases hnb : NoBridge ivs
      · obtain ⟨s, l, hrun, hs, hlen⟩ := ih1 hnb
        obtain ⟨hok, hfault⟩ := rangeFileAddIt_step fuel hs (hivs f (Or.inr rfl))
        rw [hrun]
        refine ⟨fun h => ?_, fun h => hfault ?_⟩
        · obtain ⟨s', l', h1, h2, h3⟩ := hok h.2 (by omega)
          exact ⟨s', l', h1, h2, by omega⟩
        · by_contra hb
          exact h ⟨hnb, hb⟩
      · obtain ⟨e, he⟩ := ih2 hnb
        rw [he]
        exact ⟨fun h => absurd h.1 hnb, fun _ => ⟨e, rfl⟩⟩

/-! ## More fuel does not change a finished run -/

theorem itLoop_mono {r : Heap ItNode × Option ℕ × Option ℕ} {pf : Option ℕ} {k : ℕ}
    (hr : itLoop f fuel h pf save p = .ok r) : itLoop f (fuel + k) h pf save p = .ok r := by
  induction fuel generalizing h pf save p with
  | zero => cases hr
  | succ fuel ih =>
      rw [Nat.succ_add]
      cases p with
      | none => exact hr
      | some a =>
        rw [itLoop] at hr ⊢
        cases hc : h.read a with
        | error e => rw [hc] at hr; cases hr
        | ok c =>
          rw [hc] at hr
          cases pf with
          | none =>
              simp only [bind, Except.bind] at hr ⊢
              split at hr
              · rename_i hi
                rw [if_pos hi]
                cases hw : h.write a { c with node := c.node.extend f } with
                | error e => rw [hw] at hr; cases hr
                | ok h' => rw [hw] at hr; exact ih hr
              · rename_i hi
                rw [if_neg hi]
                split at hr
                · rename_i hlt
                  rw [if_pos hlt]
                  exact ih hr
                · rename_i hlt
                  rw [if_neg hlt]
                  exact hr
          | some b =>
              simp only [bind, Except.bind] at hr ⊢
              cases hcb : h.read b with
              | error e => rw [hcb] at hr; cases hr
              | ok cb =>
                rw [hcb] at hr
                simp only at hr ⊢
                split at hr
                · rename_i hi
                  rw [if_pos hi]
                  split at hr
                  · cases hr
                  · split at hr
                    · cases hr
                    · split at hr
                      · cases hr
                      · exact ih hr
                · rename_i hi
                  rw [if_neg hi]
                  split at hr
                  · rename_i hlt
                    rw [if_pos hlt]
                    exact ih hr
                  · rename_i hlt
                    rw [if_neg hlt]
                    exact hr

theorem addAll_mono {s' : Heap ItNode × RangeFile} (k : ℕ)
    (hr : addAll fuel ivs s = .ok s') : addAll (fuel + k) ivs s = .ok s' := by
  induction ivs generalizing s with
  | nil => exact hr
  | cons f ivs ih =>
      simp only [addAll, List.foldlM_cons, bind, Except.bind] at hr ⊢
      cases h1 : rangeFileAddIt fuel s f with
      | error e => rw [h1] at hr; cases hr
      | ok s₁ =>
        rw [h1] at hr
        have h2 : rangeFileAddIt (fuel + k) s f = .ok s₁ := by
          simp only [rangeFileAddIt, itInsertNew, bind, Except.bind] at h1 ⊢
          cases h3 : itLoop f fuel s.1 none none s.2.it with
          | error e => rw [h3] at h1; cases h1
          | ok r =>
            rw [itLoop_mono h3]
            rw [h3] at h1
            exact h1
        rw [h2]
        exact ih hr

/-- A run that ends without fault has bridged nothing and leaves the union. -/
theorem addAll_holds (hivs : ∀ f ∈ ivs, f.base < f.bound) (hr : addAll fuel ivs start = .ok s) :
    NoBridge ivs ∧ ∃ l, Holds s ivs l := by
  have hmono := addAll_mono (ivs.length + 1) hr
  have hfuel : ivs.length < fuel + (ivs.length + 1) := by omega
  obtain ⟨hok, hfault⟩ := addAll_run hivs hfuel
  by_cases hnb : NoBridge ivs
  · obtain ⟨s', l, h1, h2, _⟩ := hok hnb
    rw [hmono] at h1
    cases h1
    exact ⟨hnb, l, h2⟩
  · obtain ⟨e, he⟩ := hfault hnb
    rw [hmono] at he
    cases he

/-- **The calls terminate without fault, in a state that holds the union of the intervals, iff no
interval bridges two pieces of those before it**; and the intervals two such runs leave do not
depend on the order of the calls. -/
theorem rangeFileAddIt_sound_iff (ivs : List ItNode) (hivs : ∀ f ∈ ivs, f.base < f.bound) :
    ((∃ fuel s l, addAll fuel ivs start = .ok s ∧ Holds s ivs l) ↔ NoBridge ivs) ∧
    ∀ ivs', ivs.Perm ivs' → ∀ fuel s fuel' s', addAll fuel ivs start = .ok s →
      addAll fuel' ivs' start = .ok s' →
      ∃ l l', Holds s ivs l ∧ Holds s' ivs' l' ∧ intervals l = intervals l' := by
  refine ⟨⟨?_, fun h => ?_⟩, fun ivs' hp fuel s fuel' s' h h' => ?_⟩
  · rintro ⟨fuel, s, l, hrun, _⟩
    exact (addAll_holds hivs hrun).1
  · obtain ⟨s, l, h1, h2, _⟩ := (addAll_run hivs (Nat.lt_succ_self _)).1 h
    exact ⟨_, s, l, h1, h2⟩
  · obtain ⟨_, l, hl⟩ := addAll_holds hivs h
    obtain ⟨_, l', hl'⟩ := addAll_holds (fun f hf => hivs f (hp.mem_iff.2 hf)) h'
    exact ⟨l, l', hl, hl', hl.merged.intervals_eq_of_perm hl'.merged hp⟩

/-- An interval, and then another one that it touches from above. -/
theorem rangeFileAddIt_sound_touching :
    (∃ fuel s l, addAll fuel [⟨1, 2, 4⟩, ⟨2, 0, 2⟩] start = .ok s ∧
      Holds s [⟨1, 2, 4⟩, ⟨2, 0, 2⟩] l) ↔ NoBridge [⟨1, 2, 4⟩, ⟨2, 0, 2⟩] :=
  (rangeFileAddIt_sound_iff [⟨1, 2, 4⟩, ⟨2, 0, 2⟩] (by decide)).1

/-- `[1,5)` bridges `[0,2)` and `[4,6)`: the loop goes on from the freed node. -/
theorem rangeFileAddIt_bridge_dangling :
    addAll 10 [⟨1, 0, 2⟩, ⟨2, 4, 6⟩, ⟨3, 1, 5⟩] start = .error (.dangling 1) ∧
    ¬ ∃ fuel s, addAll fuel [⟨1, 0, 2⟩, ⟨2, 4, 6⟩, ⟨3, 1, 5⟩] start = .ok s := by
  refine ⟨rfl, ?_⟩
  rintro ⟨fuel, s, hrun⟩
  have hmono := addAll_mono 4 hrun
  have hfault : addAll (fuel + 4) [⟨1, 0, 2⟩, ⟨2, 4, 6⟩, ⟨3, 1, 5⟩] start =
      .error (.dangling 1) := rfl
  rw [hfault] at hmono
  cases hmono

end Mem

end Yacet
