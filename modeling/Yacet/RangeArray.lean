import Yacet.IntervalHeap
import Yacet.LockNames

/-!
# The files of a range (`range.c`, `list.h`)

The files of a range are slots of an array that doubles when it is full.  `calloc` clears the first
four slots, `realloc` leaves arbitrary bytes in those it adds.

* `rangeAddFile`, `rangeAddNewFile`, `rangeFileAddIt` — the calls that build a range.
* `Keeps` — what a call is to do: a new file is empty, every other file is as before.
* `Fits` — the new slot holds no list, `realloc` succeeds, the pointer is into the present array,
  and the insertion absorbs nothing.
* `calls_keep_iff` — **a sequence of calls runs and keeps the other files iff each of its calls
  fits.**
-/

namespace Yacet

open LinkedHeap

namespace Mem

/-! ## The array -/

/-- `A_LIST_INIT_LEN`. -/
def aListInitLen : ℕ := 4

/-- A slot of the array: `struct range_file`. -/
structure Slot extends RangeFile where
  filePath : Text
  id : ℕ

/-- What `calloc` leaves in a slot. -/
def Slot.zero : Slot := ⟨⟨none, 0⟩, [], 0⟩

/-- What stops a call. -/
inductive ArrayFault
  | null
  | freed (block : ℕ)
  | outside (i : ℕ)
  | list (e : Fault)
  deriving DecidableEq, Repr

/-- What `realloc` does; it leaves `fresh` in the memory it adds. -/
inductive Realloc
  | fails
  | inPlace (fresh : ℕ → Slot)
  | moved (fresh : ℕ → Slot)

/-- A range and the memory of its array: the blocks that are allocated, the one of `files`, and for
each file the block of the pointer that its caller was given. -/
structure Range where
  heap : Heap ItNode
  blocks : ℕ → Option (List Slot)
  nextBlock : ℕ
  files : Option ℕ
  numFiles : ℕ
  handed : List ℕ

namespace Range

/-- `range_init`. -/
def init : Range where
  heap := Heap.empty
  blocks := Function.update (fun _ => none) 0 (some (List.replicate aListInitLen Slot.zero))
  nextBlock := 1
  files := some 0
  numFiles := 0
  handed := []

/-- A slot that a pointer leads to. -/
def slot (r : Range) (block i : ℕ) : Except ArrayFault Slot :=
  match r.blocks block with
  | none => .error (.freed block)
  | some slots =>
    match slots[i]? with
    | none => .error (.outside i)
    | some s => .ok s

/-- A write to it. -/
def setSlot (r : Range) (block i : ℕ) (s : Slot) : Range where
  heap := r.heap
  blocks := Function.update r.blocks block ((r.blocks block).map fun slots => slots.set i s)
  nextBlock := r.nextBlock
  files := r.files
  numFiles := r.numFiles
  handed := r.handed

/-- The old slots and the new ones behind them. -/
def grown (old : List Slot) (size : ℕ) (fresh : ℕ → Slot) : List Slot :=
  old ++ (List.range (size - old.length)).map fresh

/-- `realloc` in place. -/
def extendFiles (r : Range) (b size : ℕ) (fresh : ℕ → Slot) : Range :=
  let new := (r.blocks b).map fun old => grown old size fresh
  { r with blocks := Function.update r.blocks b new }

/-- `realloc` into a new block; the old one, if there is one, is freed. -/
def moveFiles (r : Range) (size : ℕ) (fresh : ℕ → Slot) : Range :=
  let old := (r.files.bind r.blocks).getD []
  let kept := fun b => if r.files = some b then none else r.blocks b
  { r with
    blocks := Function.update kept r.nextBlock (some (grown old size fresh))
    nextBlock := r.nextBlock + 1
    files := some r.nextBlock }

/-- `ls->ls = realloc(ls->ls, size)`. -/
def realloc (r : Range) (size : ℕ) : Realloc → Range
  | .fails => { r with files := none }
  | .inPlace fresh =>
    match r.files with
    | none => r.moveFiles size fresh
    | some b => r.extendFiles b size fresh
  | .moved fresh => r.moveFiles size fresh

/-- `a_list_add` allocates: `!(sz & (sz - 1)) && sz >= A_LIST_INIT_LEN`. -/
def Grows (r : Range) : Prop := r.numFiles &&& (r.numFiles - 1) = 0 ∧ aListInitLen ≤ r.numFiles

instance (r : Range) : Decidable r.Grows := inferInstanceAs (Decidable (_ ∧ _))

/-- `a_list_add`: the new slot by block and position, or `NULL`. -/
def aListAdd (r : Range) (how : Realloc) : Range × Option (ℕ × ℕ) :=
  let r := if r.Grows then r.realloc (r.numFiles * 2) how else r
  match r.files with
  | none => (r, none)
  | some b => ({ r with numFiles := r.numFiles + 1 }, some (b, r.numFiles))

/-- What the calls of the library answer to one `range_add_file`. -/
structure Env where
  strdup : Bool
  realloc : Realloc

/-- `range_add_file`. -/
def rangeAddFile (r : Range) (filePath : Text) (id : ℕ) (env : Env) : Except ArrayFault Range :=
  if pathMax < filePath.length ∨ env.strdup = false then .ok r
  else
    match r.aListAdd env.realloc with
    | (r, none) => .ok r
    | (r, some (b, i)) => do
      let s ← r.slot b i
      let r := r.setSlot b i { s with filePath := filePath, id := id, numIt := 0 }
      .ok { r with handed := r.handed ++ [b] }

/-- `range_add_new_file`. -/
def rangeAddNewFile (r : Range) (filePath : Text) (id : ℕ) (env : Env) :
    Except ArrayFault Range :=
  if r.numFiles = 0 then r.rangeAddFile filePath id env
  else
    match r.files with
    | none => .error .null
    | some b =>
      match r.blocks b with
      | none => .error (.freed b)
      | some slots =>
        if (slots.take r.numFiles).any fun s => s.filePath = filePath then .ok r
        else r.rangeAddFile filePath id env

/-- `range_file_add_it` with the pointer that the caller was given for file `i`. -/
def rangeFileAddIt (r : Range) (i : ℕ) (f : ItNode) (malloc : Bool) : Except ArrayFault Range :=
  match r.handed[i]? with
  | none => .ok r
  | some b => do
    let s ← r.slot b i
    match Mem.rangeFileAddIt (r.heap.brk + 1) (r.heap, s.toRangeFile) f with
    | .error e => .error (.list e)
    | .ok (h, rf) =>
      -- without memory for a new node nothing has been written
      if rf.numIt ≠ s.numIt ∧ malloc = false then .ok r
      else .ok { r.setSlot b i { s with toRangeFile := rf } with heap := h }

end Range

/-- The calls that build a range. -/
inductive Call
  | addFile (filePath : Text) (id : ℕ) (env : Range.Env)
  | addNewFile (filePath : Text) (id : ℕ) (env : Range.Env)
  | addIt (i : ℕ) (f : ItNode) (malloc : Bool)

def Range.call (r : Range) : Call → Except ArrayFault Range
  | .addFile filePath id env => r.rangeAddFile filePath id env
  | .addNewFile filePath id env => r.rangeAddNewFile filePath id env
  | .addIt i f malloc => r.rangeFileAddIt i f malloc

/-! ## What a call is to do -/

/-- File `i` of the range. -/
def Range.file (r : Range) (i : ℕ) : Option Slot :=
  if i < r.numFiles then r.files.bind fun b => (r.blocks b).bind fun slots => slots[i]? else none

/-- The list behind a head. -/
def ListIs (h : Heap ItNode) (it : Option ℕ) (l : List ItNode) : Prop :=
  ∃ ns, Seg h it ns none ∧ nodes ns = l

/-- Path, id, count and list of file `i` are as before. -/
def Unchanged (r r' : Range) (i : ℕ) : Prop :=
  ∃ s s', r.file i = some s ∧ r'.file i = some s' ∧ s'.filePath = s.filePath ∧ s'.id = s.id ∧
    s'.numIt = s.numIt ∧ ∀ l, ListIs r'.heap s'.it l ↔ ListIs r.heap s.it l

/-- A call that adds a file or returns `NULL`. -/
structure Adds (r r' : Range) (filePath : Text) (id : ℕ) : Prop where
  others : ∀ i < r.numFiles, Unchanged r r' i
  null : r'.handed = r.handed → r'.numFiles = r.numFiles
  added : r'.handed ≠ r.handed → r'.numFiles = r.numFiles + 1 ∧ ∃ s, r'.file r.numFiles = some s ∧
    s.filePath = filePath ∧ s.id = id ∧ s.numIt = 0 ∧ ListIs r'.heap s.it []

/-- What the call is to do. -/
def Keeps (r r' : Range) : Call → Prop
  | .addFile filePath id _ => Adds r r' filePath id
  | .addNewFile filePath id _ => Adds r r' filePath id
  | .addIt i _ _ => r'.numFiles = r.numFiles ∧ ∀ j < r.numFiles, j ≠ i → Unchanged r r' j

/-- Every call of the sequence runs and does what it is to do. -/
def AllKeep (r : Range) : List Call → Prop
  | [] => True
  | c :: cs => ∃ r', r.call c = .ok r' ∧ Keeps r r' c ∧ AllKeep r' cs

/-! ## When it does -/

/-- The walk behind the node that `p_f` points to meets one that intersects it. -/
def Meets (b : ItNode) : List ItNode → Prop
  | [] => False
  | p :: ps => itIntersect b p = true ∨ p.base < b.base ∧ Meets b ps

/-- `it_insert_new` reaches its absorb branch: the interval meets a node, and the union of both
another one. -/
def Absorbs (f : ItNode) : List ItNode → Prop
  | [] => False
  | p :: ps =>
    if itIntersect f p then Meets (p.extend f) ps else p.base < f.base ∧ Absorbs f ps

/-- The slot for the next file holds no list: `realloc` succeeds and leaves `NULL` in the list head
of the first slot it adds, or has left it there. -/
def SlotEmpty (r : Range) (how : Realloc) : Prop :=
  if r.Grows then
    ∃ fresh, (how = .inPlace fresh ∨ how = .moved fresh) ∧ (fresh 0).it = none
  else
    aListInitLen ≤ r.numFiles → ∀ b s, r.files = some b → r.slot b r.numFiles = .ok s → s.it = none

/-- The call goes through to `a_list_add`. -/
def Stored (filePath : Text) (env : Range.Env) : Prop :=
  filePath.length ≤ pathMax ∧ env.strdup = true

/-- The condition of a call. -/
def Fits (r : Range) : Call → Prop
  | .addFile filePath _ env => Stored filePath env → SlotEmpty r env.realloc
  | .addNewFile filePath _ env => Stored filePath env →
    (∀ i s, r.file i = some s → s.filePath ≠ filePath) → SlotEmpty r env.realloc
  | .addIt i f _ => ∀ b, r.handed[i]? = some b → r.files = some b ∧
    ∀ s l, r.file i = some s → ListIs r.heap s.it l → ¬ Absorbs f l

/-- Every call of the sequence fits. -/
def AllFit (r : Range) : List Call → Prop
  | [] => True
  | c :: cs => Fits r c ∧ ∀ r', r.call c = .ok r' → AllFit r' cs

/-! ## The capacity -/

/-- The capacity of an array with `n` files. -/
structure Room (cap n : ℕ) : Prop where
  le : n ≤ cap
  pow : cap.isPowerOfTwo
  init : aListInitLen ≤ cap
  tight : cap = aListInitLen ∨ cap < 2 * n

variable {cap n : ℕ}

/-- The array is full when `a_list_add` allocates. -/
theorem Room.eq_of_grows (h : Room cap n) (hn : n &&& (n - 1) = 0) (hle : aListInitLen ≤ n) :
    cap = n := by
  have hle' := h.le
  rcases h.tight with rfl | hlt
  · omega
  · obtain ⟨j, rfl⟩ := h.pow
    unfold aListInitLen at hle
    obtain ⟨i, rfl⟩ := (Nat.and_sub_one_eq_zero_iff_isPowerOfTwo (by omega)).1 hn
    rw [← Nat.pow_succ'] at hlt
    have hji : j < i + 1 := (Nat.pow_lt_pow_iff_right (by omega)).1 hlt
    exact le_antisymm (Nat.pow_le_pow_right (by omega) (by omega)) hle'

/-- Otherwise it is not. -/
theorem Room.lt_of_not_grows (h : Room cap n) (hn : ¬ (n &&& (n - 1) = 0 ∧ aListInitLen ≤ n)) :
    n < cap := by
  refine lt_of_le_of_ne h.le ?_
  rintro rfl
  have hinit := h.init
  unfold aListInitLen at hinit
  exact hn ⟨(Nat.and_sub_one_eq_zero_iff_isPowerOfTwo (by omega)).2 h.pow, h.init⟩

theorem Room.succ (h : Room cap n) (hlt : n < cap) : Room cap (n + 1) :=
  ⟨hlt, h.pow, h.init, h.tight.imp id fun ht => by omega⟩

theorem Room.double (h : Room n n) : Room (n * 2) (n + 1) := by
  have hinit := h.init
  unfold aListInitLen at hinit
  refine ⟨by omega, Nat.isPowerOfTwo_mul_two_of_isPowerOfTwo h.pow, ?_, Or.inr (by omega)⟩
  unfold aListInitLen
  omega

/-! ## Where the list operation absorbs -/

theorem itRest_eq_false_iff {b : ItNode} {l : List ItNode} : itRest b l = false ↔ Meets b l := by
  induction l with
  | nil => simp [itRest, Meets]
  | cons p ps ih =>
      rw [itRest, Meets, ← ih]
      split
      · simp_all
      · split
        · simp_all
        · simp_all

theorem absorbs_iff {f : ItNode} {l : List ItNode} :
    Absorbs f l ↔ Yacet.itInsertNew f l = none := by
  induction l with
  | nil => simp [Absorbs, Yacet.itInsertNew]
  | cons p ps ih =>
      rw [Absorbs, Yacet.itInsertNew, ih, ← itRest_eq_false_iff]
      split
      · split
        · simp_all
        · simp_all
      · split
        · simp_all
        · simp_all

/-! ## The range in memory -/

/-- The array is block `b` with the slots `slots`, and file `i` has the list cells `lists i`. -/
structure Intact (r : Range) (b : ℕ) (slots : List Slot) (lists : ℕ → List (ℕ × ItNode)) :
    Prop where
  files : r.files = some b
  block : r.blocks b = some slots
  only : ∀ b', b' ≠ b → r.blocks b' = none
  le : r.numFiles ≤ slots.length
  rep : ∀ i s, i < r.numFiles → slots[i]? = some s → Rep r.heap s.it (lists i)
  apart : ∀ i j, i < r.numFiles → j < r.numFiles → i ≠ j →
    ∀ a ∈ addrs (lists i), a ∉ addrs (lists j)
  handed : r.handed.length = r.numFiles
  unused : ∀ i s, r.numFiles ≤ i → i < aListInitLen → slots[i]? = some s → s.it = none

variable {r r' : Range} {b : ℕ} {slots : List Slot} {lists : ℕ → List (ℕ × ItNode)}

section Grown

variable {size i : ℕ} {fresh : ℕ → Slot}

theorem length_grown (h : slots.length ≤ size) : (Range.grown slots size fresh).length = size := by
  rw [Range.grown, List.length_append, List.length_map, List.length_range]
  omega

theorem length_le_grown : slots.length ≤ (Range.grown slots size fresh).length := by
  rw [Range.grown, List.length_append]
  omega

theorem grown_old (hi : i < slots.length) : (Range.grown slots size fresh)[i]? = slots[i]? :=
  List.getElem?_append_left hi

theorem grown_fresh (hi : slots.length + i < size) :
    (Range.grown slots size fresh)[slots.length + i]? = some (fresh i) := by
  rw [Range.grown, List.getElem?_append_right (Nat.le_add_right _ _), Nat.add_sub_cancel_left,
    List.getElem?_map, List.getElem?_range (by omega), Option.map_some]

end Grown

theorem intact_init :
    Intact Range.init 0 (List.replicate aListInitLen Slot.zero) fun _ => [] where
  files := rfl
  block := by simp [Range.init]
  only b' hb' := by simp [Range.init, hb']
  le := Nat.zero_le _
  rep i s hi _ := absurd hi (Nat.not_lt_zero i)
  apart i j hi := absurd hi (Nat.not_lt_zero i)
  handed := rfl
  unused i s _ _ hs := by
    rw [List.eq_of_mem_replicate (List.mem_of_getElem? hs)]
    rfl

theorem room_init : Room aListInitLen Range.init.numFiles :=
  ⟨Nat.zero_le _, by decide, Nat.le_refl _, Or.inl rfl⟩

/-- A well-formed list is what its cells say. -/
theorem Rep.listIs_iff {h : Heap ItNode} {it : Option ℕ} {ns : List (ℕ × ItNode)}
    (hr : Rep h it ns) {l : List ItNode} : ListIs h it l ↔ l = nodes ns := by
  constructor
  · rintro ⟨ms, hms, rfl⟩
    rw [hr.seg.unique hms]
  · rintro rfl
    exact ⟨ns, hr.seg, rfl⟩

/-- A list within the memory handed out is shorter than that. -/
theorem Rep.length_le {h : Heap ItNode} {it : Option ℕ} {ns : List (ℕ × ItNode)}
    (hr : Rep h it ns) : ns.length ≤ h.brk := by
  have hsub : addrs ns ⊆ List.range h.brk := fun a ha => List.mem_range.2 (hr.alloc a ha)
  simpa using (hr.nodup.subperm hsub).length_le

namespace Intact

theorem file_eq (h : Intact r b slots lists) {i : ℕ} (hi : i < r.numFiles) :
    r.file i = slots[i]? := by
  rw [Range.file, if_pos hi, h.files, Option.bind_some, h.block, Option.bind_some]

theorem exists_slot (h : Intact r b slots lists) {i : ℕ} (hi : i < r.numFiles) :
    ∃ s, slots[i]? = some s := by
  have hlt : i < slots.length := hi.trans_le h.le
  exact ⟨slots[i], List.getElem?_eq_getElem hlt⟩

theorem slot_eq (h : Intact r b slots lists) {i : ℕ} {s : Slot} (hs : slots[i]? = some s) :
    r.slot b i = .ok s := by
  simp only [Range.slot, h.block, hs]

/-- A file whose slot and list are the same is unchanged. -/
theorem unchanged {b' : ℕ} {slots' : List Slot} {lists' : ℕ → List (ℕ × ItNode)}
    (h : Intact r b slots lists) (h' : Intact r' b' slots' lists') {i : ℕ} (hi : i < r.numFiles)
    (hi' : i < r'.numFiles) (hslot : slots'[i]? = slots[i]?)
    (hlist : nodes (lists' i) = nodes (lists i)) : Unchanged r r' i := by
  obtain ⟨s, hs⟩ := h.exists_slot hi
  refine ⟨s, s, by rw [h.file_eq hi, hs], by rw [h'.file_eq hi', hslot, hs], rfl, rfl, rfl, ?_⟩
  intro l
  rw [(h.rep i s hi hs).listIs_iff, (h'.rep i s hi' (by rw [hslot, hs])).listIs_iff, hlist]

/-- `realloc` of a full array keeps what is in it. -/
theorem realloc (h : Intact r b slots lists) (hfull : slots.length = r.numFiles)
    (hinit : aListInitLen ≤ r.numFiles) {how : Realloc} {fresh : ℕ → Slot}
    (hhow : how = .inPlace fresh ∨ how = .moved fresh) (size : ℕ) :
    ∃ b', Intact (r.realloc size how) b' (Range.grown slots size fresh) lists ∧
      (r.realloc size how).numFiles = r.numFiles := by
  have hslots : ∀ i < r.numFiles, (Range.grown slots size fresh)[i]? = slots[i]? :=
    fun i hi => grown_old (hfull ▸ hi)
  have hle : r.numFiles ≤ (Range.grown slots size fresh).length := hfull ▸ length_le_grown
  rcases hhow with rfl | rfl
  · have heq : r.realloc size (.inPlace fresh) = r.extendFiles b size fresh := by
      simp only [Range.realloc, h.files]
    refine ⟨b, ?_, by rw [heq]; rfl⟩
    rw [heq]
    exact
      { files := h.files
        block := by simp [Range.extendFiles, h.block]
        only := fun b' hb' => (Function.update_of_ne hb' _ _).trans (h.only b' hb')
        le := hle
        rep := fun i s hi hs => h.rep i s hi (by rw [← hslots i hi, hs])
        apart := h.apart
        handed := h.handed
        unused := fun i s hi hi' => absurd (hinit.trans hi) (Nat.not_le.2 hi') }
  · refine ⟨r.nextBlock, ?_, rfl⟩
    exact
      { files := rfl
        block := by simp [Range.realloc, Range.moveFiles, h.files, h.block]
        only := by
          intro b' hb'
          simp only [Range.realloc, Range.moveFiles, Function.update_of_ne hb', h.files]
          split
          · rfl
          · rename_i hne
            exact h.only b' fun heq => hne (by rw [heq])
        le := hle
        rep := fun i s hi hs => h.rep i s hi (by rw [← hslots i hi, hs])
        apart := h.apart
        handed := h.handed
        unused := fun i s hi hi' => absurd (hinit.trans hi) (Nat.not_le.2 hi') }

end Intact

/-- The range once the slot behind its files has become a file. -/
def Range.withFile (r : Range) (b : ℕ) (s : Slot) : Range :=
  let r' := { r with numFiles := r.numFiles + 1 }.setSlot b r.numFiles s
  { r' with handed := r.handed ++ [b] }

/-- A slot as `range_add_file` fills it; the list head stays. -/
def Slot.filled (s : Slot) (filePath : Text) (id : ℕ) : Slot :=
  { s with filePath := filePath, id := id, numIt := 0 }

namespace Intact

theorem file_withFile (h : Intact r b slots lists) (s : Slot) {i : ℕ} (hi : i < r.numFiles + 1) :
    (r.withFile b s).file i = (slots.set r.numFiles s)[i]? := by
  have hblock : (r.withFile b s).blocks b = some (slots.set r.numFiles s) := by
    simp [Range.withFile, Range.setSlot, h.block]
  have hfiles : (r.withFile b s).files = some b := h.files
  have hnum : (r.withFile b s).numFiles = r.numFiles + 1 := rfl
  rw [Range.file, hnum, if_pos hi, hfiles, Option.bind_some, hblock, Option.bind_some]

/-- A slot without a list becomes an empty file. -/
theorem withFile (h : Intact r b slots lists) (hlt : r.numFiles < slots.length) {s : Slot}
    (hs : s.it = none) :
    Intact (r.withFile b s) b (slots.set r.numFiles s)
      (Function.update lists r.numFiles []) where
  files := h.files
  block := by simp [Range.withFile, Range.setSlot, h.block]
  only b' hb' := (Function.update_of_ne hb' _ _).trans (h.only b' hb')
  le := by
    rw [List.length_set]
    exact hlt
  rep i t hi ht := by
    rcases Nat.lt_succ_iff_lt_or_eq.1 hi with hi | rfl
    · rw [Function.update_of_ne hi.ne]
      rw [List.getElem?_set_ne hi.ne'] at ht
      exact h.rep i t hi ht
    · rw [Function.update_self]
      rw [List.getElem?_set_self hlt] at ht
      cases ht
      exact ⟨hs, List.nodup_nil, by simp⟩
  apart i j hi hj hij a ha ha' := by
    have hne : ∀ k, k < r.numFiles + 1 → a ∈ addrs (Function.update lists r.numFiles [] k) →
        k < r.numFiles ∧ a ∈ addrs (lists k) := by
      intro k hk hak
      rcases Nat.lt_succ_iff_lt_or_eq.1 hk with hk | rfl
      · rw [Function.update_of_ne hk.ne] at hak
        exact ⟨hk, hak⟩
      · rw [Function.update_self] at hak
        cases hak
    obtain ⟨hi, ha⟩ := hne i hi ha
    obtain ⟨hj, ha'⟩ := hne j hj ha'
    exact h.apart i j hi hj hij a ha ha'
  handed := by
    show (r.handed ++ [b]).length = r.numFiles + 1
    rw [List.length_append, h.handed]
    rfl
  unused i t hi hi' ht := by
    have hlt' : r.numFiles < i := hi
    rw [List.getElem?_set_ne hlt'.ne] at ht
    exact h.unused i t (Nat.le_of_lt hlt') hi' ht

/-- A file in a slot of the old or the enlarged array. -/
theorem adds_withFile {r₀ : Range} {b₀ : ℕ} {slots₀ : List Slot} (h₀ : Intact r₀ b₀ slots₀ lists)
    (h : Intact r b slots lists) (hnum : r.numFiles = r₀.numFiles)
    (hslots : ∀ i < r₀.numFiles, slots[i]? = slots₀[i]?) {s : Slot}
    (hs : slots[r.numFiles]? = some s) (filePath : Text) (id : ℕ) :
    Adds r₀ (r.withFile b (s.filled filePath id)) filePath id ↔ s.it = none := by
  obtain ⟨hlt, -⟩ := List.getElem?_eq_some_iff.1 hs
  have hnew :
    (r.withFile b (s.filled filePath id)).file r₀.numFiles = some (s.filled filePath id) := by
    rw [← hnum, h.file_withFile _ (Nat.lt_succ_self _), List.getElem?_set_self hlt]
  have hhanded : (r.withFile b (s.filled filePath id)).handed ≠ r₀.handed := by
    intro heq
    have hlen := congrArg List.length heq
    rw [h₀.handed] at hlen
    simp only [Range.withFile, List.length_append, h.handed, List.length_singleton] at hlen
    omega
  constructor
  · intro hadds
    obtain ⟨-, t, ht, -, -, -, ns, hseg, hnil⟩ := hadds.added hhanded
    rw [hnew] at ht
    cases ht
    rw [List.map_eq_nil_iff] at hnil
    subst hnil
    exact hseg
  · intro hnone
    have h' := h.withFile hlt (s := s.filled filePath id) hnone
    refine ⟨?_, fun heq => absurd heq hhanded,
      fun _ => ⟨?_, _, hnew, rfl, rfl, rfl, [], hnone, rfl⟩⟩
    · intro i hi
      refine h₀.unchanged h' hi ?_ ?_ ?_
      · show i < r.numFiles + 1
        omega
      · rw [List.getElem?_set_ne (by omega), hslots i hi]
      · rw [Function.update_of_ne (by omega)]
    · show r.numFiles + 1 = r₀.numFiles + 1
      rw [hnum]

end Intact

/-- The array is intact and has the capacity for its files. -/
def Sound (r : Range) : Prop :=
  ∃ b slots lists, Intact r b slots lists ∧ Room slots.length r.numFiles

theorem sound_init : Sound Range.init :=
  ⟨_, _, _, intact_init, by simpa using room_init⟩

/-! ## Each call -/

theorem Stored.not_guard {filePath : Text} {env : Range.Env} (h : Stored filePath env) :
    ¬ (pathMax < filePath.length ∨ env.strdup = false) := by
  rintro (hlt | hdup)
  · exact absurd h.1 (Nat.not_le.2 hlt)
  · rw [h.2] at hdup
    cases hdup

/-- `a_list_add` hands out the slot behind the files. -/
theorem aListAdd_eq {how : Realloc} {r₁ : Range}
    (hadd : (if r.Grows then r.realloc (r.numFiles * 2) how else r) = r₁)
    (hfiles : r₁.files = some b) :
    r.aListAdd how = ({ r₁ with numFiles := r₁.numFiles + 1 }, some (b, r₁.numFiles)) := by
  unfold Range.aListAdd
  rw [hadd]
  simp only
  split
  · rename_i hnull
    rw [hfiles] at hnull
    cases hnull
  · rename_i b' hb'
    rw [hfiles] at hb'
    cases hb'
    rfl

/-- `range_add_file` up to the filled slot. -/
theorem rangeAddFile_stored {filePath : Text} {id : ℕ} {env : Range.Env} {r₁ : Range} {s : Slot}
    (hstored : Stored filePath env)
    (hadd : (if r.Grows then r.realloc (r.numFiles * 2) env.realloc else r) = r₁)
    (h : Intact r₁ b slots lists) (hs : slots[r₁.numFiles]? = some s) :
    r.rangeAddFile filePath id env = .ok (r₁.withFile b (s.filled filePath id)) := by
  have hslot : { r₁ with numFiles := r₁.numFiles + 1 }.slot b r₁.numFiles = .ok s := h.slot_eq hs
  rw [Range.rangeAddFile, if_neg hstored.not_guard, aListAdd_eq hadd h.files]
  simp only [bind, Except.bind, hslot]
  rfl

/-- Adding to a full array that `realloc` enlarges. -/
theorem Intact.rangeAddFile_grown (h : Intact r b slots lists)
    (hroom : Room slots.length r.numFiles)
    (hgrows : r.Grows) {filePath : Text} {id : ℕ} {env : Range.Env} {fresh : ℕ → Slot}
    (hstored : Stored filePath env)
    (hhow : env.realloc = .inPlace fresh ∨ env.realloc = .moved fresh) :
    ∃ r', r.rangeAddFile filePath id env = .ok r' ∧
      (Adds r r' filePath id ↔ (fresh 0).it = none) ∧ ((fresh 0).it = none → Sound r') := by
  have hfull := hroom.eq_of_grows hgrows.1 hgrows.2
  have hpos : 0 < r.numFiles := Nat.lt_of_lt_of_le (by decide) hgrows.2
  obtain ⟨b', h', hnum⟩ := h.realloc hfull hgrows.2 hhow (r.numFiles * 2)
  have hslots : ∀ i < r.numFiles, (Range.grown slots (r.numFiles * 2) fresh)[i]? = slots[i]? :=
    fun i hi => grown_old (hfull ▸ hi)
  have hs : (Range.grown slots (r.numFiles * 2) fresh)[(r.realloc (r.numFiles * 2)
      env.realloc).numFiles]? = some (fresh 0) := by
    rw [hnum, ← hfull]
    exact grown_fresh (i := 0) (by omega)
  have hlen : (Range.grown slots (r.numFiles * 2) fresh).length = r.numFiles * 2 :=
    length_grown (by omega)
  refine ⟨_, rangeAddFile_stored hstored (if_pos hgrows) h' hs,
    h.adds_withFile h' hnum hslots hs filePath id, fun hnone => ?_⟩
  refine ⟨_, _, _, h'.withFile (List.getElem?_eq_some_iff.1 hs).1 hnone, ?_⟩
  show Room _ ((r.realloc (r.numFiles * 2) env.realloc).numFiles + 1)
  rw [hnum, List.length_set, hlen]
  rw [hfull] at hroom
  exact hroom.double

/-- Adding to a full array when `realloc` fails: the range has lost its files. -/
theorem rangeAddFile_fails (hgrows : r.Grows) {filePath : Text} {id : ℕ} {env : Range.Env}
    (hstored : Stored filePath env) (hhow : env.realloc = .fails) :
    r.rangeAddFile filePath id env = .ok { r with files := none } ∧
      ¬ Adds r { r with files := none } filePath id := by
  have hpos : 0 < r.numFiles := Nat.lt_of_lt_of_le (by decide) hgrows.2
  constructor
  · have hadd : r.aListAdd env.realloc = ({ r with files := none }, none) := by
      simp only [Range.aListAdd, if_pos hgrows, hhow, Range.realloc]
    simp only [Range.rangeAddFile, hstored.not_guard, if_false, hadd]
  · intro hadds
    obtain ⟨s, s', -, hs', -⟩ := hadds.others 0 hpos
    rw [Range.file, if_pos hpos] at hs'
    cases hs'

/-- Adding to an array with a free slot. -/
theorem Intact.rangeAddFile_free (h : Intact r b slots lists) (hroom : Room slots.length r.numFiles)
    (hgrows : ¬ r.Grows) {filePath : Text} {id : ℕ} {env : Range.Env}
    (hstored : Stored filePath env) :
    ∃ r', r.rangeAddFile filePath id env = .ok r' ∧
      (Adds r r' filePath id ↔ SlotEmpty r env.realloc) ∧
      (SlotEmpty r env.realloc → Sound r') := by
  have hlt := hroom.lt_of_not_grows hgrows
  have hs := List.getElem?_eq_getElem hlt
  have hempty : SlotEmpty r env.realloc ↔ (slots[r.numFiles]).it = none := by
    rw [SlotEmpty, if_neg hgrows]
    constructor
    · intro hempty
      by_cases hinit : aListInitLen ≤ r.numFiles
      · exact hempty hinit b _ h.files (h.slot_eq hs)
      · exact h.unused _ _ (Nat.le_refl _) (Nat.not_le.1 hinit) hs
    · intro hnone _ b' s hb' hs'
      rw [h.files] at hb'
      cases hb'
      rw [h.slot_eq hs] at hs'
      cases hs'
      exact hnone
  rw [hempty]
  refine ⟨_, rangeAddFile_stored hstored (if_neg hgrows) h hs,
    h.adds_withFile h rfl (fun _ _ => rfl) hs filePath id, fun hnone => ?_⟩
  refine ⟨_, _, _, h.withFile hlt hnone, ?_⟩
  rw [List.length_set]
  exact hroom.succ hlt

/-- **Adding a file keeps the others and gives an empty one iff the new slot holds no list.** -/
theorem Sound.rangeAddFile (h : Sound r) {filePath : Text} (id : ℕ) {env : Range.Env}
    (hstored : Stored filePath env) :
    ∃ r', r.rangeAddFile filePath id env = .ok r' ∧
      (Adds r r' filePath id ↔ SlotEmpty r env.realloc) ∧
      (SlotEmpty r env.realloc → Sound r') := by
  obtain ⟨b, slots, lists, h, hroom⟩ := h
  by_cases hgrows : r.Grows
  · have hdone : ∀ fresh, (env.realloc = .inPlace fresh ∨ env.realloc = .moved fresh) →
        (SlotEmpty r env.realloc ↔ (fresh 0).it = none) := by
      intro fresh hhow
      rw [SlotEmpty, if_pos hgrows]
      constructor
      · rintro ⟨fresh', hhow', hnone⟩
        rcases hhow with hhow | hhow <;> rw [hhow] at hhow' <;> simp_all
      · exact fun hnone => ⟨fresh, hhow, hnone⟩
    cases hhow : env.realloc with
    | fails =>
        obtain ⟨hrun, hnot⟩ := @rangeAddFile_fails r hgrows filePath id env hstored hhow
        have hempty : ¬ SlotEmpty r .fails := by
          rw [SlotEmpty, if_pos hgrows]
          simp
        exact ⟨_, hrun, ⟨fun hadds => absurd hadds hnot, fun he => absurd he hempty⟩,
          fun he => absurd he hempty⟩
    | inPlace fresh =>
        rw [← hhow, hdone fresh (Or.inl hhow)]
        exact h.rangeAddFile_grown hroom hgrows hstored (Or.inl hhow)
    | moved fresh =>
        rw [← hhow, hdone fresh (Or.inr hhow)]
        exact h.rangeAddFile_grown hroom hgrows hstored (Or.inr hhow)
  · exact h.rangeAddFile_free hroom hgrows hstored

theorem Sound.unchanged_refl (h : Sound r) {i : ℕ} (hi : i < r.numFiles) : Unchanged r r i := by
  obtain ⟨b, slots, lists, h, -⟩ := h
  exact h.unchanged h hi hi rfl rfl

theorem Sound.adds_refl (h : Sound r) (filePath : Text) (id : ℕ) : Adds r r filePath id :=
  ⟨fun _ hi => h.unchanged_refl hi, fun _ => rfl, fun hne => absurd rfl hne⟩

/-- What the call on a state says about the condition, as one statement. -/
structure Decided (r : Range) (c : Call) : Prop where
  runs : Fits r c → ∃ r', r.call c = .ok r' ∧ Keeps r r' c ∧ Sound r'
  fits : ∀ r', r.call c = .ok r' → Keeps r r' c → Fits r c

theorem Sound.addFile (h : Sound r) (filePath : Text) (id : ℕ) (env : Range.Env) :
    Decided r (.addFile filePath id env) := by
  by_cases hstored : Stored filePath env
  · obtain ⟨r', hrun, hadds, hsound⟩ := h.rangeAddFile id hstored
    constructor
    · intro hfits
      exact ⟨r', hrun, hadds.2 (hfits hstored), hsound (hfits hstored)⟩
    · intro r'' hrun' hkeeps _
      rw [Range.call, hrun] at hrun'
      cases hrun'
      exact hadds.1 hkeeps
  · have hguard : pathMax < filePath.length ∨ env.strdup = false := by
      by_contra hno
      rw [not_or] at hno
      exact hstored ⟨Nat.not_lt.1 hno.1, by simpa using hno.2⟩
    refine ⟨fun _ => ⟨r, ?_, h.adds_refl filePath id, h⟩, fun _ _ _ hst => absurd hst hstored⟩
    rw [Range.call, Range.rangeAddFile, if_pos hguard]

/-- `range_add_new_file` compares the path with those of the files. -/
theorem Sound.rangeAddNewFile_eq (h : Sound r) (filePath : Text) (id : ℕ) (env : Range.Env) :
    ((∃ i s, r.file i = some s ∧ s.filePath = filePath) ∧
        r.rangeAddNewFile filePath id env = .ok r) ∨
      ((∀ i s, r.file i = some s → s.filePath ≠ filePath) ∧
        r.rangeAddNewFile filePath id env = r.rangeAddFile filePath id env) := by
  obtain ⟨b, slots, lists, h, -⟩ := h
  unfold Range.rangeAddNewFile
  split
  · rename_i hzero
    refine Or.inr ⟨fun i s hs => ?_, rfl⟩
    rw [Range.file, if_neg (by omega)] at hs
    cases hs
  · split
    · rename_i hnull
      rw [h.files] at hnull
      cases hnull
    · rename_i b' hb'
      rw [h.files] at hb'
      cases hb'
      split
      · rename_i hfreed
        rw [h.block] at hfreed
        cases hfreed
      · rename_i slots' hslots
        rw [h.block] at hslots
        cases hslots
        split
        · rename_i hany
          refine Or.inl ⟨?_, rfl⟩
          obtain ⟨s, hs, heq⟩ := List.any_eq_true.1 hany
          obtain ⟨i, hi⟩ := List.mem_iff_getElem?.1 hs
          rw [List.getElem?_take] at hi
          split at hi
          · rename_i hlt
            exact ⟨i, s, by rw [h.file_eq hlt, hi], of_decide_eq_true heq⟩
          · cases hi
        · rename_i hany
          refine Or.inr ⟨fun i s hs heq => hany ?_, rfl⟩
          by_cases hlt : i < r.numFiles
          · rw [h.file_eq hlt] at hs
            refine List.any_eq_true.2 ⟨s, ?_, decide_eq_true heq⟩
            exact List.mem_iff_getElem?.2 ⟨i, by rw [List.getElem?_take, if_pos hlt, hs]⟩
          · rw [Range.file, if_neg hlt] at hs
            cases hs

theorem Sound.addNewFile (h : Sound r) (filePath : Text) (id : ℕ) (env : Range.Env) :
    Decided r (.addNewFile filePath id env) := by
  rcases h.rangeAddNewFile_eq filePath id env with ⟨⟨i, s, hs, hpath⟩, heq⟩ | ⟨hnew, heq⟩
  · refine ⟨fun _ => ⟨r, heq, h.adds_refl filePath id, h⟩, fun _ _ _ _ hnew => ?_⟩
    exact absurd hpath (hnew i s hs)
  · obtain ⟨hruns, hfits⟩ := h.addFile filePath id env
    refine ⟨fun hf => ?_, fun r' hrun hkeeps hst _ => ?_⟩
    · rw [Range.call, heq]
      exact hruns fun hst => hf hst hnew
    · rw [Range.call, heq] at hrun
      exact hfits r' hrun hkeeps hst

/-- The range once the list of file `i` has been changed. -/
def Range.withList (r : Range) (b i : ℕ) (s : Slot) (h : Heap ItNode) : Range :=
  { r.setSlot b i s with heap := h }

namespace Intact

/-- An insertion into one list leaves the others alone. -/
theorem withList (h : Intact r b slots lists) {i : ℕ} (hi : i < r.numFiles) {s : Slot}
    {h' : Heap ItNode} {ns' : List (ℕ × ItNode)} (hrep : Rep h' s.it ns')
    (hframe : Framed r.heap (lists i) h' ns') :
    Intact (r.withList b i s h') b (slots.set i s) (Function.update lists i ns') where
  files := h.files
  block := by simp [Range.withList, Range.setSlot, h.block]
  only b' hb' := (Function.update_of_ne hb' _ _).trans (h.only b' hb')
  le := by
    rw [List.length_set]
    exact h.le
  rep j t hj ht := by
    by_cases hji : j = i
    · subst hji
      rw [List.getElem?_set_self (hi.trans_le h.le)] at ht
      cases ht
      rw [Function.update_self]
      exact hrep
    · rw [List.getElem?_set_ne (Ne.symm hji)] at ht
      rw [Function.update_of_ne hji]
      exact (h.rep j t hj ht).frame hframe (h.apart j i hj hi hji)
  apart j k hj hk hjk := by
    have hnew : ∀ j < r.numFiles, j ≠ i → ∀ a ∈ addrs (lists j), a ∉ addrs ns' := by
      intro j hj hji
      obtain ⟨t, ht⟩ := h.exists_slot hj
      exact hframe.disjoint (h.rep j t hj ht) (h.apart j i hj hi hji)
    by_cases hji : j = i
    · subst hji
      rw [Function.update_self, Function.update_of_ne (Ne.symm hjk)]
      exact fun a ha ha' => hnew k hk (Ne.symm hjk) a ha' ha
    · rw [Function.update_of_ne hji]
      by_cases hki : k = i
      · subst hki
        rw [Function.update_self]
        exact hnew j hj hji
      · rw [Function.update_of_ne hki]
        exact h.apart j k hj hk hjk
  handed := h.handed
  unused j t hj hj' ht := by
    have hij : i ≠ j := by
      have hj : r.numFiles ≤ j := hj
      omega
    rw [List.getElem?_set_ne hij] at ht
    exact h.unused j t hj hj' ht

/-- An insertion that absorbs is a fault. -/
theorem rangeFileAddIt_absorbs (h : Intact r b slots lists) {i : ℕ}
    (hhanded : r.handed[i]? = some b)
    {s : Slot} (hs : slots[i]? = some s) (hi : i < r.numFiles) {f : ItNode}
    (habs : Absorbs f (nodes (lists i))) (malloc : Bool) :
    ∃ e, r.rangeFileAddIt i f malloc = .error e := by
  obtain ⟨e, he⟩ := itInsertNew_fault (r.heap.brk + 1) (h.rep i s hi hs) (absorbs_iff.1 habs)
  refine ⟨.list e, ?_⟩
  simp only [Range.rangeFileAddIt, hhanded, h.slot_eq hs, Mem.rangeFileAddIt, he, bind, Except.bind]

/-- Any other insertion keeps the other files. -/
theorem rangeFileAddIt_keeps (h : Intact r b slots lists) (hroom : Room slots.length r.numFiles)
    {i : ℕ} (hhanded : r.handed[i]? = some b) {s : Slot} (hs : slots[i]? = some s)
    (hi : i < r.numFiles) {f : ItNode} (habs : ¬ Absorbs f (nodes (lists i))) (malloc : Bool) :
    ∃ r', r.rangeFileAddIt i f malloc = .ok r' ∧ Keeps r r' (.addIt i f malloc) ∧ Sound r' := by
  have hrep := h.rep i s hi hs
  obtain ⟨⟨new, l'⟩, hins⟩ : ∃ x, Yacet.itInsertNew f (nodes (lists i)) = some x :=
    Option.ne_none_iff_exists'.1 fun hnone => habs (absorbs_iff.2 hnone)
  obtain ⟨h', it', ns', hrun, hrep', -, hframe⟩ :=
    itInsertNew_ok hrep (Nat.lt_succ_of_le hrep.length_le) hins
  by_cases hfails : (if new then s.numIt + 1 else s.numIt) ≠ s.numIt ∧ malloc = false
  · refine ⟨r, ?_, ⟨rfl, fun j hj _ => h.unchanged h hj hj rfl rfl⟩, ⟨_, _, _, h, hroom⟩⟩
    simp only [Range.rangeFileAddIt, hhanded, h.slot_eq hs, Mem.rangeFileAddIt, hrun, bind,
      Except.bind]
    rw [if_pos hfails]
  · have hnext :=
      h.withList (s := { s with it := it', numIt := if new then s.numIt + 1 else s.numIt })
      hi hrep' hframe
    refine ⟨_, ?_, ⟨?_, fun j hj hji => h.unchanged hnext hj hj ?_ ?_⟩, ⟨_, _, _, hnext, ?_⟩⟩
    · simp only [Range.rangeFileAddIt, hhanded, h.slot_eq hs, Mem.rangeFileAddIt, hrun, bind,
        Except.bind]
      rw [if_neg hfails]
      rfl
    · rfl
    · exact List.getElem?_set_ne (Ne.symm hji)
    · rw [Function.update_of_ne hji]
    · rw [List.length_set]
      exact hroom

end Intact

theorem Sound.addIt (h : Sound r) (i : ℕ) (f : ItNode) (malloc : Bool) :
    Decided r (.addIt i f malloc) := by
  obtain ⟨b, slots, lists, hi, hroom⟩ := id h
  cases hhanded : r.handed[i]? with
  | none =>
      have hrun : r.rangeFileAddIt i f malloc = .ok r :=
        by simp only [Range.rangeFileAddIt, hhanded]
      refine ⟨fun _ => ⟨r, hrun, ⟨rfl, fun j hj _ => h.unchanged_refl hj⟩, h⟩, ?_⟩
      intro r' _ _ b' hb'
      rw [hhanded] at hb'
      cases hb'
  | some b' =>
      have hlt : i < r.numFiles := by
        rw [← hi.handed]
        exact (List.getElem?_eq_some_iff.1 hhanded).1
      obtain ⟨s, hs⟩ := hi.exists_slot hlt
      by_cases hb : b' = b
      · subst hb
        by_cases habs : Absorbs f (nodes (lists i))
        · obtain ⟨e, he⟩ := hi.rangeFileAddIt_absorbs hhanded hs hlt habs malloc
          constructor
          · intro hfits
            obtain ⟨-, hno⟩ := hfits b' hhanded
            exact absurd habs (hno s _ (by rw [hi.file_eq hlt, hs])
              ((hi.rep i s hlt hs).listIs_iff.2 rfl))
          · intro r' hrun
            rw [Range.call, he] at hrun
            cases hrun
        · refine ⟨fun _ => hi.rangeFileAddIt_keeps hroom hhanded hs hlt habs malloc, ?_⟩
          intro r' _ _ c hc
          rw [hhanded] at hc
          cases hc
          refine ⟨hi.files, fun t l ht hl => ?_⟩
          rw [hi.file_eq hlt, hs] at ht
          cases ht
          rwa [(hi.rep i s hlt hs).listIs_iff.1 hl]
      · constructor
        · intro hfits
          have hfiles := (hfits b' hhanded).1
          rw [hi.files, Option.some.injEq] at hfiles
          exact absurd hfiles.symm hb
        · intro r' hrun
          simp only [Range.call, Range.rangeFileAddIt, hhanded, Range.slot, hi.only b' hb, bind,
            Except.bind] at hrun
          cases hrun

theorem Sound.call (h : Sound r) (c : Call) : Decided r c := by
  cases c with
  | addFile filePath id env => exact h.addFile filePath id env
  | addNewFile filePath id env => exact h.addNewFile filePath id env
  | addIt i f malloc => exact h.addIt i f malloc

/-! ## Sequences of calls -/

theorem Sound.allKeep_iff (h : Sound r) (calls : List Call) : AllKeep r calls ↔ AllFit r calls := by
  induction calls generalizing r with
  | nil => exact Iff.rfl
  | cons c cs ih =>
      obtain ⟨hruns, hfits⟩ := h.call c
      constructor
      · rintro ⟨r', hrun, hkeeps, hrest⟩
        have hfit := hfits r' hrun hkeeps
        refine ⟨hfit, fun r'' hrun' => ?_⟩
        obtain ⟨r₁, hrun₁, -, hsound⟩ := hruns hfit
        rw [hrun] at hrun' hrun₁
        cases hrun'
        cases hrun₁
        exact (ih hsound).1 hrest
      · rintro ⟨hfit, hrest⟩
        obtain ⟨r', hrun, hkeeps, hsound⟩ := hruns hfit
        exact ⟨r', hrun, hkeeps, (ih hsound).2 (hrest r' hrun)⟩

/-- **A sequence of calls runs, gives every new file an empty list and keeps the other files iff
each of its calls fits.** -/
theorem calls_keep_iff (calls : List Call) :
    AllKeep Range.init calls ↔ AllFit Range.init calls :=
  sound_init.allKeep_iff calls

/-- `realloc` moves the array and happens to leave the address of a list node in the next list head:
the fifth file does not start with an empty list. -/
theorem calls_fifth_file :
    ¬ AllKeep Range.init ([['a'], ['b'], ['c'], ['d'], ['e']].map fun filePath =>
      .addFile filePath 1 ⟨true, .moved fun _ => ⟨⟨some 0, 0⟩, [], 0⟩⟩) := by
  intro hkeep
  obtain ⟨-, h1⟩ := (sound_init.allKeep_iff _).1 hkeep
  obtain ⟨-, h2⟩ := h1 _ rfl
  obtain ⟨-, h3⟩ := h2 _ rfl
  obtain ⟨-, h4⟩ := h3 _ rfl
  obtain ⟨hfits, -⟩ := h4 _ rfl
  have hempty := hfits ⟨by decide, rfl⟩
  rw [SlotEmpty, if_pos ⟨by decide, by decide⟩] at hempty
  simp at hempty

end Mem

end Yacet
