import Yacet.Lib.Records
import Yacet.RangeArray
import Yacet.SwapFile

/-!
# The array list (`list.h`)

An array list stores a block and a size and no capacity: `a_list_add` takes the block to be full
when the size is a power of two, wherever earlier deletions have left the block.

* `aListInit`, `aListAdd`, `aListDelete` — the functions on the bytes of the block.
* `Room` — what a size says about the block.
* `Fits` — an addition that allocates gets its memory, and the size can still be doubled.
* `elements_kept_iff` — **every slot lies inside the block and the elements are those of the
  sequence, whatever calls are made, iff each addition fits.**  `a_list_add` overwrites the only
  pointer to the elements with the `NULL` of a failed `realloc`.
-/

namespace Yacet

namespace Amortized

open Records

/-! ## The functions -/

/-- The largest `int`. -/
def intMax : ℕ := 2 ^ 31 - 1

/-- The largest block that `calloc` and `realloc` give. -/
def ptrdiffMax : ℕ := 2 ^ 63 - 1

/-- `struct a_list`: the bytes that `ls` points to, `none` for `NULL`. -/
structure AList where
  ls : Option (List Byte)
  sz : ℕ

/-- What is undefined in C. -/
inductive Fault
  | null
  | outside
  | overflow
  deriving DecidableEq, Repr

/-- `a_list_init` for elements of `w` bytes. -/
def aListInit (w : ℕ) (calloc : Bool) : Option AList :=
  if calloc = true ∧ Mem.aListInitLen * w ≤ ptrdiffMax then
    some ⟨some (List.replicate (Mem.aListInitLen * w) 0), 0⟩
  else none

/-- `realloc`; `fresh` is what it leaves in the bytes it adds, `none` when there is no memory. -/
def realloc (ls : Option (List Byte)) (size : ℕ) (fresh : Option (ℕ → Byte)) :
    Option (List Byte) :=
  if ptrdiffMax < size then none else fresh.map (resize (ls.getD []) size)

/-- `!(sz & (sz - 1)) && sz >= A_LIST_INIT_LEN`. -/
def Grows (sz : ℕ) : Prop := sz &&& (sz - 1) = 0 ∧ Mem.aListInitLen ≤ sz

instance (sz : ℕ) : Decidable (Grows sz) := inferInstanceAs (Decidable (_ ∧ _))

/-- `&((char*)(ls->ls))[ls->sz++ * elm_sz]`: the offset of the slot. -/
def nextSlot (w : ℕ) (s : AList) : Except Fault (AList × ℕ) :=
  if s.ls = none then .error .null
  else if intMax < s.sz + 1 then .error .overflow
  else .ok (⟨s.ls, s.sz + 1⟩, s.sz * w)

/-- `a_list_add`: the offset of the slot, or `NULL`. -/
def aListAdd (w : ℕ) (s : AList) (fresh : Option (ℕ → Byte)) :
    Except Fault (AList × Option ℕ) := do
  if Grows s.sz then
    if intMax < s.sz * 2 then .error .overflow
    else
      let s : AList := ⟨realloc s.ls (s.sz * 2 * w % 2 ^ 64) fresh, s.sz⟩
      if s.ls = none then .ok (s, none)
      else
        let (s, slot) ← nextSlot w s
        .ok (s, some slot)
  else
    let (s, slot) ← nextSlot w s
    .ok (s, some slot)

/-- The caller stores its element in the slot. -/
def store (s : AList) (slot : ℕ) (v : List Byte) : Except Fault AList :=
  match s.ls with
  | none => .error .null
  | some block =>
    if slot + v.length ≤ block.length then .ok ⟨some (write block slot v), s.sz⟩
    else .error .outside

/-- The loop of `a_list_delete` for `k` more records; `c` points to record `i`. -/
def deleteLoop (w : ℕ) : ℕ → ℕ → List Byte → Except Fault (List Byte)
  | 0, _, block => .ok block
  | k + 1, i, block =>
    if (i + 2) * w ≤ block.length then
      deleteLoop w k (i + 1) (setRecord w block i (record w block (i + 1)))
    else .error .outside

/-- `a_list_delete`.  On an empty list the size would become negative. -/
def aListDelete (w : ℕ) (s : AList) (idx : ℤ) : Except Fault (AList × ℤ) :=
  if idx < 0 then .ok (s, -1)
  else
    match s.ls with
    | none => .error .null
    | some block =>
      if s.sz = 0 then .error .overflow
      else do
        let block ← deleteLoop w (s.sz - 1 - idx.toNat) idx.toNat block
        .ok (⟨some block, s.sz - 1⟩, 0)

/-! ## Sequences of calls -/

/-- A call: an element that is added, with what `realloc` answers, or an index that is deleted. -/
inductive Call (w : ℕ)
  | add (v : List.Vector Byte w) (fresh : Option (ℕ → Byte))
  | delete (idx : ℤ)

variable {w : ℕ}

/-- A call, and the slot that it returned. -/
def call (s : AList) : Call w → Except Fault (AList × Option ℕ)
  | .add v fresh => do
    let (s, slot) ← aListAdd w s fresh
    match slot with
    | none => .ok (s, none)
    | some p =>
      let s ← store s p v.toList
      .ok (s, some p)
  | .delete idx => do
    let (s, _) ← aListDelete w s idx
    .ok (s, none)

/-- The elements; `none` if they are not there. -/
def elements (w : ℕ) (s : AList) : Option (List (List Byte)) :=
  match s.ls with
  | none => none
  | some block => if s.sz * w ≤ block.length then some (records w block s.sz) else none

/-- The slot lies inside the block. -/
def Inside (w : ℕ) (s : AList) (slot : ℕ) : Prop := ∃ block, s.ls = some block ∧
    slot + w ≤ block.length

/-- The abstract sequence after a call that returned `slot`. -/
def next (xs : List (List Byte)) : Call w → Option ℕ → List (List Byte)
  | .add v _, some _ => xs ++ [v.toList]
  | .add _ _, none => xs
  | .delete idx, _ => if idx < 0 then xs else xs.eraseIdx idx.toNat

/-- Through all the calls the slots are inside the block and the elements those of the sequence. -/
def AllKeep (s : AList) (xs : List (List Byte)) : List (Call w) → Prop
  | [] => elements w s = some xs
  | c :: cs => elements w s = some xs ∧ ∃ s' slot, call s c = .ok (s', slot) ∧
      (∀ p ∈ slot, Inside w s' p) ∧ AllKeep s' (next xs c slot) cs

/-- Deletions are at indices below the size. -/
def Legal (s : AList) : Call w → Prop
  | .add _ _ => True
  | .delete idx => idx < s.sz

def AllLegal (s : AList) : List (Call w) → Prop
  | [] => True
  | c :: cs => Legal s c ∧ ∀ s' slot, call s c = .ok (s', slot) → AllLegal s' cs

/-- An addition that allocates gets its memory, and twice the size is an `int`. -/
def Fits (s : AList) : Call w → Prop
  | .add _ fresh => Grows s.sz → s.sz * 2 ≤ intMax ∧ s.sz * 2 * w ≤ ptrdiffMax ∧ fresh ≠ none
  | .delete _ => True

def AllFit (s : AList) : List (Call w) → Prop
  | [] => True
  | c :: cs => Fits s c ∧ ∀ s' slot, call s c = .ok (s', slot) → AllFit s' cs

/-! ## The size and the block -/

/-- What a size says about the capacity: whenever it exceeds a power of two, the block has room for
the next one. -/
structure Room (cap n : ℕ) : Prop where
  le : n ≤ cap
  init : Mem.aListInitLen ≤ cap
  next : ∀ k, 2 ≤ k → 2 ^ k < n → 2 ^ (k + 1) ≤ cap

variable {cap n : ℕ}

theorem Room.pred (h : Room cap n) : Room cap (n - 1) :=
  ⟨le_trans (Nat.sub_le n 1) h.le, h.init, fun k hk hlt => h.next k hk (by omega)⟩

theorem exists_pow_of_grows (h : Grows n) : ∃ k, 2 ≤ k ∧ n = 2 ^ k := by
  obtain ⟨hand, hinit⟩ := h
  unfold Mem.aListInitLen at hinit
  obtain ⟨k, rfl⟩ := (Nat.and_sub_one_eq_zero_iff_isPowerOfTwo (by omega)).1 hand
  exact ⟨k, (Nat.pow_le_pow_iff_right (show 1 < 2 by omega)).1 hinit, rfl⟩

/-- The doubled block, however large the one before it was. -/
theorem Room.double (h : Grows n) : Room (n * 2) (n + 1) := by
  have hinit := h.2
  obtain ⟨k, hk, rfl⟩ := exists_pow_of_grows h
  have hpos : 0 < 2 ^ k := by positivity
  refine ⟨by omega, by omega, fun j _ hlt => ?_⟩
  rw [← Nat.pow_succ]
  have hjk : j ≤ k := (Nat.pow_le_pow_iff_right (show 1 < 2 by omega)).1 (by omega)
  exact Nat.pow_le_pow_right (by omega) (by omega)

/-- **A size that is no power of two is below the capacity**, whether the list has grown to it or
shrunk. -/
theorem Room.succ (h : Room cap n) (hn : ¬ Grows n) : Room cap (n + 1) := by
  have hinit := h.init
  by_cases hsmall : n < Mem.aListInitLen
  · refine ⟨by omega, hinit, fun k hk hlt => ?_⟩
    have hpow : 2 ^ 2 ≤ 2 ^ k := Nat.pow_le_pow_right (by omega) hk
    unfold Mem.aListInitLen at hsmall
    omega
  · have hand : ∀ k, n ≠ 2 ^ k := by
      rintro k rfl
      exact hn ⟨(Nat.and_sub_one_eq_zero_iff_isPowerOfTwo (by positivity)).2 ⟨k, rfl⟩, by omega⟩
    unfold Mem.aListInitLen at hsmall
    have hlog : 2 ≤ n.log2 := (Nat.le_log2 (by omega)).2 (by omega)
    have hlt : 2 ^ n.log2 < n := lt_of_le_of_ne (Nat.log2_self_le (by omega)) (hand _).symm
    refine ⟨?_, hinit, fun k hk hle => h.next k hk (lt_of_le_of_ne (by omega) (hand k).symm)⟩
    exact le_trans Nat.lt_log2_self (h.next _ hlog hlt)

/-! ## Each call -/

/-- The block of the list has room for its elements. -/
structure Good (w : ℕ) (s : AList) (block : List Byte) (cap : ℕ) : Prop where
  ls : s.ls = some block
  length : block.length = cap * w
  small : cap * w ≤ ptrdiffMax
  room : Room cap s.sz
  int : s.sz ≤ 2 ^ 30

variable {s s' : AList} {block : List Byte} {fresh : Option (ℕ → Byte)} {calloc : Bool}

theorem good_init (h : aListInit w calloc = some s) :
    Good w s (List.replicate (Mem.aListInitLen * w) 0) Mem.aListInitLen ∧ s.sz = 0 := by
  unfold aListInit at h
  split at h
  · rename_i hcalloc
    cases h
    exact ⟨⟨rfl, List.length_replicate, hcalloc.2, ⟨Nat.zero_le _, le_rfl, by simp⟩,
      Nat.zero_le _⟩, rfl⟩
  · cases h

namespace Good

theorem mul_le (h : Good w s block cap) : s.sz * w ≤ block.length := by
  rw [h.length]
  exact Nat.mul_le_mul_right w h.room.le

theorem elements_eq (h : Good w s block cap) :
    elements w s = some (records w block s.sz) := by
  simp only [elements, h.ls, if_pos h.mul_le]

/-- Twice the size in bytes does not wrap around. -/
theorem mod_eq (h : Good w s block cap) : s.sz * 2 * w % 2 ^ 64 = s.sz * 2 * w := by
  have hle : s.sz * w ≤ cap * w := Nat.mul_le_mul_right w h.room.le
  have hsmall := h.small
  have hcomm : s.sz * 2 * w = 2 * (s.sz * w) := by ring
  unfold ptrdiffMax at hsmall
  exact Nat.mod_eq_of_lt (by omega)

/-- An addition that fits returns a slot behind the elements, and keeps them. -/
theorem aListAdd_of_fits (h : Good w s block cap)
    (hfits : Grows s.sz → s.sz * 2 ≤ intMax ∧ s.sz * 2 * w ≤ ptrdiffMax ∧ fresh ≠ none) :
    ∃ block' cap', aListAdd w s fresh = .ok (⟨some block', s.sz + 1⟩, some (s.sz * w)) ∧
      Good w ⟨some block', s.sz + 1⟩ block' cap' ∧
      records w block' s.sz = records w block s.sz := by
  have hint := h.int
  by_cases hgrows : Grows s.sz
  · obtain ⟨hmax, hsize, hfresh⟩ := hfits hgrows
    obtain ⟨fresh, rfl⟩ := Option.ne_none_iff_exists'.1 hfresh
    have hle : s.sz * w ≤ s.sz * 2 * w := Nat.mul_le_mul_right w (by omega)
    unfold intMax at hmax
    refine ⟨resize block (s.sz * 2 * w) fresh, s.sz * 2, ?_,
      ⟨rfl, length_resize, hsize, Room.double hgrows, by simp; omega⟩, records_resize hle h.mul_le⟩
    have hrealloc : realloc s.ls (s.sz * 2 * w % 2 ^ 64) (some fresh) =
        some (resize block (s.sz * 2 * w) fresh) := by
      rw [realloc, h.mod_eq, if_neg (Nat.not_lt.2 hsize), h.ls]
      rfl
    have hnext : ¬ intMax < s.sz + 1 := by unfold intMax; omega
    have hdouble : ¬ intMax < s.sz * 2 := by unfold intMax; omega
    simp only [aListAdd, if_pos hgrows, if_neg hdouble, hrealloc, nextSlot, reduceCtorEq, if_false,
      if_neg hnext]
    rfl
  · have hne : s.sz ≠ 2 ^ 30 := by
      rintro heq
      exact hgrows (by rw [heq]; decide)
    refine ⟨block, cap, ?_, ⟨rfl, h.length, h.small, h.room.succ hgrows, by simp; omega⟩, rfl⟩
    have hnext : ¬ intMax < s.sz + 1 := by unfold intMax; omega
    simp only [aListAdd, if_neg hgrows, nextSlot, h.ls, reduceCtorEq, if_false, if_neg hnext]
    rfl

/-- What the caller stores in the slot becomes the last element. -/
theorem store (h : Good w ⟨some block, n + 1⟩ block cap) (v : List.Vector Byte w) :
    Amortized.store ⟨some block, n + 1⟩ (n * w) v.toList =
      .ok ⟨some (setRecord w block n v.toList), n + 1⟩ ∧
      Good w ⟨some (setRecord w block n v.toList), n + 1⟩ (setRecord w block n v.toList) cap ∧
      records w (setRecord w block n v.toList) (n + 1) = records w block n ++ [v.toList] := by
  have hle : (n + 1) * w ≤ block.length := h.mul_le
  have hlen := length_setRecord v.toList_length hle
  rw [Nat.succ_mul] at hle
  refine ⟨?_, ⟨rfl, hlen.trans h.length, h.small, h.room, h.int⟩,
    records_setRecord v.toList_length (by omega)⟩
  have hin : n * w + v.toList.length ≤ block.length := by
    rw [v.toList_length]
    omega
  simp only [Amortized.store, if_pos hin]
  rfl

theorem deleteLoop_eq {i k : ℕ} (h : (i + k + 1) * w ≤ block.length) :
    deleteLoop w k i block = .ok (shift w k i block) := by
  induction k generalizing i block with
  | zero => rfl
  | succ k ih =>
      have hle : (i + 2) * w ≤ (i + (k + 1) + 1) * w := Nat.mul_le_mul_right w (by omega)
      have hle' : (i + 1) * w ≤ (i + 2) * w := Nat.mul_le_mul_right w (by omega)
      have hset :=
        length_setRecord (length_record (le_trans hle h)) (le_trans hle' (le_trans hle h))
      rw [deleteLoop, if_pos (le_trans hle h), shift]
      exact ih (by rw [hset]; rwa [show i + 1 + k + 1 = i + (k + 1) + 1 by omega])

/-- A deletion below the size erases that element. -/
theorem aListDelete_eq (h : Good w s block cap) {idx : ℕ} (hidx : idx < s.sz) :
    ∃ block', aListDelete w s idx = .ok (⟨some block', s.sz - 1⟩, 0) ∧
      Good w ⟨some block', s.sz - 1⟩ block' cap ∧
      records w block' (s.sz - 1) = (records w block s.sz).eraseIdx idx := by
  have hsz : idx + (s.sz - 1 - idx) + 1 = s.sz := by omega
  have hbound : (idx + (s.sz - 1 - idx) + 1) * w ≤ block.length := by
    rw [hsz]
    exact h.mul_le
  refine ⟨shift w (s.sz - 1 - idx) idx block, ?_, ⟨rfl, ?_, h.small, h.room.pred, ?_⟩, ?_⟩
  · have hneg : ¬ (idx : ℤ) < 0 := by omega
    have hzero : ¬ s.sz = 0 := by omega
    simp only [aListDelete, if_neg hneg, h.ls, if_neg hzero, Int.toNat_natCast,
      deleteLoop_eq hbound]
    rfl
  · rw [length_shift hbound, h.length]
  · exact le_trans (Nat.sub_le _ 1) h.int
  · have hshift := records_shift hbound
    rwa [hsz, show idx + (s.sz - 1 - idx) = s.sz - 1 by omega] at hshift

end Good

/-- **A call that fits runs, its slot is inside the block, and the elements are those of the
sequence.** -/
theorem Good.call_of_fits (h : Good w s block cap) {c : Call w} (hlegal : Legal s c)
    (hfits : Fits s c) :
    ∃ s' slot block' cap', call s c = .ok (s', slot) ∧ (∀ p ∈ slot, Inside w s' p) ∧
      Good w s' block' cap' ∧ records w block' s'.sz = next (records w block s.sz) c slot := by
  cases c with
  | add v fresh =>
      obtain ⟨block', cap', hadd, hgood, hkept⟩ := h.aListAdd_of_fits hfits
      obtain ⟨hstore, hgood', hrecords⟩ := hgood.store v
      refine ⟨_, some (s.sz * w), _, cap', ?_, ?_, hgood', ?_⟩
      · simp only [call, hadd]
        show (do let s' ← Amortized.store _ _ v.toList; _) = _
        rw [hstore]
        rfl
      · rintro p hp
        cases hp
        have hle := hgood'.mul_le
        rw [Nat.succ_mul] at hle
        exact ⟨_, rfl, hle⟩
      · rw [hrecords, hkept]
        rfl
  | delete idx =>
      by_cases hneg : idx < 0
      · refine ⟨s, none, block, cap, ?_, by simp, h, by rw [next, if_pos hneg]⟩
        simp only [call, aListDelete, if_pos hneg]
        rfl
      · lift idx to ℕ using by omega
        have hidx : idx < s.sz := Int.ofNat_lt.1 hlegal
        obtain ⟨block', hdelete, hgood, hrecords⟩ := h.aListDelete_eq hidx
        refine ⟨_, none, block', cap, ?_, by simp, hgood, ?_⟩
        · simp only [call, hdelete]
          rfl
        · rw [hrecords, next, if_neg hneg, Int.toNat_natCast]

/-- An addition that does not fit is undefined or leaves a list without elements. -/
theorem Good.lost_of_not_fits (h : Good w s block cap) {c : Call w} (hfits : ¬ Fits s c)
    {slot : Option ℕ} (hcall : call s c = .ok (s', slot)) : elements w s' = none := by
  cases c with
  | delete idx => exact absurd trivial hfits
  | add v fresh =>
      obtain ⟨hgrows, hmax⟩ := Classical.not_imp.1 hfits
      by_cases hdouble : intMax < s.sz * 2
      · simp only [call, aListAdd, if_pos hgrows, if_pos hdouble] at hcall
        cases hcall
      · have hrealloc : realloc s.ls (s.sz * 2 * w % 2 ^ 64) fresh = none := by
          rw [realloc, h.mod_eq]
          split
          · rfl
          · rename_i hsize
            have hfresh : fresh = none := by
              by_contra hfresh
              exact hmax ⟨by omega, by omega, hfresh⟩
            rw [hfresh]
            rfl
        simp only [call, aListAdd, if_pos hgrows, if_neg hdouble, hrealloc] at hcall
        cases hcall
        rfl

/-! ## Sequences -/

theorem AllKeep.elements_eq {cs : List (Call w)} {xs : List (List Byte)} (h : AllKeep s xs cs) :
    elements w s = some xs := by
  cases cs with
  | nil => exact h
  | cons c cs => exact h.1

theorem allLegal_cons {c : Call w} {cs : List (Call w)} {slot : Option ℕ}
    (hcall : call s c = .ok (s', slot)) : AllLegal s (c :: cs) ↔ Legal s c ∧ AllLegal s' cs := by
  refine and_congr_right fun _ => ⟨fun h => h s' slot hcall, fun h t slot' ht => ?_⟩
  rw [hcall] at ht
  cases ht
  exact h

theorem allFit_cons {c : Call w} {cs : List (Call w)} {slot : Option ℕ}
    (hcall : call s c = .ok (s', slot)) : AllFit s (c :: cs) ↔ Fits s c ∧ AllFit s' cs := by
  refine and_congr_right fun _ => ⟨fun h => h s' slot hcall, fun h t slot' ht => ?_⟩
  rw [hcall] at ht
  cases ht
  exact h

theorem Good.allKeep_iff (h : Good w s block cap) {cs : List (Call w)} (hlegal : AllLegal s cs) :
    AllKeep s (records w block s.sz) cs ↔ AllFit s cs := by
  induction cs generalizing s block cap with
  | nil => exact iff_of_true h.elements_eq trivial
  | cons c cs ih =>
      by_cases hfits : Fits s c
      · obtain ⟨s', slot, block', cap', hcall, hinside, hgood, hrecords⟩ :=
          h.call_of_fits hlegal.1 hfits
        have hrest := ih hgood ((allLegal_cons hcall).1 hlegal).2
        rw [hrecords] at hrest
        rw [allFit_cons hcall]
        constructor
        · rintro ⟨-, t, slot', hcall', -, hkeep⟩
          rw [hcall] at hcall'
          cases hcall'
          exact ⟨hfits, hrest.1 hkeep⟩
        · rintro ⟨-, hfit⟩
          exact ⟨h.elements_eq, s', slot, hcall, hinside, hrest.2 hfit⟩
      · refine iff_of_false ?_ fun hfit => hfits hfit.1
        rintro ⟨-, s', slot, hcall, -, hkeep⟩
        have hlost := h.lost_of_not_fits hfits hcall
        rw [hkeep.elements_eq] at hlost
        cases hlost

/-- **The calls on a new list keep its elements and its slots inside the block iff each addition
fits.** -/
theorem elements_kept_iff {cs : List (Call w)} (hinit : aListInit w calloc = some s)
    (hlegal : AllLegal s cs) : AllKeep s [] cs ↔ AllFit s cs := by
  obtain ⟨hgood, hsz⟩ := good_init hinit
  have h := hgood.allKeep_iff hlegal
  rw [hsz] at h
  exact h

/-- A fifth element, two deletions, and the size is a power of two again with a larger block behind
it. -/
theorem elements_kept_shrunk : ∃ s, aListInit 1 true = some s ∧
    AllKeep s [] ([1, 2, 3, 4, 5].map (fun b => Call.add (w := 1) ⟨[b], rfl⟩ (some fun _ => 0)) ++
      [.delete 1, .delete 0, .add ⟨[6], rfl⟩ none, .add ⟨[7], rfl⟩ (some fun _ => 0)]) := by
  refine ⟨_, rfl, (elements_kept_iff (show aListInit 1 true = some _ from rfl) ?_).2 ?_⟩
  · simp only [List.map_cons, List.map_nil, List.cons_append, List.nil_append]
    iterate 5 refine (allLegal_cons rfl).2 ⟨trivial, ?_⟩
    iterate 2 refine (allLegal_cons rfl).2 ⟨by unfold Legal; decide, ?_⟩
    iterate 2 refine (allLegal_cons rfl).2 ⟨trivial, ?_⟩
    exact trivial
  · simp only [List.map_cons, List.map_nil, List.cons_append, List.nil_append]
    iterate 5
      refine (allFit_cons rfl).2 ⟨fun _ => ⟨by decide, by decide, Option.some_ne_none _⟩, ?_⟩
    iterate 2 refine (allFit_cons rfl).2 ⟨trivial, ?_⟩
    refine (allFit_cons rfl).2 ⟨fun hgrows => absurd hgrows (by decide), ?_⟩
    refine (allFit_cons rfl).2 ⟨fun _ => ⟨by decide, by decide, Option.some_ne_none _⟩, ?_⟩
    exact trivial

/-- The fifth element needs a larger block and `realloc` has no memory: the four before it are
gone. -/
theorem elements_lost_fifth_add :
    ∃ s, aListInit 1 true = some s ∧
      AllLegal s ([1, 2, 3, 4, 5].map fun b => Call.add (w := 1) ⟨[b], rfl⟩ none) ∧
      ¬ AllKeep s [] ([1, 2, 3, 4, 5].map fun b => Call.add (w := 1) ⟨[b], rfl⟩ none) := by
  have hlegal : AllLegal ⟨some (List.replicate (Mem.aListInitLen * 1) 0), 0⟩
      ([1, 2, 3, 4, 5].map fun b => Call.add (w := 1) ⟨[b], rfl⟩ none) := by
    iterate 5 refine (allLegal_cons rfl).2 ⟨trivial, ?_⟩
    exact trivial
  obtain ⟨hgood, -⟩ := good_init (show aListInit 1 true = some _ from rfl)
  refine ⟨_, rfl, hlegal, fun hkeep => ?_⟩
  have hfit := (hgood.allKeep_iff hlegal).1 hkeep
  iterate 4 replace hfit := ((allFit_cons rfl).1 hfit).2
  exact (hfit.1 (by decide)).2.2 rfl

end Amortized

end Yacet
