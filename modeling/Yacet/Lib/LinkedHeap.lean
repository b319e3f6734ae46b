import Mathlib.Data.List.Nodup
import Mathlib.Tactic

/-!
# Singly linked lists on a heap with explicit deallocation

A heap maps the addresses of live cells to a payload and a `next` pointer.  Reading, writing or
freeing an address that is not live is a fault.

* `Seg h p ns q` — following `next` from `p` visits exactly the cells `ns` and arrives at `q`.
* `Seg.frame` — a change outside the visited cells does not disturb a segment.
* `Seg.insert_front`, `Seg.insert_behind` — linking in a fresh cell.
* `forEach_of_seg` — a walk along a list is a fold over its payloads.
* `freeAll_of_seg` — a list is freed cell by cell, and nothing else is.
-/

namespace LinkedHeap

/-- What stops a run on the heap. -/
inductive Fault where
  | dangling (a : ℕ)
  | outOfFuel
  deriving DecidableEq, Repr

/-- A list cell. -/
structure Cell (V : Type) where
  next : Option ℕ
  node : V

/-- The live cells, and the first address never handed out. -/
structure Heap (V : Type) where
  cells : ℕ → Option (Cell V)
  brk : ℕ

namespace Heap

variable {V : Type}

def empty : Heap V := ⟨fun _ => none, 0⟩

def read (h : Heap V) (a : ℕ) : Except Fault (Cell V) :=
  match h.cells a with
  | some c => .ok c
  | none => .error (.dangling a)

def write (h : Heap V) (a : ℕ) (c : Cell V) : Except Fault (Heap V) :=
  match h.cells a with
  | some _ => .ok { h with cells := Function.update h.cells a (some c) }
  | none => .error (.dangling a)

def free (h : Heap V) (a : ℕ) : Except Fault (Heap V) :=
  match h.cells a with
  | some _ => .ok { h with cells := Function.update h.cells a none }
  | none => .error (.dangling a)

/-- `malloc` of an initialised cell: its address is fresh. -/
def malloc (h : Heap V) (c : Cell V) : Heap V × ℕ :=
  (⟨Function.update h.cells h.brk (some c), h.brk + 1⟩, h.brk)

theorem read_of_cells {h : Heap V} {a : ℕ} {c : Cell V} (hc : h.cells a = some c) :
    h.read a = .ok c := by
  simp only [read, hc]

theorem write_of_cells {h : Heap V} {a : ℕ} {c : Cell V} (hc : h.cells a = some c) (c' : Cell V) :
    h.write a c' = .ok { h with cells := Function.update h.cells a (some c') } := by
  simp only [write, hc]

end Heap

variable {V : Type}

/-- The cells `ns` are chained from pointer `p` to pointer `q`. -/
def Seg (h : Heap V) : Option ℕ → List (ℕ × V) → Option ℕ → Prop
  | p, [], q => p = q
  | p, (a, v) :: ns, q => p = some a ∧ ∃ nx, h.cells a = some ⟨nx, v⟩ ∧ Seg h nx ns q

/-- The addresses of a chain. -/
abbrev addrs (ns : List (ℕ × V)) : List ℕ := ns.map Prod.fst

/-- The payloads of a chain. -/
abbrev nodes (ns : List (ℕ × V)) : List V := ns.map Prod.snd

variable {h : Heap V} {p q : Option ℕ} {ns ms : List (ℕ × V)}

theorem Seg.append (h1 : Seg h p ns q) {r : Option ℕ} (h2 : Seg h q ms r) :
    Seg h p (ns ++ ms) r := by
  induction ns generalizing p with
  | nil => cases h1; exact h2
  | cons n ns ih =>
      obtain ⟨a, v⟩ := n
      obtain ⟨rfl, nx, hc, hs⟩ := h1
      exact ⟨rfl, nx, hc, ih hs⟩

/-- What is visited up to the end of a list is determined. -/
theorem Seg.unique (h1 : Seg h p ns none) (h2 : Seg h p ms none) : ns = ms := by
  induction ns generalizing p ms with
  | nil =>
      cases h1
      cases ms with
      | nil => rfl
      | cons m ms => cases h2.1
  | cons n ns ih =>
      obtain ⟨a, v⟩ := n
      obtain ⟨rfl, nx, hc, hs⟩ := h1
      cases ms with
      | nil => cases h2
      | cons m ms =>
          obtain ⟨b, w⟩ := m
          obtain ⟨hab, nx', hc', hs'⟩ := h2
          cases hab
          rw [hc] at hc'
          cases hc'
          rw [ih hs hs']

/-- **Frame rule**: cells that are not visited may change. -/
theorem Seg.frame {h' : Heap V} (hs : Seg h p ns q) (hc : ∀ a ∈ addrs ns, h'.cells a = h.cells a) :
    Seg h' p ns q := by
  induction ns generalizing p with
  | nil => exact hs
  | cons n ns ih =>
      obtain ⟨a, v⟩ := n
      obtain ⟨rfl, nx, hcell, hs⟩ := hs
      refine ⟨rfl, nx, ?_, ih hs fun b hb => hc b (List.mem_cons_of_mem _ hb)⟩
      rw [hc a List.mem_cons_self, hcell]

theorem Seg.frame_update (hs : Seg h p ns q) {a : ℕ} (ha : a ∉ addrs ns) (c : Option (Cell V))
    (brk : ℕ) : Seg ⟨Function.update h.cells a c, brk⟩ p ns q :=
  hs.frame fun b hb => Function.update_of_ne (by rintro rfl; exact ha hb) _ _

/-- The last visited cell points to the end of the segment. -/
theorem Seg.cells_last {a : ℕ} {v : V} (hs : Seg h p (ns ++ [(a, v)]) q) :
    h.cells a = some ⟨q, v⟩ := by
  induction ns generalizing p with
  | nil =>
      obtain ⟨rfl, nx, hcell, rfl⟩ := hs
      exact hcell
  | cons n ns ih =>
      obtain ⟨_, nx, _, hs⟩ := hs
      exact ih hs

/-- Redirecting the last visited cell appends at the end of a segment. -/
theorem Seg.redirect_last {a : ℕ} {v : V} (hs : Seg h p (ns ++ [(a, v)]) q)
    (hnd : (addrs (ns ++ [(a, v)])).Nodup) (r : Option ℕ) (brk : ℕ) :
    Seg ⟨Function.update h.cells a (some ⟨r, v⟩), brk⟩ p (ns ++ [(a, v)]) r := by
  induction ns generalizing p with
  | nil =>
      obtain ⟨rfl, _, _, _⟩ := hs
      exact ⟨rfl, r, Function.update_self _ _ _, rfl⟩
  | cons n ns ih =>
      obtain ⟨b, w⟩ := n
      obtain ⟨rfl, nx, hcell, hs⟩ := hs
      simp only [addrs, List.cons_append, List.map_cons, List.nodup_cons] at hnd
      have hba : b ≠ a := by
        rintro rfl
        exact hnd.1 (by simp)
      refine ⟨rfl, nx, ?_, ih hs hnd.2⟩
      show Function.update h.cells a _ b = _
      rw [Function.update_of_ne hba, hcell]

/-- Overwriting the payload of the first cell. -/
theorem Seg.overwrite_head {a : ℕ} {w : V} {nx : Option ℕ}
    (hs : Seg h nx ns q) (ha : a ∉ addrs ns) (brk : ℕ) :
    Seg ⟨Function.update h.cells a (some ⟨nx, w⟩), brk⟩ (some a) ((a, w) :: ns) q :=
  ⟨rfl, nx, Function.update_self _ _ _, hs.frame_update ha _ _⟩

/-- A fresh cell `a` linked in front of a segment. -/
theorem Seg.insert_front {a : ℕ} {v : V} (hs : Seg h p ns q) (ha : a ∉ addrs ns) (brk : ℕ) :
    Seg ⟨Function.update h.cells a (some ⟨p, v⟩), brk⟩ (some a) ((a, v) :: ns) q :=
  ⟨rfl, p, Function.update_self _ _ _, hs.frame_update ha _ _⟩

/-- A fresh cell `a` linked in behind the cell `s`. -/
theorem Seg.insert_behind {a s : ℕ} {v w : V} {r : Option ℕ} (h1 : Seg h p (ns ++ [(s, w)]) q)
    (h2 : Seg h q ms r) (hnd : (addrs (ns ++ [(s, w)] ++ ms)).Nodup)
    (ha : a ∉ addrs (ns ++ [(s, w)] ++ ms)) (brk : ℕ) :
    Seg ⟨Function.update (Function.update h.cells a (some ⟨q, v⟩)) s (some ⟨some a, w⟩), brk⟩
      p (ns ++ [(s, w)] ++ (a, v) :: ms) r := by
  simp only [addrs, List.map_append, List.mem_append, not_or] at hnd ha
  rw [List.nodup_append] at hnd
  have hsa : a ≠ s := by
    rintro rfl
    exact ha.1.2 (by simp)
  have hs : s ∉ addrs ms := fun hs => hnd.2.2 s (by simp) s hs rfl
  have hfront := (h2.insert_front (v := v) ha.2 brk).frame_update (a := s)
    (by simpa using ⟨hsa.symm, by simpa using hs⟩) (some ⟨some a, w⟩) brk
  have hback := (h1.frame_update (a := a) (by simpa using ha.1) (some ⟨q, v⟩) brk).redirect_last
    (by simpa using hnd.1) (some a) brk
  exact hback.append hfront

/-! ## Walks -/

/-- A walk from `p` that acts on each payload; `wrap` makes the fault of a read one of the
action's. -/
def forEach {ε S : Type} (wrap : Fault → ε) (act : S → V → Except ε S) :
    ℕ → Heap V → Option ℕ → S → Except ε S
  | 0, _, _, _ => .error (wrap .outOfFuel)
  | _ + 1, _, none, s => .ok s
  | fuel + 1, h, some a, s =>
    match h.read a with
    | .error e => .error (wrap e)
    | .ok c => act s c.node >>= forEach wrap act fuel h c.next

theorem forEach_of_seg {ε S : Type} {wrap : Fault → ε} {act : S → V → Except ε S} {fuel : ℕ} {s : S}
    (hs : Seg h p ns none) (hfuel : ns.length < fuel) :
    forEach wrap act fuel h p s = (nodes ns).foldlM act s := by
  induction ns generalizing p fuel s with
  | nil =>
      cases hs
      cases fuel with
      | zero => cases hfuel
      | succ fuel => rfl
  | cons n ns ih =>
      obtain ⟨a, v⟩ := n
      obtain ⟨rfl, nx, hc, hs⟩ := hs
      cases fuel with
      | zero => cases hfuel
      | succ fuel =>
          rw [forEach, Heap.read_of_cells hc, nodes, List.map_cons, List.foldlM_cons]
          have hrest : forEach wrap act fuel h nx = fun s => (nodes ns).foldlM act s := by
            funext s
            exact ih hs (Nat.lt_of_succ_lt_succ hfuel)
          simp only [hrest]

/-- `free` of every cell from `p` on; `next` is read before the cell is freed. -/
def freeAll : ℕ → Heap V → Option ℕ → Except Fault (Heap V)
  | 0, _, _ => .error .outOfFuel
  | _ + 1, h, none => .ok h
  | fuel + 1, h, some a =>
    match h.read a with
    | .error e => .error e
    | .ok c => h.free a >>= fun h => freeAll fuel h c.next

theorem freeAll_of_seg {fuel : ℕ} (hs : Seg h p ns none) (hnd : (addrs ns).Nodup)
    (hfuel : ns.length < fuel) :
    ∃ h', freeAll fuel h p = .ok h' ∧ ∀ a, h'.cells a = if a ∈ addrs ns then none
      else h.cells a := by
  induction ns generalizing h p fuel with
  | nil =>
      cases hs
      cases fuel with
      | zero => cases hfuel
      | succ fuel => exact ⟨h, rfl, fun a => by simp⟩
  | cons n ns ih =>
      obtain ⟨a, v⟩ := n
      obtain ⟨rfl, nx, hc, hs⟩ := hs
      obtain ⟨ha, hnd⟩ := List.nodup_cons.1 hnd
      cases fuel with
      | zero => cases hfuel
      | succ fuel =>
          have hs' := hs.frame_update ha none h.brk
          obtain ⟨h', hrun, hcells⟩ := ih hs' hnd (Nat.lt_of_succ_lt_succ hfuel)
          have hfree : h.free a = .ok { h with cells := Function.update h.cells a none } := by
            rw [Heap.free, hc]
          refine ⟨h', ?_, fun b => ?_⟩
          · rw [freeAll, Heap.read_of_cells hc, hfree]
            exact hrun
          · rw [hcells b]
            by_cases hb : b = a
            · subst hb
              simp
            · have hmem : b ∈ addrs ((a, v) :: ns) ↔ b ∈ addrs ns :=
                List.mem_cons.trans (or_iff_right hb)
              by_cases hin : b ∈ addrs ns
              · rw [if_pos hin, if_pos (hmem.2 hin)]
              · rw [if_neg hin, if_neg (mt hmem.1 hin)]
                exact Function.update_of_ne hb _ _

/-! ## Which cells are live -/

/-- Every live cell was live before. -/
def Heap.Subset (h' h : Heap V) : Prop := ∀ a, h'.cells a ≠ none → h.cells a ≠ none

theorem Heap.Subset.refl (h : Heap V) : h.Subset h := fun _ ha => ha

theorem Heap.Subset.trans {h₁ h₂ h₃ : Heap V} (h : h₁.Subset h₂) (h' : h₂.Subset h₃) :
    h₁.Subset h₃ :=
  fun a ha => h' a (h a ha)

theorem Heap.subset_of_write {h' : Heap V} {a : ℕ} {c : Cell V} (hw : h.write a c = .ok h') :
    h'.Subset h ∧ h'.brk = h.brk := by
  unfold Heap.write at hw
  split at hw
  · rename_i c' hc
    cases hw
    refine ⟨fun b hb => ?_, rfl⟩
    by_cases hba : b = a
    · rw [hba, hc]
      exact Option.some_ne_none _
    · have hb' : Function.update h.cells a (some c) b ≠ none := hb
      rwa [Function.update_of_ne hba] at hb'
  · cases hw

theorem Heap.subset_of_free {h' : Heap V} {a : ℕ} (hf : h.free a = .ok h') :
    h'.Subset h ∧ h'.brk = h.brk := by
  unfold Heap.free at hf
  split at hf
  · cases hf
    refine ⟨fun b hb => ?_, rfl⟩
    by_cases hba : b = a
    · subst hba
      simp at hb
    · have hb' : Function.update h.cells a none b ≠ none := hb
      rwa [Function.update_of_ne hba] at hb'
  · cases hf

end LinkedHeap
