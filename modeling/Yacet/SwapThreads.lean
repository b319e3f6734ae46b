import Yacet.LockNames
import Yacet.SwapFile
import Yacet.Lib.Footprint

/-!
# The swap files of a range (`swap_file_path`, `thd_open_files`)

One thread per file pulls, edits and pushes, call by call, beside the threads of the other files.
A thread reaches two names: its file and what `swap_file_path` makes of the file's path.

* `swapFilePath` — the name of a swap file; `thdStep` — the calls of one thread.
* `pull_calls` — the calls of a pull, undisturbed, write what `addOracles` says.
* `Apart` — no two paths are alike from the last slash on, and none is the swap file of another.
* `isolated_iff` — exactly then are the swap files distinct and does no text cross over.
* `swap_collision` — `/a/f` and `/b/f`: the text of the second ends up in the first.
-/

namespace Yacet

open Descriptor CText Footprint

/-! ## Names -/

/-- A path from its last slash on, all of it where it has none. -/
def fromLastSlash (path : Text) : Text := (strrchr '/' path).getD path

/-- `swap_file_path`. -/
def swapFilePath (srcDir fPath : Text) : Text :=
  srcDir ++ fromLastSlash fPath ++ ['.', 's', 'w', 'p']

theorem swapFilePath_inj {dir p q : Text} :
    swapFilePath dir p = swapFilePath dir q ↔ fromLastSlash p = fromLastSlash q := by
  rw [swapFilePath, swapFilePath, List.append_left_inj, List.append_right_inj]

namespace SwapThreads

/-! ## One thread -/

/-- `st.st_size` and the offsets of the two descriptors in `add_oracles`. -/
structure Copy where
  size : ℕ
  swp : ℕ
  backing : ℕ
  deriving DecidableEq, Repr

/-- `tmp_fd`, `st.st_size`, the offset of `backing_fd` and `pos` in `write_offset_update`. -/
structure Splice where
  tmp : Fd Byte
  size : ℕ
  backing : ℕ
  pos : ℤ

/-- Where a thread is: in front of which call of `pull_swap_file`, of the editor or of
`push_swap_file`. -/
inductive Pc
  /-- the lock and the two `open`s -/
  | pull
  /-- `add_oracles`: at the transfer in front of the next node, or of the tail -/
  | gap (c : Copy) (swpPos : ℤ) (ns : List ItNode)
  | opening (c : Copy) (n : ItNode) (ns : List ItNode)
  | text (c : Copy) (n : ItNode) (ns : List ItNode)
  | closing (c : Copy) (cond : ℤ) (n : ItNode) (ns : List ItNode)
  | edit
  | searchOpen (off : ℕ) (found ns : List ItNode)
  | searchClose (oOpen : ℕ) (found : List ItNode) (n : ItNode) (ns : List ItNode)
  /-- `query_resize_file` up to the loop of `write_offset_update` -/
  | resize
  | moveGap (w : Splice) (ou : List OffsetUpdate)
  | moveText (w : Splice) (u : OffsetUpdate) (ou : List OffsetUpdate)
  | moveBack (tmp : List Byte)
  | truncate (size : ℕ)
  | unlink
  | done

/-- The list of the thread's file and where it is. -/
structure Thd where
  it : List ItNode
  pc : Pc

inductive Act
  /-- the next call of the thread, which may fail -/
  | call (ok : Bool)
  /-- the editor turns the text of the swap file into another -/
  | edit (f : List Byte → List Byte)
  /-- the answers of the database, or a failure before the copying starts -/
  | resize (rows : Option (List (ℤ × ℤ)))

/-- What the names of the swap file and of the file stand for; `none` is no file. -/
abbrev Content := Option (List Byte)

/-- The next call of `thd_open_files`; `mult` is `multiple_mode`.  A call on a descriptor whose file
has lost its name leaves no trace under that name. -/
def call (mult : Bool) (o : Oracles) (ok : Bool) (th : Thd) (swp file : Content) :
    Option (Thd × Content × Content) :=
  match th.pc with
  | .pull =>
    match file with
    | none => some (⟨th.it, .done⟩, swp, file)
    | some F =>
      -- opened with `O_CREAT` and without `O_TRUNC`
      if ok then some (⟨th.it, .gap ⟨F.length, 0, 0⟩ 0 th.it⟩, some (swp.getD []), file)
      else some (⟨th.it, .done⟩, swp, file)
  | .gap c _ [] =>
    let (out, _, _) := sendfile nul ok ⟨swp.getD [], c.swp⟩ ⟨file.getD [], c.backing⟩
      ((c.size : ℤ) - c.backing)
    some (⟨th.it, .edit⟩, swp.map fun _ => out.data, file)
  | .gap c swpPos (n :: ns) =>
    let (out, inp, _) := sendfile nul ok ⟨swp.getD [], c.swp⟩ ⟨file.getD [], c.backing⟩
      (n.base - swpPos)
    some (⟨th.it, .opening ⟨c.size, out.pos, inp.pos⟩ n ns⟩, swp.map fun _ => out.data, file)
  | .opening c n ns =>
    let out := (⟨swp.getD [], c.swp⟩ : Fd Byte).write nul (keep ok o.opening)
    some (⟨th.it, .text ⟨c.size, out.pos, c.backing⟩ n ns⟩, swp.map fun _ => out.data, file)
  | .text c n ns =>
    let adjBound := if n.bound > c.size then c.size else n.bound
    let (out, inp, cond) := sendfile nul ok ⟨swp.getD [], c.swp⟩ ⟨file.getD [], c.backing⟩
      ((adjBound : ℤ) - n.base)
    some (⟨th.it, .closing ⟨c.size, out.pos, inp.pos⟩ cond n ns⟩, swp.map fun _ => out.data, file)
  | .closing c cond n ns =>
    let out := (⟨swp.getD [], c.swp⟩ : Fd Byte).write nul (keep ok o.closing)
    -- the loop breaks off when a text could not be copied
    some (⟨th.it, .gap ⟨c.size, out.pos, c.backing⟩ n.bound (if cond < 0 then [] else ns)⟩,
      swp.map fun _ => out.data, file)
  | .edit =>
    -- the editor has failed: told to stop in multiple mode, on its own in single mode
    some (⟨th.it, if mult then .unlink else .done⟩, swp, file)
  | .searchOpen _ found [] => some (⟨found, .resize⟩, swp, file)
  | .searchOpen off found (n :: ns) =>
    match swp.bind fun s => oracleSearch ok o.opening s off with
    | none => some (⟨found ++ n :: ns, .edit⟩, swp, file)
    | some oOpen => some (⟨th.it, .searchClose oOpen found n ns⟩, swp, file)
  | .searchClose oOpen found n ns =>
    match swp.bind fun s => oracleSearch ok o.closing s (oOpen + o.opening.length) with
    | none => some (⟨found ++ n :: ns, .edit⟩, swp, file)
    | some oClose =>
      some (⟨th.it, .searchOpen (oClose + o.closing.length)
        (found ++ [{ n with base := oOpen + o.opening.length, bound := oClose }]) ns⟩, swp, file)
  | .resize => none
  | .moveGap w [] =>
    let (tmp, _, _) := sendfile nul ok w.tmp ⟨file.getD [], w.backing⟩ ((w.size : ℤ) - w.pos)
    some (⟨th.it, .moveBack tmp.data⟩, swp, file)
  | .moveGap w (u :: ou) =>
    let (tmp, inp, _) := sendfile nul ok w.tmp ⟨file.getD [], w.backing⟩ (u.backingStart - w.pos)
    some (⟨th.it, .moveText ⟨tmp, w.size, inp.pos, w.pos⟩ u ou⟩, swp, file)
  | .moveText w u ou =>
    let (inp, pos) := (⟨file.getD [], w.backing⟩ : Fd Byte).lseek true u.backingEnd
    let (tmp, _, _) := sendfile nul ok w.tmp ⟨swp.getD [], u.swpStart⟩ ((u.swpEnd : ℤ) - u.swpStart)
    some (⟨th.it, .moveGap ⟨tmp, w.size, inp.pos, pos⟩ ou⟩, swp, file)
  | .moveBack tmp =>
    let (out, _, ret) := sendfile nul ok ⟨file.getD [], 0⟩ ⟨tmp, 0⟩ tmp.length
    some (⟨th.it, if ret ≥ 0 then .truncate tmp.length else .unlink⟩, swp,
      file.map fun _ => out.data)
  | .truncate size =>
    some (⟨th.it, .unlink⟩, swp, file.map fun F => if ok then ftruncate nul F size else F)
  | .unlink => some (⟨th.it, .done⟩, if ok then none else swp, file)
  | .done => none

/-- A step of the thread; in a `mode` other than `'w'` the push only unlinks the swap file. -/
def thdStep (mult write : Bool) (o : Oracles) (a : Act) (th : Thd) (swp file : Content) :
    Option (Thd × Content × Content) :=
  match a with
  | .call ok => call mult o ok th swp file
  | .edit f =>
    match th.pc with
    | .edit => some (⟨th.it, if write then .searchOpen 0 [] th.it else .unlink⟩, swp.map f, file)
    | _ => none
  | .resize rows =>
    match th.pc with
    | .resize =>
      match rows, file with
      | some rows, some F =>
        let ou := List.zipWith (fun r n => (⟨r.1, r.2, n.base, n.bound⟩ : OffsetUpdate)) rows th.it
        some (⟨th.it, .moveGap ⟨⟨[], 0⟩, F.length, 0, 0⟩ ou⟩, swp, file)
      | _, _ => some (⟨th.it, .unlink⟩, swp, file)
    | _ => none

/-! ## The threads of a range -/

/-- A file of the range, with the oracles that the options give its path. -/
structure RangeFile where
  filePath : Text
  it : List ItNode
  o : Oracles
  proper : o.Proper

variable {dir : Text} {mult write : Bool} {r : List RangeFile} {i j : Fin r.length}

/-- The thread of a file: it reaches its swap file and the file. -/
def thread (dir : Text) (mult write : Bool) (r : List RangeFile) (i : Fin r.length) :
    Program Text Content Thd Act :=
  reach (swapFilePath dir r[i].filePath) r[i].filePath (thdStep mult write r[i].o)

/-- All threads have been created, over the files as they are. -/
def start (r : List RangeFile) (files : Text → Content) :
    Shared (Fin r.length) Text Content Thd :=
  ⟨fun i => ⟨r[i].it, .pull⟩, files⟩

/-- The files of the range are there. -/
def Present (r : List RangeFile) (files : Text → Content) : Prop :=
  ∀ rf ∈ r, (files rf.filePath).isSome

/-- The swap files are pairwise distinct, and what a thread's swap file and its file hold at any
time follows from what they held at the start and from the thread's own steps. -/
structure Isolated (dir : Text) (mult write : Bool) (r : List RangeFile) : Prop where
  distinct : ∀ i j : Fin r.length, i ≠ j →
    swapFilePath dir r[i].filePath ≠ swapFilePath dir r[j].filePath
  texts : ∀ (i : Fin r.length) (files₁ files₂ : Text → Content)
      (ls₁ ls₂ : List (Fin r.length × Act)) (τ₁ τ₂ : Shared (Fin r.length) Text Content Thd),
      Present r files₁ → Present r files₂ →
    Agree {swapFilePath dir r[i].filePath, r[i].filePath} files₁ files₂ →
    run (thread dir mult write r) ls₁ (start r files₁) = some τ₁ →
    run (thread dir mult write r) ls₂ (start r files₂) = some τ₂ →
    own i ls₁ = own i ls₂ →
    Agree {swapFilePath dir r[i].filePath, r[i].filePath} τ₁.store τ₂.store

/-- No two paths are alike from the last slash on, and no file is the swap file of another. -/
def Apart (dir : Text) (r : List RangeFile) : Prop :=
  ∀ i j : Fin r.length, i ≠ j →
    fromLastSlash r[i].filePath ≠ fromLastSlash r[j].filePath ∧
      swapFilePath dir r[i].filePath ≠ r[j].filePath

/-! ## A pull, undisturbed -/

section Pull

variable {o : Oracles} {it : List ItNode}

theorem sendfile_data (ok : Bool) (out inp : Fd Byte) (count : ℤ) :
    (sendfile nul ok out inp count).2.1.data = inp.data := by
  rw [sendfile_eq]
  split <;> rfl

/-- The calls of `add_oracles` from the head of its loop on. -/
theorem gap_calls (o : Oracles) (ns : List ItNode) (out inp : Fd Byte) (swpPos : ℤ) {size : ℕ}
    (hsize : size = inp.data.length) :
    ∃ k, both (thdStep mult write o) (List.replicate k (.call true))
        ⟨it, .gap ⟨size, out.pos, inp.pos⟩ swpPos ns⟩ (some out.data) (some inp.data) =
      some (⟨it, .edit⟩, some (sendfile nul true (addLoop o size out inp swpPos ns).1
        (addLoop o size out inp swpPos ns).2
        ((size : ℤ) - (addLoop o size out inp swpPos ns).2.pos)).1.data, some inp.data) := by
  induction ns generalizing out inp swpPos with
  | nil => exact ⟨1, rfl⟩
  | cons n ns ih =>
      let adjBound := if n.bound > size then size else n.bound
      let g := sendfile nul true out inp (n.base - swpPos)
      let t := sendfile nul true (g.1.write nul o.opening) g.2.1 ((adjBound : ℤ) - n.base)
      have hg : g.2.1.data = inp.data := sendfile_data true out inp _
      have ht : t.2.1.data = inp.data := (sendfile_data true _ _ _).trans hg
      -- the four calls of one round
      have hround : both (thdStep mult write o) (List.replicate 4 (.call true))
          ⟨it, .gap ⟨size, out.pos, inp.pos⟩ swpPos (n :: ns)⟩ (some out.data) (some inp.data) =
          some (⟨it, .gap ⟨size, (t.1.write nul o.closing).pos, t.2.1.pos⟩ n.bound
            (if t.2.2 < 0 then [] else ns)⟩, some (t.1.write nul o.closing).data,
            some t.2.1.data) := by
        rw [ht]
        have hg' : (⟨inp.data, g.2.1.pos⟩ : Fd Byte) = g.2.1 := by rw [← hg]
        have htext : both (thdStep mult write o) (List.replicate 2 (.call true))
            ⟨it, .text ⟨size, (g.1.write nul o.opening).pos, g.2.1.pos⟩ n ns⟩
            (some (g.1.write nul o.opening).data) (some inp.data) =
            some (⟨it, .gap ⟨size, (t.1.write nul o.closing).pos, t.2.1.pos⟩ n.bound
              (if t.2.2 < 0 then [] else ns)⟩, some (t.1.write nul o.closing).data,
              some inp.data) := by
          simp only [List.replicate, both, thdStep, call, Option.getD_some, Option.bind_some, hg',
            Option.map_some]
          rfl
        exact htext
      have hloop : addLoop o size out inp swpPos (n :: ns) =
          addLoop o size (t.1.write nul o.closing) t.2.1 n.bound (if t.2.2 < 0 then []
            else ns) := by
        rw [addLoop]
        show (if t.2.2 < 0 then _ else _) = _
        split <;> rfl
      have hrest : ∃ k, both (thdStep mult write o) (List.replicate k (.call true))
          ⟨it, .gap ⟨size, (t.1.write nul o.closing).pos, t.2.1.pos⟩ n.bound
            (if t.2.2 < 0 then [] else ns)⟩ (some (t.1.write nul o.closing).data)
            (some t.2.1.data) =
          some (⟨it, .edit⟩, some (sendfile nul true (addLoop o size out inp swpPos (n :: ns)).1
            (addLoop o size out inp swpPos (n :: ns)).2
            ((size : ℤ) - (addLoop o size out inp swpPos (n :: ns)).2.pos)).1.data,
            some inp.data) := by
        rw [hloop, ← ht]
        split
        · exact ⟨1, rfl⟩
        · exact ih _ _ _ (by rw [ht, hsize])
      obtain ⟨k, hk⟩ := hrest
      refine ⟨4 + k, ?_⟩
      rw [List.replicate_add, both_append hround]
      exact hk

/-- **The calls of a pull, undisturbed**, leave in the swap file what `add_oracles` writes. -/
theorem pull_calls (o : Oracles) (it : List ItNode) (old : Content) (F : List Byte) :
    ∃ k, both (thdStep mult write o) (List.replicate k (.call true)) ⟨it, .pull⟩ old (some F) =
      some (⟨it, .edit⟩, some (addOracles o it F (old.getD [])), some F) := by
  obtain ⟨k, hk⟩ := @gap_calls mult write it o it ⟨old.getD [], 0⟩ ⟨F, 0⟩ 0 F.length rfl
  exact ⟨k + 1, hk⟩

end Pull

/-! ## All threads -/

/-- No file is its own swap file. -/
theorem swapFilePath_ne (dir p : Text) : swapFilePath dir p ≠ p := by
  intro h
  by_cases hp : '/' ∈ p
  · obtain ⟨s, t, rfl, ht⟩ := exists_last hp
    have hslash : strrchr '/' (s ++ '/' :: t) = some ('/' :: t) := strrchr_append ht
    rw [swapFilePath, fromLastSlash, hslash, Option.getD_some, List.append_assoc,
      List.cons_append] at h
    have hlast : strrchr '/' (dir ++ '/' :: (t ++ ['.', 's', 'w', 'p'])) =
        some ('/' :: (t ++ ['.', 's', 'w', 'p'])) := by
      apply strrchr_append
      simp [ht]
    rw [h, hslash] at hlast
    have hlen := congrArg List.length (Option.some.inj hlast)
    simp at hlen
  · rw [swapFilePath, fromLastSlash, strrchr_eq_none hp, Option.getD_none] at h
    have hlen := congrArg List.length h
    simp at hlen
    omega

/-- The names of two threads do not meet. -/
theorem Apart.disjoint (h : Apart dir r) (hpaths : (r.map RangeFile.filePath).Nodup)
    (i j : Fin r.length) (hij : i ≠ j) (name : Text)
    (hi : name ∈ ({swapFilePath dir r[i].filePath, r[i].filePath} : Set Text)) :
    name ∉ ({swapFilePath dir r[j].filePath, r[j].filePath} : Set Text) := by
  have hpath : r[i].filePath ≠ r[j].filePath := by
    intro he
    have hinj := List.nodup_iff_injective_get.1 hpaths
    have hget := @hinj ⟨i, by simp⟩ ⟨j, by simp⟩ (by simpa using he)
    exact hij (Fin.ext (Fin.mk.inj hget))
  intro hj
  rw [Set.mem_insert_iff, Set.mem_singleton_iff] at hi hj
  rcases hi with rfl | rfl
  · rcases hj with hj | hj
    · exact (h i j hij).1 (swapFilePath_inj.1 hj)
    · exact (h i j hij).2 hj
  · rcases hj with hj | hj
    · exact (h j i (Ne.symm hij)).2 hj.symm
    · exact hpath hj

/-- **In every interleaving** of the threads of a range whose names are apart, a thread that has
made the calls of its pull has the text of its own file in its swap file. -/
theorem Apart.pulled (h : Apart dir r) (hpaths : (r.map RangeFile.filePath).Nodup)
    {files : Text → Content} {F : List Byte} (hF : files r[i].filePath = some F) :
    ∃ k, ∀ ls τ, run (thread dir mult write r) ls (start r files) = some τ →
      own i ls = List.replicate k (.call true) →
      τ.store (swapFilePath dir r[i].filePath) =
        some (addOracles r[i].o r[i].it F ((files (swapFilePath dir r[i].filePath)).getD [])) := by
  obtain ⟨k, hk⟩ := @pull_calls mult write r[i].o r[i].it
    (files (swapFilePath dir r[i].filePath)) F
  refine ⟨k, fun ls τ hrun hown => ?_⟩
  rw [← hF] at hk
  obtain ⟨s, halone, hswp, -⟩ := alone_reach (swapFilePath_ne dir r[i].filePath) hk
  obtain ⟨s', halone', hagree⟩ := run_alone (fun i => reach_bounded _ _ _) (h.disjoint hpaths) hrun
    (fun _ _ => rfl) (i := i)
  rw [hown] at halone'
  have heq : some (τ.mem i, s') = some (_, s) := halone'.symm.trans halone
  rw [hagree _ (Set.mem_insert _ _), (Prod.mk.inj (Option.some.inj heq)).2, hswp]

theorem write_ne_nil {fd : Fd Byte} {bs : List Byte} (h : bs ≠ []) :
    (fd.write nul bs).data ≠ [] := by
  rw [Fd.write, if_neg h]
  simp [h]

/-- Some calls of a pull leave a byte in a swap file that was empty. -/
theorem pull_leaves {o : Oracles} (ho : o.Proper) (it : List ItNode) (b : Byte) :
    ∃ as m v w, both (thdStep mult write o) as ⟨it, .pull⟩ (some []) (some [b]) = some (m, v, w) ∧
      v ≠ some [] := by
  cases it with
  | nil =>
      refine ⟨[.call true, .call true], _, _, _, rfl, fun hv => ?_⟩
      exact write_ne_nil (List.cons_ne_nil b []) (Option.some.inj hv)
  | cons n ns =>
      refine ⟨[.call true, .call true, .call true], _, _, _, rfl, fun hv => ?_⟩
      exact write_ne_nil ho.opening_ne (Option.some.inj hv)

/-- A file that is the swap file of another is changed by the other's thread. -/
theorem Isolated.not_swap (h : Isolated dir mult write r) (hij : i ≠ j) :
    swapFilePath dir r[i].filePath ≠ r[j].filePath := by
  intro hswap
  have hpath : r[i].filePath ≠ r[j].filePath := by
    rw [← hswap]
    exact (swapFilePath_ne dir _).symm
  -- all files are empty but that of `i`
  let files : Text → Content := fun p => if p = r[i].filePath then some [0] else some []
  have hpresent : Present r files := by
    intro rf _
    show (if _ then _ else _ : Content).isSome
    split <;> rfl
  have hfile : files r[i].filePath = some [0] := if_pos rfl
  have hother : files (swapFilePath dir r[i].filePath) = some [] := by
    rw [hswap]
    exact if_neg (Ne.symm hpath)
  obtain ⟨as, m, v, w, hboth, hv⟩ := @pull_leaves mult write r[i].o r[i].proper r[i].it 0
  rw [← hfile, ← hother] at hboth
  obtain ⟨s, halone, hs, -⟩ := alone_reach (swapFilePath_ne dir r[i].filePath) hboth
  have hrun := @run_own _ _ _ _ _ _ (thread dir mult write r) i (start r files) s as m halone
  have hagree := h.texts j files files _ [] _ _ hpresent hpresent (fun _ _ => rfl) hrun rfl
    (own_map_of_ne hij as) r[j].filePath (by simp)
  rw [← hswap] at hagree
  exact hv (hs.symm.trans (hagree.trans hother))

/-- **The texts of a range stay apart exactly when its names do**: the swap files are pairwise
distinct and no text crosses over, in any interleaving and with any failures, iff no two paths are
alike from the last slash on and none is the swap file of another. -/
theorem isolated_iff (hpaths : (r.map RangeFile.filePath).Nodup) :
    Isolated dir mult write r ↔ Apart dir r := by
  constructor
  · intro h i j hij
    exact ⟨fun he => h.distinct i j hij (swapFilePath_inj.2 he), h.not_swap hij⟩
  · intro h
    refine ⟨fun i j hij he => (h i j hij).1 (swapFilePath_inj.1 he), ?_⟩
    intro i files₁ files₂ ls₁ ls₂ τ₁ τ₂ _ _ hagree hrun₁ hrun₂ hown
    exact run_agree (fun i => reach_bounded _ _ _) (h.disjoint hpaths) hrun₁ hrun₂ hown rfl hagree

instance (dir : Text) (r : List RangeFile) : Decidable (Apart dir r) := by
  unfold Apart
  infer_instance

/-- One file with the interval `[0, 1)`. -/
def oneByte (filePath : Text) : RangeFile :=
  ⟨filePath, [⟨1, 0, 1⟩], ⟨List.replicate 8 60, List.replicate 8 62⟩,
    ⟨by decide, by decide, by decide, by decide, by decide, by decide⟩⟩

/-- Two files of one directory. -/
theorem isolated_iff_two :
    Isolated ['/', 'w'] false true [oneByte ['/', 'a', '/', 'f'], oneByte ['/', 'a', '/', 'g']] ↔
      Apart ['/', 'w'] [oneByte ['/', 'a', '/', 'f'], oneByte ['/', 'a', '/', 'g']] :=
  isolated_iff (by decide)

/-- Both threads pull, the second over the first; the editor changes nothing, the first pushes. -/
def collision : List (Fin 2 × Act) :=
  List.flatten [List.replicate 6 (0, .call true), List.replicate 6 (1, .call true),
    [(0, .edit id)], List.replicate 3 (0, .call true), [(0, .resize (some [(0, 1)]))],
    List.replicate 6 (0, .call true)]

/-- `/a/f` holds an `a` and `/b/f` a `b`; then `/a/f` holds the `b`. -/
theorem swap_collision :
    let r := [oneByte ['/', 'a', '/', 'f'], oneByte ['/', 'b', '/', 'f']]
    let files : Text → Content := fun p =>
      if p = ['/', 'a', '/', 'f'] then some [97]
      else if p = ['/', 'b', '/', 'f'] then some [98] else none
    (r.map RangeFile.filePath).Nodup ∧
      (run (thread ['/', 'w'] false true r) collision (start r files)).map
        (fun τ => τ.store ['/', 'a', '/', 'f']) = some (some [98]) ∧
      ¬ Isolated ['/', 'w'] false true r := by
  refine ⟨by decide, by decide +kernel, fun h => ?_⟩
  exact h.distinct ⟨0, by decide⟩ ⟨1, by decide⟩ (by decide) rfl

end SwapThreads

end Yacet
