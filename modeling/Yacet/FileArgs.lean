import Mathlib.Data.Char
import Mathlib.Data.List.Lex
import Yacet.Lib.Ranks
import Yacet.Lib.StringBlock
import Yacet.PrintMode

/-!
# The files of `-r` and `-w` (`main.c`)

The files of the command line are sorted by their pointers; then each distinct name is copied over
the storage of the argument whose pointer stands at its place.

* `readArgs` — where the scan of the command line stops.
* `removeDups` — the loop with its copies; `sortFiles` — what the query and the executable find.
* `Keeps` — the files sorted and without duplicates, the executable and its options as given.
* `LeavesUnread`, `LeavesPlaced` — the copy of a name leaves the arguments still to be compared, and
  what has been put in its place; `Clear` — both, if the name is copied.
* `sortFiles_keeps` — **clear copies are enough, and where only the greatest name is written over an
  argument still to be compared, all is kept iff the copies are clear.  Without files the executable
  is lost iff `-e` follows at once.**
-/

namespace Yacet.FileArgs

open CString Getopt Ranks StringBlock

/-! ## The command line -/

/-- The first file, the place behind the last one, the executable, and whether `-E` stands before
it. -/
structure Places where
  k : ℕ
  l : ℕ
  exe : ℕ
  multipleMode : Bool
  deriving DecidableEq, Repr

/-- The scan from `optind` on; `none` is the exit for want of an executable. -/
def places (argv : List Text) (optind : ℕ) : Option Places :=
  let k := optind + ((argv.drop optind).takeWhile (· = ['-', 'f'])).length
  if argv.length ≤ k then none
  else
    let l := (foreachOptarg argv k).2
    let e := l + ((argv.drop l).takeWhile fun a => a ≠ ['-', 'e'] ∧ a ≠ ['-', 'E']).length
    if argv.length - 1 ≤ e then none
    else some ⟨k, l, e + 1, argv[e]? = some ['-', 'E']⟩

/-- A command line of the `-r` or the `-w` mode. -/
def readArgs (argv : List Text) : Option Places :=
  match getopt modeOptions argv Getopt.start with
  | (some 'r', s) => places argv s.optind
  | (some 'w', s) => places argv s.optind
  | _ => none

/-! ## Memory -/

/-- The memory of the arguments, and `argv` with its last `NULL`. -/
structure Process where
  mem : Text
  argv : List (Option ℕ)
  deriving DecidableEq, Repr

/-- `argv[a]`. -/
def pointer (argv : List (Option ℕ)) (a : ℕ) : ℕ := (argv[a]?.join).getD 0

/-- The text behind `argv[a]`. -/
def textOf (argv : List (Option ℕ)) (mem : Text) (a : ℕ) : Text :=
    strAt nulChar mem (pointer argv a)

/-- The loop that removes duplicates: `i` is the last file kept, the list holds the rest of the
`j`. -/
def removeDups (argv : List (Option ℕ)) : ℕ → List ℕ → Text → Option (Text × ℕ)
  | i, [], mem => some (mem, i)
  | i, j :: js, mem =>
    if textOf argv mem i ≠ textOf argv mem j then
      if i + 1 ≠ j then
        (strcpy nulChar mem (pointer argv (i + 1)) (pointer argv j)).bind
          (removeDups argv (i + 1) js)
      else removeDups argv (i + 1) js mem
    else removeDups argv i js mem

/-- `argv` at the start. -/
def pointers (args : List Text) : List (Option ℕ) :=
  (List.range args.length).map (fun a => some (offset nulChar args a)) ++ [none]

/-- `argv` behind `qsort`, which leaves the files in the order `sorted`. -/
def sortedArgv (args : List Text) (w : Places) (sorted : List ℕ) : List (Option ℕ) :=
  let argv := (pointers args).set w.l none
  argv.take w.k ++ sorted.map some ++ argv.drop w.l

/-- What the query and the executable find; `none` if a copy was undefined. -/
def sortFiles (args : List Text) (w : Places) (sorted : List ℕ) : Option Process :=
  let argv := sortedArgv args w sorted
  (removeDups argv w.k (List.range' (w.k + 1) (w.l - (w.k + 1))) (layout nulChar args)).map
    fun (mem, i) => ⟨mem, argv.set (i + 1) none⟩

/-- The files that the query reads from `&argv[k]`. -/
def fileFilter (s : Process) (k : ℕ) : List Text :=
  ((s.argv.drop k).takeWhile Option.isSome).filterMap (Option.map (strAt nulChar s.mem))

/-- What stands in `p_exe_path`, up to the last `NULL`. -/
def exePath (s : Process) (exe : ℕ) : List (Option Text) :=
  (s.argv.drop exe).map (Option.map (strAt nulChar s.mem))

/-! ## What is to be kept -/

/-- The file arguments. -/
def files (args : List Text) (w : Places) : List Text := (args.drop w.k).take (w.l - w.k)

/-- The name at an address, as it was given. -/
def nameOf (args : List Text) (p : ℕ) : Text := strAt nulChar (layout nulChar args) p

/-- What `qsort` may leave; the order of equal names is its own. -/
structure Sorts (args : List Text) (w : Places) (sorted : List ℕ) : Prop where
  perm : sorted.Perm ((List.range' w.k (w.l - w.k)).map (offset nulChar args))
  ordered : (sorted.map (nameOf args)).Pairwise (· ≤ ·)

/-- The files sorted and without duplicates, the executable and its options as given. -/
structure Kept (args : List Text) (w : Places) (s : Process) : Prop where
  sorted : (fileFilter s w.k).Pairwise (· < ·)
  mem : ∀ f, f ∈ fileFilter s w.k ↔ f ∈ files args w
  exe : exePath s w.exe = (args.drop w.exe).map some ++ [none]

/-- The scan ends, with all of this kept. -/
def Keeps (args : List Text) (w : Places) (sorted : List ℕ) : Prop :=
  ∃ s, sortFiles args w sorted = some s ∧ Kept args w s

section Copies

variable (args : List Text) (w : Places) (sorted : List ℕ)

/-- The storage that the name gets. -/
def target (s : Text) : ℕ := (sorted[rank (files args w) s]?).getD 0

/-- The storage of the first argument with the name, in the sorted order. -/
def source (s : Text) : ℕ := (sorted[below (files args w) s]?).getD 0

/-- A smaller name has been given twice, so that this one is copied. -/
def Moved (s : Text) : Prop := rank (files args w) s ≠ below (files args w) s

instance (s : Text) : Decidable (Moved args w s) := inferInstanceAs (Decidable (_ ≠ _))

/-- The copy of a name does not overlap its source, and leaves the arguments that may still have to
be compared: those with no smaller name. -/
structure LeavesUnread (s : Text) : Prop where
  apart : Apart (target args w sorted s) s (source args w sorted s) s
  later : ∀ a, (h : a < args.length) → w.k ≤ a → a < w.l → s ≤ args[a] →
    offset nulChar args a ≠ source args w sorted s →
    Agree nulChar (target args w sorted s) s (offset nulChar args a) args[a]

/-- It leaves the smaller names where they have been put, and the executable with its options. -/
structure LeavesPlaced (s : Text) : Prop where
  smaller : ∀ r ∈ files args w, r < s →
    Agree nulChar (target args w sorted s) s (target args w sorted r) r
  exe : ∀ a, (h : a < args.length) → w.exe ≤ a →
    Agree nulChar (target args w sorted s) s (offset nulChar args a) args[a]

/-- If the name is copied, all that is still needed is left. -/
def Clear (s : Text) : Prop :=
  Moved args w s → LeavesUnread args w sorted s ∧ LeavesPlaced args w sorted s

instance (s : Text) : Decidable (LeavesUnread args w sorted s) :=
  decidable_of_iff (_ ∧ _) ⟨fun h => ⟨h.1, h.2⟩, fun h => ⟨h.apart, h.later⟩⟩

instance (s : Text) : Decidable (LeavesPlaced args w sorted s) :=
  decidable_of_iff (_ ∧ _) ⟨fun h => ⟨h.1, h.2⟩, fun h => ⟨h.smaller, h.exe⟩⟩

instance (s : Text) : Decidable (Clear args w sorted s) :=
  inferInstanceAs (Decidable (_ → _ ∧ _))

end Copies

variable {args : List Text} {w : Places} {sorted : List ℕ}

/-- A command line that has been scanned and sorted. -/
structure Line (args : List Text) (w : Places) (sorted : List ℕ) : Prop where
  k_le : w.k ≤ w.l
  l_lt : w.l < w.exe
  exe_lt : w.exe < args.length
  strings : ∀ s ∈ args, nulChar ∉ s
  sorts : Sorts args w sorted

theorem line_of_places {optind : ℕ} (h : places args optind = some w)
    (hargs : ∀ s ∈ args, nulChar ∉ s) (hsort : Sorts args w sorted) : Line args w sorted := by
  unfold places at h
  simp only at h
  split at h
  · cases h
  · split at h
    · cases h
    · rename_i hexe
      cases h
      exact ⟨Nat.le_add_right _ _, Nat.lt_succ_of_le (Nat.le_add_right _ _), by simp only; omega,
        hargs, hsort⟩

theorem line_of_readArgs (h : readArgs args = some w) (hargs : ∀ s ∈ args, nulChar ∉ s)
    (hsort : Sorts args w sorted) : Line args w sorted := by
  unfold readArgs at h
  split at h
  · exact line_of_places h hargs hsort
  · exact line_of_places h hargs hsort
  · cases h

/-! ## The sorted pointers -/

theorem nameOf_offset (hargs : ∀ s ∈ args, nulChar ∉ s) {a : ℕ} (ha : a < args.length) :
    nameOf args (offset nulChar args a) = args[a] :=
  strAt_of_holds (holds_layout ha hargs)

theorem target_eq {s : Text} (hlt : rank (files args w) s < sorted.length) :
    target args w sorted s = sorted[rank (files args w) s] := by
  rw [target, List.getElem?_eq_getElem hlt, Option.getD_some]

namespace Line

theorem args_ne_nil (h : Line args w sorted) : args ≠ [] := by
  rintro rfl
  exact absurd h.exe_lt (Nat.not_lt_zero _)

theorem length_sorted (h : Line args w sorted) : sorted.length = w.l - w.k := by
  rw [h.sorts.perm.length_eq, List.length_map, List.length_range']

/-- A sorted pointer points to a file argument. -/
theorem exists_arg (h : Line args w sorted) {p : ℕ} (hp : p ∈ sorted) :
    ∃ a, ∃ ha : a < args.length, w.k ≤ a ∧ a < w.l ∧ p = offset nulChar args a ∧
      nameOf args p = args[a] := by
  obtain ⟨a, ha, rfl⟩ := List.mem_map.1 (h.sorts.perm.mem_iff.1 hp)
  rw [List.mem_range'_1] at ha
  have hlen : a < args.length := by
    have := h.l_lt
    have := h.exe_lt
    omega
  exact ⟨a, hlen, ha.1, by omega, rfl, nameOf_offset h.strings hlen⟩

theorem offset_mem (h : Line args w sorted) {a : ℕ} (hk : w.k ≤ a) (hl : a < w.l) :
    offset nulChar args a ∈ sorted :=
  h.sorts.perm.mem_iff.2 (List.mem_map.2 ⟨a, List.mem_range'_1.2 ⟨hk, by omega⟩, rfl⟩)

theorem holds_nameOf (h : Line args w sorted) {p : ℕ} (hp : p ∈ sorted) :
    Holds nulChar (layout nulChar args) p (nameOf args p) := by
  obtain ⟨a, ha, -, -, rfl, hname⟩ := h.exists_arg hp
  rw [hname]
  exact holds_layout ha h.strings

/-- The names in the sorted order are the files. -/
theorem names_perm (h : Line args w sorted) : (sorted.map (nameOf args)).Perm (files args w) := by
  have hfiles : ((List.range' w.k (w.l - w.k)).map (offset nulChar args)).map (nameOf args) =
      files args w := by
    have hlen : w.l < args.length := h.l_lt.trans h.exe_lt
    refine List.ext_getElem ?_ fun v hv _ => ?_
    · rw [files, List.length_map, List.length_map, List.length_range', List.length_take,
        List.length_drop]
      omega
    · simp only [List.length_map, List.length_range'] at hv
      simp only [files, List.getElem_map, List.getElem_range', List.getElem_take, List.getElem_drop]
      rw [one_mul, nameOf_offset h.strings (by omega)]
  rw [← hfiles]
  exact h.sorts.perm.map _

theorem nameOf_mem (h : Line args w sorted) {p : ℕ} (hp : p ∈ sorted) :
    nameOf args p ∈ files args w :=
  h.names_perm.mem_iff.1 (List.mem_map.2 ⟨p, hp, rfl⟩)

theorem exists_place (h : Line args w sorted) {r : Text} (hr : r ∈ files args w) :
    ∃ v, ∃ hv : v < sorted.length, r = nameOf args sorted[v] := by
  obtain ⟨p, hp, rfl⟩ := List.mem_map.1 (h.names_perm.mem_iff.2 hr)
  obtain ⟨v, hv, rfl⟩ := List.getElem_of_mem hp
  exact ⟨v, hv, rfl⟩

theorem nameOf_le (h : Line args w sorted) {u v : ℕ} (huv : u ≤ v) (hv : v < sorted.length) :
    nameOf args sorted[u] ≤ nameOf args sorted[v] := by
  rcases Nat.lt_or_eq_of_le huv with hlt | rfl
  · have hpair := List.pairwise_iff_getElem.1 h.sorts.ordered u v (by simp; omega) (by simpa) hlt
    simpa only [List.getElem_map] using hpair
  · exact le_rfl

/-- A smaller name stands further to the left. -/
theorem lt_of_nameOf_lt (h : Line args w sorted) {u v : ℕ} (hu : u < sorted.length)
    (hv : v < sorted.length) (hlt : nameOf args sorted[u] < nameOf args sorted[v]) : u < v := by
  by_contra hle
  exact absurd (h.nameOf_le (Nat.le_of_not_lt hle) hu) (not_le.2 hlt)

theorem nodup_sorted (h : Line args w sorted) : sorted.Nodup := by
  refine h.sorts.perm.nodup_iff.2 (List.Nodup.map_on (fun a ha b hb hab => ?_) List.nodup_range')
  rw [List.mem_range'_1] at ha hb
  have hl := h.l_lt
  have he := h.exe_lt
  rcases Nat.lt_trichotomy a b with hlt | heq | hlt
  · have := offset_lt nulChar args hlt (by omega)
    omega
  · exact heq
  · have := offset_lt nulChar args hlt (by omega)
    omega

/-! ## Ranks of the files -/

theorem rank_lt (h : Line args w sorted) {s : Text} (hs : s ∈ files args w) :
    rank (files args w) s < sorted.length := by
  have hlen := h.names_perm.length_eq
  rw [List.length_map] at hlen
  exact hlen ▸ rank_lt_length hs

/-- The next name has the next rank. -/
theorem rank_next (h : Line args w sorted) {j : ℕ} (hj : j + 1 < sorted.length)
    (hlt : nameOf args sorted[j] < nameOf args sorted[j + 1]) :
    rank (files args w) (nameOf args sorted[j + 1]) =
      rank (files args w) (nameOf args sorted[j]) + 1 := by
  refine rank_succ (h.nameOf_mem (List.getElem_mem _)) fun r hr => ⟨fun hr' => ?_, fun hr' => ?_⟩
  · obtain ⟨v, hv, rfl⟩ := h.exists_place hr
    have := h.lt_of_nameOf_lt hv hj hr'
    exact h.nameOf_le (by omega) (by omega)
  · exact hr'.trans_lt hlt

/-- The first of equal names stands behind exactly the smaller ones. -/
theorem below_next (h : Line args w sorted) {j : ℕ} (hj : j + 1 < sorted.length)
    (hlt : nameOf args sorted[j] < nameOf args sorted[j + 1]) :
    below (files args w) (nameOf args sorted[j + 1]) = j + 1 := by
  rw [← below_perm h.names_perm]
  have hlen : j + 1 < (sorted.map (nameOf args)).length := by simpa
  have hget : (sorted.map (nameOf args))[j + 1] = nameOf args sorted[j + 1] := List.getElem_map _
  rw [← hget]
  refine below_getElem h.sorts.ordered hlen fun r hr => ?_
  obtain ⟨v, hv, rfl⟩ := List.mem_take_iff_getElem.1 hr
  rw [hget, List.getElem_map]
  exact (h.nameOf_le (by omega) (by omega)).trans_lt hlt

theorem source_next (h : Line args w sorted) {j : ℕ} (hj : j + 1 < sorted.length)
    (hlt : nameOf args sorted[j] < nameOf args sorted[j + 1]) :
    source args w sorted (nameOf args sorted[j + 1]) = sorted[j + 1] := by
  rw [source, h.below_next hj hlt, List.getElem?_eq_getElem hj, Option.getD_some]

/-! ## `argv` -/

theorem drop_sortedArgv (h : Line args w sorted) :
    (sortedArgv args w sorted).drop w.k =
      sorted.map some ++ none :: (pointers args).drop (w.l + 1) := by
  have hk := h.k_le
  have hl := h.l_lt
  have he := h.exe_lt
  have hlen : (pointers args).length = args.length + 1 := by simp [pointers]
  rw [sortedArgv, List.append_assoc,
    List.drop_left' (by rw [List.length_take, List.length_set]; omega),
    List.drop_eq_getElem_cons (by rw [List.length_set]; omega), List.getElem_set_self,
    List.drop_set_of_lt (by omega)]

theorem pointer_sortedArgv (h : Line args w sorted) {v : ℕ} (hv : v < sorted.length) :
    pointer (sortedArgv args w sorted) (w.k + v) = sorted[v] := by
  have hget : (sortedArgv args w sorted)[w.k + v]? = some (some sorted[v]) := by
    rw [← List.getElem?_drop, h.drop_sortedArgv, List.getElem?_append_left (by simpa),
      List.getElem?_map, List.getElem?_eq_getElem hv]
    rfl
  rw [pointer, hget]
  rfl

theorem textOf_sortedArgv (h : Line args w sorted) {v : ℕ} (hv : v < sorted.length) (mem : Text) :
    textOf (sortedArgv args w sorted) mem (w.k + v) = strAt nulChar mem sorted[v] := by
  rw [textOf, h.pointer_sortedArgv hv]

end Line

/-! ## One round of the loop -/

/-- The loop has compared the sorted names up to place `j`; `x` is the last of them. -/
structure Inv (args : List Text) (w : Places) (sorted : List ℕ) (j : ℕ) (x mem : Text) : Prop where
  cur : ∃ hj : j < sorted.length, x = nameOf args sorted[j]
  placed : ∀ r ∈ files args w, r ≤ x → Holds nulChar mem (target args w sorted r) r
  unread : ∀ v, (hv : v < sorted.length) → j < v →
    Holds nulChar mem sorted[v] (nameOf args sorted[v])
  exe : ∀ a, (h : a < args.length) → w.exe ≤ a → Holds nulChar mem (offset nulChar args a) args[a]
  length : (layout nulChar args).length ≤ mem.length
  last : mem.getLast? = some nulChar

namespace Inv

variable {j : ℕ} {x mem : Text}

/-- Before the loop the first name stands at its place. -/
theorem start (h : Line args w sorted) (hpos : 0 < sorted.length) :
    Inv args w sorted 0 (nameOf args sorted[0]) (layout nulChar args) where
  cur := ⟨hpos, rfl⟩
  placed r hr hle := by
    have hleast : ∀ t ∈ files args w, nameOf args sorted[0] ≤ t := by
      intro t ht
      obtain ⟨v, hv, rfl⟩ := h.exists_place ht
      exact h.nameOf_le (Nat.zero_le v) hv
    obtain rfl : r = nameOf args sorted[0] := le_antisymm hle (hleast r hr)
    rw [target_eq (h.rank_lt hr)]
    simp only [rank_eq_zero hleast]
    exact h.holds_nameOf (List.getElem_mem hpos)
  unread v hv _ := h.holds_nameOf (List.getElem_mem hv)
  exe a ha _ := holds_layout ha h.strings
  length := le_rfl
  last := getLast?_layout h.args_ne_nil

theorem mem_files (hi : Inv args w sorted j x mem) (h : Line args w sorted) : x ∈ files args w := by
  obtain ⟨hj, rfl⟩ := hi.cur
  exact h.nameOf_mem (List.getElem_mem hj)

/-- What `argv[i]` reads. -/
theorem textOf_kept (hi : Inv args w sorted j x mem) (h : Line args w sorted) :
    textOf (sortedArgv args w sorted) mem (w.k + rank (files args w) x) = x := by
  have hx := hi.mem_files h
  rw [h.textOf_sortedArgv (h.rank_lt hx), ← target_eq (h.rank_lt hx)]
  exact strAt_of_holds (hi.placed x hx le_rfl)

/-- What `argv[j]` reads. -/
theorem textOf_next (hi : Inv args w sorted j x mem) (h : Line args w sorted)
    (hj : j + 1 < sorted.length) :
    textOf (sortedArgv args w sorted) mem (w.k + (j + 1)) = nameOf args sorted[j + 1] := by
  rw [h.textOf_sortedArgv hj]
  exact strAt_of_holds (hi.unread (j + 1) hj (Nat.lt_succ_self j))

/-- A duplicate. -/
theorem skip (hi : Inv args w sorted j x mem) (hj : j + 1 < sorted.length)
    (hx : x = nameOf args sorted[j + 1]) : Inv args w sorted (j + 1) x mem :=
  { hi with
    cur := ⟨hj, hx⟩
    unread := fun v hv hlt => hi.unread v hv (by omega) }

/-- A name up to the next one has been met, or is the next one. -/
theorem le_or_eq (hi : Inv args w sorted j x mem) (h : Line args w sorted)
    (hj : j + 1 < sorted.length) {r : Text} (hr : r ∈ files args w)
    (hle : r ≤ nameOf args sorted[j + 1]) :
    r ≤ x ∨ r = nameOf args sorted[j + 1] := by
  obtain ⟨hj', rfl⟩ := hi.cur
  rcases hle.lt_or_eq with hlt | heq
  · obtain ⟨v, hv, rfl⟩ := h.exists_place hr
    have := h.lt_of_nameOf_lt hv hj hlt
    exact Or.inl (h.nameOf_le (by omega) hj')
  · exact Or.inr heq

/-- A new name that stands at its place already. -/
theorem keep (hi : Inv args w sorted j x mem) (h : Line args w sorted) (hj : j + 1 < sorted.length)
    (hrank : rank (files args w) (nameOf args sorted[j + 1]) = j + 1) :
    Inv args w sorted (j + 1) (nameOf args sorted[j + 1]) mem :=
  { hi with
    cur := ⟨hj, rfl⟩
    placed := fun r hr hle => by
      rcases hi.le_or_eq h hj hr hle with hx | rfl
      · exact hi.placed r hr hx
      · rw [target_eq (h.rank_lt hr)]
        simp only [hrank]
        exact hi.unread (j + 1) hj (Nat.lt_succ_self j)
    unread := fun v hv hlt => hi.unread v hv (by omega) }

/-- The storage of a file lies in the block. -/
theorem target_le (hi : Inv args w sorted j x mem) (h : Line args w sorted) {s : Text}
    (hs : s ∈ files args w) : target args w sorted s < mem.length := by
  rw [target_eq (h.rank_lt hs)]
  have := lt_length_of_holds (h.holds_nameOf (List.getElem_mem (h.rank_lt hs)))
  have := hi.length
  omega

/-- A new name that is copied. -/
theorem copy (hi : Inv args w sorted j x mem) (h : Line args w sorted) (hj : j + 1 < sorted.length)
    (hlt : x < nameOf args sorted[j + 1])
    (hunread : LeavesUnread args w sorted (nameOf args sorted[j + 1]))
    (hplaced : LeavesPlaced args w sorted (nameOf args sorted[j + 1])) :
    Inv args w sorted (j + 1) (nameOf args sorted[j + 1])
      (write nulChar mem (target args w sorted (nameOf args sorted[j + 1]))
        (nameOf args sorted[j + 1])) := by
  have hs := h.nameOf_mem (List.getElem_mem hj)
  have hnul := (h.holds_nameOf (List.getElem_mem hj)).notMem
  have hin := (hi.target_le h hs).le
  constructor
  case cur => exact ⟨hj, rfl⟩
  case placed =>
    intro r hr hle
    rcases hi.le_or_eq h hj hr hle with hx | rfl
    · exact holds_write_agree (hi.placed r hr hx) hnul hin (hplaced.smaller r hr (hx.trans_lt hlt))
    · exact holds_write_self hnul hin
  case unread =>
    intro v hv hjv
    have hold := hi.unread v hv (by omega)
    have hsource := h.source_next hj (by
      obtain ⟨_, rfl⟩ := hi.cur
      exact hlt)
    obtain ⟨a, ha, hk, hl, hoff, hname⟩ := h.exists_arg (List.getElem_mem hv)
    apply holds_write_agree hold hnul hin
    rw [hname, hoff]
    refine hunread.later a ha hk hl (hname ▸ h.nameOf_le hjv.le hv) ?_
    rw [← hoff, hsource]
    intro heq
    have := (h.nodup_sorted.getElem_inj_iff).1 heq
    omega
  case exe => exact fun a ha hle =>
    holds_write_agree (hi.exe a ha hle) hnul hin (hplaced.exe a ha hle)
  case length => exact hi.length.trans length_le_write
  case last => exact getLast?_write hi.last

end Inv

/-! ## The loop -/

section Loop

variable {argv : List (Option ℕ)} {mem mem' x : Text} {i i' j : ℕ} {js : List ℕ}

/-- The new name at `j + 1`: whether it is copied, and what the loop goes on with. -/
theorem removeDups_new (h : Line args w sorted) (hi : Inv args w sorted j x mem)
    (hj : j + 1 < sorted.length) (hne : x ≠ nameOf args sorted[j + 1]) :
    removeDups (sortedArgv args w sorted) (w.k + rank (files args w) x)
      ((w.k + (j + 1)) :: js) mem =
      if Moved args w (nameOf args sorted[j + 1]) then
        (strcpy nulChar mem (target args w sorted (nameOf args sorted[j + 1])) sorted[j + 1]).bind
          (removeDups (sortedArgv args w sorted)
            (w.k + rank (files args w) (nameOf args sorted[j + 1])) js)
      else
        removeDups (sortedArgv args w sorted)
          (w.k + rank (files args w) (nameOf args sorted[j + 1])) js mem := by
  have hs := h.nameOf_mem (List.getElem_mem hj)
  have hlt : x < nameOf args sorted[j + 1] := by
    obtain ⟨hj', rfl⟩ := hi.cur
    exact lt_of_le_of_ne (h.nameOf_le (Nat.le_succ j) hj) hne
  have hranks : rank (files args w) (nameOf args sorted[j + 1]) = rank (files args w) x + 1 ∧
      below (files args w) (nameOf args sorted[j + 1]) = j + 1 := by
    obtain ⟨hj', rfl⟩ := hi.cur
    exact ⟨h.rank_next hj hlt, h.below_next hj hlt⟩
  have hi' : w.k + rank (files args w) x + 1 =
      w.k + rank (files args w) (nameOf args sorted[j + 1]) := by
    rw [hranks.1, Nat.add_assoc]
  rw [removeDups, hi.textOf_kept h, hi.textOf_next h hj, if_pos hne, hi', h.pointer_sortedArgv hj,
    h.pointer_sortedArgv (h.rank_lt hs), target_eq (h.rank_lt hs)]
  refine if_congr ?_ rfl rfl
  rw [Moved, hranks.2]
  exact ⟨fun hne heq => hne (by rw [heq]), fun hne heq => hne (by omega)⟩

/-- **A round in which a name that is copied is copied clear.** -/
theorem removeDups_step (js : List ℕ) (h : Line args w sorted) (hi : Inv args w sorted j x mem)
    (hj : j + 1 < sorted.length) (hclear : Clear args w sorted (nameOf args sorted[j + 1])) :
    ∃ mem', Inv args w sorted (j + 1) (nameOf args sorted[j + 1]) mem' ∧
      removeDups (sortedArgv args w sorted) (w.k + rank (files args w) x)
        ((w.k + (j + 1)) :: js) mem =
        removeDups (sortedArgv args w sorted)
          (w.k + rank (files args w) (nameOf args sorted[j + 1])) js mem' := by
  have hs := h.nameOf_mem (List.getElem_mem hj)
  by_cases hx : x = nameOf args sorted[j + 1]
  · refine ⟨mem, hx ▸ hi.skip hj hx, ?_⟩
    rw [removeDups, hi.textOf_kept h, hi.textOf_next h hj, if_neg (not_not.2 hx), hx]
  have hlt : x < nameOf args sorted[j + 1] := by
    obtain ⟨hj', rfl⟩ := hi.cur
    exact lt_of_le_of_ne (h.nameOf_le (Nat.le_succ j) hj) hx
  have hj₀ : j < sorted.length := by omega
  have hfirst : nameOf args sorted[j] < nameOf args sorted[j + 1] := by
    obtain ⟨hj', rfl⟩ := hi.cur
    exact hlt
  rw [removeDups_new h hi hj hx]
  by_cases hmoved : Moved args w (nameOf args sorted[j + 1])
  · obtain ⟨hunread, hplaced⟩ := hclear hmoved
    refine ⟨_, hi.copy h hj hlt hunread hplaced, ?_⟩
    have hread : strAt nulChar mem sorted[j + 1] = nameOf args sorted[j + 1] :=
      strAt_of_holds (hi.unread (j + 1) hj (Nat.lt_succ_self j))
    have happart := hunread.apart
    rw [h.source_next hj hfirst] at happart
    rw [if_pos hmoved, strcpy]
    simp only [hread]
    rw [if_pos happart, Option.bind_some]
  · refine ⟨mem, hi.keep h hj ?_, if_neg hmoved⟩
    rw [not_not.1 hmoved, h.below_next hj hfirst]

/-- **The loop while it copies clear**, from place `j` over `m` more places. -/
theorem removeDups_run (h : Line args w sorted) (rest : ℕ) : ∀ (m : ℕ) {j : ℕ} {x mem : Text},
    Inv args w sorted j x mem → j + m < sorted.length →
    (∀ v, (hv : v < sorted.length) → v ≤ j + m → Clear args w sorted (nameOf args sorted[v])) →
    ∃ x' mem', Inv args w sorted (j + m) x' mem' ∧
      removeDups (sortedArgv args w sorted) (w.k + rank (files args w) x)
          (List.range' (w.k + (j + 1)) (m + rest)) mem =
        removeDups (sortedArgv args w sorted) (w.k + rank (files args w) x')
          (List.range' (w.k + (j + m + 1)) rest) mem'
  | 0, j, x, mem, hi, _, _ => ⟨x, mem, hi, by rw [Nat.zero_add, Nat.add_zero]⟩
  | m + 1, j, x, mem, hi, hm, hclear => by
    obtain ⟨mem₁, hi₁, hround⟩ := removeDups_step (List.range' (w.k + (j + 1) + 1) (m + rest))
      h hi (by omega) (hclear (j + 1) (by omega) (by omega))
    obtain ⟨x', mem', hi', hrun⟩ := removeDups_run h rest m hi₁ (by omega)
      fun v hv hle => hclear v hv (by omega)
    refine ⟨x', mem', by rwa [show j + (m + 1) = j + 1 + m by omega], ?_⟩
    rw [show m + 1 + rest = m + rest + 1 by omega, List.range'_succ, hround,
      show j + (m + 1) + 1 = j + 1 + m + 1 by omega, ← hrun]
    rfl

/-- The number of files kept does not fall, and rises at most once a round. -/
theorem le_of_removeDups : ∀ {js : List ℕ} {i : ℕ} {mem : Text},
    removeDups argv i js mem = some (mem', i') → i ≤ i' ∧ i' ≤ i + js.length
  | [], i, mem, hrun => by
    cases hrun
    exact ⟨le_rfl, le_rfl⟩
  | j :: js, i, mem, hrun => by
    rw [removeDups] at hrun
    rw [List.length_cons]
    split at hrun
    · have hrest : i + 1 ≤ i' ∧ i' ≤ i + 1 + js.length := by
        split at hrun
        · obtain ⟨mem₁, -, hrest⟩ := Option.bind_eq_some_iff.1 hrun
          exact le_of_removeDups hrest
        · exact le_of_removeDups hrun
      omega
    · have hrest := le_of_removeDups hrun
      omega

/-- The block does not shrink and still ends with the end of a string. -/
theorem block_of_removeDups : ∀ {js : List ℕ} {i : ℕ} {mem : Text},
    removeDups argv i js mem = some (mem', i') → mem.getLast? = some nulChar →
      mem.length ≤ mem'.length ∧ mem'.getLast? = some nulChar
  | [], i, mem, hrun, hlast => by
    cases hrun
    exact ⟨le_rfl, hlast⟩
  | j :: js, i, mem, hrun, hlast => by
    rw [removeDups] at hrun
    split at hrun
    · split at hrun
      · obtain ⟨mem₁, hcopy, hrest⟩ := Option.bind_eq_some_iff.1 hrun
        obtain ⟨s, rfl⟩ := write_of_strcpy hcopy
        obtain ⟨hlength, hend⟩ := block_of_removeDups hrest (getLast?_write hlast)
        exact ⟨length_le_write.trans hlength, hend⟩
      · exact block_of_removeDups hrun hlast
    · exact block_of_removeDups hrun hlast

/-- If it stays, all that has been read is the last name, and nothing has been copied. -/
theorem eq_of_removeDups : ∀ {js : List ℕ},
    removeDups argv i js mem = some (mem', i) →
      mem' = mem ∧ ∀ j ∈ js, textOf argv mem i = textOf argv mem j
  | [], hrun => by
    cases hrun
    exact ⟨rfl, fun j hj => by cases hj⟩
  | j :: js, hrun => by
    rw [removeDups] at hrun
    split at hrun
    · exfalso
      have hrise : i + 1 ≤ i := by
        split at hrun
        · obtain ⟨mem₁, -, hrest⟩ := Option.bind_eq_some_iff.1 hrun
          exact (le_of_removeDups hrest).1
        · exact (le_of_removeDups hrun).1
      omega
    · rename_i heq
      obtain ⟨hmem, hall⟩ := eq_of_removeDups hrun
      refine ⟨hmem, fun j' hj' => ?_⟩
      rcases List.mem_cons.1 hj' with rfl | hj'
      · exact not_not.1 heq
      · exact hall j' hj'

end Loop

/-! ## What is found behind the loop -/

section Result

variable {mem : Text} {i m : ℕ} {g : Text}

theorem takeWhile_set_none (rest : List (Option ℕ)) : ∀ (ps : List ℕ) (m : ℕ), m ≤ ps.length →
    ((ps.map some ++ none :: rest).set m none).takeWhile Option.isSome = (ps.take m).map some
  | [], m, hm => by
    obtain rfl : m = 0 := Nat.le_zero.1 hm
    rfl
  | p :: ps, 0, _ => rfl
  | p :: ps, m + 1, hm => by
    rw [List.map_cons, List.cons_append, List.set_cons_succ, List.takeWhile_cons_of_pos rfl,
      takeWhile_set_none rest ps m (Nat.le_of_succ_le_succ hm)]
    rfl

theorem Line.fileFilter_eq (h : Line args w sorted) (mem : Text) (hm : m ≤ sorted.length) :
    fileFilter ⟨mem, (sortedArgv args w sorted).set (w.k + m) none⟩ w.k =
      (sorted.take m).map (strAt nulChar mem) := by
  have hdrop : ((sortedArgv args w sorted).set (w.k + m) none).drop w.k =
      ((sortedArgv args w sorted).drop w.k).set m none := by
    rw [List.drop_set, if_neg (by omega), Nat.add_sub_cancel_left]
  rw [fileFilter, hdrop, h.drop_sortedArgv, takeWhile_set_none _ _ _ hm]
  simp [List.filterMap_map]

theorem Line.drop_exe (h : Line args w sorted) :
    (sortedArgv args w sorted).drop w.exe = (pointers args).drop w.exe := by
  have hk := h.k_le
  have hl := h.l_lt
  have hlen := h.length_sorted
  have hexe : w.exe = w.k + (sorted.length + 1 + (w.exe - (w.l + 1))) := by omega
  have hsplit : (sortedArgv args w sorted).drop w.exe =
      ((sortedArgv args w sorted).drop w.k).drop (sorted.length + 1 + (w.exe - (w.l + 1))) := by
    rw [List.drop_drop, ← hexe]
  rw [hsplit, h.drop_sortedArgv, ← List.drop_drop, ← List.drop_drop,
    List.drop_left' (List.length_map some), List.drop_one, List.tail_cons, List.drop_drop]
  congr 1
  omega

/-- The executable is found as given iff its strings are in place and no `NULL` is written there. -/
theorem Line.exePath_iff (h : Line args w sorted) (mem : Text) (hm : m < w.exe) :
    exePath ⟨mem, (sortedArgv args w sorted).set m none⟩ w.exe = (args.drop w.exe).map some ++
      [none] ↔
      ∀ a, (ha : a < args.length) → w.exe ≤ a →
      strAt nulChar mem (offset nulChar args a) = args[a] := by
  have he := h.exe_lt
  have hpath : exePath ⟨mem, (sortedArgv args w sorted).set m none⟩ w.exe =
      ((List.range args.length).drop w.exe).map
        (fun a => some (strAt nulChar mem (offset nulChar args a))) ++ [none] := by
    rw [exePath, List.drop_set_of_lt hm, h.drop_exe, pointers,
      List.drop_append_of_le_length (by simp; omega), List.map_append, ← List.map_drop,
      List.map_map]
    rfl
  rw [hpath, List.append_left_inj]
  constructor
  · intro heq a ha hle
    have hget := congrArg (·[a - w.exe]?) heq
    simp only [List.getElem?_map, List.getElem?_drop] at hget
    rw [show w.exe + (a - w.exe) = a by omega, List.getElem?_eq_getElem ha,
      List.getElem?_range ha] at hget
    simpa using hget
  · intro hall
    refine List.ext_getElem (by simp) fun t ht _ => ?_
    simp only [List.length_map, List.length_drop, List.length_range] at ht
    simp only [List.getElem_map, List.getElem_drop, List.getElem_range]
    rw [hall _ (by omega) (by omega)]

/-- **What is kept of a run**, with the greatest name `g`. -/
theorem Line.kept_iff (h : Line args w sorted) (hg : g ∈ files args w)
    (hmax : ∀ r ∈ files args w, r ≤ g)
    (hi : i < sorted.length) :
    Kept args w ⟨mem, (sortedArgv args w sorted).set (w.k + i + 1) none⟩ ↔
      i = rank (files args w) g ∧
      (∀ r ∈ files args w, strAt nulChar mem (target args w sorted r) = r) ∧
      ∀ a, (ha : a < args.length) → w.exe ≤ a →
        strAt nulChar mem (offset nulChar args a) = args[a] := by
  have hfilter := h.fileFilter_eq mem (m := i + 1) hi
  rw [← Nat.add_assoc] at hfilter
  have hl := h.l_lt
  have hlen := h.length_sorted
  have hexe := h.exePath_iff mem (m := w.k + i + 1) (by omega)
  have hasc := ascending_iff (d := (sorted.take (i + 1)).map (strAt nulChar mem)) hg hmax
  have hlength : ((sorted.take (i + 1)).map (strAt nulChar mem)).length = i + 1 := by
    rw [List.length_map, List.length_take]
    omega
  rw [hlength] at hasc
  -- the name at its rank is the one in its storage
  have hat : i = rank (files args w) g → ∀ r ∈ files args w,
      (((sorted.take (i + 1)).map (strAt nulChar mem))[rank (files args w) r]? = some r ↔
        strAt nulChar mem (target args w sorted r) = r) := by
    intro hig r hr
    have hle : rank (files args w) r ≤ i := by
      rw [hig]
      exact List.countP_mono_left fun t _ ht => by
        simp only [decide_eq_true_eq] at ht ⊢
        exact ht.trans_le (hmax r hr)
    rw [List.getElem?_map, List.getElem?_take_of_lt (by omega), target_eq (h.rank_lt hr),
      List.getElem?_eq_getElem (h.rank_lt hr), Option.map_some, Option.some.injEq]
  constructor
  · rintro ⟨hsorted, hmem, hpath⟩
    rw [hfilter] at hsorted hmem
    obtain ⟨hi', hranks⟩ := hasc.1 ⟨hsorted, hmem⟩
    have hig : i = rank (files args w) g := Nat.succ_injective hi'
    exact ⟨hig, fun r hr => (hat hig r hr).1 (hranks r hr), hexe.1 hpath⟩
  · rintro ⟨hig, hranks, hstrings⟩
    have hboth := hasc.2 ⟨by rw [hig], fun r hr => (hat hig r hr).2 (hranks r hr)⟩
    refine ⟨?_, ?_, hexe.2 hstrings⟩
    · rw [hfilter]
      exact hboth.1
    · rw [hfilter]
      exact hboth.2

end Result

namespace Line

variable {g : Text}

/-- The loop from its start up to a place before which all copies are clear. -/
theorem removeDups_start (h : Line args w sorted) (m rest : ℕ) (hlen : m + rest + 1 = sorted.length)
    (hclear : ∀ v, (hv : v < sorted.length) → v ≤ m → Clear args w sorted (nameOf args sorted[v])) :
    ∃ x mem, Inv args w sorted m x mem ∧
      removeDups (sortedArgv args w sorted) w.k (List.range' (w.k + 1) (w.l - (w.k + 1)))
          (layout nulChar args) =
        removeDups (sortedArgv args w sorted) (w.k + rank (files args w) x)
          (List.range' (w.k + m + 1) rest) mem := by
  have hpos : 0 < sorted.length := by omega
  have hrank : rank (files args w) (nameOf args sorted[0]) = 0 := by
    refine rank_eq_zero fun r hr => ?_
    obtain ⟨v, hv, rfl⟩ := h.exists_place hr
    exact h.nameOf_le (Nat.zero_le v) hv
  obtain ⟨x, mem, hi, hrun⟩ := removeDups_run h rest m (Inv.start h hpos) (by omega)
    fun v hv hle => hclear v hv (by omega)
  rw [Nat.zero_add] at hi hrun
  rw [hrank, Nat.add_zero, Nat.zero_add] at hrun
  refine ⟨x, mem, hi, ?_⟩
  have hcount : w.l - (w.k + 1) = m + rest := by
    have := h.length_sorted
    omega
  rw [hcount, hrun, Nat.add_assoc]

/-- **All is kept iff the loop ends with each name in its storage and the executable in place.** -/
theorem keeps_iff (h : Line args w sorted) (hg : g ∈ files args w)
    (hmax : ∀ r ∈ files args w, r ≤ g) :
    Keeps args w sorted ↔
      ∃ mem, removeDups (sortedArgv args w sorted) w.k (List.range' (w.k + 1) (w.l - (w.k + 1)))
          (layout nulChar args) = some (mem, w.k + rank (files args w) g) ∧
        (∀ r ∈ files args w, Holds nulChar mem (target args w sorted r) r) ∧
        ∀ a, (ha : a < args.length) → w.exe ≤ a →
          Holds nulChar mem (offset nulChar args a) args[a] := by
  have hrank := h.rank_lt hg
  constructor
  · rintro ⟨s, hs, hkept⟩
    obtain ⟨⟨mem, i⟩, hrun, rfl⟩ := Option.map_eq_some_iff.1 hs
    obtain ⟨hge, hle⟩ := le_of_removeDups hrun
    have hlen := h.length_sorted
    rw [List.length_range'] at hle
    obtain ⟨i, rfl⟩ := Nat.exists_eq_add_of_le hge
    obtain ⟨rfl, hplaced, hexe⟩ := (h.kept_iff hg hmax (by omega)).1 hkept
    obtain ⟨hlength, hlast⟩ := block_of_removeDups hrun (getLast?_layout h.args_ne_nil)
    refine ⟨mem, hrun, fun r hr => ?_, fun a ha hle => ?_⟩
    · refine holds_of_strAt hlast ?_ (hplaced r hr)
      rw [target_eq (h.rank_lt hr)]
      have := lt_length_of_holds (h.holds_nameOf (List.getElem_mem (h.rank_lt hr)))
      omega
    · have := lt_length_of_holds (holds_layout ha h.strings)
      exact holds_of_strAt hlast (by omega) (hexe a ha hle)
  · rintro ⟨mem, hrun, hplaced, hexe⟩
    refine ⟨_, by rw [sortFiles, hrun]; rfl, (h.kept_iff hg hmax hrank).2 ⟨rfl, ?_, ?_⟩⟩
    · exact fun r hr => strAt_of_holds (hplaced r hr)
    · exact fun a ha hle => strAt_of_holds (hexe a ha hle)

/-- **If every copy is clear, all is kept.** -/
theorem keeps (h : Line args w sorted) (hg : g ∈ files args w) (hmax : ∀ r ∈ files args w, r ≤ g)
    (hclear : ∀ s ∈ files args w, Clear args w sorted s) : Keeps args w sorted := by
  have hpos : 0 < sorted.length := (Nat.zero_le _).trans_lt (h.rank_lt hg)
  obtain ⟨x, mem, hi, hrun⟩ := h.removeDups_start (sorted.length - 1) 0 (by omega)
    fun v hv _ => hclear _ (h.nameOf_mem (List.getElem_mem hv))
  have hgx : g = x := by
    have hx := hi.mem_files h
    obtain ⟨hj, rfl⟩ := hi.cur
    obtain ⟨v, hv, rfl⟩ := h.exists_place hg
    exact le_antisymm (h.nameOf_le (by omega) hj) (hmax _ hx)
  subst hgx
  exact (h.keeps_iff hg hmax).2 ⟨mem, hrun, fun r hr => hi.placed r hr (hmax r hr), hi.exe⟩

/-- **If all is kept, no copy has touched a name in its place or the executable.** -/
theorem leavesPlaced_of_keeps (h : Line args w sorted) (hg : g ∈ files args w)
    (hmax : ∀ r ∈ files args w, r ≤ g) (hkeeps : Keeps args w sorted) {s : Text}
    (hs : s ∈ files args w) : LeavesPlaced args w sorted s := by
  obtain ⟨mem, -, hplaced, hexe⟩ := (h.keeps_iff hg hmax).1 hkeeps
  exact ⟨fun r hr _ => agree_of_holds (hplaced s hs) (hplaced r hr),
    fun a ha hle => agree_of_holds (hplaced s hs) (hexe a ha hle)⟩

/-- A name that is copied is not the first in the sorted order. -/
theorem first_place (h : Line args w sorted) (hg : g ∈ files args w) (hmoved : Moved args w g) :
    ∃ j, ∃ hj : j + 1 < sorted.length, g = nameOf args sorted[j + 1] ∧
      nameOf args sorted[j] < g := by
  have hex : ∃ v, ∃ hv : v < sorted.length, g = nameOf args sorted[v] := h.exists_place hg
  obtain ⟨hv, hgv⟩ := Nat.find_spec hex
  have hmin := fun {u} => Nat.find_min hex (m := u)
  generalize Nat.find hex = v at hv hgv hmin
  cases v with
  | zero =>
      have hleast : ∀ r ∈ files args w, g ≤ r := by
        intro r hr
        obtain ⟨u, hu, rfl⟩ := h.exists_place hr
        rw [hgv]
        exact h.nameOf_le (Nat.zero_le u) hu
      refine absurd ?_ hmoved
      rw [rank_eq_zero hleast]
      exact (List.countP_eq_zero.2 fun r hr => by simpa using hleast r hr).symm
  | succ j =>
      refine ⟨j, hv, hgv, lt_of_le_of_ne ?_ fun heq =>
        hmin (Nat.lt_succ_self j) ⟨by omega, heq.symm⟩⟩
      rw [hgv]
      exact h.nameOf_le (Nat.le_succ j) hv

/-- **If all is kept, and the copies before it were clear, that of the greatest name is.** -/
theorem leavesUnread_of_keeps (h : Line args w sorted) (hg : g ∈ files args w)
    (hmax : ∀ r ∈ files args w, r ≤ g)
    (hothers : ∀ s ∈ files args w, s < g → Clear args w sorted s) (hkeeps : Keeps args w sorted)
    (hmoved : Moved args w g) : LeavesUnread args w sorted g := by
  obtain ⟨mem', hdone, hplaced, -⟩ := (h.keeps_iff hg hmax).1 hkeeps
  obtain ⟨hlength, hlast⟩ := block_of_removeDups hdone (getLast?_layout h.args_ne_nil)
  obtain ⟨j, hj, hgj, hlt⟩ := h.first_place hg hmoved
  obtain ⟨x, mem, hi, hrun⟩ := h.removeDups_start j (sorted.length - (j + 1)) (by omega)
    fun v hv hle => hothers _ (h.nameOf_mem (List.getElem_mem hv))
      ((h.nameOf_le hle (by omega)).trans_lt hlt)
  have hne : x ≠ nameOf args sorted[j + 1] := by
    obtain ⟨hj', rfl⟩ := hi.cur
    exact hgj ▸ hlt.ne
  have hread : strAt nulChar mem sorted[j + 1] = g := by
    rw [hgj]
    exact strAt_of_holds (hi.unread (j + 1) hj (Nat.lt_succ_self j))
  have hsource : source args w sorted g = sorted[j + 1] := by
    rw [hgj] at hlt ⊢
    exact h.source_next hj hlt
  rw [hrun, show sorted.length - (j + 1) = sorted.length - (j + 2) + 1 by omega, List.range'_succ,
    show w.k + j + 1 = w.k + (j + 1) by omega, removeDups_new h hi hj hne, ← hgj,
    if_pos hmoved] at hdone
  obtain ⟨mem₁, hcopy, hrest⟩ := Option.bind_eq_some_iff.1 hdone
  have happart : Apart (target args w sorted g) g sorted[j + 1] g := by
    rw [strcpy] at hcopy
    simp only [hread] at hcopy
    split at hcopy
    · assumption
    · cases hcopy
  -- behind it there are as many files as names: the rest of the loop finds duplicates only
  obtain ⟨rfl, hsame⟩ := eq_of_removeDups hrest
  have hself := hplaced g hg
  refine ⟨hsource ▸ happart, fun a ha hk hl hle hother => ?_⟩
  obtain ⟨v, hv, hoff⟩ := List.getElem_of_mem (h.offset_mem hk hl)
  have hname : nameOf args sorted[v] = args[a] := by rw [hoff, nameOf_offset h.strings ha]
  have hag : args[a] = g := le_antisymm (hmax _ (hname ▸ h.nameOf_mem (List.getElem_mem hv))) hle
  have hjv : j < v := h.lt_of_nameOf_lt (by omega) hv (by rwa [hname, hag])
  have hne' : v ≠ j + 1 := by
    rintro rfl
    exact hother (hoff.symm.trans hsource.symm)
  have htext := hsame (w.k + v) (List.mem_range'_1.2 ⟨by omega, by omega⟩)
  rw [h.textOf_sortedArgv (h.rank_lt hg), h.textOf_sortedArgv hv, ← target_eq (h.rank_lt hg),
    strAt_of_holds hself, hoff] at htext
  rw [hag]
  have := lt_length_of_holds (holds_layout ha h.strings)
  exact agree_of_holds hself (holds_of_strAt hlast (by omega) htext.symm)

/-- Without files the executable is cut off iff it is the next argument but one. -/
theorem keeps_nil_iff (h : Line args w sorted) (hnil : files args w = []) :
    Keeps args w sorted ↔ w.exe ≠ w.k + 1 := by
  have hsorted : sorted = [] := by
    have := h.names_perm
    rw [hnil] at this
    simpa using this
  have hkl : w.k = w.l := by
    have := h.length_sorted
    rw [hsorted, List.length_nil] at this
    have := h.k_le
    omega
  have hrun : sortFiles args w sorted =
      some ⟨layout nulChar args, (sortedArgv args w sorted).set (w.k + 1) none⟩ := by
    rw [sortFiles, show w.l - (w.k + 1) = 0 by omega]
    rfl
  have hfilter :
    fileFilter ⟨layout nulChar args, (sortedArgv args w sorted).set (w.k + 1) none⟩ w.k = [] := by
    rw [fileFilter, List.drop_set, if_neg (by omega), h.drop_sortedArgv, hsorted,
      Nat.add_sub_cancel_left]
    rfl
  have hl := h.l_lt
  constructor
  · rintro ⟨s, hs, hkept⟩ heq
    rw [hrun] at hs
    obtain rfl := Option.some.inj hs
    have hhead := congrArg (·[0]?) hkept.exe
    have he := h.exe_lt
    have hlen : w.exe < (sortedArgv args w sorted).length := by
      have := congrArg List.length h.drop_exe
      simp only [List.length_drop, pointers, List.length_append, List.length_map,
        List.length_range, List.length_singleton] at this
      omega
    rw [exePath, ← heq] at hhead
    simp [hlen, he] at hhead
  · intro hne
    refine ⟨_, hrun, ?_, fun f => ?_, (h.exePath_iff _ (by omega)).2 fun a ha _ => ?_⟩
    · rw [hfilter]
      exact List.Pairwise.nil
    · rw [hfilter, hnil]
    · exact nameOf_offset h.strings ha

end Line

/-! ## What has to hold of the copies -/

theorem exists_greatest {l : List Text} (h : l ≠ []) : ∃ g ∈ l, ∀ r ∈ l, r ≤ g := by
  obtain ⟨g, hg, hmax⟩ := l.toFinset.exists_max_image id (by simpa using h)
  exact ⟨g, by simpa using hg, fun r hr => hmax r (by simpa using hr)⟩

/-- **What is needed for all to be kept.**  It is enough that every copy is clear and that, without
files, something stands before `-e`.  All of it is also necessary, but for one kind of copy: where a
name that is not the greatest is written over an argument still to be compared, a later copy may
mend what came of it. -/
theorem sortFiles_keeps (hread : readArgs args = some w) (hargs : ∀ s ∈ args, nulChar ∉ s)
    (hsort : Sorts args w sorted) :
    ((files args w = [] → w.exe ≠ w.k + 1) ∧ (∀ s ∈ files args w, Clear args w sorted s) →
      Keeps args w sorted) ∧
    (Keeps args w sorted →
      (files args w = [] → w.exe ≠ w.k + 1) ∧
      (∀ s ∈ files args w, LeavesPlaced args w sorted s) ∧
      ((∀ s ∈ files args w, (∃ g ∈ files args w, s < g) → Moved args w s →
        LeavesUnread args w sorted s) →
        ∀ s ∈ files args w, Clear args w sorted s)) := by
  have h := line_of_readArgs hread hargs hsort
  by_cases hnil : files args w = []
  · rw [h.keeps_nil_iff hnil, hnil]
    simp
  obtain ⟨g, hg, hmax⟩ := exists_greatest hnil
  refine ⟨fun hclear => h.keeps hg hmax hclear.2, fun hkeeps => ?_⟩
  have hplaced := fun s hs => h.leavesPlaced_of_keeps hg hmax hkeeps (s := s) hs
  refine ⟨fun hnil' => absurd hnil' hnil, hplaced, fun hunread s hs hmoved => ?_⟩
  have hothers : ∀ s ∈ files args w, s < g → Clear args w sorted s :=
    fun s hs hlt hmoved => ⟨hunread s hs ⟨g, hg, hlt⟩ hmoved, hplaced s hs⟩
  rcases (hmax s hs).lt_or_eq with hlt | rfl
  · exact hothers s hs hlt hmoved
  · exact ⟨h.leavesUnread_of_keeps hg hmax hothers hkeeps hmoved, hplaced s hs⟩

/-- `yacet -r r <files> -e vi`. -/
def line (names : List Text) : List Text :=
  [['y'], ['-', 'r'], ['r']] ++ names ++ [['-', 'e'], ['v', 'i']]

theorem sortFiles_keeps_repeated : Keeps (line [['b'], ['a'], ['a']]) ⟨3, 6, 7, false⟩ [9, 11, 7] :=
  (sortFiles_keeps (by decide) (by decide) ⟨by decide, by decide⟩).1 ⟨by decide, by decide⟩

-- a later copy mends the place of `e`, which `bbb` has spilt on
example :
    let names : List Text := [['a'], ['a'], ['a'], ['a'], ['e'], ['b', 'b', 'b'], ['f', 'g', 'e']]
    let w : Places := ⟨3, 10, 11, false⟩
    let sorted := [11, 13, 9, 7, 17, 15, 21]
    ¬ Clear (line names) w sorted ['b', 'b', 'b'] ∧
      (sortFiles (line names) w sorted).map (fileFilter · 3) =
        some [['a'], ['b', 'b', 'b'], ['e'], ['f', 'g', 'e']] := by
  decide

/-- Without a file the executable is cut off, and a name longer than the storage of the duplicate
that it is written over reaches the executable. -/
theorem sortFiles_loses_executable :
    (readArgs (line []) = some ⟨3, 3, 4, false⟩ ∧ Sorts (line []) ⟨3, 3, 4, false⟩ [] ∧
      ¬ Keeps (line []) ⟨3, 3, 4, false⟩ []) ∧
    let names : List Text := [['b', 'b', 'b', 'b', 'b', 'b'], ['a'], ['a']]
    readArgs (line names) = some ⟨3, 6, 7, false⟩ ∧
      Sorts (line names) ⟨3, 6, 7, false⟩ [14, 16, 7] ∧
      (sortFiles (line names) ⟨3, 6, 7, false⟩ [14, 16, 7]).map (exePath · 7) =
        some [some ['b'], none] := by
  refine ⟨⟨by decide, ⟨by decide, by decide⟩, ?_⟩, by decide, ⟨by decide, by decide⟩, by decide⟩
  rintro ⟨s, hs, hkept⟩
  obtain rfl := Option.some.inj hs
  exact absurd hkept.exe (by decide)

end Yacet.FileArgs
