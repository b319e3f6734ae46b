import Yacet.FileArgs
import Yacet.ThreadTokens

/-!
# What the editor is started with (`file.c`, `exec_editor_fork`)

The child squeezes the swap file between the executable and its options, or, if all files go to one
editor, copies them into a new array with the swap files of the threads that need a retry.

* `execEditorFork` — the arguments that `execvp` finds, `none` if an access is out of bounds.
* `squeeze_eq`, `gather_eq` — what the two ways make of the executable and its options.
* `editor_args` — **from the command line, in every run of the file threads, the editor gets the
  executable, the swap files and the options, and each of these files belongs to a thread that has
  not ended; in an orderly run they are those of all threads that wait.**
-/

namespace Yacet

open Steps Threads FileArgs

namespace Editor

/-! ## The code -/

/-- What `exec_editor` reads of a `struct open_files_thread`. -/
structure Oft where
  thdState : Option ThdState
  swpFilePath : Text

/-- `v[i] = x`. -/
def store (v : List (Option Text)) (i : ℕ) (x : Option Text) : Option (List (Option Text)) :=
  if i < v.length then some (v.set i x) else none

/-- `memcpy(&v[i], src, n * sizeof(char*))`. -/
def memcpy (v : List (Option Text)) (i : ℕ) (src : List (Option Text)) (n : ℕ) :
    Option (List (Option Text)) :=
  if n ≤ src.length ∧ i + n ≤ v.length then some (v.take i ++ src.take n ++ v.drop (i + n))
    else none

/-- The arguments that `execvp` reads up to the `NULL`. -/
def execvp : List (Option Text) → Option (List Text)
  | [] => none
  | none :: _ => some []
  | some a :: v => (execvp v).map (a :: ·)

/-- `p_exe_path[-1] = p_exe_path[0]; p_exe_path[0] = swp; p_exe_path--`, where `p` is the place of
`p_exe_path` in `argv`. -/
def squeeze (argv : List (Option Text)) (p : ℕ) (swp : Text) : Option (List (Option Text)) :=
  match p with
  | 0 => none
  | q + 1 => do
    let exe ← argv[q + 1]?
    let argv ← store argv q exe
    let argv ← store argv (q + 1) (some swp)
    some (argv.drop q)

/-- The round of the loop over `oft`. -/
def gatherStep (s : List (Option Text) × ℕ) (o : Oft) : Option (List (Option Text) × ℕ) :=
  if o.thdState = some .retry then (store s.1 s.2 (some o.swpFilePath)).map fun v => (v, s.2 + 1)
  else some s

/-- The array for all files; `fresh` is what `malloc` leaves in it. -/
def gather (argv fresh : List (Option Text)) (exeArgc : ℕ) (oft : List Oft) :
    Option (List (Option Text)) := do
  let exe ← argv[0]?
  let v ← store fresh 0 exe
  let (v, j) ← oft.foldlM gatherStep (v, 1)
  memcpy v j (argv.drop 1) exeArgc

/-- `exec_editor_fork`. -/
def execEditorFork (multipleMode : Bool) (argv : List (Option Text)) (p exeArgc : ℕ)
    (fresh : List (Option Text)) (oft : List Oft) : Option (List Text) :=
  if multipleMode then (gather (argv.drop p) fresh exeArgc oft).bind execvp
  else (oft.head?.bind fun o => squeeze argv p o.swpFilePath).bind execvp

/-! ## What it makes of the arguments -/

variable {argv fresh rest : List (Option Text)} {exe swp : Text} {options swps : List Text} {p : ℕ}
  {oft : List Oft}

theorem execvp_eq (as : List Text) (rest : List (Option Text)) :
    execvp (as.map some ++ none :: rest) = some as := by
  induction as with
  | nil => rfl
  | cons a as ih =>
      rw [List.map_cons, List.cons_append, execvp, ih]
      rfl

/-- The arguments, with the `NULL` of the command line. -/
def vector (as : List Text) : List (Option Text) := as.map some ++ [none]

theorem squeeze_eq (hp : 0 < p) (h : argv.drop p = vector (exe :: options)) :
    (squeeze argv p swp).bind execvp = some (exe :: swp :: options) := by
  obtain ⟨q, rfl⟩ := Nat.exists_eq_succ_of_ne_zero hp.ne'
  have hlen : q + 1 < argv.length := by
    have hcount := congrArg List.length h
    rw [List.length_drop, vector, List.length_append, List.length_map, List.length_cons] at hcount
    omega
  have hexe : argv[q + 1]? = some (some exe) := by
    have hget : (argv.drop (q + 1))[0]? = argv[q + 1 + 0]? := List.getElem?_drop
    rw [h] at hget
    exact hget.symm
  have hdrop : ((argv.set q (some exe)).set (q + 1) (some swp)).drop q =
      some exe :: some swp :: vector options := by
    rw [List.drop_eq_getElem_cons (by simp; omega), List.drop_eq_getElem_cons (by simp; omega)]
    congr 1
    · simp
    · congr 1
      · simp
      · rw [List.drop_set_of_lt (by omega), List.drop_set_of_lt (by omega), ← List.drop_drop, h]
        rfl
  unfold squeeze
  simp only [hexe, Option.bind_eq_bind, Option.bind_some, store]
  rw [if_pos (by omega), Option.bind_some, if_pos (by rw [List.length_set]; exact hlen),
    Option.bind_some, Option.bind_some, hdrop]
  exact execvp_eq (exe :: swp :: options) []

/-- The swap files of the threads that need a retry. -/
def retryFiles (oft : List Oft) : List Text :=
  (oft.filter fun o => o.thdState = some .retry).map Oft.swpFilePath

theorem store_next (v : List (Option Text)) (y : Option Text) (x : Option Text) :
    store (v ++ y :: rest) v.length x = some (v ++ x :: rest) := by
  unfold store
  rw [if_pos (by simp), List.set_append_right _ _ le_rfl, Nat.sub_self]
  rfl

/-- The loop puts the swap files one behind the other. -/
theorem gatherStep_run (v rest : List (Option Text))
    (hroom : (retryFiles oft).length ≤ rest.length) :
    oft.foldlM gatherStep (v ++ rest, v.length) =
      some (v ++ (retryFiles oft).map some ++ rest.drop (retryFiles oft).length,
        v.length + (retryFiles oft).length) := by
  induction oft generalizing v rest with
  | nil => simp [retryFiles]
  | cons o oft ih =>
      rw [List.foldlM_cons]
      by_cases ho : o.thdState = some .retry
      · have hfiles : retryFiles (o :: oft) = o.swpFilePath :: retryFiles oft := by
          simp [retryFiles, ho]
        rw [hfiles, List.length_cons] at hroom ⊢
        cases rest with
        | nil => simp at hroom
        | cons y rest =>
            have hstep : gatherStep (v ++ y :: rest, v.length) o =
                some (v ++ [some o.swpFilePath] ++ rest, (v ++ [some o.swpFilePath]).length) := by
              rw [gatherStep, if_pos ho, store_next]
              simp
            rw [hstep]
            show oft.foldlM gatherStep _ = _
            rw [ih _ _ (by simpa using hroom), List.drop_succ_cons, List.length_append,
              List.length_singleton]
            simp [Nat.add_assoc, Nat.add_comm 1]
      · have hfiles : retryFiles (o :: oft) = retryFiles oft := by
          simp [retryFiles, ho]
        rw [hfiles] at hroom ⊢
        rw [show gatherStep (v ++ rest, v.length) o = some (v ++ rest, v.length) by
          rw [gatherStep, if_neg ho]]
        exact ih v rest hroom

theorem memcpy_next (v src rest : List (Option Text)) (hroom : src.length ≤ rest.length) :
    memcpy (v ++ rest) v.length src src.length = some (v ++ src ++ rest.drop src.length) := by
  unfold memcpy
  rw [if_pos ⟨le_rfl, by rw [List.length_append]; omega⟩, List.take_left, List.take_length,
    List.drop_append, List.drop_eq_nil_of_le (Nat.le_add_right _ _), Nat.add_sub_cancel_left,
    List.nil_append]

theorem gather_eq (hfresh : fresh.length = (options.length + 1) + oft.length + 1) :
    (gather (vector (exe :: options)) fresh (options.length + 1) oft).bind execvp =
      some (exe :: (retryFiles oft ++ options)) := by
  have hfew : (retryFiles oft).length ≤ oft.length := by
    rw [retryFiles, List.length_map]
    exact List.length_filter_le _ _
  cases fresh with
  | nil => cases hfresh
  | cons y rest =>
      rw [List.length_cons] at hfresh
      have hfirst : store (y :: rest) 0 (some exe) = some ([some exe] ++ rest) :=
        store_next [] y (some exe)
      have hloop := gatherStep_run [some exe] rest (hfew.trans (by omega))
      unfold gather
      rw [show (vector (exe :: options))[0]? = some (some exe) from rfl]
      simp only [Option.bind_eq_bind, Option.bind_some, hfirst]
      have hsrc : (vector options).length = options.length + 1 := by
        rw [vector, List.length_append, List.length_map, List.length_singleton]
      have hcopy := memcpy_next ([some exe] ++ (retryFiles oft).map some) (vector options)
        (rest.drop (retryFiles oft).length) (by rw [hsrc, List.length_drop]; omega)
      rw [List.length_append, List.length_map, hsrc] at hcopy
      rw [show ([some exe] : List (Option Text)).length = 1 from rfl] at hloop hcopy
      rw [hloop]
      simp only [Option.bind_some]
      rw [show (vector (exe :: options)).drop 1 = vector options from rfl, hcopy, Option.bind_some]
      have hvector : [some exe] ++ (retryFiles oft).map some ++ vector options ++
          List.drop (options.length + 1) (rest.drop (retryFiles oft).length) =
          (exe :: (retryFiles oft ++ options)).map some ++ none ::
            List.drop (options.length + 1) (rest.drop (retryFiles oft).length) := by
        simp [vector]
      rw [hvector]
      exact execvp_eq _ _

/-! ## From the command line to the editor -/

section CommandLine

variable {args : List Text} {w : Places} {s : Process} {n num t : ℕ} {σ : System}

/-- `argv` as the threads find it. -/
def argvOf (s : Process) : List (Option Text) := exePath s 0

/-- The array of `open_files`. -/
def oftOf (n : ℕ) (σ : System) (swp : ℕ → Text) : List Oft :=
  (List.range n).map fun t => ⟨(σ.thds t).state, swp t⟩

/-- The threads that need a retry, in the order of the files. -/
def retryThreads (n : ℕ) (σ : System) : List ℕ :=
  (List.range n).filter fun t => (σ.thds t).state = some .retry

theorem retryFiles_oftOf (n : ℕ) (σ : System) (swp : ℕ → Text) :
    retryFiles (oftOf n σ swp) = (retryThreads n σ).map swp := by
  rw [retryFiles, oftOf, retryThreads, List.filter_map, List.map_map]
  rfl

theorem length_retryThreads (n : ℕ) (σ : System) :
    (retryThreads n σ).length = (retrying n σ).card := by
  have hset : retrying n σ = (retryThreads n σ).toFinset := by
    ext t
    simp [retrying, retryThreads]
  rw [hset, List.toFinset_card_of_nodup]
  exact List.nodup_range.filter _

/-- The executable stands behind `-e` or `-E`, and the vector behind it is whole. -/
theorem drop_argvOf (hread : readArgs args = some w) (hkept : Kept args w s) :
    0 < w.exe ∧ ∃ exe options, args.drop w.exe = exe :: options ∧
      (argvOf s).drop w.exe = vector (exe :: options) ∧
      args.length - w.exe = options.length + 1 := by
  have hplaces : ∀ {optind}, FileArgs.places args optind = some w → 0 < w.exe ∧
    w.exe < args.length := by
    intro optind h
    unfold FileArgs.places at h
    simp only at h
    split at h
    · cases h
    · split at h
      · cases h
      · cases h
        constructor <;> simp only <;> omega
  have hbounds : 0 < w.exe ∧ w.exe < args.length := by
    unfold readArgs at hread
    split at hread
    · exact hplaces hread
    · exact hplaces hread
    · cases hread
  refine ⟨hbounds.1, ?_⟩
  cases hargs : args.drop w.exe with
  | nil =>
      have hlen := congrArg List.length hargs
      rw [List.length_drop, List.length_nil] at hlen
      omega
  | cons exe options =>
      have hlen := congrArg List.length hargs
      rw [List.length_drop, List.length_cons] at hlen
      refine ⟨exe, options, rfl, ?_, hlen⟩
      have hexe := hkept.exe
      rw [hargs] at hexe
      rw [vector, ← hexe, argvOf, exePath, exePath, List.drop_zero, List.map_drop]

/-- **What the editor is started with.**  With one editor for all files, in every run: the
executable, the swap files of the threads that need a retry, and the options; none of these threads
has ended, and in an orderly run they are those of all threads that wait, `num_thds` of them and at
least one.  With an editor for each file: the executable, the swap file and the options. -/
theorem editor_args (hread : readArgs args = some w) (hkept : Kept args w s) (swp : ℕ → Text) :
    ∃ exe options, args.drop w.exe = exe :: options ∧
      (w.multipleMode = true → ∀ n num σ fresh, σ.main = .edit num →
        Reach (step true n) (fun _ _ => True) (System.start true n) σ →
        fresh.length = args.length - w.exe + n + 1 →
        execEditorFork w.multipleMode (argvOf s) w.exe (args.length - w.exe) fresh (oftOf n σ swp) =
            some (exe :: ((retryThreads n σ).map swp ++ options)) ∧
          (∀ t ∈ retryThreads n σ, (σ.thds t).pc.Engaged) ∧
          (Reach (step true n) Orderly (System.start true n) σ → 0 < num ∧
            (retryThreads n σ).length = num ∧
            ∀ t < n, t ∈ retryThreads n σ ↔ (σ.thds t).pc = .wait)) ∧
      (w.multipleMode = false → ∀ o fresh,
        execEditorFork w.multipleMode (argvOf s) w.exe (args.length - w.exe) fresh [o] =
          some (exe :: o.swpFilePath :: options)) := by
  obtain ⟨hpos, exe, options, hargs, hdrop, hargc⟩ := drop_argvOf hread hkept
  refine ⟨exe, options, hargs, fun hm n num σ fresh hmain hrun hfresh => ?_,
    fun hm o fresh => ?_⟩
  · rw [hm, execEditorFork, if_pos rfl, hdrop, hargc]
    have hoft : (oftOf n σ swp).length = n := by rw [oftOf, List.length_map, List.length_range]
    rw [hargc] at hfresh
    refine ⟨?_, fun t ht => ?_, fun horderly => ?_⟩
    · rw [gather_eq (by rw [hoft]; exact hfresh), retryFiles_oftOf]
    · have hflow := flow_run hrun
      have hbudget := hflow.budget
      rw [hmain] at hbudget
      have hplaced := hflow.placed t
      rw [hbudget.1] at hplaced
      exact hplaced.retry (of_decide_eq_true (List.mem_filter.1 ht).2)
    · have hinv := inv_run horderly
      unfold Threads.Inv at hinv
      rw [hmain] at hinv
      obtain ⟨hnum, hidle⟩ := hinv
      refine ⟨hnum, (length_retryThreads n σ).trans hidle.num, fun t ht => ?_⟩
      rw [retryThreads, List.mem_filter, List.mem_range, decide_eq_true_eq]
      rcases hidle.each t ht with hwait | hover
      · exact ⟨fun _ => hwait.pc, fun _ => ⟨ht, hwait.state⟩⟩
      · refine ⟨fun hstate => absurd hstate.2 hover.state, fun hpc => ?_⟩
        rcases hover.2 with h | h | h
        all_goals
          rw [h] at hpc
          cases hpc
  · rw [hm, execEditorFork, if_neg (by decide)]
    exact squeeze_eq hpos hdrop

/-- `yacet -w r a b -E vi -n`. -/
def bothFiles : List Text :=
    [['y'], ['-', 'w'], ['r'], ['a'], ['b'], ['-', 'E'], ['v', 'i'], ['-', 'n']]

/-- Both threads have pulled their files. -/
def bothPulled : List Act :=
  [.create true, .create true, .setup 0 true, .setup 1 true, .report 1, .report 0, .count, .count]

theorem editor_args_both : ∃ s σ, sortFiles bothFiles ⟨3, 5, 6, true⟩ [7, 9] = some s ∧
    runGuarded (step true 2) Orderly bothPulled (System.start true 2) = some σ ∧
    execEditorFork true (argvOf s) 6 2 (List.replicate 5 none)
      (oftOf 2 σ fun t => if t = 0 then ['p'] else ['q']) = some
      [['v', 'i'], ['p'], ['q'], ['-', 'n']] := by
  have hsort : ∃ s, sortFiles bothFiles ⟨3, 5, 6, true⟩ [7, 9] = some s ∧
      fileFilter s 3 = [['a'], ['b']] ∧ exePath s 6 = [some ['v', 'i'], some ['-', 'n'], none] :=
    ⟨_, rfl, by decide, by decide⟩
  obtain ⟨s, hs, hfilter, hexe⟩ := hsort
  have hkept : Kept bothFiles ⟨3, 5, 6, true⟩ s := by
    refine ⟨?_, fun f => ?_, hexe⟩
    · rw [hfilter]
      decide
    · rw [hfilter]
      rfl
  have hpulled : (runGuarded (step true 2) Orderly bothPulled (System.start true 2)).map
      (fun σ => (σ.main, retryThreads 2 σ)) = some (.edit 2, [0, 1]) := by
    decide +kernel
  obtain ⟨σ, hrun, hσ⟩ := Option.map_eq_some_iff.1 hpulled
  obtain ⟨hmain, hthreads⟩ := Prod.mk.inj hσ
  have horderly := reach_of_runGuarded hrun
  refine ⟨s, σ, hs, hrun, ?_⟩
  have hread : readArgs bothFiles = some ⟨3, 5, 6, true⟩ := by decide
  obtain ⟨exe, options, hargs, hboth, -⟩ := editor_args hread hkept
    fun t => if t = 0 then ['p'] else ['q']
  cases hargs
  have heditor :=
    (hboth rfl 2 2 σ (List.replicate 5 none) hmain (horderly.mono fun _ _ _ => trivial) rfl).1
  rw [hthreads] at heditor
  exact heditor

end CommandLine

end Editor

end Yacet
