import Yacet.PrintMode
import Yacet.RangeBuild

/-!
# The option loop of `-g` (`main.c`)

`-f` stores the names of its files in `fs`; the `-r` behind it adds the files, puts the pointers
that it is given over the names, and adds each of its intervals to each of these files.

* `newRange` — the loop, with the calls that it makes.
* `Builds` — every call does what it is to do, and at the end each file has its own entry with the
  merge of the intervals of its own group.
* `Safe` — the condition on the groups and on what the library answers.
* `newRange_builds_iff` — **the loop builds the range iff the condition holds.**
-/

namespace Yacet.NewRange

open Getopt Mem

/-! ## The loop -/

/-- A cell of `fs`: an argument, or the pointer that was given for a file. -/
inductive Cell
  | null
  | name (path : Text)
  | file (i : ℕ)
  deriving DecidableEq, Repr

/-- What ends the program within the loop; `wild` is a cell of the wrong kind. -/
inductive Stop
  | err
  | memory (e : ArrayFault)
  | wild
  | rounds
  deriving DecidableEq, Repr

/-- The cells of `fs`, the range, and the calls that have been made on it. -/
structure Build where
  fs : ℕ → Cell
  range : Range
  calls : List Call

/-- The scanner, `buf`, `i` and what is built. -/
structure Loop where
  scan : Getopt.State
  buf : List Char
  i : ℕ
  build : Build

/-- `+f:`. -/
def fileOptions : List Char := ['+', 'f', ':']

/-- `+r:`. -/
def regionOptions : List Char := ['+', 'r', ':']

def Build.perform (s : Build) (c : Call) : Except Stop Build :=
  match s.range.call c with
  | .error e => .error (.memory e)
  | .ok r => .ok ⟨s.fs, r, s.calls ++ [c]⟩

/-- `for (j = 0, l = 0; fs[j]; j++)`. -/
def addFiles (env : ℕ → Range.Env) : ℕ → ℕ → ℕ → Build → Except Stop (Build × ℕ)
  | 0, _, _, _ => .error .rounds
  | fuel + 1, j, l, s =>
    match s.fs j with
    | .null => .ok (s, l)
    | .file _ => .error .wild
    | .name path =>
      match s.perform (.addNewFile path idNone (env s.range.numFiles)) with
      | .error e => .error e
      | .ok t =>
        -- no pointer has been given
        if t.range.handed.length = s.range.handed.length then .error .err
        else
          let rf := Cell.file s.range.handed.length
          if (List.range l).any fun k => t.fs k = rf then addFiles env fuel (j + 1) l t
          else addFiles env fuel (j + 1) (l + 1) { t with fs := Function.update t.fs l rf }

/-- `range_file_add_it` through `fs[j]`; `malloc` gives memory for a node. -/
def addThrough (f : ItNode) (s : Build) (j : ℕ) : Except Stop Build :=
  match s.fs j with
  | .file i => s.perform (.addIt i f true)
  | _ => .error .wild

/-- An interval, read and added to the files in `fs[0..l)`. -/
def addInterval (l : ℕ) (s : Build) (str : Text) : Except Stop Build :=
  match getRange str with
  | none => .error .err
  | some (base, bound) => (List.range' 0 l).foldlM (addThrough ⟨idNone, base, bound⟩) s

/-- `fs[j] = argv[optind]` for each of the arguments, and the `NULL` behind them. -/
def storeNames (args : List Text) (fs : ℕ → Cell) (j : ℕ) : Cell :=
  match args[j]? with
  | some path => .name path
  | none => if j = args.length then .null else fs j

/-- The round of `-r`. -/
def addGroup (env : ℕ → Range.Env) (fuel : ℕ) (strs : List Text) (s : Build) : Except Stop Build :=
  match addFiles env fuel 0 0 s with
  | .error e => .error e
  | .ok (s, l) => strs.foldlM (addInterval l) s

/-- A round of the loop; `none` leaves it. -/
def newRangeStep (argv : List Text) (env : ℕ → Range.Env) (s : Loop) : Except Stop (Option Loop) :=
  let (c, scan) := getopt s.buf argv s.scan
  if c ≠ s.buf[1]? then .ok none
  else
    let (args, optind) := foreachOptarg argv (scan.optind - 1)
    let scan := { scan with optind := optind }
    if s.i % 2 = 1 then
      match addGroup env argv.length args s.build with
      | .error e => .error e
      | .ok build => .ok (some ⟨scan, fileOptions, s.i + 1, build⟩)
    else if args = [] then .error .err
    else .ok (some ⟨scan, regionOptions, s.i + 1,
      { s.build with fs := storeNames args s.build.fs }⟩)

def newRangeLoop (argv : List Text) (env : ℕ → Range.Env) : ℕ → Loop → Except Stop Build
  | 0, _ => .error .rounds
  | n + 1, s =>
    match newRangeStep argv env s with
    | .error e => .error e
    | .ok none => .ok s.build
    | .ok (some s) => newRangeLoop argv env n s

/-- `RANGE_NAME_LEN_MAX`. -/
def rangeNameLenMax : ℕ := 64

/-- The `-g` mode from `range_init` on; `fs` is what `malloc` leaves in the cells. -/
def newRange (argv : List Text) (env : ℕ → Range.Env) (fs : ℕ → Cell) : Except Stop Build :=
  match getopt modeOptions argv Getopt.start with
  | (some 'g', ⟨optind, nextchar, some name⟩) =>
    -- `range_init`
    if rangeNameLenMax < name.length then .error .err
    else
      newRangeLoop argv env (argv.length + 1)
        ⟨⟨optind, nextchar, some name⟩, fileOptions, 0,
          ⟨Function.update fs 0 .null, Range.init, []⟩⟩
  | _ => .error .err

/-! ## What the loop is to do -/

/-- `-f files -r intervals`. -/
structure Group where
  files : List Text
  intervals : List Text
  files_ne : files ≠ []
  operands : ∀ a ∈ files ++ intervals, isOperand a = true

def Group.args (g : Group) : List Text := ['-', 'f'] :: g.files ++ ['-', 'r'] :: g.intervals

/-- `yacet -g name groups`. -/
def commandLine (prog name : Text) (groups : List Group) : List Text :=
  prog :: ['-', 'g'] :: name :: groups.flatMap Group.args

/-- The interval of a string. -/
def regionOf (str : Text) : Option ItNode := (getRange str).map fun p => ⟨idNone, p.1, p.2⟩

/-- Files that have been given the same intervals. -/
def entriesOf (files : List Text) (ivs : List ItNode) : List Entry :=
    files.map fun path => ⟨path, ivs⟩

def Group.entries (g : Group) : List Entry := entriesOf g.files (g.intervals.filterMap regionOf)

/-- The loop ends; every call of it has given the new file an empty list and has left the other
files alone; and the range has one entry for each file, with the merge of the intervals of its
group. -/
def Builds (argv : List Text) (env : ℕ → Range.Env) (fs : ℕ → Cell) (groups : List Group) : Prop :=
  ∃ s, newRange argv env fs = .ok s ∧ AllKeep Range.init s.calls ∧
    Shows s.range (groups.flatMap Group.entries)

/-! ## When it does -/

/-- The condition on a group whose first file is file `n`. -/
structure SafeGroup (env : ℕ → Range.Env) (n : ℕ) (g : Group) : Prop where
  files : ∀ t path, g.files[t]? = some path → Stored path (env (n + t)) ∧ SlotFits env (n + t)
  stays : g.intervals ≠ [] → ∀ t, 0 < t → t < g.files.length → Stays env (n + t)
  read : ∀ str ∈ g.intervals, getRange str ≠ none
  noBridge : NoBridge (g.intervals.filterMap regionOf)

/-- Every group is safe, and the last one has an interval. -/
def Safe (env : ℕ → Range.Env) : ℕ → List Group → Prop
  | _, [] => True
  | n, g :: gs => SafeGroup env n g ∧ (gs = [] → g.intervals ≠ []) ∧
      Safe env (n + g.files.length) gs

/-! ## Calls that keep -/

/-- The calls run, keep, and lead to `r'`. -/
def Leads (r : Range) : List Call → Range → Prop
  | [], r' => r' = r
  | c :: cs, r' => ∃ r₁, r.call c = .ok r₁ ∧ Keeps r r₁ c ∧ Leads r₁ cs r'

variable {r r' : Range} {cs ds : List Call} {c : Call}

theorem allKeep_append (h : Leads r cs r') : AllKeep r (cs ++ ds) ↔ AllKeep r' ds := by
  induction cs generalizing r with
  | nil =>
      obtain rfl : r' = r := h
      exact Iff.rfl
  | cons c cs ih =>
      obtain ⟨r₁, hrun, hkeeps, hrest⟩ := h
      rw [List.cons_append, AllKeep, ← ih hrest]
      constructor
      · rintro ⟨r₂, hrun', -, hall⟩
        rw [hrun] at hrun'
        cases hrun'
        exact hall
      · exact fun hall => ⟨r₁, hrun, hkeeps, hall⟩

theorem allKeep_of_leads (h : Leads r cs r') : AllKeep r cs := by
  have hall : AllKeep r (cs ++ []) := (allKeep_append h).2 trivial
  rwa [List.append_nil] at hall

theorem Leads.snoc (h : Leads r cs r') {r'' : Range} (hrun : r'.call c = .ok r'')
    (hkeeps : Keeps r' r'' c) : Leads r (cs ++ [c]) r'' := by
  induction cs generalizing r with
  | nil =>
      obtain rfl : r' = r := h
      exact ⟨r'', hrun, hkeeps, rfl⟩
  | cons c cs ih =>
      obtain ⟨r₁, hrun₁, hkeeps₁, hrest⟩ := h
      exact ⟨r₁, hrun₁, hkeeps₁, ih hrest⟩

theorem allKeep_of_isPrefix (hsub : cs <+: ds) (h : AllKeep r ds) : AllKeep r cs := by
  obtain ⟨rest, rfl⟩ := hsub
  induction cs generalizing r with
  | nil => trivial
  | cons c cs ih =>
      obtain ⟨r₁, hrun, hkeeps, hall⟩ := h
      exact ⟨r₁, hrun, hkeeps, ih hall⟩

/-- A call that has been made by a loop whose calls all keep. -/
theorem keeps_of_isPrefix {s t : Build} (h : Leads Range.init s.calls s.range)
    (hrun : s.perform c = .ok t) (hsub : t.calls <+: cs) (hall : AllKeep Range.init cs) :
    Keeps s.range t.range c := by
  rw [Build.perform] at hrun
  split at hrun
  · cases hrun
  · rename_i r hcall
    cases hrun
    obtain ⟨rest, rfl⟩ := hsub
    rw [List.append_assoc, allKeep_append h] at hall
    obtain ⟨r₁, hcall', hkeeps, -⟩ := hall
    rw [hcall] at hcall'
    cases hcall'
    exact hkeeps

/-! ## The loop only adds calls -/

section Calls

variable {env : ℕ → Range.Env} {s s' : Build} {fuel j l l' : ℕ}

theorem calls_perform (h : s.perform c = .ok s') : s.calls <+: s'.calls := by
  rw [Build.perform] at h
  split at h
  · cases h
  · cases h
    exact List.prefix_append _ _

theorem calls_addFiles : ∀ {fuel j l : ℕ} {s : Build}, addFiles env fuel j l s = .ok (s', l') →
    s.calls <+: s'.calls
  | 0, _, _, _, h => by cases h
  | fuel + 1, j, l, s, h => by
    rw [addFiles] at h
    split at h
    · cases h
      exact List.prefix_rfl
    · cases h
    · split at h
      · cases h
      · rename_i t hrun
        split at h
        · cases h
        · have hcalls := calls_perform hrun
          simp only at h
          split at h
          · exact hcalls.trans (calls_addFiles h)
          · have hrest := calls_addFiles h
            exact hcalls.trans hrest

/-- A fold of steps that only add calls. -/
theorem calls_foldlM {α : Type} {f : Build → α → Except Stop Build}
    (hf : ∀ s a s', f s a = .ok s' → s.calls <+: s'.calls) :
    ∀ {as : List α} {s : Build}, as.foldlM f s = .ok s' → s.calls <+: s'.calls
  | [], s, h => by
    cases h
    exact List.prefix_rfl
  | a :: as, s, h => by
    rw [List.foldlM_cons] at h
    cases hstep : f s a with
    | error e =>
        rw [hstep] at h
        cases h
    | ok t =>
        rw [hstep] at h
        exact (hf s a t hstep).trans (calls_foldlM hf h)

theorem calls_addThrough {f : ItNode} (h : addThrough f s j = .ok s') : s.calls <+: s'.calls := by
  rw [addThrough] at h
  split at h
  · exact calls_perform h
  · cases h

theorem calls_addInterval {str : Text} (h : addInterval l s str = .ok s') :
    s.calls <+: s'.calls := by
  rw [addInterval] at h
  split at h
  · cases h
  · exact calls_foldlM (fun _ _ _ hstep => calls_addThrough hstep) h

theorem calls_addGroup {strs : List Text} (h : addGroup env fuel strs s = .ok s') :
    s.calls <+: s'.calls := by
  rw [addGroup] at h
  split at h
  · cases h
  · rename_i t l hfiles
    exact (calls_addFiles hfiles).trans
      (calls_foldlM (fun _ _ _ hstep => calls_addInterval hstep) h)

theorem calls_newRangeStep {argv : List Text} {u u' : Loop}
    (h : newRangeStep argv env u = .ok (some u')) : u.build.calls <+: u'.build.calls := by
  unfold newRangeStep at h
  simp only at h
  split at h
  · cases h
  · split at h
    · split at h
      · cases h
      · rename_i build hgroup
        cases h
        exact calls_addGroup hgroup
    · split at h
      · cases h
      · cases h
        exact List.prefix_rfl

theorem calls_newRangeLoop {argv : List Text} : ∀ {n : ℕ} {u : Loop},
    newRangeLoop argv env n u = .ok s' → u.build.calls <+: s'.calls
  | 0, u, h => by cases h
  | n + 1, u, h => by
    rw [newRangeLoop] at h
    split at h
    · cases h
    · cases h
      exact List.prefix_rfl
    · rename_i u' hstep
      exact (calls_newRangeStep hstep).trans (calls_newRangeLoop h)

end Calls

/-! ## Intervals -/

/-- The range has the entries, its array is block `b`, and all calls so far have kept. -/
structure Ready (env : ℕ → Range.Env) (s : Build) (es : List Entry) (b : ℕ) : Prop where
  built : ∃ slots lists, Built env s.range es b slots lists
  leads : Leads Range.init s.calls s.range

/-- The first `l` cells are the pointers given for the files from `p` on, into block `b`. -/
def Points (s : Build) (p l b : ℕ) : Prop :=
  ∀ k < l, s.fs k = .file (p + k) ∧ s.range.handed[p + k]? = some b

section Intervals

variable {env : ℕ → Range.Env} {s s' : Build} {es : List Entry} {b i j : ℕ} {e : Entry} {f : ItNode}
  {files : List Text} {ivs : List ItNode} {str : Text}

theorem base_lt_of_getRange {base bound : ℕ} (h : getRange str = some (base, bound)) :
    base < bound := by
  unfold getRange at h
  simp only at h
  split at h
  · cases h
  · split at h
    · split at h
      · cases h
      · cases h
        omega
    · cases h

/-- One insertion that bridges nothing. -/
theorem addThrough_ok (h : Ready env s es b) (he : es[i]? = some e) (hcell : s.fs j = .file i)
    (hhanded : s.range.handed[i]? = some b) (hf : f.base < f.bound) (hno : ¬ Bridges e.ivs f) :
    ∃ s', addThrough f s j = .ok s' ∧ Ready env s' (es.set i ⟨e.path, e.ivs ++ [f]⟩) b ∧
      s'.fs = s.fs ∧ s'.range.handed = s.range.handed := by
  obtain ⟨slots, lists, hbuilt⟩ := h.built
  obtain ⟨r', hrun, hkeeps, hbuilt', hhanded'⟩ := hbuilt.addIt_ok he hhanded hf hno
  have hcall : s.range.call (.addIt i f true) = .ok r' := hrun
  refine ⟨⟨s.fs, r', s.calls ++ [.addIt i f true]⟩, ?_, ⟨hbuilt', h.leads.snoc hcall hkeeps⟩, rfl,
    hhanded'⟩
  rw [addThrough, hcell]
  simp only [Build.perform, hcall]

/-- The interval is added to one file after the other. -/
theorem addThrough_all (hf : f.base < f.bound) (hno : ¬ Bridges ivs f) :
    ∀ (post pre : List Text) {s : Build},
    Ready env s (es ++ (entriesOf pre (ivs ++ [f]) ++ entriesOf post ivs)) b →
    Points s es.length (pre.length + post.length) b →
    ∃ s', (List.range' pre.length post.length).foldlM (addThrough f) s = .ok s' ∧
      Ready env s' (es ++ entriesOf (pre ++ post) (ivs ++ [f])) b ∧
      Points s' es.length (pre.length + post.length) b
  | [], pre, s, h, hpoints => by
    refine ⟨s, rfl, ?_, hpoints⟩
    rw [entriesOf, entriesOf, List.map_nil, List.append_nil] at h
    rwa [List.append_nil]
  | path :: post, pre, s, h, hpoints => by
    have hlen : (entriesOf pre (ivs ++ [f])).length = pre.length := List.length_map _
    have he : (es ++ (entriesOf pre (ivs ++ [f]) ++
        entriesOf (path :: post) ivs))[es.length + pre.length]? = some ⟨path, ivs⟩ := by
      rw [List.getElem?_append_right (Nat.le_add_right _ _), Nat.add_sub_cancel_left,
        List.getElem?_append_right hlen.le, hlen, Nat.sub_self]
      rfl
    obtain ⟨hcell, hhanded⟩ := hpoints pre.length (by simp)
    obtain ⟨t, hstep, ht, hfs, hhanded'⟩ := addThrough_ok h he hcell hhanded hf hno
    have hset : (es ++ (entriesOf pre (ivs ++ [f]) ++ entriesOf (path :: post) ivs)).set
        (es.length + pre.length) ⟨path, ivs ++ [f]⟩ =
        es ++ (entriesOf (pre ++ [path]) (ivs ++ [f]) ++ entriesOf post ivs) := by
      rw [List.set_append_right _ _ (Nat.le_add_right _ _), Nat.add_sub_cancel_left,
        List.set_append_right _ _ hlen.le, hlen, Nat.sub_self]
      simp [entriesOf]
    rw [hset] at ht
    have hpoints' : Points t es.length ((pre ++ [path]).length + post.length) b := by
      intro k hk
      rw [hfs, hhanded']
      refine hpoints k ?_
      simp only [List.length_append, List.length_cons, List.length_nil] at hk ⊢
      omega
    obtain ⟨s', hrun, hs', hpoints''⟩ := addThrough_all hf hno post (pre ++ [path]) ht hpoints'
    refine ⟨s', ?_, by simpa using hs', ?_⟩
    · rw [List.length_cons, List.range'_succ, List.foldlM_cons, hstep]
      rw [List.length_append, List.length_singleton] at hrun
      exact hrun
    · intro k hk
      refine hpoints'' k ?_
      simp only [List.length_append, List.length_cons, List.length_nil] at hk ⊢
      omega

/-- An interval that bridges two pieces stops the program at the first file. -/
theorem addThrough_bridges (h : Ready env s (es ++ entriesOf files ivs) b) (hne : files ≠ [])
    (hpoints : Points s es.length files.length b) (hf : f.base < f.bound)
    (hbridge : Bridges ivs f) :
    ∃ x, (List.range' 0 files.length).foldlM (addThrough f) s = .error x := by
  obtain ⟨slots, lists, hbuilt⟩ := h.built
  obtain ⟨path, rest, rfl⟩ := List.exists_cons_of_ne_nil hne
  obtain ⟨hcell, hhanded⟩ := hpoints 0 (by simp)
  have he : (es ++ entriesOf (path :: rest) ivs)[es.length + 0]? = some ⟨path, ivs⟩ := by
    rw [List.getElem?_append_right (Nat.le_add_right _ _), Nat.add_sub_cancel_left]
    rfl
  obtain ⟨x, hx⟩ := hbuilt.addIt_bridges he hhanded hf hbridge
  refine ⟨.memory x, ?_⟩
  have hstep : addThrough f s 0 = .error (.memory x) := by
    rw [addThrough, hcell]
    simp only [Build.perform, Range.call, hx]
  rw [List.length_cons, List.range'_succ, List.foldlM_cons, hstep]
  rfl

theorem noBridge_of_append {os : List ItNode} (h : NoBridge (ivs ++ os)) : NoBridge ivs := by
  intro pre a post heq
  exact h pre a (post ++ os) (by rw [heq]; simp)

/-- **The intervals of a group are added iff each is read and bridges nothing.** -/
theorem addIntervals_iff (hne : files ≠ []) : ∀ (strs : List Text) {ivs : List ItNode} {s : Build},
    Ready env s (es ++ entriesOf files ivs) b → Points s es.length files.length b → NoBridge ivs →
    ((∀ str ∈ strs, getRange str ≠ none) ∧ NoBridge (ivs ++ strs.filterMap regionOf) →
      ∃ s', strs.foldlM (addInterval files.length) s = .ok s' ∧
        Ready env s' (es ++ entriesOf files (ivs ++ strs.filterMap regionOf)) b) ∧
    ∀ s', strs.foldlM (addInterval files.length) s = .ok s' →
      (∀ str ∈ strs, getRange str ≠ none) ∧ NoBridge (ivs ++ strs.filterMap regionOf)
  | [], ivs, s, h, _, hbridge => by
    rw [List.filterMap_nil, List.append_nil]
    exact ⟨fun _ => ⟨s, rfl, h⟩, fun _ _ => ⟨by simp, hbridge⟩⟩
  | str :: strs, ivs, s, h, hpoints, hbridge => by
    rw [List.foldlM_cons]
    cases hread : getRange str with
    | none =>
        have hstep : addInterval files.length s str = .error .err := by
          rw [addInterval, hread]
        rw [hstep]
        refine ⟨fun hfits => absurd hread (hfits.1 str List.mem_cons_self), fun s' hrun => ?_⟩
        cases hrun
    | some p =>
        obtain ⟨base, bound⟩ := p
        have hregion : regionOf str = some ⟨idNone, base, bound⟩ := by rw [regionOf, hread]; rfl
        have hlt : (⟨idNone, base, bound⟩ : ItNode).base < (⟨idNone, base, bound⟩ : ItNode).bound :=
          base_lt_of_getRange hread
        have hstep : addInterval files.length s str =
            (List.range' 0 files.length).foldlM (addThrough ⟨idNone, base, bound⟩) s := by
          rw [addInterval, hread]
        rw [List.filterMap_cons_some hregion, List.append_cons, List.forall_mem_cons, hread, hstep]
        by_cases hno : Bridges ivs ⟨idNone, base, bound⟩
        · obtain ⟨x, hx⟩ := addThrough_bridges h hne hpoints hlt hno
          rw [hx]
          refine ⟨fun hfits => absurd hno ?_, fun s' hrun => ?_⟩
          · exact (eachAfter_append.1 (noBridge_of_append hfits.2)).2
          · cases hrun
        · obtain ⟨t, hrun, ht, hpoints'⟩ :=
            addThrough_all hlt hno files [] h (by simpa using hpoints)
          obtain ⟨hok, hfits⟩ := addIntervals_iff hne strs ht (by simpa using hpoints')
            (eachAfter_append.2 ⟨hbridge, hno⟩)
          have hrun' : (List.range' 0 files.length).foldlM (addThrough ⟨idNone, base, bound⟩) s =
              .ok t := hrun
          rw [hrun']
          exact ⟨fun hf => hok ⟨hf.1.2, hf.2⟩,
            fun s' hs' => ⟨⟨by simp, (hfits s' hs').1⟩, (hfits s' hs').2⟩⟩

end Intervals

/-! ## Files -/

/-- From cell `l` on there are these names and the `NULL`. -/
def Waits (s : Build) (l : ℕ) (names : List Text) : Prop :=
  ∀ t ≤ names.length, s.fs (l + t) = (names[t]?.map Cell.name).getD .null

section Files

variable {env : ℕ → Range.Env} {s : Build} {es : List Entry} {b p l fuel : ℕ} {path : Text}
  {names : List Text}

/-- In front of the name in cell `l`: the cells before it are the files from `p` on. -/
structure Adding (env : ℕ → Range.Env) (s : Build) (es : List Entry) (b p l : ℕ)
    (names : List Text) :
    Prop where
  ready : Ready env s es b
  waits : Waits s l names
  cells : ∀ k < l, s.fs k = .file (p + k)
  count : p + l = es.length
  nodup : (es.map Entry.path ++ names).Nodup

namespace Adding

theorem new (h : Adding env s es b p l (path :: names)) : ∀ e ∈ es, e.path ≠ path := by
  rintro e he rfl
  exact (List.nodup_append.1 h.nodup).2.2 _ (List.mem_map_of_mem he) _ List.mem_cons_self rfl

/-- The cells behind the name do not change when its own one does. -/
theorem waits_update (h : Adding env s es b p l (path :: names)) {t : Build} {c : Cell}
    (ht : t.fs = Function.update s.fs l c) : Waits t (l + 1) names := by
  intro k hk
  rw [ht, Function.update_of_ne (by omega), Nat.add_assoc, Nat.add_comm 1 k]
  exact h.waits (k + 1) (Nat.succ_le_succ hk)

/-- **One name.**  It becomes a file if its path can be stored and its slot is clean. -/
theorem step (fuel : ℕ) (h : Adding env s es b p l (path :: names))
    (hstored : Stored path (env es.length)) (hfits : SlotFits env es.length) :
    ∃ t b', addFiles env (fuel + 1) l l s = addFiles env fuel (l + 1) (l + 1) t ∧
      Adding env t (es ++ [⟨path, []⟩]) b' p (l + 1) names ∧
      t.range.handed = s.range.handed ++ [b'] ∧
      (Stays env es.length → b' = b) ∧ (¬ Stays env es.length → b < b') := by
  obtain ⟨slots, lists, hbuilt⟩ := h.ready.built
  have hcount := hbuilt.count
  have hlen : s.range.handed.length = es.length := hbuilt.intact.handed.trans hcount
  have hcell : s.fs l = .name path := h.waits 0 (Nat.zero_le _)
  rw [← hcount] at hstored hfits
  obtain ⟨r', b', hrun, hadded⟩ := (hbuilt.addNewFile h.new).1 hstored hfits
  have hcall : s.range.call (.addNewFile path idNone (env s.range.numFiles)) = .ok r' := hrun
  have hlen' : r'.handed.length = s.range.handed.length + 1 := by
    rw [hadded.handed, List.length_append, List.length_singleton]
  -- the new pointer is none of those that are already in `fs`
  have hrf : ((List.range l).any fun k => s.fs k = .file es.length) = false := by
    rw [List.any_eq_false]
    intro k hk
    have hlt := List.mem_range.1 hk
    have hcount' := h.count
    rw [h.cells k hlt, decide_eq_true_eq, Cell.file.injEq]
    omega
  let t : Build := ⟨Function.update s.fs l (.file es.length), r',
    s.calls ++ [.addNewFile path idNone (env s.range.numFiles)]⟩
  refine ⟨t, b', ?_, ?_, hadded.handed, fun hst => hadded.stays (hcount ▸ hst),
    fun hno => hadded.moves (hcount ▸ hno)⟩
  · rw [addFiles, hcell]
    simp only [Build.perform, hcall, hlen]
    rw [if_neg (by omega), hrf]
    rfl
  · constructor
    case ready => exact ⟨hadded.built, h.ready.leads.snoc hcall hadded.keeps⟩
    case waits => exact h.waits_update rfl
    case cells =>
      intro k hk
      show Function.update s.fs l _ k = _
      rcases Nat.lt_succ_iff_lt_or_eq.1 hk with hlt | rfl
      · rw [Function.update_of_ne hlt.ne]
        exact h.cells k hlt
      · rw [Function.update_self, h.count]
    case count =>
      have hcount' := h.count
      rw [List.length_append, List.length_singleton]
      omega
    case nodup => simpa using h.nodup

/-- Only such a name becomes a file. -/
theorem fits (h : Adding env s es b p l (path :: names)) {s' : Build} {l' : ℕ}
    (hrun : addFiles env (fuel + 1) l l s = .ok (s', l')) (hall : AllKeep Range.init s'.calls) :
    Stored path (env es.length) ∧ SlotFits env es.length := by
  obtain ⟨slots, lists, hbuilt⟩ := h.ready.built
  have hcell : s.fs l = .name path := h.waits 0 (Nat.zero_le _)
  rw [← hbuilt.count]
  rw [addFiles, hcell] at hrun
  simp only at hrun
  split at hrun
  · cases hrun
  · rename_i t hperform
    split at hrun
    · cases hrun
    · rename_i hhanded
      have hsub : t.calls <+: s'.calls := by
        split at hrun
        · exact calls_addFiles hrun
        · have hrest := calls_addFiles hrun
          exact hrest
      have hkeeps := keeps_of_isPrefix h.ready.leads hperform hsub hall
      rw [Build.perform] at hperform
      split at hperform
      · cases hperform
      · rename_i r' hcall
        cases hperform
        exact (hbuilt.addNewFile h.new).2 r' hcall hhanded hkeeps

end Adding

/-- The names can be stored, from file `n` on, and their slots are clean. -/
def FitsAll (env : ℕ → Range.Env) (n : ℕ) (names : List Text) : Prop :=
  ∀ t path, names[t]? = some path → Stored path (env (n + t)) ∧ SlotFits env (n + t)

theorem fitsAll_cons {n : ℕ} :
    FitsAll env n (path :: names) ↔
      (Stored path (env n) ∧ SlotFits env n) ∧ FitsAll env (n + 1) names := by
  have hindex : ∀ t, n + 1 + t = n + (t + 1) := fun t => by omega
  constructor
  · intro h
    refine ⟨h 0 path rfl, fun t a ha => ?_⟩
    rw [hindex]
    exact h (t + 1) a ha
  · rintro ⟨hzero, hsucc⟩ t a ha
    cases t with
    | zero =>
        cases ha
        exact hzero
    | succ t =>
        rw [← hindex]
        exact hsucc t a ha

/-- Names that have become files, with pointers into the blocks `hs`: all into block `b` if it
stays. -/
structure AllAdded (env : ℕ → Range.Env) (s : Build) (es : List Entry) (b p l : ℕ)
    (names : List Text)
    (s' : Build) (b' : ℕ) (hs : List ℕ) : Prop where
  adding : Adding env s' (es ++ entriesOf names []) b' p (l + names.length) []
  handed : s'.range.handed = s.range.handed ++ hs
  length : hs.length = names.length
  le : b ≤ b'
  stays : (∀ t < names.length, Stays env (es.length + t)) → b' = b ∧ ∀ x ∈ hs, x = b
  moves : ∀ t < names.length, ¬ Stays env (es.length + t) → b < b'

/-- **All names become files.** -/
theorem addFiles_ok : ∀ (names : List Text) {fuel l b : ℕ} {s : Build} {es : List Entry},
    names.length < fuel → Adding env s es b p l names → FitsAll env es.length names →
    ∃ s' b' hs, addFiles env fuel l l s = .ok (s', l + names.length) ∧
      AllAdded env s es b p l names s' b' hs
  | _, 0, _, _, _, _, hfuel, _, _ => absurd hfuel (Nat.not_lt_zero _)
  | [], fuel + 1, l, b, s, es, _, h, _ => by
    have hcell : s.fs l = .null := h.waits 0 le_rfl
    refine ⟨s, b, [], by rw [addFiles, hcell]; rfl, ?_⟩
    exact
      { adding := by rwa [entriesOf, List.map_nil, List.append_nil]
        handed := (List.append_nil _).symm
        length := rfl
        le := le_rfl
        stays := fun _ => ⟨rfl, by simp⟩
        moves := fun t ht => absurd ht (Nat.not_lt_zero t) }
  | path :: names, fuel + 1, l, b, s, es, hfuel, h, hfit => by
    obtain ⟨⟨hstored, hfits⟩, hothers⟩ := fitsAll_cons.1 hfit
    obtain ⟨t, b₁, hround, ht, hhanded, hstays, hmoves⟩ := h.step fuel hstored hfits
    have hlen : (es ++ [(⟨path, []⟩ : Entry)]).length = es.length + 1 := by simp
    obtain ⟨s', b', hs, hrun, hall⟩ :=
      addFiles_ok names (Nat.lt_of_succ_lt_succ hfuel) ht (by rwa [hlen])
    have hle : b ≤ b₁ := by
      by_cases hst : Stays env es.length
      · exact (hstays hst).ge
      · exact (hmoves hst).le
    have hlength : l + 1 + names.length = l + (path :: names).length := by
      rw [List.length_cons]
      omega
    have hindex : ∀ u, (es ++ [(⟨path, []⟩ : Entry)]).length + u = es.length + (u + 1) := by
      intro u
      rw [hlen]
      omega
    refine ⟨s', b', b₁ :: hs, by rw [hround, hrun, hlength], ?_⟩
    constructor
    case adding =>
      have hadding := hall.adding
      rwa [hlength, List.append_assoc] at hadding
    case handed =>
      rw [hall.handed, hhanded, List.append_assoc]
      rfl
    case length => rw [List.length_cons, hall.length, List.length_cons]
    case le => exact hle.trans hall.le
    case stays =>
      intro hst
      obtain ⟨rfl, hsame⟩ := hall.stays fun u hu => hindex u ▸ hst (u + 1) (Nat.succ_lt_succ hu)
      have hb := hstays (hst 0 (Nat.succ_pos _))
      refine ⟨hb, fun x hx => ?_⟩
      rcases List.mem_cons.1 hx with rfl | hx
      · exact hb
      · rw [hsame x hx, hb]
    case moves =>
      intro u hu hno
      cases u with
      | zero => exact (hmoves hno).trans_le hall.le
      | succ u =>
          have hno' := hindex u ▸ hno
          exact hle.trans_lt (hall.moves u (Nat.lt_of_succ_lt_succ hu) hno')

/-- Names that have become files fit. -/
theorem fitsAll_of_addFiles : ∀ (names : List Text) {fuel l l' b : ℕ} {s s' : Build}
    {es : List Entry},
    names.length < fuel → Adding env s es b p l names → addFiles env fuel l l s = .ok (s', l') →
    AllKeep Range.init s'.calls → FitsAll env es.length names
  | _, 0, _, _, _, _, _, _, hfuel, _, _, _ => absurd hfuel (Nat.not_lt_zero _)
  | [], fuel + 1, _, _, _, _, _, _, _, _, _, _ => fun t a ha => by cases ha
  | path :: names, fuel + 1, l, l', b, s, s', es, hfuel, h, hrun, hall => by
    obtain ⟨hstored, hfits⟩ := h.fits hrun hall
    obtain ⟨t, b₁, hround, ht, -⟩ := h.step fuel hstored hfits
    rw [hround] at hrun
    have hothers := fitsAll_of_addFiles names (Nat.lt_of_succ_lt_succ hfuel) ht hrun hall
    rw [List.length_append, List.length_singleton] at hothers
    exact fitsAll_cons.2 ⟨⟨hstored, hfits⟩, hothers⟩

end Files

/-! ## Groups -/

section Groups

variable {env : ℕ → Range.Env} {s : Build} {es : List Entry} {b b' l : ℕ} {g : Group}
  {files : List Text}

/-- All pointers of the group are into the present block. -/
theorem points_of_handed {handed hs : List ℕ} (hlen : handed.length = es.length)
    (hcells : ∀ k < files.length, s.fs k = .file (es.length + k)) (hhs : hs.length = files.length)
    (hhanded : s.range.handed = handed ++ hs) (hall : ∀ x ∈ hs, x = b') :
    Points s es.length files.length b' := by
  intro k hk
  refine ⟨hcells k hk, ?_⟩
  rw [hhanded, ← hlen, List.getElem?_append_right (Nat.le_add_right _ _), Nat.add_sub_cancel_left,
    List.getElem?_eq_getElem (by omega), hall _ (List.getElem_mem _)]

/-- A pointer that has gone stale stops the program at the first interval. -/
theorem addIntervals_stale (h : Ready env s es b') {p : ℕ} (hpos : 0 < l) (hcell : s.fs 0 = .file p)
    (hhanded : s.range.handed[p]? = some b) (hne : b ≠ b') (str : Text) (strs : List Text)
    (s' : Build) :
    (str :: strs).foldlM (addInterval l) s ≠ .ok s' := by
  obtain ⟨slots, lists, hbuilt⟩ := h.built
  obtain ⟨l, rfl⟩ := Nat.exists_eq_succ_of_ne_zero hpos.ne'
  have hstep : ∃ x, addInterval (l + 1) s str = .error x := by
    rw [addInterval]
    split
    · exact ⟨_, rfl⟩
    · rename_i base bound _
      refine ⟨.memory (.freed b), ?_⟩
      have hthrough : addThrough ⟨idNone, base, bound⟩ s 0 = .error (.memory (.freed b)) := by
        rw [addThrough, hcell]
        simp only [Build.perform, Range.call, hbuilt.addIt_stale _ hhanded hne]
      rw [List.range'_succ, List.foldlM_cons, hthrough]
      rfl
  obtain ⟨x, hx⟩ := hstep
  rw [List.foldlM_cons, hx]
  intro hok
  cases hok

/-- The files of a group are added: whether all its pointers are into the present block. -/
theorem addFiles_group {fuel : ℕ} (hfuel : files.length < fuel) (hne : files ≠ [])
    (h : Adding env s es b es.length 0 files) (hfit : FitsAll env es.length files) :
    ∃ s' b', addFiles env fuel 0 0 s = .ok (s', files.length) ∧
      Ready env s' (es ++ entriesOf files []) b' ∧
      ((∀ t, 0 < t → t < files.length → Stays env (es.length + t)) →
        Points s' es.length files.length b') ∧
      ∀ t, 0 < t → t < files.length → ¬ Stays env (es.length + t) →
        ∃ b₁, b₁ ≠ b' ∧ s'.fs 0 = .file es.length ∧ s'.range.handed[es.length]? = some b₁ := by
  have hhanded₀ : s.range.handed.length = es.length := by
    obtain ⟨slots, lists, hbuilt⟩ := h.ready.built
    exact hbuilt.intact.handed.trans hbuilt.count
  obtain ⟨path, rest, rfl⟩ := List.exists_cons_of_ne_nil hne
  obtain ⟨fuel, rfl⟩ := Nat.exists_eq_succ_of_ne_zero (Nat.ne_zero_of_lt hfuel)
  obtain ⟨⟨hstored, hfits⟩, hothers⟩ := fitsAll_cons.1 hfit
  have hlen : (es ++ [(⟨path, []⟩ : Entry)]).length = es.length + 1 := by simp
  have hindex : ∀ u, (es ++ [(⟨path, []⟩ : Entry)]).length + u = es.length + (u + 1) := by
    intro u
    rw [hlen]
    omega
  -- the first file may move the array; only the later ones must not
  obtain ⟨t, b₁, hround, ht, hhanded, -⟩ := h.step fuel hstored hfits
  obtain ⟨s', b', hs, hrun, hall⟩ :=
    addFiles_ok rest (Nat.lt_of_succ_lt_succ hfuel) ht (by rwa [hlen])
  have hhs : s'.range.handed = s.range.handed ++ b₁ :: hs := by
    rw [hall.handed, hhanded, List.append_assoc]
    rfl
  have hlength : 0 + 1 + rest.length = (path :: rest).length := by
    rw [List.length_cons]
    omega
  have hcells := hall.adding.cells
  have hready := hall.adding.ready
  rw [hlength] at hrun hcells
  rw [List.append_assoc] at hready
  refine ⟨s', b', hround.trans hrun, hready, fun hst => ?_, fun u hu hlt hno => ?_⟩
  · obtain ⟨rfl, hsame⟩ := hall.stays fun u hu =>
      hindex u ▸ hst (u + 1) (Nat.succ_pos u) (Nat.succ_lt_succ hu)
    refine points_of_handed hhanded₀ hcells ?_ hhs ?_
    · rw [List.length_cons, hall.length, List.length_cons]
    intro x hx
    rcases List.mem_cons.1 hx with rfl | hx
    · rfl
    · exact hsame x hx
  · obtain ⟨u, rfl⟩ := Nat.exists_eq_succ_of_ne_zero hu.ne'
    have hno' := hindex u ▸ hno
    refine ⟨b₁, (hall.moves u (Nat.lt_of_succ_lt_succ hlt) hno').ne, ?_, ?_⟩
    · exact hcells 0 (Nat.succ_pos _)
    · rw [hhs, ← hhanded₀, List.getElem?_append_right le_rfl, Nat.sub_self]
      rfl

/-- A safe group extends the entries. -/
theorem addGroup_ok {fuel : ℕ} (hfuel : g.files.length < fuel)
    (h : Adding env s es b es.length 0 g.files) (hsafe : SafeGroup env es.length g) :
    ∃ s' b', addGroup env fuel g.intervals s = .ok s' ∧ Ready env s' (es ++ g.entries) b' := by
  obtain ⟨hfit, hstays, hread, hbridge⟩ := hsafe
  obtain ⟨s₁, b', hrun, hs₁, hpoints, -⟩ := addFiles_group hfuel g.files_ne h hfit
  have hgroup : addGroup env fuel g.intervals s =
      g.intervals.foldlM (addInterval g.files.length) s₁ := by
    rw [addGroup, hrun]
  rw [hgroup, Group.entries]
  by_cases hnil : g.intervals = []
  · rw [hnil]
    exact ⟨s₁, b', rfl, hs₁⟩
  · obtain ⟨s', hs', hready⟩ := (addIntervals_iff g.files_ne g.intervals hs₁ (hpoints (hstays hnil))
      eachAfter_nil).1 ⟨hread, hbridge⟩
    exact ⟨s', b', hs', hready⟩

/-- A group that is added with calls that keep is safe. -/
theorem safeGroup_of_addGroup {fuel : ℕ} {s' : Build} (hfuel : g.files.length < fuel)
    (h : Adding env s es b es.length 0 g.files) (hrun : addGroup env fuel g.intervals s = .ok s')
    (hkeep : AllKeep Range.init s'.calls) : SafeGroup env es.length g := by
  rw [addGroup] at hrun
  split at hrun
  · cases hrun
  · rename_i s₁ l hfiles
    have hsub : s₁.calls <+: s'.calls :=
      calls_foldlM (fun _ _ _ hstep => calls_addInterval hstep) hrun
    have hfit := fitsAll_of_addFiles g.files hfuel h hfiles (allKeep_of_isPrefix hsub hkeep)
    obtain ⟨s₂, b', hfiles', hs₁, hpoints, hstale⟩ := addFiles_group hfuel g.files_ne h hfit
    rw [hfiles] at hfiles'
    cases hfiles'
    have hstays : g.intervals ≠ [] → ∀ t, 0 < t → t < g.files.length →
      Stays env (es.length + t) := by
      intro hne t ht hlt
      by_contra hno
      obtain ⟨b₁, hb₁, hcell, hhanded⟩ := hstale t ht hlt hno
      obtain ⟨str, strs, heq⟩ := List.exists_cons_of_ne_nil hne
      rw [heq] at hrun
      exact addIntervals_stale hs₁ (List.length_pos_of_ne_nil g.files_ne) hcell hhanded hb₁ str
        strs s'
        hrun
    by_cases hnil : g.intervals = []
    · refine ⟨hfit, hstays, ?_, ?_⟩
      · rw [hnil]
        simp
      · rw [hnil]
        exact eachAfter_nil
    · obtain ⟨hread, hbridge⟩ :=
        (addIntervals_iff g.files_ne g.intervals hs₁ (hpoints (hstays hnil)) eachAfter_nil).2
        s' hrun
      exact ⟨hfit, hstays, hread, hbridge⟩

end Groups

/-! ## Rounds -/

section Rounds

variable {argv rest : List Text} {env : ℕ → Range.Env} {u : Loop} {g : Group} {gs : List Group}

theorem takeWhile_append_flag {as l : List Text} (has : ∀ a ∈ as, isOperand a = true)
    (hl : ∀ a ∈ l.head?, isOperand a = false) :
    (as ++ l).takeWhile isOperand = as ∧ (as ++ l).dropWhile isOperand = l := by
  have hfront : l.takeWhile isOperand = [] ∧ l.dropWhile isOperand = l := by
    cases l with
    | nil => exact ⟨rfl, rfl⟩
    | cons a l =>
        have ha : isOperand a = false := hl a rfl
        simp [ha]
  rw [List.takeWhile_append_of_pos has, List.dropWhile_append_of_pos has, hfront.1, hfront.2,
    List.append_nil]
  exact ⟨rfl, rfl⟩

/-- The arguments that a round visits, and where it leaves the scanner. -/
theorem foreachOptarg_append {i : ℕ} {as l : List Text} (h : argv.drop i = as ++ l)
    (has : ∀ a ∈ as, isOperand a = true) (hl : ∀ a ∈ l.head?, isOperand a = false) :
    (foreachOptarg argv i).1 = as ∧ argv.drop (foreachOptarg argv i).2 = l := by
  obtain ⟨htake, hdrop⟩ := takeWhile_append_flag has hl
  refine ⟨?_, (drop_foreachOptarg h).trans hdrop⟩
  rw [foreachOptarg, h]
  exact htake

/-- Between two rounds: the scanner stands in front of `rest`. -/
structure Stands (argv : List Text) (u : Loop) (buf : List Char) (parity : ℕ) (rest : List Text) :
    Prop where
  buf : u.buf = buf
  parity : u.i % 2 = parity
  nextchar : u.scan.nextchar = []
  rest : argv.drop u.scan.optind = rest

theorem step_stop {buf : List Char} {parity : ℕ} (h : Stands argv u buf parity rest)
    (hno : (getopt buf argv u.scan).1 ≠ buf[1]?) : newRangeStep argv env u = .ok none := by
  unfold newRangeStep
  rw [h.buf]
  simp only
  rw [if_pos hno]

/-- Behind the last group. -/
theorem step_end (h : Stands argv u fileOptions 0 []) : newRangeStep argv env u = .ok none := by
  apply step_stop h
  have hnone : argv[u.scan.optind]? = none := by
    have := getElem?_of_drop h.rest 0
    rwa [Nat.add_zero] at this
  have hget : getopt fileOptions argv u.scan = (none, ⟨u.scan.optind, [], none⟩) := by
    rw [getopt, h.nextchar, hnone]
  rw [hget]
  intro heq
  cases heq

/-- `-r` as the last argument. -/
theorem step_last (h : Stands argv u regionOptions 1 [['-', 'r']]) :
    newRangeStep argv env u = .ok none := by
  apply step_stop h
  rw [getopt_last regionOptions (by decide) (by decide) h.nextchar h.rest]
  decide

/-- The round of `-f`. -/
theorem step_files (env : ℕ → Range.Env) (h : Stands argv u fileOptions 0 (g.args ++ rest)) :
    ∃ u', newRangeStep argv env u = .ok (some u') ∧
      Stands argv u' regionOptions 1 (['-', 'r'] :: (g.intervals ++ rest)) ∧
      u'.build = { u.build with fs := storeNames g.files u.build.fs } := by
  obtain ⟨path, names, hfiles⟩ := List.exists_cons_of_ne_nil g.files_ne
  have hdrop : argv.drop u.scan.optind =
      ['-', 'f'] :: (g.files ++ ['-', 'r'] :: (g.intervals ++ rest)) := by
    rw [h.rest, Group.args]
    simp
  have hnext : argv.drop (u.scan.optind + 1) = g.files ++ ['-', 'r'] :: (g.intervals ++ rest) := by
    rw [← List.drop_drop, hdrop]
    rfl
  have hget : getopt fileOptions argv u.scan = (some 'f', ⟨u.scan.optind + 2, [], some path⟩) := by
    rw [hfiles] at hdrop
    exact getopt_separate fileOptions (by decide) (by decide) h.nextchar hdrop
  obtain ⟨hargs, hrest⟩ := foreachOptarg_append hnext
    (fun a ha => g.operands a (List.mem_append_left _ ha)) (by
      intro a ha
      cases ha
      decide)
  have hstep : newRangeStep argv env u =
      .ok (some ⟨⟨(foreachOptarg argv (u.scan.optind + 1)).2, [], some path⟩, regionOptions,
        u.i + 1,
        { u.build with fs := storeNames g.files u.build.fs }⟩) := by
    unfold newRangeStep
    rw [h.buf, hget]
    simp only [show u.scan.optind + 2 - 1 = u.scan.optind + 1 from rfl, hargs, h.parity]
    rw [if_neg (by decide), if_neg (by decide), if_neg g.files_ne]
  refine ⟨_, hstep, ⟨rfl, ?_, rfl, hrest⟩, rfl⟩
  show (u.i + 1) % 2 = 1
  have := h.parity
  omega

/-- The round of `-r`. -/
theorem step_regions (env : ℕ → Range.Env)
    (h : Stands argv u regionOptions 1 (['-', 'r'] :: (g.intervals ++ gs.flatMap Group.args)))
    (hne : g.intervals ++ gs.flatMap Group.args ≠ []) :
    (∃ e, addGroup env argv.length g.intervals u.build = .error e ∧
      newRangeStep argv env u = .error e) ∨
    ∃ build u', addGroup env argv.length g.intervals u.build = .ok build ∧
      newRangeStep argv env u = .ok (some u') ∧ u'.build = build ∧
      Stands argv u' fileOptions 0 (gs.flatMap Group.args) := by
  obtain ⟨arg, l, hargs⟩ := List.exists_cons_of_ne_nil hne
  have hdrop := h.rest
  have hnext : argv.drop (u.scan.optind + 1) = g.intervals ++ gs.flatMap Group.args := by
    rw [← List.drop_drop, hdrop]
    rfl
  have hget : getopt regionOptions argv u.scan = (some 'r', ⟨u.scan.optind + 2, [], some arg⟩) := by
    rw [hargs] at hdrop
    exact getopt_separate regionOptions (by decide) (by decide) h.nextchar hdrop
  obtain ⟨hvisited, hrest⟩ := foreachOptarg_append hnext
    (fun a ha => g.operands a (List.mem_append_right _ ha)) (by
      intro a ha
      cases gs with
      | nil => cases ha
      | cons g' gs =>
          cases ha
          decide)
  have hstep : newRangeStep argv env u =
      match addGroup env argv.length g.intervals u.build with
      | .error e => .error e
      | .ok build =>
          .ok (some ⟨⟨(foreachOptarg argv (u.scan.optind + 1)).2, [], some arg⟩, fileOptions,
          u.i + 1, build⟩) := by
    unfold newRangeStep
    rw [h.buf, hget]
    simp only [show u.scan.optind + 2 - 1 = u.scan.optind + 1 from rfl, hvisited, h.parity]
    rw [if_neg (by decide), if_pos trivial]
  cases hgroup : addGroup env argv.length g.intervals u.build with
  | error e =>
      rw [hgroup] at hstep
      exact Or.inl ⟨e, rfl, hstep⟩
  | ok build =>
      rw [hgroup] at hstep
      refine Or.inr ⟨build, _, rfl, hstep, rfl, ⟨rfl, ?_, rfl, hrest⟩⟩
      show (u.i + 1) % 2 = 0
      have := h.parity
      omega

end Rounds

/-! ## The whole line -/

section Line

variable {argv : List Text} {env : ℕ → Range.Env} {u : Loop} {es : List Entry} {b n : ℕ}

theorem waits_storeNames (s : Build) (names : List Text) :
    Waits { s with fs := storeNames names s.fs } 0 names := by
  intro t ht
  show storeNames names s.fs (0 + t) = _
  rw [Nat.zero_add, storeNames]
  split
  · rename_i path hpath
    rw [hpath]
    rfl
  · rename_i hnone
    have hge := List.getElem?_eq_none_iff.1 hnone
    rw [if_pos (le_antisymm ht hge), hnone]
    rfl

/-- A group fits into the argument list that it is part of. -/
theorem length_files_lt {g : Group} {rest : List Text} {i : ℕ} (h : argv.drop i = g.args ++ rest) :
    g.files.length < argv.length := by
  have hlen := congrArg List.length h
  rw [List.length_drop, List.length_append, Group.args, List.length_append, List.length_cons,
    List.length_cons] at hlen
  omega

/-- The round of `-f` leads in front of the files of the group. -/
theorem adding_files {g : Group} {u₁ : Loop} (h : Ready env u.build es b)
    (hbuild : u₁.build = { u.build with fs := storeNames g.files u.build.fs })
    (hnodup : (es.map Entry.path ++ g.files).Nodup) :
    Adding env u₁.build es b es.length 0 g.files := by
  rw [hbuild]
  exact
    { ready := ⟨h.built, h.leads⟩
      waits := waits_storeNames u.build g.files
      cells := fun k hk => absurd hk (Nat.not_lt_zero k)
      count := Nat.add_zero _
      nodup := hnodup }

/-- A range with these entries is not short of the files of a further group. -/
theorem not_shows {s : Build} {g : Group} {es' : List Entry} (h : Ready env s es b) :
    ¬ Shows s.range (es ++ (g.entries ++ es')) := by
  intro hshows
  obtain ⟨slots, lists, hbuilt⟩ := h.built
  have hcount := hshows.1
  have hfiles := List.length_pos_of_ne_nil g.files_ne
  rw [hbuilt.count, List.length_append, List.length_append, Group.entries, entriesOf,
    List.length_map] at hcount
  omega

/-- **From any state between two groups, the loop builds the rest iff the rest is safe.** -/
theorem newRangeLoop_iff : ∀ (gs : List Group) {n b : ℕ} {u : Loop} {es : List Entry},
    2 * gs.length < n → Stands argv u fileOptions 0 (gs.flatMap Group.args) →
    Ready env u.build es b →
    (es.map Entry.path ++ gs.flatMap Group.files).Nodup →
    (Safe env es.length gs →
      ∃ s' b', newRangeLoop argv env n u = .ok s' ∧
        Ready env s' (es ++ gs.flatMap Group.entries) b') ∧
    ∀ s', newRangeLoop argv env n u = .ok s' → AllKeep Range.init s'.calls →
      Shows s'.range (es ++ gs.flatMap Group.entries) → Safe env es.length gs
  | [], 0, _, _, _, hn, _, _, _ => absurd hn (Nat.not_lt_zero _)
  | [], n + 1, b, u, es, _, hstands, h, _ => by
    have hrun : newRangeLoop argv env (n + 1) u = .ok u.build := by
      rw [newRangeLoop, step_end hstands]
    refine ⟨fun _ => ⟨u.build, b, hrun, ?_⟩, fun _ _ _ _ => trivial⟩
    rwa [List.flatMap_nil, List.append_nil]
  | g :: gs, 0, _, _, _, hn, _, _, _ => absurd hn (Nat.not_lt_zero _)
  | g :: gs, 1, _, _, _, hn, _, _, _ => by
    rw [List.length_cons] at hn
    omega
  | g :: gs, n + 2, b, u, es, hn, hstands, h, hnodup => by
    rw [List.flatMap_cons] at hstands
    rw [List.flatMap_cons, ← List.append_assoc] at hnodup
    obtain ⟨u₁, hstep₁, hstands₁, hbuild₁⟩ := step_files env hstands
    have hadding := adding_files h hbuild₁ (List.Nodup.of_append_left hnodup)
    have hround : newRangeLoop argv env (n + 2) u = newRangeLoop argv env (n + 1) u₁ := by
      rw [newRangeLoop, hstep₁]
    rw [hround, List.flatMap_cons]
    by_cases hlast : g.intervals ++ gs.flatMap Group.args = []
    · -- the last option lacks its argument: the files of the group are not added
      obtain ⟨hnil, hgs⟩ := List.append_eq_nil_iff.1 hlast
      have hgs' : gs = [] := by
        cases gs with
        | nil => rfl
        | cons g' gs => cases hgs
      have hrun : newRangeLoop argv env (n + 1) u₁ = .ok u₁.build := by
        rw [newRangeLoop, step_last (by rwa [hlast] at hstands₁)]
      rw [hrun]
      refine ⟨fun hsafe => absurd hnil (hsafe.2.1 hgs'), fun s' hs' _ hshows => ?_⟩
      cases hs'
      exact absurd hshows (not_shows hadding.ready)
    · have hfuel := length_files_lt hstands.rest
      have hlen : (es ++ g.entries).length = es.length + g.files.length := by
        rw [List.length_append, Group.entries, entriesOf, List.length_map]
      have hnodup' : ((es ++ g.entries).map Entry.path ++ gs.flatMap Group.files).Nodup := by
        rw [List.map_append, Group.entries, entriesOf, List.map_map]
        simpa [Function.comp_def] using hnodup
      rcases step_regions env hstands₁ hlast with ⟨e, hgroup, hstep⟩ |
        ⟨build, u₂, hgroup, hstep, hbuild₂, hstands₂⟩
      · have hrun : newRangeLoop argv env (n + 1) u₁ = .error e := by
          rw [newRangeLoop, hstep]
        rw [hrun]
        refine ⟨fun hsafe => ?_, fun s' hs' => ?_⟩
        · obtain ⟨s', b', hok, -⟩ := addGroup_ok hfuel hadding hsafe.1
          rw [hgroup] at hok
          cases hok
        · cases hs'
      · have hrun : newRangeLoop argv env (n + 1) u₁ = newRangeLoop argv env n u₂ := by
          rw [newRangeLoop, hstep]
        -- both directions go on from a safe group
        have hnext : SafeGroup env es.length g →
            (Safe env (es.length + g.files.length) gs →
              ∃ s' b', newRangeLoop argv env n u₂ = .ok s' ∧
              Ready env s' (es ++ (g.entries ++ gs.flatMap Group.entries)) b') ∧
            ∀ s', newRangeLoop argv env n u₂ = .ok s' → AllKeep Range.init s'.calls →
              Shows s'.range (es ++ (g.entries ++ gs.flatMap Group.entries)) →
              Safe env (es.length + g.files.length) gs := by
          intro hsafe
          obtain ⟨s₂, b', hok, h₂⟩ := addGroup_ok hfuel hadding hsafe
          rw [hgroup] at hok
          cases hok
          rw [← hlen, ← List.append_assoc]
          rw [List.length_cons] at hn
          exact newRangeLoop_iff gs (by omega) hstands₂ (hbuild₂ ▸ h₂) hnodup'
        rw [hrun]
        refine ⟨fun hsafe => (hnext hsafe.1).1 hsafe.2.2, fun s' hs' hkeep hshows => ?_⟩
        have hsub := calls_newRangeLoop hs'
        rw [hbuild₂] at hsub
        have hsafe := safeGroup_of_addGroup hfuel hadding hgroup (allKeep_of_isPrefix hsub hkeep)
        refine ⟨hsafe, ?_, (hnext hsafe).2 s' hs' hkeep hshows⟩
        rintro rfl hnil
        exact hlast (by rw [hnil]; rfl)

/-- The option of the mode, and where it leaves the scanner. -/
theorem getopt_mode (prog name : Text) (groups : List Group) :
    getopt modeOptions (commandLine prog name groups) Getopt.start =
      (some 'g', ⟨3, [], some name⟩) :=
  getopt_separate modeOptions (by decide) (by decide) rfl rfl

theorem two_mul_length_le (groups : List Group) :
    2 * groups.length ≤ (groups.flatMap Group.args).length := by
  induction groups with
  | nil => exact le_rfl
  | cons g gs ih =>
      rw [List.flatMap_cons, List.length_append, Group.args, List.length_append, List.length_cons,
        List.length_cons, List.length_cons]
      omega

/-- What `range_init` does with the name of the line. -/
theorem newRange_named (prog name : Text) (groups : List Group) (env : ℕ → Range.Env)
    (fs : ℕ → Cell) :
    newRange (commandLine prog name groups) env fs =
      if rangeNameLenMax < name.length then .error .err
      else
        newRangeLoop (commandLine prog name groups) env ((commandLine prog name groups).length + 1)
          ⟨⟨3, [], some name⟩, fileOptions, 0, ⟨Function.update fs 0 .null, Range.init, []⟩⟩ := by
  rw [newRange, getopt_mode]
  rfl

/-- **`-g` builds its range iff the name of the range is short enough and the groups are safe.** -/
theorem newRange_builds_iff (prog name : Text) (groups : List Group) (env : ℕ → Range.Env)
    (fs : ℕ → Cell)
    (hnodup : (groups.flatMap Group.files).Nodup) :
    Builds (commandLine prog name groups) env fs groups ↔
      name.length ≤ rangeNameLenMax ∧ Safe env 0 groups := by
  let u : Loop := ⟨⟨3, [], some name⟩, fileOptions, 0, ⟨Function.update fs 0 .null, Range.init, []⟩⟩
  have hfuel : 2 * groups.length < (commandLine prog name groups).length + 1 := by
    have hle := two_mul_length_le groups
    rw [commandLine, List.length_cons, List.length_cons, List.length_cons]
    omega
  have hstands :
    Stands (commandLine prog name groups) u fileOptions 0 (groups.flatMap Group.args) :=
    ⟨rfl, rfl, rfl, rfl⟩
  have hready : Ready env u.build [] 0 := ⟨⟨_, _, built_init⟩, rfl⟩
  obtain ⟨hbuilds, hneeds⟩ := newRangeLoop_iff groups hfuel hstands hready hnodup
  constructor
  · rintro ⟨s, hs, hkeep, hshows⟩
    rw [newRange_named] at hs
    split at hs
    · cases hs
    · rename_i hname
      exact ⟨Nat.le_of_not_lt hname, hneeds s hs hkeep hshows⟩
  · rintro ⟨hname, hsafe⟩
    obtain ⟨s, b, hs, hready'⟩ := hbuilds hsafe
    obtain ⟨slots, lists, hbuilt⟩ := hready'.built
    have hrun := newRange_named prog name groups env fs
    rw [if_neg (Nat.not_lt.2 hname)] at hrun
    exact ⟨s, hrun.trans hs, allKeep_of_leads hready'.leads, hbuilt.shows⟩

/-- The array is always moved; the slots behind the old ones are zero. -/
def moving : ℕ → Range.Env := fun _ => ⟨true, .moved fun _ => Slot.zero⟩

/-- `-f a b c d -r 1,2`. -/
def fourFiles : Group where
  files := [['a'], ['b'], ['c'], ['d']]
  intervals := [['1', ',', '2']]
  files_ne := List.cons_ne_nil _ _
  operands := by decide

/-- `-f e -r 0,4`. -/
def fifthFile : Group where
  files := [['e']]
  intervals := [['0', ',', '4']]
  files_ne := List.cons_ne_nil _ _
  operands := by decide

/-- `-f a b c d e -r 1,2`. -/
def fiveFiles : Group where
  files := [['a'], ['b'], ['c'], ['d'], ['e']]
  intervals := [['1', ',', '2']]
  files_ne := List.cons_ne_nil _ _
  operands := by decide

theorem slotFits_moving (n : ℕ) : SlotFits moving n := by
  refine ⟨fun _ => ?_, ?_⟩
  · intro h
    cases h
  · rw [leftOver]
    split
    · rfl
    · rfl

theorem noBridge_singleton (f : ItNode) : NoBridge [f] := by
  refine eachAfter_append.2 ⟨eachAfter_nil, ?_⟩
  rintro ⟨a, ha, -⟩
  cases ha

/-- The fifth file moves the array before its group has a pointer into it. -/
theorem newRange_builds_moved :
    Builds (commandLine ['y'] ['x'] [fourFiles, fifthFile]) moving (fun _ => .null)
      [fourFiles, fifthFile] := by
  refine (newRange_builds_iff ['y'] ['x'] [fourFiles, fifthFile] moving (fun _ => .null)
    (by decide)).2 ⟨by decide, ?_⟩
  have hfiles : ∀ (n : ℕ) (g : Group), (∀ a ∈ g.files, a.length ≤ pathMax) →
      ∀ t path, g.files[t]? = some path → Stored path (moving (n + t)) ∧ SlotFits moving (n + t) :=
    fun n g hg t path ht => ⟨⟨hg path (List.mem_of_getElem? ht), rfl⟩, slotFits_moving _⟩
  have hfirst : SafeGroup moving 0 fourFiles := by
    refine ⟨hfiles 0 fourFiles (by decide), fun _ t _ ht hgrows => ?_, by decide,
      noBridge_singleton _⟩
    -- the array is not full yet
    have hle : aListInitLen ≤ 0 + t := hgrows.2
    have hlt : t < 4 := ht
    rw [aListInitLen] at hle
    omega
  have hsecond : SafeGroup moving 4 fifthFile := by
    refine ⟨hfiles 4 fifthFile (by decide), fun _ t hpos ht => ?_, by decide, noBridge_singleton _⟩
    have hlt : t < 1 := ht
    omega
  exact ⟨hfirst, fun _ => by decide, hsecond, fun _ => by decide, trivial⟩

/-- The fifth file moves the array away from under the pointers of its own group. -/
theorem newRange_fifth_moves :
    newRange (commandLine ['y'] ['x'] [fiveFiles]) moving (fun _ => .null) =
      .error (.memory (.freed 0)) ∧
    ¬ Builds (commandLine ['y'] ['x'] [fiveFiles]) moving (fun _ => .null) [fiveFiles] := by
  have hrun : newRange (commandLine ['y'] ['x'] [fiveFiles]) moving (fun _ => .null) =
      .error (.memory (.freed 0)) := rfl
  refine ⟨hrun, ?_⟩
  rintro ⟨s, hs, -⟩
  rw [hrun] at hs
  cases hs

end Line

end Yacet.NewRange
