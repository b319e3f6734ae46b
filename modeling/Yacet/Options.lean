import Yacet.LockNames
import Yacet.Lib.CString

/-!
# Which line of `.oraclerc` applies (`options.h`)

* `fnameOf`, `extOf` — `get_fname_ext`.
* `raise` — the `switch` over `target_level` with its falls through: what a name adds to the level.
* `selectLine` — the line that `target` is a copy of behind the loop.
* `pick` — the same loop on the names alone.
* `Demoted` — the first line that applies is the only one for the path, and one for the file name
  comes behind it.
* `selectLine_precedence_iff` — **the line chosen has the documented precedence iff the path is not
  demoted.**
-/

namespace Yacet

open CText CString

/-- `RC_TOKENS`. -/
def isBlank (c : Char) : Bool := c = ' ' || c = '\t'

/-- `fname` of `get_fname_ext`. -/
def fnameOf (path : Text) : Text :=
  match strrchr '/' path with
  | some s => s.drop 1
  | none => path

/-- `ext` of `get_fname_ext`, with its dot; empty without one. -/
def extOf (path : Text) : Text := (strrchr '.' path).getD []

/-- The first `strtok(line, RC_TOKENS)`. -/
def strtok (line : Text) : Option Text :=
  let s := (cstr nulChar line).dropWhile isBlank
  if s = [] then none else some (s.takeWhile fun c => !isBlank c)

/-- The name that the loop compares; lines of less than 4 bytes are skipped. -/
def nameOf (line : Text) : Option Text := if line.length < 4 then none else strtok line

/-- `target_level` behind the `switch`. -/
def raise (path : Text) (level : ℕ) (name : Text) : ℕ :=
  level + (if level = 0 ∧ name = '*' :: extOf path then 1 else 0) +
    (if level ≤ 1 ∧ name = fnameOf path then 1 else 0) +
    (if level ≤ 2 ∧ name = path then 1 else 0)

/-- The loop over the lines of the file; `target` stands for the line that has been copied there. -/
def selectFrom (path : Text) (level : ℕ) (target : Option Text) : List Text → Option Text
  | [] => target
  | line :: lines =>
    match nameOf line with
    | none => selectFrom path level target lines
    | some name =>
      let newLevel := raise path level name
      if level < newLevel then
        if 2 < newLevel then some line else selectFrom path newLevel (some line) lines
      else selectFrom path newLevel target lines

/-- The line that `get_oracles` uses. -/
def selectLine (path : Text) (lines : List Text) : Option Text := selectFrom path 0 none lines

/-- The names that a line may have for a file, the best one first. -/
def namesFor (path : Text) : List Text := [path, fnameOf path, '*' :: extOf path]

/-- The line chosen is one of the file, and its name the best of those that occur. -/
def Precedence (path : Text) (lines : List Text) : Prop :=
  (∀ line ∈ selectLine path lines, line ∈ lines) ∧
    (selectLine path lines).bind nameOf = (namesFor path).find? (lines.filterMap nameOf).contains

/-- Of the names that apply the path comes first and only once, and the file name behind it. -/
def Demoted (path : Text) (names : List Text) : Prop :=
  path ≠ fnameOf path ∧ path ≠ '*' :: extOf path ∧
    ∃ pre post, names = pre ++ path :: post ∧ (∀ n ∈ pre, n ∉ namesFor path) ∧ path ∉ post ∧
      fnameOf path ∈ post

/-! ## The names -/

/-- The loop on the names. -/
def pick (path : Text) (level : ℕ) (c : Option Text) : List Text → Option Text
  | [] => c
  | name :: names =>
    let newLevel := raise path level name
    if level < newLevel then
      if 2 < newLevel then some name else pick path newLevel (some name) names
    else pick path newLevel c names

variable {path name : Text} {level : ℕ} {c : Option Text} {pre names : List Text}

/-- The loop looks at the names alone. -/
theorem selectFrom_names (target : Option Text) (lines : List Text) :
    (selectFrom path level target lines).bind nameOf =
      pick path level (target.bind nameOf) (lines.filterMap nameOf) := by
  induction lines generalizing level target with
  | nil => rfl
  | cons line lines ih =>
      rw [selectFrom, List.filterMap_cons]
      cases hname : nameOf line with
      | none => exact ih target
      | some name =>
          simp only
          rw [pick]
          split
          · split
            · exact hname
            · rw [ih, Option.bind_some, hname]
          · exact ih target

theorem selectFrom_mem (target : Option Text) (lines : List Text) :
    ∀ line ∈ selectFrom path level target lines, line ∈ target ∨ line ∈ lines := by
  induction lines generalizing level target with
  | nil => exact fun line h => Or.inl h
  | cons l lines ih =>
      have hrest : ∀ (level : ℕ) (line : Text), line ∈ selectFrom path level target lines →
          line ∈ target ∨ line ∈ l :: lines := fun level line h =>
        (ih target line h).imp_right (List.mem_cons_of_mem _)
      intro line h
      rw [selectFrom] at h
      split at h
      · exact hrest _ line h
      · simp only at h
        split at h
        · refine Or.inr ?_
          split at h
          · rw [Option.mem_some_iff.1 h]
            exact List.mem_cons_self
          · rcases ih (some l) line h with hl | hl
            · rw [Option.mem_some_iff.1 hl]
              exact List.mem_cons_self
            · exact List.mem_cons_of_mem _ hl
        · exact hrest _ line h

/-- Names that do not raise the level are passed. -/
theorem pick_skip (h : ∀ n ∈ pre, raise path level n = level) :
    pick path level c (pre ++ names) = pick path level c names := by
  induction pre with
  | nil => rfl
  | cons n pre ih =>
      rw [List.forall_mem_cons] at h
      rw [List.cons_append, pick, h.1, if_neg (Nat.lt_irrefl level)]
      exact ih h.2

/-- A name that raises the level to 1 or 2 is taken for the time being. -/
theorem pick_take (h : level < raise path level name) (hle : raise path level name ≤ 2) :
    pick path level c (name :: names) = pick path (raise path level name) (some name) names := by
  rw [pick, if_pos h, if_neg (by omega)]

/-- On level 2 only the path is looked for. -/
theorem pick_two : pick path 2 c names = if path ∈ names then some path else c := by
  induction names with
  | nil => simp [pick]
  | cons n names ih =>
      rw [pick]
      by_cases hn : n = path
      · subst hn
        simp [raise]
      · have hlevel : raise path 2 n = 2 := by simp [raise, hn]
        rw [hlevel, if_neg (Nat.lt_irrefl 2), ih]
        simp [Ne.symm hn]

/-- From level 1 on the best of the path and the file name is taken. -/
theorem pick_one : pick path 1 c names =
    if path ∈ names then some path else if fnameOf path ∈ names then some (fnameOf path)
      else c := by
  induction names with
  | nil => simp [pick]
  | cons n names ih =>
      by_cases hpath : n = path
      · rw [if_pos (by simp [hpath]), pick]
        subst hpath
        by_cases hne : n = fnameOf n
        · have hlevel : raise n 1 n = 3 := by simp [raise, ← hne]
          rw [hlevel, if_pos (by omega), if_pos (by omega)]
        · have hlevel : raise n 1 n = 2 := by simp [raise, hne]
          rw [hlevel, if_pos (by omega), if_neg (by omega), pick_two]
          split <;> rfl
      · by_cases hfname : n = fnameOf path
        · have hlevel : raise path 1 n = 2 := by simp [raise, hfname, hfname ▸ hpath]
          rw [pick_take (by omega) (by omega), hlevel, pick_two, hfname]
          simp [Ne.symm (hfname ▸ hpath : fnameOf path ≠ path)]
        · have hlevel : raise path 1 n = 1 := by simp [raise, hpath, hfname]
          rw [pick, hlevel, if_neg (Nat.lt_irrefl 1), ih]
          simp [Ne.symm hpath, Ne.symm hfname]

/-! ## Precedence -/

/-- The best of the names that occur. -/
theorem find_namesFor (names : List Text) : (namesFor path).find? (· ∈ names) =
    if path ∈ names then some path else if fnameOf path ∈ names then some (fnameOf path)
    else if '*' :: extOf path ∈ names then some ('*' :: extOf path) else none := by
  simp only [namesFor, List.find?_cons, List.find?_nil]
  by_cases h1 : path ∈ names
  · simp [h1]
  by_cases h2 : fnameOf path ∈ names
  · simp [h1, h2]
  by_cases h3 : '*' :: extOf path ∈ names
  · simp [h1, h2, h3]
  · simp [h1, h2, h3]

/-- Names that do not apply leave the level at 0. -/
theorem raise_zero (h : name ∉ namesFor path) : raise path 0 name = 0 := by
  simp only [namesFor, List.mem_cons, List.not_mem_nil, or_false, not_or] at h
  simp [raise, h.1, h.2.1, h.2.2]

/-- Cut at the first name that applies. -/
theorem exists_first (path : Text) (names : List Text) :
    (∀ n ∈ names, n ∉ namesFor path) ∨ ∃ pre name post, names = pre ++ name :: post ∧
      (∀ n ∈ pre, n ∉ namesFor path) ∧ name ∈ namesFor path := by
  cases h : names.find? (· ∈ namesFor path) with
  | none => exact Or.inl fun n hn => by simpa using List.find?_eq_none.1 h n hn
  | some name =>
      obtain ⟨hname, pre, post, hcut, hpre⟩ := List.find?_eq_some_iff_append.1 h
      exact Or.inr ⟨pre, name, post, hcut, fun n hn => by simpa using hpre n hn,
        of_decide_eq_true hname⟩

/-- There is only one such cut. -/
theorem dropWhile_first {pre : List Text} (post : List Text) (hpre : ∀ n ∈ pre, n ∉ namesFor path)
    (hname : name ∈ namesFor path) :
    (pre ++ name :: post).dropWhile (· ∉ namesFor path) = name :: post := by
  rw [List.dropWhile_append_of_pos fun n hn => by simpa using hpre n hn,
    List.dropWhile_cons_of_neg (by simpa using hname)]

/-- **From the first name that applies on.** -/
theorem pick_iff {post : List Text} (hname : name ∈ namesFor path) :
    pick path 0 none (name :: post) = (namesFor path).find? (· ∈ name :: post) ↔
      ¬ (path ≠ fnameOf path ∧ path ≠ '*' :: extOf path ∧ name = path ∧ path ∉ post ∧
        fnameOf path ∈ post) := by
  rw [find_namesFor]
  by_cases hpath : name = path
  · subst hpath
    rw [if_pos List.mem_cons_self]
    by_cases hgeneric : name ≠ fnameOf name ∧ name ≠ '*' :: extOf name
    · -- one match raises the level by one only
      obtain ⟨h1, h2⟩ := hgeneric
      have hlevel : raise name 0 name = 1 := by simp [raise, h1, h2]
      rw [pick_take (by omega) (by omega), hlevel, pick_one]
      by_cases hp : name ∈ post
      · simp [hp]
      by_cases hf : fnameOf name ∈ post
      · simp [h1, h2, hp, hf, Ne.symm h1]
      · simp [hp, hf]
    · have hlevel : 2 ≤ raise name 0 name := by
        rcases not_and_or.1 hgeneric with h | h
        · rw [not_not] at h
          unfold raise
          rw [if_pos (show 0 ≤ 1 ∧ name = fnameOf name from ⟨by omega, h⟩),
            if_pos (show 0 ≤ 2 ∧ name = name from ⟨by omega, rfl⟩)]
          omega
        · rw [not_not] at h
          unfold raise
          rw [if_pos (show 0 = 0 ∧ name = '*' :: extOf name from ⟨rfl, h⟩),
            if_pos (show 0 ≤ 2 ∧ name = name from ⟨by omega, rfl⟩)]
          omega
      refine iff_of_true ?_ fun h => hgeneric ⟨h.1, h.2.1⟩
      rw [pick, if_pos (by omega)]
      split
      · rfl
      · rw [show raise name 0 name = 2 by omega, pick_two]
        split <;> rfl
  · refine iff_of_true ?_ fun h => hpath h.2.2.1
    by_cases hfname : name = fnameOf path
    · have hlevel : 1 ≤ raise path 0 name ∧ raise path 0 name ≤ 2 := by
        unfold raise
        rw [if_pos (show 0 ≤ 1 ∧ name = fnameOf path from ⟨by omega, hfname⟩),
          if_neg (show ¬ (0 ≤ 2 ∧ name = path) from fun h => hpath h.2)]
        split <;> omega
      rw [pick_take (by omega) hlevel.2]
      rcases Nat.lt_or_ge (raise path 0 name) 2 with hlt | hge
      · rw [show raise path 0 name = 1 by omega, pick_one]
        simp [Ne.symm hpath, ← hfname]
      · rw [show raise path 0 name = 2 by omega, pick_two]
        simp [Ne.symm hpath, ← hfname]
    · have hext : name = '*' :: extOf path := by
        simpa [namesFor, hpath, hfname] using hname
      have hlevel : raise path 0 name = 1 := by simp [raise, hpath, hfname, ← hext]
      rw [pick_take (by omega) (by omega), hlevel, pick_one]
      simp [Ne.symm hpath, Ne.symm hfname, ← hext]

/-- **The line chosen has the documented precedence iff the path is not demoted.** -/
theorem selectLine_precedence_iff (path : Text) (lines : List Text) :
    Precedence path lines ↔ ¬ Demoted path (lines.filterMap nameOf) := by
  have hmem : ∀ line ∈ selectLine path lines, line ∈ lines := fun line h =>
    (selectFrom_mem none lines line h).resolve_left (by simp)
  have hnames : (selectLine path lines).bind nameOf = pick path 0 none (lines.filterMap nameOf) :=
    selectFrom_names none lines
  rw [Precedence, and_iff_right hmem, hnames]
  generalize lines.filterMap nameOf = names
  rw [show names.contains = fun n => decide (n ∈ names) from
    funext fun n => List.contains_eq_mem n names]
  rcases exists_first path names with hno | ⟨pre, name, post, rfl, hpre, hname⟩
  · have hskip := @pick_skip path 0 none names [] fun n hn => raise_zero (hno n hn)
    have hnone : (namesFor path).find? (· ∈ names) = none :=
      List.find?_eq_none.2 fun n hn hmem => hno n (of_decide_eq_true hmem) hn
    rw [List.append_nil] at hskip
    rw [hskip, hnone]
    refine iff_of_true rfl ?_
    rintro ⟨-, -, pre, post, rfl, -⟩
    exact hno path (by simp) (by simp [namesFor])
  · rw [pick_skip fun n hn => raise_zero (hpre n hn)]
    have hfind : (namesFor path).find? (· ∈ pre ++ name :: post) =
        (namesFor path).find? (· ∈ name :: post) := by
      refine List.find?_congr fun n hn => ?_
      have hn' : n ∉ pre := fun hmem => hpre n hmem hn
      simp [hn']
    rw [hfind, pick_iff hname, not_iff_not]
    refine and_congr_right fun hne => and_congr_right fun hne' => ?_
    constructor
    · rintro ⟨rfl, hpost⟩
      exact ⟨pre, post, rfl, hpre, hpost⟩
    · rintro ⟨pre', post', hcut, hpre', hpost⟩
      have hself : path ∈ namesFor path := List.mem_cons_self
      have hdrop := dropWhile_first post hpre hname
      rw [hcut, dropWhile_first post' hpre' hself, List.cons.injEq] at hdrop
      rw [← hdrop.1, ← hdrop.2]
      exact ⟨rfl, hpost⟩

/-- Lines for `/a/f.c`: one for the path, then one for `f.c`.  The second is used; the other way
round the line for the path is. -/
theorem selectLine_demoted :
    let path : Text := ['/', 'a', '/', 'f', '.', 'c']
    let texts : Text := ' ' :: List.replicate 8 'A' ++ ' ' :: List.replicate 8 'B'
    let best : Text := path ++ texts
    let other : Text := ['f', '.', 'c'] ++ texts
    selectLine path [best, other] = some other ∧ selectLine path [other, best] = some best ∧
      ¬ Precedence path [best, other] :=
  ⟨by decide, by decide, fun h => absurd h.2 (by decide)⟩

end Yacet
