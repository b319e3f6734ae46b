import Yacet.Bo
import Yacet.NewRange

/-!
# From marked files to ranges (`nosql/Makefile`, `nosql/bo.c`, `main.c`)

`parse-files` runs `bo` on one file after the other, with one list file for all of them; a line of
the list file is then the arguments of `yacet -g`.

* `Source` — a file with marks in it, and a name that survives the list file and the command line.
* `parseFiles` — the runs of `bo`.
* `lineAfter` — the line of a range: the files that have marks of it, with their intervals.
* `parseFiles_eq` — the runs leave exactly these lines, and each reads the lines of those before it.
* `words_line` — the words of a line are a command line of groups, one for each file.
* `parseFiles_builds` — **`-g` makes of each line the range that was marked.**
-/

namespace Yacet

namespace Bo

open CText CString Marks NewRange

/-! ## The files -/

/-- A character that neither `make` nor the shell takes for anything but itself. -/
def isPlain (c : Char) : Bool := c.isAlphanum || c = '/' || c = '.' || c = '_' || c = '-'

/-- A file with marks and the name that it is to have. -/
structure Source where
  path : Text
  input : List Byte
  path_ne : path ≠ []
  operand : isOperand path = true
  name : path.all isPlain = true
  plain : nul ∉ input
  small : input.length < 2 ^ 63

theorem Source.notMem (f : Source) : ' ' ∉ f.path ∧ '\n' ∉ f.path ∧ nulChar ∉ f.path := by
  have hplain : ∀ c : Char, isPlain c = false → c ∉ f.path := by
    intro c hc hmem
    rw [List.all_eq_true.1 f.name c hmem] at hc
    cases hc
  exact ⟨hplain _ (by decide), hplain _ (by decide), hplain _ (by decide)⟩

/-- `parse-files`: the outputs and the list file. -/
def parseFiles (files : List Source) : Except Fault (List (List Byte) × Text) :=
  files.foldlM (fun s f => (main f.path f.input s.2).map fun r => (s.1 ++ [r.1], r.2)) ([], [])

/-- The files that have marks of range `w`. -/
def marked (w : ℕ) (files : List Source) : List Source :=
  files.filter fun f => positions (isMark w) f.input ≠ []

/-- The line of range `w`. -/
def lineAfter (files : List Source) (w : ℕ) : Option Text :=
  if marked w files = [] then none
  else some (rangeName w ++ (marked w files).flatMap fun f => appended f.path (intervals f.input w))

variable {files : List Source} {f : Source} {w : ℕ} {line : Text}

theorem marked_append : marked w (files ++ [f]) =
    if positions (isMark w) f.input = [] then marked w files else marked w files ++ [f] := by
  rw [marked, List.filter_append, List.filter_singleton]
  by_cases h : positions (isMark w) f.input = []
  · simp [h, marked]
  · simp [h, marked]

/-- **What one run makes of the line.** -/
theorem lineAfter_append : lineAfter (files ++ [f]) w =
    lineOf f.path w (lineAfter files w) (offsets (isMark w) visible f.input) := by
  unfold lineAfter
  rw [marked_append, lineOf]
  have hnil : offsets (isMark w) visible f.input = [] ↔ positions (isMark w) f.input = [] := by
    rw [offsets, List.map_eq_nil_iff]
  by_cases h : positions (isMark w) f.input = []
  · rw [if_pos h, if_pos (hnil.2 h)]
  · rw [if_neg h, if_neg (mt hnil.1 h), if_neg (by simp)]
    by_cases hold : marked w files = []
    · rw [if_pos hold, hold]
      simp [intervals]
    · rw [if_neg hold, List.flatMap_append]
      simp [intervals]

/-! ## The list file is read back -/

/-- A line that a run can have written for range `w`. -/
structure Written (w : ℕ) (line : Text) : Prop where
  name : ∃ rest, line = rangeName w ++ rest ∧ ∀ c ∈ rest.head?, c = ' '
  notMem : '\n' ∉ line ∧ nulChar ∉ line

theorem notMem_appended (f : Source) (ivs : List (ℕ × ℕ)) :
    '\n' ∉ appended f.path ivs ∧ nulChar ∉ appended f.path ivs := by
  have hnum : ∀ {c : Char} (n : ℕ), c.isDigit = false → c ∉ zeroPadded 0 n :=
    fun n hc => notMem_zeroPadded hc
  obtain ⟨-, hnl, hnul⟩ := f.notMem
  constructor
  all_goals
    simp only [appended, header, intervalText, List.mem_append, List.mem_flatMap, List.mem_cons,
      List.not_mem_nil, or_false, not_or, not_exists, not_and]
    refine ⟨⟨⟨by decide, by assumption⟩, by decide⟩, fun e _ => ?_⟩
    exact ⟨⟨by decide, hnum _ (by decide)⟩, by decide, hnum _ (by decide)⟩

theorem written_lineAfter (h : lineAfter files w = some line) : Written w line := by
  unfold lineAfter at h
  split at h
  · cases h
  · rename_i hne
    cases h
    have hname : '\n' ∉ rangeName w ∧ nulChar ∉ rangeName w := by
      constructor
      all_goals
        rw [rangeName, List.mem_append, not_or]
        exact ⟨by decide, notMem_zeroPadded (by decide)⟩
    refine ⟨⟨_, rfl, ?_⟩, ?_, ?_⟩
    · obtain ⟨f, fs, hfs⟩ := List.exists_cons_of_ne_nil hne
      rw [hfs]
      intro c hc
      exact (Option.some.inj hc).symm
    all_goals
      rw [List.mem_append, not_or]
      refine ⟨by first | exact hname.1 | exact hname.2, ?_⟩
      rw [List.mem_flatMap]
      rintro ⟨f, -, hf⟩
      first | exact (notMem_appended f _).1 hf | exact (notMem_appended f _).2 hf

theorem two_le_length_zeroPadded (n : ℕ) : 2 ≤ (zeroPadded 2 n).length := by
  rw [zeroPadded, List.length_append, List.length_replicate]
  omega

/-- The line is taken for its range. -/
theorem rangeNumber_written (hw : w < tokensLen) (h : Written w line) :
    rangeNumber (line ++ ['\n']) = some w := by
  obtain ⟨rest, rfl, hrest⟩ := h.name
  have hlen := two_le_length_zeroPadded (w + 1)
  have hshape : rangeName w ++ rest ++ ['\n'] =
      rangeW ++ (zeroPadded 2 (w + 1) ++ (rest ++ ['\n'])) := by
    simp [rangeName, List.append_assoc]
  have hdigit : ∀ c ∈ (rest ++ ['\n']).head?, c.isDigit = false := by
    intro c hc
    cases rest with
    | nil =>
        obtain rfl : '\n' = c := Option.some.inj hc
        decide
    | cons d rest =>
        obtain rfl : d = c := Option.some.inj hc
        rw [hrest d rfl]
        decide
  have hw' : w < 28 := hw
  have hnumber : atoi ((rangeW ++ (zeroPadded 2 (w + 1) ++ (rest ++ ['\n']))).drop 5) = w + 1 := by
    show atoi (zeroPadded 2 (w + 1) ++ (rest ++ ['\n'])) = w + 1
    rw [atoi, atol_zeroPadded 2 (w + 1) hdigit, min_eq_right (by omega)]
    rw [Int.bmod_eq_of_le (by omega) (by omega)]
    omega
  rw [hshape, rangeNumber, if_pos, hnumber]
  · simp only
    rw [if_pos (by constructor <;> omega)]
    congr 1
    omega
  · refine ⟨rfl, ?_⟩
    simp only [List.length_append, List.length_singleton]
    have : rangeW.length = 5 := rfl
    omega

/-- A table of lines as the runs write it. -/
def Table.Written (lines : ℕ → Option Text) : Prop :=
  ∀ w line, lines w = some line → w < tokensLen ∧ Bo.Written w line

variable {lines : ℕ → Option Text}

theorem written_table (files : List Source) : Table.Written (lineAfter files) := by
  intro w line h
  refine ⟨?_, written_lineAfter h⟩
  by_contra hge
  have hnone : marked w files = [] := by
    rw [marked, List.filter_eq_nil_iff]
    intro f _
    have hmark : ∀ b, isMark w b = false := by
      intro b
      rw [isMark, List.getElem?_eq_none (Nat.not_lt.1 hge)]
      rfl
    have hpos : positions (isMark w) f.input = [] := by
      rw [positions, List.filter_eq_nil_iff]
      intro i _
      cases f.input[i]? <;> simp [hmark]
    simp [hpos]
  rw [lineAfter, if_pos hnone] at h
  cases h

theorem fileOf_eq (lines : ℕ → Option Text) :
    fileOf lines = ((List.range tokensLen).filterMap lines).flatMap (· ++ ['\n']) := by
  rw [fileOf]
  induction List.range tokensLen with
  | nil => rfl
  | cons w ws ih =>
      rw [List.flatMap_cons, ih]
      cases h : lines w with
      | none => rw [List.filterMap_cons_none h]; rfl
      | some line => rw [List.filterMap_cons_some h]; rfl

theorem lines_fileOf (h : Table.Written lines) : CString.lines '\n' (fileOf lines) =
    ((List.range tokensLen).filterMap lines).map (· ++ ['\n']) := by
  rw [fileOf_eq, lines_written]
  intro line hline
  obtain ⟨w, -, hw⟩ := List.mem_filterMap.1 hline
  exact (h w line hw).2.notMem.1

/-- A line of the list file is the line of its range. -/
theorem mem_lines_fileOf (h : Table.Written lines) {l : Text}
    (hl : l ∈ CString.lines '\n' (fileOf lines)) :
    ∃ w line, lines w = some line ∧ l = line ++ ['\n'] ∧ rangeNumber l = some w := by
  rw [lines_fileOf h] at hl
  obtain ⟨line, hline, rfl⟩ := List.mem_map.1 hl
  obtain ⟨w, -, hw⟩ := List.mem_filterMap.1 hline
  obtain ⟨hlt, hwritten⟩ := h w line hw
  exact ⟨w, line, hw, rfl, rangeNumber_written hlt hwritten⟩

/-- **A list file that has been written is well-formed, and its lines are terminated.** -/
theorem wellFormed_fileOf (h : Table.Written lines) :
    WellFormed (fileOf lines) ∧ Terminated (fileOf lines) := by
  refine ⟨⟨?_, ?_, ?_, ?_⟩, ?_⟩
  · rw [fileOf_eq, List.mem_flatMap]
    rintro ⟨line, hline, hmem⟩
    obtain ⟨w, -, hw⟩ := List.mem_filterMap.1 hline
    rcases List.mem_append.1 hmem with hmem | hmem
    · exact (h w line hw).2.notMem.2 hmem
    · exact absurd hmem (by decide)
  · rw [lines_fileOf h, List.length_map]
    exact (List.length_filterMap_le _ _).trans (by rw [List.length_range])
  · intro l hl
    obtain ⟨w, line, -, -, hnum⟩ := mem_lines_fileOf h hl
    right
    rw [hnum]
    rfl
  · rw [lines_fileOf h, List.filterMap_map, List.filterMap_filterMap]
    refine List.Nodup.filterMap (fun v w u hv hw => ?_) List.nodup_range
    have hsame : ∀ {v u : ℕ}, u ∈ (lines v).bind (rangeNumber ∘ (· ++ ['\n'])) → u = v := by
      intro v u hu
      obtain ⟨line, hline, hnum⟩ := Option.bind_eq_some_iff.1 hu
      obtain ⟨hlt, hwritten⟩ := h v line hline
      rw [Function.comp_apply, rangeNumber_written hlt hwritten] at hnum
      exact (Option.some.inj hnum).symm
    rw [← hsame hv, ← hsame hw]
  · intro l hl _
    obtain ⟨w, line, -, rfl, -⟩ := mem_lines_fileOf h hl
    exact List.getLast?_concat

/-- **What has been written is what is read.** -/
theorem oldLine_fileOf (h : Table.Written lines) (w : ℕ) : oldLine (fileOf lines) w = lines w := by
  cases hw : lines w with
  | none =>
      rw [oldLine, Option.map_eq_none_iff, List.find?_eq_none]
      intro l hl hnum
      obtain ⟨v, line, hv, -, hnum'⟩ := mem_lines_fileOf h hl
      rw [of_decide_eq_true hnum] at hnum'
      cases hnum'
      rw [hw] at hv
      cases hv
  | some line =>
      obtain ⟨hlt, hwritten⟩ := h w line hw
      have hmem : line ++ ['\n'] ∈ CString.lines '\n' (fileOf lines) := by
        rw [lines_fileOf h]
        exact List.mem_map_of_mem (List.mem_filterMap.2 ⟨w, List.mem_range.2 hlt, hw⟩)
      rw [oldLine, find?_of_distinct (wellFormed_fileOf h).1.distinct hmem
        (rangeNumber_written hlt hwritten), Option.map_some, content,
        if_pos List.getLast?_concat, List.dropLast_concat]

/-! ## The runs -/

/-- **Each run prints its file without the marks, and together they leave the lines of all
files.** -/
theorem parseFiles_eq (files : List Source) : parseFiles files =
    .ok (files.map fun f => f.input.filter visible, fileOf (lineAfter files)) := by
  induction files using List.reverseRecOn with
  | nil => rfl
  | append_singleton files f ih =>
      have htable := written_table files
      obtain ⟨hwell, hend⟩ := wellFormed_fileOf htable
      have hlines : (fun w => lineOf f.path w (storedLine (fileOf (lineAfter files)) w)
          (offsets (isMark w) visible f.input)) = lineAfter (files ++ [f]) := by
        funext w
        rw [storedLine_eq hend, oldLine_fileOf htable, lineAfter_append]
      have hempty : (∀ w < tokensLen, lineAfter (files ++ [f]) w = none) →
          fileOf (lineAfter files) = fileOf (lineAfter (files ++ [f])) := by
        intro hnone
        have hold : ∀ w < tokensLen, lineAfter files w = none := by
          intro w hw
          have hnew := hnone w hw
          rw [lineAfter_append] at hnew
          exact (lineOf_eq_none_iff.1 hnew).2
        have hnil : ∀ {L : ℕ → Option Text}, (∀ w < tokensLen, L w = none) → fileOf L = [] := by
          intro L hL
          rw [fileOf, List.flatMap_eq_nil_iff]
          intro w hw
          rw [hL w (List.mem_range.1 hw)]
          rfl
        rw [hnil hold, hnil hnone]
      have hrun : main f.path f.input (fileOf (lineAfter files)) =
          .ok (f.input.filter visible, fileOf (lineAfter (files ++ [f]))) := by
        rw [main_eq hwell f.plain, hlines, writeLines_eq]
        split
        · rename_i hnone
          rw [hempty hnone]
        · rfl
      unfold parseFiles at ih ⊢
      rw [List.foldlM_append, ih]
      simp [hrun, Except.map, bind, Except.bind, pure, Except.pure]

/-! ## The words of a line -/

/-- An interval as an argument. -/
def intervalWord (e : ℕ × ℕ) : Text := zeroPadded 0 e.1 ++ ',' :: zeroPadded 0 e.2

theorem zeroPadded_ne_nil (n : ℕ) : zeroPadded 0 n ≠ [] := by
  unfold zeroPadded
  exact List.append_ne_nil_of_right_ne_nil _ Nat.toDigits_ne_nil

theorem isOperand_intervalWord (e : ℕ × ℕ) : isOperand (intervalWord e) = true := by
  obtain ⟨d, ds, hds⟩ := List.exists_cons_of_ne_nil (zeroPadded_ne_nil e.1)
  have hmem : d ∈ zeroPadded 0 e.1 := by
    rw [hds]
    exact List.mem_cons_self
  have hdigit := isDigit_of_mem_zeroPadded hmem
  rw [intervalWord, hds]
  simp only [isOperand, List.cons_append, List.head?_cons, ne_eq, Option.some.injEq,
    decide_not, Bool.not_eq_true', decide_eq_false_iff_not]
  exact (ends_of_isDigit hdigit).2.1

/-- The file with its intervals, as `-g` takes them. -/
def group (w : ℕ) (f : Source) : NewRange.Group where
  files := [f.path]
  intervals := (intervals f.input w).map intervalWord
  files_ne := List.cons_ne_nil _ _
  operands := by
    intro a ha
    rcases List.mem_append.1 ha with ha | ha
    · rw [List.mem_singleton.1 ha]
      exact f.operand
    · obtain ⟨e, -, rfl⟩ := List.mem_map.1 ha
      exact isOperand_intervalWord e

theorem appended_eq (w : ℕ) (f : Source) :
    appended f.path (intervals f.input w) = (group w f).args.flatMap (' ' :: ·) := by
  simp [appended, header, NewRange.Group.args, group, intervalText, intervalWord, List.flatMap_map]

/-- **The words of a line are the range and one group for each file.** -/
theorem words_line (h : lineAfter files w = some line) :
    words line = rangeName w :: ((marked w files).map (group w)).flatMap NewRange.Group.args := by
  unfold lineAfter at h
  split at h
  · cases h
  · cases h
    have hjoin : ((marked w files).flatMap fun f => appended f.path (intervals f.input w)) =
        (((marked w files).map (group w)).flatMap NewRange.Group.args).flatMap (' ' :: ·) := by
      rw [List.flatMap_map, List.flatMap_assoc]
      simp only [appended_eq]
    have hnum : ∀ {width n : ℕ}, ' ' ∉ zeroPadded width n := notMem_zeroPadded (by decide)
    rw [hjoin, words_joined]
    intro v hv
    rcases List.mem_cons.1 hv with rfl | hv
    · refine ⟨by simp [rangeName, rangeW], ?_⟩
      rw [rangeName, List.mem_append, not_or]
      exact ⟨by decide, hnum⟩
    · obtain ⟨g, hg, hv⟩ := List.mem_flatMap.1 hv
      obtain ⟨f, -, rfl⟩ := List.mem_map.1 hg
      simp only [NewRange.Group.args, group, List.cons_append, List.nil_append, List.mem_cons,
        List.mem_map] at hv
      rcases hv with rfl | rfl | rfl | ⟨e, -, rfl⟩
      · exact ⟨List.cons_ne_nil _ _, by decide⟩
      · exact ⟨f.path_ne, f.notMem.1⟩
      · exact ⟨List.cons_ne_nil _ _, by decide⟩
      · refine ⟨List.append_ne_nil_of_left_ne_nil (zeroPadded_ne_nil e.1) _, ?_⟩
        rw [intervalWord, List.mem_append, List.mem_cons, not_or, not_or]
        exact ⟨hnum, by decide, hnum⟩

/-! ## What `-g` makes of them -/

/-- The node that `-g` asks for. -/
def node (e : ℕ × ℕ) : ItNode := ⟨idNone, e.1, e.2⟩

theorem intervals_spec (f : Source) (w : ℕ) :
    (intervals f.input w).Pairwise (fun e e' => e.2 ≤ e'.1) ∧
      ∀ e ∈ intervals f.input w, e.1 ≤ e.2 ∧ e.2 < 2 ^ 63 := by
  have hoffsets : (offsets (isMark w) visible f.input).Pairwise (· ≤ ·) := pairwise_offsets
  obtain ⟨hord, hle⟩ := pairwise_pairs hoffsets
  refine ⟨hord, fun e he => ⟨hle e he, ?_⟩⟩
  obtain ⟨i, -, hi⟩ := List.mem_map.1 (mem_of_mem_pairs he).2
  rw [← hi]
  exact (offset_le_length i).trans_lt f.small

/-- An interval is read back unless it is empty. -/
theorem getRange_intervalWord {e : ℕ × ℕ} (hle : e.1 ≤ e.2) (hlt : e.2 < 2 ^ 63) :
    getRange (intervalWord e) = if e.1 < e.2 then some e else none := by
  have hcomma : (intervalWord e).dropWhile (· ≠ ',') = ',' :: zeroPadded 0 e.2 := by
    rw [intervalWord, List.dropWhile_append_of_pos]
    · simp
    · intro c hc
      rw [decide_eq_true_eq]
      rintro rfl
      exact notMem_zeroPadded (by decide) hc
  have hbase : sizeT (atol (intervalWord e)) = e.1 := by
    rw [intervalWord, atol_zeroPadded 0 e.1 (by simp)]
    exact sizeT_number (by omega)
  have hbound : sizeT (atol (zeroPadded 0 e.2)) = e.2 := by
    rw [← List.append_nil (zeroPadded 0 e.2), atol_zeroPadded 0 e.2 (by simp)]
    exact sizeT_number hlt
  unfold getRange
  rw [hcomma, hbase]
  simp only [hbound]
  rw [if_pos (zeroPadded_ne_nil e.2)]
  by_cases h : e.1 < e.2
  · rw [if_pos h, if_neg (by omega)]
  · rw [if_neg h, if_pos (by omega)]

/-- Intervals one behind the other bridge nothing. -/
theorem noBridge_of_ascending {ivs : List ItNode} (hpos : ∀ a ∈ ivs, a.base < a.bound)
    (hord : ivs.Pairwise fun a b => a.bound ≤ b.base) : NoBridge ivs := by
  rintro pre f post rfl ⟨a, ha, b, hb, hfa, hfb, hno⟩
  rw [List.pairwise_append] at hord
  have hlast : ∀ c ∈ pre, itIntersect f c = true → c.bound = f.base := by
    intro c hc hi
    have hle := hord.2.2 c hc f List.mem_cons_self
    rw [itIntersect_iff] at hi
    omega
  have hne : a ≠ b := by
    rintro rfl
    exact hno Relation.ReflTransGen.refl
  have : Std.Symm fun a b : ItNode => a.bound ≤ b.base ∨ b.bound ≤ a.base := ⟨fun _ _ => Or.symm⟩
  have hab : a.bound ≤ b.base ∨ b.bound ≤ a.base := by
    apply List.Pairwise.forall _ ha hb hne
    exact hord.1.imp fun h => Or.inl h
  have ha' := hlast a ha hfa
  have hb' := hlast b hb hfb
  have := hpos a (List.mem_append_left _ ha)
  have := hpos b (List.mem_append_left _ hb)
  omega

section Build

variable {env : ℕ → Mem.Range.Env} {k : ℕ}

/-- The text between the marks of a pair is not empty. -/
def Proper (w : ℕ) (f : Source) : Prop := ∀ e ∈ intervals f.input w, e.1 < e.2

/-- The library has memory for file number `k`, and the name is short enough. -/
def Room (env : ℕ → Mem.Range.Env) (k : ℕ) (f : Source) : Prop :=
  Mem.Stored f.path (env k) ∧ Mem.SlotFits env k

theorem regions_of_proper (h : Proper w f) :
    (group w f).intervals.filterMap regionOf = (intervals f.input w).map node := by
  have hread : ∀ e ∈ intervals f.input w, (regionOf ∘ intervalWord) e = some (node e) := by
    intro e he
    obtain ⟨hle, hlt⟩ := (intervals_spec f w).2 e he
    rw [Function.comp_apply, regionOf, getRange_intervalWord hle hlt, if_pos (h e he)]
    rfl
  rw [group, List.filterMap_map, List.filterMap_congr hread, List.filterMap_eq_map']

theorem safeGroup_iff : SafeGroup env k (group w f) ↔ Room env k f ∧ Proper w f := by
  constructor
  · intro h
    have hroom : Mem.Stored f.path (env (k + 0)) ∧ Mem.SlotFits env (k + 0) := h.files 0 f.path rfl
    refine ⟨hroom, fun e he => ?_⟩
    obtain ⟨hle, hlt⟩ := (intervals_spec f w).2 e he
    have hread := h.read _ (List.mem_map_of_mem he)
    rw [getRange_intervalWord hle hlt] at hread
    by_contra hno
    exact hread (if_neg hno)
  · rintro ⟨hroom, hproper⟩
    refine ⟨fun t path ht => ?_, fun _ t hpos ht => ?_, fun str hstr => ?_, ?_⟩
    · cases t with
      | zero =>
          cases ht
          exact hroom
      | succ t => cases ht
    · have hlt : t < 1 := ht
      omega
    · obtain ⟨e, he, rfl⟩ := List.mem_map.1 hstr
      obtain ⟨hle, hlt⟩ := (intervals_spec f w).2 e he
      rw [getRange_intervalWord hle hlt, if_pos (hproper e he)]
      exact Option.some_ne_none _
    · rw [regions_of_proper hproper]
      apply noBridge_of_ascending
      · intro a ha
        obtain ⟨e, he, rfl⟩ := List.mem_map.1 ha
        exact hproper e he
      · exact List.pairwise_map.2 (intervals_spec f w).1

/-- Every group is safe. -/
def SafeEach (env : ℕ → Mem.Range.Env) : ℕ → List NewRange.Group → Prop
  | _, [] => True
  | n, g :: gs => SafeGroup env n g ∧ SafeEach env (n + g.files.length) gs

/-- What the files and the library are to be like. -/
def AllFit (env : ℕ → Mem.Range.Env) (w k : ℕ) (fs : List Source) : Prop :=
  ∀ t f, fs[t]? = some f → Room env (k + t) f ∧ Proper w f

theorem allFit_cons {fs : List Source} :
    AllFit env w k (f :: fs) ↔ (Room env k f ∧ Proper w f) ∧ AllFit env w (k + 1) fs := by
  constructor
  · intro h
    refine ⟨h 0 f rfl, fun t f' ht => ?_⟩
    have hnext := h (t + 1) f' ht
    rwa [show k + (t + 1) = k + 1 + t by omega] at hnext
  · rintro ⟨hf, hfs⟩ t f' ht
    cases t with
    | zero =>
        cases ht
        exact hf
    | succ t =>
        rw [show k + (t + 1) = k + 1 + t by omega]
        exact hfs t f' ht

theorem safeEach_iff {fs : List Source} :
    SafeEach env k (fs.map (group w)) ↔ AllFit env w k fs := by
  induction fs generalizing k with
  | nil => exact ⟨fun _ => nofun, fun _ => trivial⟩
  | cons f fs ih =>
      rw [allFit_cons, ← safeGroup_iff, ← ih]
      rfl

end Build

/-! ## The line as the arguments of `-g` -/

/-- `./$(EXEC) -g $a -e $(TEXTEXEC)`, where `$a` is a line of the list file. -/
def testArgs (prog exe line : Text) : List Text :=
    prog :: ['-', 'g'] :: words line ++ [['-', 'e'], exe]

section Line

open Getopt Mem

variable {argv tail : List Text} {env : ℕ → Mem.Range.Env} {u : Loop} {es : List Entry} {b n : ℕ}

/-- `-e` ends the loop. -/
theorem step_exec {l : List Text} (h : Stands argv u fileOptions 0 (['-', 'e'] :: l)) :
    newRangeStep argv env u = .ok none := by
  apply step_stop h
  rw [getopt_letter h.nextchar h.rest (by decide)]
  intro heq
  cases heq

/-- The round of `-r` in front of anything that is not an operand. -/
theorem step_regions_tail (env : ℕ → Mem.Range.Env) {g : NewRange.Group}
    (hhead : ∃ a, tail.head? = some a ∧ isOperand a = false)
    (h : Stands argv u regionOptions 1 (['-', 'r'] :: (g.intervals ++ tail))) :
    ∃ scan, newRangeStep argv env u =
        (addGroup env argv.length g.intervals u.build).map
          (fun build => some ⟨scan, fileOptions, u.i + 1, build⟩) ∧
      ∀ build, Stands argv ⟨scan, fileOptions, u.i + 1, build⟩ fileOptions 0 tail := by
  obtain ⟨a, ha, hop⟩ := hhead
  have hne : g.intervals ++ tail ≠ [] := by
    intro hnil
    rw [(List.append_eq_nil_iff.1 hnil).2] at ha
    cases ha
  obtain ⟨arg, l, hargs⟩ := List.exists_cons_of_ne_nil hne
  have hdrop := h.rest
  have hnext : argv.drop (u.scan.optind + 1) = g.intervals ++ tail := by
    rw [← List.drop_drop, hdrop]
    rfl
  have hget : getopt regionOptions argv u.scan = (some 'r', ⟨u.scan.optind + 2, [], some arg⟩) := by
    rw [hargs] at hdrop
    exact getopt_separate regionOptions (by decide) (by decide) h.nextchar hdrop
  obtain ⟨hvisited, hrest⟩ := foreachOptarg_append hnext
    (fun a ha => g.operands a (List.mem_append_right _ ha)) (by
      intro a' ha'
      rw [ha] at ha'
      cases ha'
      exact hop)
  refine ⟨⟨(foreachOptarg argv (u.scan.optind + 1)).2, [], some arg⟩, ?_, fun build => ?_⟩
  · unfold newRangeStep
    rw [h.buf, hget]
    simp only [show u.scan.optind + 2 - 1 = u.scan.optind + 1 from rfl, hvisited, h.parity]
    rw [if_neg (by decide), if_pos trivial]
    cases addGroup env argv.length g.intervals u.build <;> rfl
  · refine ⟨rfl, ?_, rfl, hrest⟩
    show (u.i + 1) % 2 = 0
    have := h.parity
    omega

/-- **From any state between two groups, the loop comes to `-e` with the rest iff the rest is
safe.** -/
theorem newRangeLoop_exec {exe : Text} : ∀ (gs : List NewRange.Group) {n b : ℕ} {u : Loop}
    {es : List Entry}, 2 * gs.length < n →
    Stands argv u fileOptions 0 (gs.flatMap NewRange.Group.args ++ [['-', 'e'], exe]) →
    Ready env u.build es b →
    (es.map Entry.path ++ gs.flatMap NewRange.Group.files).Nodup →
    (SafeEach env es.length gs →
      ∃ s' b', newRangeLoop argv env n u = .ok s' ∧
        Ready env s' (es ++ gs.flatMap NewRange.Group.entries) b') ∧
    ∀ s', newRangeLoop argv env n u = .ok s' → AllKeep Range.init s'.calls →
      SafeEach env es.length gs
  | [], 0, _, _, _, hn, _, _, _ => absurd hn (Nat.not_lt_zero _)
  | [], n + 1, b, u, es, _, hstands, h, _ => by
    have hrun : newRangeLoop argv env (n + 1) u = .ok u.build := by
      rw [newRangeLoop, step_exec hstands]
    refine ⟨fun _ => ⟨u.build, b, hrun, ?_⟩, fun _ _ _ => trivial⟩
    rwa [List.flatMap_nil, List.append_nil]
  | g :: gs, 0, _, _, _, hn, _, _, _ => absurd hn (Nat.not_lt_zero _)
  | g :: gs, 1, _, _, _, hn, _, _, _ => by
    rw [List.length_cons] at hn
    omega
  | g :: gs, n + 2, b, u, es, hn, hstands, h, hnodup => by
    rw [List.flatMap_cons, List.append_assoc] at hstands
    rw [List.flatMap_cons, ← List.append_assoc] at hnodup
    obtain ⟨u₁, hstep₁, hstands₁, hbuild₁⟩ := step_files env hstands
    have hadding := adding_files h hbuild₁ (List.Nodup.of_append_left hnodup)
    have hfuel := length_files_lt hstands.rest
    have hlen : (es ++ g.entries).length = es.length + g.files.length := by
      rw [List.length_append, NewRange.Group.entries, entriesOf, List.length_map]
    have hnodup' : ((es ++ g.entries).map Entry.path ++ gs.flatMap NewRange.Group.files).Nodup := by
      rw [List.map_append, NewRange.Group.entries, entriesOf, List.map_map]
      simpa [Function.comp_def] using hnodup
    have hhead : ∃ a, (gs.flatMap NewRange.Group.args ++ [['-', 'e'], exe]).head? = some a ∧
        isOperand a = false := by
      cases gs with
      | nil => exact ⟨_, rfl, rfl⟩
      | cons g' gs => exact ⟨_, rfl, rfl⟩
    obtain ⟨scan, hstep, hstands₂⟩ := step_regions_tail env hhead hstands₁
    rw [newRangeLoop, hstep₁]
    simp only
    rw [newRangeLoop, hstep, List.flatMap_cons]
    cases hgroup : addGroup env argv.length g.intervals u₁.build with
    | error e =>
        refine ⟨fun hsafe => ?_, fun s' hs' => by cases hs'⟩
        obtain ⟨s', b', hok, -⟩ := addGroup_ok hfuel hadding hsafe.1
        rw [hgroup] at hok
        cases hok
    | ok build =>
        simp only [Except.map]
        have hnext : SafeGroup env es.length g →
            (SafeEach env (es.length + g.files.length) gs →
              ∃ s' b', newRangeLoop argv env n ⟨scan, fileOptions, u₁.i + 1, build⟩ = .ok s' ∧
                Ready env s' (es ++ (g.entries ++ gs.flatMap NewRange.Group.entries)) b') ∧
            ∀ s', newRangeLoop argv env n ⟨scan, fileOptions, u₁.i + 1, build⟩ = .ok s' →
              AllKeep Range.init s'.calls → SafeEach env (es.length + g.files.length) gs := by
          intro hsafe
          obtain ⟨s₂, b', hok, h₂⟩ := addGroup_ok hfuel hadding hsafe
          rw [hgroup] at hok
          cases hok
          rw [← hlen, ← List.append_assoc]
          rw [List.length_cons] at hn
          exact newRangeLoop_exec gs (by omega) (hstands₂ build) h₂ hnodup'
        refine ⟨fun hsafe => (hnext hsafe.1).1 hsafe.2, fun s' hs' hkeep => ?_⟩
        have hsafe := safeGroup_of_addGroup hfuel hadding hgroup
          (allKeep_of_isPrefix (calls_newRangeLoop hs') hkeep)
        exact ⟨hsafe, (hnext hsafe).2 s' hs' hkeep⟩

/-- Two digits are enough for every range, so `range_init` takes the name. -/
theorem length_rangeName (hw : w < tokensLen) : (rangeName w).length = 7 := by
  have hall : ∀ v < tokensLen, (rangeName v).length = 7 := by decide
  exact hall w hw

/-- The mode and its loop on the line of a range. -/
theorem newRange_testArgs (h : lineAfter files w = some line) (prog exe : Text)
    (env : ℕ → Mem.Range.Env) (fs : ℕ → Cell) :
    ∃ u n, newRange (testArgs prog exe line) env fs =
      newRangeLoop (testArgs prog exe line) env n u ∧
      2 * ((marked w files).map (group w)).length < n ∧ Ready env u.build [] 0 ∧
      Stands (testArgs prog exe line) u fileOptions 0
        (((marked w files).map (group w)).flatMap NewRange.Group.args ++ [['-', 'e'], exe]) := by
  have hargs : testArgs prog exe line = prog :: ['-', 'g'] :: rangeName w ::
      (((marked w files).map (group w)).flatMap NewRange.Group.args ++ [['-', 'e'], exe]) := by
    rw [testArgs, words_line h]
    rfl
  have hmode : getopt modeOptions (testArgs prog exe line) Getopt.start =
      (some 'g', ⟨3, [], some (rangeName w)⟩) := by
    rw [hargs]
    exact getopt_separate modeOptions (by decide) (by decide) rfl rfl
  refine ⟨⟨⟨3, [], some (rangeName w)⟩, fileOptions, 0,
    ⟨Function.update fs 0 .null, Range.init, []⟩⟩,
    (testArgs prog exe line).length + 1, ?_, ?_, ⟨⟨_, _, built_init⟩, rfl⟩, ⟨rfl, rfl, rfl, ?_⟩⟩
  · have hname : ¬ rangeNameLenMax < (rangeName w).length := by
      rw [length_rangeName (written_table files w line h).1]
      decide
    rw [newRange, hmode]
    exact if_neg hname
  · have hle := two_mul_length_le ((marked w files).map (group w))
    rw [hargs, List.length_cons, List.length_cons, List.length_cons, List.length_append]
    omega
  · rw [hargs]
    rfl

theorem flatMap_files (fs : List Source) :
    (fs.map (group w)).flatMap NewRange.Group.files = fs.map Source.path := by
  induction fs with
  | nil => rfl
  | cons f fs ih =>
      rw [List.map_cons, List.flatMap_cons, ih]
      rfl

/-- The entry that the range is to have for a file. -/
def entry (w : ℕ) (f : Source) : Entry := ⟨f.path, (intervals f.input w).map node⟩

theorem flatMap_entries {fs : List Source} (h : ∀ f ∈ fs, Proper w f) :
    (fs.map (group w)).flatMap NewRange.Group.entries = fs.map (entry w) := by
  induction fs with
  | nil => rfl
  | cons f fs ih =>
      rw [List.map_cons, List.flatMap_cons, ih fun f' hf' => h f' (List.mem_cons_of_mem _ hf'),
        NewRange.Group.entries, regions_of_proper (h f List.mem_cons_self)]
      rfl

/-- **A line of the list file builds the range of its marks iff no pair of marks is empty and the
library has memory.** -/
theorem line_builds_iff (hnodup : (files.map Source.path).Nodup) (h : lineAfter files w = some line)
    (prog exe : Text) (env : ℕ → Mem.Range.Env) (fs : ℕ → Cell) :
    (∃ s, newRange (testArgs prog exe line) env fs = .ok s ∧ AllKeep Range.init s.calls ∧
      Mem.Shows s.range ((marked w files).map (entry w))) ↔ AllFit env w 0 (marked w files) := by
  obtain ⟨u, n, hrun, hfuel, hready, hstands⟩ := newRange_testArgs h prog exe env fs
  have hpaths : (((marked w files).map (group w)).flatMap NewRange.Group.files).Nodup := by
    rw [flatMap_files]
    exact hnodup.sublist (List.filter_sublist.map _)
  obtain ⟨hbuilds, hneeds⟩ := newRangeLoop_exec _ hfuel hstands hready hpaths
  rw [← safeEach_iff, hrun]
  constructor
  · rintro ⟨s, hs, hkeep, -⟩
    exact hneeds s hs hkeep
  · intro hsafe
    obtain ⟨s, b, hs, hready'⟩ := hbuilds hsafe
    obtain ⟨slots, lists, hbuilt⟩ := hready'.built
    have hproper : ∀ f ∈ marked w files, Proper w f := by
      intro f hf
      obtain ⟨t, ht⟩ := List.mem_iff_getElem?.1 hf
      exact (safeEach_iff.1 hsafe t f ht).2
    have hshows := hbuilt.shows
    rw [List.nil_append, flatMap_entries hproper] at hshows
    exact ⟨s, hs, allKeep_of_leads hready'.leads, hshows⟩

/-- The lines of a list file are those of the ranges that have one, in order. -/
theorem rangeNumbers_fileOf {lines : ℕ → Option Text} (h : Table.Written lines) :
    (CString.lines '\n' (fileOf lines)).map rangeNumber =
      ((List.range tokensLen).filter fun w => (lines w).isSome).map some := by
  rw [lines_fileOf h, List.map_map]
  induction List.range tokensLen with
  | nil => rfl
  | cons w ws ih =>
      cases hw : lines w with
      | none =>
          rw [List.filterMap_cons_none hw, List.filter_cons_of_neg (by simp [hw])]
          exact ih
      | some line =>
          obtain ⟨hlt, hwritten⟩ := h w line hw
          rw [List.filterMap_cons_some hw, List.filter_cons_of_pos (by simp [hw]), List.map_cons,
            List.map_cons, ih, Function.comp_apply, rangeNumber_written hlt hwritten]

theorem isSome_lineAfter : (lineAfter files w).isSome = decide (marked w files ≠ []) := by
  unfold lineAfter
  by_cases h : marked w files = []
  · simp [h]
  · simp [h]

/-- **From the marked files to the ranges.** The runs print the files without their marks and leave
one line for each range that has marks, in order; `-g` makes of the line the range that has each of
these files with the intervals of its marks, iff no pair of marks is empty and the library has
memory. -/
theorem parseFiles_builds (files : List Source) (hnodup : (files.map Source.path).Nodup)
    (prog exe : Text)
    (env : ℕ → Mem.Range.Env) (fs : ℕ → Cell) :
    ∃ list, parseFiles files = .ok (files.map fun f => f.input.filter visible, list) ∧
      (CString.lines '\n' list).map rangeNumber =
        ((List.range tokensLen).filter fun w => marked w files ≠ []).map some ∧
      ∀ line w, line ++ ['\n'] ∈ CString.lines '\n' list → rangeNumber (line ++ ['\n']) = some w →
        ((∃ s, newRange (testArgs prog exe line) env fs = .ok s ∧ AllKeep Range.init s.calls ∧
          Mem.Shows s.range ((marked w files).map (entry w))) ↔
            AllFit env w 0 (marked w files)) := by
  have htable := written_table files
  refine ⟨_, parseFiles_eq files, ?_, fun line w hmem hnum => ?_⟩
  · rw [rangeNumbers_fileOf htable]
    simp only [isSome_lineAfter]
  · obtain ⟨v, line', hv, heq, hnum'⟩ := mem_lines_fileOf htable hmem
    obtain rfl : v = w := Option.some.inj (hnum'.symm.trans hnum)
    obtain rfl : line = line' := (List.append_left_inj _).1 heq
    exact line_builds_iff hnodup hv prog exe env fs

/-- The text `x` between two marks of the first range, in file `a`. -/
def markedOnce : Source where
  path := ['a']
  input := [0x1, 0x78, 0x1]
  path_ne := List.cons_ne_nil _ _
  operand := by decide
  name := by decide
  plain := by decide
  small := by decide

/-- Nothing between two marks of the first range, and `y` between two of the second, in file `b`. -/
def markedTwice : Source where
  path := ['b']
  input := [0x1, 0x1, 0x2, 0x79, 0x2]
  path_ne := List.cons_ne_nil _ _
  operand := by decide
  name := by decide
  plain := by decide
  small := by decide

/-- The empty pair of marks costs the first range, but not the second. -/
theorem parseFiles_builds_second :
    ∃ list, parseFiles [markedOnce, markedTwice] = .ok ([[0x78], [0x79]], list) ∧
      ∀ line, line ++ ['\n'] ∈ CString.lines '\n' list →
        (rangeNumber (line ++ ['\n']) = some 0 → ¬ ∃ s,
          newRange (testArgs ['y'] ['c'] line) moving (fun _ => .null) = .ok s ∧
          AllKeep Range.init s.calls ∧
          Mem.Shows s.range [entry 0 markedOnce, entry 0 markedTwice]) ∧
        (rangeNumber (line ++ ['\n']) = some 1 → ∃ s,
          newRange (testArgs ['y'] ['c'] line) moving (fun _ => .null) = .ok s ∧
          AllKeep Range.init s.calls ∧ Mem.Shows s.range [⟨['b'], [⟨idNone, 0, 1⟩]⟩]) := by
  obtain ⟨list, hrun, -, hlines⟩ :=
    parseFiles_builds [markedOnce, markedTwice] (by decide) ['y'] ['c']
    moving (fun _ => .null)
  refine ⟨list, hrun, fun line hmem => ⟨fun hnum hbuilds => ?_, fun hnum => ?_⟩⟩
  · have hfit := (hlines line 0 hmem hnum).1 hbuilds
    have hempty : Proper 0 markedTwice := (hfit 1 markedTwice rfl).2
    exact absurd (hempty (0, 0) (by decide)) (by decide)
  · refine (hlines line 1 hmem hnum).2 ?_
    intro t f ht
    have hf : f = markedTwice := List.mem_singleton.1 (List.mem_of_getElem? ht)
    subst hf
    refine ⟨⟨⟨by decide, rfl⟩, slotFits_moving _⟩, ?_⟩
    unfold Proper
    decide

end Line

end Bo

end Yacet
