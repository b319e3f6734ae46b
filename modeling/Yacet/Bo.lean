import Yacet.Lib.Marks
import Yacet.LockNames
import Yacet.SwapFile

/-!
# Byte offsets of marked ranges (`nosql/bo.c`)

`bo` takes the marks out of a text and appends, for each range, the offsets of its marks to the
range's line of a list file.

* `main`, `readLines`, `addRange`, `writeLines` — the program.
* `WellFormed` — the list files that `read_lines` takes without an error or a warning.
* `Parses` — what the program is to do with them.
* `parses_iff` — **it does iff the input has no NUL and every range line of the list file ends in a
  newline**: `strchr` finds the end of `TOKENS`, too, and `read_lines` drops the last byte of a line
  whatever it is.
-/

namespace Yacet

namespace Bo

open CText CString Marks

/-! ## The program -/

/-- `TOKENS`. -/
def tokens : List Byte :=
  [0x1, 0x2, 0x3, 0x4, 0x5, 0x6, 0x7, 0x8, 0xb, 0xc, 0xe, 0xf, 0x10, 0x11, 0x12, 0x13, 0x14, 0x15,
    0x16, 0x17, 0x18, 0x19, 0x1a, 0x1b, 0x1c, 0x1d, 0x1e, 0x1f]

/-- `TOKENS_LEN`. -/
def tokensLen : ℕ := 28

/-- `RANGE_W`. -/
def rangeW : Text := ['R', 'a', 'n', 'g', 'e']

def carriageReturn : Byte := 0xd

/-- `strchr(TOKENS, b) - TOKENS`: the NUL that ends the string can be found as well. -/
def strchr (b : Byte) : Option ℕ := (tokens ++ [nul]).idxOf? b

/-- What the program does not come through. -/
inductive Fault
  | outside (w : ℕ)
  | duplicate
  | improper
  deriving DecidableEq, Repr

/-- `lines`, `interval_v` and `add_file_bitv`. -/
structure Table where
  lines : ℕ → Option Text
  intervalV : ℕ → ℤ
  addFileBitv : ℕ

/-- `atoi`. -/
def atoi (s : Text) : ℤ := (atol s).bmod (2 ^ 32)

/-- The checks of `read_lines` on a line that is not blank: the index of its range. -/
def rangeNumber (line : Text) : Option ℕ :=
  if line.take 5 = rangeW ∧ 8 ≤ line.length then
    let j := atoi (line.drop 5) - 1
    if 0 ≤ j ∧ j < tokensLen then some j.toNat else none
  else none

/-- `read_lines` from line `i` on. -/
def readLines : ℕ → (ℕ → Option Text) → List Text → Except Fault (ℕ → Option Text)
  | _, lines, [] => .ok lines
  | i, lines, line :: rest =>
    if tokensLen ≤ i then .ok lines
    else if line.head? = some '\n' then readLines (i + 1) lines rest
    else
      let line := cstr nulChar line
      match rangeNumber line with
      | none => .error .improper
      | some j =>
        if (lines j).isSome then .error .duplicate
        -- `strndup(line, len - 1)`
        else readLines (i + 1) (Function.update lines j (some line.dropLast)) rest

/-- `Range%02d`. -/
def rangeName (w : ℕ) : Text := rangeW ++ zeroPadded 2 (w + 1)

/-- ` -f %s -r`. -/
def header (fp : Text) : Text := [' ', '-', 'f', ' '] ++ fp ++ [' ', '-', 'r']

/-- ` %ld,%lu`. -/
def intervalText (a b : ℕ) : Text := ' ' :: zeroPadded 0 a ++ ',' :: zeroPadded 0 b

/-- `add_range`. -/
def addRange (fp : Text) (offset w : ℕ) (t : Table) : Except Fault Table :=
  if tokensLen ≤ w then .error (.outside w)
  else
    let line := (t.lines w).getD (rangeName w)
    -- the length is taken before the header is appended
    let len := line.length
    let added := t.addFileBitv.testBit w
    let line := if added then line else line.take len ++ header fp
    let bitv := if added then t.addFileBitv else t.addFileBitv ||| 1 <<< w
    if 0 ≤ t.intervalV w then
      let text := intervalText (t.intervalV w).toNat offset
      .ok ⟨Function.update t.lines w (some (line.take len ++ text)),
        Function.update t.intervalV w (-1), bitv⟩
    else
      .ok ⟨Function.update t.lines w (some line), Function.update t.intervalV w offset, bitv⟩

/-- The loop of `main`: the table, what has been printed, and its length `c`. -/
structure Run where
  table : Table
  output : List Byte
  c : ℕ

/-- One byte of the input. -/
def byte (fp : Text) (s : Run) (b : Byte) : Except Fault Run :=
  match strchr b with
  | some w => (addRange fp s.c w s.table).map fun t => ⟨t, s.output, s.c⟩
  | none =>
    if b ≠ carriageReturn then .ok ⟨s.table, s.output ++ [b], s.c + 1⟩
    else .ok s

/-- The bytes of one line after the other. -/
def readInput (fp : Text) (input : List (List Byte)) (s : Run) : Except Fault Run :=
  input.foldlM (fun s line => line.foldlM (byte fp) s) s

/-- What `write_lines` prints. -/
def printLines (lines : ℕ → Option Text) : Text :=
  (List.range tokensLen).foldl (fun text i => text ++ ((lines i).map (· ++ ['\n'])).getD []) []

/-- `write_lines` over the present file, which is cut behind what has been printed, if that is
anything. -/
def writeLines (lines : ℕ → Option Text) (list : Text) : Text :=
  if 0 < (printLines lines).length then printLines lines else list

/-- `main`: the output and the list file. -/
def main (fp : Text) (input : List Byte) (list : Text) : Except Fault (List Byte × Text) := do
  let lines ← readLines 0 (fun _ => none) (CString.lines '\n' list)
  let s ← readInput fp (CString.lines newline input) ⟨⟨lines, fun _ => -1, 0⟩, [], 0⟩
  .ok (s.output, writeLines s.table.lines list)

/-! ## What it is to do -/

/-- A byte that is printed. -/
def visible (b : Byte) : Bool := decide (b ∉ tokens ∧ b ≠ carriageReturn)

/-- A mark of range `w`. -/
def isMark (w : ℕ) (b : Byte) : Bool := decide (tokens[w]? = some b)

/-- The intervals of range `w`: the offsets in the output of its first and second mark, of its third
and fourth, and so on. -/
def intervals (input : List Byte) (w : ℕ) : List (ℕ × ℕ) :=
  pairs (offsets (isMark w) visible input)

/-- A line without its newline. -/
def content (line : Text) : Text := if line.getLast? = some '\n' then line.dropLast else line

/-- The line of range `w` in a list file. -/
def oldLine (list : Text) (w : ℕ) : Option Text :=
  ((CString.lines '\n' list).find? fun line => rangeNumber line = some w).map content

/-- What is appended to the line of a range for its intervals. -/
def appended (fp : Text) (ivs : List (ℕ × ℕ)) : Text :=
  header fp ++ ivs.flatMap fun e => intervalText e.1 e.2

/-- The line of range `w` afterwards. -/
def newLine (fp : Text) (input : List Byte) (list : Text) (w : ℕ) : Option Text :=
  if positions (isMark w) input = [] then oldLine list w
  else some ((oldLine list w).getD (rangeName w) ++ appended fp (intervals input w))

/-- The lines, each with its newline, in the order of the ranges. -/
def fileOf (line : ℕ → Option Text) : Text :=
  (List.range tokensLen).flatMap fun w => ((line w).map (· ++ ['\n'])).getD []

/-- The list files that `read_lines` takes without an error or a warning. -/
structure WellFormed (list : Text) : Prop where
  notMem : nulChar ∉ list
  length_le : (CString.lines '\n' list).length ≤ tokensLen
  range : ∀ line ∈ CString.lines '\n' list, line.head? = some '\n' ∨ (rangeNumber line).isSome
  distinct : ((CString.lines '\n' list).filterMap rangeNumber).Nodup

/-- What the program is to do: no access leaves the table, the output is the input without marks and
carriage returns, every range has its line with the intervals of its marks, and the slice of the
output for two marks is what is visible between them. -/
structure Parses (fp : Text) (input : List Byte) (list : Text) : Prop where
  result : main fp input list = .ok (input.filter visible,
    if ∀ w < tokensLen, newLine fp input list w = none then list
    else fileOf (newLine fp input list))
  slice : ∀ w < tokensLen, ∀ k p q, (positions (isMark w) input)[2 * k]? = some p →
    (positions (isMark w) input)[2 * k + 1]? = some q →
    ∃ a b, (intervals input w)[k]? = some (a, b) ∧
      (input.filter visible).slice a b = (input.slice p q).filter visible

/-- Every range line ends in a newline. -/
def Terminated (list : Text) : Prop :=
  ∀ line ∈ CString.lines '\n' list, (rangeNumber line).isSome → line.getLast? = some '\n'

/-! ## One mark -/

/-- The line of range `w`, once `old`, behind marks at the offsets `os`. -/
def lineOf (fp : Text) (w : ℕ) (old : Option Text) (os : List ℕ) : Option Text :=
  if os = [] then old else some (old.getD (rangeName w) ++ appended fp (pairs os))

/-- What `interval_v` holds behind them. -/
def openAt (os : List ℕ) : ℤ :=
  match unclosed os with
  | none => -1
  | some o => o

variable {fp : Text} {w : ℕ} {old : Option Text} {os : List ℕ} {t : Table}

theorem lineOf_eq_none_iff : lineOf fp w old os = none ↔ os = [] ∧ old = none := by
  unfold lineOf
  split
  · rename_i hnil
    exact (and_iff_right hnil).symm
  · rename_i hne
    exact iff_of_false (Option.some_ne_none _) fun h => hne h.1

theorem lineOf_append_of_none (h : unclosed os = none) (hne : os ≠ []) (x : ℕ) :
    lineOf fp w old (os ++ [x]) = lineOf fp w old os := by
  rw [lineOf, lineOf, if_neg hne, if_neg (by simp), (pairs_append_of_none h).1]

theorem lineOf_append_of_some {o : ℕ} (h : unclosed os = some o) (hne : os ≠ []) (x : ℕ) :
    lineOf fp w old (os ++ [x]) = (lineOf fp w old os).map (· ++ intervalText o x) := by
  rw [lineOf, lineOf, if_neg hne, if_neg (by simp), (pairs_append_of_some h).1, appended, appended,
    List.flatMap_append, Option.map_some]
  simp [List.append_assoc]

/-- **A mark makes of the line what its intervals say.** -/
theorem addRange_eq (hw : w < tokensLen) (hline : t.lines w = lineOf fp w old os)
    (hopen : t.intervalV w = openAt os) (hbit : t.addFileBitv.testBit w = decide (os ≠ []))
    (x : ℕ) :
    ∃ bitv, (∀ v, bitv.testBit v = (t.addFileBitv.testBit v || decide (v = w))) ∧
      addRange fp x w t = .ok ⟨Function.update t.lines w (lineOf fp w old (os ++ [x])),
        Function.update t.intervalV w (openAt (os ++ [x])), bitv⟩ := by
  by_cases hnil : os = []
  · -- the first mark appends the header and opens
    subst hnil
    have hbit' : t.addFileBitv.testBit w = false := hbit
    refine ⟨t.addFileBitv ||| 1 <<< w, fun v => ?_, ?_⟩
    · rw [Nat.testBit_or, Nat.one_shiftLeft, Nat.testBit_two_pow]
      simp only [eq_comm]
    · have hneg : ¬ 0 ≤ t.intervalV w := by
        rw [hopen]
        decide
      have hline' : lineOf fp w old ([] ++ [x]) =
          some (((t.lines w).getD (rangeName w)).take ((t.lines w).getD (rangeName w)).length ++
            header fp) := by
        rw [hline, List.take_length]
        simp [lineOf, appended, pairs]
      simp only [addRange, if_neg (Nat.not_le.2 hw), hbit', Bool.false_eq_true, if_false,
        if_neg hneg,
        hline']
      rfl
  · have hbit' : t.addFileBitv.testBit w = true := by rw [hbit, decide_eq_true hnil]
    refine ⟨t.addFileBitv, fun v => ?_, ?_⟩
    · by_cases hv : v = w
      · rw [hv, hbit', decide_eq_true rfl, Bool.true_or]
      · rw [decide_eq_false hv, Bool.or_false]
    · obtain ⟨line, hsome⟩ : ∃ line, lineOf fp w old os = some line := ⟨_, if_neg hnil⟩
      cases hu : unclosed os with
      | none =>
          have hneg : ¬ 0 ≤ t.intervalV w := by
            rw [hopen, openAt, hu]
            decide
          simp only [addRange, if_neg (Nat.not_le.2 hw), hbit', if_true, if_neg hneg, hline,
            lineOf_append_of_none hu hnil, hsome, Option.getD_some, openAt,
            (pairs_append_of_none hu).2]
      | some o =>
          have ho : t.intervalV w = o := by
            rw [hopen, openAt, hu]
          have hpos : (0 : ℤ) ≤ o := Int.natCast_nonneg o
          simp only [addRange, if_neg (Nat.not_le.2 hw), hbit', if_true, if_pos hpos, hline,
            lineOf_append_of_some hu hnil, hsome, Option.getD_some, openAt,
            (pairs_append_of_some hu).2, ho, Int.toNat_natCast, List.take_length, Option.map_some]

/-! ## One byte -/

theorem nodup_tokens : tokens.Nodup := by decide

theorem strchr_eq_some {b : Byte} (h : b ∈ tokens) : ∃ w < tokensLen, strchr b = some w ∧
    ∀ v, isMark v b = decide (v = w) := by
  obtain ⟨w, hw, rfl⟩ := List.mem_iff_getElem.1 h
  have hget : tokens[w]? = some tokens[w] := List.getElem?_eq_getElem hw
  refine ⟨w, hw, ?_, fun v => ?_⟩
  · rw [strchr, List.idxOf?_eq_some_iff]
    refine ⟨by rw [List.length_append]; omega, List.getElem_append_left hw, fun j hj => ?_⟩
    rw [List.getElem_append_left (hj.trans hw)]
    intro heq
    exact absurd ((nodup_tokens.getElem_inj_iff).1 heq) hj.ne
  · rw [isMark, decide_eq_decide]
    constructor
    · intro hv
      obtain ⟨hv', heq⟩ := List.getElem?_eq_some_iff.1 hv
      exact (nodup_tokens.getElem_inj_iff).1 heq
    · rintro rfl
      exact hget

theorem strchr_eq_none {b : Byte} (h : b ∉ tokens) (hnul : b ≠ nul) : strchr b = none ∧
    ∀ v, isMark v b = false := by
  refine ⟨by simp [strchr, h, hnul], fun v => ?_⟩
  rw [isMark, decide_eq_false_iff_not]
  intro hv
  exact h (List.mem_of_getElem? hv)

/-- What the loop has made of the bytes `pre`; `stored` are the lines that have been read. -/
structure After (fp : Text) (stored : ℕ → Option Text) (pre : List Byte) (s : Run) : Prop where
  output : s.output = pre.filter visible
  c : s.c = (pre.filter visible).length
  lines : ∀ w, s.table.lines w = lineOf fp w (stored w) (offsets (isMark w) visible pre)
  intervalV : ∀ w, s.table.intervalV w = openAt (offsets (isMark w) visible pre)
  addFileBitv : ∀ w, s.table.addFileBitv.testBit w =
    decide (offsets (isMark w) visible pre ≠ [])

variable {stored : ℕ → Option Text} {pre : List Byte} {s : Run} {b : Byte}

/-- A byte that is no mark leaves the table alone. -/
theorem After.unmarked (h : After fp stored pre s) (hmark : ∀ v, isMark v b = false) {s' : Run}
    (htable : s'.table = s.table) (houtput : s'.output = (pre ++ [b]).filter visible)
    (hc : s'.c = ((pre ++ [b]).filter visible).length) : After fp stored (pre ++ [b]) s' := by
  have hsame : ∀ v, offsets (isMark v) visible (pre ++ [b]) = offsets (isMark v) visible pre := by
    intro v
    rw [offsets_append, hmark v, if_neg Bool.false_ne_true, List.append_nil]
  refine ⟨houtput, hc, fun v => ?_, fun v => ?_, fun v => ?_⟩
  · rw [htable, hsame, h.lines]
  · rw [htable, hsame, h.intervalV]
  · rw [htable, hsame, h.addFileBitv]

/-- A mark of range `w` changes what the table holds of that range. -/
theorem After.marked (h : After fp stored pre s) (hmark : ∀ v, isMark v b = decide (v = w))
    (hvisible : visible b = false) {bitv : ℕ}
    (hbitv : ∀ v, bitv.testBit v = (s.table.addFileBitv.testBit v || decide (v = w))) :
    After fp stored (pre ++ [b])
      ⟨⟨Function.update s.table.lines w
          (lineOf fp w (stored w) (offsets (isMark w) visible pre ++ [s.c])),
        Function.update s.table.intervalV w (openAt (offsets (isMark w) visible pre ++ [s.c])),
          bitv⟩,
        s.output, s.c⟩ := by
  have hfilter : (pre ++ [b]).filter visible = pre.filter visible := by simp [hvisible]
  have hself : offsets (isMark w) visible (pre ++ [b]) =
      offsets (isMark w) visible pre ++ [s.c] := by
    rw [offsets_append, hmark w, h.c, if_pos (decide_eq_true rfl)]
  have hother : ∀ v, v ≠ w →
      offsets (isMark v) visible (pre ++ [b]) = offsets (isMark v) visible pre := by
    intro v hv
    rw [offsets_append, hmark v, decide_eq_false hv, if_neg Bool.false_ne_true, List.append_nil]
  constructor
  · rw [hfilter, h.output]
  · rw [hfilter, h.c]
  · intro v
    by_cases hv : v = w
    · subst hv
      rw [hself]
      exact Function.update_self _ _ _
    · rw [hother v hv, ← h.lines v]
      exact Function.update_of_ne hv _ _
  · intro v
    by_cases hv : v = w
    · subst hv
      rw [hself]
      exact Function.update_self _ _ _
    · rw [hother v hv, ← h.intervalV v]
      exact Function.update_of_ne hv _ _
  · intro v
    by_cases hv : v = w
    · subst hv
      rw [hself, hbitv]
      simp
    · rw [hother v hv, hbitv, decide_eq_false hv, Bool.or_false, h.addFileBitv]

/-- **One byte keeps it.** -/
theorem After.byte (h : After fp stored pre s) (hnul : b ≠ nul) :
    ∃ s', Bo.byte fp s b = .ok s' ∧ After fp stored (pre ++ [b]) s' := by
  by_cases hmem : b ∈ tokens
  · obtain ⟨w, hw, hstrchr, hmark⟩ := strchr_eq_some hmem
    have hvisible : visible b = false := by simp [visible, hmem]
    obtain ⟨bitv, hbitv, hadd⟩ :=
      addRange_eq hw (h.lines w) (h.intervalV w) (h.addFileBitv w) s.c
    refine ⟨_, ?_, h.marked hmark hvisible hbitv⟩
    simp only [Bo.byte, hstrchr, hadd]
    rfl
  · obtain ⟨hstrchr, hmark⟩ := strchr_eq_none hmem hnul
    by_cases hcr : b = carriageReturn
    · have hvisible : visible b = false := by simp [visible, hcr]
      have hfilter : (pre ++ [b]).filter visible = pre.filter visible := by simp [hvisible]
      refine ⟨s, ?_, h.unmarked hmark rfl (by rw [hfilter, h.output]) (by rw [hfilter, h.c])⟩
      rw [Bo.byte, hstrchr]
      exact if_neg (not_not.2 hcr)
    · have hvisible : visible b = true := decide_eq_true ⟨hmem, hcr⟩
      have hfilter : (pre ++ [b]).filter visible = pre.filter visible ++ [b] := by simp [hvisible]
      refine ⟨⟨s.table, s.output ++ [b], s.c + 1⟩, ?_, h.unmarked hmark rfl ?_ ?_⟩
      · rw [Bo.byte, hstrchr]
        exact if_pos hcr
      · rw [hfilter, h.output]
      · rw [hfilter, h.c, List.length_append, List.length_singleton]

/-- A NUL is taken for the mark of a range behind the last. -/
theorem byte_nul : Bo.byte fp s nul = .error (.outside tokensLen) := rfl

/-- The bytes of a line, as long as there is no NUL. -/
theorem After.foldlM (h : After fp stored pre s) (line : List Byte) :
    (nul ∉ line → ∃ s', line.foldlM (Bo.byte fp) s = .ok s' ∧ After fp stored (pre ++ line) s') ∧
      (nul ∈ line → line.foldlM (Bo.byte fp) s = .error (.outside tokensLen)) := by
  induction line generalizing pre s with
  | nil =>
      refine ⟨fun _ => ⟨s, rfl, by rwa [List.append_nil]⟩, fun hmem => ?_⟩
      cases hmem
  | cons b line ih =>
      rw [List.foldlM_cons]
      by_cases hb : b = nul
      · rw [hb, byte_nul]
        exact ⟨fun hno => absurd List.mem_cons_self hno, fun _ => rfl⟩
      · obtain ⟨s', hbyte, hafter⟩ := h.byte hb
        obtain ⟨hok, hfault⟩ := ih hafter
        rw [hbyte, List.append_cons]
        refine ⟨fun hno => hok fun hmem => hno (List.mem_cons_of_mem b hmem), fun hmem => ?_⟩
        exact hfault ((List.mem_cons.1 hmem).resolve_left fun heq => hb heq.symm)

/-- **The whole input.** -/
theorem After.readInput (h : After fp stored pre s) (chunks : List (List Byte)) :
    (nul ∉ chunks.flatten →
      ∃ s', Bo.readInput fp chunks s = .ok s' ∧ After fp stored (pre ++ chunks.flatten) s') ∧
      (nul ∈ chunks.flatten → Bo.readInput fp chunks s = .error (.outside tokensLen)) := by
  induction chunks generalizing pre s with
  | nil =>
      refine ⟨fun _ => ⟨s, rfl, by rwa [List.flatten_nil, List.append_nil]⟩, fun hmem => ?_⟩
      cases hmem
  | cons line chunks ih =>
      rw [Bo.readInput, List.foldlM_cons, List.flatten_cons, List.mem_append]
      obtain ⟨hok, hfault⟩ := h.foldlM line
      by_cases hline : nul ∈ line
      · rw [hfault hline]
        exact ⟨fun hno => absurd (Or.inl hline) hno, fun _ => rfl⟩
      · obtain ⟨s', hfold, hafter⟩ := hok hline
        obtain ⟨hok', hfault'⟩ := ih hafter
        rw [hfold, ← List.append_assoc]
        refine ⟨fun hno => hok' fun hmem => hno (Or.inr hmem), fun hmem => ?_⟩
        exact hfault' (hmem.resolve_left hline)

theorem after_init (fp : Text) (stored : ℕ → Option Text) :
    After fp stored [] ⟨⟨stored, fun _ => -1, 0⟩, [], 0⟩ where
  output := rfl
  c := rfl
  lines _ := rfl
  intervalV _ := rfl
  addFileBitv w := Nat.zero_testBit w

/-! ## The list file -/

/-- A line as `read_lines` keeps it. -/
def storedLine (list : Text) (w : ℕ) : Option Text :=
  ((CString.lines '\n' list).find? fun line => rangeNumber line = some w).map List.dropLast

theorem rangeNumber_blank {line : Text} (h : line.head? = some '\n') : rangeNumber line = none := by
  cases line with
  | nil => rfl
  | cons c line =>
      cases h
      rw [rangeNumber, if_neg]
      rintro ⟨hw, -⟩
      cases hw

theorem rangeNumber_lt {line : Text} (h : rangeNumber line = some w) : w < tokensLen := by
  unfold rangeNumber at h
  split at h
  · simp only at h
    split at h
    · cases h
      omega
    · cases h
  · cases h

theorem cstr_of_notMem {line : Text} (h : nulChar ∉ line) : cstr nulChar line = line := by
  refine List.takeWhile_eq_self_iff.2 fun c hc => decide_eq_true ?_
  rintro rfl
  exact h hc

/-- **`read_lines` keeps each range line without its last byte.** -/
theorem readLines_eq {ls : List Text} {i : ℕ} {lines : ℕ → Option Text}
    (hnul : ∀ line ∈ ls, nulChar ∉ line) (hlen : i + ls.length ≤ tokensLen)
    (hrange : ∀ line ∈ ls, line.head? = some '\n' ∨ (rangeNumber line).isSome)
    (hdistinct : (ls.filterMap rangeNumber).Nodup)
    (hfree : ∀ line ∈ ls, ∀ w, rangeNumber line = some w → lines w = none) :
    ∃ lines', readLines i lines ls = .ok lines' ∧ ∀ w, lines' w =
      (((ls.find? fun line => rangeNumber line = some w).map List.dropLast).or (lines w)) := by
  induction ls generalizing i lines with
  | nil => exact ⟨lines, rfl, fun w => rfl⟩
  | cons line rest ih =>
      rw [List.forall_mem_cons] at hnul hrange hfree
      rw [List.length_cons] at hlen
      have hi : ¬ tokensLen ≤ i := by omega
      rw [readLines, if_neg hi]
      by_cases hblank : line.head? = some '\n'
      · have hnone := rangeNumber_blank hblank
        rw [List.filterMap_cons_none hnone] at hdistinct
        rw [if_pos hblank]
        simp only [List.find?_cons, hnone, reduceCtorEq, decide_false]
        exact ih hnul.2 (by omega) hrange.2 hdistinct hfree.2
      · obtain ⟨j, hj⟩ := Option.isSome_iff_exists.1 (hrange.1.resolve_left hblank)
        rw [List.filterMap_cons_some hj, List.nodup_cons] at hdistinct
        have hfree' : ∀ l ∈ rest, ∀ w, rangeNumber l = some w →
            Function.update lines j (some line.dropLast) w = none := by
          intro l hl w hw
          have hne : w ≠ j := by
            rintro rfl
            exact hdistinct.1 (List.mem_filterMap.2 ⟨l, hl, hw⟩)
          rw [Function.update_of_ne hne]
          exact hfree.2 l hl w hw
        obtain ⟨lines', hread, hlines⟩ :=
          ih (i := i + 1) hnul.2 (by omega) hrange.2 hdistinct.2 hfree'
        refine ⟨lines', ?_, fun w => ?_⟩
        · rw [if_neg hblank]
          simp only [cstr_of_notMem hnul.1, hj, hfree.1 j hj, Option.isSome_none,
            Bool.false_eq_true,
            if_false]
          exact hread
        · rw [hlines w, List.find?_cons]
          by_cases hw : w = j
          · subst hw
            have hnone : rest.find? (fun l => rangeNumber l = some w) = none := by
              rw [List.find?_eq_none]
              intro l hl hnum
              exact hdistinct.1 (List.mem_filterMap.2 ⟨l, hl, of_decide_eq_true hnum⟩)
            simp [hj, hnone]
          · have hne : rangeNumber line ≠ some w := by
              rw [hj]
              intro heq
              exact hw (Option.some.inj heq).symm
            rw [Function.update_of_ne hw, decide_eq_false hne]

theorem readLines_of_wellFormed {list : Text} (h : WellFormed list) :
    readLines 0 (fun _ => none) (CString.lines '\n' list) = .ok (storedLine list) := by
  have hnul : ∀ line ∈ CString.lines '\n' list, nulChar ∉ line := by
    intro line hline hmem
    apply h.notMem
    rw [← lines_flatten '\n' list]
    exact List.mem_flatten.2 ⟨line, hline, hmem⟩
  obtain ⟨lines', hread, hlines⟩ :=
    readLines_eq (i := 0) hnul (by rw [Nat.zero_add]; exact h.length_le)
    h.range h.distinct fun _ _ _ _ => rfl
  have heq : lines' = storedLine list := by
    funext w
    rw [hlines w, Option.or_none]
    rfl
  rw [hread, heq]

/-- The file consists of the lines, if there are any. -/
theorem writeLines_eq (lines : ℕ → Option Text) (list : Text) : writeLines lines list =
    if ∀ w < tokensLen, lines w = none then list else fileOf lines := by
  have hprint : printLines lines = fileOf lines := List.flatMap_eq_foldl.symm
  have hempty : (printLines lines).length = 0 ↔ ∀ w < tokensLen, lines w = none := by
    rw [hprint, List.length_eq_zero_iff, fileOf, List.flatMap_eq_nil_iff]
    refine forall_congr' fun w => imp_congr List.mem_range ?_
    cases lines w with
    | none => simp
    | some l => simp
  unfold writeLines
  by_cases hnone : ∀ w < tokensLen, lines w = none
  · rw [if_pos hnone, if_neg (by rw [hempty.2 hnone]; exact Nat.lt_irrefl 0)]
  · rw [if_neg hnone, if_pos (Nat.pos_of_ne_zero fun hzero => hnone (hempty.1 hzero)), hprint]

/-! ## The program -/

variable {input : List Byte} {list : Text}

theorem newLine_eq (fp : Text) (input : List Byte) (list : Text) (w : ℕ) : newLine fp input list w =
    lineOf fp w (oldLine list w) (offsets (isMark w) visible input) := by
  simp only [newLine, lineOf, offsets, List.map_eq_nil_iff]
  rfl

theorem main_eq (h : WellFormed list) (hnul : nul ∉ input) : main fp input list =
    .ok (input.filter visible, writeLines (fun w =>
      lineOf fp w (storedLine list w) (offsets (isMark w) visible input)) list) := by
  have hread := (after_init fp (storedLine list)).readInput (CString.lines newline input)
  rw [lines_flatten, List.nil_append] at hread
  obtain ⟨s, hs, hafter⟩ := hread.1 hnul
  have hlines : s.table.lines = fun w =>
      lineOf fp w (storedLine list w) (offsets (isMark w) visible input) := funext hafter.lines
  rw [main, readLines_of_wellFormed h]
  show (do let s ← readInput fp _ _; _) = _
  rw [hs, ← hlines, ← hafter.output]
  rfl

/-- With a NUL in the input the program reads behind its table. -/
theorem main_nul (h : WellFormed list) (hnul : nul ∈ input) :
    main fp input list = .error (.outside tokensLen) := by
  have hread := (after_init fp (storedLine list)).readInput (CString.lines newline input)
  rw [lines_flatten] at hread
  rw [main, readLines_of_wellFormed h]
  show (do let s ← readInput fp _ _; _) = _
  rw [hread.2 hnul]
  rfl

/-- The slice of the output for an interval. -/
theorem slice_interval {k p q : ℕ} (hp : (positions (isMark w) input)[2 * k]? = some p)
    (hq : (positions (isMark w) input)[2 * k + 1]? = some q) :
    ∃ a b, (intervals input w)[k]? = some (a, b) ∧
      (input.filter visible).slice a b = (input.slice p q).filter visible := by
  have hle : p ≤ q := by
    obtain ⟨hi, rfl⟩ := List.getElem?_eq_some_iff.1 hp
    obtain ⟨hj, rfl⟩ := List.getElem?_eq_some_iff.1 hq
    exact (List.pairwise_iff_getElem.1 pairwise_positions _ _ hi hj (Nat.lt_succ_self _)).le
  refine ⟨offset visible input p, offset visible input q, ?_, slice_offset hle⟩
  rw [intervals, getElem?_pairs, offsets, List.getElem?_map, List.getElem?_map, hp, hq]
  rfl

/-- A line that ends in its newline is kept. -/
theorem storedLine_eq (hend : Terminated list) : storedLine list = oldLine list := by
  funext w
  unfold storedLine oldLine
  cases hfind : (CString.lines '\n' list).find? fun line => rangeNumber line = some w with
  | none => rfl
  | some line =>
      have hnum : rangeNumber line = some w := by simpa using List.find?_some hfind
      rw [Option.map_some, Option.map_some, content,
        if_pos (hend line (List.mem_of_find?_eq_some hfind) (by rw [hnum]; rfl))]

/-- Among lines of distinct ranges the search finds the line of a range. -/
theorem find?_of_distinct {ls : List Text} {line : Text} {j : ℕ}
    (hdistinct : (ls.filterMap rangeNumber).Nodup) (hline : line ∈ ls)
    (hj : rangeNumber line = some j) :
    (ls.find? fun line => rangeNumber line = some j) = some line := by
  induction ls with
  | nil => cases hline
  | cons l ls ih =>
      by_cases hl : rangeNumber l = some j
      · rw [List.filterMap_cons_some hl, List.nodup_cons] at hdistinct
        rcases List.mem_cons.1 hline with rfl | hline
        · rw [List.find?_cons, decide_eq_true hl]
        · exact absurd (List.mem_filterMap.2 ⟨line, hline, hj⟩) hdistinct.1
      · have hne : line ≠ l := by
          rintro rfl
          exact hl hj
        rw [List.find?_cons, decide_eq_false hl]
        exact ih (hdistinct.sublist ((List.sublist_cons_self l ls).filterMap _))
          ((List.mem_cons.1 hline).resolve_left hne)

/-- Another one has lost its last byte, and the file with it. -/
theorem length_fileOf_lt (fp : Text) (h : WellFormed list) (hend : ¬ Terminated list)
    (os : ℕ → List ℕ) : (fileOf fun w => lineOf fp w (storedLine list w) (os w)).length <
      (fileOf fun w => lineOf fp w (oldLine list w) (os w)).length := by
  unfold Terminated at hend
  push Not at hend
  obtain ⟨line, hline, hsome, hlast⟩ := hend
  obtain ⟨j, hj⟩ := Option.isSome_iff_exists.1 hsome
  have hlonger : ∀ l : Text, l.dropLast.length ≤ (content l).length := by
    intro l
    unfold content
    split
    · exact le_rfl
    · rw [List.length_dropLast]
      omega
  rw [fileOf, fileOf, List.length_flatMap, List.length_flatMap]
  refine List.sum_lt_sum _ _ (fun w _ => ?_) ⟨j, List.mem_range.2 (rangeNumber_lt hj), ?_⟩
  · unfold storedLine oldLine lineOf
    cases (CString.lines '\n' list).find? fun line => rangeNumber line = some w with
    | none => exact le_rfl
    | some l =>
        have := hlonger l
        split
        · simpa using this
        · simpa using this
  · have hstored : storedLine list j = some line.dropLast := by
      rw [storedLine, find?_of_distinct h.distinct hline hj, Option.map_some]
    have hold : oldLine list j = some line := by
      rw [oldLine, find?_of_distinct h.distinct hline hj, Option.map_some, content, if_neg hlast]
    have hne : line ≠ [] := by
      rintro rfl
      cases hj
    have hpos := List.length_pos_iff.2 hne
    simp only [lineOf, hstored, hold]
    split
    · simp
      omega
    · simp
      omega

/-- **The program does what it is to do iff the input has no NUL and every range line of the list
file ends in a newline.** -/
theorem parses_iff (fp : Text) (input : List Byte) (h : WellFormed list) :
    Parses fp input list ↔ nul ∉ input ∧ Terminated list := by
  have hslices : ∀ w < tokensLen, ∀ k p q, (positions (isMark w) input)[2 * k]? = some p →
      (positions (isMark w) input)[2 * k + 1]? = some q →
      ∃ a b, (intervals input w)[k]? = some (a, b) ∧
        (input.filter visible).slice a b = (input.slice p q).filter visible :=
    fun w _ k p q => slice_interval
  have hnew : newLine fp input list = fun w =>
      lineOf fp w (oldLine list w) (offsets (isMark w) visible input) :=
    funext (newLine_eq fp input list)
  constructor
  · intro hparses
    have hresult := hparses.result
    have hnul : nul ∉ input := by
      intro hmem
      rw [main_nul h hmem] at hresult
      cases hresult
    refine ⟨hnul, ?_⟩
    by_contra hend
    have hlt := length_fileOf_lt fp h hend fun w => offsets (isMark w) visible input
    rw [main_eq h hnul, writeLines_eq, hnew, Except.ok.injEq, Prod.mk.injEq] at hresult
    -- a range line makes both files consist of lines
    obtain ⟨line, hline, hsome, -⟩ : ∃ line ∈ CString.lines '\n' list, (rangeNumber line).isSome ∧
        line.getLast? ≠ some '\n' := by
      simpa [Terminated] using hend
    obtain ⟨j, hj⟩ := Option.isSome_iff_exists.1 hsome
    have hfind := find?_of_distinct h.distinct hline hj
    have hstored : ¬ ∀ w < tokensLen,
        lineOf fp w (storedLine list w) (offsets (isMark w) visible input) = none := by
      intro hnone
      have hw := (lineOf_eq_none_iff.1 (hnone j (rangeNumber_lt hj))).2
      rw [storedLine, hfind] at hw
      cases hw
    have hold : ¬ ∀ w < tokensLen,
        lineOf fp w (oldLine list w) (offsets (isMark w) visible input) = none := by
      intro hnone
      have hw := (lineOf_eq_none_iff.1 (hnone j (rangeNumber_lt hj))).2
      rw [oldLine, hfind] at hw
      cases hw
    rw [if_neg hstored, if_neg hold] at hresult
    rw [hresult.2] at hlt
    exact Nat.lt_irrefl _ hlt
  · rintro ⟨hnul, hend⟩
    refine ⟨?_, hslices⟩
    rw [main_eq h hnul, writeLines_eq, storedLine_eq hend, hnew]

/-- Two ranges that nest, a carriage return, a line that is there and one that is new. -/
theorem parses_nested : Parses ['f'] [0x1, 65, 0x2, 66, 0x2, 13, 0x1, 10]
    ['R', 'a', 'n', 'g', 'e', '0', '2', ' ', 'x', '\n', '\n'] :=
  (parses_iff _ _ ⟨by decide, by decide, by decide, by decide⟩).2 ⟨by decide, by
    unfold Terminated; decide⟩

/-- A NUL in the input is taken for the mark of range 29. -/
theorem main_outside : WellFormed [] ∧ main ['f'] [65, 0] [] = .error (.outside 28) ∧
    ¬ Parses ['f'] [65, 0] [] := by
  have hmain : main ['f'] [65, 0] [] = .error (.outside 28) := rfl
  refine ⟨⟨by decide, by decide, by decide, by decide⟩, hmain, fun hparses => ?_⟩
  have hresult := hparses.result
  rw [hmain] at hresult
  cases hresult

/-- The last line of the list file has no newline and loses its last byte. -/
example : (main ['f'] [] ['R', 'a', 'n', 'g', 'e', '0', '1', ' ', 'x']).toOption =
    some ([], ['R', 'a', 'n', 'g', 'e', '0', '1', ' ', '\n']) := by decide

end Bo

end Yacet
