import Yacet.Options

/-!
# The oracles of a line (`options.h`, `pull_string` of `common.h`)

* `getAnOracle` — `get_an_oracle` on the text at `*str`: the oracle and the text behind it.
* `behindName` — the text at `tp`: behind the copy of the line up to the length of the name.
* `getOracles` — `get_oracles`; `none` where a null or a freed string is copied.
* `Form` — a line of the documented form with its two oracles.
* `begins_iff` — what `getAnOracle` takes, as a grammar.
* `getOracles_iff` — **the result is as documented iff the line has the form without blanks in front
  of the name**, or the text at `tp` happens to begin with the two oracles that are due.
-/

namespace Yacet

open CText CString

/-- `ORACLE_LEN_MIN`. -/
def oracleLenMin : ℕ := 8

/-- `ORACLE_LEN_MAX`. -/
def oracleLenMax : ℕ := 255

/-- `DEFAULT_START_ORACLE` and `DEFAULT_END_ORACLE`. -/
def defaultOracles : Text × Text := ("[START ORACLE]".toList, "[END ORACLE]".toList)

/-! ## The parser -/

/-- The loop of `pull_string` behind the character `prev`. -/
def closing (prev : Char) : Text → Option (Text × Text)
  | [] => none
  | c :: s =>
    if c = '"' ∧ prev ≠ '\\' then some ([], s) else (closing c s).map fun r => (c :: r.1, r.2)

/-- `pull_string`: the text between the quotes and the text behind them. -/
def pullString : Text → Option (Text × Text)
  | '"' :: s => closing '"' s
  | _ => none

/-- The text in front of the first blank and the text behind that, by `strpbrk`. -/
def pullWord (t : Text) : Option (Text × Text) :=
  match t.dropWhile fun c => !isBlank c with
  | [] => none
  | _ :: rest => some (t.takeWhile fun c => !isBlank c, rest)

/-- `get_an_oracle`. -/
def getAnOracle (str : Text) : Option (Text × Text) :=
  let t := str.dropWhile isBlank
  ((pullString t).or (pullWord t)).filter fun r =>
    oracleLenMin ≤ r.1.length ∧ r.1.length ≤ oracleLenMax

/-- The buffer of the line behind `strtok`, which ends the name with a NUL. -/
def cutName (line : Text) : Text :=
  let s := cstr nulChar line
  let i := (s.takeWhile isBlank).length + ((strtok line).getD []).length
  if i < s.length then line.set i nulChar else line

/-- `target`. -/
def copied (line : Text) : Text :=
  let t := cutName line
  (if t.getLast? = some '\n' then t.dropLast ++ [' '] else t) ++ [' ', nulChar]

/-- The text at `tp`. -/
def behindName (line : Text) : Text :=
  cstr nulChar ((copied line).drop (((strtok line).getD []).length + 1))

/-- `get_oracles` on the content of the options file, if there is one.  Both failures of
`get_an_oracle` go on to `end` with `line` freed or null; there is no way to `default_oracles` from
them. -/
def getOracles (content : Option Text) (path : Text) : Option (Text × Text) :=
  match content.bind fun text => selectLine path (lines '\n' text) with
  | none => some defaultOracles
  | some line =>
    (getAnOracle (behindName line)).bind fun first =>
      (getAnOracle first.2).map fun second => (first.1, second.1)

/-! ## The documented form -/

/-- Behind `prev` each quote is escaped, and the text does not end in a backslash. -/
def Escaped : Char → Text → Prop
  | prev, [] => prev ≠ '\\'
  | prev, c :: s => (c = '"' → prev = '\\') ∧ Escaped c s

/-- The text `s` stands for the oracle `o`: as a word, or between quotes. -/
structure Denotes (s o : Text) : Prop where
  text : s = o ∧ (∀ c ∈ o.head?, c ≠ '"') ∧ (∀ c ∈ o, isBlank c = false) ∨
    s = '"' :: o ++ ['"'] ∧ Escaped '"' o
  long : oracleLenMin ≤ o.length
  short : o.length ≤ oracleLenMax

/-- `[blanks] NAME blanks ORACLE blanks ORACLE [blanks]`. -/
structure Form (line lead name a b : Text) : Prop where
  text : ∃ gap s gap' s' trail stop, line = lead ++ name ++ gap ++ s ++ gap' ++ s' ++ trail ++
    stop ∧
    Denotes s a ∧ Denotes s' b ∧ gap ≠ [] ∧ gap' ≠ [] ∧
    (∀ c ∈ lead ++ gap ++ gap' ++ trail, isBlank c = true) ∧ (stop = [] ∨ stop = ['\n']) ∧
    (∀ c ∈ lead ++ name ++ gap ++ s ++ gap' ++ s' ++ trail, c ≠ '\n' ∧ c ≠ nulChar)
  name_ne : name ≠ []
  name_word : ∀ c ∈ name, isBlank c = false

/-- The line has the form, with these oracles. -/
def Gives (line a b : Text) : Prop := ∃ lead name, Form line lead name a b

/-- The result is as documented. -/
def MeetsForm (content : Option Text) (path : Text) : Prop :=
  ∃ o, getOracles content path = some o ∧ o.1.length ≤ oracleLenMax ∧ o.2.length ≤ oracleLenMax ∧
    match content.bind fun text => selectLine path (lines '\n' text) with
    | none => o = defaultOracles
    | some line => (∀ a b, Gives line a b → o = (a, b)) ∧
        ((¬ ∃ a b, Gives line a b) → o = defaultOracles)

/-! ## What the parser takes -/

/-- The text begins with a quoted text. -/
def Opens (t : Text) : Prop := ∃ o rest, t = '"' :: o ++ '"' :: rest ∧ Escaped '"' o

/-- The text begins with an oracle, behind blanks: a quoted text, or a word up to a blank where no
quoted text begins. -/
structure Begins (w o rest : Text) : Prop where
  text : ∃ gap t, w = gap ++ t ∧ (∀ c ∈ gap, isBlank c = true) ∧
    (t = '"' :: o ++ '"' :: rest ∧ Escaped '"' o ∨
      ¬ Opens t ∧ o ≠ [] ∧ (∀ c ∈ o, isBlank c = false) ∧ ∃ c, isBlank c = true ∧
        t = o ++ c :: rest)
  long : oracleLenMin ≤ o.length
  short : o.length ≤ oracleLenMax

/-- The text begins with two oracles. -/
def Reads (w a b : Text) : Prop := ∃ rest rest', Begins w a rest ∧ Begins rest b rest'

variable {s t o w rest a b : Text} {c prev : Char}

theorem closing_iff : closing prev s = some (o, rest) ↔ s = o ++ '"' :: rest ∧ Escaped prev o := by
  induction s generalizing prev o with
  | nil => simp [closing]
  | cons c s ih =>
      rw [closing]
      by_cases hc : c = '"' ∧ prev ≠ '\\'
      · rw [if_pos hc, Option.some.injEq, Prod.mk.injEq]
        constructor
        · rintro ⟨rfl, rfl⟩
          exact ⟨by rw [hc.1]; rfl, hc.2⟩
        · rintro ⟨heq, hesc⟩
          cases o with
          | nil =>
              rw [List.nil_append, List.cons.injEq] at heq
              exact ⟨rfl, heq.2⟩
          | cons d o =>
              rw [List.cons_append, List.cons.injEq] at heq
              exact absurd (hesc.1 (heq.1.symm.trans hc.1)) hc.2
      · rw [if_neg hc, Option.map_eq_some_iff]
        constructor
        · rintro ⟨⟨o', rest'⟩, hrec, heq⟩
          rw [Prod.mk.injEq] at heq
          obtain ⟨rfl, rfl⟩ := heq
          obtain ⟨rfl, hesc⟩ := ih.1 hrec
          exact ⟨rfl, fun hq => not_not.1 fun hne => hc ⟨hq, hne⟩, hesc⟩
        · rintro ⟨heq, hesc⟩
          cases o with
          | nil =>
              rw [List.nil_append, List.cons.injEq] at heq
              exact absurd ⟨heq.1, hesc⟩ hc
          | cons d o =>
              rw [List.cons_append, List.cons.injEq] at heq
              obtain ⟨rfl, rfl⟩ := heq
              exact ⟨(o, rest), ih.2 ⟨rfl, hesc.2⟩, rfl⟩

theorem pullString_iff : pullString t = some (o, rest) ↔ t = '"' :: o ++ '"' :: rest ∧
    Escaped '"' o := by
  unfold pullString
  split
  · rename_i s
    rw [closing_iff, List.cons_append, List.cons.injEq, and_iff_right rfl]
  · rename_i hno
    refine iff_of_false (by simp) ?_
    rintro ⟨rfl, -⟩
    exact hno _ rfl

theorem pullString_none_iff : pullString t = none ↔ ¬ Opens t := by
  rw [Option.eq_none_iff_forall_not_mem]
  constructor
  · rintro h ⟨o, rest, hopen⟩
    exact h (o, rest) (pullString_iff.2 hopen)
  · rintro h ⟨o, rest⟩ hmem
    exact h ⟨o, rest, pullString_iff.1 hmem⟩

/-- The cut of a text at the first character of a kind. -/
theorem cut_at {p : Char → Bool} (ho : ∀ x ∈ o, p x = true) (hc : p c = false) :
    (o ++ c :: rest).takeWhile p = o ∧ (o ++ c :: rest).dropWhile p = c :: rest := by
  rw [List.takeWhile_append_of_pos ho, List.dropWhile_append_of_pos ho,
    List.takeWhile_cons_of_neg (by simp [hc]), List.dropWhile_cons_of_neg (by simp [hc]),
    List.append_nil]
  exact ⟨rfl, rfl⟩

theorem pullWord_iff : pullWord t = some (o, rest) ↔
    (∀ c ∈ o, isBlank c = false) ∧ ∃ c, isBlank c = true ∧ t = o ++ c :: rest := by
  constructor
  · intro h
    have hsplit := List.takeWhile_append_dropWhile (p := fun c => !isBlank c) (l := t)
    unfold pullWord at h
    split at h
    · cases h
    · rename_i c r hdrop
      rw [Option.some.injEq, Prod.mk.injEq] at h
      obtain ⟨rfl, rfl⟩ := h
      refine ⟨fun c hc => by simpa using List.mem_takeWhile_imp hc, c, ?_, by rw [← hdrop, hsplit]⟩
      have hne : t.dropWhile (fun c => !isBlank c) ≠ [] := by simp [hdrop]
      have hhead := List.head_dropWhile_not _ hne
      simpa only [hdrop, List.head_cons, Bool.not_eq_false'] using hhead
  · rintro ⟨ho, c, hc, rfl⟩
    obtain ⟨htake, hdrop⟩ := @cut_at o rest c (fun c => !isBlank c) (fun x hx => by simp [ho x hx])
      (by simp [hc])
    rw [pullWord, hdrop, htake]

/-- **What `get_an_oracle` takes.** -/
theorem begins_iff : getAnOracle w = some (o, rest) ↔ Begins w o rest := by
  have hword : ∀ t : Text, (∀ c ∈ t.head?, isBlank c = false) →
      ((pullString t).or (pullWord t) = some (o, rest) ↔
        t = '"' :: o ++ '"' :: rest ∧ Escaped '"' o ∨
          ¬ Opens t ∧ o ≠ [] ∧ (∀ c ∈ o, isBlank c = false) ∧
            ∃ c, isBlank c = true ∧ t = o ++ c :: rest) := by
    intro t hhead
    rw [Option.or_eq_some_iff, pullString_iff, pullString_none_iff, pullWord_iff]
    refine or_congr_right (and_congr_right fun _ => (and_iff_right_of_imp ?_).symm)
    rintro ⟨-, c, hc, rfl⟩ rfl
    rw [hhead c rfl] at hc
    cases hc
  have hfilter : getAnOracle w = some (o, rest) ↔
      (pullString (w.dropWhile isBlank)).or (pullWord (w.dropWhile isBlank)) = some (o, rest) ∧
        oracleLenMin ≤ o.length ∧ o.length ≤ oracleLenMax := by
    rw [getAnOracle, Option.filter_eq_some_iff, decide_eq_true_eq]
  have hdrop : ∀ c ∈ (w.dropWhile isBlank).head?, isBlank c = false := by
    intro c hc
    have hne : w.dropWhile isBlank ≠ [] := by
      intro hnil
      rw [hnil] at hc
      cases hc
    have hhead := List.head_dropWhile_not _ hne
    rw [List.head?_eq_some_head hne, Option.mem_some_iff] at hc
    rwa [hc] at hhead
  rw [hfilter, hword _ hdrop]
  constructor
  · rintro ⟨htext, hlong, hshort⟩
    refine ⟨⟨w.takeWhile isBlank, w.dropWhile isBlank, List.takeWhile_append_dropWhile.symm,
      fun c hc => List.mem_takeWhile_imp hc, htext⟩, hlong, hshort⟩
  · rintro ⟨⟨gap, t, rfl, hgap, htext⟩, hlong, hshort⟩
    have hhead : ∀ c ∈ t.head?, isBlank c = false := by
      rcases htext with ⟨rfl, -⟩ | ⟨-, hne, ho, c, -, rfl⟩
      · rintro c hc
        obtain rfl : '"' = c := Option.some.inj hc
        decide
      · cases o with
        | nil => exact absurd rfl hne
        | cons d o =>
            rintro c hc
            obtain rfl : d = c := Option.some.inj hc
            exact ho d List.mem_cons_self
    have hcut : (gap ++ t).dropWhile isBlank = t := by
      rw [List.dropWhile_append_of_pos hgap]
      cases t with
      | nil => rfl
      | cons d t => rw [List.dropWhile_cons_of_neg (by simp [hhead d rfl])]
    rw [hcut]
    exact ⟨htext, hlong, hshort⟩

/-! ## Two oracles -/

theorem reads_iff : (getAnOracle w).bind (fun first =>
      (getAnOracle first.2).map fun second => (first.1, second.1)) = some (a, b) ↔ Reads w a b := by
  rw [Option.bind_eq_some_iff]
  constructor
  · rintro ⟨⟨o, rest⟩, hfirst, hmap⟩
    obtain ⟨⟨o', rest'⟩, hsecond, heq⟩ := Option.map_eq_some_iff.1 hmap
    rw [Prod.mk.injEq] at heq
    obtain ⟨rfl, rfl⟩ := heq
    exact ⟨rest, rest', begins_iff.1 hfirst, begins_iff.1 hsecond⟩
  · rintro ⟨rest, rest', hfirst, hsecond⟩
    exact ⟨(a, rest), begins_iff.2 hfirst, by rw [begins_iff.2 hsecond]; rfl⟩

theorem Reads.unique {a' b' : Text} (h : Reads w a b) (h' : Reads w a' b') : a = a' ∧ b = b' := by
  have heq := (reads_iff.2 h).symm.trans (reads_iff.2 h')
  rw [Option.some.injEq, Prod.mk.injEq] at heq
  exact heq

theorem Reads.short (h : Reads w a b) : a.length ≤ oracleLenMax ∧ b.length ≤ oracleLenMax := by
  obtain ⟨rest, rest', hfirst, hsecond⟩ := h
  exact ⟨hfirst.short, hsecond.short⟩

/-- Blanks in front do not matter. -/
theorem reads_blanks {gap : Text} (hgap : ∀ c ∈ gap, isBlank c = true) :
    Reads (gap ++ w) a b ↔ Reads w a b := by
  have hskip : getAnOracle (gap ++ w) = getAnOracle w := by
    rw [getAnOracle, List.dropWhile_append_of_pos hgap]
    rfl
  rw [← reads_iff, ← reads_iff, hskip]

/-- An oracle with a blank behind it is taken; a word takes the blank with it. -/
theorem Denotes.begins {gap : Text} (h : Denotes s o) (hgap : ∀ c ∈ gap, isBlank c = true)
    (hc : isBlank c = true) (rest : Text) :
    ∃ skip, (∀ c ∈ skip, isBlank c = true) ∧ Begins (gap ++ (s ++ c :: rest)) o (skip ++ rest) := by
  have hlong := h.long
  rcases h.text with ⟨rfl, hhead, hword⟩ | ⟨rfl, hesc⟩
  · refine ⟨[], by simp, ⟨gap, s ++ c :: rest, rfl, hgap, Or.inr ⟨?_, ?_, hword, c, hc, rfl⟩⟩,
      hlong, h.short⟩
    · rintro ⟨u, v, heq, -⟩
      cases s with
      | nil => cases hlong
      | cons d s =>
          rw [List.cons_append, List.cons_append, List.cons.injEq] at heq
          exact hhead d rfl heq.1
    · rintro rfl
      cases hlong
  · refine ⟨[c], by simpa using hc, ⟨gap, '"' :: o ++ ['"'] ++ c :: rest, rfl, hgap,
      Or.inl ⟨by simp, hesc⟩⟩, hlong, h.short⟩

/-! ## Lines of the documented form -/

/-- The name of a line and the copy of the line with the name cut off by `strtok`. -/
theorem copied_eq {lead name tail stop : Text} {g : Char} (hlead : ∀ c ∈ lead, isBlank c = true)
    (hname : ∀ c ∈ name, isBlank c = false) (hne : name ≠ []) (hg : isBlank g = true)
    (hstop : stop = [] ∨ stop = ['\n'])
    (hclean : ∀ c ∈ lead ++ (name ++ g :: tail), c ≠ '\n' ∧ c ≠ nulChar) :
    strtok (lead ++ (name ++ g :: (tail ++ stop))) = some name ∧
      copied (lead ++ (name ++ g :: (tail ++ stop))) =
        lead ++ (name ++ nulChar :: (tail ++ (stop.map (fun _ => ' ') ++ [' ', nulChar]))) := by
  have hcstr : cstr nulChar (lead ++ (name ++ g :: (tail ++ stop))) =
      lead ++ (name ++ g :: (tail ++ stop)) := by
    refine List.takeWhile_eq_self_iff.2 fun c hc => decide_eq_true ?_
    have hline : lead ++ (name ++ g :: (tail ++ stop)) = lead ++ (name ++ g :: tail) ++ stop := by
      simp
    rw [hline] at hc
    rcases List.mem_append.1 hc with hc | hc
    · exact (hclean c hc).2
    · rcases hstop with rfl | rfl
      · cases hc
      · rw [List.mem_singleton.1 hc]
        decide
  have hfront : (lead ++ (name ++ g :: (tail ++ stop))).takeWhile isBlank = lead ∧
      (lead ++ (name ++ g :: (tail ++ stop))).dropWhile isBlank = name ++ g :: (tail ++ stop) := by
    cases name with
    | nil => exact absurd rfl hne
    | cons d name => exact cut_at hlead (hname d List.mem_cons_self)
  have htoken : strtok (lead ++ (name ++ g :: (tail ++ stop))) = some name := by
    obtain ⟨htake, -⟩ := @cut_at name (tail ++ stop) g (fun c => !isBlank c)
      (fun x hx => by simp [hname x hx]) (by simp [hg])
    rw [strtok, hcstr, hfront.2, if_neg (by simp), htake]
  refine ⟨htoken, ?_⟩
  have hcut : cutName (lead ++ (name ++ g :: (tail ++ stop))) =
      (lead ++ (name ++ nulChar :: tail)) ++ stop := by
    rw [cutName, hcstr, hfront.1, htoken, Option.getD_some,
      if_pos (by simp only [List.length_append, List.length_cons]; omega),
      List.set_append_right _ _ (by omega), Nat.add_sub_cancel_left,
      List.set_append_right _ _ (Nat.le_refl _), Nat.sub_self, List.set_cons_zero]
    simp only [List.append_assoc, List.cons_append]
  rw [copied, hcut]
  rcases hstop with rfl | rfl
  · -- the last character is one of the line
    have hlast : ¬ (lead ++ (name ++ nulChar :: tail)).getLast? = some '\n' := by
      intro heq
      have hmem := List.mem_of_mem_getLast? heq
      rcases List.mem_append.1 hmem with hmem | hmem
      · exact (hclean '\n' (List.mem_append_left _ hmem)).1 rfl
      · rcases List.mem_append.1 hmem with hmem | hmem
        · exact (hclean '\n' (by simp [hmem])).1 rfl
        · rcases List.mem_cons.1 hmem with hnul | hmem
          · exact absurd hnul (by decide)
          · exact (hclean '\n' (by simp [hmem])).1 rfl
    rw [List.append_nil, if_neg hlast]
    simp only [List.map_nil, List.nil_append, List.append_assoc, List.cons_append]
  · rw [List.getLast?_concat, if_pos rfl, List.dropLast_concat]
    simp only [List.map_cons, List.map_nil, List.append_assoc, List.cons_append, List.nil_append]

theorem cstr_cut {u : Text} (hu : ∀ c ∈ u, c ≠ nulChar) (v : Text) :
    cstr nulChar (u ++ nulChar :: v) = u := by
  rw [cstr, List.takeWhile_append_of_pos fun c hc => decide_eq_true (hu c hc),
    List.takeWhile_cons_of_neg (by simp), List.append_nil]

/-- The text at `tp`. -/
theorem behindName_eq {lead name tail stop : Text} {g : Char} (hlead : ∀ c ∈ lead, isBlank c = true)
    (hname : ∀ c ∈ name, isBlank c = false) (hne : name ≠ []) (hg : isBlank g = true)
    (hstop : stop = [] ∨ stop = ['\n'])
    (hclean : ∀ c ∈ lead ++ (name ++ g :: tail), c ≠ '\n' ∧ c ≠ nulChar) :
    behindName (lead ++ (name ++ g :: (tail ++ stop))) =
      if lead = [] then tail ++ (stop.map (fun _ => ' ') ++ [' '])
      else lead.drop (name.length + 1) ++ name.drop (name.length + 1 - lead.length) := by
  obtain ⟨htoken, hcopied⟩ := copied_eq hlead hname hne hg hstop hclean
  rw [behindName, htoken, hcopied, Option.getD_some]
  split
  · rename_i hnil
    subst hnil
    have hdrop : (name ++ nulChar :: (tail ++ (stop.map (fun _ => ' ') ++ [' ', nulChar]))).drop
        (name.length + 1) = (tail ++ (stop.map (fun _ => ' ') ++ [' '])) ++ nulChar :: [] := by
      rw [List.drop_append, List.drop_eq_nil_of_le (by omega), List.nil_append,
        Nat.add_sub_cancel_left, List.drop_one, List.tail_cons]
      simp only [List.append_assoc, List.cons_append, List.nil_append]
    rw [List.nil_append, hdrop, cstr_cut]
    intro c hc
    rcases List.mem_append.1 hc with hc | hc
    · exact (hclean c (by simp [hc])).2
    · have hblank : c = ' ' := by
        rcases hstop with rfl | rfl
        · simpa using hc
        · simpa using hc
      rw [hblank]
      decide
  · rename_i hsome
    have hlen : 0 < lead.length := List.length_pos_of_ne_nil hsome
    have hle : name.length + 1 - lead.length ≤ name.length := by omega
    rw [List.drop_append, List.drop_append_of_le_length hle, ← List.append_assoc, cstr_cut]
    intro c hc
    rcases List.mem_append.1 hc with hc | hc
    · exact (hclean c (List.mem_append_left _ (List.mem_of_mem_drop hc))).2
    · exact (hclean c (by simp [List.mem_of_mem_drop hc])).2

namespace Form

variable {line lead name : Text}

/-- A line of the form, with its parts. -/
theorem cut (h : Form line lead name a b) : ∃ g gap s g' gap' s' trail stop,
    line = lead ++ (name ++ g :: ((gap ++ s ++ g' :: (gap' ++ s' ++ trail)) ++ stop)) ∧
      Denotes s a ∧ Denotes s' b ∧ isBlank g = true ∧ isBlank g' = true ∧
      (∀ c ∈ lead, isBlank c = true) ∧ (∀ c ∈ gap, isBlank c = true) ∧
      (∀ c ∈ gap', isBlank c = true) ∧ (∀ c ∈ trail, isBlank c = true) ∧
      (stop = [] ∨ stop = ['\n']) ∧
      ∀ c ∈ lead ++ (name ++ g :: (gap ++ s ++ g' :: (gap' ++ s' ++ trail))),
        c ≠ '\n' ∧ c ≠ nulChar := by
  obtain ⟨gap, s, gap', s', trail, stop, rfl, hs, hs', hgap, hgap', hblank, hstop, hclean⟩ := h.text
  cases gap with
  | nil => exact absurd rfl hgap
  | cons g gap =>
      cases gap' with
      | nil => exact absurd rfl hgap'
      | cons g' gap' =>
          simp only [List.forall_mem_append, List.forall_mem_cons] at hblank
          refine ⟨g, gap, s, g', gap', s', trail, stop, ?_, hs, hs', hblank.1.1.2.1,
            hblank.1.2.1, hblank.1.1.1, hblank.1.1.2.2, hblank.1.2.2, hblank.2, hstop, ?_⟩
          · simp only [List.append_assoc, List.cons_append]
          · intro c hc
            apply hclean c
            simpa only [List.append_assoc, List.cons_append] using hc

theorem behind (h : Form line lead name a b) (hlead : lead ≠ []) :
    behindName line = lead.drop (name.length + 1) ++ name.drop (name.length + 1 - lead.length) := by
  obtain ⟨g, gap, s, g', gap', s', trail, stop, rfl, -, -, hg, -, hblank, -, -, -, hstop, hclean⟩ :=
    h.cut
  rw [behindName_eq hblank h.name_word h.name_ne hg hstop hclean, if_neg hlead]

/-- **Without blanks in front of the name both oracles are read.** -/
theorem reads (h : Form line [] name a b) : Reads (behindName line) a b := by
  obtain ⟨g, gap, s, g', gap', s', trail, stop, rfl, hs, hs', hg, hg', hblank, hgap, hgap', htrail,
    hstop, hclean⟩ := h.cut
  rw [behindName_eq hblank h.name_word h.name_ne hg hstop hclean, if_pos rfl]
  obtain ⟨skip, hskip, hfirst⟩ := hs.begins hgap hg'
    (gap' ++ s' ++ trail ++ (stop.map (fun _ => ' ') ++ [' ']))
  -- a blank stands behind the second oracle at any rate
  obtain ⟨c, end', hend, hc⟩ : ∃ c end', trail ++ (stop.map (fun _ => ' ') ++ [' ']) = c :: end' ∧
      isBlank c = true := by
    cases trail with
    | nil =>
        rcases hstop with rfl | rfl
        · exact ⟨' ', [], rfl, rfl⟩
        · exact ⟨' ', [' '], rfl, rfl⟩
    | cons c trail => exact ⟨c, _, rfl, htrail c List.mem_cons_self⟩
  have hgaps : ∀ c ∈ skip ++ gap', isBlank c = true := List.forall_mem_append.2 ⟨hskip, hgap'⟩
  obtain ⟨skip', -, hsecond⟩ := hs'.begins hgaps hc end'
  rw [← hend] at hsecond
  refine ⟨skip ++ (gap' ++ s' ++ trail ++ (stop.map (fun _ => ' ') ++ [' '])), skip' ++ end',
    ?_, ?_⟩
  · simpa only [List.append_assoc, List.cons_append] using hfirst
  · simpa only [List.append_assoc] using hsecond

/-- The blanks in front of the name, taken off. -/
theorem strip (h : Form line lead name a b) : Form (line.dropWhile isBlank) [] name a b := by
  obtain ⟨gap, s, gap', s', trail, stop, rfl, hs, hs', hgap, hgap', hblank, hstop, hclean⟩ := h.text
  have hdrop : (lead ++ name ++ gap ++ s ++ gap' ++ s' ++ trail ++ stop).dropWhile isBlank =
      [] ++ name ++ gap ++ s ++ gap' ++ s' ++ trail ++ stop := by
    simp only [List.forall_mem_append] at hblank
    have hword := h.name_word
    cases name with
    | nil => exact absurd rfl h.name_ne
    | cons d name =>
        simp only [List.append_assoc, List.cons_append, List.nil_append]
        rw [List.dropWhile_append_of_pos hblank.1.1.1,
          List.dropWhile_cons_of_neg (by simp [hword d List.mem_cons_self])]
  rw [hdrop]
  refine ⟨⟨gap, s, gap', s', trail, stop, rfl, hs, hs', hgap, hgap', fun c hc => hblank c ?_, hstop,
    fun c hc => hclean c ?_⟩, h.name_ne, h.name_word⟩
  · simp only [List.append_assoc, List.nil_append] at hc ⊢
    exact List.mem_append_right _ hc
  · simp only [List.append_assoc, List.nil_append] at hc ⊢
    exact List.mem_append_right _ hc

end Form

/-- A line gives one pair of oracles at most. -/
theorem Gives.unique {line a' b' : Text} (h : Gives line a b) (h' : Gives line a' b') :
    a = a' ∧ b = b' := by
  obtain ⟨lead, name, h⟩ := h
  obtain ⟨lead', name', h'⟩ := h'
  exact h.strip.reads.unique h'.strip.reads

/-- **The result is as documented iff no line applies, or the line has the form without blanks in
front, or what stands at `tp` begins by chance with the oracles that are due.** -/
theorem getOracles_iff (content : Option Text) (path : Text) :
    MeetsForm content path ↔
      ∀ line ∈ content.bind fun text => selectLine path (lines '\n' text),
        (∃ lead name a b, Form line lead name a b ∧
          (lead = [] ∨ Reads (name.drop (name.length + 1 - lead.length)) a b)) ∨
        (¬ ∃ a b, Gives line a b) ∧ Reads (behindName line) defaultOracles.1 defaultOracles.2 := by
  unfold MeetsForm getOracles
  cases hline : content.bind fun text => selectLine path (lines '\n' text) with
  | none =>
      refine iff_of_true ⟨defaultOracles, rfl, by decide, by decide, rfl⟩ ?_
      intro line h
      cases h
  | some line =>
      simp only [Option.mem_some_iff, forall_eq']
      have hbehind : ∀ {lead name a b : Text}, Form line lead name a b → lead ≠ [] →
          (Reads (behindName line) a b ↔
            Reads (name.drop (name.length + 1 - lead.length)) a b) := by
        intro lead name a b h hlead
        obtain ⟨-, -, -, -, -, -, -, -, -, -, -, -, -, hblank, -⟩ := h.cut
        rw [h.behind hlead, reads_blanks fun c hc => hblank c (List.mem_of_mem_drop hc)]
      constructor
      · rintro ⟨⟨a, b⟩, hrun, -, -, hform, hother⟩
        have hreads := reads_iff.1 hrun
        by_cases hgives : ∃ a b, Gives line a b
        · obtain ⟨a', b', hgives⟩ := hgives
          have heq := hform a' b' hgives
          rw [Prod.mk.injEq] at heq
          obtain ⟨rfl, rfl⟩ := heq
          obtain ⟨lead, name, hf⟩ := hgives
          refine Or.inl ⟨lead, name, a, b, hf, ?_⟩
          by_cases hlead : lead = []
          · exact Or.inl hlead
          · exact Or.inr ((hbehind hf hlead).1 hreads)
        · have heq := hother hgives
          rw [heq] at hrun
          exact Or.inr ⟨hgives, reads_iff.1 hrun⟩
      · rintro (⟨lead, name, a, b, hf, hcase⟩ | ⟨hno, hreads⟩)
        · have hreads : Reads (behindName line) a b := by
            by_cases hlead : lead = []
            · subst hlead
              exact hf.reads
            · exact (hbehind hf hlead).2 (hcase.resolve_left hlead)
          refine ⟨(a, b), reads_iff.2 hreads, hreads.short.1, hreads.short.2, ?_, ?_⟩
          · intro a' b' hgives
            obtain ⟨rfl, rfl⟩ := hgives.unique ⟨lead, name, hf⟩
            rfl
          · exact fun hno => absurd ⟨a, b, lead, name, hf⟩ hno
        · refine ⟨defaultOracles, reads_iff.2 hreads, by decide, by decide, ?_, fun _ => rfl⟩
          exact fun a b hgives => absurd ⟨a, b, hgives⟩ hno

/-- A blank in front of the name of a line for `f`: its two oracles are not read, and a freed string
is copied. -/
theorem getOracles_leading_blank :
    let first : Text := List.replicate 8 'A'
    let second : Text := List.replicate 8 'B'
    let line : Text := [' ', 'f', ' '] ++ first ++ ' ' :: second ++ ['\n']
    Gives line first second ∧ getOracles (some line) ['f'] = none ∧
      ¬ MeetsForm (some line) ['f'] := by
  intro first second line
  have hnone : getOracles (some line) ['f'] = none := by decide
  have hword : ∀ d : Char, d ≠ '"' → isBlank d = false →
      Denotes (List.replicate 8 d) (List.replicate 8 d) := fun d hquote hblank =>
    ⟨Or.inl ⟨rfl, by simpa using hquote, by simpa using hblank⟩, by simp [oracleLenMin],
      by simp [oracleLenMax]⟩
  refine ⟨⟨[' '], ['f'], ⟨[' '], first, [' '], second, [], ['\n'], rfl, hword 'A' (by decide) rfl,
    hword 'B' (by decide) rfl, by simp, by simp, by simp [isBlank], Or.inr rfl, ?_⟩, by simp,
    by simp [isBlank]⟩, hnone, fun h => ?_⟩
  · simp [first, second, nulChar]
  · obtain ⟨o, hrun, -⟩ := h
    rw [hnone] at hrun
    cases hrun

/-- A line without a second oracle: a null string is copied instead of the default. -/
theorem getOracles_second_missing :
    let line : Text := ['f', ' '] ++ List.replicate 8 'A' ++ ['\n']
    getOracles (some line) ['f'] = none ∧ ¬ MeetsForm (some line) ['f'] := by
  intro line
  have hnone : getOracles (some line) ['f'] = none := by decide
  refine ⟨hnone, fun h => ?_⟩
  obtain ⟨o, hrun, -⟩ := h
  rw [hnone] at hrun
  cases hrun

/-- Text behind the oracles does not lead to the default. -/
example : getOracles (some (['f', ' '] ++ List.replicate 8 'A' ++ ' ' :: List.replicate 8 'B' ++
    [' ', 'x', '\n'])) ['f'] = some (List.replicate 8 'A', List.replicate 8 'B') := by decide

end Yacet
