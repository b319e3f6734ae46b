import Mathlib.Tactic

/-!
# C's text functions on names

Names are character lists.  `printf` of a number and the functions that take names apart again.

* `zeroPadded` — `%0wd`; with width 0 it is `%lu`.
* `strrchr` — the text from the last occurrence of a character on.
* `strtoul` — the number at the front of a text and what stands behind it.
* `strtoul_zeroPadded` — **a printed number reads back.**
* `atol` — the number at the front of a text behind blanks and a sign; `atol_number` — digits alone.
* `words` — the words of a line; `words_joined` — **words that are joined by blanks come apart
  again.**
-/

namespace CText

/-! ## Numbers -/

/-- `printf` of a number, filled up with zeros to the width. -/
def zeroPadded (width n : ℕ) : List Char :=
  List.replicate (width - (Nat.toDigits 10 n).length) '0' ++ Nat.toDigits 10 n

/-- `strtoul(s, &end, 10)` before it looks at the range, on a text that starts with a digit: the
number and the text at `end`. -/
def strtoul (s : List Char) : ℕ × List Char :=
  (Nat.ofDigitChars 10 (s.takeWhile Char.isDigit) 0, s.dropWhile Char.isDigit)

theorem isDigit_of_mem_zeroPadded {width n : ℕ} {c : Char} (h : c ∈ zeroPadded width n) :
    c.isDigit = true := by
  rcases List.mem_append.1 h with h | h
  · rw [List.eq_of_mem_replicate h]
    decide
  · exact Nat.isDigit_of_mem_toDigits (by omega) (by omega) h

/-- A character that is no digit does not occur in a printed number. -/
theorem notMem_zeroPadded {width n : ℕ} {c : Char} (h : c.isDigit = false) :
    c ∉ zeroPadded width n := by
  intro hmem
  have := isDigit_of_mem_zeroPadded hmem
  rw [h] at this
  cases this

theorem ofDigitChars_zeroPadded (width n : ℕ) :
    Nat.ofDigitChars 10 (zeroPadded width n) 0 = n := by
  rw [zeroPadded, Nat.ofDigitChars_append, Nat.ofDigitChars_replicate_zero, Nat.mul_zero]
  exact Nat.ofDigitChars_ten_toDigits

/-- **A printed number reads back**, and the text behind it is left. -/
theorem strtoul_zeroPadded (width n : ℕ) (rest : List Char)
    (hrest : ∀ c ∈ rest.head?, c.isDigit = false) :
    strtoul (zeroPadded width n ++ rest) = (n, rest) := by
  have hdigits : ∀ c ∈ zeroPadded width n, c.isDigit = true :=
    fun c hc => isDigit_of_mem_zeroPadded hc
  have htake : rest.takeWhile Char.isDigit = [] ∧ rest.dropWhile Char.isDigit = rest := by
    cases rest with
    | nil => exact ⟨rfl, rfl⟩
    | cons c rest =>
        have hc : c.isDigit = false := hrest c rfl
        simp [hc]
  rw [strtoul, List.takeWhile_append_of_pos hdigits, List.dropWhile_append_of_pos hdigits,
    htake.1, htake.2, List.append_nil, ofDigitChars_zeroPadded]

theorem strtoul_zeroPadded_end (width n : ℕ) : strtoul (zeroPadded width n) = (n, []) := by
  have h := strtoul_zeroPadded width n [] (by simp)
  rwa [List.append_nil] at h

/-! ## Signed numbers -/

/-- `isspace`. -/
def isSpace (c : Char) : Bool := decide (c = ' ' ∨ 9 ≤ c.toNat ∧ c.toNat ≤ 13)

/-- `atol`: blanks, a sign and digits at the front of a text; what does not fit a `long` becomes the
nearest one. -/
def atol (s : List Char) : ℤ :=
  match s.dropWhile isSpace with
  | '-' :: t => max (-2 ^ 63) (-((strtoul t).1 : ℤ))
  | '+' :: t => min (2 ^ 63 - 1) (strtoul t).1
  | t => min (2 ^ 63 - 1) (strtoul t).1

/-- A character that ends a number and does not begin one. -/
def Ends (c : Char) : Prop := c.isDigit = false ∧ isSpace c = false ∧ c ≠ '-' ∧ c ≠ '+'

theorem ends_of_isDigit {c : Char} (h : c.isDigit = true) :
    isSpace c = false ∧ c ≠ '-' ∧ c ≠ '+' := by
  have hrange : 48 ≤ c.toNat := by
    simp only [Char.isDigit, Bool.and_eq_true, decide_eq_true_eq] at h
    exact h.1
  refine ⟨?_, ?_, ?_⟩
  · rw [isSpace, decide_eq_false_iff_not]
    rintro (rfl | h9)
    · exact absurd hrange (by decide)
    · omega
  · rintro rfl
    exact absurd hrange (by decide)
  · rintro rfl
    exact absurd hrange (by decide)

/-- **Digits at the front of a text are read as their number.** -/
theorem atol_number {ds rest : List Char} (hds : ∀ c ∈ ds, c.isDigit = true)
    (hrest : ∀ c ∈ rest.head?, Ends c) :
    atol (ds ++ rest) = min (2 ^ 63 - 1) ((Nat.ofDigitChars 10 ds 0 : ℕ) : ℤ) := by
  have hhead : ∀ c ∈ (ds ++ rest).head?, isSpace c = false ∧ c ≠ '-' ∧ c ≠ '+' := by
    cases ds with
    | nil =>
        intro c hc
        exact (hrest c hc).2
    | cons d ds =>
        intro c hc
        obtain rfl : d = c := Option.some.inj hc
        exact ends_of_isDigit (hds d List.mem_cons_self)
  have hread : (strtoul (ds ++ rest)).1 = Nat.ofDigitChars 10 ds 0 := by
    have htake : rest.takeWhile Char.isDigit = [] := by
      cases rest with
      | nil => rfl
      | cons c rest => simp [(hrest c rfl).1]
    rw [strtoul, List.takeWhile_append_of_pos hds, htake, List.append_nil]
  have hdrop : (ds ++ rest).dropWhile isSpace = ds ++ rest := by
    cases hs : ds ++ rest with
    | nil => rfl
    | cons c s => simp [(hhead c (by rw [hs]; rfl)).1]
  rw [atol, hdrop, ← hread]
  split
  · rename_i t hs
    exact absurd rfl (hhead '-' (by rw [hs]; rfl)).2.1
  · rename_i t hs
    exact absurd rfl (hhead '+' (by rw [hs]; rfl)).2.2
  · rfl

/-- A printed number is read, whatever ends it. -/
theorem atol_zeroPadded (width n : ℕ) {rest : List Char}
    (hrest : ∀ c ∈ rest.head?, c.isDigit = false) :
    atol (zeroPadded width n ++ rest) = min (2 ^ 63 - 1) (n : ℤ) := by
  obtain ⟨d, ds, hds⟩ : ∃ d ds, zeroPadded width n = d :: ds := by
    apply List.exists_cons_of_ne_nil
    unfold zeroPadded
    exact List.append_ne_nil_of_right_ne_nil _ Nat.toDigits_ne_nil
  have hread := strtoul_zeroPadded width n rest hrest
  obtain ⟨hspace, hminus, hplus⟩ :=
    ends_of_isDigit (isDigit_of_mem_zeroPadded (by rw [hds]; exact List.mem_cons_self))
  rw [hds, List.cons_append] at hread ⊢
  rw [atol, List.dropWhile_cons_of_neg (by simp [hspace])]
  split
  · rename_i t hs
    cases hs
    exact absurd rfl hminus
  · rename_i t hs
    cases hs
    exact absurd rfl hplus
  · rw [hread]

/-! ## Words -/

/-- The words of a line, as a shell splits it at blanks. -/
def words (s : List Char) : List (List Char) := (s.splitOn ' ').filter (· ≠ [])

/-- **Words that are joined by blanks come apart again.** -/
theorem words_joined {w : List Char} {ws : List (List Char)}
    (h : ∀ v ∈ w :: ws, v ≠ [] ∧ ' ' ∉ v) : words (w ++ ws.flatMap (' ' :: ·)) = w :: ws := by
  induction ws generalizing w with
  | nil =>
      obtain ⟨hne, hblank⟩ := h w List.mem_cons_self
      have hsplit : ∀ c ∈ w, (c == ' ') = false := by
        intro c hc
        rw [beq_eq_false_iff_ne]
        rintro rfl
        exact hblank hc
      rw [List.flatMap_nil, List.append_nil, words, List.splitOn, List.splitOnP_eq_singleton hsplit]
      simp [hne]
  | cons v ws ih =>
      obtain ⟨hne, hblank⟩ := h w List.mem_cons_self
      have hsplit : ∀ c ∈ w, (c == ' ') = false := by
        intro c hc
        rw [beq_eq_false_iff_ne]
        rintro rfl
        exact hblank hc
      have hrest := ih fun u hu => h u (List.mem_cons_of_mem _ hu)
      rw [words, List.splitOn] at hrest ⊢
      rw [List.flatMap_cons, List.cons_append,
        List.splitOnP_append_cons_of_forall_mem hsplit ' ' (by simp),
        List.filter_cons_of_pos (by simp [hne]),
        hrest]

/-! ## The last occurrence of a character -/

section LastOccurrence

variable {β : Type*} [DecidableEq β] {c : β} {s t : List β}

/-- `strrchr(s, c)`. -/
def strrchr (c : β) : List β → Option (List β)
  | [] => none
  | b :: s =>
    match strrchr c s with
    | some t => some t
    | none => if b = c then some (b :: s) else none

theorem strrchr_eq_none (h : c ∉ s) : strrchr c s = none := by
  induction s with
  | nil => rfl
  | cons b s ih =>
      rw [List.mem_cons, not_or] at h
      rw [strrchr, ih h.2]
      exact if_neg (Ne.symm h.1)

theorem strrchr_append (h : c ∉ t) : strrchr c (s ++ c :: t) = some (c :: t) := by
  induction s with
  | nil => rw [List.nil_append, strrchr, strrchr_eq_none h, if_pos rfl]
  | cons b s ih => rw [List.cons_append, strrchr, ih]

end LastOccurrence

/-- A text that holds the character, cut at the last occurrence. -/
theorem exists_last {β : Type*} {c : β} {s : List β} (h : c ∈ s) :
    ∃ u t, s = u ++ c :: t ∧ c ∉ t := by
  obtain ⟨u, t, hs, hu⟩ := List.eq_append_cons_of_mem (List.mem_reverse.2 h)
  refine ⟨t.reverse, u.reverse, ?_, by simpa using hu⟩
  rw [← List.reverse_reverse s, hs]
  simp

end CText
