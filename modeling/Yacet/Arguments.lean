import Yacet.LockNames

/-!
# Arguments of the command line (`main.c`)

* `foreachOptarg` — the arguments up to the next one that starts with `-`.
* `getRange` — an interval `A,B`; `none` is the exit with an error.
* `Region` — the documented form: a comma with a number on at least one side.
* `getRange_iff` — **a string is read as documented iff it is an interval with its end given, or no
  interval, and the numbers that `atol` finds in it do not ascend.**
-/

namespace Yacet

open CText

/-! ## Operands -/

/-- `argv[i][0] != '-'`. -/
def isOperand (arg : Text) : Bool := arg.head? ≠ some '-'

/-- `foreach_optarg`: the arguments that the loop visits and `optind` behind it. -/
def foreachOptarg (argv : List Text) (optind : ℕ) : List Text × ℕ :=
  let operands := (argv.drop optind).takeWhile isOperand
  (operands, optind + operands.length)

theorem drop_foreachOptarg {argv l : List Text} {optind : ℕ} (h : argv.drop optind = l) :
    argv.drop (foreachOptarg argv optind).2 = l.dropWhile isOperand := by
  rw [foreachOptarg, h]
  simp only
  rw [← List.drop_drop, h]
  calc l.drop (l.takeWhile isOperand).length
      = (l.takeWhile isOperand ++ l.dropWhile isOperand).drop (l.takeWhile isOperand).length := by
        rw [List.takeWhile_append_dropWhile]
    _ = l.dropWhile isOperand := List.drop_left

/-! ## Intervals -/

/-- A signed number stored in a `size_t`. -/
def sizeT (n : ℤ) : ℕ := (n % 2 ^ 64).toNat

/-- `BOUND_END`. -/
def boundEnd : ℕ := 2 ^ 64 - 1

/-- `get_range`. -/
def getRange (str : Text) : Option (ℕ × ℕ) :=
  let base := sizeT (atol str)
  match str.dropWhile (· ≠ ',') with
  | [] => none
  | _ :: rest =>
    if rest ≠ [] then
      let bound := sizeT (atol rest)
      if bound ≤ base then none else some (base, bound)
    -- `*bound = BOUND_END` goes on to the error
    else none

def number (ds : Text) : ℕ := Nat.ofDigitChars 10 ds 0

/-- `A,B` with at least one of the numbers; the empty text is the number left out. -/
structure Region (str a b : Text) : Prop where
  text : str = a ++ ',' :: b
  digits : ∀ c ∈ a ++ b, c.isDigit = true
  given : a ≠ [] ∨ b ≠ []
  base_lt : number a < 2 ^ 63
  bound_lt : number b < 2 ^ 63
  ascends : b ≠ [] → number a < number b

/-- The interval that a string is to be read as. -/
def Means (str : Text) (base bound : ℕ) : Prop :=
  ∃ a b, Region str a b ∧ base = number a ∧ bound = if b = [] then boundEnd else number b

/-- `get_range` returns exactly for intervals, and with their ends. -/
def ReadsExactly (str : Text) : Prop :=
  ∀ base bound, getRange str = some (base, bound) ↔ Means str base bound

/-- The number that `atol` finds behind the first comma is not larger than the one that it finds at
the front, or nothing stands there. -/
def Refused (str : Text) : Prop :=
  ∀ rest, str.dropWhile (· ≠ ',') = ',' :: rest → rest = [] ∨ sizeT (atol rest) ≤ sizeT (atol str)

variable {str a b : Text}

theorem dropWhile_comma (str : Text) :
    str.dropWhile (· ≠ ',') = [] ∨ ∃ rest, str.dropWhile (· ≠ ',') = ',' :: rest := by
  cases h : str.dropWhile (· ≠ ',') with
  | nil => exact Or.inl rfl
  | cons c rest =>
      have hne : str.dropWhile (· ≠ ',') ≠ [] := by rw [h]; exact List.cons_ne_nil _ _
      have hhead := List.head_dropWhile_not _ hne
      simp only [h, List.head_cons] at hhead
      have hc : c = ',' := by simpa using hhead
      exact Or.inr ⟨rest, by rw [hc]⟩

theorem getRange_none_iff : getRange str = none ↔ Refused str := by
  unfold getRange Refused
  rcases dropWhile_comma str with h | ⟨rest, h⟩
  · rw [h]
    constructor
    · intro _ rest heq
      cases heq
    · intro _
      rfl
  · rw [h]
    simp only
    constructor
    · rintro hnone rest' heq
      cases heq
      by_contra hno
      rw [not_or, not_le] at hno
      rw [if_pos hno.1, if_neg (by omega)] at hnone
      cases hnone
    · intro href
      split
      · rename_i hne
        rw [if_pos ((href rest rfl).resolve_left hne)]
      · rfl

theorem sizeT_number {n : ℕ} (h : n < 2 ^ 63) : sizeT (min (2 ^ 63 - 1) (n : ℤ)) = n := by
  unfold sizeT
  omega

namespace Region

theorem comma (h : Region str a b) : str.dropWhile (· ≠ ',') = ',' :: b := by
  have hpos : ∀ c ∈ a, decide (c ≠ ',') = true := by
    intro c hc
    rw [decide_eq_true_eq]
    rintro rfl
    exact absurd (h.digits ',' (List.mem_append_left _ hc)) (by decide)
  rw [h.text, List.dropWhile_append_of_pos hpos]
  simp

/-- An interval with its end given is read. -/
theorem getRange (h : Region str a b) (hb : b ≠ []) : getRange str = some (number a, number b) := by
  have ha : sizeT (atol str) = number a := by
    rw [h.text, atol_number (fun c hc => h.digits c (List.mem_append_left _ hc)) ?_]
    · exact sizeT_number h.base_lt
    · intro c hc
      obtain rfl : ',' = c := Option.some.inj hc
      exact ⟨by decide, by decide, by decide, by decide⟩
  have hb' : sizeT (atol b) = number b := by
    have hend : ∀ c ∈ ([] : Text).head?, Ends c := by simp
    have hread := atol_number (fun c hc => h.digits c (List.mem_append_right _ hc)) hend
    rw [List.append_nil] at hread
    rw [hread]
    exact sizeT_number h.bound_lt
  have hlt := h.ascends hb
  unfold Yacet.getRange
  rw [h.comma, ha]
  simp only [hb']
  rw [if_pos hb, if_neg (by omega)]

/-- One whose end is left out is not. -/
theorem getRange_open (h : Region str a []) : Yacet.getRange str = none := by
  unfold Yacet.getRange
  rw [h.comma]
  simp

end Region

/-- **A string is read as documented iff it is an interval with its end given, or no interval and
refused.** -/
theorem getRange_iff (str : Text) :
    ReadsExactly str ↔
      (∃ a b, Region str a b ∧ b ≠ []) ∨ (¬ ∃ a b, Region str a b) ∧ Refused str := by
  constructor
  · intro h
    by_cases hregion : ∃ a b, Region str a b
    · obtain ⟨a, b, hab⟩ := hregion
      refine Or.inl ⟨a, b, hab, ?_⟩
      rintro rfl
      have hread := (h (number a) boundEnd).2 ⟨a, [], hab, rfl, (if_pos rfl).symm⟩
      rw [hab.getRange_open] at hread
      cases hread
    · refine Or.inr ⟨hregion, getRange_none_iff.1 ?_⟩
      cases hread : getRange str with
      | none => rfl
      | some r =>
          obtain ⟨a, b, hab, -⟩ := (h r.1 r.2).1 hread
          exact absurd ⟨a, b, hab⟩ hregion
  · rintro (⟨a, b, hab, hb⟩ | ⟨hno, href⟩) base bound
    · rw [hab.getRange hb, Option.some.injEq, Prod.mk.injEq]
      constructor
      · rintro ⟨rfl, rfl⟩
        exact ⟨a, b, hab, rfl, (if_neg hb).symm⟩
      · rintro ⟨a', b', hab', rfl, rfl⟩
        -- the comma decides where the numbers end
        have hcut := hab.comma.symm.trans hab'.comma
        rw [List.cons.injEq] at hcut
        obtain rfl := hcut.2
        obtain rfl : a = a' := List.append_cancel_right (hab.text.symm.trans hab'.text)
        exact ⟨rfl, (if_neg hb).symm⟩
    · rw [getRange_none_iff.2 href]
      constructor
      · intro h
        cases h
      · rintro ⟨a, b, hab, -⟩
        exact absurd ⟨a, b, hab⟩ hno

/-- The help text's own example of an interval up to the end of a file is refused, and a string with
signs and a tail is read. -/
theorem getRange_open_end :
    getRange ['3', '2', ','] = none ∧ Means ['3', '2', ','] 32 boundEnd ∧
      getRange ['-', '5', ',', '-', '3', 'x'] = some (2 ^ 64 - 5, 2 ^ 64 - 3) ∧
      ¬ ReadsExactly ['3', '2', ','] := by
  have hmeans : Means ['3', '2', ','] 32 boundEnd :=
    ⟨['3', '2'], [], ⟨rfl, by simp, by decide, by decide, by decide, by decide⟩, by decide, rfl⟩
  refine ⟨by decide, hmeans, by decide, fun h => ?_⟩
  have hread := (h 32 boundEnd).2 hmeans
  exact absurd hread (by decide)

end Yacet
