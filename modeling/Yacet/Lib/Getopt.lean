import Mathlib.Tactic

/-!
# `getopt` that stops at the first operand

The scanner of the C library for short options, with an option string that begins with `+`.

* `getopt` — one call.  It returns the option, `'?'` for one that is unknown or lacks its argument,
  and `none` (-1) in front of an operand, behind `--` and at the end.
* `getopt_separate`, `getopt_attached` — an option whose argument is the next element, or stands in
  the same one.
* `getopt_stops` — **a call that finds no option with an argument.**
-/

namespace Getopt

abbrev Arg := List Char

/-- `optind`, the rest of the element that is being scanned, and `optarg`. -/
structure State where
  optind : ℕ
  nextchar : List Char
  optarg : Option Arg
  deriving DecidableEq, Repr

/-- Before the first call. -/
def start : State := ⟨1, [], none⟩

/-- What an option string says of a character: `none` if it is no option, otherwise whether it takes
an argument. -/
def takesArg (options : List Char) (c : Char) : Option Bool :=
  if c = ':' ∨ c = ';' then none
  else
    match options.dropWhile (· ≠ c) with
    | [] => none
    | [_] => some false
    | _ :: d :: _ => some (d = ':')

/-- The next character of the element at `optind`; `rest` stands behind it. -/
def letter (options : List Char) (argv : List Arg) (optind : ℕ) (c : Char) (rest : List Char) :
    Option Char × State :=
  -- `optind` moves on when the last character of an element is looked at
  let optind := if rest = [] then optind + 1 else optind
  match takesArg options c with
  | none => (some '?', ⟨optind, rest, none⟩)
  | some false => (some c, ⟨optind, rest, none⟩)
  | some true =>
    if rest ≠ [] then (some c, ⟨optind + 1, [], some rest⟩)
    else
      match argv[optind]? with
      | none => (some '?', ⟨optind, [], none⟩)
      | some a => (some c, ⟨optind + 1, [], some a⟩)

/-- `getopt(argc, argv, optstring)`; `optstring` begins with `+`. -/
def getopt (optstring : List Char) (argv : List Arg) (s : State) : Option Char × State :=
  match s.nextchar with
  | c :: rest => letter (optstring.drop 1) argv s.optind c rest
  | [] =>
    match argv[s.optind]? with
    | none => (none, ⟨s.optind, [], none⟩)
    | some ['-', '-'] => (none, ⟨s.optind + 1, [], none⟩)
    | some ('-' :: c :: rest) => letter (optstring.drop 1) argv s.optind c rest
    | some _ => (none, ⟨s.optind, [], none⟩)

/-! ## One call -/

variable {optstring : List Char} {argv l : List Arg} {s : State} {c : Char} {rest : List Char}
  {a : Arg}

theorem getElem?_of_drop {i : ℕ} (h : argv.drop i = l) (k : ℕ) : argv[i + k]? = l[k]? := by
  rw [← h, List.getElem?_drop]

/-- The call at an element that begins with `-` and a character. -/
theorem getopt_letter (hs : s.nextchar = []) (h : argv.drop s.optind = ('-' :: c :: rest) :: l)
    (hc : c ≠ '-') :
    getopt optstring argv s = letter (optstring.drop 1) argv s.optind c rest := by
  have helem : argv[s.optind]? = some ('-' :: c :: rest) := getElem?_of_drop h 0
  unfold getopt
  rw [hs, helem]
  simp only
  split
  · rename_i heq
    cases heq
  · rename_i heq
    cases heq
    exact absurd rfl hc
  · rename_i heq
    cases heq
    rfl
  · rename_i hno heq
    cases heq
    exact absurd rfl (hno c rest)

/-- An option whose argument is the next element. -/
theorem getopt_separate (optstring : List Char) (harg : takesArg (optstring.drop 1) c = some true)
    (hc : c ≠ '-') (hs : s.nextchar = []) (h : argv.drop s.optind = ['-', c] :: a :: l) :
    getopt optstring argv s = (some c, ⟨s.optind + 2, [], some a⟩) := by
  have hnext : argv[s.optind + 1]? = some a := getElem?_of_drop h 1
  rw [getopt_letter hs h hc, letter, harg]
  simp [hnext]

/-- An option without the argument that it takes. -/
theorem getopt_last (optstring : List Char) (harg : takesArg (optstring.drop 1) c = some true)
    (hc : c ≠ '-')
    (hs : s.nextchar = []) (h : argv.drop s.optind = [['-', c]]) :
    (getopt optstring argv s).1 = some '?' := by
  have hnext : argv[s.optind + 1]? = none := getElem?_of_drop h 1
  rw [getopt_letter hs h hc, letter, harg]
  simp [hnext]

/-- An option whose argument stands in the same element. -/
theorem getopt_attached (optstring : List Char) (harg : takesArg (optstring.drop 1) c = some true)
    (hc : c ≠ '-')
    (hs : s.nextchar = []) (h : argv.drop s.optind = ('-' :: c :: rest) :: l) (hrest : rest ≠ []) :
    getopt optstring argv s = (some c, ⟨s.optind + 1, [], some rest⟩) := by
  rw [getopt_letter hs h hc, letter, harg]
  simp [hrest]

/-- **Where no option with an argument stands, the call returns none.** -/
theorem getopt_stops (optstring : List Char) (hs : s.nextchar = [])
    (h : ∀ c rest, argv[s.optind]? = some ('-' :: c :: rest) →
      takesArg (optstring.drop 1) c = none) :
    (getopt optstring argv s).1 = none ∨ (getopt optstring argv s).1 = some '?' := by
  unfold getopt
  rw [hs]
  simp only
  split
  · exact Or.inl rfl
  · exact Or.inl rfl
  · rename_i c rest _ helem
    rw [letter, h c rest helem]
    exact Or.inr rfl
  · exact Or.inl rfl

end Getopt
