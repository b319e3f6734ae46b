import Yacet.Arguments
import Yacet.Lib.Getopt

/-!
# The option loop of `-p` (`main.c`)

Each round takes an option with `getopt`, steps back by one argument and starts a thread for each of
the names that follow.

* `printStep` — one round; `none` leaves the loop.
* `MeetsAttached` — among the arguments that start with `-`, the first that is not just `-f`, `-g`
  or `-r` is one of these options with its argument attached.
* `printLoop_iff` — **the loop ends, and each of its rounds consumes an argument, iff no option that
  it meets has its argument attached.**
* `printLoop_ends_iff` — the same for the end alone: an option attached to `-p` itself does no harm.
-/

namespace Yacet

open Getopt

/-- What a thread prints: the range or the file of this name. -/
inductive PrintJob
  | range (name : Text)
  | file (name : Text)
  deriving DecidableEq, Repr

/-- The scanner and the threads that have been started. -/
structure PrintLoop where
  scan : Getopt.State
  thds : List PrintJob
  deriving DecidableEq, Repr

/-- `+g:hn:pr:w:`, the options of the first call. -/
def modeOptions : List Char := ['+', 'g', ':', 'h', 'n', ':', 'p', 'r', ':', 'w', ':']

/-- `+f:g:r:`. -/
def printOptions : List Char := ['+', 'f', ':', 'g', ':', 'r', ':']

/-- A round of the loop; `none` is `goto out`. -/
def printStep (argv : List Text) (s : PrintLoop) : Option PrintLoop :=
  let (c, scan) := getopt printOptions argv s.scan
  let (names, optind) := foreachOptarg argv (scan.optind - 1)
  match c with
  | some 'f' => some ⟨{ scan with optind := optind }, s.thds ++ names.map .file⟩
  | some 'g' => some ⟨{ scan with optind := optind }, s.thds ++ names.map .range⟩
  | some 'r' => some ⟨{ scan with optind := optind }, s.thds ++ names.map .range⟩
  | _ => none

/-- The loop after `n` rounds, `none` once it has been left. -/
def printRun (argv : List Text) : ℕ → PrintLoop → Option PrintLoop
  | 0, s => some s
  | n + 1, s => (printStep argv s).bind (printRun argv n)

/-- The loop is left. -/
def Ends (argv : List Text) (s : PrintLoop) : Prop := ∃ n, printRun argv n s = none

/-- Each round leaves the loop or consumes at least one argument. -/
def Consumes (argv : List Text) (s : PrintLoop) : Prop :=
  ∀ n t t', printRun argv n s = some t → printStep argv t = some t' → t.scan.optind < t'.scan.optind

/-! ## What the loop meets -/

/-- The options of the loop. -/
def isPrintOption (c : Char) : Bool := c = 'f' || c = 'g' || c = 'r'

/-- `-f`, `-g` or `-r` alone. -/
def isFlag : Text → Bool
  | ['-', c] => isPrintOption c
  | _ => false

/-- One of them with its argument in the same element. -/
def isAttached : Text → Bool
  | '-' :: c :: _ :: _ => isPrintOption c
  | _ => false

/-- The arguments begin with an option, and the first of the options among them that is not just
`-f`, `-g` or `-r` has its argument attached. -/
def MeetsAttached (l : List Text) : Prop :=
  (∀ a ∈ l.head?, isOperand a = false) ∧
    ∃ a ∈ (l.filter fun a => !isOperand a).find? fun a => !isFlag a, isAttached a = true

instance (l : List Text) : Decidable (MeetsAttached l) := by
  unfold MeetsAttached
  infer_instance

variable {argv l : List Text} {a : Text} {s t : PrintLoop}

theorem isOperand_of_isFlag (h : isFlag a = true) : isOperand a = false := by
  unfold isFlag at h
  split at h
  · rfl
  · cases h

theorem isOperand_of_isAttached (h : isAttached a = true) : isOperand a = false := by
  unfold isAttached at h
  split at h
  · rfl
  · cases h

theorem filter_dropWhile_isOperand (l : List Text) :
    (l.dropWhile isOperand).filter (fun a => !isOperand a) = l.filter fun a => !isOperand a := by
  induction l with
  | nil => rfl
  | cons a l ih =>
      rw [List.dropWhile_cons]
      split
      · rename_i ha
        rw [ih, List.filter_cons_of_neg (by simp [ha])]
      · rfl

theorem not_meetsAttached_nil : ¬ MeetsAttached [] := fun ⟨_, a, ha, _⟩ => by cases ha

/-- Behind a flag the operands are skipped. -/
theorem meetsAttached_flag (h : isFlag a = true) :
    MeetsAttached (a :: l) ↔ MeetsAttached (l.dropWhile isOperand) := by
  have ha := isOperand_of_isFlag h
  unfold MeetsAttached
  rw [filter_dropWhile_isOperand, List.filter_cons_of_pos (by simp [ha]),
    List.find?_cons_of_neg (by simp [h])]
  refine and_congr_left fun _ => ⟨fun _ b hb => ?_, fun _ b hb => ?_⟩
  · have hne : l.dropWhile isOperand ≠ [] := by
      rintro hnil
      rw [hnil] at hb
      cases hb
    rw [List.head?_eq_some_head hne, Option.mem_some_iff] at hb
    rw [← hb]
    exact List.head_dropWhile_not _ hne
  · obtain rfl : a = b := Option.some.inj hb
    exact ha

/-- Any other argument decides. -/
theorem meetsAttached_cons (h : isFlag a = false) :
    MeetsAttached (a :: l) ↔ isAttached a = true := by
  unfold MeetsAttached
  constructor
  · rintro ⟨hhead, b, hb, hatt⟩
    have ha := hhead a rfl
    rw [List.filter_cons_of_pos (by simp [ha]), List.find?_cons_of_pos (by simp [h])] at hb
    obtain rfl : a = b := Option.some.inj hb
    exact hatt
  · intro hatt
    have ha := isOperand_of_isAttached hatt
    refine ⟨fun b hb => ?_, a, ?_, hatt⟩
    · obtain rfl : a = b := Option.some.inj hb
      exact ha
    · rw [List.filter_cons_of_pos (by simp [ha]), List.find?_cons_of_pos (by simp [h])]
      rfl

/-! ## Rounds -/

theorem takesArg_print (c : Char) :
    takesArg (printOptions.drop 1) c = if isPrintOption c then some true else none := by
  by_cases hf : c = 'f'
  · subst hf
    decide
  by_cases hg : c = 'g'
  · subst hg
    decide
  by_cases hr : c = 'r'
  · subst hr
    decide
  have hno : isPrintOption c = false := by simp [isPrintOption, hf, hg, hr]
  rw [hno, takesArg]
  split
  · rfl
  · rename_i hcolon
    rw [not_or] at hcolon
    have hdrop : (printOptions.drop 1).dropWhile (· ≠ c) = [] := by
      simp [printOptions, Ne.symm hf, Ne.symm hg, Ne.symm hr, Ne.symm hcolon.1]
    rw [hdrop]
    rfl

theorem ne_dash_of_isPrintOption {c : Char} (h : isPrintOption c = true) : c ≠ '-' := by
  rintro rfl
  cases h

/-- The scanner stands between two arguments, in front of `l`. -/
structure At (argv : List Text) (s : PrintLoop) (l : List Text) : Prop where
  nextchar : s.scan.nextchar = []
  rest : argv.drop s.scan.optind = l

/-- A round that takes an option. -/
theorem printStep_option {c : Char} {arg : Option Text} {i : ℕ} (hc : isPrintOption c = true)
    (hrun : getopt printOptions argv s.scan = (some c, ⟨i + 1, [], arg⟩)) (hl : argv.drop i = l) :
    ∃ t, printStep argv s = some t ∧ At argv t (l.dropWhile isOperand) ∧
      t.scan.optind = i + (l.takeWhile isOperand).length := by
  have hrest := drop_foreachOptarg hl
  have hend : (foreachOptarg argv i).2 = i + (l.takeWhile isOperand).length := by
    rw [foreachOptarg, hl]
  have hcase : c = 'f' ∨ c = 'g' ∨ c = 'r' := by
    simpa [isPrintOption, or_assoc] using hc
  have hstep : ∃ thds, printStep argv s = some ⟨⟨(foreachOptarg argv i).2, [], arg⟩, thds⟩ := by
    rw [printStep, hrun]
    rcases hcase with rfl | rfl | rfl
    · exact ⟨_, rfl⟩
    · exact ⟨_, rfl⟩
    · exact ⟨_, rfl⟩
  obtain ⟨thds, hstep⟩ := hstep
  exact ⟨_, hstep, ⟨rfl, hrest⟩, hend⟩

/-- A flag takes the next argument, and the round goes on to the next option behind it. -/
theorem printStep_flag {b : Text} (ha : isFlag a = true) (h : At argv s (a :: b :: l)) :
    ∃ t, printStep argv s = some t ∧ At argv t ((b :: l).dropWhile isOperand) ∧
      s.scan.optind < t.scan.optind := by
  unfold isFlag at ha
  split at ha
  · rename_i c
    have hget := getopt_separate printOptions (by rw [takesArg_print, ha]; rfl)
      (ne_dash_of_isPrintOption ha) h.nextchar h.rest
    have hnext : argv.drop (s.scan.optind + 1) = b :: l := by
      rw [← List.drop_drop, h.rest]
      rfl
    obtain ⟨t, ht, hat, hend⟩ := printStep_option ha hget hnext
    exact ⟨t, ht, hat, by omega⟩
  · cases ha

/-- A flag that is the last argument ends the loop. -/
theorem printStep_last (ha : isFlag a = true) (h : At argv s [a]) : printStep argv s = none := by
  unfold isFlag at ha
  split at ha
  · rename_i c
    have hget := getopt_last printOptions (by rw [takesArg_print, ha]; rfl)
      (ne_dash_of_isPrintOption ha) h.nextchar h.rest
    rw [printStep]
    simp only [hget]
    rfl
  · cases ha

/-- An attached argument: the step back makes the next round scan the same argument. -/
theorem printStep_attached (ha : isAttached a = true) (h : At argv s (a :: l)) :
    ∃ t, printStep argv s = some t ∧ At argv t (a :: l) ∧ t.scan.optind = s.scan.optind := by
  have hop := isOperand_of_isAttached ha
  unfold isAttached at ha
  split at ha
  · rename_i c d rest
    have hget := getopt_attached printOptions (by rw [takesArg_print, ha]; rfl)
      (ne_dash_of_isPrintOption ha) h.nextchar h.rest (List.cons_ne_nil d rest)
    obtain ⟨t, ht, hat, hend⟩ := printStep_option ha hget h.rest
    rw [List.dropWhile_cons_of_neg (by simp [hop])] at hat
    rw [List.takeWhile_cons_of_neg (by simp [hop])] at hend
    exact ⟨t, ht, hat, hend⟩
  · cases ha

/-- Anything else ends the loop. -/
theorem printStep_stop (hnext : s.scan.nextchar = [])
    (h : ∀ a ∈ argv[s.scan.optind]?, isFlag a = false ∧ isAttached a = false) :
    printStep argv s = none := by
  have hstops := getopt_stops printOptions hnext fun c rest helem => by
    obtain ⟨hflag, hatt⟩ := h _ helem
    have hno : isPrintOption c = false := by
      cases rest with
      | nil => exact hflag
      | cons d rest => exact hatt
    rw [takesArg_print, hno]
    rfl
  rw [printStep]
  rcases hstops with hnone | hquestion
  · simp only [hnone]
  · simp only [hquestion]
    rfl

/-! ## The loop -/

theorem ends_of_left (h : printStep argv s = none) : Ends argv s ∧ Consumes argv s := by
  refine ⟨⟨1, by simp [printRun, h]⟩, fun n t t' hrun hstep => ?_⟩
  cases n with
  | zero =>
      obtain rfl : s = t := Option.some.inj hrun
      rw [h] at hstep
      cases hstep
  | succ n =>
      rw [printRun, h] at hrun
      cases hrun

theorem ends_step (h : printStep argv s = some t) : Ends argv s ↔ Ends argv t := by
  constructor
  · rintro ⟨n, hn⟩
    cases n with
    | zero => cases hn
    | succ n =>
        rw [printRun, h, Option.bind_some] at hn
        exact ⟨n, hn⟩
  · rintro ⟨n, hn⟩
    exact ⟨n + 1, by rw [printRun, h, Option.bind_some, hn]⟩

theorem consumes_step (h : printStep argv s = some t) :
    Consumes argv s ↔ s.scan.optind < t.scan.optind ∧ Consumes argv t := by
  constructor
  · intro hs
    refine ⟨hs 0 s t rfl h, fun n u u' hrun hstep => hs (n + 1) u u' ?_ hstep⟩
    rw [printRun, h, Option.bind_some, hrun]
  · rintro ⟨hlt, ht⟩ n u u' hrun hstep
    cases n with
    | zero =>
        obtain rfl : s = u := Option.some.inj hrun
        rw [h] at hstep
        obtain rfl : t = u' := Option.some.inj hstep
        exact hlt
    | succ n =>
        rw [printRun, h, Option.bind_some] at hrun
        exact ht n u u' hrun hstep

/-- From an attached argument on the loop makes the same round again and again. -/
theorem attached_loops (ha : isAttached a = true) (h : At argv s (a :: l)) : ¬ Ends argv s := by
  rintro ⟨n, hn⟩
  induction n generalizing s with
  | zero => cases hn
  | succ n ih =>
      obtain ⟨t, ht, hat, -⟩ := printStep_attached ha h
      rw [printRun, ht, Option.bind_some] at hn
      exact ih hat hn

/-- **The loop from between two arguments on.** -/
theorem loop_iff (h : At argv s l) :
    (Ends argv s ↔ ¬ MeetsAttached l) ∧ (Consumes argv s ↔ ¬ MeetsAttached l) := by
  induction hlen : l.length using Nat.strongRecOn generalizing s l with
  | ind n ih =>
      have hleft : printStep argv s = none → ¬ MeetsAttached l →
          (Ends argv s ↔ ¬ MeetsAttached l) ∧ (Consumes argv s ↔ ¬ MeetsAttached l) := by
        intro hnone hno
        obtain ⟨hends, hcons⟩ := ends_of_left hnone
        exact ⟨iff_of_true hends hno, iff_of_true hcons hno⟩
      cases l with
      | nil =>
          refine hleft (printStep_stop h.nextchar fun a ha => ?_) not_meetsAttached_nil
          rw [show argv[s.scan.optind]? = none from getElem?_of_drop h.rest 0] at ha
          cases ha
      | cons a l =>
          cases hflag : isFlag a with
          | true =>
              rw [meetsAttached_flag hflag] at hleft ⊢
              cases l with
              | nil => exact hleft (printStep_last hflag h) not_meetsAttached_nil
              | cons b l =>
                  obtain ⟨t, ht, hat, hlt⟩ := printStep_flag hflag h
                  have hshort := (List.dropWhile_suffix (l := b :: l) isOperand).length_le
                  obtain ⟨h1, h2⟩ := ih _ (by simp only [List.length_cons] at hlen hshort; omega)
                    hat rfl
                  rw [ends_step ht, consumes_step ht, and_iff_right hlt]
                  exact ⟨h1, h2⟩
          | false =>
              rw [meetsAttached_cons hflag] at hleft ⊢
              cases hatt : isAttached a with
              | true =>
                  obtain ⟨t, ht, -, hsame⟩ := printStep_attached hatt h
                  refine ⟨iff_of_false (attached_loops hatt h) (by simp), iff_of_false ?_ (by simp)⟩
                  intro hcons
                  have := hcons 0 s t rfl ht
                  omega
              | false =>
                  rw [hatt] at hleft
                  refine hleft (printStep_stop h.nextchar fun b hb => ?_) (by simp)
                  rw [show argv[s.scan.optind]? = some a from getElem?_of_drop h.rest 0] at hb
                  obtain rfl : a = b := Option.some.inj hb
                  exact ⟨hflag, hatt⟩

/-! ## From the first call on -/

/-- The arguments behind `-p`; what stands behind the `p` in the same argument counts as one. -/
def behindP : List Text → List Text
  | _ :: ('-' :: 'p' :: rest) :: l => if rest = [] then l else ('-' :: rest) :: l
  | _ => []

/-- What stands behind the `p` in the same argument. -/
def clusterP : List Text → Text
  | _ :: ('-' :: 'p' :: rest) :: _ => rest
  | _ => []

/-- The first call has returned `p`. -/
theorem getopt_p {scan : Getopt.State}
    (h : getopt modeOptions argv Getopt.start = (some 'p', scan)) :
    ∃ name rest l, argv = name :: ('-' :: 'p' :: rest) :: l ∧
      scan = if rest = [] then ⟨2, [], none⟩ else ⟨1, rest, none⟩ := by
  have hreturns : ∀ c rest, letter (modeOptions.drop 1) argv 1 c rest = (some 'p', scan) →
      c = 'p' ∧ scan = if rest = [] then ⟨2, [], none⟩ else ⟨1, rest, none⟩ := by
    intro c rest hletter
    rw [letter] at hletter
    split at hletter
    · cases hletter
    · obtain ⟨hc, hscan⟩ := Prod.mk.inj hletter
      refine ⟨Option.some.inj hc, ?_⟩
      rw [← hscan]
      split
      · rename_i hrest
        rw [hrest]
      · rfl
    · rename_i harg
      split at hletter
      · obtain ⟨hc, -⟩ := Prod.mk.inj hletter
        rw [Option.some.inj hc] at harg
        exact absurd harg (by decide)
      · split at hletter
        · cases hletter
        · obtain ⟨hc, -⟩ := Prod.mk.inj hletter
          rw [Option.some.inj hc] at harg
          exact absurd harg (by decide)
  unfold getopt at h
  simp only [Getopt.start] at h
  split at h
  · cases h
  · cases h
  · rename_i c rest _ helem
    obtain ⟨rfl, hscan⟩ := hreturns c rest h
    cases argv with
    | nil => cases helem
    | cons name argv =>
        cases argv with
        | nil => cases helem
        | cons a l =>
            obtain rfl : a = '-' :: 'p' :: rest := Option.some.inj helem
            exact ⟨name, rest, l, rfl, hscan⟩
  · cases h

/-- The first round when the option stands in the same argument as the `p`. -/
theorem cluster_iff (name : Text) (c : Char) (rest : Text) (l : List Text) :
    let argv := name :: ('-' :: 'p' :: c :: rest) :: l
    let s : PrintLoop := ⟨⟨1, c :: rest, none⟩, []⟩
    (Ends argv s ↔ ¬ MeetsAttached (('-' :: c :: rest) :: l) ∨
      isAttached ('-' :: c :: rest) = true) ∧
      (Consumes argv s ↔ ¬ MeetsAttached (('-' :: c :: rest) :: l)) := by
  intro argv s
  have hget : getopt printOptions argv s.scan = letter (printOptions.drop 1) argv 1 c rest := rfl
  rw [letter, takesArg_print] at hget
  cases hc : isPrintOption c with
  | false =>
      -- no option of the loop: it ends
      have hleft : printStep argv s = none := by
        rw [hc] at hget
        rw [printStep, hget]
        rfl
      have hflag : isFlag ('-' :: c :: rest) = false := by
        cases rest with
        | nil => exact hc
        | cons d rest => rfl
      have hatt : isAttached ('-' :: c :: rest) = false := by
        cases rest with
        | nil => rfl
        | cons d rest => exact hc
      obtain ⟨hends, hcons⟩ := ends_of_left hleft
      rw [meetsAttached_cons hflag, hatt]
      exact ⟨iff_of_true hends (by simp), iff_of_true hcons (by simp)⟩
  | true =>
      cases rest with
      | nil =>
          -- the argument of the option is the next element
          have hflag : isFlag ['-', c] = true := hc
          rw [meetsAttached_flag hflag, show isAttached ['-', c] = false from rfl]
          simp only [Bool.false_eq_true, or_false]
          rw [hc] at hget
          cases l with
          | nil =>
              have hleft : printStep argv s = none := by
                rw [printStep, hget]
                rfl
              obtain ⟨hends, hcons⟩ := ends_of_left hleft
              exact ⟨iff_of_true hends not_meetsAttached_nil,
                iff_of_true hcons not_meetsAttached_nil⟩
          | cons b l =>
              obtain ⟨t, ht, hat, hend⟩ := printStep_option (s := s) (i := 2) hc hget rfl
              obtain ⟨h1, h2⟩ := loop_iff hat
              have hlt : s.scan.optind < t.scan.optind := by
                rw [hend]
                show 1 < _
                omega
              rw [ends_step ht, consumes_step ht, and_iff_right hlt]
              exact ⟨h1, h2⟩
      | cons d rest =>
          -- the step back leads to the argument with the `p`, which is no option of the loop
          have hatt : isAttached ('-' :: c :: d :: rest) = true := hc
          have hflag : isFlag ('-' :: c :: d :: rest) = false := rfl
          rw [hc] at hget
          have hdrop : argv.drop 1 = ('-' :: 'p' :: c :: d :: rest) :: l := rfl
          obtain ⟨t, ht, hat, hend⟩ := printStep_option (s := s) hc hget hdrop
          have hop : isOperand ('-' :: 'p' :: c :: d :: rest) = false := rfl
          rw [List.dropWhile_cons_of_neg (by simp [hop])] at hat
          rw [List.takeWhile_cons_of_neg (by simp [hop])] at hend
          have hno : ¬ MeetsAttached (('-' :: 'p' :: c :: d :: rest) :: l) := by
            rw [meetsAttached_cons rfl]
            exact Bool.false_ne_true
          rw [meetsAttached_cons hflag, hatt, ends_step ht]
          refine ⟨iff_of_true ((loop_iff hat).1.2 hno) (Or.inr rfl), iff_of_false ?_ (by simp)⟩
          intro hcons
          have hlt := hcons 0 s t rfl ht
          rw [hend, if_neg (List.cons_ne_nil d rest)] at hlt
          exact absurd hlt (Nat.lt_irrefl 1)

/-- **The loop ends, and each of its rounds leaves it or consumes an argument, iff it meets no
option with its argument attached.** -/
theorem printLoop_iff {scan : Getopt.State}
    (h : getopt modeOptions argv Getopt.start = (some 'p', scan)) :
    (Ends argv ⟨scan, []⟩ ∧ Consumes argv ⟨scan, []⟩) ↔ ¬ MeetsAttached (behindP argv) := by
  obtain ⟨name, rest, l, rfl, rfl⟩ := getopt_p h
  cases rest with
  | nil =>
      have hat : At (name :: ['-', 'p'] :: l) ⟨⟨2, [], none⟩, []⟩ l := ⟨rfl, rfl⟩
      obtain ⟨h1, h2⟩ := loop_iff hat
      show Ends _ ⟨⟨2, [], none⟩, []⟩ ∧ Consumes _ ⟨⟨2, [], none⟩, []⟩ ↔ ¬ MeetsAttached l
      rw [h1, h2, and_self]
  | cons c rest =>
      obtain ⟨h1, h2⟩ := cluster_iff name c rest l
      show Ends _ ⟨⟨1, c :: rest, none⟩, []⟩ ∧ Consumes _ ⟨⟨1, c :: rest, none⟩, []⟩ ↔
        ¬ MeetsAttached (('-' :: c :: rest) :: l)
      rw [h1, h2]
      exact ⟨And.right, fun hno => ⟨Or.inl hno, hno⟩⟩

/-- **The end alone**: an option attached to `-p` itself does no harm. -/
theorem printLoop_ends_iff {scan : Getopt.State}
    (h : getopt modeOptions argv Getopt.start = (some 'p', scan)) :
    Ends argv ⟨scan, []⟩ ↔
      ¬ MeetsAttached (behindP argv) ∨ isAttached ('-' :: clusterP argv) = true := by
  obtain ⟨name, rest, l, rfl, rfl⟩ := getopt_p h
  cases rest with
  | nil =>
      have hat : At (name :: ['-', 'p'] :: l) ⟨⟨2, [], none⟩, []⟩ l := ⟨rfl, rfl⟩
      obtain ⟨h1, -⟩ := loop_iff hat
      show Ends _ ⟨⟨2, [], none⟩, []⟩ ↔ ¬ MeetsAttached l ∨ isAttached ['-'] = true
      rw [h1]
      simp [isAttached]
  | cons c rest => exact (cluster_iff name c rest l).1

/-- `yacet -p -f a b -r x`. -/
theorem printLoop_iff_separate :
    let argv : List Text := [['y'], ['-', 'p'], ['-', 'f'], ['a'], ['b'], ['-', 'r'], ['x']]
    getopt modeOptions argv Getopt.start = (some 'p', ⟨2, [], none⟩) ∧
      ((Ends argv ⟨⟨2, [], none⟩, []⟩ ∧ Consumes argv ⟨⟨2, [], none⟩, []⟩) ↔
        ¬ MeetsAttached (behindP argv)) :=
  ⟨by decide, printLoop_iff (by decide)⟩

/-- `yacet -p -fa` takes the same argument for ever. -/
theorem printLoop_attached :
    let argv : List Text := [['y'], ['-', 'p'], ['-', 'f', 'a']]
    getopt modeOptions argv Getopt.start = (some 'p', ⟨2, [], none⟩) ∧
      ¬ Ends argv ⟨⟨2, [], none⟩, []⟩ :=
  ⟨by decide, attached_loops (a := ['-', 'f', 'a']) (l := []) rfl ⟨rfl, rfl⟩⟩

end Yacet
