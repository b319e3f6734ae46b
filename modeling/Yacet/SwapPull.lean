import Yacet.SwapFile

/-!
# What `pull_swap_file` leaves at the swap path (`file.c`)

`add_oracles` subtracts in `size_t`, `sendfile` takes the difference for an `ssize_t`, and the swap
path is opened without `O_TRUNC`.

* `pullSwapFile` — the content of the swap path afterwards, over any previous content.
* `due` — the file with one pair of oracles for each interval.
* `Placed` — byte for byte, by where each byte comes from, the swap file is what is due.
* `placed_iff` — **that is so iff no interval but the last begins behind the end of the file, and
  the previous content was no longer**, up to differences of `2 ^ 63` and more (`Pulls`).
-/

namespace Yacet

namespace SwapPull

open Descriptor Patchwork

variable {β : Type*}

/-! ## The copy -/

/-- A `size_t` as the `ssize_t` that `sendfile` looks at. -/
def ssize (count : ℤ) : ℤ := count.bmod (2 ^ 64)

/-- The loop of `add_oracles` from `swp_pos` on. -/
def addLoop (zero : β) (opening closing : List β) (size : ℕ) :
    Fd β → Fd β → ℕ → List ItNode → Fd β × Fd β
  | swp, f, _, [] => (swp, f)
  | swp, f, swpPos, n :: ns =>
    let adjBound := if n.bound > size then size else n.bound
    let (swp, f, _) := sendfile zero true swp f (ssize ((n.base : ℤ) - swpPos))
    let swp := swp.write zero opening
    let (swp, f, cond) := sendfile zero true swp f (ssize ((adjBound : ℤ) - n.base))
    let swp := swp.write zero closing
    if cond < 0 then (swp, f) else addLoop zero opening closing size swp f n.bound ns

/-- The transfer of the rest behind the loop. -/
def finish (zero : β) (size : ℕ) (swp f : Fd β) : List β :=
  (sendfile zero true swp f (ssize ((size : ℤ) - f.pos))).1.data

/-- `add_oracles` from some point of its loop on. -/
def addFrom (zero : β) (opening closing : List β) (size : ℕ) (swp f : Fd β) (swpPos : ℕ)
    (it : List ItNode) : List β :=
  let (swp, f) := addLoop zero opening closing size swp f swpPos it
  finish zero size swp f

/-- `add_oracles`. -/
def addOracles (zero : β) (opening closing : List β) (it : List ItNode) (backing old : List β) :
    List β :=
  addFrom zero opening closing backing.length ⟨old, 0⟩ ⟨backing, 0⟩ 0 it

/-- `pull_swap_file`: its return value and what the swap path holds, `none` without a file.  The
flags are the outcomes of the lock and of the two `open`s. -/
def pullSwapFile (zero : β) (locked openBacking openSwap : Bool) (opening closing : List β)
    (it : List ItNode) (backing : List β) (old : Option (List β)) : ℤ × Option (List β) :=
  if locked && openBacking && openSwap then
    (0, some (addOracles zero opening closing it backing (old.getD [])))
  else (-1, old)

/-! ## What is due -/

/-- The file from `pos` on, with one pair of oracles for each interval. -/
def due (opening closing F : List β) : ℕ → List ItNode → List β
  | pos, [] => F.drop pos
  | pos, n :: ns =>
    let base := min n.base F.length
    let bound := min n.bound F.length
    F.slice pos base ++
      (opening ++ (F.slice base bound ++ (closing ++ due opening closing F bound ns)))

/-- From `swp_pos` on no interval but the last begins behind the end of the file, unless it does so
by more than `2 ^ 63` bytes; and the stretch in front of the first of them is shorter than that. -/
def Pulls (size : ℕ) : ℕ → List ItNode → Prop
  | _, [] => True
  | swpPos, n :: ns =>
    (size < n.base → (swpPos < size → n.base - swpPos < 2 ^ 63) ∧
      (ns = [] ∨ size + 2 ^ 63 < n.base)) ∧
      Pulls size n.bound ns

/-- The intervals ascend from `pos` on, in `size_t`. -/
def Rises : ℕ → List ItNode → Prop
  | _, [] => True
  | pos, n :: ns => pos ≤ n.base ∧ n.base ≤ n.bound ∧ n.bound < 2 ^ 64 ∧ Rises n.bound ns

theorem rises_of_separated : ∀ {it : List ItNode} {pos : ℕ}, Separated it →
    (∀ n ∈ it, n.bound < 2 ^ 64) → (∀ n ∈ it, pos ≤ n.base) → Rises pos it
  | [], _, _, _, _ => trivial
  | n :: ns, pos, h, hsize, hpos => by
    obtain ⟨hle, hgap, hs⟩ := separated_cons.1 h
    rw [List.forall_mem_cons] at hsize hpos
    exact ⟨hpos.1, hle, hsize.1, rises_of_separated hs hsize.2 fun m hm => (hgap m hm).le⟩

variable {zero : β} {opening closing F old w : List β} {it ns : List ItNode} {n : ItNode}
  {pos swpPos size : ℕ}

theorem length_due (opening closing : List β) (hpos : pos ≤ F.length) (h : Rises swpPos it)
    (hle : pos ≤ swpPos) :
    (due opening closing F pos it).length =
      F.length - pos + it.length * (opening.length + closing.length) := by
  induction it generalizing pos swpPos with
  | nil => simp [due]
  | cons n ns ih =>
      obtain ⟨h1, h2, -, h3⟩ := h
      have hrest := ih (Nat.min_le_right n.bound F.length) h3 (Nat.min_le_left _ _)
      simp only [due, List.length_append, List.length_cons, hrest, List.length_slice]
      rw [Nat.succ_mul]
      omega

/-! ## Transfers -/

theorem ssize_of_small {count : ℤ} (h : 0 ≤ count) (hlt : count < 2 ^ 63) :
    ssize count = count := by
  apply Int.bmod_eq_of_le
  · norm_num
    omega
  · norm_num
    omega

theorem ssize_of_large {count : ℤ} (h : 2 ^ 63 ≤ count) (hlt : count < 2 ^ 64) :
    ssize count < 0 := by
  unfold ssize
  rw [Int.bmod_def]
  norm_num
  omega

theorem ssize_of_negative {count : ℤ} (h : -2 ^ 63 ≤ count) (hlt : count < 0) :
    ssize count < 0 := by
  unfold ssize
  rw [Int.bmod_def]
  norm_num
  omega

theorem ssize_of_wrapped {count : ℤ} (h : -2 ^ 64 < count) (hlt : count < -2 ^ 63) :
    0 ≤ ssize count := by
  unfold ssize
  rw [Int.bmod_def]
  norm_num
  omega

/-- A transfer of `count` bytes, up to the end of the file. -/
theorem sendfile_upTo (zero : β) (old w : List β) {pos : ℕ} (hpos : pos ≤ F.length) {count : ℤ}
    (h : 0 ≤ count) :
    ∃ sent : ℤ, 0 ≤ sent ∧ sendfile zero true (Fd.wrote old w) ⟨F, pos⟩ count =
      (Fd.wrote old (w ++ F.slice pos (pos + count.toNat)),
        ⟨F, min (pos + count.toNat) F.length⟩, sent) := by
  refine ⟨((F.slice pos (pos + count.toNat)).length : ℤ), Int.natCast_nonneg _, ?_⟩
  have hend : pos + (F.slice pos (pos + count.toNat)).length =
      min (pos + count.toNat) F.length := by
    rw [List.length_slice]
    omega
  rw [sendfile_eq, if_neg (by simpa using h)]
  simp only [Fd.write_over, hend]

/-- The stretch in front of an interval that begins behind the end of the file. -/
theorem sendfile_gap (zero : β) (old w : List β) (hF : F.length < 2 ^ 63)
    (hpos : pos = min swpPos F.length) (hbase : F.length < n.base) (hle : swpPos ≤ n.base)
    (hsize : n.base < 2 ^ 64) (hnear : swpPos < F.length → n.base - swpPos < 2 ^ 63) :
    ∃ sent, sendfile zero true (Fd.wrote old w) ⟨F, pos⟩ (ssize ((n.base : ℤ) - swpPos)) =
      (Fd.wrote old (w ++ F.drop pos), ⟨F, F.length⟩, sent) := by
  by_cases hcount : n.base - swpPos < 2 ^ 63
  · rw [ssize_of_small (by omega) (by omega)]
    obtain ⟨sent, -, hrun⟩ := sendfile_upTo zero old w (show pos ≤ F.length by omega)
      (show 0 ≤ (n.base : ℤ) - swpPos by omega)
    have hend : F.length ≤ pos + ((n.base : ℤ) - swpPos).toNat := by omega
    refine ⟨sent, ?_⟩
    rw [hrun, Nat.min_eq_right hend, List.slice_eq_drop hend]
  · -- the count is negative, but there is nothing to carry
    have hstop : pos = F.length := by
      by_contra hne
      exact hcount (hnear (by omega))
    refine ⟨-1, ?_⟩
    rw [sendfile_fail zero (Or.inr (ssize_of_large (by omega) (by omega))), hstop, List.drop_length,
      List.append_nil]

/-! ## The loop -/

/-- A transfer only appends to what has been written. -/
theorem sendfile_extends (zero : β) (old w : List β) (f : Fd β) (count : ℤ) :
    ∃ more f' sent, sendfile zero true (Fd.wrote old w) f count =
      (Fd.wrote old (w ++ more), f', sent) := by
  rw [sendfile_eq]
  split
  · exact ⟨[], f, -1, by rw [List.append_nil]⟩
  · simp only [Fd.write_over]
    exact ⟨_, _, _, rfl⟩

/-- So does the loop. -/
theorem addLoop_extends (zero : β) (opening closing old : List β) (size : ℕ) (it : List ItNode)
    (swpPos : ℕ) (f : Fd β) (w : List β) :
    ∃ more f', addLoop zero opening closing size (Fd.wrote old w) f swpPos it =
      (Fd.wrote old (w ++ more), f') := by
  induction it generalizing swpPos f w with
  | nil => exact ⟨[], f, by rw [List.append_nil]; rfl⟩
  | cons n ns ih =>
      obtain ⟨gap, f1, s1, h1⟩ := sendfile_extends zero old w f (ssize ((n.base : ℤ) - swpPos))
      obtain ⟨text, f2, s2, h2⟩ := sendfile_extends zero old (w ++ gap ++ opening) f1
        (ssize (((if n.bound > size then size else n.bound : ℕ) : ℤ) - n.base))
      rw [addLoop]
      simp only [h1, Fd.write_over, h2]
      split
      · exact ⟨gap ++ opening ++ text ++ closing, f2, by simp only [List.append_assoc]⟩
      · obtain ⟨more, f', h⟩ := ih n.bound f2 (w ++ gap ++ opening ++ text ++ closing)
        exact ⟨gap ++ opening ++ text ++ closing ++ more, f', by
          rw [h]; simp only [List.append_assoc]⟩

/-- Without the stretch in front of an interval its opening oracle comes next. -/
theorem addLoop_opening (zero : β) (opening closing old w : List β) (size : ℕ) (f : Fd β)
    (ns : List ItNode) (h : ssize ((n.base : ℤ) - swpPos) < 0) :
    ∃ more f', addLoop zero opening closing size (Fd.wrote old w) f swpPos (n :: ns) =
      (Fd.wrote old (w ++ opening ++ more), f') := by
  obtain ⟨text, f', sent, htext⟩ := sendfile_extends zero old (w ++ opening) f
    (ssize (((if n.bound > size then size else n.bound : ℕ) : ℤ) - n.base))
  rw [addLoop, sendfile_fail zero (Or.inr h)]
  simp only [Fd.write_over, htext]
  split
  · exact ⟨text ++ closing, f', by simp only [List.append_assoc]⟩
  · obtain ⟨more, f'', hrest⟩ := addLoop_extends zero opening closing old size ns n.bound f'
      (w ++ opening ++ text ++ closing)
    exact ⟨text ++ closing ++ more, f'', by rw [hrest]; simp only [List.append_assoc]⟩

/-- What has been written is the whole file iff the previous content was no longer. -/
theorem data_wrote_eq_iff {w : List β} : (Fd.wrote old w).data = w ↔ old.length ≤ w.length := by
  rw [← List.drop_eq_nil_iff]
  exact List.append_right_eq_self

/-- The transfer of the rest, and what it leaves. -/
theorem finish_eq (zero : β) (old w : List β) (hF : F.length < 2 ^ 63) (hpos : pos ≤ F.length) :
    finish zero F.length (Fd.wrote old w) ⟨F, pos⟩ = (Fd.wrote old (w ++ F.drop pos)).data := by
  obtain ⟨sent, -, hrun⟩ := sendfile_upTo zero old w hpos
    (show 0 ≤ (F.length : ℤ) - pos by omega)
  have hend : F.length ≤ pos + ((F.length : ℤ) - pos).toNat := by omega
  rw [finish, ssize_of_small (by simp only; omega) (by simp only; omega), hrun,
    List.slice_eq_drop hend]

/-- What has been written in front of the last transfer stays there. -/
theorem finish_prefix (zero : β) (old w : List β) (size : ℕ) (f : Fd β) :
    w <+: finish zero size (Fd.wrote old w) f := by
  obtain ⟨more, f', sent, h⟩ := sendfile_extends zero old w f (ssize ((size : ℤ) - f.pos))
  rw [finish, h]
  exact ⟨more ++ old.drop (w ++ more).length, (List.append_assoc _ _ _).symm⟩

/-- The bytes of the opening oracle stand neither in the file nor in the previous content. -/
structure Fresh (opening F old : List β) : Prop where
  ne : opening ≠ []
  file : ∀ b ∈ opening, b ∉ F
  old : ∀ b ∈ opening, b ∉ old

namespace Fresh

/-- A text that begins with other bytes does not begin with the oracle. -/
theorem not_prefix {x z : List β} (h : opening ≠ []) (hx : ∀ b ∈ opening, b ∉ x) (hne : x ≠ []) :
    ¬ opening <+: x ++ z := by
  cases opening with
  | nil => exact absurd rfl h
  | cons b bs =>
      cases x with
      | nil => exact absurd rfl hne
      | cons c cs =>
          rintro ⟨y, hy⟩
          rw [List.cons_append, List.cons_append, List.cons.injEq] at hy
          exact hx b List.mem_cons_self (hy.1 ▸ List.mem_cons_self)

/-- What is left of the previous content is not the next pair of oracles. -/
theorem drop_ne_due (h : Fresh opening F old) (hbase : F.length ≤ n.base) (k : ℕ) :
    old.drop k ≠ due opening closing F F.length (n :: ns) := by
  intro heq
  have hpre : opening <+: old.drop k := by
    rw [heq, due, Nat.min_eq_right hbase, List.slice_self, List.nil_append]
    exact List.prefix_append _ _
  by_cases hnil : old.drop k = []
  · rw [hnil, List.prefix_nil] at hpre
    exact h.ne hpre
  · refine not_prefix (z := []) h.ne (fun b hb hmem => ?_) hnil ?_
    · exact h.old b hb (List.mem_of_mem_drop hmem)
    · rwa [List.append_nil]

/-- A stretch of the file that has not been carried is missed. -/
theorem not_prefix_due (h : Fresh opening F old) (hpos : pos < F.length)
    (hbase : F.length ≤ n.base) :
    ¬ opening <+: due opening closing F pos (n :: ns) := by
  rw [due, Nat.min_eq_right hbase, List.slice_length]
  refine not_prefix h.ne (fun b hb hmem => h.file b hb (List.mem_of_mem_drop hmem)) ?_
  rw [Ne, List.drop_eq_nil_iff, not_le]
  exact hpos

end Fresh

/-- An interval that begins inside the file: one round. -/
theorem addLoop_inside (hF : F.length < 2 ^ 63) (hbase : n.base ≤ F.length) (hle : swpPos ≤ n.base)
    (hn : n.base ≤ n.bound) :
    addLoop zero opening closing F.length (Fd.wrote old w) ⟨F, swpPos⟩ swpPos (n :: ns) =
      addLoop zero opening closing F.length
        (Fd.wrote old (w ++ (F.slice swpPos n.base ++ (opening ++
          (F.slice n.base (min n.bound F.length) ++ closing)))))
        ⟨F, min n.bound F.length⟩ n.bound ns := by
  have hadj : (if n.bound > F.length then F.length else n.bound) = min n.bound F.length := by
    split <;> omega
  rw [addLoop, hadj, ssize_of_small (by omega) (by omega),
    sendfile_over zero old w hle hbase]
  simp only [Fd.write_over]
  rw [ssize_of_small (by omega) (by omega),
    sendfile_over zero old _ (show n.base ≤ min n.bound F.length by omega) (Nat.min_le_right _ _)]
  simp only [Fd.write_over]
  rw [if_neg (by omega)]
  simp only [List.append_assoc]

/-- An interval that begins behind the end: the pair of oracles, and the loop ends unless the count
wraps. -/
theorem addLoop_behind (zero : β) (opening closing old w : List β) (ns : List ItNode)
    (hF : F.length < 2 ^ 63) (hpos : pos = min swpPos F.length) (hbase : F.length < n.base)
    (hle : swpPos ≤ n.base) (hn : n.base ≤ n.bound)
    (hsize : n.bound < 2 ^ 64) (hnear : swpPos < F.length → n.base - swpPos < 2 ^ 63) :
    addLoop zero opening closing F.length (Fd.wrote old w) ⟨F, pos⟩ swpPos (n :: ns) =
      let swp := Fd.wrote old (w ++ (F.drop pos ++ (opening ++ closing)))
      if F.length + 2 ^ 63 < n.base then
        addLoop zero opening closing F.length swp ⟨F, F.length⟩ n.bound ns
      else (swp, ⟨F, F.length⟩) := by
  obtain ⟨sent, hgap⟩ := sendfile_gap zero old w hF hpos hbase hle (by omega) hnear
  have hadj : (if n.bound > F.length then F.length else n.bound) = F.length := by
    split <;> omega
  rw [addLoop, hadj, hgap]
  simp only [Fd.write_over]
  by_cases hwrap : F.length + 2 ^ 63 < n.base
  · obtain ⟨sent', hsent, hrun⟩ := sendfile_upTo zero old (w ++ F.drop pos ++ opening)
      (Nat.le_refl F.length) (ssize_of_wrapped
        (show -2 ^ 64 < (F.length : ℤ) - n.base by omega) (by omega))
    rw [hrun, List.slice_eq_drop (by omega), List.drop_length, List.append_nil,
      Nat.min_eq_right (by omega)]
    simp only [Fd.write_over]
    rw [if_neg (by omega), if_pos hwrap]
    simp only [List.append_assoc]
  · have hneg := ssize_of_negative
      (show -2 ^ 63 ≤ (F.length : ℤ) - n.base by omega) (by omega)
    rw [sendfile_fail zero (Or.inr hneg), if_neg hwrap]
    simp only [Fd.write_over, List.append_assoc]
    rfl

/-- **The run from any point of the loop on.** -/
theorem addFrom_iff (zero : β) (closing w : List β) (hF : F.length < 2 ^ 63)
    (hfresh : Fresh opening F old) (hrise : Rises swpPos it) (hpos : pos = min swpPos F.length) :
    addFrom zero opening closing F.length (Fd.wrote old w) ⟨F, pos⟩ swpPos it =
        w ++ due opening closing F pos it ↔
      Pulls F.length swpPos it ∧ old.length ≤ (w ++ due opening closing F pos it).length := by
  induction it generalizing swpPos pos w with
  | nil =>
      simp only [addFrom, addLoop, due, Pulls, true_and]
      rw [finish_eq zero old w hF (by omega)]
      exact data_wrote_eq_iff
  | cons n ns ih =>
      obtain ⟨hle, hn, hsize, hrise⟩ := hrise
      by_cases hbase : n.base ≤ F.length
      · -- the interval begins inside the file
        obtain rfl : pos = swpPos := by omega
        have hdue : w ++ due opening closing F pos (n :: ns) =
            w ++ (F.slice pos n.base ++ (opening ++ (F.slice n.base (min n.bound F.length) ++
              closing))) ++ due opening closing F (min n.bound F.length) ns := by
          simp only [due, Nat.min_eq_left hbase, List.append_assoc]
        have hpulls : Pulls F.length pos (n :: ns) ↔ Pulls F.length n.bound ns := by
          rw [Pulls]
          exact and_iff_right fun hlt => absurd hbase (by omega)
        rw [addFrom, addLoop_inside hF hbase hle hn, hdue, hpulls]
        exact ih _ hrise rfl
      · rw [not_le] at hbase
        -- the interval begins behind the end
        have hdue : w ++ due opening closing F pos (n :: ns) =
            w ++ (F.drop pos ++ (opening ++ closing)) ++ due opening closing F F.length ns := by
          simp only [due, Nat.min_eq_right hbase.le, Nat.min_eq_right (hbase.le.trans hn),
            List.slice_length, List.drop_length, List.nil_append, List.append_assoc]
        by_cases hnear : swpPos < F.length → n.base - swpPos < 2 ^ 63
        · have hloop :=
            addLoop_behind zero opening closing old w ns hF hpos hbase hle hn hsize hnear
          rw [hdue]
          by_cases hwrap : F.length + 2 ^ 63 < n.base
          · -- the count wraps: the loop goes on at the end of the file
            have hpulls : Pulls F.length swpPos (n :: ns) ↔ Pulls F.length n.bound ns := by
              rw [Pulls]
              exact and_iff_right fun _ => ⟨hnear, Or.inr hwrap⟩
            simp only [if_pos hwrap] at hloop
            rw [addFrom, hloop, hpulls]
            exact ih _ hrise (by omega)
          · -- the loop ends here
            simp only [if_neg hwrap] at hloop
            rw [addFrom, hloop]
            simp only
            rw [finish_eq zero old _ hF (Nat.le_refl _), List.drop_length, List.append_nil]
            cases ns with
            | nil =>
                have hpulls : Pulls F.length swpPos [n] := ⟨fun _ => ⟨hnear, Or.inl rfl⟩, trivial⟩
                rw [due, List.drop_length, List.append_nil, and_iff_right hpulls]
                exact data_wrote_eq_iff
            | cons m ms =>
                have hpulls : ¬ Pulls F.length swpPos (n :: m :: ms) := fun h => by
                  rcases (h.1 hbase).2 with hnil | h'
                  · cases hnil
                  · exact hwrap h'
                refine ⟨fun heq => ?_, fun h => absurd h.1 hpulls⟩
                have hm : F.length ≤ m.base := (hbase.le.trans hn).trans hrise.1
                exact absurd (List.append_cancel_left heq) (hfresh.drop_ne_due hm _)
        · -- the stretch in front of the interval is not carried
          have hpulls : ¬ Pulls F.length swpPos (n :: ns) := fun h => hnear (h.1 hbase).1
          refine ⟨fun heq => ?_, fun h => absurd h.1 hpulls⟩
          rw [Classical.not_imp, not_lt] at hnear
          obtain ⟨more, f', hloop⟩ := addLoop_opening zero opening closing old w F.length
            ⟨F, pos⟩ ns (ssize_of_large (show 2 ^ 63 ≤ (n.base : ℤ) - swpPos by omega) (by omega))
          have hpre := finish_prefix zero old (w ++ opening ++ more) F.length f'
          rw [addFrom, hloop] at heq
          simp only at heq
          rw [heq, List.append_assoc, List.prefix_append_right_inj] at hpre
          exact absurd ((List.prefix_append _ _).trans hpre)
            (hfresh.not_prefix_due (by omega) hbase.le)

/-! ## The bytes -/

section Map

variable {γ : Type*} (f : β → γ)

theorem addLoop_map (zero : β) (opening closing : List β) (size : ℕ) (it : List ItNode)
    (swp fd : Fd β) (swpPos : ℕ) :
    addLoop (f zero) (opening.map f) (closing.map f) size (swp.map f) (fd.map f) swpPos it =
      ((addLoop zero opening closing size swp fd swpPos it).1.map f,
        (addLoop zero opening closing size swp fd swpPos it).2.map f) := by
  induction it generalizing swp fd swpPos with
  | nil => rfl
  | cons n ns ih =>
      rw [addLoop, addLoop]
      generalize (if n.bound > size then size else n.bound) = adjBound
      simp only [sendfile_map, Fd.write_map, ih]
      split <;> rfl

theorem due_map (opening closing F : List β) (it : List ItNode) (pos : ℕ) :
    due (opening.map f) (closing.map f) (F.map f) pos it =
      (due opening closing F pos it).map f := by
  induction it generalizing pos with
  | nil => simp only [due, List.map_drop]
  | cons n ns ih => simp only [due, ih, List.slice_map, List.map_append, List.length_map]

/-- **The copy does not look at the bytes.** -/
theorem pullSwapFile_map (zero : β) (opening closing F : List β) (it : List ItNode)
    (locked openBacking openSwap : Bool) (old : Option (List β)) :
    pullSwapFile (f zero) locked openBacking openSwap (opening.map f) (closing.map f) it (F.map f)
        (old.map (List.map f)) =
      ((pullSwapFile zero locked openBacking openSwap opening closing it F old).1,
        (pullSwapFile zero locked openBacking openSwap opening closing it F old).2.map
          (List.map f)) := by
  unfold pullSwapFile
  split
  · have hold : (old.map (List.map f)).getD [] = (old.getD []).map f := by cases old <;> rfl
    have hloop := addLoop_map f zero opening closing F.length it ⟨old.getD [], 0⟩ ⟨F, 0⟩ 0
    simp only [addOracles, addFrom, hold, List.length_map, Option.map_some, Prod.mk.injEq,
      Option.some.injEq, true_and]
    simp only [Fd.map] at hloop
    rw [hloop]
    simp only [finish]
    exact congrArg (fun r => r.1.data) (sendfile_map f zero true _ _ _)
  · rfl

end Map

/-- The stretches of the file in what is due are the file. -/
theorem due_filter (opening closing F : List β) {p : β → Bool}
    (hF : ∀ b ∈ F, p b = true) (ho : ∀ b ∈ opening, p b = false)
    (hc : ∀ b ∈ closing, p b = false) (hrise : Rises swpPos it) (hpos : pos = min swpPos F.length) :
    (due opening closing F pos it).filter p = F.drop pos := by
  have hslice : ∀ a b, (F.slice a b).filter p = F.slice a b := fun a b =>
    List.filter_eq_self.2 fun c hmem => hF c (List.mem_of_mem_take (List.mem_of_mem_drop hmem))
  have hnone : ∀ bs : List β, (∀ b ∈ bs, p b = false) → bs.filter p = [] := fun bs h =>
    List.filter_eq_nil_iff.2 fun b hb => by rw [h b hb]; decide
  induction it generalizing swpPos pos with
  | nil => exact List.filter_eq_self.2 fun b hb => hF b (List.mem_of_mem_drop hb)
  | cons n ns ih =>
      obtain ⟨hle, hn, -, hrise⟩ := hrise
      rw [due]
      simp only [List.filter_append, hslice, hnone opening ho, hnone closing hc, List.nil_append,
        ih hrise rfl]
      rw [← List.slice_length F (min n.bound F.length),
        List.slice_append_slice (by omega) (by omega),
        List.slice_append_slice (by omega) (by omega),
        List.slice_length]

/-! ## Where each byte comes from -/

/-- Where a byte of the swap file comes from: a position of the file, of an oracle or of the
previous content. -/
inductive Origin
  | file (i : ℕ)
  | opening (i : ℕ)
  | closing (i : ℕ)
  | previous (i : ℕ)
  deriving DecidableEq, Repr

/-- The bytes of a text, each with its origin. -/
def labelled (origin : ℕ → Origin) (bs : List Byte) : List (Byte × Origin) :=
  bs.zipIdx.map fun p => (p.1, origin p.2)

/-- `pull_swap_file` on labelled bytes. -/
def pullLabelled (locked openBacking openSwap : Bool) (o : Oracles) (it : List ItNode)
    (F : List Byte) (old : Option (List Byte)) : ℤ × Option (List (Byte × Origin)) :=
  pullSwapFile (nul, .previous 0) locked openBacking openSwap (labelled .opening o.opening)
    (labelled .closing o.closing) it (labelled .file F) (old.map (labelled .previous))

/-- A pull that returns 0 leaves the bytes of the file with the oracles at the ends of the
intervals, and nothing else. -/
def Placed (locked openBacking openSwap : Bool) (o : Oracles) (it : List ItNode) (F : List Byte)
    (old : Option (List Byte)) : Prop :=
  let out := pullLabelled locked openBacking openSwap o it F old
  out.1 = 0 → out.2 = some (due (labelled .opening o.opening) (labelled .closing o.closing)
    (labelled .file F) 0 it)

instance (locked openBacking openSwap : Bool) (o : Oracles) (it : List ItNode) (F : List Byte)
    (old : Option (List Byte)) : Decidable (Placed locked openBacking openSwap o it F old) := by
  unfold Placed
  infer_instance

theorem length_labelled (origin : ℕ → Origin) (bs : List Byte) :
    (labelled origin bs).length = bs.length := by
  simp [labelled]

theorem labelled_bytes (origin : ℕ → Origin) (bs : List Byte) :
    (labelled origin bs).map Prod.fst = bs := by
  simp [labelled, Function.comp_def]

theorem exists_of_mem_labelled {origin : ℕ → Origin} {bs : List Byte} {c : Byte × Origin}
    (h : c ∈ labelled origin bs) : ∃ i, c.2 = origin i := by
  obtain ⟨p, -, rfl⟩ := List.mem_map.1 h
  exact ⟨p.2, rfl⟩

theorem fresh_labelled {opening : List Byte} (F old : List Byte) (h : opening ≠ []) :
    Fresh (labelled .opening opening) (labelled .file F) (labelled .previous old) where
  ne hnil := h (by rw [← labelled_bytes .opening opening, hnil, List.map_nil])
  file c hc hc' := by
    obtain ⟨i, hi⟩ := exists_of_mem_labelled hc
    obtain ⟨j, hj⟩ := exists_of_mem_labelled hc'
    rw [hi] at hj
    cases hj
  old c hc hc' := by
    obtain ⟨i, hi⟩ := exists_of_mem_labelled hc
    obtain ⟨j, hj⟩ := exists_of_mem_labelled hc'
    rw [hi] at hj
    cases hj

/-- **What is due byte for byte is what the swap file holds.** -/
theorem placed_bytes {o : Oracles} {F : List Byte} {old : Option (List Byte)}
    (h : Placed true true true o it F old) :
    pullSwapFile nul true true true o.opening o.closing it F old =
      (0, some (due o.opening o.closing F 0 it)) := by
  have hold : (old.map (labelled .previous)).map (List.map Prod.fst) = old := by
    cases old with
    | none => rfl
    | some bs => exact congrArg some (labelled_bytes _ _)
  have hmap := pullSwapFile_map Prod.fst (nul, Origin.previous 0) (labelled .opening o.opening)
    (labelled .closing o.closing) (labelled .file F) it true true true
    (old.map (labelled .previous))
  have hdue := due_map Prod.fst (labelled .opening o.opening) (labelled .closing o.closing)
    (labelled .file F) it 0
  simp only [labelled_bytes, hold] at hmap hdue
  have hret : (pullLabelled true true true o it F old).1 = 0 := rfl
  rw [hmap, hdue]
  exact Prod.ext_iff.2 ⟨rfl, congrArg (Option.map (List.map Prod.fst)) (h hret)⟩

/-- **Deleting the inserted oracles gives back the file.** -/
theorem due_delete (o : Oracles) (F : List Byte) (hrise : Rises 0 it) :
    ((due (labelled .opening o.opening) (labelled .closing o.closing) (labelled .file F) 0
      it).filter
      fun c => c.2 matches .file _) = labelled .file F := by
  have hrun := due_filter (labelled .opening o.opening) (labelled .closing o.closing)
    (labelled .file F) (p := fun c : Byte × Origin => c.2 matches .file _) ?_ ?_ ?_ hrise
    (Nat.zero_min _).symm
  · rw [hrun, List.drop_zero]
  · intro c hmem
    obtain ⟨i, hi⟩ := exists_of_mem_labelled hmem
    simp only [hi]
  · intro c hmem
    obtain ⟨i, hi⟩ := exists_of_mem_labelled hmem
    simp only [hi]
  · intro c hmem
    obtain ⟨i, hi⟩ := exists_of_mem_labelled hmem
    simp only [hi]

/-- **The swap file holds what is due iff no interval but the last begins behind the end of the file
and the previous content was no longer.** -/
theorem placed_iff {o : Oracles} {it : List ItNode} {F : List Byte} {old : Option (List Byte)}
    {locked openBacking openSwap : Bool} (ho : o.opening ≠ []) (hF : F.length < 2 ^ 63)
    (hit : Separated it) (hsize : ∀ n ∈ it, n.bound < 2 ^ 64) :
    Placed locked openBacking openSwap o it F old ↔
      (locked && openBacking && openSwap) = false ∨ Pulls F.length 0 it ∧
        (old.getD []).length ≤ F.length + it.length * (o.opening.length + o.closing.length) := by
  have hrise := rises_of_separated hit hsize fun _ _ => Nat.zero_le _
  have hrun := addFrom_iff (nul, Origin.previous 0) (labelled .closing o.closing) []
    (by rwa [length_labelled]) (fresh_labelled F (old.getD []) ho) hrise
    (Nat.zero_min _).symm
  have hlen := length_due (labelled .opening o.opening) (labelled .closing o.closing)
    (F := labelled .file F) (Nat.zero_le _) hrise
    (Nat.le_refl 0)
  simp only [length_labelled, Nat.sub_zero] at hlen
  simp only [List.nil_append, hlen, length_labelled, Fd.wrote_nil] at hrun
  have hold : (old.map (labelled .previous)).getD [] = labelled .previous (old.getD []) := by
    cases old <;> rfl
  unfold Placed pullLabelled pullSwapFile
  cases hok : locked && openBacking && openSwap with
  | false => simp
  | true =>
      simp only [if_true, forall_const, Option.some.injEq, hold, addOracles, Bool.true_eq_false,
        false_or, length_labelled]
      exact hrun

/-- A file that ends in front of the last interval. -/
theorem placed_iff_past :
    Separated [⟨1, 1, 2⟩, ⟨2, 5, 9⟩] ∧
      (Placed true true true ⟨[60], [62]⟩ [⟨1, 1, 2⟩, ⟨2, 5, 9⟩] [97, 98, 99] none ↔
        (true && true && true) = false ∨ Pulls 3 0 [⟨1, 1, 2⟩, ⟨2, 5, 9⟩] ∧
        0 ≤ 3 + 2 * (1 + 1)) := by
  have hit : Separated [⟨1, 1, 2⟩, ⟨2, 5, 9⟩] := ⟨by decide, by decide⟩
  exact ⟨hit, placed_iff (by decide) (by decide) hit (by decide)⟩

/-- Two intervals behind the end of the file: the second one gets no oracles. -/
theorem pull_drops_pair :
    pullSwapFile nul true true true [60] [62] [⟨1, 5, 6⟩, ⟨2, 8, 9⟩] [97, 98] none =
        (0, some [97, 98, 60, 62]) ∧
      due [60] [62] [97, 98] 0 [⟨1, 5, 6⟩, ⟨2, 8, 9⟩] = ([97, 98, 60, 62, 60, 62] : List Byte) ∧
      ¬ Placed true true true ⟨[60], [62]⟩ [⟨1, 5, 6⟩, ⟨2, 8, 9⟩] [97, 98] none := by
  decide

/-- A longer swap file has been left there: its end stays. -/
theorem pull_keeps_leftover :
    pullSwapFile nul true true true [60] [62] [⟨1, 0, 1⟩] [97] (some [120, 120, 120, 120]) =
        (0, some [60, 97, 62, 120]) ∧
      ¬ Placed true true true ⟨[60], [62]⟩ [⟨1, 0, 1⟩] [97] (some [120, 120, 120, 120]) := by
  decide

/-! ## Positions below `2 ^ 63` -/

/-- There the counts are the differences, as `Yacet.addOracles` has them. -/
theorem addLoop_exact (o : Oracles) (hsize : size < 2 ^ 63) (hit : ∀ n ∈ it, n.base < 2 ^ 63)
    (hpos : swpPos < 2 ^ 63) (hbound : ∀ n ∈ it, n.bound < 2 ^ 63) (swp f : Fd Byte) :
    addLoop nul o.opening o.closing size swp f swpPos it =
      Yacet.addLoop o size swp f swpPos it := by
  have hexact : ∀ a b : ℕ, a < 2 ^ 63 → b < 2 ^ 63 → ssize ((a : ℤ) - b) = (a : ℤ) - b := by
    intro a b ha hb
    apply Int.bmod_eq_of_le
    · norm_num
      omega
    · norm_num
      omega
  induction it generalizing swpPos swp f with
  | nil => rfl
  | cons n ns ih =>
      rw [List.forall_mem_cons] at hit hbound
      have hadj : (if n.bound > size then size else n.bound) < 2 ^ 63 := by
        split
        · exact hsize
        · exact hbound.1
      rw [addLoop, Yacet.addLoop, hexact _ _ hit.1 hpos, hexact _ _ hadj hit.1]
      simp only [ih hit.2 hbound.1 hbound.2]

/-- A transfer leaves the offset inside the file. -/
theorem sendfile_pos (zero : β) (ok : Bool) (swp f : Fd β) (count : ℤ) (h : f.pos ≤ f.data.length) :
    (sendfile zero ok swp f count).2.1.data = f.data ∧
      (sendfile zero ok swp f count).2.1.pos ≤ f.data.length := by
  rw [sendfile_eq]
  split
  · exact ⟨rfl, h⟩
  · refine ⟨rfl, ?_⟩
    simp only [List.length_slice]
    omega

theorem addLoop_pos (zero : β) (opening closing : List β) (size swpPos : ℕ) (it : List ItNode)
    (swp f : Fd β) (h : f.pos ≤ f.data.length) :
    (addLoop zero opening closing size swp f swpPos it).2.pos ≤ f.data.length := by
  induction it generalizing swp f swpPos with
  | nil => exact h
  | cons n ns ih =>
      rw [addLoop]
      generalize (if n.bound > size then size else n.bound) = adjBound
      obtain ⟨hdata, hpos⟩ := sendfile_pos zero true swp f (ssize ((n.base : ℤ) - swpPos)) h
      rw [← hdata] at hpos ⊢
      obtain ⟨hdata', hpos'⟩ := sendfile_pos zero true
        ((sendfile zero true swp f (ssize ((n.base : ℤ) - swpPos))).1.write zero opening) _
        (ssize ((adjBound : ℤ) - n.base)) hpos
      simp only
      split
      · exact hpos'
      · rw [← hdata'] at hpos' ⊢
        exact ih _ _ _ hpos'

/-- **With positions below `2 ^ 63` a pull writes what `Yacet.addOracles` does.** -/
theorem addOracles_exact {F old : List Byte} (o : Oracles) (hF : F.length < 2 ^ 63)
    (hit : ∀ n ∈ it, n.base < 2 ^ 63 ∧ n.bound < 2 ^ 63) :
    addOracles nul o.opening o.closing it F old = Yacet.addOracles o it F old := by
  have hloop := addLoop_exact o hF (fun n hn => (hit n hn).1) (show 0 < 2 ^ 63 by norm_num)
    (fun n hn => (hit n hn).2) ⟨old, 0⟩ ⟨F, 0⟩
  have hpos := addLoop_pos nul o.opening o.closing F.length 0 it ⟨old, 0⟩ ⟨F, 0⟩ (Nat.zero_le _)
  rw [hloop] at hpos
  simp only at hpos
  rw [addOracles, addFrom, hloop, Yacet.addOracles]
  simp only [finish]
  rw [ssize_of_small (by omega) (by omega)]
  rfl

end SwapPull

end Yacet
