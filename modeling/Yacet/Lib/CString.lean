import Mathlib.Data.List.TakeWhile
import Mathlib.Tactic

/-!
# C strings, lines and substring search

`strstr` and `getline` over byte lists: a C string ends at its first NUL, a line ends behind its
newline.

* `findSub_some_iff` — `findSub` returns the first position at which the needle occurs.
* `lines_flatten` — the lines of a text are a cut of it.
* `scan_some` — what the line-by-line scan `scan` finds is an occurrence.
* `scan_first` — **the scan finds the first occurrence iff no NUL stands before it in its line.**
-/

namespace CString

variable {β : Type*} [DecidableEq β]

/-- The needle occurs in `s` at position `p`. -/
def OccursAt (needle s : List β) (p : ℕ) : Prop := needle <+: s.drop p

instance (needle s : List β) (p : ℕ) : Decidable (OccursAt needle s p) :=
  inferInstanceAs (Decidable (needle <+: s.drop p))

/-- First position of the needle. -/
def findSub (needle : List β) : List β → Option ℕ
  | [] => if needle = [] then some 0 else none
  | b :: bs => if needle.isPrefixOf (b :: bs) then some 0 else (findSub needle bs).map (· + 1)

theorem findSub_some {needle : List β} :
    ∀ {s : List β} {p : ℕ}, findSub needle s = some p →
      OccursAt needle s p ∧ ∀ q < p, ¬ OccursAt needle s q
  | [], p, h => by
    simp only [findSub] at h
    split at h
    · rename_i hn
      cases h; subst hn
      exact ⟨by simp [OccursAt], fun q hq => by omega⟩
    · cases h
  | b :: bs, p, h => by
    simp only [findSub] at h
    split at h
    · rename_i hn
      cases h
      exact ⟨by simpa [OccursAt] using hn, fun q hq => by omega⟩
    · rename_i hn
      rw [Option.map_eq_some_iff] at h
      obtain ⟨p', hp', rfl⟩ := h
      obtain ⟨h1, h2⟩ := findSub_some hp'
      refine ⟨by simpa [OccursAt] using h1, fun q hq => ?_⟩
      cases q with
      | zero => simpa [OccursAt] using hn
      | succ q => simpa [OccursAt] using h2 q (by omega)

theorem findSub_none {needle : List β} :
    ∀ {s : List β}, findSub needle s = none → ∀ p, ¬ OccursAt needle s p
  | [], h, p => by
    simp only [findSub] at h
    split at h
    · cases h
    · rename_i hn
      simpa [OccursAt] using hn
  | b :: bs, h, p => by
    simp only [findSub] at h
    split at h
    · cases h
    · rename_i hn
      rw [Option.map_eq_none_iff] at h
      cases p with
      | zero => simpa [OccursAt] using hn
      | succ p => simpa [OccursAt] using findSub_none h p

/-- **`findSub` returns exactly the first occurrence.** -/
theorem findSub_some_iff {needle s : List β} {p : ℕ} :
    findSub needle s = some p ↔ OccursAt needle s p ∧ ∀ q < p, ¬ OccursAt needle s q := by
  refine ⟨findSub_some, fun ⟨h1, h2⟩ => ?_⟩
  cases h : findSub needle s with
  | none => exact absurd h1 (findSub_none h p)
  | some q =>
      obtain ⟨h3, h4⟩ := findSub_some h
      rcases Nat.lt_trichotomy p q with hlt | rfl | hlt
      · exact absurd h1 (h4 p hlt)
      · rfl
      · exact absurd h3 (h2 q hlt)

/-- The C string stored in a buffer: everything before the first NUL. -/
def cstr (nul : β) (s : List β) : List β := s.takeWhile (· ≠ nul)

/-- `strstr(haystack, needle)` as an index into the haystack. -/
def strstr (nul : β) (needle haystack : List β) : Option ℕ := findSub needle (cstr nul haystack)

theorem cstr_isPrefix (nul : β) (s : List β) : cstr nul s <+: s := List.takeWhile_prefix _

theorem cstr_append_of_notMem {nul : β} {s t : List β} (h : nul ∉ s) :
    cstr nul (s ++ t) = s ++ cstr nul t := by
  unfold cstr
  rw [List.takeWhile_append_of_pos]
  intro b hb
  simp only [decide_eq_true_eq]
  rintro rfl
  exact h hb

theorem cstr_append_of_mem {nul : β} {s t : List β} (h : nul ∈ s) :
    cstr nul (s ++ t) = cstr nul s := by
  induction s with
  | nil => cases h
  | cons b s ih =>
      unfold cstr at ih ⊢
      rw [List.cons_append, List.takeWhile_cons, List.takeWhile_cons]
      split
      · rename_i hb
        have hs : nul ∈ s := by
          simp only [decide_eq_true_eq] at hb
          exact (List.mem_cons.1 h).resolve_left fun e => hb e.symm
        rw [ih hs]
      · rfl

section Occurrences

omit [DecidableEq β]

theorem OccursAt.mono {needle s t : List β} {p : ℕ} (h : OccursAt needle s p) (hst : s <+: t) :
    OccursAt needle t p := by
  obtain ⟨r, rfl⟩ := hst
  obtain ⟨u, hu⟩ := h
  by_cases hp : p ≤ s.length
  · exact ⟨u ++ r, by rw [List.drop_append_of_le_length hp, ← hu, List.append_assoc]⟩
  · rw [List.drop_eq_nil_of_le (by omega), List.append_eq_nil_iff] at hu
    rw [OccursAt, hu.1]
    exact List.nil_prefix

theorem OccursAt.append_left {needle s : List β} {p : ℕ} (h : OccursAt needle s p) (t : List β) :
    OccursAt needle (t ++ s) (t.length + p) := by
  rw [OccursAt, List.drop_length_add_append]
  exact h

theorem OccursAt.of_drop {needle s : List β} {a p : ℕ} (h : OccursAt needle (s.drop a) p) :
    OccursAt needle s (a + p) := by
  rw [OccursAt, List.drop_drop] at h
  exact h

theorem OccursAt.end_le {needle s : List β} {p : ℕ} (h : OccursAt needle s p) (hn : needle ≠ []) :
    p + needle.length ≤ s.length := by
  have h1 := List.IsPrefix.length_le h
  have h2 := List.length_pos_iff.2 hn
  rw [List.length_drop] at h1
  omega

theorem occursAt_append (needle s t : List β) : OccursAt needle (s ++ (needle ++ t)) s.length := by
  rw [OccursAt, List.drop_left]
  exact List.prefix_append _ _

end Occurrences

/-! ## Lines -/

/-- `getline` until the end of the file: every line keeps its newline. -/
def lines (nl : β) : List β → List (List β)
  | [] => []
  | b :: bs =>
    if b = nl then [b] :: lines nl bs
    else
      match lines nl bs with
      | [] => [[b]]
      | l :: ls => (b :: l) :: ls

theorem lines_flatten (nl : β) : ∀ s : List β, (lines nl s).flatten = s
  | [] => rfl
  | b :: bs => by
    have ih := lines_flatten nl bs
    simp only [lines]
    split
    · rw [List.flatten_cons, ih]; rfl
    · split
      · rename_i h
        rw [h] at ih
        simp at ih
        simp [← ih]
      · rename_i l ls h
        rw [h, List.flatten_cons] at ih
        rw [List.flatten_cons, List.cons_append, ih]

theorem lines_ne_nil {nl : β} {s : List β} (h : s ≠ []) : lines nl s ≠ [] := fun h0 => by
  have := lines_flatten nl s
  rw [h0] at this
  exact h this.symm

/-- Behind a newline a new line begins. -/
theorem lines_append_newline (nl : β) (s t : List β) :
    lines nl (s ++ [nl] ++ t) = lines nl (s ++ [nl]) ++ lines nl t := by
  induction s with
  | nil => simp [lines]
  | cons b s ih =>
      simp only [List.cons_append, lines]
      split
      · rw [ih, List.cons_append]
      · rw [ih]
        cases hs : lines nl (s ++ [nl]) with
        | nil => exact absurd hs (lines_ne_nil (by simp))
        | cons l ls => rfl

/-- **Lines that have been written come back.** -/
theorem lines_written {nl : β} {ls : List (List β)} (h : ∀ l ∈ ls, nl ∉ l) :
    lines nl (ls.flatMap (· ++ [nl])) = ls.map (· ++ [nl]) := by
  have hone : ∀ {l : List β}, nl ∉ l → lines nl (l ++ [nl]) = [l ++ [nl]] := by
    intro l hl
    induction l with
    | nil => simp [lines]
    | cons b l ih =>
        rw [List.mem_cons, not_or] at hl
        rw [List.cons_append, lines, if_neg (Ne.symm hl.1), ih hl.2]
  induction ls with
  | nil => rfl
  | cons l ls ih =>
      rw [List.flatMap_cons, lines_append_newline, hone (h l List.mem_cons_self),
        ih fun m hm => h m (List.mem_cons_of_mem _ hm)]
      rfl

/-- A stretch without newline begins one line. -/
theorem lines_append_of_notMem {nl : β} {w : List β} (hw : nl ∉ w) (hne : w ≠ []) (r : List β) :
    ∃ x ls, lines nl (w ++ r) = (w ++ x) :: ls ∧ x ++ ls.flatten = r := by
  induction w with
  | nil => exact absurd rfl hne
  | cons b w ih =>
      rw [List.mem_cons, not_or] at hw
      have hb : b ≠ nl := fun e => hw.1 e.symm
      simp only [List.cons_append, lines, if_neg hb]
      cases w with
      | nil =>
          have hfl := lines_flatten nl r
          cases hr : lines nl r with
          | nil =>
              rw [hr] at hfl
              exact ⟨[], [], by rw [List.nil_append, hr]; rfl, hfl⟩
          | cons l ls =>
              rw [hr, List.flatten_cons] at hfl
              exact ⟨l, ls, by rw [List.nil_append, hr]; rfl, hfl⟩
      | cons b' w =>
          obtain ⟨x, ls, h1, h2⟩ := ih hw.2 (List.cons_ne_nil _ _)
          exact ⟨x, ls, by rw [h1, List.cons_append], h2⟩

/-- The part of a text behind its last newline. -/
def lastLine (nl : β) (s : List β) : List β := (s.reverse.takeWhile (· ≠ nl)).reverse

theorem nl_notMem_lastLine (nl : β) (s : List β) : nl ∉ lastLine nl s := fun h => by
  rw [lastLine, List.mem_reverse] at h
  simpa using List.mem_takeWhile_imp h

/-- A text is a stretch of whole lines followed by its last line. -/
theorem exists_eq_append_lastLine (nl : β) (s : List β) :
    ∃ u, s = u ++ lastLine nl s ∧ (u = [] ∨ ∃ u', u = u' ++ [nl]) := by
  refine ⟨(s.reverse.dropWhile (· ≠ nl)).reverse, ?_, ?_⟩
  · rw [lastLine, ← List.reverse_append, List.takeWhile_append_dropWhile, List.reverse_reverse]
  · cases h : s.reverse.dropWhile (· ≠ nl) with
    | nil => exact Or.inl rfl
    | cons b bs =>
        have hb : b = nl := by
          have hne : s.reverse.dropWhile (· ≠ nl) ≠ [] := by rw [h]; exact List.cons_ne_nil _ _
          have hhead := List.head_dropWhile_not _ hne
          simp only [h, List.head_cons] at hhead
          simpa using hhead
        exact Or.inr ⟨bs.reverse, by rw [hb, List.reverse_cons]⟩

theorem lines_append_lastLine (nl : β) {u : List β} (hu : u = [] ∨ ∃ u', u = u' ++ [nl])
    (t : List β) : lines nl (u ++ t) = lines nl u ++ lines nl t := by
  rcases hu with rfl | ⟨u', rfl⟩
  · rfl
  · exact lines_append_newline nl u' t

/-! ## Scanning the lines -/

/-- Look for the needle in one line after the other; `at` is where the next line begins. -/
def scanLines (nul : β) (needle : List β) : List (List β) → ℕ → Option ℕ
  | [], _ => none
  | l :: ls, at_ =>
    match strstr nul needle l with
    | some k => some (at_ + k)
    | none => scanLines nul needle ls (at_ + l.length)

/-- Scan a text from offset `off` on, as `fseek`, `getline` and `strstr` do. -/
def scan (nl nul : β) (needle text : List β) (off : ℕ) : Option ℕ :=
  scanLines nul needle (lines nl (text.drop off)) off

theorem scanLines_some {nul : β} {needle : List β} :
    ∀ {ls : List (List β)} {a p : ℕ}, scanLines nul needle ls a = some p →
      ∃ k, p = a + k ∧ OccursAt needle ls.flatten k
  | [], _, _, h => by cases h
  | l :: ls, a, p, h => by
    simp only [scanLines] at h
    split at h
    · rename_i k hk
      cases h
      refine ⟨k, rfl, ?_⟩
      rw [List.flatten_cons]
      exact ((findSub_some hk).1.mono (cstr_isPrefix nul l)).mono (List.prefix_append _ _)
    · obtain ⟨k, rfl, hk⟩ := scanLines_some h
      exact ⟨l.length + k, by omega, by rw [List.flatten_cons]; exact hk.append_left l⟩

/-- **What the scan finds is an occurrence at or behind the offset.** -/
theorem scan_some {nl nul : β} {needle text : List β} {off p : ℕ}
    (h : scan nl nul needle text off = some p) : off ≤ p ∧ OccursAt needle text p := by
  obtain ⟨k, rfl, hk⟩ := scanLines_some h
  rw [lines_flatten] at hk
  exact ⟨Nat.le_add_right _ _, hk.of_drop⟩

/-- Lines in which the needle does not occur are skipped. -/
theorem scanLines_append_of_none {nul : β} {needle : List β} {ls : List (List β)}
    (h : ∀ k, ¬ OccursAt needle ls.flatten k) (ls' : List (List β)) (a : ℕ) :
    scanLines nul needle (ls ++ ls') a = scanLines nul needle ls' (a + ls.flatten.length) := by
  induction ls generalizing a with
  | nil => rfl
  | cons l ls ih =>
      rw [List.cons_append, scanLines]
      rw [List.flatten_cons] at h
      split
      · rename_i k hk
        exact absurd (((findSub_some hk).1.mono (cstr_isPrefix nul l)).mono
          (List.prefix_append _ _)) (h k)
      · rw [ih fun k hk => h _ (hk.append_left l), List.flatten_cons, List.length_append,
          Nat.add_assoc]

/-- **The scan finds the first occurrence iff no NUL stands before it in its line.** -/
theorem scan_first {nl nul : β} {needle text seg rest : List β} {off : ℕ}
    (htext : text.drop off = seg ++ (needle ++ rest)) (hne : needle ≠ []) (hnl : nl ∉ needle)
    (hnul : nul ∉ needle) (hfirst : ∀ k < seg.length, ¬ OccursAt needle (text.drop off) k) :
    scan nl nul needle text off = some (off + seg.length) ↔ nul ∉ lastLine nl seg := by
  obtain ⟨u, hu, hend⟩ := exists_eq_append_lastLine nl seg
  have hlen : seg.length = u.length + (lastLine nl seg).length := by
    conv_lhs => rw [hu]
    exact List.length_append
  have hw : nl ∉ lastLine nl seg ++ needle := by
    rw [List.mem_append, not_or]; exact ⟨nl_notMem_lastLine nl seg, hnl⟩
  generalize lastLine nl seg = w at hu hlen hw ⊢
  have htext' : text.drop off = u ++ ((w ++ needle) ++ rest) := by
    rw [htext, hu]; simp only [List.append_assoc]
  obtain ⟨x, ls, hls, hx⟩ := lines_append_of_notMem hw (by simp [hne]) rest
  -- no line in front of the one with the first occurrence contains the needle
  have hnone : ∀ k, ¬ OccursAt needle (lines nl u).flatten k := fun k hk => by
    rw [lines_flatten] at hk
    have h1 := hk.end_le hne
    have h2 := List.length_pos_iff.2 hne
    refine hfirst k (by omega) ?_
    rw [htext']
    exact hk.mono (List.prefix_append _ _)
  have hscan : scan nl nul needle text off =
      scanLines nul needle ((w ++ needle ++ x) :: ls) (off + u.length) := by
    rw [scan, htext', lines_append_lastLine nl hend, hls, scanLines_append_of_none hnone,
      lines_flatten]
  have hocc : ∀ k, OccursAt needle (w ++ needle ++ x) k →
      OccursAt needle (text.drop off) (u.length + k) := fun k hk => by
    rw [htext', ← hx, ← List.append_assoc (w ++ needle)]
    exact (hk.mono (List.prefix_append _ _)).append_left u
  rw [hscan, scanLines]
  by_cases hw0 : nul ∈ w
  · -- the C string of that line ends before the occurrence
    have hs : strstr nul needle (w ++ needle ++ x) = none := by
      cases hs : strstr nul needle (w ++ needle ++ x) with
      | none => rfl
      | some k =>
          rw [strstr, List.append_assoc, cstr_append_of_mem hw0] at hs
          have h1 := (findSub_some hs).1
          have h2 := h1.end_le hne
          have h3 := (cstr_isPrefix nul w).length_le
          have h4 := List.length_pos_iff.2 hne
          have h5 := (h1.mono (cstr_isPrefix nul w)).mono (List.prefix_append w (needle ++ x))
          rw [← List.append_assoc] at h5
          exact absurd (hocc k h5) (hfirst _ (by omega))
    rw [hs]
    refine ⟨fun h => ?_, fun h => absurd hw0 h⟩
    obtain ⟨k, hk, _⟩ := scanLines_some h
    simp only [List.length_append] at hk
    have := List.length_pos_iff.2 hne
    omega
  · have hs : strstr nul needle (w ++ needle ++ x) = some w.length := by
      have hc : cstr nul (w ++ needle ++ x) = w ++ (needle ++ cstr nul x) := by
        rw [cstr_append_of_notMem (by simp [hw0, hnul]), List.append_assoc]
      rw [strstr, hc, findSub_some_iff]
      refine ⟨occursAt_append _ _ _, fun q hq h => ?_⟩
      refine hfirst (u.length + q) (by omega) (hocc q ?_)
      rw [← hc] at h
      exact h.mono (cstr_isPrefix nul _)
    rw [hs]
    exact ⟨fun _ => hw0, fun _ => by simp only; rw [hlen, Nat.add_assoc]⟩

end CString
