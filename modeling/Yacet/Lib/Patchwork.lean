import Mathlib.Data.List.Basic
import Mathlib.Logic.Function.Basic
import Mathlib.Tactic

/-!
# Patchworks: a text cut into fixed gaps and replaceable patches

A patchwork is the text `g 0 ++ τ 0 ++ g 1 ++ τ 1 ++ … ++ g n`.  The gaps `g` never change; an
edit replaces one patch `τ i`, which is `Function.update τ i c`.  Everything that happens to a
position of the text when patches grow and shrink is read off this picture:

* `Mark` — a position named by the gap it lies in and its offset there; `Mark.pos` is its value in
  the current text.  `pos_update_of_le` and `pos_update_of_lt` say how one edit moves it.
* `pos_le_start` / `stop_le_pos` — a mark never lies strictly inside a patch.
* `flat_slice_patch`, `flat_slice_gap` — the text between two marks.
* `lead_eq_append_between` / `between_congr` — the stretch of text between two gaps, unchanged as
  long as the patches in it are.
* `cut_flat` — every text with an ascending family of spans is the patchwork of its cut.
* `replaceSpans` — a text with some of its spans replaced; `replaceSpans_flat` says that replacing
  the patches of a patchwork gives the patchwork of the new patches.
-/

/-- The elements of `l` from position `a` up to but not including position `b`. -/
def List.slice {α : Type*} (l : List α) (a b : ℕ) : List α := (l.take b).drop a

namespace List

variable {α : Type*}

theorem drop_take_eq_slice (l : List α) (a k : ℕ) : (l.drop a).take k = l.slice a (a + k) := by
  rw [slice, List.take_drop]

theorem length_slice (l : List α) (a b : ℕ) : (l.slice a b).length = min b l.length - a := by
  simp [slice]

theorem length_slice_of_le {l : List α} {a b : ℕ} (hb : b ≤ l.length) :
    (l.slice a b).length = b - a := by
  rw [length_slice, Nat.min_eq_left hb]

theorem slice_self (l : List α) (a : ℕ) : l.slice a a = [] := by
  rw [slice, List.drop_eq_nil_iff, List.length_take]
  omega

theorem slice_length (l : List α) (a : ℕ) : l.slice a l.length = l.drop a := by
  rw [slice, List.take_length]

theorem slice_eq_drop {l : List α} {a b : ℕ} (hb : l.length ≤ b) : l.slice a b = l.drop a := by
  rw [slice, List.take_of_length_le hb]

theorem slice_map {γ : Type*} (f : α → γ) (l : List α) (a b : ℕ) :
    (l.map f).slice a b = (l.slice a b).map f := by
  rw [slice, slice, List.map_drop, List.map_take]

theorem take_append_slice {l : List α} {a b : ℕ} (h : a ≤ b) :
    l.take a ++ l.slice a b = l.take b := by
  have : (l.take b).take a = l.take a := by rw [List.take_take, Nat.min_eq_left h]
  rw [slice, ← this, List.take_append_drop]

theorem slice_append_slice {l : List α} {a b c : ℕ} (hab : a ≤ b) (hbc : b ≤ c) :
    l.slice a b ++ l.slice b c = l.slice a c := by
  by_cases hl : a ≤ l.length
  · have h : l.slice a c = (l.take b ++ l.slice b c).drop a := by rw [take_append_slice hbc, slice]
    rw [h, List.drop_append_of_le_length (by simp; omega), slice]
  · have h : ∀ k m, a ≤ k → l.slice k m = [] := fun k m hk => by
      rw [slice, List.drop_eq_nil_iff, List.length_take]; omega
    rw [h a b (Nat.le_refl a), h b c hab, h a c (Nat.le_refl a)]
    rfl

/-- A slice that falls into the middle part of a text. -/
theorem slice_middle (p m r : List α) {a b : ℕ} (hb : b ≤ m.length) :
    (p ++ (m ++ r)).slice (p.length + a) (p.length + b) = m.slice a b := by
  unfold slice
  rw [List.take_length_add_append, List.drop_length_add_append, List.take_append_of_le_length hb]

theorem slice_middle_all (p m r : List α) :
    (p ++ (m ++ r)).slice p.length (p.length + m.length) = m := by
  have h := slice_middle p m r (a := 0) (b := m.length) (Nat.le_refl _)
  rw [Nat.add_zero] at h
  rw [h, slice_length, List.drop_zero]

end List

namespace Patchwork

variable {α : Type*}

/-! ## The text -/

/-- Everything before gap `n`: the gaps and patches `0 … n - 1`. -/
def lead (g τ : ℕ → List α) : ℕ → List α
  | 0 => []
  | n + 1 => lead g τ n ++ (g n ++ τ n)

/-- The whole text: `n` patches between `n + 1` gaps. -/
def flat (g τ : ℕ → List α) (n : ℕ) : List α := lead g τ n ++ g n

/-- First position of patch `i`. -/
def start (g τ : ℕ → List α) (i : ℕ) : ℕ := (lead g τ i).length + (g i).length

/-- Position after patch `i`. -/
def stop (g τ : ℕ → List α) (i : ℕ) : ℕ := (lead g τ (i + 1)).length

variable {g τ σ : ℕ → List α} {n i j : ℕ} {c : List α}

@[simp] theorem lead_zero : lead g τ 0 = [] := rfl

theorem length_lead_succ : (lead g τ (n + 1)).length =
    (lead g τ n).length + (g n).length + (τ n).length := by
  simp [lead, Nat.add_assoc]

theorem stop_eq : stop g τ i = start g τ i + (τ i).length := length_lead_succ

theorem start_le_stop : start g τ i ≤ stop g τ i := by rw [stop_eq]; omega

theorem start_lt_stop (h : τ i ≠ []) : start g τ i < stop g τ i := by
  have := List.length_pos_iff.2 h
  rw [stop_eq]; omega

theorem length_lead_mono (h : i ≤ j) : (lead g τ i).length ≤ (lead g τ j).length := by
  induction j, h using Nat.le_induction with
  | base => exact Nat.le_refl _
  | succ j _ ih => rw [length_lead_succ]; omega

theorem start_mono (h : i ≤ j) : start g τ i ≤ start g τ j := by
  rcases Nat.eq_or_lt_of_le h with rfl | h
  · exact Nat.le_refl _
  · have h1 := length_lead_mono (g := g) (τ := τ) (show i + 1 ≤ j from h)
    rw [length_lead_succ] at h1
    unfold start
    omega

theorem stop_le_start (h : i < j) : stop g τ i ≤ start g τ j := by
  have := length_lead_mono (g := g) (τ := τ) (show i + 1 ≤ j from h)
  unfold stop start
  omega

/-- Text in front of gap `j` depends only on the patches before it. -/
theorem lead_congr (h : ∀ k < j, τ k = σ k) : lead g τ j = lead g σ j := by
  induction j with
  | zero => rfl
  | succ j ih =>
      rw [lead, lead, ih fun k hk => h k (by omega), h j (Nat.lt_succ_self j)]

theorem lead_update_of_le (h : j ≤ i) : lead g (Function.update τ i c) j = lead g τ j :=
  lead_congr fun k hk => Function.update_of_ne (by omega) _ _

/-- Behind the edited patch the text moves by the change of its length. -/
theorem length_lead_update_of_lt (h : i < j) :
    (lead g (Function.update τ i c) j).length + (τ i).length =
      (lead g τ j).length + c.length := by
  induction j, h using Nat.le_induction with
  | base =>
      rw [length_lead_succ, length_lead_succ, lead_update_of_le (Nat.le_refl i),
        Function.update_self]
      omega
  | succ j hj ih =>
      have hji : j ≠ i := by omega
      rw [length_lead_succ, length_lead_succ, Function.update_of_ne hji]
      omega

/-! ## The stretch between two gaps -/

/-- The text from the beginning of gap `a` to the beginning of gap `b`. -/
def between (g τ : ℕ → List α) (a : ℕ) : ℕ → List α
  | 0 => []
  | b + 1 => if a ≤ b then between g τ a b ++ (g b ++ τ b) else []

theorem lead_eq_append_between {a b : ℕ} (h : a ≤ b) :
    lead g τ b = lead g τ a ++ between g τ a b := by
  induction b, h using Nat.le_induction with
  | base =>
      cases a with
      | zero => rfl
      | succ a => simp [between]
  | succ b hb ih => rw [lead, between, if_pos hb, ih, List.append_assoc]

theorem between_congr {a b : ℕ} (h : ∀ k, a ≤ k → k < b → τ k = σ k) :
    between g τ a b = between g σ a b := by
  induction b with
  | zero => rfl
  | succ b ih =>
      unfold between
      split
      · rename_i hb
        rw [ih fun k hk hkb => h k hk (by omega), h b hb (Nat.lt_succ_self b)]
      · rfl

/-- The end of the text, from the beginning of gap `a` on. -/
def rest (g τ : ℕ → List α) (n a : ℕ) : List α := between g τ a n ++ g n

theorem flat_eq_append_rest (h : i ≤ n) : flat g τ n = lead g τ i ++ rest g τ n i := by
  rw [flat, rest, lead_eq_append_between h, List.append_assoc]

theorem rest_congr {a : ℕ} (h : ∀ k, a ≤ k → k < n → τ k = σ k) : rest g τ n a = rest g σ n a := by
  rw [rest, rest, between_congr h]

theorem flat_congr (h : ∀ k < n, τ k = σ k) : flat g τ n = flat g σ n := by
  rw [flat, flat, lead_congr h]

theorem exists_flat_gap (h : i ≤ n) : ∃ r, flat g τ n = lead g τ i ++ (g i ++ r) := by
  rcases Nat.eq_or_lt_of_le h with rfl | h
  · exact ⟨[], by simp [flat]⟩
  · refine ⟨τ i ++ rest g τ n (i + 1), ?_⟩
    rw [flat_eq_append_rest (show i + 1 ≤ n from h), lead]
    simp only [List.append_assoc]

theorem exists_flat_patch (h : i < n) : ∃ r, flat g τ n = (lead g τ i ++ g i) ++ (τ i ++ r) := by
  refine ⟨rest g τ n (i + 1), ?_⟩
  rw [flat_eq_append_rest (show i + 1 ≤ n from h), lead]
  simp only [List.append_assoc]

theorem flat_slice_patch (h : i < n) : (flat g τ n).slice (start g τ i) (stop g τ i) = τ i := by
  obtain ⟨r, hr⟩ := exists_flat_patch (g := g) (τ := τ) h
  have := List.slice_middle_all (lead g τ i ++ g i) (τ i) r
  rw [hr, stop_eq]
  simpa [start] using this

theorem stop_le_length_flat (h : i < n) : stop g τ i ≤ (flat g τ n).length := by
  have := length_lead_mono (g := g) (τ := τ) (show i + 1 ≤ n from h)
  simp only [flat, List.length_append, stop]
  omega

theorem length_flat_update (h : i < n) :
    (flat g (Function.update τ i c) n).length + (τ i).length = (flat g τ n).length + c.length := by
  have := length_lead_update_of_lt (g := g) (τ := τ) (c := c) h
  simp only [flat, List.length_append]
  omega

/-! ## Marks -/

/-- A position of the text: offset `off` in gap `gap`. -/
structure Mark where
  gap : ℕ
  off : ℕ
  deriving DecidableEq, Repr

namespace Mark

/-- The mark lies in (or at an end of) an existing gap. -/
def Valid (g : ℕ → List α) (n : ℕ) (m : Mark) : Prop := m.gap ≤ n ∧ m.off ≤ (g m.gap).length

/-- Where the mark currently is. -/
def pos (g τ : ℕ → List α) (m : Mark) : ℕ := (lead g τ m.gap).length + m.off

/-- The mark at the beginning of patch `i`. -/
def atStart (g : ℕ → List α) (i : ℕ) : Mark := ⟨i, (g i).length⟩

/-- The mark at the end of patch `i`. -/
def atStop (i : ℕ) : Mark := ⟨i + 1, 0⟩

variable {m : Mark}

@[simp] theorem pos_atStart : (atStart g i).pos g τ = start g τ i := rfl

@[simp] theorem pos_atStop : (atStop i).pos g τ = stop g τ i := rfl

theorem pos_le_start (hm : m.off ≤ (g m.gap).length) (h : m.gap ≤ i) : m.pos g τ ≤ start g τ i :=
  Nat.le_trans (Nat.add_le_add_left hm _) (start_mono h)

theorem stop_le_pos (h : i < m.gap) : stop g τ i ≤ m.pos g τ := by
  have := length_lead_mono (g := g) (τ := τ) (show i + 1 ≤ m.gap from h)
  unfold stop pos
  omega

/-- A mark up to patch `i` lies before its end, if the patch has any text. -/
theorem pos_lt_stop (hm : m.off ≤ (g m.gap).length) (h : m.gap ≤ i) (hne : τ i ≠ []) :
    m.pos g τ < stop g τ i :=
  Nat.lt_of_le_of_lt (pos_le_start hm h) (start_lt_stop hne)

theorem pos_update_of_le (h : m.gap ≤ i) : m.pos g (Function.update τ i c) = m.pos g τ := by
  unfold pos
  rw [lead_update_of_le h]

theorem pos_update_of_lt (h : i < m.gap) :
    m.pos g (Function.update τ i c) + (τ i).length = m.pos g τ + c.length := by
  have := length_lead_update_of_lt (g := g) (τ := τ) (c := c) h
  unfold pos
  omega

theorem pos_le_length (hm : m.Valid g n) : m.pos g τ ≤ (flat g τ n).length := by
  obtain ⟨r, hr⟩ := exists_flat_gap (g := g) (τ := τ) hm.1
  have := hm.2
  rw [hr]
  simp only [pos, List.length_append]
  omega

/-- Whatever the other patches are, the mark lies before the end of patch `i = p` unless it is
behind it. -/
def Before (g : ℕ → List α) (p : List α) (i : ℕ) (m : Mark) : Prop :=
  ∀ τ : ℕ → List α, τ i = p → m.gap ≤ i → m.pos g τ < stop g τ i

theorem before_of_ne_nil {p : List α} (hm : m.off ≤ (g m.gap).length) (hp : p ≠ []) :
    m.Before g p i := by
  intro τ hτ h
  exact pos_lt_stop hm h (by rw [hτ]; exact hp)

/-- A non-empty gap in front of patch `i` separates it from the marks of earlier gaps. -/
theorem before_of_gap {p : List α} (hm : m.off ≤ (g m.gap).length) (hg : g i ≠ [])
    (hgap : m.gap ≠ i) : m.Before g p i := by
  intro τ _ h
  have h1 := List.length_pos_iff.2 hg
  have h2 := length_lead_mono (g := g) (τ := τ) (show m.gap + 1 ≤ i by omega)
  have h3 := start_le_stop (g := g) (τ := τ) (i := i)
  rw [length_lead_succ] at h2
  unfold start at h3
  unfold pos
  omega

end Mark

/-- Two marks of one gap cut the same text out of every patchwork with that gap. -/
theorem flat_slice_gap {m m' : Mark} (hm : m'.Valid g n) (h : m.gap = m'.gap) :
    (flat g τ n).slice (m.pos g τ) (m'.pos g τ) = (g m'.gap).slice m.off m'.off := by
  obtain ⟨r, hr⟩ := exists_flat_gap (g := g) (τ := τ) hm.1
  rw [hr, Mark.pos, Mark.pos, h]
  exact List.slice_middle _ _ r hm.2

/-! ## Cutting a text -/

/-- Where gap `i` begins when the spans `[b i, e i)` are cut out. -/
def cutFrom (e : ℕ → ℕ) : ℕ → ℕ
  | 0 => 0
  | i + 1 => e i

/-- The gaps of text `F` around the spans `[b i, e i)`, `i < n`. -/
def cutGap (F : List α) (b e : ℕ → ℕ) (n i : ℕ) : List α :=
  F.slice (cutFrom e i) (if i < n then b i else F.length)

/-- The texts in the spans. -/
def cutPatch (F : List α) (b e : ℕ → ℕ) (i : ℕ) : List α := F.slice (b i) (e i)

/-- The spans ascend without overlap and end inside the text. -/
structure Ascending (F : List α) (b e : ℕ → ℕ) (n : ℕ) : Prop where
  le : ∀ i < n, b i ≤ e i
  next : ∀ i, i + 1 < n → e i ≤ b (i + 1)
  inside : ∀ i < n, e i ≤ F.length

variable {F : List α} {b e : ℕ → ℕ}

theorem Ascending.cutFrom_le (h : Ascending F b e n) (hi : i < n) : cutFrom e i ≤ b i := by
  cases i with
  | zero => exact Nat.zero_le _
  | succ i => exact h.next i hi

theorem Ascending.cutFrom_le_length (h : Ascending F b e n) (hi : i ≤ n) :
    cutFrom e i ≤ F.length := by
  cases i with
  | zero => exact Nat.zero_le _
  | succ i => exact h.inside i hi

theorem cut_lead (h : Ascending F b e n) (hj : j ≤ n) :
    lead (cutGap F b e n) (cutPatch F b e) j = F.take (cutFrom e j) := by
  induction j with
  | zero => simp [cutFrom]
  | succ j ih =>
      rw [lead, ih (by omega), cutGap, if_pos (show j < n from hj), cutPatch, ← List.append_assoc,
        List.take_append_slice (h.cutFrom_le hj), List.take_append_slice (h.le j hj)]
      rfl

/-- **Cutting a text and reading the patchwork gives the text back.** -/
theorem cut_flat (h : Ascending F b e n) : flat (cutGap F b e n) (cutPatch F b e) n = F := by
  rw [flat, cut_lead h (Nat.le_refl n), cutGap, if_neg (Nat.lt_irrefl n),
    List.take_append_slice (h.cutFrom_le_length (Nat.le_refl n)), List.take_length]

theorem cut_start (h : Ascending F b e n) (hi : i < n) :
    start (cutGap F b e n) (cutPatch F b e) i = b i := by
  have h1 := h.cutFrom_le hi
  have h2 := h.le i hi
  have h3 := h.inside i hi
  rw [start, cut_lead h (Nat.le_of_lt hi), cutGap, if_pos hi, List.length_slice, List.length_take]
  omega

theorem cut_stop (h : Ascending F b e n) (hi : i < n) :
    stop (cutGap F b e n) (cutPatch F b e) i = e i := by
  have h3 := h.inside i hi
  rw [stop, cut_lead h hi, cutFrom, List.length_take, Nat.min_eq_left h3]

/-- A position outside the spans is a mark of the cut: in the gap `k` whose ends enclose it. -/
theorem cut_mark (h : Ascending F b e n) {k p : ℕ} (hk : k ≤ n) (hlo : cutFrom e k ≤ p)
    (hhi : p ≤ if k < n then b k else F.length) :
    (Mark.mk k (p - cutFrom e k)).Valid (cutGap F b e n) n ∧
      (Mark.mk k (p - cutFrom e k)).pos (cutGap F b e n) (cutPatch F b e) = p := by
  have hF := h.cutFrom_le_length hk
  refine ⟨⟨hk, ?_⟩, ?_⟩
  · simp only [cutGap, List.length_slice]
    split at hhi
    · rename_i hlt
      have h1 := h.le k hlt
      have h2 := h.inside k hlt
      rw [if_pos hlt]
      omega
    · rename_i hlt
      rw [if_neg hlt]
      omega
  · rw [Mark.pos, cut_lead h hk, List.length_take]
    show min (cutFrom e k) F.length + (p - cutFrom e k) = p
    omega

/-! ## Replacing spans -/

/-- A span of a text and what is to stand there. -/
structure Span (α : Type*) where
  base : ℕ
  bound : ℕ
  text : List α

/-- The text from position `pos` on, with the given spans replaced. -/
def replaceSpans (F : List α) : ℕ → List (Span α) → List α
  | pos, [] => F.drop pos
  | pos, s :: ss => F.slice pos s.base ++ (s.text ++ replaceSpans F s.bound ss)

/-- The spans ascend from position `pos` on and end inside a text of length `L`. -/
def Chain (L : ℕ) : ℕ → List (Span α) → Prop
  | pos, [] => pos ≤ L
  | pos, s :: ss => pos ≤ s.base ∧ s.base ≤ s.bound ∧ Chain L s.bound ss

theorem Chain.pos_le {L : ℕ} : ∀ {ss : List (Span α)} {pos : ℕ}, Chain L pos ss → pos ≤ L
  | [], _, h => h
  | _ :: _, _, ⟨h1, h2, h3⟩ => Nat.le_trans (Nat.le_trans h1 h2) h3.pos_le

/-- Replacing spans by what stands there changes nothing. -/
theorem replaceSpans_self : ∀ {ss : List (Span α)} {pos : ℕ}, Chain F.length pos ss →
    (∀ s ∈ ss, s.text = F.slice s.base s.bound) → replaceSpans F pos ss = F.drop pos
  | [], _, _, _ => rfl
  | s :: ss, pos, ⟨h1, h2, h3⟩, h => by
    rw [replaceSpans, h s List.mem_cons_self,
      replaceSpans_self h3 fun t ht => h t (List.mem_cons_of_mem _ ht), ← List.append_assoc,
      List.slice_append_slice h1 h2, ← List.slice_length, List.slice_append_slice (by omega)
        h3.pos_le, List.slice_length]

/-- Texts that do not shrink leave the length alone only if none grows. -/
theorem length_replaceSpans : ∀ {ss : List (Span α)} {pos : ℕ}, Chain F.length pos ss →
    (∀ s ∈ ss, s.bound - s.base ≤ s.text.length) →
    F.length - pos ≤ (replaceSpans F pos ss).length ∧
      ((replaceSpans F pos ss).length = F.length - pos →
        ∀ s ∈ ss, s.text.length = s.bound - s.base)
  | [], pos, _, _ => by
    simp [replaceSpans]
  | s :: ss, pos, ⟨h1, h2, h3⟩, h => by
    obtain ⟨ih1, ih2⟩ := length_replaceSpans h3 fun t ht => h t (List.mem_cons_of_mem _ ht)
    have hs := h s List.mem_cons_self
    have hF := h3.pos_le
    have hgap := List.length_slice_of_le (l := F) (a := pos) (Nat.le_trans h2 hF)
    simp only [replaceSpans, List.length_append, hgap]
    refine ⟨by omega, fun hlen t ht => ?_⟩
    rcases List.mem_cons.1 ht with rfl | ht
    · omega
    · exact ih2 (by omega) t ht

/-- The patches `is` as spans, with the new texts `c`. -/
def spans (g τ c : ℕ → List α) (is : List ℕ) : List (Span α) :=
  is.map fun i => ⟨start g τ i, stop g τ i, c i⟩

/-- The patches at `is` are replaced by `c`. -/
def override (c : ℕ → List α) (is : List ℕ) (τ : ℕ → List α) : ℕ → List α :=
  fun i => if i ∈ is then c i else τ i

variable {d : ℕ → List α} {is : List ℕ} {k : ℕ}

theorem override_cons (hi : i ∉ is) :
    override d is (Function.update τ i (d i)) = override d (i :: is) τ := by
  funext k
  unfold override
  by_cases hk : k = i
  · subst hk
    rw [if_neg hi, Function.update_self, if_pos List.mem_cons_self]
  · rw [Function.update_of_ne hk]
    simp only [List.mem_cons, hk, false_or]

theorem override_of_notMem (h : i ∉ is) : override d is τ i = τ i := if_neg h

theorem override_of_mem (h : i ∈ is) : override d is τ i = d i := if_pos h

theorem rest_eq (hk : k ≤ i) (hi : i < n) :
    rest g τ n k = between g τ k i ++ g i ++ (τ i ++ rest g τ n (i + 1)) := by
  have h1 := flat_eq_append_rest (g := g) (τ := τ) (show k ≤ n by omega)
  have h2 := flat_eq_append_rest (g := g) (τ := τ) (show i + 1 ≤ n from hi)
  rw [h1, lead, lead_eq_append_between hk] at h2
  simp only [List.append_assoc] at h2 ⊢
  exact List.append_cancel_left h2

theorem flat_slice_between (hk : k ≤ i) (hi : i < n) :
    (flat g τ n).slice (lead g τ k).length (start g τ i) = between g τ k i ++ g i := by
  have h1 := List.slice_middle_all (lead g τ k) (between g τ k i ++ g i)
    (τ i ++ rest g τ n (i + 1))
  have h2 : start g τ i = (lead g τ k).length + (between g τ k i ++ g i).length := by
    rw [start, lead_eq_append_between hk]
    simp only [List.length_append]
    omega
  rw [flat_eq_append_rest (show k ≤ n by omega), rest_eq hk hi, h2]
  exact h1

/-- **Replacing patches of a patchwork.** -/
theorem replaceSpans_flat (hs : is.Pairwise (· < ·)) (hn : ∀ i ∈ is, i < n) (hk : k ≤ n)
    (hge : ∀ i ∈ is, k ≤ i) :
    replaceSpans (flat g τ n) (lead g τ k).length (spans g τ d is) =
      rest g (override d is τ) n k := by
  induction is generalizing k with
  | nil =>
      have hnil : override d [] τ = τ := by funext i; exact if_neg (by simp)
      rw [hnil, flat_eq_append_rest hk]
      exact List.drop_left
  | cons i is ih =>
      obtain ⟨hlt, hs⟩ := List.pairwise_cons.1 hs
      have hi := hn i List.mem_cons_self
      have hki := hge i List.mem_cons_self
      have hrec := ih hs (fun j hj => hn j (List.mem_cons_of_mem _ hj)) (show i + 1 ≤ n from hi)
        (fun j hj => hlt j hj)
      show (flat g τ n).slice _ (start g τ i) ++ (d i ++
        replaceSpans (flat g τ n) (lead g τ (i + 1)).length (spans g τ d is)) = _
      rw [flat_slice_between hki hi, hrec, rest_eq hki hi, override_of_mem List.mem_cons_self]
      -- the edits of the tail do not reach the text in front of gap `i + 1`
      have hbetween : between g τ k i = between g (override d (i :: is) τ) k i := by
        refine between_congr fun j hj hji => (override_of_notMem fun hmem => ?_).symm
        rcases List.mem_cons.1 hmem with rfl | hmem
        · omega
        · have := hlt j hmem
          omega
      have hrest :
        rest g (override d is τ) n (i + 1) = rest g (override d (i :: is) τ) n (i + 1) := by
        refine rest_congr fun j hj _ => ?_
        have hmem : j ∈ i :: is ↔ j ∈ is := by
          rw [List.mem_cons]
          exact or_iff_right (by omega)
        simp only [override, hmem]
      rw [hbetween, hrest]

theorem replaceSpans_flat_zero (hs : is.Pairwise (· < ·)) (hn : ∀ i ∈ is, i < n) :
    replaceSpans (flat g τ n) 0 (spans g τ d is) = flat g (override d is τ) n := by
  have h := replaceSpans_flat (g := g) (τ := τ) (d := d) hs hn (Nat.zero_le n)
    (fun i _ => Nat.zero_le i)
  rw [flat_eq_append_rest (Nat.zero_le n) (τ := override d is τ), lead_zero, List.nil_append, ← h]
  rfl

theorem chain_spans (hs : is.Pairwise (· < ·)) (hn : ∀ i ∈ is, i < n) (hk : k ≤ n)
    (hge : ∀ i ∈ is, k ≤ i) :
    Chain (flat g τ n).length (lead g τ k).length (spans g τ d is) := by
  induction is generalizing k with
  | nil =>
      show (lead g τ k).length ≤ _
      rw [flat_eq_append_rest hk, List.length_append]
      omega
  | cons i is ih =>
      obtain ⟨hlt, hs⟩ := List.pairwise_cons.1 hs
      have hi := hn i List.mem_cons_self
      refine ⟨?_, start_le_stop, ih hs (fun j hj => hn j (List.mem_cons_of_mem _ hj)) hi hlt⟩
      have := length_lead_mono (g := g) (τ := τ) (hge i List.mem_cons_self)
      show (lead g τ k).length ≤ start g τ i
      unfold start
      omega

end Patchwork
