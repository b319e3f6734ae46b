import Yacet.Lib.Patchwork

/-!
# Positions under a replacement

A replacement puts a text of length `n` for the stretch `[b, e)` of a text; whoever keeps positions
of the text moves those from `e` on by the change of the length and leaves the others.

* `shift` — where a position goes.
* `lt_of_shift_lt` — **the order of two positions stays, unless one of them lies between the new and
  the old end of the stretch**.
* `List.splice` — the text with the stretch replaced; `slice_splice_before`, `slice_splice_behind`,
  `slice_splice_apart` and `slice_splice_around` say what stands between two positions after they
  have been moved.
* `flat_update_eq_splice` — a replaced patch of a patchwork is a splice of its text.
-/

namespace Shift

/-- Position `p` after `[b, e)` has got the length `n`. -/
def shift (b e n p : ℕ) : ℕ := if e ≤ p then p - e + b + n else p

variable {b e n p q : ℕ}

theorem shift_of_le (h : e ≤ p) : shift b e n p = p - e + b + n := if_pos h

theorem shift_of_lt (h : p < e) : shift b e n p = p := if_neg (Nat.not_le.2 h)

/-- The end of the stretch goes to its new end. -/
theorem shift_end : shift b e n e = b + n := by
  rw [shift_of_le (Nat.le_refl e), Nat.sub_self, Nat.zero_add]

/-- **Positions that were not in order are not brought into it**, unless the right one lies between
the new and the old end of the stretch. -/
theorem lt_of_shift_lt (hq : ¬ (b + n < q ∧ q < e)) (h : shift b e n p < shift b e n q) :
    p < q := by
  unfold shift at h
  split at h
  · split at h
    · omega
    · omega
  · split at h
    · omega
    · exact h

end Shift

namespace List

open Shift

variable {α : Type*} {F c : List α} {b e p q : ℕ}

/-- The text with `[b, e)` replaced by `c`. -/
def splice (F : List α) (b e : ℕ) (c : List α) : List α := F.take b ++ (c ++ F.drop e)

theorem length_splice (hb : b ≤ e) (he : e ≤ F.length) :
    (F.splice b e c).length + e = F.length + b + c.length := by
  rw [splice, length_append, length_append, length_take_of_le (hb.trans he), length_drop]
  omega

theorem splice_take (hb : b ≤ F.length) (hp : p ≤ b) : (F.splice b e c).take p = F.take p := by
  rw [splice, take_append_of_le_length (by rw [length_take_of_le hb]; exact hp), take_take,
    Nat.min_eq_left hp]

/-- In front of the stretch nothing changes. -/
theorem slice_splice_before (hb : b ≤ F.length) (hq : q ≤ b) :
    (F.splice b e c).slice p q = F.slice p q := by
  rw [slice, slice, splice_take hb hq]

/-- From the old end of the stretch on the text is the one from the new end on. -/
theorem drop_splice (hb : b ≤ F.length) (hp : e ≤ p) :
    (F.splice b e c).drop (p - e + b + c.length) = F.drop p := by
  have hlen : p - e + b + c.length = (F.take b).length + (c.length + (p - e)) := by
    rw [length_take_of_le hb]
    omega
  rw [hlen, splice, drop_length_add_append, drop_length_add_append, drop_drop,
    Nat.add_sub_cancel' hp]

/-- Behind the stretch the text moves with its positions. -/
theorem slice_splice_behind (hb : b ≤ F.length) (hp : e ≤ p) (hpq : p ≤ q) :
    (F.splice b e c).slice (shift b e c.length p) (shift b e c.length q) = F.slice p q := by
  rw [shift_of_le hp, shift_of_le (hp.trans hpq)]
  have hq : q - e + b + c.length = p - e + b + c.length + (q - p) := by omega
  rw [hq, ← drop_take_eq_slice, drop_splice hb hp, drop_take_eq_slice, Nat.add_sub_cancel' hpq]

/-- The stretch itself holds its new text. -/
theorem slice_splice_self (hb : b ≤ F.length) : (F.splice b e c).slice b (b + c.length) = c := by
  have hlen : (F.take b).length = b := length_take_of_le hb
  conv_lhs => rw [splice]
  conv_lhs =>
    arg 2
    rw [← hlen]
  conv_lhs =>
    arg 3
    rw [← hlen]
  exact slice_middle_all (F.take b) c (F.drop e)

/-- Around the stretch the replacement is one of the text between the positions. -/
theorem slice_splice_around (hp : p ≤ b) (hbe : b ≤ e) (hq : e ≤ q) (hF : q ≤ F.length) :
    (F.splice b e c).slice p (shift b e c.length q) = (F.slice p q).splice (b - p) (e - p) c := by
  have hb : b ≤ F.length := by omega
  have hfront : (F.slice p q).take (b - p) = F.slice p b := by
    rw [slice, take_drop, take_take]
    congr 2
    omega
  have hback : (F.slice p q).drop (e - p) = F.slice e q := by
    rw [slice, slice, drop_drop]
    congr 1
    omega
  have hend : shift b e c.length q = b + c.length + (q - e) := by
    rw [shift_of_le hq]
    omega
  have hmid : b ≤ b + c.length := Nat.le_add_right _ _
  rw [hend, ← slice_append_slice hp (hmid.trans (Nat.le_add_right _ _)),
    ← slice_append_slice hmid (Nat.le_add_right _ _), slice_splice_before hb (Nat.le_refl b),
    slice_splice_self hb]
  have hrest : (F.splice b e c).slice (b + c.length) (b + c.length + (q - e)) = F.slice e q := by
    have hbehind := slice_splice_behind (F := F) (c := c) hb (Nat.le_refl e) hq
    rw [shift_end, hend] at hbehind
    exact hbehind
  rw [hrest, splice, hfront, hback]

end List

namespace Patchwork

variable {α : Type*} {g τ : ℕ → List α} {c : List α} {i n : ℕ}

/-- To replace a patch is to splice the text between its ends. -/
theorem flat_update_eq_splice (hi : i < n) :
    flat g (Function.update τ i c) n = (flat g τ n).splice (start g τ i) (stop g τ i) c := by
  have hrest : rest g (Function.update τ i c) n (i + 1) = rest g τ n (i + 1) :=
    rest_congr fun k hk _ => Function.update_of_ne (by omega) _ _
  have hflat := flat_eq_append_rest (g := g) (τ := τ) (show i + 1 ≤ n from hi)
  have hstart : start g τ i = (lead g τ i ++ g i).length := by
    rw [start, List.length_append]
  have htake : (flat g τ n).take (start g τ i) = lead g τ i ++ g i := by
    rw [hflat, lead, hstart, ← List.append_assoc, List.append_assoc]
    exact List.take_left
  have hdrop : (flat g τ n).drop (stop g τ i) = rest g τ n (i + 1) := by
    rw [hflat, stop]
    exact List.drop_left
  rw [List.splice, htake, hdrop, flat_eq_append_rest (show i + 1 ≤ n from hi), lead,
    lead_update_of_le (Nat.le_refl i), Function.update_self, hrest]
  simp only [List.append_assoc]

end Patchwork
