import Yacet.Interval
import Yacet.Lib.EachAfter
import Mathlib.Logic.Relation

/-!
# The connected pieces of a sequence of intervals

* `Linked ivs a b` — a chain of intersecting members of `ivs` leads from `a` to `b`.
* `Bridges ivs f` — `f` intersects two members of `ivs` that are not linked.
* `Merged ivs l` — the separated list `l` covers exactly the union of `ivs`.

Results: the nodes of a merged list are the connected pieces of the inserted intervals
(`Merged.linked`, `Merged.within_of_linked`), so an insertion enters the absorb branch iff the new
interval bridges two pieces (`Merged.isSome_iff`); any other insertion keeps `Merged`
(`Merged.insert`).
-/

namespace Yacet

/-- A chain of intersecting members of `ivs` leads from `a` to `b`. -/
def Linked (ivs : List ItNode) : ItNode → ItNode → Prop :=
  Relation.ReflTransGen fun x y => x ∈ ivs ∧ y ∈ ivs ∧ itIntersect x y = true

/-- `f` intersects two members of `ivs` that are not linked. -/
def Bridges (ivs : List ItNode) (f : ItNode) : Prop :=
  ∃ a ∈ ivs, ∃ b ∈ ivs, itIntersect f a = true ∧ itIntersect f b = true ∧ ¬ Linked ivs a b

/-- No interval of the sequence bridges two pieces of what was inserted before it. -/
def NoBridge (ivs : List ItNode) : Prop := EachAfter (fun pre f => ¬ Bridges pre f) ivs

/-- `a` lies within the node `n`. -/
def ItNode.Within (a n : ItNode) : Prop := n.base ≤ a.base ∧ a.bound ≤ n.bound

variable {ivs l l' : List ItNode} {f a b n m : ItNode} {new : Bool}

theorem Linked.symm (h : Linked ivs a b) : Linked ivs b a := by
  induction h with
  | refl => exact Relation.ReflTransGen.refl
  | tail _ hstep ih =>
      obtain ⟨hx, hy, hi⟩ := hstep
      exact Relation.ReflTransGen.head ⟨hy, hx, by rw [itIntersect_comm]; exact hi⟩ ih

/-- The separated list `l` of non-empty nodes covers exactly the union of the intervals `ivs`. -/
structure Merged (ivs l : List ItNode) : Prop where
  proper : ∀ a ∈ ivs, a.base < a.bound
  separated : Separated l
  pos : ∀ n ∈ l, n.base < n.bound
  cover : ∀ x, Covered l x ↔ Covered ivs x

theorem merged_nil : Merged [] [] where
  proper := by simp
  separated := Separated.nil
  pos := by simp
  cover := by simp [Covered]

namespace Merged

/-- Every inserted interval lies within a node. -/
theorem member (h : Merged ivs l) (ha : a ∈ ivs) : ∃ n ∈ l, a.Within n := by
  have hpos := h.proper a ha
  obtain ⟨n, hn, h1, h2⟩ := (h.cover a.base).2 ⟨a, ha, Nat.le_refl _, hpos⟩
  refine ⟨n, hn, h1, ?_⟩
  -- otherwise the first position behind `n` would be covered by a node that touches `n`
  by_contra hlt
  obtain ⟨m, hm, h3, h4⟩ := (h.cover n.bound).2 ⟨a, ha, by omega, by omega⟩
  have hnm : n = m := h.separated.eq_of_intersect hn hm (by rw [itIntersect_iff]; omega)
  rw [← hnm] at h4
  omega

/-- Every position of a node is covered by an inserted interval within the node. -/
theorem exists_within (h : Merged ivs l) (hn : n ∈ l) {x : ℕ} (h1 : n.base ≤ x)
    (h2 : x < n.bound) : ∃ a ∈ ivs, a.Within n ∧ a.base ≤ x ∧ x < a.bound := by
  obtain ⟨a, ha, h3, h4⟩ := (h.cover x).1 ⟨n, hn, h1, h2⟩
  obtain ⟨m, hm, hw⟩ := h.member ha
  have hw' := hw
  obtain ⟨h5, h6⟩ := hw'
  have hnm : n = m := h.separated.eq_of_intersect hn hm (by rw [itIntersect_iff]; omega)
  exact ⟨a, ha, hnm ▸ hw, h3, h4⟩

/-- A new interval intersects a node iff it intersects an inserted interval within it. -/
theorem intersect_iff (h : Merged ivs l) (hn : n ∈ l) (hf : f.base ≤ f.bound) :
    itIntersect f n = true ↔ ∃ a ∈ ivs, a.Within n ∧ itIntersect f a = true := by
  constructor
  · intro hi
    rw [itIntersect_iff] at hi
    have hpos := h.pos n hn
    -- a position of `n` next to or inside `f`
    obtain ⟨a, ha, hw, h1, h2⟩ := h.exists_within (x := min (max f.base n.base) (n.bound - 1)) hn
      (by omega) (by omega)
    refine ⟨a, ha, hw, ?_⟩
    rw [itIntersect_iff]
    omega
  · rintro ⟨a, _, ⟨h1, h2⟩, hi⟩
    rw [itIntersect_iff] at hi ⊢
    omega

/-- The intervals within a node are linked: walk along the positions of the node. -/
theorem linked (h : Merged ivs l) (hn : n ∈ l) (ha : a ∈ ivs) (hb : b ∈ ivs) (haw : a.Within n)
    (hbw : b.Within n) : Linked ivs a b := by
  have hpos := h.pos n hn
  obtain ⟨a₀, ha₀, _, h1, h2⟩ := h.exists_within hn (Nat.le_refl _) hpos
  have hwalk : ∀ d, n.base + d ≤ n.bound → ∀ c ∈ ivs, c.base ≤ n.base + d →
      n.base + d ≤ c.bound → Linked ivs a₀ c := by
    intro d
    induction d with
    | zero =>
        intro _ c hc h3 h4
        exact Relation.ReflTransGen.single ⟨ha₀, hc, by rw [itIntersect_iff]; omega⟩
    | succ d ih =>
        intro hd c hc h3 h4
        obtain ⟨e, he, _, h5, h6⟩ := h.exists_within (x := n.base + d) hn (by omega) (by omega)
        refine (ih (by omega) e he h5 (by omega)).tail ⟨he, hc, ?_⟩
        rw [itIntersect_iff]
        omega
  have hreach : ∀ c ∈ ivs, c.Within n → Linked ivs a₀ c := by
    rintro c hc ⟨h3, h4⟩
    have := h.proper c hc
    exact hwalk (c.base - n.base) (by omega) c hc (by omega) (by omega)
  exact (hreach a ha haw).symm.trans (hreach b hb hbw)

/-- Linked intervals lie within the same node. -/
theorem within_of_linked (h : Merged ivs l) (hn : n ∈ l) (ha : a.Within n)
    (hab : Linked ivs a b) : b.Within n := by
  induction hab with
  | refl => exact ha
  | tail _ hstep ih =>
      obtain ⟨_, hc, hi⟩ := hstep
      obtain ⟨m, hm, hcm⟩ := h.member hc
      obtain ⟨h1, h2⟩ := ih
      obtain ⟨h3, h4⟩ := hcm
      rw [itIntersect_iff] at hi
      have hnm : n = m := h.separated.eq_of_intersect hn hm (by rw [itIntersect_iff]; omega)
      rw [hnm]
      exact ⟨h3, h4⟩

/-- **An insertion enters the absorb branch iff the new interval bridges two pieces.** -/
theorem isSome_iff (h : Merged ivs l) (hf : f.base ≤ f.bound) :
    (itInsertNew f l).isSome = true ↔ ¬ Bridges ivs f := by
  rw [itInsertNew_isSome_iff h.separated]
  constructor
  · rintro huniq ⟨a, ha, b, hb, hfa, hfb, hnl⟩
    obtain ⟨n, hn, han⟩ := h.member ha
    obtain ⟨m, hm, hbm⟩ := h.member hb
    have hnm := huniq n hn m hm ((h.intersect_iff hn hf).2 ⟨a, ha, han, hfa⟩)
      ((h.intersect_iff hm hf).2 ⟨b, hb, hbm, hfb⟩)
    subst hnm
    exact hnl (h.linked hn ha hb han hbm)
  · intro hnb n hn m hm hfn hfm
    obtain ⟨a, ha, han, hfa⟩ := (h.intersect_iff hn hf).1 hfn
    obtain ⟨b, hb, hbm, hfb⟩ := (h.intersect_iff hm hf).1 hfm
    by_contra hne
    refine hnb ⟨a, ha, b, hb, hfa, hfb, fun hl => hne ?_⟩
    -- `b` is not empty, so it cannot lie within two nodes
    obtain ⟨h1, h2⟩ := h.within_of_linked hn han hl
    obtain ⟨h3, h4⟩ := hbm
    have := h.proper b hb
    exact h.separated.eq_of_intersect hn hm (by rw [itIntersect_iff]; omega)

/-- **A successful insertion keeps the union.** -/
theorem insert (h : Merged ivs l) (hf : f.base < f.bound)
    (hi : itInsertNew f l = some (new, l')) : Merged (ivs ++ [f]) l' where
  proper a ha := by
    rcases List.mem_append.1 ha with ha | ha
    · exact h.proper a ha
    · rw [List.mem_singleton.1 ha]
      exact hf
  separated := itInsertNew_separated hf.le h.separated hi
  pos n hn := by
    have hl := h.pos
    rcases itInsertNew_cases hi with ⟨pre, p, suf, rfl, rfl, _⟩ | ⟨pre, suf, rfl, rfl, _⟩
    all_goals
      simp only [List.mem_append, List.mem_cons] at hn hl
      rcases hn with hn | rfl | hn
    · exact hl n (Or.inl hn)
    · have := hl p (Or.inr (Or.inl rfl))
      simp only [ItNode.extend]
      split_ifs <;> omega
    · exact hl n (Or.inr (Or.inr hn))
    · exact hl n (Or.inl hn)
    · exact hf
    · exact hl n (Or.inr hn)
  cover x := by
    rw [itInsertNew_cover h.separated.le hi, h.cover, covered_append, covered_cons]
    simp only [Covered, List.not_mem_nil, false_and, exists_false, or_false]
    exact Or.comm

/-- The resulting intervals do not depend on the order of insertion. -/
theorem intervals_eq_of_perm {ivs' : List ItNode} (h : Merged ivs l) (h' : Merged ivs' l')
    (hp : ivs.Perm ivs') : intervals l = intervals l' := by
  refine h.separated.intervals_unique h'.separated h.pos h'.pos fun x => ?_
  rw [h.cover, h'.cover]
  simp only [Covered, hp.mem_iff]

end Merged

end Yacet
