import Mathlib.Data.List.Pairwise
import Mathlib.Tactic

/-!
# Intervals and interval lists (`interval_tree.c`, `range.c`)

* `itIntersect` / `itConflict` — closed intersection (touching counts) and overlap of two nodes.
* `itInsertNew` — `it_insert_new` on the sequence of nodes of the list.  The answer is `none` when
  the loop meets a second intersecting node and enters its absorb branch; on the heap that branch
  goes on to read the node it has just freed (`Yacet.IntervalHeap`).
* `Separated` — the list invariant: sorted by base, no two nodes overlap or touch.

Results: `itInsertNew_isSome_iff` (the absorb branch is entered iff the new interval intersects two
nodes), `itInsertNew_separated`, `itInsertNew_cover` and `itInsertNew_length`.
-/

namespace Yacet

/-- `struct it_node`, as far as the list and the offset table use it. -/
structure ItNode where
  id : ℕ
  base : ℕ
  bound : ℕ
  deriving DecidableEq, Repr

/-- `it_intersect`. -/
def itIntersect (a b : ItNode) : Bool := decide (a.base ≤ b.bound ∧ b.base ≤ a.bound)

/-- `it_conflict`. -/
def itConflict (a b : ItNode) : Bool := decide (a.base < b.bound ∧ b.base < a.bound)

@[simp] theorem itIntersect_iff {a b : ItNode} :
    itIntersect a b = true ↔ a.base ≤ b.bound ∧ b.base ≤ a.bound := by simp [itIntersect]

@[simp] theorem itConflict_iff {a b : ItNode} :
    itConflict a b = true ↔ a.base < b.bound ∧ b.base < a.bound := by simp [itConflict]

theorem itIntersect_eq_false_iff {a b : ItNode} :
    itIntersect a b = false ↔ b.bound < a.base ∨ a.bound < b.base := by
  rw [← Bool.not_eq_true, itIntersect_iff]
  omega

theorem itIntersect_comm (a b : ItNode) : itIntersect a b = itIntersect b a := by
  simp [itIntersect, and_comm]

theorem itConflict_comm (a b : ItNode) : itConflict a b = itConflict b a := by
  simp [itConflict, and_comm]

/-- The first intersecting node takes the new interval in and keeps its own id. -/
def ItNode.extend (p f : ItNode) : ItNode :=
  { p with
    base := if p.base > f.base then f.base else p.base
    bound := if p.bound < f.bound then f.bound else p.bound }

theorem ItNode.extend_of_le {p f : ItNode} (h : p.base ≤ f.base) :
    p.extend f = ⟨p.id, p.base, max p.bound f.bound⟩ := by
  unfold ItNode.extend
  rw [if_neg (by omega)]
  congr 1
  split <;> omega

/-- The rest of the loop once `p_f` points to the list node `b`: `false` when it would absorb. -/
def itRest (b : ItNode) : List ItNode → Bool
  | [] => true
  | p :: ps =>
    if itIntersect b p then false
    else if p.base < b.base then itRest b ps else true

/-- `it_insert_new`: the flag `new` and the list afterwards. -/
def itInsertNew (f : ItNode) : List ItNode → Option (Bool × List ItNode)
  | [] => some (true, [f])
  | p :: ps =>
    if itIntersect f p then
      if itRest (p.extend f) ps then some (false, p.extend f :: ps) else none
    else if p.base < f.base then (itInsertNew f ps).map fun r => (r.1, p :: r.2)
    else some (true, f :: p :: ps)

/-- The nodes of one file in a range: `rf->it` with `rf->num_it`. -/
structure ItList where
  it : List ItNode
  numIt : ℕ
  deriving DecidableEq, Repr

/-- `range_file_add_it`. -/
def rangeFileAddIt (rf : ItList) (f : ItNode) : Option ItList :=
  (itInsertNew f rf.it).map fun r => ⟨r.2, if r.1 then rf.numIt + 1 else rf.numIt⟩

/-! ## Separated lists -/

/-- Sorted by base with a gap between neighbours. -/
structure Separated (l : List ItNode) : Prop where
  le : ∀ n ∈ l, n.base ≤ n.bound
  gap : l.Pairwise fun a b => a.bound < b.base

theorem Separated.nil : Separated [] := ⟨by simp, List.Pairwise.nil⟩

theorem separated_cons {n : ItNode} {l : List ItNode} :
    Separated (n :: l) ↔ n.base ≤ n.bound ∧ (∀ m ∈ l, n.bound < m.base) ∧ Separated l := by
  constructor
  · intro h
    obtain ⟨hgap, htail⟩ := List.pairwise_cons.1 h.gap
    exact ⟨h.le n List.mem_cons_self, hgap, fun m hm => h.le m (List.mem_cons_of_mem _ hm), htail⟩
  · rintro ⟨hle, hgap, h⟩
    refine ⟨fun m hm => ?_, List.pairwise_cons.2 ⟨hgap, h.gap⟩⟩
    rcases List.mem_cons.1 hm with rfl | hm
    · exact hle
    · exact h.le m hm

/-- Two nodes of a separated list that intersect are the same. -/
theorem Separated.eq_of_intersect {l : List ItNode} (h : Separated l) {a b : ItNode} (ha : a ∈ l)
    (hb : b ∈ l) (hab : itIntersect a b = true) : a = b := by
  rw [itIntersect_iff] at hab
  by_contra hne
  have hpair : l.Pairwise fun x y : ItNode => x.bound < y.base ∨ y.bound < x.base :=
    h.gap.imp fun hxy => Or.inl hxy
  have : Std.Symm fun x y : ItNode => x.bound < y.base ∨ y.bound < x.base :=
    ⟨fun _ _ hxy => hxy.symm⟩
  have := hpair.forall ha hb hne
  omega

/-- In a separated list the loop ends right behind the extended node unless the next one
intersects it. -/
theorem itRest_iff {b : ItNode} {l : List ItNode} (h : Separated l)
    (hb : ∀ m ∈ l, b.base ≤ m.base) :
    itRest b l = true ↔ ∀ m ∈ l, itIntersect b m = false := by
  cases l with
  | nil => simp [itRest]
  | cons m l =>
      obtain ⟨hm, hgap, htail⟩ := separated_cons.1 h
      have hbm := hb m List.mem_cons_self
      unfold itRest
      split
      · rename_i hi
        simp only [Bool.false_eq_true, false_iff, not_forall]
        exact ⟨m, List.mem_cons_self, by rw [hi]; decide⟩
      · rename_i hi
        rw [if_neg (by omega)]
        refine ⟨fun _ k hk => ?_, fun _ => rfl⟩
        rw [Bool.not_eq_true] at hi
        rcases List.mem_cons.1 hk with rfl | hk
        · exact hi
        · have h1 := hgap k hk
          rw [itIntersect_eq_false_iff] at hi ⊢
          omega

variable {f : ItNode} {l l' : List ItNode} {new : Bool}

/-- **The absorb branch is entered exactly when the new interval intersects two nodes.** -/
theorem itInsertNew_isSome_iff (h : Separated l) :
    (itInsertNew f l).isSome = true ↔
      ∀ a ∈ l, ∀ b ∈ l, itIntersect f a = true → itIntersect f b = true → a = b := by
  induction l with
  | nil => simp [itInsertNew]
  | cons p ps ih =>
      obtain ⟨hp, hgap, htail⟩ := separated_cons.1 h
      unfold itInsertNew
      split
      · rename_i hi
        rw [itIntersect_iff] at hi
        -- the extended node intersects a later node iff the new interval does
        have hext : ∀ m ∈ ps, itIntersect (p.extend f) m = itIntersect f m := fun m hm => by
          have h1 := hgap m hm
          have h2 := htail.le m hm
          rw [Bool.eq_iff_iff, itIntersect_iff, itIntersect_iff]
          simp only [ItNode.extend]
          split_ifs <;> omega
        have hrest := itRest_iff (b := p.extend f) htail fun m hm => by
          have := hgap m hm
          simp only [ItNode.extend]
          split_ifs <;> omega
        constructor
        · intro hsome
          split at hsome
          · rename_i hr
            have hno : ∀ m ∈ ps, itIntersect f m = false := fun m hm => by
              rw [← hext m hm]; exact hrest.1 hr m hm
            have honly : ∀ a ∈ p :: ps, itIntersect f a = true → a = p := fun a ha hfa => by
              rcases List.mem_cons.1 ha with rfl | ha
              · rfl
              · rw [hno a ha] at hfa; cases hfa
            intro a ha b hb hfa hfb
            rw [honly a ha hfa, honly b hb hfb]
          · cases hsome
        · intro huniq
          rw [if_pos]
          · rfl
          · refine hrest.2 fun m hm => ?_
            rw [hext m hm]
            cases hfm : itIntersect f m with
            | false => rfl
            | true =>
                have := huniq p List.mem_cons_self m (List.mem_cons_of_mem _ hm)
                  (by rw [itIntersect_iff]; exact hi) hfm
                have hlt := hgap m hm
                have hle := htail.le m hm
                rw [← this] at hlt
                omega
      · rename_i hi
        split
        · rw [Option.isSome_map, ih htail]
          refine ⟨fun H a ha b hb hfa hfb => ?_, fun H a ha b hb =>
            H a (List.mem_cons_of_mem _ ha) b (List.mem_cons_of_mem _ hb)⟩
          rcases List.mem_cons.1 ha with rfl | ha
          · exact absurd hfa hi
          · rcases List.mem_cons.1 hb with rfl | hb
            · exact absurd hfb hi
            · exact H a ha b hb hfa hfb
        · rename_i hlt
          refine ⟨fun _ a ha b hb hfa hfb => ?_, fun _ => rfl⟩
          -- everything from `p` on lies behind the new interval
          rw [itIntersect_iff] at hi
          have hno : ∀ m ∈ p :: ps, f.bound < m.base := fun m hm => by
            rcases List.mem_cons.1 hm with rfl | hm
            · omega
            · have := hgap m hm
              omega
          rw [itIntersect_iff] at hfa
          have := hno a ha
          omega

/-- The loop walks past the nodes that lie before the new interval. -/
theorem itInsertNew_skip {pre suf : List ItNode}
    (h : ∀ m ∈ pre, itIntersect f m = false ∧ m.base < f.base) :
    itInsertNew f (pre ++ suf) = (itInsertNew f suf).map fun r => (r.1, pre ++ r.2) := by
  induction pre with
  | nil => simp
  | cons p pre ih =>
      obtain ⟨h1, h2⟩ := h p List.mem_cons_self
      rw [List.cons_append, itInsertNew, h1, if_pos h2, if_neg (by simp),
        ih fun m hm => h m (List.mem_cons_of_mem _ hm), Option.map_map]
      rfl

/-- What a successful insertion did: it either extended one node in place or inserted one. -/
theorem itInsertNew_cases (h : itInsertNew f l = some (new, l')) :
    (∃ pre p suf, l = pre ++ p :: suf ∧ l' = pre ++ p.extend f :: suf ∧ new = false ∧
      itIntersect f p = true ∧ itRest (p.extend f) suf = true ∧
      ∀ m ∈ pre, itIntersect f m = false ∧ m.base < f.base) ∨
    (∃ pre suf, l = pre ++ suf ∧ l' = pre ++ f :: suf ∧ new = true ∧
      (∀ m ∈ pre, itIntersect f m = false ∧ m.base < f.base) ∧
      ∀ m ∈ suf.head?, itIntersect f m = false ∧ f.base ≤ m.base) := by
  induction l generalizing new l' with
  | nil =>
      simp only [itInsertNew, Option.some.injEq, Prod.mk.injEq] at h
      obtain ⟨rfl, rfl⟩ := h
      exact Or.inr ⟨[], [], rfl, rfl, rfl, by simp, by simp⟩
  | cons p ps ih =>
      unfold itInsertNew at h
      split at h
      · rename_i hi
        split at h
        · rename_i hr
          cases h
          exact Or.inl ⟨[], p, ps, rfl, rfl, rfl, hi, hr, by simp⟩
        · cases h
      · rename_i hi
        have hi' : itIntersect f p = false := Bool.eq_false_of_not_eq_true hi
        split at h
        · rename_i hlt
          rw [Option.map_eq_some_iff] at h
          obtain ⟨⟨new', l''⟩, hrec, heq⟩ := h
          cases heq
          have hpre : ∀ pre : List ItNode, (∀ m ∈ pre, itIntersect f m = false ∧ m.base < f.base) →
              ∀ m ∈ p :: pre, itIntersect f m = false ∧ m.base < f.base := fun pre H m hm => by
            rcases List.mem_cons.1 hm with rfl | hm
            · exact ⟨hi', hlt⟩
            · exact H m hm
          rcases ih hrec with ⟨pre, b, suf, rfl, rfl, rfl, h1, h2, h3⟩ | ⟨pre, suf, rfl, rfl, rfl,
            h1, h2⟩
          · exact Or.inl ⟨p :: pre, b, suf, rfl, rfl, rfl, h1, h2, hpre pre h3⟩
          · exact Or.inr ⟨p :: pre, suf, rfl, rfl, rfl, hpre pre h1, h2⟩
        · rename_i hlt
          cases h
          refine Or.inr ⟨[], p :: ps, rfl, rfl, rfl, by simp, fun m hm => ?_⟩
          rw [List.head?_cons, Option.mem_some_iff] at hm
          subst hm
          exact ⟨hi', by omega⟩

theorem itInsertNew_length (h : itInsertNew f l = some (new, l')) :
    l'.length = if new then l.length + 1 else l.length := by
  rcases itInsertNew_cases h with ⟨pre, p, suf, rfl, rfl, rfl, _⟩ | ⟨pre, suf, rfl, rfl, rfl, _⟩
  · simp
  · simp only [List.length_append, List.length_cons, if_true]
    omega

theorem separated_append {l₁ l₂ : List ItNode} : Separated (l₁ ++ l₂) ↔
    Separated l₁ ∧ Separated l₂ ∧ ∀ a ∈ l₁, ∀ b ∈ l₂, a.bound < b.base := by
  constructor
  · intro h
    obtain ⟨h1, h2, h3⟩ := List.pairwise_append.1 h.gap
    exact ⟨⟨fun n hn => h.le n (List.mem_append_left _ hn), h1⟩,
      ⟨fun n hn => h.le n (List.mem_append_right _ hn), h2⟩, h3⟩
  · rintro ⟨h1, h2, h3⟩
    refine ⟨fun n hn => ?_, List.pairwise_append.2 ⟨h1.gap, h2.gap, h3⟩⟩
    rcases List.mem_append.1 hn with hn | hn
    · exact h1.le n hn
    · exact h2.le n hn

/-- **Insertion keeps the list sorted and separated.** -/
theorem itInsertNew_separated (hf : f.base ≤ f.bound) (hl : Separated l)
    (h : itInsertNew f l = some (new, l')) : Separated l' := by
  rcases itInsertNew_cases h with ⟨pre, p, suf, rfl, rfl, rfl, hi, hr, hpre⟩ |
    ⟨pre, suf, rfl, rfl, rfl, hpre, hsuf⟩
  · obtain ⟨h1, h2, h3⟩ := separated_append.1 hl
    obtain ⟨hp, hgap, h4⟩ := separated_cons.1 h2
    rw [itIntersect_iff] at hi
    have hno := (itRest_iff (b := p.extend f) h4 fun m hm => by
      have := hgap m hm
      simp only [ItNode.extend]
      split_ifs <;> omega).1 hr
    refine separated_append.2 ⟨h1, separated_cons.2 ⟨?_, fun m hm => ?_, h4⟩, fun a ha b hb => ?_⟩
    · simp only [ItNode.extend]; split_ifs <;> omega
    · have e1 := hno m hm
      have e2 := hgap m hm
      have e3 := h4.le m hm
      rw [itIntersect_eq_false_iff] at e1
      simp only [ItNode.extend] at e1 ⊢
      split_ifs at e1 ⊢ <;> omega
    · rcases List.mem_cons.1 hb with rfl | hb
      · have e1 := h3 a ha p List.mem_cons_self
        obtain ⟨e2, e3⟩ := hpre a ha
        have e4 := h1.le a ha
        rw [itIntersect_eq_false_iff] at e2
        simp only [ItNode.extend]
        split_ifs <;> omega
      · exact h3 a ha b (List.mem_cons_of_mem _ hb)
  · obtain ⟨h1, h2, h3⟩ := separated_append.1 hl
    have hbeyond : ∀ m ∈ suf, f.bound < m.base := by
      cases suf with
      | nil => intro m hm; cases hm
      | cons s suf =>
          obtain ⟨hs, hgap, _⟩ := separated_cons.1 h2
          obtain ⟨e1, e2⟩ := hsuf s rfl
          rw [itIntersect_eq_false_iff] at e1
          intro m hm
          rcases List.mem_cons.1 hm with rfl | hm
          · omega
          · have := hgap m hm
            omega
    refine separated_append.2 ⟨h1, separated_cons.2 ⟨hf, hbeyond, h2⟩, fun a ha b hb => ?_⟩
    rcases List.mem_cons.1 hb with rfl | hb
    · obtain ⟨e2, e3⟩ := hpre a ha
      rw [itIntersect_eq_false_iff] at e2
      have := h1.le a ha
      omega
    · exact h3 a ha b hb

/-- Position `x` lies in one of the half-open intervals of the list. -/
def Covered (l : List ItNode) (x : ℕ) : Prop := ∃ n ∈ l, n.base ≤ x ∧ x < n.bound

theorem covered_append {l₁ l₂ : List ItNode} {x : ℕ} :
    Covered (l₁ ++ l₂) x ↔ Covered l₁ x ∨ Covered l₂ x := by
  simp only [Covered, List.mem_append, or_and_right, exists_or]

theorem covered_cons {n : ItNode} {l : List ItNode} {x : ℕ} :
    Covered (n :: l) x ↔ (n.base ≤ x ∧ x < n.bound) ∨ Covered l x := by
  simp only [Covered, List.mem_cons, exists_eq_or_imp]

/-- **Insertion adds exactly the new interval to the covered positions.** -/
theorem itInsertNew_cover (hl : ∀ n ∈ l, n.base ≤ n.bound)
    (h : itInsertNew f l = some (new, l')) (x : ℕ) :
    Covered l' x ↔ (f.base ≤ x ∧ x < f.bound) ∨ Covered l x := by
  rcases itInsertNew_cases h with ⟨pre, p, suf, rfl, rfl, rfl, hi, _⟩ | ⟨pre, suf, rfl, rfl, rfl, _⟩
  · have hp := hl p (by simp)
    rw [itIntersect_iff] at hi
    have hext : ((p.extend f).base ≤ x ∧ x < (p.extend f).bound) ↔
        (f.base ≤ x ∧ x < f.bound) ∨ (p.base ≤ x ∧ x < p.bound) := by
      simp only [ItNode.extend]
      split_ifs <;> omega
    rw [covered_append, covered_append, covered_cons, covered_cons, hext, or_assoc]
    exact or_left_comm
  · rw [covered_append, covered_append, covered_cons]
    exact or_left_comm

/-- The intervals of a node list, without the ids. -/
def intervals (l : List ItNode) : List (ℕ × ℕ) := l.map fun n => (n.base, n.bound)

/-- **A separated list of non-empty intervals is determined by the positions it covers.** -/
theorem Separated.intervals_unique : ∀ {l₁ l₂ : List ItNode}, Separated l₁ → Separated l₂ →
    (∀ n ∈ l₁, n.base < n.bound) → (∀ n ∈ l₂, n.base < n.bound) →
    (∀ x, Covered l₁ x ↔ Covered l₂ x) → intervals l₁ = intervals l₂
  | [], [], _, _, _, _, _ => rfl
  | [], n :: l, _, _, _, h2, hc => by
    have hn := h2 n List.mem_cons_self
    obtain ⟨m, hm, _⟩ := (hc n.base).2 ⟨n, List.mem_cons_self, Nat.le_refl _, hn⟩
    cases hm
  | n :: l, [], _, _, h1, _, hc => by
    have hn := h1 n List.mem_cons_self
    obtain ⟨m, hm, _⟩ := (hc n.base).1 ⟨n, List.mem_cons_self, Nat.le_refl _, hn⟩
    cases hm
  | n :: l, m :: k, s1, s2, h1, h2, hc => by
    obtain ⟨hn, gn, sn⟩ := separated_cons.1 s1
    obtain ⟨hm, gm, sm⟩ := separated_cons.1 s2
    have ltn := h1 n List.mem_cons_self
    have ltm := h2 m List.mem_cons_self
    -- the first covered position and the first uncovered one behind it
    have hbase : n.base = m.base := by
      obtain ⟨a, ha, ha1, ha2⟩ := (hc n.base).1 ⟨n, List.mem_cons_self, Nat.le_refl _, ltn⟩
      obtain ⟨b, hb, hb1, hb2⟩ := (hc m.base).2 ⟨m, List.mem_cons_self, Nat.le_refl _, ltm⟩
      have e1 : m.base ≤ a.base := by
        rcases List.mem_cons.1 ha with rfl | ha
        · exact Nat.le_refl _
        · have := gm a ha
          omega
      have e2 : n.base ≤ b.base := by
        rcases List.mem_cons.1 hb with rfl | hb
        · exact Nat.le_refl _
        · have := gn b hb
          omega
      omega
    have hbound : n.bound = m.bound := by
      rcases Nat.lt_trichotomy n.bound m.bound with hlt | he | hlt
      · obtain ⟨a, ha, ha1, ha2⟩ := (hc n.bound).2 ⟨m, List.mem_cons_self, by omega, hlt⟩
        rcases List.mem_cons.1 ha with rfl | ha
        · omega
        · have := gn a ha
          omega
      · exact he
      · obtain ⟨a, ha, ha1, ha2⟩ := (hc m.bound).1 ⟨n, List.mem_cons_self, by omega, hlt⟩
        rcases List.mem_cons.1 ha with rfl | ha
        · omega
        · have := gm a ha
          omega
    have htail : ∀ x, Covered l x ↔ Covered k x := fun x => by
      have hx := hc x
      rw [covered_cons, covered_cons, hbase, hbound] at hx
      constructor
      · rintro ⟨a, ha, ha1, ha2⟩
        have := gn a ha
        rcases hx.1 (Or.inr ⟨a, ha, ha1, ha2⟩) with h | h
        · omega
        · exact h
      · rintro ⟨a, ha, ha1, ha2⟩
        have := gm a ha
        rcases hx.2 (Or.inr ⟨a, ha, ha1, ha2⟩) with h | h
        · omega
        · exact h
    have ih := intervals_unique sn sm (fun a ha => h1 a (List.mem_cons_of_mem _ ha))
      (fun a ha => h2 a (List.mem_cons_of_mem _ ha)) htail
    show (n.base, n.bound) :: intervals l = (m.base, m.bound) :: intervals k
    rw [hbase, hbound, ih]

end Yacet
