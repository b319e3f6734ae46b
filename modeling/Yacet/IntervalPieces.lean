import Yacet.IntervalUnion

/-!
# The pieces of a sequence of intervals, empty ones among them

A push may leave a row without text, and such a row is inserted like any other.

* `Pieces` — the nodes are the hulls of the classes of linked intervals.
* `Pieces.isSome_iff` — **`it_insert_new` comes through iff the interval bridges no two pieces.**
* `Pieces.insert` — and leaves the pieces of the longer sequence.
-/

namespace Yacet

/-- The nodes of `l` are separated, and each spans one class of linked intervals. -/
structure Pieces (ivs l : List ItNode) : Prop where
  separated : Separated l
  member : ∀ a ∈ ivs, a.base ≤ a.bound ∧ ∃ n ∈ l, a.Within n
  linked : ∀ n ∈ l, ∀ a ∈ ivs, ∀ b ∈ ivs, a.Within n → b.Within n → Linked ivs a b
  first : ∀ n ∈ l, ∃ a ∈ ivs, a.Within n ∧ a.base = n.base
  last : ∀ n ∈ l, ∃ b ∈ ivs, b.Within n ∧ b.bound = n.bound

variable {ivs l l' pre suf : List ItNode} {f a b n m p q : ItNode} {new : Bool}

theorem pieces_nil : Pieces [] [] where
  separated := Separated.nil
  member := by simp
  linked := by simp
  first := by simp
  last := by simp

theorem Linked.mono (h : Linked ivs a b) (hsub : ∀ c ∈ ivs, c ∈ l) : Linked l a b := by
  induction h with
  | refl => exact Relation.ReflTransGen.refl
  | tail _ hstep ih =>
      obtain ⟨hx, hy, hi⟩ := hstep
      exact ih.tail ⟨hsub _ hx, hsub _ hy, hi⟩

/-- The nodes on both sides of a node do not touch it. -/
theorem Separated.apart (h : Separated (pre ++ q :: suf)) (hm : m ∈ pre ++ suf) :
    itIntersect m q = false := by
  obtain ⟨-, h2, h3⟩ := separated_append.1 h
  obtain ⟨-, hgap, -⟩ := separated_cons.1 h2
  rw [itIntersect_eq_false_iff]
  rcases List.mem_append.1 hm with hm | hm
  · exact Or.inr (h3 m hm q List.mem_cons_self)
  · exact Or.inl (hgap m hm)

theorem ItNode.Within.intersect (h : a.Within n) (hm : a.Within m) (ha : a.base ≤ a.bound) :
    itIntersect n m = true := by
  obtain ⟨h1, h2⟩ := h
  obtain ⟨h3, h4⟩ := hm
  rw [itIntersect_iff]
  omega

namespace Pieces

/-- A linked interval lies in the same piece. -/
theorem within_of_linked (h : Pieces ivs l) (hn : n ∈ l) (ha : a.Within n) (hab : Linked ivs a b) :
    b.Within n := by
  induction hab with
  | refl => exact ha
  | tail _ hstep ih =>
      obtain ⟨-, hc, hi⟩ := hstep
      obtain ⟨-, m, hm, hcm⟩ := h.member _ hc
      have hnm : n = m := by
        apply h.separated.eq_of_intersect hn hm
        obtain ⟨h1, h2⟩ := ih
        obtain ⟨h3, h4⟩ := hcm
        rw [itIntersect_iff] at hi ⊢
        omega
      rw [hnm]
      exact hcm

/-- What touches a piece touches one of its intervals. -/
theorem intersect_iff (h : Pieces ivs l) (hn : n ∈ l) (hf : f.base ≤ f.bound) :
    itIntersect f n = true ↔ ∃ a ∈ ivs, a.Within n ∧ itIntersect f a = true := by
  constructor
  · intro hi
    by_contra hno
    obtain ⟨a, ha, han, hbase⟩ := h.first n hn
    obtain ⟨b, hb, hbn, hbound⟩ := h.last n hn
    have hmiss : ∀ c ∈ ivs, c.Within n → itIntersect f c = false := by
      intro c hc hcn
      rw [← Bool.not_eq_true]
      exact fun hi' => hno ⟨c, hc, hcn, hi'⟩
    -- the chain from the first to the last interval of the piece
    have hwalk : ∀ {c}, Linked ivs a c → c.bound < f.base := by
      intro c hac
      induction hac with
      | refl =>
          have ha' := hmiss a ha han
          rw [itIntersect_eq_false_iff] at ha'
          rw [itIntersect_iff] at hi
          omega
      | tail hac hstep ih =>
          have hdn := h.within_of_linked hn han (hac.tail hstep)
          obtain ⟨-, hd, hi'⟩ := hstep
          have hd' := hmiss _ hd hdn
          rw [itIntersect_eq_false_iff] at hd'
          rw [itIntersect_iff] at hi'
          omega
    have hlast := hwalk (h.linked n hn a ha b hb han hbn)
    rw [itIntersect_iff] at hi
    omega
  · rintro ⟨a, -, ⟨h1, h2⟩, hi⟩
    rw [itIntersect_iff] at hi ⊢
    omega

/-- **The insertion comes through iff the interval bridges no two pieces.** -/
theorem isSome_iff (h : Pieces ivs l) (hf : f.base ≤ f.bound) :
    (itInsertNew f l).isSome = true ↔ ¬ Bridges ivs f := by
  rw [itInsertNew_isSome_iff h.separated]
  constructor
  · rintro huniq ⟨a, ha, b, hb, hfa, hfb, hno⟩
    obtain ⟨-, n, hn, han⟩ := h.member a ha
    obtain ⟨-, m, hm, hbm⟩ := h.member b hb
    obtain rfl := huniq n hn m hm ((h.intersect_iff hn hf).2 ⟨a, ha, han, hfa⟩)
      ((h.intersect_iff hm hf).2 ⟨b, hb, hbm, hfb⟩)
    exact hno (h.linked n hn a ha b hb han hbm)
  · intro hno n hn m hm hfn hfm
    obtain ⟨a, ha, han, hfa⟩ := (h.intersect_iff hn hf).1 hfn
    obtain ⟨b, hb, hbm, hfb⟩ := (h.intersect_iff hm hf).1 hfm
    by_contra hne
    refine hno ⟨a, ha, b, hb, hfa, hfb, fun hab => hne ?_⟩
    have hbn := h.within_of_linked hn han hab
    exact h.separated.eq_of_intersect hn hm (hbn.intersect hbm (h.member b hb).1)

/-- The interval goes into the piece `p`, which becomes `q`. -/
theorem extend (h : Pieces ivs (pre ++ p :: suf)) (hf : f.base ≤ f.bound)
    (hi : itIntersect f p = true) (hs : Separated (pre ++ p.extend f :: suf)) :
    Pieces (ivs ++ [f]) (pre ++ p.extend f :: suf) := by
  have hsub : ∀ c ∈ ivs, c ∈ ivs ++ [f] := fun c hc => List.mem_append_left _ hc
  have hfmem : f ∈ ivs ++ [f] := List.mem_append_right _ (List.mem_singleton_self f)
  have hp : p ∈ pre ++ p :: suf := List.mem_append_right _ List.mem_cons_self
  have hout : ∀ {n}, n ∈ pre ++ suf → n ∈ pre ++ p :: suf := fun hn =>
    List.perm_middle.mem_iff.2 (List.mem_cons_of_mem _ hn)
  have hsplit : ∀ {n}, n ∈ pre ++ p.extend f :: suf → n = p.extend f ∨ n ∈ pre ++ suf := fun hn =>
    List.mem_cons.1 (List.perm_middle.mem_iff.1 hn)
  have hple := h.separated.le p hp
  have hwide : ∀ {c : ItNode}, c.Within p → c.Within (p.extend f) := by
    rintro c ⟨h1, h2⟩
    simp only [ItNode.Within, ItNode.extend]
    split <;> split <;> omega
  have hfin : f.Within (p.extend f) := by
    simp only [ItNode.Within, ItNode.extend]
    split <;> split <;> omega
  obtain ⟨e, he, hep, hfe⟩ := (h.intersect_iff hp hf).1 hi
  have hfe' : Linked (ivs ++ [f]) f e := Relation.ReflTransGen.single ⟨hfmem, hsub e he, hfe⟩
  -- every interval of the new piece is linked to the one that `f` touches
  have hreach : ∀ c ∈ ivs ++ [f], c.Within (p.extend f) → Linked (ivs ++ [f]) c e := by
    intro c hc hcq
    rcases List.mem_append.1 hc with hc | hc
    · obtain ⟨hcle, n, hn, hcn⟩ := h.member c hc
      rcases List.mem_cons.1 (List.perm_middle.mem_iff.1 hn) with rfl | hn
      · exact (h.linked n hp c hc e he hcn hep).mono hsub
      · have hno := hs.apart hn
        rw [hcn.intersect hcq hcle] at hno
        cases hno
    · rw [List.mem_singleton.1 hc]
      exact hfe'
  refine ⟨hs, ?_, ?_, ?_, ?_⟩
  · intro c hc
    rcases List.mem_append.1 hc with hc | hc
    · obtain ⟨hcle, n, hn, hcn⟩ := h.member c hc
      refine ⟨hcle, ?_⟩
      rcases List.mem_cons.1 (List.perm_middle.mem_iff.1 hn) with rfl | hn
      · exact ⟨_, List.mem_append_right _ List.mem_cons_self, hwide hcn⟩
      · exact ⟨n, List.perm_middle.mem_iff.2 (List.mem_cons_of_mem _ hn), hcn⟩
    · rw [List.mem_singleton.1 hc]
      exact ⟨hf, _, List.mem_append_right _ List.mem_cons_self, hfin⟩
  · intro n hn c hc d hd hcn hdn
    rcases hsplit hn with rfl | hn
    · exact (hreach c hc hcn).trans (hreach d hd hdn).symm
    · have hold : ∀ x ∈ ivs ++ [f], x.Within n → x ∈ ivs := by
        intro x hx hxn
        rcases List.mem_append.1 hx with hx | hx
        · exact hx
        · rw [List.mem_singleton.1 hx] at hxn
          have hno := hs.apart hn
          rw [hxn.intersect hfin hf] at hno
          cases hno
      exact (h.linked n (hout hn) c (hold c hc hcn) d (hold d hd hdn) hcn hdn).mono hsub
  · intro n hn
    rcases hsplit hn with rfl | hn
    · obtain ⟨a, ha, hap, hbase⟩ := h.first p hp
      by_cases hlt : f.base < p.base
      · exact ⟨f, hfmem, hfin, by simp only [ItNode.extend]; rw [if_pos hlt]⟩
      · exact ⟨a, hsub a ha, hwide hap, by simp only [ItNode.extend]; rw [if_neg hlt, hbase]⟩
    · obtain ⟨a, ha, han, hbase⟩ := h.first n (hout hn)
      exact ⟨a, hsub a ha, han, hbase⟩
  · intro n hn
    rcases hsplit hn with rfl | hn
    · obtain ⟨b, hb, hbp, hbound⟩ := h.last p hp
      by_cases hlt : p.bound < f.bound
      · exact ⟨f, hfmem, hfin, by simp only [ItNode.extend]; rw [if_pos hlt]⟩
      · exact ⟨b, hsub b hb, hwide hbp, by simp only [ItNode.extend]; rw [if_neg hlt, hbound]⟩
    · obtain ⟨b, hb, hbn, hbound⟩ := h.last n (hout hn)
      exact ⟨b, hsub b hb, hbn, hbound⟩

/-- The interval becomes a piece of its own. -/
theorem between (h : Pieces ivs (pre ++ suf)) (hf : f.base ≤ f.bound)
    (hs : Separated (pre ++ f :: suf)) :
    Pieces (ivs ++ [f]) (pre ++ f :: suf) := by
  have hsub : ∀ c ∈ ivs, c ∈ ivs ++ [f] := fun c hc => List.mem_append_left _ hc
  have hfmem : f ∈ ivs ++ [f] := List.mem_append_right _ (List.mem_singleton_self f)
  have hsplit : ∀ {n}, n ∈ pre ++ f :: suf → n = f ∨ n ∈ pre ++ suf := fun hn =>
    List.mem_cons.1 (List.perm_middle.mem_iff.1 hn)
  have hself : f.Within f := ⟨le_rfl, le_rfl⟩
  -- the pieces and the new one have no interval in common
  have hnew : ∀ c ∈ ivs ++ [f], c.Within f → c = f := by
    intro c hc hcf
    rcases List.mem_append.1 hc with hc | hc
    · obtain ⟨hcle, n, hn, hcn⟩ := h.member c hc
      have hno := hs.apart hn
      rw [hcn.intersect hcf hcle] at hno
      cases hno
    · exact List.mem_singleton.1 hc
  have hold : ∀ {n}, n ∈ pre ++ suf → ∀ c ∈ ivs ++ [f], c.Within n → c ∈ ivs := by
    intro n hn c hc hcn
    rcases List.mem_append.1 hc with hc | hc
    · exact hc
    · rw [List.mem_singleton.1 hc] at hcn
      have hno := hs.apart hn
      rw [hcn.intersect hself hf] at hno
      cases hno
  refine ⟨hs, ?_, ?_, ?_, ?_⟩
  · intro c hc
    rcases List.mem_append.1 hc with hc | hc
    · obtain ⟨hcle, n, hn, hcn⟩ := h.member c hc
      exact ⟨hcle, n, List.perm_middle.mem_iff.2 (List.mem_cons_of_mem _ hn), hcn⟩
    · rw [List.mem_singleton.1 hc]
      exact ⟨hf, f, List.mem_append_right _ List.mem_cons_self, hself⟩
  · intro n hn c hc d hd hcn hdn
    rcases hsplit hn with rfl | hn
    · rw [hnew c hc hcn, hnew d hd hdn]
      exact Relation.ReflTransGen.refl
    · exact (h.linked n hn c (hold hn c hc hcn) d (hold hn d hd hdn) hcn hdn).mono hsub
  · intro n hn
    rcases hsplit hn with rfl | hn
    · exact ⟨n, hfmem, hself, rfl⟩
    · obtain ⟨a, ha, han, hbase⟩ := h.first n hn
      exact ⟨a, hsub a ha, han, hbase⟩
  · intro n hn
    rcases hsplit hn with rfl | hn
    · exact ⟨n, hfmem, hself, rfl⟩
    · obtain ⟨b, hb, hbn, hbound⟩ := h.last n hn
      exact ⟨b, hsub b hb, hbn, hbound⟩

/-- **A successful insertion leaves the pieces of the longer sequence.** -/
theorem insert (h : Pieces ivs l) (hf : f.base ≤ f.bound)
    (hins : itInsertNew f l = some (new, l')) :
    Pieces (ivs ++ [f]) l' := by
  have hs := itInsertNew_separated hf h.separated hins
  rcases itInsertNew_cases hins with ⟨pre, p, suf, rfl, rfl, -, hi, -⟩ | ⟨pre, suf, rfl, rfl, -⟩
  · exact h.extend hf hi hs
  · exact h.between hf hs

end Pieces

end Yacet
