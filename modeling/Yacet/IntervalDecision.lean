import Yacet.IntervalJoin

/-!
# What the check of an interval lock decides (`zkclient.c`)

A client has created a node for its row and lists the directory; the sorts and searches of the check
are any that the standard allows.

* `Blocking` — the nodes in front of its own that belong to its row or to one that overlaps it.
* `Decides` — what `_zk_determine_interval_lock_eligibility` may make of the nodes and the rows.
* `DecidesExactly` — the client is let in iff nothing blocks it, and otherwise the blocking node
  with the largest number is found.
* `decidesExactly_iff` — **the check decides exactly iff the client's own row is not empty and the
  ids of the two rows that matter are told from all others**: an empty row overlaps nothing, so the
  own node is not among the relevant ones; and a comparison that cuts ids down may miss a row's
  nodes.
-/

namespace Yacet

open CText Search Comparison

namespace IntervalLock

/-! ## The check -/

/-- What the check of the client that has created node `s` for the row `own` may decide. -/
def Decides (nodes : List (ℕ × ℕ)) (rows : List ItNode) (own : ItNode) (s : ℕ) (d : Decision) :
    Prop :=
  let curSequence := toInt (getSequenceNumber (intervalNode own.id s))
  ∃ relevant found, Returns (nodes.map childName) (conflictingRows own rows) relevant ∧
    Bsearch (fun x : Relevant => cmpSequence curSequence x.sequence) relevant found ∧
    d = decisionAt curSequence relevant found

/-- The check with a stable sort and a search that halves. -/
def determine (nodes : List (ℕ × ℕ)) (rows : List ItNode) (own : ItNode) (s : ℕ) :
    Option Decision :=
  (sortedRelevantIntervals (nodes.map childName) own rows).map
    (eligibility (intervalNode own.id s))

theorem decides_determine {nodes : List (ℕ × ℕ)} {rows : List ItNode} {own : ItNode} {s : ℕ}
    {d : Decision} (h : determine nodes rows own s = some d) : Decides nodes rows own s d := by
  obtain ⟨relevant, hrel, rfl⟩ := Option.map_eq_some_iff.1 h
  exact ⟨relevant, _, returns_sortedRelevantIntervals hrel, bsearch_search _ _,
    eligibility_eq _ _⟩

/-! ## What it is to decide -/

/-- A node in front that belongs to the own row or to a row that overlaps it. -/
structure Blocking (nodes : List (ℕ × ℕ)) (rows : List ItNode) (own : ItNode) (s : ℕ)
    (e : ℕ × ℕ) : Prop where
  mem : e ∈ nodes
  lt : e.1 < s
  row : e.2 = own.id ∨ ∃ r ∈ rows, r.id = e.2 ∧ itConflict own r = true

/-- The blocking node with the largest number. -/
structure Foremost (nodes : List (ℕ × ℕ)) (rows : List ItNode) (own : ItNode) (s : ℕ)
    (e : ℕ × ℕ) : Prop extends Blocking nodes rows own s e where
  largest : ∀ e', Blocking nodes rows own s e' → e'.1 ≤ e.1

/-- The check decides, and whatever it decides is right. -/
structure DecidesExactly (nodes : List (ℕ × ℕ)) (rows : List ItNode) (own : ItNode) (s : ℕ) :
    Prop where
  decides : ∃ d, Decides nodes rows own s d
  acquired : ∀ d, Decides nodes rows own s d →
    (d = .acquired ↔ ∀ e, ¬ Blocking nodes rows own s e)
  behind : ∀ d, Decides nodes rows own s d → (∃ e, Blocking nodes rows own s e) →
    ∃ e, Foremost nodes rows own s e ∧ ∃ r ∈ rows, r.id = e.2 ∧ d = .behind ⟨r, e.1⟩

/-- The directory and the rows as the client sees them: every row and every number is there once,
and the own node is listed. -/
structure Seen (nodes : List (ℕ × ℕ)) (rows : List ItNode) (own : ItNode) (s : ℕ) : Prop where
  rowIds : (rows.map ItNode.id).Nodup
  ownRow : own ∈ rows
  numbers : (nodes.map Prod.fst).Nodup
  bound : ∀ e ∈ nodes, e.1 < seqBound
  created : (s, own.id) ∈ nodes
  size : ∀ e ∈ nodes, e.2 < 2 ^ 64

/-- No other node has the last 32 bits of the id. -/
def Distinct (nodes : List (ℕ × ℕ)) (id : ℕ) : Prop :=
  ∀ e ∈ nodes, e.2 % 2 ^ 32 = id % 2 ^ 32 → e.2 = id

/-- The ids of the nodes lie on one half of the circle of 32-bit numbers, and those of the own row
and of the foremost blocking node are told from all others. -/
structure Told (nodes : List (ℕ × ℕ)) (rows : List ItNode) (own : ItNode) (s : ℕ) : Prop where
  half : OnHalf (2 ^ 32) (fun e : ℕ × ℕ => (e.2 : ℤ)) nodes
  self : Distinct nodes own.id
  front : ∀ e, Foremost nodes rows own s e → Distinct nodes e.2

/-! ## The predecessor -/

section Predecessor

variable {relevant : List Relevant} {found : Option ℕ} {s : ℕ} {x p : Relevant}

/-- In the order of the numbers, the own number is found where it stands, whatever the search is. -/
theorem found_own (hsorted : relevant.Pairwise fun a b => a.sequence < b.sequence)
    (hrange : ∀ y ∈ relevant, 0 ≤ y.sequence ∧ y.sequence < seqBound) (hs : s < seqBound)
    (hfind : Bsearch (fun y : Relevant => cmpSequence s y.sequence) relevant found)
    (hx : x ∈ relevant) (hxs : x.sequence = s) :
    ∃ i, found = some i ∧ ∃ hi : i < relevant.length, relevant[i].sequence = s := by
  have hcmp : ∀ y ∈ relevant, cmpSequence s y.sequence = s - y.sequence := fun y hy =>
    cmpSequence_of_lt ⟨by omega, by exact_mod_cast hs⟩ (hrange y hy)
  cases found with
  | none =>
      have hparted : Parted (fun y : Relevant => cmpSequence s y.sequence) relevant := by
        apply hsorted.imp_of_mem
        intro a b ha hb hlt
        simp only [hcmp a ha, hcmp b hb]
        omega
      have hne := hfind.none hparted rfl x hx
      rw [hcmp x hx, hxs, sub_self] at hne
      exact absurd rfl hne
  | some i =>
      obtain ⟨hi, hzero⟩ := hfind.some i rfl
      rw [hcmp _ (List.getElem_mem hi)] at hzero
      exact ⟨i, rfl, hi, by omega⟩

/-- **With the own number and a smaller one among them, the largest of the smaller ones is
found.** -/
theorem decisionAt_behind (hsorted : relevant.Pairwise fun a b => a.sequence < b.sequence)
    (hrange : ∀ y ∈ relevant, 0 ≤ y.sequence ∧ y.sequence < seqBound) (hs : s < seqBound)
    (hfind : Bsearch (fun y : Relevant => cmpSequence s y.sequence) relevant found)
    (hx : x ∈ relevant) (hxs : x.sequence = s) (hp : p ∈ relevant) (hps : p.sequence < s)
    (hmax : ∀ y ∈ relevant, y.sequence < s → y.sequence ≤ p.sequence) :
    decisionAt s relevant found = .behind p := by
  obtain ⟨i, rfl, hi, hown⟩ := found_own hsorted hrange hs hfind hx hxs
  have hget := List.pairwise_iff_getElem.1 hsorted
  obtain ⟨j, hj, rfl⟩ := List.mem_iff_getElem.1 hp
  have hji : j < i := by
    by_contra hle
    rcases Nat.lt_or_eq_of_le (not_lt.1 hle) with hlt | rfl
    · have hgt := hget i j hi hj hlt
      omega
    · omega
  obtain ⟨k, rfl⟩ : ∃ k, i = k + 1 := ⟨i - 1, by omega⟩
  have hk : k < relevant.length := by omega
  have hkj : k = j := by
    have hklt := hget k (k + 1) hk hi (Nat.lt_succ_self k)
    have hkmax := hmax _ (List.getElem_mem hk) (by omega)
    rcases Nat.lt_or_eq_of_le (Nat.le_of_lt_succ hji) with hlt | heq
    · have hgt := hget j k hj hk hlt
      omega
    · exact heq.symm
  subst hkj
  refine decisionAt_found (fun first hfirst heq => ?_) (List.getElem?_eq_getElem hk)
  obtain ⟨h0, rfl⟩ : ∃ h0 : 0 < relevant.length, relevant[0] = first := by
    rw [List.head?_eq_getElem?] at hfirst
    exact List.getElem?_eq_some_iff.1 hfirst
  have hlt := hget 0 (k + 1) h0 hi (Nat.succ_pos k)
  omega

end Predecessor

/-! ## Whatever the answers are -/

variable {nodes : List (ℕ × ℕ)} {rows : List ItNode} {own : ItNode} {s : ℕ}
  {relevant : List Relevant} {d : Decision} {e : ℕ × ℕ} {x : Relevant} {r : ItNode}

theorem toInt_intervalNode (id : ℕ) (hs : s < seqBound) :
    toInt (getSequenceNumber (intervalNode id s)) = s := by
  rw [intervalNode, toInt_getSequenceNumber _ hs]

theorem Foremost.unique {e' : ℕ × ℕ} (hnum : (nodes.map Prod.fst).Nodup)
    (h : Foremost nodes rows own s e) (h' : Foremost nodes rows own s e') : e = e' :=
  List.inj_on_of_nodup_map hnum h.mem h'.mem
    (le_antisymm (h'.largest e h.toBlocking) (h.largest e' h'.toBlocking))

/-- Of the blocking nodes one has the largest number. -/
theorem exists_foremost (h : ∃ e, Blocking nodes rows own s e) :
    ∃ e, Foremost nodes rows own s e := by
  have hfinite : {e | Blocking nodes rows own s e}.Finite :=
    (List.finite_toSet nodes).subset fun _ he => he.mem
  obtain ⟨e, he, hmax⟩ := Set.exists_max_image _ Prod.fst hfinite h
  exact ⟨e, he, hmax⟩

/-- The row a blocking node belongs to, if the own row is not empty. -/
theorem Blocking.conflicting (h : Blocking nodes rows own s e) (hown : own ∈ rows)
    (hne : own.base < own.bound) : ∃ r ∈ conflictingRows own rows, r.id = e.2 := by
  rcases h.row with hid | ⟨r, hr, hid, hconf⟩
  · exact ⟨own, List.mem_filter.2 ⟨hown, itConflict_iff.2 ⟨hne, hne⟩⟩, hid.symm⟩
  · exact ⟨r, List.mem_filter.2 ⟨hr, hconf⟩, hid⟩

namespace Seen

theorem named (h : Seen nodes rows own s) : Named nodes (conflictingRows own rows) where
  rowIds := h.rowIds.sublist (List.filter_sublist.map _)
  numbers := h.numbers
  bound := h.bound
  size := h.size

theorem number_lt (h : Seen nodes rows own s) : s < seqBound := h.bound _ h.created

theorem row_unique (h : Seen nodes rows own s) {t : ItNode} (hr : r ∈ rows) (ht : t ∈ rows)
    (hid : r.id = t.id) : r = t :=
  List.inj_on_of_nodup_map h.rowIds hr ht hid

theorem node_unique (h : Seen nodes rows own s) {f : ℕ × ℕ} (he : e ∈ nodes) (hf : f ∈ nodes)
    (hnum : e.1 = f.1) : e = f :=
  List.inj_on_of_nodup_map h.numbers he hf hnum

/-- An entry of the own number is the own row's, which is then not empty. -/
theorem own_of_sequence (h : Seen nodes rows own s)
    (hreturns : Returns (nodes.map childName) (conflictingRows own rows) relevant)
    (hx : x ∈ relevant) (hxs : x.sequence = s) :
    x.interval = own ∧ own.base < own.bound := by
  obtain ⟨hrow, e, he, hid, hseq⟩ := h.named.sound hreturns hx
  obtain ⟨hmem, hconf⟩ := List.mem_filter.1 hrow
  have hnode : e = (s, own.id) := h.node_unique he h.created (by
    have : (e.1 : ℤ) = s := hseq.trans hxs
    exact_mod_cast this)
  subst hnode
  have hown : x.interval = own := h.row_unique hmem h.ownRow hid.symm
  rw [hown] at hconf
  exact ⟨hown, (itConflict_iff.1 hconf).1⟩

/-- An entry in front is one of a blocking node. -/
theorem blocking_of_mem (h : Seen nodes rows own s)
    (hreturns : Returns (nodes.map childName) (conflictingRows own rows) relevant)
    (hx : x ∈ relevant) (hlt : x.sequence < s) :
    ∃ e, Blocking nodes rows own s e ∧ e.2 = x.interval.id ∧ (e.1 : ℤ) = x.sequence := by
  obtain ⟨hrow, e, he, hid, hseq⟩ := h.named.sound hreturns hx
  obtain ⟨hmem, hconf⟩ := List.mem_filter.1 hrow
  exact ⟨e, ⟨he, by omega, Or.inr ⟨x.interval, hmem, hid.symm, hconf⟩⟩, hid, hseq⟩

/-! ### Told ids -/

/-- **With told ids and a row that is not empty, every decision is right.** -/
theorem decidesExactly (h : Seen nodes rows own s) (hne : own.base < own.bound)
    (htold : Told nodes rows own s) : DecidesExactly nodes rows own s := by
  have hs := h.number_lt
  have hconf : own ∈ conflictingRows own rows :=
    List.mem_filter.2 ⟨h.ownRow, itConflict_iff.2 ⟨hne, hne⟩⟩
  have hcur := toInt_intervalNode own.id hs
  -- the own node is among the relevant ones
  have hown : ∀ relevant, Returns (nodes.map childName) (conflictingRows own rows) relevant →
      (⟨own, s⟩ : Relevant) ∈ relevant := fun relevant hreturns =>
    h.named.complete hreturns htold.half hconf h.created rfl htold.self
  -- and so is the foremost one that blocks
  have hfront : ∀ relevant, Returns (nodes.map childName) (conflictingRows own rows) relevant →
      ∀ e, Foremost nodes rows own s e → ∃ r ∈ rows, r.id = e.2 ∧
        (⟨r, e.1⟩ : Relevant) ∈ relevant := by
    intro relevant hreturns e he
    obtain ⟨r, hr, hid⟩ := he.conflicting h.ownRow hne
    have hdistinct := htold.front e he
    rw [← hid] at hdistinct
    exact ⟨r, (List.mem_filter.1 hr).1, hid,
      h.named.complete hreturns htold.half hr he.mem hid.symm hdistinct⟩
  refine ⟨?_, ?_, ?_⟩
  · obtain ⟨relevant, hreturns⟩ := h.named.exists_returns_some
    exact ⟨_, relevant, _, hreturns, bsearch_search _ _, rfl⟩
  · rintro d ⟨relevant, found, hreturns, -, rfl⟩
    have hsorted := (h.named.ordered hreturns).imp fun hlt => hlt.le
    rw [decisionAt_acquired hsorted, hcur]
    constructor
    · rintro ⟨-, hle⟩ e he
      obtain ⟨f, hf⟩ := exists_foremost ⟨e, he⟩
      obtain ⟨r, -, -, hmem⟩ := hfront relevant hreturns f hf
      have hge := hle _ hmem
      have hlt := hf.lt
      simp only at hge
      omega
    · intro hfree
      refine ⟨⟨⟨own, s⟩, hown relevant hreturns, rfl⟩, fun x hx => ?_⟩
      by_contra hlt
      obtain ⟨e, he, -⟩ := h.blocking_of_mem hreturns hx (not_le.1 hlt)
      exact hfree e he
  · rintro d ⟨relevant, found, hreturns, hfind, rfl⟩ hblocked
    rw [hcur] at hfind ⊢
    obtain ⟨e, he⟩ := exists_foremost hblocked
    obtain ⟨r, hr, hid, hmem⟩ := hfront relevant hreturns e he
    have hlt := he.lt
    refine ⟨e, he, r, hr, hid, ?_⟩
    refine decisionAt_behind (h.named.ordered hreturns) (fun y hy =>
      h.named.sequence_lt hreturns hy)
      hs hfind (hown relevant hreturns) rfl hmem (by simp only; omega) fun y hy hys => ?_
    obtain ⟨f, hf, -, hseq⟩ := h.blocking_of_mem hreturns hy hys
    have hle := he.largest f hf
    simp only
    omega

/-! ### Other ids -/

/-- A right decision has seen the own number. -/
theorem own_mem (h : Seen nodes rows own s) (hdec : DecidesExactly nodes rows own s)
    (hreturns : Returns (nodes.map childName) (conflictingRows own rows) relevant) :
    ∃ x ∈ relevant, x.sequence = s := by
  have hcur := toInt_intervalNode own.id h.number_lt
  have hmay : Decides nodes rows own s _ :=
    ⟨relevant, _, hreturns, bsearch_search _ _, rfl⟩
  have hsorted := (h.named.ordered hreturns).imp fun hlt => hlt.le
  by_cases hfree : ∀ e, ¬ Blocking nodes rows own s e
  · have hacq := (hdec.acquired _ hmay).2 hfree
    rw [decisionAt_acquired hsorted, hcur] at hacq
    exact hacq.1
  · push Not at hfree
    obtain ⟨e, -, r, -, -, hbehind⟩ := hdec.behind _ hmay hfree
    obtain ⟨i, hfound, -⟩ := exists_of_decisionAt hbehind
    obtain ⟨hi, hzero⟩ := search_some hfound
    rw [hcur, cmpSequence_of_lt ⟨by omega, by exact_mod_cast h.number_lt⟩
      (h.named.sequence_lt hreturns (List.getElem_mem hi))] at hzero
    exact ⟨_, List.getElem_mem hi, by omega⟩

/-- A right decision for a client that is blocked has seen the foremost node. -/
theorem foremost_mem (h : Seen nodes rows own s) (hdec : DecidesExactly nodes rows own s)
    (hreturns : Returns (nodes.map childName) (conflictingRows own rows) relevant)
    (he : Foremost nodes rows own s e) (hr : r ∈ rows) (hid : r.id = e.2) :
    (⟨r, e.1⟩ : Relevant) ∈ relevant := by
  have hmay : Decides nodes rows own s _ :=
    ⟨relevant, _, hreturns, bsearch_search _ _, rfl⟩
  obtain ⟨f, hf, t, ht, htid, hbehind⟩ := hdec.behind _ hmay ⟨e, he.toBlocking⟩
  obtain rfl := he.unique h.numbers hf
  obtain rfl : r = t := h.row_unique hr ht (hid.trans htid.symm)
  obtain ⟨i, -, hget⟩ := exists_of_decisionAt hbehind
  exact List.mem_of_getElem? hget

end Seen

/-- **The check decides exactly iff the own row is not empty and the ids are told.** -/
theorem decidesExactly_iff (h : Seen nodes rows own s) :
    DecidesExactly nodes rows own s ↔ own.base < own.bound ∧ Told nodes rows own s := by
  refine ⟨fun hdec => ?_, fun hcond => h.decidesExactly hcond.1 hcond.2⟩
  have hne : own.base < own.bound := by
    obtain ⟨relevant, hreturns⟩ := h.named.exists_returns_some
    obtain ⟨x, hx, hxs⟩ := h.own_mem hdec hreturns
    exact (h.own_of_sequence hreturns hx hxs).2
  have hids : OnHalf (2 ^ 32) (fun e : ℕ × ℕ => (e.2 : ℤ)) nodes ∧ Distinct nodes own.id := by
    by_contra hids
    obtain ⟨relevant, hreturns, hmissed⟩ := h.named.exists_missed h.created rfl hids
    obtain ⟨x, hx, hxs⟩ := h.own_mem hdec hreturns
    exact hmissed x hx (h.own_of_sequence hreturns hx hxs).1
  refine ⟨hne, hids.1, hids.2, fun e he => ?_⟩
  obtain ⟨r, hr, hid⟩ := he.conflicting h.ownRow hne
  by_contra hother
  rw [← hid] at hother
  obtain ⟨relevant, hreturns, hmissed⟩ :=
    h.named.exists_missed he.mem hid.symm fun hids => hother hids.2
  exact hmissed _ (h.foremost_mem hdec hreturns he (List.mem_filter.1 hr).1 hid) rfl

/-- Two rows that overlap, each with a node: the later client finds the earlier one. -/
theorem decidesExactly_iff_two :
    DecidesExactly [(0, 1), (1, 2)] [⟨1, 0, 4⟩, ⟨2, 2, 6⟩] ⟨2, 2, 6⟩ 1 := by
  have hdistinct : ∀ id ∈ [1, 2], Distinct [(0, 1), (1, 2)] id := by
    unfold Distinct
    decide
  refine (decidesExactly_iff ⟨by decide, by decide, by decide, by decide, by decide, by decide⟩).2
    ⟨by decide, ⟨0, by decide⟩, hdistinct 2 (by decide), fun e he => hdistinct e.2 ?_⟩
  have hmem := he.mem
  fin_cases hmem <;> decide

/-- One client, one row, and all text of the row has been deleted: nothing is in front, but the
client is not let in. -/
theorem determine_empty_row :
    ¬ DecidesExactly [(0, 1)] [⟨1, 5, 5⟩] ⟨1, 5, 5⟩ 0 := by
  intro hdec
  have hfree : ∀ e, ¬ Blocking [(0, 1)] [⟨1, 5, 5⟩] ⟨1, 5, 5⟩ 0 e := by
    intro e he
    exact absurd he.lt (Nat.not_lt_zero _)
  have hempty : determine [(0, 1)] [⟨1, 5, 5⟩] ⟨1, 5, 5⟩ 0 = some .empty := by decide
  have hacq := (hdec.acquired _ (decides_determine hempty)).2 hfree
  cases hacq

/-- Two nodes of a row that is not in the way hide the own one, whose id has the same last 32
bits. -/
theorem determine_same_last_bits :
    ¬ DecidesExactly [(0, 2 ^ 32 + 1), (1, 2 ^ 32 + 1), (2, 1)] [⟨1, 0, 4⟩, ⟨2 ^ 32 + 1, 10, 14⟩]
      ⟨1, 0, 4⟩ 2 := by
  intro hdec
  have hfree : ∀ e, ¬ Blocking [(0, 2 ^ 32 + 1), (1, 2 ^ 32 + 1), (2, 1)]
      [⟨1, 0, 4⟩, ⟨2 ^ 32 + 1, 10, 14⟩] ⟨1, 0, 4⟩ 2 e := by
    intro e he
    have hmem := he.mem
    have hlt := he.lt
    have hrow := he.row
    fin_cases hmem <;> simp [itConflict] at hlt hrow
  have hempty : determine [(0, 2 ^ 32 + 1), (1, 2 ^ 32 + 1), (2, 1)]
      [⟨1, 0, 4⟩, ⟨2 ^ 32 + 1, 10, 14⟩] ⟨1, 0, 4⟩ 2 = some .empty := by decide
  have hacq := (hdec.acquired _ (decides_determine hempty)).2 hfree
  cases hacq

end IntervalLock

end Yacet
