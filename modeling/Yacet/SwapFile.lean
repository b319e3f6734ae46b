import Yacet.Edits
import Yacet.Lib.CString

/-!
# The swap file (`file.c`)

* `addOracles` — what `pull_swap_file` writes: the backing file with the oracles around the
  intervals of the list (`addOracles_eq`).
* `oracleSearch`, `searchLoop` — find the oracles again and take their positions over.
* `pushSwapFile` — search, resize and splice, unlink.

Results: `searchLoop_wellFormed` (the positions found are ordered and inside the swap file),
`searchLoop_pulled` (in a swap file that holds the oracles only where they were written, the search
finds exactly the texts between them, unless a NUL hides one) and `searchLoop_locates_iff` (the same
for the whole file).
-/

namespace Yacet

open Descriptor Patchwork

abbrev Byte := UInt8

def newline : Byte := 10

def nul : Byte := 0

/-- `struct oracles`: the two strings. -/
structure Oracles where
  opening : List Byte
  closing : List Byte

/-- What `get_oracles` guarantees: strings cut out of one line of the options file. -/
structure Oracles.Proper (o : Oracles) : Prop where
  opening_ne : o.opening ≠ []
  closing_ne : o.closing ≠ []
  opening_nl : newline ∉ o.opening
  closing_nl : newline ∉ o.closing
  opening_nul : nul ∉ o.opening
  closing_nul : nul ∉ o.closing

/-! ## Pulling -/

/-- The loop of `add_oracles`; it breaks off when a text could not be copied.  The second component
is the backing descriptor. -/
def addLoop (o : Oracles) (size : ℕ) :
    Fd Byte → Fd Byte → ℤ → List ItNode → Fd Byte × Fd Byte
  | swp, f, _, [] => (swp, f)
  | swp, f, swpPos, n :: ns =>
    let adjBound := if n.bound > size then size else n.bound
    let (swp, f, _) := sendfile nul true swp f (n.base - swpPos)
    let swp := swp.write nul o.opening
    let (swp, f, cond) := sendfile nul true swp f ((adjBound : ℤ) - n.base)
    let swp := swp.write nul o.closing
    if cond < 0 then (swp, f) else addLoop o size swp f n.bound ns

/-- `add_oracles`, into a swap file that `pull_swap_file` has opened without `O_TRUNC` and that
holds `old`. -/
def addOracles (o : Oracles) (it : List ItNode) (backing old : List Byte) : List Byte :=
  let (swp, f) := addLoop o backing.length ⟨old, 0⟩ ⟨backing, 0⟩ 0 it
  let (swp, _, _) := sendfile nul true swp f ((backing.length : ℤ) - f.pos)
  swp.data

/-- A swap file as the text in front of each opening oracle and the text between the oracles. -/
structure Segment where
  lead : List Byte
  text : List Byte

/-- The bytes of the segments followed by `tail`. -/
def swapBytes (o : Oracles) : List Segment → List Byte → List Byte
  | [], tail => tail
  | s :: ss, tail => s.lead ++ (o.opening ++ (s.text ++ (o.closing ++ swapBytes o ss tail)))

/-- What is pulled: the stretches of the file between and in the intervals. -/
def pulled (F : List Byte) : ℕ → List ItNode → List Segment
  | _, [] => []
  | pos, n :: ns => ⟨F.slice pos n.base, F.slice n.base n.bound⟩ :: pulled F n.bound ns

/-- The intervals ascend from `pos` on, inside a file of length `L`. -/
def Ascends (L : ℕ) : ℕ → List ItNode → Prop
  | pos, [] => pos ≤ L
  | pos, n :: ns => pos ≤ n.base ∧ n.base ≤ n.bound ∧ Ascends L n.bound ns

theorem Ascends.pos_le {L : ℕ} : ∀ {it : List ItNode} {pos : ℕ}, Ascends L pos it → pos ≤ L
  | [], _, h => h
  | _ :: _, _, ⟨h1, h2, h3⟩ => Nat.le_trans (Nat.le_trans h1 h2) h3.pos_le

theorem ascends_of_pairwise {L : ℕ} : ∀ {it : List ItNode} {pos : ℕ},
    it.Pairwise (fun n m => n.bound ≤ m.base) → (∀ n ∈ it, n.base ≤ n.bound) →
      (∀ n ∈ it, n.bound ≤ L) → (∀ n ∈ it, pos ≤ n.base) → pos ≤ L → Ascends L pos it
  | [], _, _, _, _, _, h => h
  | n :: ns, _, hs, hle, hL, hpos, _ => by
    obtain ⟨hn, hs⟩ := List.pairwise_cons.1 hs
    rw [List.forall_mem_cons] at hle hL
    refine ⟨hpos n List.mem_cons_self, hle.1, ?_⟩
    exact ascends_of_pairwise hs hle.2 hL.2 hn hL.1

theorem length_pulled (F : List Byte) : ∀ (it : List ItNode) (pos : ℕ),
    (pulled F pos it).length = it.length
  | [], _ => rfl
  | n :: ns, _ => by simp only [pulled, List.length_cons, length_pulled F ns]

theorem pulled_texts (F : List Byte) : ∀ (it : List ItNode) (pos : ℕ),
    (pulled F pos it).map Segment.text = it.map fun n => F.slice n.base n.bound
  | [], _ => rfl
  | n :: ns, _ => by simp only [pulled, List.map_cons, pulled_texts F ns]

/-- The end of the file behind the last interval. -/
def behind (F : List Byte) : ℕ → List ItNode → List Byte
  | pos, [] => F.drop pos
  | _, n :: ns => behind F n.bound ns

variable {o : Oracles} {F old : List Byte} {it : List ItNode}

theorem addLoop_eq (o : Oracles) (old w : List Byte) {pos : ℕ} (h : Ascends F.length pos it) :
    ∃ w' pos', addLoop o F.length (Fd.wrote old w) ⟨F, pos⟩ pos it = (Fd.wrote old w', ⟨F, pos'⟩) ∧
      pos' ≤ F.length ∧
        w' ++ F.drop pos' = w ++ swapBytes o (pulled F pos it) (behind F pos it) := by
  induction it generalizing pos w with
  | nil => exact ⟨w, pos, rfl, h, rfl⟩
  | cons n ns ih =>
      obtain ⟨h1, h2, h3⟩ := h
      have hF := h3.pos_le
      obtain ⟨w', pos', e1, e2, e3⟩ := ih (w := w ++ F.slice pos n.base ++ o.opening ++
        F.slice n.base n.bound ++ o.closing) h3
      refine ⟨w', pos', ?_, e2, ?_⟩
      · have hadj : ¬ n.bound > F.length := by omega
        rw [addLoop, sendfile_over nul _ _ h1 (Nat.le_trans h2 hF)]
        simp only [hadj, if_false, Fd.write_over]
        rw [sendfile_over nul _ _ h2 hF]
        simp only [Fd.write_over]
        rw [if_neg (by omega), ← e1]
      · rw [e3]
        simp only [pulled, behind, swapBytes, List.append_assoc]

/-- **What a pull writes**: the segments of the file, over whatever the swap file held. -/
theorem addOracles_eq (o : Oracles) (old : List Byte) (h : Ascends F.length 0 it) :
    ∃ junk, addOracles o it F old =
      swapBytes o (pulled F 0 it) (behind F 0 it ++ junk) := by
  obtain ⟨w, pos, e1, e2, e3⟩ := addLoop_eq o old [] h
  have happ : ∀ (ss : List Segment) (t j : List Byte),
      swapBytes o ss (t ++ j) = swapBytes o ss t ++ j := by
    intro ss t j
    induction ss with
    | nil => rfl
    | cons s ss ih => simp only [swapBytes, ih, List.append_assoc]
  refine ⟨old.drop (w ++ F.drop pos).length, ?_⟩
  rw [happ, ← List.nil_append (swapBytes o _ _), ← e3, addOracles]
  rw [← Fd.wrote_nil, show ((0 : ℤ)) = ((0 : ℕ) : ℤ) from rfl, e1]
  simp only []
  rw [sendfile_over nul _ _ e2 (Nat.le_refl _), List.slice_length]
  rfl

/-! ## Pushing -/

/-- `oracle_search`; `ok = false` is a failing `fdopen`. -/
def oracleSearch (ok : Bool) (oracle swp : List Byte) (off : ℕ) : Option ℕ :=
  if ok then CString.scan newline nul oracle swp off else none

/-- The search loop of `push_swap_file` from offset `off` on: whether every oracle was found, and
the list with the positions taken over so far. -/
def searchLoop (ok : Call → Bool) (o : Oracles) (swp : List Byte) :
    ℕ → ℕ → List ItNode → Bool × List ItNode
  | _, _, [] => (true, [])
  | i, off, n :: ns =>
    match oracleSearch (ok .openSwap && ok (.searchOpen i)) o.opening swp off with
    | none => (false, n :: ns)
    | some oOpen =>
      match oracleSearch (ok .openSwap && ok (.searchClose i)) o.closing swp
          (oOpen + o.opening.length) with
      | none => (false, n :: ns)
      | some oClose =>
        let (found, ns) := searchLoop ok o swp (i + 1) (oClose + o.closing.length) ns
        (found, { n with base := oOpen + o.opening.length, bound := oClose } :: ns)

/-- What `push_swap_file` leaves: its return value, whether the swap file is unlinked, the stores
and the list. -/
structure PushResult where
  ret : ℤ
  unlinked : Bool
  stores : Stores Byte
  it : List ItNode
  deriving DecidableEq

/-- `push_swap_file`; `write = false` is `mode == 'r'`. -/
def pushSwapFile (ok : Call → Bool) (write : Bool) (fileId : ℕ) (o : Oracles) (it : List ItNode)
    (swp : List Byte) (s : Stores Byte) : Option PushResult :=
  if write then
    let (found, it) := searchLoop ok o swp 0 0 it
    if found then
      -- the return value of `query_resize_file` is dropped
      (queryResizeFile ok nul fileId it swp s).map fun (_, s) => ⟨0, true, s, it⟩
    else some ⟨-2, false, s, it⟩
  else some ⟨0, true, s, it⟩

theorem searchLoop_ids (ok : Call → Bool) (swp : List Byte) :
    ∀ (it : List ItNode) (i off : ℕ),
      (searchLoop ok o swp i off it).2.map ItNode.id = it.map ItNode.id
  | [], _, _ => rfl
  | n :: ns, i, off => by
    simp only [searchLoop]
    split
    · rfl
    · split
      · rfl
      · simp only [List.map_cons]
        rw [searchLoop_ids]

/-- Positions found by the search are ordered and inside the swap file. -/
theorem searchLoop_wellFormed (ok : Call → Bool) (swp : List Byte) (hne : o.closing ≠ []) :
    ∀ (it : List ItNode) (i off : ℕ), (searchLoop ok o swp i off it).1 = true →
      ∀ n ∈ (searchLoop ok o swp i off it).2, n.base ≤ n.bound ∧ n.bound ≤ swp.length
  | [], _, _, _, n, hn => by cases hn
  | n :: ns, i, off, h, m, hm => by
    simp only [searchLoop] at h hm
    split at h
    · cases h
    · rename_i oOpen ho
      rw [ho] at hm
      simp only at h hm
      split at h
      · cases h
      · rename_i oClose hc
        rw [hc] at hm
        rcases List.mem_cons.1 hm with rfl | hm
        · unfold oracleSearch at hc
          split at hc
          · obtain ⟨h1, h2⟩ := CString.scan_some hc
            have := h2.end_le hne
            exact ⟨h1, by simp only; omega⟩
          · cases hc
        · exact searchLoop_wellFormed ok swp hne ns _ _ h m hm

/-! ## Finding what was written -/

/-- Where the oracles of the segments stand, from offset `off` on. -/
def written (o : Oracles) : ℕ → List Segment → List ℕ
  | _, [] => []
  | off, s :: ss =>
    let p := off + s.lead.length
    let q := p + o.opening.length + s.text.length
    p :: q :: written o (q + o.closing.length) ss

/-- The list with the positions of the texts of the segments. -/
def located (o : Oracles) : ℕ → List Segment → List ItNode → List ItNode
  | off, s :: ss, n :: ns =>
    let p := off + s.lead.length
    let q := p + o.opening.length + s.text.length
    { n with base := p + o.opening.length, bound := q } :: located o (q + o.closing.length) ss ns
  | _, _, _ => []

/-- No NUL stands between an oracle and the beginning of its line, or the oracle before it. -/
def Visible (ss : List Segment) : Prop :=
  ∀ s ∈ ss, nul ∉ CString.lastLine newline s.lead ∧ nul ∉ CString.lastLine newline s.text

/-- From `off` on the oracles occur only where the segments have them. -/
def OnlyWritten (o : Oracles) (swp : List Byte) (off : ℕ) (ss : List Segment) : Prop :=
  ∀ p ≥ off, CString.OccursAt o.opening swp p ∨ CString.OccursAt o.closing swp p →
    p ∈ written o off ss

/-- The searches of a push find every oracle of the segments where the segments have it. -/
def Firsts (o : Oracles) (swp : List Byte) : ℕ → List Segment → Prop
  | _, [] => True
  | off, s :: ss =>
    let p := off + s.lead.length
    let q := p + o.opening.length + s.text.length
    oracleSearch true o.opening swp off = some p ∧
      oracleSearch true o.closing swp (p + o.opening.length) = some q ∧
      Firsts o swp (q + o.closing.length) ss

section Search

variable {swp : List Byte} {ok : Call → Bool} {s : Segment} {ss : List Segment} {off p : ℕ}

theorem le_of_mem_written : ∀ {ss : List Segment} {off p : ℕ}, p ∈ written o off ss → off ≤ p
  | s :: ss, off, p, h => by
    simp only [written, List.mem_cons] at h
    rcases h with rfl | rfl | h
    · omega
    · omega
    · have := le_of_mem_written h
      omega

theorem OnlyWritten.tail (h : OnlyWritten o swp off (s :: ss)) (ho : o.Proper) :
    OnlyWritten o swp (off + s.lead.length + o.opening.length + s.text.length + o.closing.length)
      ss := by
  intro p hp hocc
  have h1 := List.length_pos_iff.2 ho.opening_ne
  have h2 := List.length_pos_iff.2 ho.closing_ne
  have hmem := h p (by omega) hocc
  simp only [written, List.mem_cons] at hmem
  rcases hmem with rfl | rfl | hmem
  · omega
  · omega
  · exact hmem

/-- The search for the opening oracle of the next segment. -/
theorem search_opening (ho : o.Proper) (h : OnlyWritten o swp off (s :: ss)) {rest : List Byte}
    (hswp : swp.drop off = s.lead ++ (o.opening ++ rest)) :
    CString.scan newline nul o.opening swp off = some (off + s.lead.length) ↔
      nul ∉ CString.lastLine newline s.lead := by
  refine CString.scan_first hswp ho.opening_ne ho.opening_nl ho.opening_nul fun k hk hocc => ?_
  have hmem := h (off + k) (by omega) (Or.inl hocc.of_drop)
  simp only [written, List.mem_cons] at hmem
  rcases hmem with he | he | hmem
  · omega
  · omega
  · have := le_of_mem_written hmem
    omega

/-- The search for the closing oracle of a segment, from behind its opening oracle. -/
theorem search_closing (ho : o.Proper) (h : OnlyWritten o swp off (s :: ss)) {rest : List Byte}
    (hswp : swp.drop (off + s.lead.length + o.opening.length) = s.text ++ (o.closing ++ rest)) :
    CString.scan newline nul o.closing swp (off + s.lead.length + o.opening.length) =
        some (off + s.lead.length + o.opening.length + s.text.length) ↔
      nul ∉ CString.lastLine newline s.text := by
  refine CString.scan_first hswp ho.closing_ne ho.closing_nl ho.closing_nul fun k hk hocc => ?_
  have h1 := List.length_pos_iff.2 ho.opening_ne
  have hmem := h (off + s.lead.length + o.opening.length + k) (by omega) (Or.inr hocc.of_drop)
  simp only [written, List.mem_cons] at hmem
  rcases hmem with he | he | hmem
  · omega
  · omega
  · have := le_of_mem_written hmem
    omega

/-- The calls of the searches for `n` intervals from round `i` on succeed. -/
def SearchCallsOk (ok : Call → Bool) (i n : ℕ) : Prop :=
  ∀ k < n, (ok .openSwap && ok (.searchOpen (i + k))) = true ∧
    (ok .openSwap && ok (.searchClose (i + k))) = true

theorem SearchCallsOk.tail {i n : ℕ} (h : SearchCallsOk ok i (n + 1)) :
    SearchCallsOk ok (i + 1) n :=
  fun k hk => by
    rw [show i + 1 + k = i + (k + 1) by omega]
    exact h (k + 1) (by omega)

theorem searchLoop_located : ∀ {ss : List Segment} {it : List ItNode} {i off : ℕ},
    SearchCallsOk ok i it.length → Firsts o swp off ss → ss.length = it.length →
      searchLoop ok o swp i off it = (true, located o off ss it)
  | [], [], _, _, _, _, _ => rfl
  | [], _ :: _, _, _, _, _, hlen => by cases hlen
  | _ :: _, [], _, _, _, _, hlen => by cases hlen
  | s :: ss, n :: ns, i, off, hcalls, h, hlen => by
    obtain ⟨hopen, hclose, hrest⟩ := h
    have hlen' : ss.length = ns.length := by simpa using hlen
    have hfirst := hcalls 0 (by simp)
    rw [Nat.add_zero] at hfirst
    simp only [searchLoop, hfirst.1, hfirst.2, hopen, hclose,
      searchLoop_located hcalls.tail hrest hlen', located]

theorem searchLoop_firsts (hok : ∀ c, ok c = true) {it : List ItNode} {i : ℕ}
    (h : Firsts o swp off ss) (hlen : ss.length = it.length) :
    searchLoop ok o swp i off it = (true, located o off ss it) :=
  searchLoop_located (fun k _ => by simp only [hok, Bool.and_self, and_self]) h hlen

/-- The located list names the texts of the segments. -/
theorem located_texts {tail : List Byte} : ∀ {ss : List Segment} {it : List ItNode} {off : ℕ},
    swp.drop off = swapBytes o ss tail → ss.length = it.length →
      (located o off ss it).map (fun n => swp.slice n.base n.bound) = ss.map Segment.text
  | [], [], _, _, _ => rfl
  | [], _ :: _, _, _, hlen => by cases hlen
  | _ :: _, [], _, _, hlen => by cases hlen
  | s :: ss, n :: ns, off, h, hlen => by
    have hdrop : ∀ {k : ℕ} {a b : List Byte}, swp.drop k = a ++ b → swp.drop (k + a.length) = b :=
      fun {k a b} h => by rw [← List.drop_drop, h, List.drop_left]
    have htext := hdrop (hdrop h)
    have hlen' : ss.length = ns.length := by simpa using hlen
    have hrest := located_texts (hdrop (hdrop htext)) hlen'
    rw [located, List.map_cons, List.map_cons, hrest, ← List.drop_take_eq_slice, htext,
      List.take_left]

/-- A search that succeeds has found two new occurrences for every interval. -/
theorem searchLoop_card (hok : ∀ c, ok c = true) (ho : o.Proper) {W : Finset ℕ} :
    ∀ {it : List ItNode} {i off : ℕ},
      (∀ p ≥ off, CString.OccursAt o.opening swp p ∨ CString.OccursAt o.closing swp p → p ∈ W) →
      (searchLoop ok o swp i off it).1 = true → 2 * it.length ≤ (W.filter (off ≤ ·)).card
  | [], _, _, _, _ => Nat.zero_le _
  | n :: ns, i, off, hW, h => by
    have h1 := List.length_pos_iff.2 ho.opening_ne
    have h2 := List.length_pos_iff.2 ho.closing_ne
    simp only [searchLoop, oracleSearch, hok, Bool.and_self, if_true] at h
    split at h
    · cases h
    · rename_i p hp
      split at h
      · cases h
      · rename_i q hq
        obtain ⟨hp1, hp2⟩ := CString.scan_some hp
        obtain ⟨hq1, hq2⟩ := CString.scan_some hq
        have hrec := searchLoop_card hok ho (W := W) (fun r hr => hW r (by omega)) h
        have hsub : insert p (insert q (W.filter (q + o.closing.length ≤ ·))) ⊆
            W.filter (off ≤ ·) := by
          intro r hr
          rw [Finset.mem_insert, Finset.mem_insert, Finset.mem_filter] at hr
          rw [Finset.mem_filter]
          rcases hr with rfl | rfl | ⟨hr1, hr2⟩
          · exact ⟨hW _ hp1 (Or.inl hp2), hp1⟩
          · exact ⟨hW _ (by omega) (Or.inr hq2), by omega⟩
          · exact ⟨hr1, by omega⟩
        have hcard := Finset.card_le_card hsub
        rw [Finset.card_insert_of_notMem (by
          rw [Finset.mem_insert, Finset.mem_filter]
          omega), Finset.card_insert_of_notMem (by
          rw [Finset.mem_filter]
          omega)] at hcard
        simp only [List.length_cons]
        omega

theorem length_written : ∀ (ss : List Segment) (off : ℕ),
    (written o off ss).length = 2 * ss.length
  | [], _ => rfl
  | s :: ss, off => by
    simp only [written, List.length_cons, length_written ss]
    omega

/-- A search that finds all pairs has found the first pair where it was written: with a skipped
occurrence there would be one too many. -/
theorem first_pair_written (hok : ∀ c, ok c = true) (ho : o.Proper) {s : Segment}
    {ss : List Segment} {ns : List ItNode} {i off p q : ℕ} (hlen : ss.length = ns.length)
    (hocc : OnlyWritten o swp off (s :: ss)) (hp : off ≤ p)
    (hpocc : CString.OccursAt o.opening swp p) (hq : p + o.opening.length ≤ q)
    (hqocc : CString.OccursAt o.closing swp q)
    (h : (searchLoop ok o swp i (q + o.closing.length) ns).1 = true) :
    p = off + s.lead.length ∧ q = off + s.lead.length + o.opening.length + s.text.length := by
  have h1 := List.length_pos_iff.2 ho.opening_ne
  have h2 := List.length_pos_iff.2 ho.closing_ne
  obtain ⟨W, hWdef⟩ : ∃ W, W = (written o off (s :: ss)).toFinset := ⟨_, rfl⟩
  have hW : ∀ r ≥ off, CString.OccursAt o.opening swp r ∨ CString.OccursAt o.closing swp r →
      r ∈ W := by
    intro r hr hocc'
    rw [hWdef]
    exact List.mem_toFinset.2 (hocc r hr hocc')
  have hcard := searchLoop_card hok ho (W := W) (fun r hr => hW r (by omega)) h
  have hWcard : W.card ≤ 2 * (ns.length + 1) := by
    rw [hWdef]
    refine Nat.le_trans (List.toFinset_card_le _) ?_
    rw [length_written, List.length_cons, hlen]
  -- two more occurrences in front of the closing oracle are too many
  have hthree : ∀ a b, a ∈ W → b ∈ W → a < b → b < q → False := by
    intro a b ha hb hab hbq
    have hsub : insert a (insert b (insert q (W.filter (q + o.closing.length ≤ ·)))) ⊆ W := by
      intro r hr
      rw [Finset.mem_insert, Finset.mem_insert, Finset.mem_insert, Finset.mem_filter] at hr
      rcases hr with rfl | rfl | rfl | ⟨hr, _⟩
      · exact ha
      · exact hb
      · exact hW _ (by omega) (Or.inr hqocc)
      · exact hr
    have hle := Finset.card_le_card hsub
    rw [Finset.card_insert_of_notMem, Finset.card_insert_of_notMem,
      Finset.card_insert_of_notMem] at hle
    · omega
    all_goals
      simp only [Finset.mem_insert, Finset.mem_filter]
      omega
  have hpW := hocc p hp (Or.inl hpocc)
  have hqW := hocc q (by omega) (Or.inr hqocc)
  have hmem : off + s.lead.length ∈ W ∧
      off + s.lead.length + o.opening.length + s.text.length ∈ W := by
    simp [hWdef, written]
  simp only [written, List.mem_cons] at hpW hqW
  have hpP : p = off + s.lead.length := by
    by_contra hne
    refine hthree _ p hmem.1 (hW p hp (Or.inl hpocc)) ?_ (by omega)
    rcases hpW with he | he | hpW
    · exact absurd he hne
    · omega
    · have := le_of_mem_written hpW
      omega
  refine ⟨hpP, ?_⟩
  by_contra hne
  refine hthree _ _ hmem.1 hmem.2 (by omega) ?_
  rcases hqW with he | he | hqW
  · omega
  · exact absurd he hne
  · have := le_of_mem_written hqW
    omega

/-- **The search finds every oracle iff none is hidden by a NUL, and then it finds the texts where
they were written.** -/
theorem searchLoop_pulled (hok : ∀ c, ok c = true) (ho : o.Proper) {tail : List Byte} :
    ∀ {ss : List Segment} {it : List ItNode} {i off : ℕ}, swp.drop off = swapBytes o ss tail →
      ss.length = it.length → OnlyWritten o swp off ss →
      ((searchLoop ok o swp i off it).1 = true ↔ Visible ss) ∧
        (Visible ss → (searchLoop ok o swp i off it).2 = located o off ss it)
  | [], [], _, _, _, _, _ => ⟨⟨fun _ _ hs =>
      absurd hs List.not_mem_nil, fun _ => rfl⟩, fun _ => rfl⟩
  | [], _ :: _, _, _, _, hlen, _ => by cases hlen
  | _ :: _, [], _, _, _, hlen, _ => by cases hlen
  | s :: ss, n :: ns, i, off, hswp, hlen, hocc => by
    have h1 := List.length_pos_iff.2 ho.opening_ne
    have h2 := List.length_pos_iff.2 ho.closing_ne
    -- the text behind the lead, behind the opening oracle, behind the closing oracle
    have hdrop : ∀ {k : ℕ} {a b : List Byte}, swp.drop k = a ++ b → swp.drop (k + a.length) = b :=
      fun {k a b} h => by rw [← List.drop_drop, h, List.drop_left]
    have hlead := hdrop hswp
    have htext := hdrop hlead
    have hclosing := hdrop htext
    have hrest := hdrop hclosing
    have hopen := search_opening ho hocc hswp
    have hclose := search_closing ho hocc htext
    have hlen' : ss.length = ns.length := by simpa using hlen
    obtain ⟨ih1, ih2⟩ := searchLoop_pulled hok ho (i := i + 1) hrest hlen' (hocc.tail ho)
    have hvisible : Visible (s :: ss) ↔ (nul ∉ CString.lastLine newline s.lead ∧
        nul ∉ CString.lastLine newline s.text) ∧ Visible ss := List.forall_mem_cons
    simp only [searchLoop, oracleSearch, hok, Bool.and_self, if_true]
    constructor
    · constructor
      · intro h
        split at h
        · cases h
        · rename_i p hp
          split at h
          · cases h
          · rename_i q hq
            obtain ⟨hp1, hp2⟩ := CString.scan_some hp
            obtain ⟨hq1, hq2⟩ := CString.scan_some hq
            obtain ⟨rfl, rfl⟩ := first_pair_written hok ho hlen' hocc hp1 hp2 hq1 hq2 h
            exact hvisible.2 ⟨⟨hopen.1 hp, hclose.1 hq⟩, ih1.1 h⟩
      · intro hv
        obtain ⟨⟨hv1, hv2⟩, hv⟩ := hvisible.1 hv
        simp only [hopen.2 hv1, hclose.2 hv2]
        exact ih1.2 hv
    · intro hv
      obtain ⟨⟨hv1, hv2⟩, hv⟩ := hvisible.1 hv
      simp only [hopen.2 hv1, hclose.2 hv2, ih2 hv]
      rfl

/-- Occurrences are looked for up to the end of the swap file only. -/
theorem onlyWritten_of_bounded {ss : List Segment} (ho : o.Proper)
    (h : ∀ p < swp.length, CString.OccursAt o.opening swp p ∨ CString.OccursAt o.closing swp p →
      p ∈ written o 0 ss) : OnlyWritten o swp 0 ss := by
  intro p _ hocc
  refine h p ?_ hocc
  have h1 := List.length_pos_iff.2 ho.opening_ne
  have h2 := List.length_pos_iff.2 ho.closing_ne
  rcases hocc with hocc | hocc
  · have := hocc.end_le ho.opening_ne
    omega
  · have := hocc.end_le ho.closing_ne
    omega

/-- Oracles that occur at finitely many places are proper ones. -/
theorem OnlyWritten.proper (h : OnlyWritten o swp 0 ss)
    (hnl : newline ∉ o.opening ∧ newline ∉ o.closing) (hstr : nul ∉ o.opening ∧ nul ∉ o.closing) :
    o.Proper := by
  obtain ⟨p, hp⟩ := Infinite.exists_notMem_finset (written o 0 ss).toFinset
  rw [List.mem_toFinset] at hp
  refine ⟨fun hnil => hp ?_, fun hnil => hp ?_, hnl.1, hnl.2, hstr.1, hstr.2⟩
  · refine h p (Nat.zero_le p) (Or.inl ?_)
    rw [hnil]
    exact List.nil_prefix
  · refine h p (Nat.zero_le p) (Or.inr ?_)
    rw [hnil]
    exact List.nil_prefix

/-- **The search loop takes over exactly the positions of the texts iff no NUL hides an oracle.** -/
theorem searchLoop_locates_iff (hok : ∀ c, ok c = true) {tail : List Byte} {it : List ItNode}
    (hnl : newline ∉ o.opening ∧ newline ∉ o.closing) (hstr : nul ∉ o.opening ∧ nul ∉ o.closing)
    (hlen : ss.length = it.length) (hocc : OnlyWritten o (swapBytes o ss tail) 0 ss) :
    searchLoop ok o (swapBytes o ss tail) 0 0 it = (true, located o 0 ss it) ↔ Visible ss := by
  obtain ⟨hfound, hlocated⟩ := searchLoop_pulled hok (hocc.proper hnl hstr) (i := 0)
    (List.drop_zero (l := swapBytes o ss tail)) hlen hocc
  constructor
  · intro h
    rw [← hfound, h]
  · intro hv
    exact Prod.ext (hfound.2 hv) (hlocated hv)

/-- Two pairs, the second one behind a newline and a NUL. -/
theorem searchLoop_locates_two :
    let o : Oracles := ⟨List.replicate 8 60, List.replicate 8 62⟩
    let ss : List Segment := [⟨[97], [98, 10]⟩, ⟨[0, 10, 99], []⟩]
    searchLoop (fun _ => true) o (swapBytes o ss [0]) 0 0 [⟨1, 0, 0⟩, ⟨2, 0, 0⟩] =
      (true, located o 0 ss [⟨1, 0, 0⟩, ⟨2, 0, 0⟩]) ↔ Visible ss := by
  intro o ss
  have ho : o.Proper := ⟨by decide, by decide, by decide, by decide, by decide, by decide⟩
  exact searchLoop_locates_iff (fun _ => rfl) (by decide) (by decide) rfl
    (onlyWritten_of_bounded ho (by decide))

/-- A NUL in front of the opening oracle, in the same line: nothing is found. -/
theorem searchLoop_hidden :
    let o : Oracles := ⟨List.replicate 8 60, List.replicate 8 62⟩
    let ss : List Segment := [⟨[0], [98]⟩]
    OnlyWritten o (swapBytes o ss []) 0 ss ∧
      searchLoop (fun _ => true) o (swapBytes o ss []) 0 0 [⟨1, 0, 0⟩] = (false, [⟨1, 0, 0⟩]) ∧
      located o 0 ss [⟨1, 0, 0⟩] = [⟨1, 9, 10⟩] := by
  intro o ss
  have ho : o.Proper := ⟨by decide, by decide, by decide, by decide, by decide, by decide⟩
  exact ⟨onlyWritten_of_bounded ho (by decide), by decide, by decide⟩

end Search

end Yacet
