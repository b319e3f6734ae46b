import Yacet.RangeArray

/-!
# A range that is built file by file (`range.c`, `list.h`)

* `Shows` — a range has exactly these entries: path, list and count of each.
* `leftOver` — the list head that a new file finds in its slot.
* `Built` — the range shows the entries, and its memory is as the calls have left it.
* `Built.addNewFile`, `Built.addIt_ok` — **what makes a call extend the entries: a clean slot, and a
  pointer into the present block with an interval that bridges nothing.**
-/

namespace Yacet

open LinkedHeap

/-- `ID_NONE`. -/
def idNone : ℕ := 2 ^ 64 - 1

namespace Mem

/-- A file of a range: its path and the intervals that it has been given. -/
structure Entry where
  path : Text
  ivs : List ItNode

/-- The range has exactly these entries, in this order. -/
def Shows (r : Range) (es : List Entry) : Prop :=
  r.numFiles = es.length ∧ ∀ t e, es[t]? = some e → ∃ s l, r.file t = some s ∧
    s.filePath = e.path ∧ s.id = idNone ∧ ListIs r.heap s.it l ∧ Merged e.ivs l ∧ s.numIt = l.length

/-! ## What the library does when a file is added -/

/-- `a_list_add` of file `n` allocates. -/
def GrowsAt (n : ℕ) : Prop := n &&& (n - 1) = 0 ∧ aListInitLen ≤ n

instance (n : ℕ) : Decidable (GrowsAt n) := inferInstanceAs (Decidable (_ ∧ _))

/-- The first list head of what `realloc` has added, and those behind it. -/
def Realloc.head : Realloc → ℕ → Option ℕ
  | .fails, _ => none
  | .inPlace fresh, i => (fresh i).it
  | .moved fresh, i => (fresh i).it

/-- The list head in the slot of file `n`; `env` tells what the library answers for each file. -/
def leftOver (env : ℕ → Range.Env) (n : ℕ) : Option ℕ :=
  if n < aListInitLen then none else (env (2 ^ n.log2)).realloc.head (n - 2 ^ n.log2)

/-- There is a slot for file `n`, and it holds no list. -/
structure SlotFits (env : ℕ → Range.Env) (n : ℕ) : Prop where
  room : GrowsAt n → (env n).realloc ≠ .fails
  clean : leftOver env n = none

/-- The array stays where it is. -/
def Stays (env : ℕ → Range.Env) (n : ℕ) : Prop :=
  GrowsAt n → ∃ fresh, (env n).realloc = .inPlace fresh

variable {env : ℕ → Range.Env} {n i : ℕ}

theorem GrowsAt.two_pow (h : GrowsAt n) : ∃ k, n = 2 ^ k := by
  have hle := h.2
  unfold aListInitLen at hle
  exact (Nat.and_sub_one_eq_zero_iff_isPowerOfTwo (by omega)).1 h.1

/-- The slots of a doubled array. -/
theorem leftOver_grown (h : GrowsAt n) (hi : i < n) :
    leftOver env (n + i) = (env n).realloc.head i := by
  obtain ⟨k, rfl⟩ := h.two_pow
  have hlog : (2 ^ k + i).log2 = k :=
    (Nat.log2_eq_iff (by positivity)).2 ⟨by omega, by rw [Nat.pow_succ]; omega⟩
  have hle := h.2
  rw [leftOver, hlog, if_neg (by omega), Nat.add_sub_cancel_left]

/-- `realloc` gives out no pointer. -/
theorem handed_realloc (r : Range) (size : ℕ) (how : Realloc) :
    (r.realloc size how).handed = r.handed := by
  unfold Range.realloc
  split
  · rfl
  · split
    · rfl
    · rfl
  · rfl

section Realloc

variable {how : Realloc} {fresh : ℕ → Slot}

/-- What `realloc` leaves in the memory it adds, where it succeeds. -/
theorem Realloc.exists_fresh (h : how ≠ .fails) :
    ∃ fresh, (how = .inPlace fresh ∨ how = .moved fresh) ∧ ∀ i, how.head i = (fresh i).it := by
  cases how with
  | fails => exact absurd rfl h
  | inPlace fresh => exact ⟨fresh, Or.inl rfl, fun _ => rfl⟩
  | moved fresh => exact ⟨fresh, Or.inr rfl, fun _ => rfl⟩

theorem realloc_stays {r : Range} {b : ℕ} (size : ℕ) (hfiles : r.files = some b)
    (h : how = .inPlace fresh) :
    (r.realloc size how).files = some b ∧ (r.realloc size how).nextBlock = r.nextBlock := by
  subst h
  simp only [Range.realloc, hfiles, Range.extendFiles]
  exact ⟨trivial, trivial⟩

theorem realloc_moves (r : Range) (size : ℕ) (h : how = .moved fresh) :
    (r.realloc size how).files = some r.nextBlock ∧
      (r.realloc size how).nextBlock = r.nextBlock + 1 := by
  subst h
  exact ⟨rfl, rfl⟩

end Realloc

/-! ## The invariant -/

/-- The range shows the entries; its array is block `b`, and a slot that is not in use holds the
head that its file will find. -/
structure Built (env : ℕ → Range.Env) (r : Range) (es : List Entry) (b : ℕ) (slots : List Slot)
    (lists : ℕ → List (ℕ × ItNode)) : Prop where
  intact : Intact r b slots lists
  room : Room slots.length r.numFiles
  count : r.numFiles = es.length
  entry : ∀ t e, es[t]? = some e → ∃ s, slots[t]? = some s ∧ s.filePath = e.path ∧ s.id = idNone ∧
    Merged e.ivs (nodes (lists t)) ∧ s.numIt = (nodes (lists t)).length
  spare : ∀ t s, r.numFiles ≤ t → slots[t]? = some s → s.it = leftOver env t
  block : b < r.nextBlock

variable {r r' : Range} {es : List Entry} {b : ℕ} {slots : List Slot}
  {lists : ℕ → List (ℕ × ItNode)} {path : Text}

theorem built_init :
    Built env Range.init [] 0 (List.replicate aListInitLen Slot.zero) fun _ => [] where
  intact := intact_init
  room := by simpa using room_init
  count := rfl
  entry t e he := by cases he
  spare t s _ hs := by
    have hlt : t < aListInitLen := by simpa using (List.getElem?_eq_some_iff.1 hs).1
    rw [List.eq_of_mem_replicate (List.mem_of_getElem? hs), leftOver, if_pos hlt]
    rfl
  block := Nat.zero_lt_one

namespace Built

theorem sound (h : Built env r es b slots lists) : Sound r := ⟨b, slots, lists, h.intact, h.room⟩

theorem shows (h : Built env r es b slots lists) : Shows r es := by
  refine ⟨h.count, fun t e he => ?_⟩
  have hlt : t < r.numFiles := h.count ▸ (List.getElem?_eq_some_iff.1 he).1
  obtain ⟨s, hs, hpath, hid, hmerged, hnum⟩ := h.entry t e he
  exact ⟨s, _, by rw [h.intact.file_eq hlt, hs], hpath, hid,
    ⟨_, (h.intact.rep t s hlt hs).seg, rfl⟩,
    hmerged, hnum⟩

/-- The path of a new file is compared with those of the others. -/
theorem rangeAddNewFile_eq (h : Built env r es b slots lists) (hnew : ∀ e ∈ es, e.path ≠ path)
    (id : ℕ)
    (how : Range.Env) : r.rangeAddNewFile path id how = r.rangeAddFile path id how := by
  rcases h.sound.rangeAddNewFile_eq path id how with ⟨⟨t, s, hs, hpath⟩, -⟩ | ⟨-, heq⟩
  · exfalso
    have hlt : t < r.numFiles := by
      by_contra hge
      rw [Range.file, if_neg hge] at hs
      cases hs
    have hlt' : t < es.length := h.count ▸ hlt
    obtain ⟨s', hs', hpath', -⟩ := h.entry t es[t] (List.getElem?_eq_getElem hlt')
    rw [h.intact.file_eq hlt, hs'] at hs
    cases hs
    exact hnew _ (List.getElem_mem hlt') (hpath'.symm.trans hpath)
  · exact heq

/-- A file in a slot of the array, which may have been doubled for it. -/
theorem withFile (h : Built env r es b slots lists) (path : Text) {r₁ : Range} {b₁ : ℕ}
    {slots₁ : List Slot} (h₁ : Intact r₁ b₁ slots₁ lists) (hnum : r₁.numFiles = r.numFiles)
    (hold : ∀ t < r.numFiles, slots₁[t]? = slots[t]?)
    (hspare : ∀ t s, r.numFiles ≤ t → slots₁[t]? = some s → s.it = leftOver env t)
    (hroom : Room slots₁.length (r.numFiles + 1)) (hblock : b₁ < r₁.nextBlock) {s : Slot}
    (hs : slots₁[r.numFiles]? = some s) (hclean : s.it = none) :
    Built env (r₁.withFile b₁ (s.filled path idNone)) (es ++ [⟨path, []⟩]) b₁
      (slots₁.set r.numFiles (s.filled path idNone)) (Function.update lists r.numFiles []) where
  intact := by
    have hlt := (List.getElem?_eq_some_iff.1 hs).1
    rw [← hnum] at hlt ⊢
    exact h₁.withFile hlt hclean
  room := by
    rw [List.length_set]
    show Room _ (r₁.numFiles + 1)
    rwa [hnum]
  count := by
    show r₁.numFiles + 1 = _
    rw [hnum, h.count, List.length_append, List.length_singleton]
  entry t e he := by
    by_cases ht : t < es.length
    · rw [List.getElem?_append_left ht] at he
      obtain ⟨u, hu, hrest⟩ := h.entry t e he
      have hne : t ≠ r.numFiles := by
        rw [h.count]
        omega
      refine ⟨u, ?_, ?_⟩
      · rw [List.getElem?_set_ne (Ne.symm hne), hold t (h.count ▸ ht), hu]
      · rwa [Function.update_of_ne hne]
    · have hlen := (List.getElem?_eq_some_iff.1 he).1
      rw [List.length_append, List.length_singleton] at hlen
      obtain rfl : t = es.length := by omega
      rw [List.getElem?_concat_length] at he
      cases he
      rw [← h.count, Function.update_self,
        List.getElem?_set_self (List.getElem?_eq_some_iff.1 hs).1]
      exact ⟨_, rfl, rfl, rfl, merged_nil, rfl⟩
  spare t u ht hu := by
    have hlt : r.numFiles < t := by
      rw [← hnum]
      exact ht
    rw [List.getElem?_set_ne hlt.ne] at hu
    exact hspare t u hlt.le hu
  block := hblock

/-- A file is added: what has become of the range. -/
structure Added (env : ℕ → Range.Env) (r : Range) (es : List Entry) (b : ℕ) (path : Text)
    (r' : Range)
    (b' : ℕ) : Prop where
  built : ∃ slots lists, Built env r' (es ++ [⟨path, []⟩]) b' slots lists
  keeps : Adds r r' path idNone
  handed : r'.handed = r.handed ++ [b']
  stays : Stays env r.numFiles → b' = b
  moves : ¬ Stays env r.numFiles → b < b'

/-- Into a free slot. -/
theorem addFile_free (h : Built env r es b slots lists) (hgrows : ¬ GrowsAt r.numFiles)
    (hstored : Stored path (env r.numFiles)) :
    ∃ r', r.rangeAddFile path idNone (env r.numFiles) = .ok r' ∧
      (Adds r r' path idNone ↔ SlotFits env r.numFiles) ∧
      (SlotFits env r.numFiles → Added env r es b path r' b) := by
  have hlt := h.room.lt_of_not_grows hgrows
  have hs := List.getElem?_eq_getElem hlt
  have hfits : SlotFits env r.numFiles ↔ (slots[r.numFiles]).it = none := by
    rw [h.spare _ _ le_rfl hs]
    exact ⟨fun hf => hf.clean, fun hclean => ⟨fun hg => absurd hg hgrows, hclean⟩⟩
  have hadds := h.intact.adds_withFile h.intact rfl (fun _ _ => rfl) hs path idNone
  refine ⟨_, rangeAddFile_stored hstored (if_neg hgrows) h.intact hs, hadds.trans hfits.symm,
    fun hf => ?_⟩
  have hbuilt := h.withFile path h.intact rfl (fun _ _ => rfl) h.spare (h.room.succ hlt) h.block
    hs (hfits.1 hf)
  exact
    { built := ⟨_, _, hbuilt⟩
      keeps := hadds.2 (hfits.1 hf)
      handed := rfl
      stays := fun _ => rfl
      moves := fun hno => absurd (fun hg => absurd hg hgrows) hno }

/-- The slots that are not in use once the array has been doubled. -/
theorem spare_grown (h : Built env r es b slots lists) (hgrows : GrowsAt r.numFiles)
    {fresh : ℕ → Slot}
    (hhead : ∀ i, (env r.numFiles).realloc.head i = (fresh i).it) {t : ℕ} {s : Slot}
    (ht : r.numFiles ≤ t) (hs : (Range.grown slots (r.numFiles * 2) fresh)[t]? = some s) :
    s.it = leftOver env t := by
  have hfull := h.room.eq_of_grows hgrows.1 hgrows.2
  have hlt := (List.getElem?_eq_some_iff.1 hs).1
  rw [length_grown (by omega)] at hlt
  obtain ⟨i, rfl⟩ := Nat.exists_eq_add_of_le ht
  have hfresh : (Range.grown slots (r.numFiles * 2) fresh)[r.numFiles + i]? = some (fresh i) := by
    rw [← hfull]
    exact grown_fresh (by omega)
  rw [hfresh] at hs
  cases hs
  rw [leftOver_grown hgrows (by omega), hhead]

/-- Into an array that is doubled for it. -/
theorem addFile_grown (h : Built env r es b slots lists) (hgrows : GrowsAt r.numFiles)
    (hstored : Stored path (env r.numFiles)) (hroom : (env r.numFiles).realloc ≠ .fails) :
    ∃ r' b', r.rangeAddFile path idNone (env r.numFiles) = .ok r' ∧
      (Adds r r' path idNone ↔ SlotFits env r.numFiles) ∧
      (SlotFits env r.numFiles → Added env r es b path r' b') := by
  have hfull := h.room.eq_of_grows hgrows.1 hgrows.2
  have hpos : 0 < r.numFiles := Nat.lt_of_lt_of_le (by decide) hgrows.2
  obtain ⟨fresh, hhow, hhead⟩ := Realloc.exists_fresh hroom
  obtain ⟨b', h', hnum⟩ := h.intact.realloc hfull hgrows.2 hhow (r.numFiles * 2)
  have hold : ∀ t < r.numFiles, (Range.grown slots (r.numFiles * 2) fresh)[t]? = slots[t]? :=
    fun t ht => grown_old (hfull ▸ ht)
  have hspare : ∀ t s, r.numFiles ≤ t → (Range.grown slots (r.numFiles * 2) fresh)[t]? = some s →
      s.it = leftOver env t := fun t s ht hs => h.spare_grown hgrows hhead ht hs
  have hlen : (Range.grown slots (r.numFiles * 2) fresh).length = r.numFiles * 2 :=
    length_grown (by omega)
  have hs : (Range.grown slots (r.numFiles * 2) fresh)[r.numFiles]? = some (fresh 0) := by
    rw [← hfull]
    exact grown_fresh (i := 0) (by omega)
  have hfits : SlotFits env r.numFiles ↔ (fresh 0).it = none := by
    rw [hspare _ _ le_rfl hs]
    exact ⟨fun hf => hf.clean, fun hclean => ⟨fun _ => hroom, hclean⟩⟩
  have hadds := h.intact.adds_withFile h' hnum hold (by rwa [hnum]) path idNone
  have hstay : Stays env r.numFiles → b' = b ∧ b' <
      (r.realloc (r.numFiles * 2) (env r.numFiles).realloc).nextBlock := by
    intro hst
    obtain ⟨fresh', heq⟩ := hst hgrows
    obtain ⟨hfiles, hnext⟩ := realloc_stays (r.numFiles * 2) h.intact.files heq
    rw [h'.files] at hfiles
    cases hfiles
    exact ⟨rfl, hnext ▸ h.block⟩
  have hmove : ¬ Stays env r.numFiles → b < b' ∧ b' <
      (r.realloc (r.numFiles * 2) (env r.numFiles).realloc).nextBlock := by
    intro hno
    have heq := hhow.resolve_left fun heq => hno fun _ => ⟨fresh, heq⟩
    obtain ⟨hfiles, hnext⟩ := realloc_moves r (r.numFiles * 2) heq
    rw [h'.files] at hfiles
    cases hfiles
    exact ⟨h.block, hnext ▸ Nat.lt_succ_self _⟩
  have hblock : b' < (r.realloc (r.numFiles * 2) (env r.numFiles).realloc).nextBlock :=
    (em (Stays env r.numFiles)).elim (fun hst => (hstay hst).2) fun hno => (hmove hno).2
  have hroom' : Room (Range.grown slots (r.numFiles * 2) fresh).length (r.numFiles + 1) := by
    have hdouble := h.room
    rw [hlen]
    rw [hfull] at hdouble
    exact hdouble.double
  refine ⟨_, b', rangeAddFile_stored hstored (if_pos hgrows) h' (by rwa [hnum]),
    hadds.trans hfits.symm,
    fun hf => ?_⟩
  have hbuilt := h.withFile path h' hnum hold hspare hroom' hblock hs (hfits.1 hf)
  exact
    { built := ⟨_, _, hbuilt⟩
      keeps := hadds.2 (hfits.1 hf)
      handed := by
        show (r.realloc _ _).handed ++ [b'] = _
        rw [handed_realloc]
      stays := fun hst => (hstay hst).1
      moves := fun hno => (hmove hno).1 }

/-- **A new file extends the entries iff its path can be stored and its slot is clean.** -/
theorem addNewFile (h : Built env r es b slots lists) (hnew : ∀ e ∈ es, e.path ≠ path) :
    (Stored path (env r.numFiles) → SlotFits env r.numFiles →
      ∃ r' b', r.rangeAddNewFile path idNone (env r.numFiles) = .ok r' ∧
        Added env r es b path r' b') ∧
    ∀ r', r.rangeAddNewFile path idNone (env r.numFiles) = .ok r' →
      r'.handed.length ≠ r.handed.length → Adds r r' path idNone →
      Stored path (env r.numFiles) ∧ SlotFits env r.numFiles := by
  rw [h.rangeAddNewFile_eq hnew]
  have hgrown : Stored path (env r.numFiles) →
      (GrowsAt r.numFiles → (env r.numFiles).realloc ≠ .fails) →
      ∃ r' b', r.rangeAddFile path idNone (env r.numFiles) = .ok r' ∧
        (Adds r r' path idNone ↔ SlotFits env r.numFiles) ∧
        (SlotFits env r.numFiles → Added env r es b path r' b') := by
    intro hstored hroom
    by_cases hgrows : GrowsAt r.numFiles
    · exact h.addFile_grown hgrows hstored (hroom hgrows)
    · obtain ⟨r', hrest⟩ := h.addFile_free hgrows hstored
      exact ⟨r', b, hrest⟩
  constructor
  · intro hstored hfits
    obtain ⟨r', b', hrun, -, hadded⟩ := hgrown hstored hfits.room
    exact ⟨r', b', hrun, hadded hfits⟩
  · intro r' hrun hhanded hadds
    have hstored : Stored path (env r.numFiles) := by
      by_contra hno
      have hguard : pathMax < path.length ∨ (env r.numFiles).strdup = false := by
        by_contra hpass
        rw [not_or] at hpass
        exact hno ⟨Nat.not_lt.1 hpass.1, by simpa using hpass.2⟩
      rw [Range.rangeAddFile, if_pos hguard] at hrun
      cases hrun
      exact hhanded rfl
    refine ⟨hstored, ?_⟩
    have hroom : GrowsAt r.numFiles → (env r.numFiles).realloc ≠ .fails := by
      intro hgrows hfails
      rw [(@rangeAddFile_fails r hgrows path idNone _ hstored hfails).1] at hrun
      cases hrun
      exact hhanded rfl
    obtain ⟨r'', b', hrun', hiff, -⟩ := hgrown hstored hroom
    rw [hrun] at hrun'
    cases hrun'
    exact hiff.1 hadds

/-- An insertion through a pointer into the present block, and what has become of the range. -/
theorem addIt_ok (h : Built env r es b slots lists) {e : Entry} {f : ItNode} (he : es[i]? = some e)
    (hhanded : r.handed[i]? = some b) (hf : f.base < f.bound) (hno : ¬ Bridges e.ivs f) :
    ∃ r', r.rangeFileAddIt i f true = .ok r' ∧ Keeps r r' (.addIt i f true) ∧
      (∃ slots lists, Built env r' (es.set i ⟨e.path, e.ivs ++ [f]⟩) b slots lists) ∧
      r'.handed = r.handed := by
  have hlt : i < r.numFiles := h.count ▸ (List.getElem?_eq_some_iff.1 he).1
  obtain ⟨s, hs, hpath, hid, hmerged, hnum⟩ := h.entry i e he
  obtain ⟨⟨new, l'⟩, hins⟩ := Option.isSome_iff_exists.1 ((hmerged.isSome_iff hf.le).2 hno)
  obtain ⟨h', it', ns', hrun, hrep', hnodes, hframe⟩ := itInsertNew_ok (h.intact.rep i s hlt hs)
    (Nat.lt_succ_of_le (h.intact.rep i s hlt hs).length_le) hins
  let s' : Slot := { s with it := it', numIt := if new then s.numIt + 1 else s.numIt }
  have hintact : Intact (r.withList b i s' h') b (slots.set i s') (Function.update lists i ns') :=
    h.intact.withList hlt hrep' hframe
  have hsi : i < slots.length := hlt.trans_le h.intact.le
  have hbuilt :
    Built env (r.withList b i s' h') (es.set i ⟨e.path, e.ivs ++ [f]⟩) b (slots.set i s')
      (Function.update lists i ns') := by
    constructor
    case intact => exact hintact
    case room =>
      rw [List.length_set]
      exact h.room
    case count =>
      rw [List.length_set]
      exact h.count
    case entry =>
      intro t e' he'
      by_cases hti : t = i
      · subst hti
        rw [List.getElem?_set_self (h.count ▸ hlt)] at he'
        cases he'
        rw [List.getElem?_set_self hsi, Function.update_self, hnodes]
        refine ⟨_, rfl, hpath, hid, hmerged.insert hf hins, ?_⟩
        rw [itInsertNew_length hins, ← hnum]
      · rw [List.getElem?_set_ne (Ne.symm hti)] at he'
        rw [List.getElem?_set_ne (Ne.symm hti), Function.update_of_ne hti]
        exact h.entry t e' he'
    case spare =>
      intro t u ht hu
      have hit : i ≠ t := by
        have : r.numFiles ≤ t := ht
        omega
      rw [List.getElem?_set_ne hit] at hu
      exact h.spare t u ht hu
    case block => exact h.block
  refine ⟨r.withList b i s' h', ?_,
    ⟨rfl, fun j hj hji => h.intact.unchanged hintact hj hj ?_ ?_⟩, ⟨_, _, hbuilt⟩, rfl⟩
  · simp only [Range.rangeFileAddIt, hhanded, h.intact.slot_eq hs, Mem.rangeFileAddIt, hrun, bind,
      Except.bind]
    rw [if_neg (by simp)]
    rfl
  · exact List.getElem?_set_ne (Ne.symm hji)
  · rw [Function.update_of_ne hji]

/-- An interval that bridges two pieces of the file's list stops the program. -/
theorem addIt_bridges (h : Built env r es b slots lists) {e : Entry} {f : ItNode}
    (he : es[i]? = some e)
    (hhanded : r.handed[i]? = some b) (hf : f.base < f.bound) (hbridge : Bridges e.ivs f) :
    ∃ x, r.rangeFileAddIt i f true = .error x := by
  have hlt : i < r.numFiles := h.count ▸ (List.getElem?_eq_some_iff.1 he).1
  obtain ⟨s, hs, -, -, hmerged, -⟩ := h.entry i e he
  have hnone : Yacet.itInsertNew f (nodes (lists i)) = none := by
    rw [← Option.not_isSome_iff_eq_none, hmerged.isSome_iff hf.le]
    exact not_not.2 hbridge
  exact h.intact.rangeFileAddIt_absorbs hhanded hs hlt (absorbs_iff.2 hnone) true

/-- So does a pointer into a block that the array has left. -/
theorem addIt_stale (h : Built env r es b slots lists) (f : ItNode) {b₀ : ℕ}
    (hhanded : r.handed[i]? = some b₀) (hne : b₀ ≠ b) :
    r.rangeFileAddIt i f true = .error (.freed b₀) := by
  simp only [Range.rangeFileAddIt, hhanded, Range.slot, h.intact.only b₀ hne, bind, Except.bind]

end Built

end Mem

end Yacet
