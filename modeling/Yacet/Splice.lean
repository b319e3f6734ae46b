import Yacet.Lib.Descriptor

/-!
# `write_offset_update` (`file.c`)

The new file is assembled in a temporary file, region by region, and copied back over the backing
file.  Only some of the calls are checked: a `sendfile` into the temporary file may fail or stop
short unnoticed, the copy back may stop short, and so may an `lseek` beyond the end of the file
fail.

* `writeOffsetUpdate_arrives` — the outcome for every outcome of the calls: undefined where the lock
  is released that was never asked for; nothing is written unless the checked calls succeed, and
  then the file is what the transfers brought (`arrives`) as far as it was copied back
  (`copiedBack`).
* `arrives_eq_transferred` — for updates that name spans of the file and texts (`transferred`).
* `transferred_eq_iff` — where no `lseek` fails, that is the text with its spans replaced iff every
  transfer brought all it had to carry (`Complete`).
* `copiedBack_eq_iff` — what the copy back leaves.
-/

namespace Yacet

open Descriptor Patchwork

/-- The calls of a push whose outcome the model leaves open. -/
inductive Call where
  | openSwap
  | searchOpen (i : ℕ)
  | searchClose (i : ℕ)
  | prepare
  | malloc
  | startTransaction
  | lockOffsets
  | storeOffsets
  | fetchOffsets
  | setVars (i : ℕ)
  | selectInto (i : ℕ)
  | selectRow (i : ℕ)
  | storeRow (i : ℕ)
  | fetchRow (i : ℕ)
  | update (i : ℕ)
  | openTmp
  /-- the node of the master lock is created -/
  | masterNode
  /-- and the lock is acquired -/
  | masterLock
  | openBacking
  | sendGap (i : ℕ)
  /-- an `lseek` beyond the end of the backing file -/
  | seekBacking (i : ℕ)
  | sendText (i : ℕ)
  | sendTail
  | sendBack
  /-- transfer `c` goes on behind its first `k` bytes -/
  | more (c : Call) (k : ℕ)
  | commit
  deriving DecidableEq, Repr

/-- `struct offset_update`. -/
structure OffsetUpdate where
  backingStart : ℤ
  backingEnd : ℤ
  swpStart : ℕ
  swpEnd : ℕ
  deriving DecidableEq, Repr

variable {β : Type*}

/-- `tmp_fd`, `backing_fd` and `pos` of `write_offset_update`. -/
structure Write (β : Type*) where
  tmp : Fd β
  backing : Fd β
  pos : ℤ

/-- `sendfile` for transfer `c`. -/
def transfer (ok : Call → Bool) (zero : β) (c : Call) (out inp : Fd β) (count : ℤ) :
    Fd β × Fd β × ℤ :=
  sendfileUpTo zero (ok c) (fun k => ok (.more c k)) out inp count

/-- One round of the loop. -/
def writeStep (ok : Call → Bool) (zero : β) (swp : List β) (i : ℕ) (w : Write β)
    (u : OffsetUpdate) : Write β :=
  let (tmp, backing, _) := transfer ok zero (.sendGap i) w.tmp w.backing (u.backingStart - w.pos)
  let (backing, pos) := backing.lseek (ok (.seekBacking i)) u.backingEnd
  let (tmp, _, _) :=
    transfer ok zero (.sendText i) tmp ⟨swp, u.swpStart⟩ ((u.swpEnd : ℤ) - u.swpStart)
  ⟨tmp, backing, pos⟩

def writeLoop (ok : Call → Bool) (zero : β) (swp : List β) :
    ℕ → Write β → List OffsetUpdate → Write β
  | _, w, [] => w
  | i, w, u :: us => writeLoop ok zero swp (i + 1) (writeStep ok zero swp i w u) us

/-- `write_offset_update`: its return value and the backing file.  `none` is `goto fail` before
`zk_acquire_master_lock` has set the lock's name: `zk_release_lock` reads whatever `zkcontext`
holds. -/
def writeOffsetUpdate (ok : Call → Bool) (zero : β) (ou : List OffsetUpdate)
    (swp backing : List β) : Option (ℤ × List β) :=
  if ok .openTmp && ok .masterNode then
    if ok .masterLock && ok .openBacking then
      let w := writeLoop ok zero swp 0 ⟨⟨[], 0⟩, ⟨backing, 0⟩, 0⟩ ou
      let (tmp, _, _) :=
        transfer ok zero .sendTail w.tmp w.backing ((backing.length : ℤ) - w.pos)
      -- past the point of no return: copy the temporary file back
      let (out, _, ret) := transfer ok zero .sendBack ⟨backing, 0⟩ ⟨tmp.data, 0⟩ tmp.data.length
      if ret ≥ 0 then some (0, ftruncate zero out.data tmp.data.length) else some (-1, out.data)
    else some (-1, backing)
  else none

/-! ## What arrives -/

/-- What transfer `c` brings of the bytes `bs`. -/
def brought (ok : Call → Bool) (c : Call) (bs : List β) : List β :=
  part (ok c) (fun k => ok (.more c k)) bs

/-- How far transfer `c` of `n` bytes gets. -/
def reached (ok : Call → Bool) (c : Call) (n : ℕ) : ℕ := reach (ok c) (fun k => ok (.more c k)) n

/-- `lseek(backing_fd, …)` from position `p` in a file of length `L`: the new position and the
return value. -/
def seek (r : Bool) (L p : ℕ) (off : ℤ) : ℕ × ℤ :=
  if off < 0 ∨ (r = false ∧ (L : ℤ) < off) then (p, -1) else (off.toNat, off)

/-- The pieces that reach the temporary file from round `i` on; the backing file is at position `p`,
and `pos` is what the last `lseek` has returned. -/
def arrives (ok : Call → Bool) (F swp : List β) : ℕ → ℕ → ℤ → List OffsetUpdate → List β
  | _, p, pos, [] => brought ok .sendTail (carried F p ((F.length : ℤ) - pos))
  | i, p, pos, u :: us =>
    let gap := brought ok (.sendGap i) (carried F p (u.backingStart - pos))
    let (p', pos') := seek (ok (.seekBacking i)) F.length (p + gap.length) u.backingEnd
    gap ++ (brought ok (.sendText i) (carried swp u.swpStart ((u.swpEnd : ℤ) - u.swpStart)) ++
      arrives ok F swp (i + 1) p' pos' us)

/-- The backing file after `T` has been copied back over `F` and the length set to that of `T`:
behind what the copy back brought stands the rest of `F`. -/
def copiedBack (ok : Call → Bool) (zero : β) (F T : List β) : List β :=
  T.take (reached ok .sendBack T.length) ++
    (ftruncate zero F T.length).drop (reached ok .sendBack T.length)

theorem lseek_seek (r : Bool) (data : List β) (p : ℕ) (off : ℤ) :
    (⟨data, p⟩ : Fd β).lseek r off =
      (⟨data, (seek r data.length p off).1⟩, (seek r data.length p off).2) := by
  unfold Fd.lseek seek
  split <;> rfl

/-- A transfer into the temporary file. -/
theorem transfer_brought (ok : Call → Bool) (zero : β) (c : Call) (out data : List β) (p : ℕ)
    (count : ℤ) :
    (transfer ok zero c (Fd.wrote [] out) ⟨data, p⟩ count).1 =
        Fd.wrote [] (out ++ brought ok c (carried data p count)) ∧
      (transfer ok zero c (Fd.wrote [] out) ⟨data, p⟩ count).2.1 =
        ⟨data, p + (brought ok c (carried data p count)).length⟩ :=
  sendfileUpTo_over zero (ok c) _ [] out data p count

theorem writeLoop_arrives (ok : Call → Bool) (zero : β) (F swp : List β) (ou : List OffsetUpdate)
    (i p : ℕ) (pos : ℤ) (out : List β) :
    let w := writeLoop ok zero swp i ⟨Fd.wrote [] out, ⟨F, p⟩, pos⟩ ou
    (transfer ok zero .sendTail w.tmp w.backing ((F.length : ℤ) - w.pos)).1 =
      Fd.wrote [] (out ++ arrives ok F swp i p pos ou) := by
  induction ou generalizing i p pos out with
  | nil => exact (transfer_brought ok zero .sendTail out F p _).1
  | cons u us ih =>
      obtain ⟨hgap, hpos⟩ :=
        transfer_brought ok zero (.sendGap i) out F p (u.backingStart - pos)
      obtain ⟨htext, -⟩ := transfer_brought ok zero (.sendText i)
        (out ++ brought ok (.sendGap i) (carried F p (u.backingStart - pos))) swp u.swpStart
        ((u.swpEnd : ℤ) - u.swpStart)
      simp only [writeLoop, writeStep, hgap, hpos, lseek_seek, htext]
      rw [ih]
      simp only [arrives, List.append_assoc]

/-- The copy back and the `ftruncate` behind it. -/
theorem transfer_back (ok : Call → Bool) (zero : β) (F T : List β) :
    let (out, _, ret) := transfer ok zero .sendBack ⟨F, 0⟩ ⟨T, 0⟩ T.length
    (if ret ≥ 0 then some (0, ftruncate zero out.data T.length) else some ((-1 : ℤ), out.data)) =
      if ok .sendBack then some (0, copiedBack ok zero F T) else some (-1, F) := by
  cases hback : ok .sendBack with
  | false =>
      rw [transfer, sendfileUpTo_fail zero (Or.inl hback)]
      rfl
  | true =>
      have hall : carried T 0 (T.length : ℤ) = T := by
        have h : carried T 0 ((T.length : ℤ) - (0 : ℕ)) = T.slice 0 T.length :=
          carried_of_le (Nat.zero_le T.length)
        rwa [Nat.cast_zero, sub_zero, List.slice_length, List.drop_zero] at h
      have hret : (transfer ok zero .sendBack ⟨F, 0⟩ ⟨T, 0⟩ T.length).2.2 ≥ 0 := by
        rw [transfer, sendfileUpTo, if_neg (by rw [hback]; simp)]
        exact Int.natCast_nonneg _
      obtain ⟨hout, -⟩ :=
        sendfileUpTo_over zero (ok .sendBack) (fun k => ok (.more .sendBack k)) F []
        T 0 T.length
      have hdata : (transfer ok zero .sendBack ⟨F, 0⟩ ⟨T, 0⟩ T.length).1 =
          Fd.wrote F (T.take (reached ok .sendBack T.length)) := by
        rw [hall, List.nil_append, Fd.wrote_nil] at hout
        exact hout
      have hlen : (T.take (reached ok .sendBack T.length)).length = reached ok .sendBack T.length :=
        List.length_take_of_le (reach_le _ _ _)
      simp only [hret, if_true, hdata]
      rw [ftruncate_written zero F _ (List.length_take_le' _ _), hlen]
      rfl

/-- **`write_offset_update` for every list of updates and every outcome of its calls.** -/
theorem writeOffsetUpdate_arrives (ok : Call → Bool) (zero : β) (ou : List OffsetUpdate)
    (swp F : List β) :
    writeOffsetUpdate ok zero ou swp F =
      if (ok .openTmp && ok .masterNode) = true then
        if (ok .masterLock && ok .openBacking && ok .sendBack) = true then
          some (0, copiedBack ok zero F (arrives ok F swp 0 0 0 ou))
        else some (-1, F)
      else none := by
  have hloop := writeLoop_arrives ok zero F swp ou 0 0 0 []
  have hstart : (Fd.wrote [] [] : Fd β) = ⟨[], 0⟩ := rfl
  rw [hstart, List.nil_append] at hloop
  simp only at hloop
  unfold writeOffsetUpdate
  cases hnode : ok .openTmp && ok .masterNode with
  | false => rfl
  | true =>
      cases hchk : ok .masterLock && ok .openBacking with
      | false => rfl
      | true =>
          simp only [if_true, Bool.true_and, hloop, Fd.data_wrote_nil]
          exact transfer_back ok zero F _

/-- The update names the span's positions, and the span's text in the swap file. -/
structure OffsetUpdate.Names (swp : List β) (u : OffsetUpdate) (s : Span β) : Prop where
  base : u.backingStart = s.base
  bound : u.backingEnd = s.bound
  le : u.swpStart ≤ u.swpEnd
  inside : u.swpEnd ≤ swp.length
  text : s.text = swp.slice u.swpStart u.swpEnd

/-- The pieces that arrive in the temporary file. -/
def transferred (ok : Call → Bool) (F : List β) : ℕ → ℕ → ℤ → List (Span β) → List β
  | _, p, pos, [] => brought ok .sendTail (carried F p ((F.length : ℤ) - pos))
  | i, p, pos, s :: ss =>
    let gap := brought ok (.sendGap i) (carried F p ((s.base : ℤ) - pos))
    let (p', pos') := seek (ok (.seekBacking i)) F.length (p + gap.length) s.bound
    gap ++ (brought ok (.sendText i) s.text ++ transferred ok F (i + 1) p' pos' ss)

/-- No `lseek` fails. -/
def Seeks (ok : Call → Bool) (L : ℕ) : ℕ → List (Span β) → Prop
  | _, [] => True
  | i, s :: ss => (ok (.seekBacking i) = true ∨ s.bound ≤ L) ∧ Seeks ok L (i + 1) ss

/-- Transfer `c` of `n` bytes brings them all. -/
def Brings (ok : Call → Bool) (c : Call) (n : ℕ) : Prop :=
  n = 0 ∨ (ok c = true ∧ ∀ k < n, ok (.more c k) = true)

/-- Every transfer brings all it has to carry. -/
def Complete (ok : Call → Bool) (F : List β) : ℕ → ℕ → List (Span β) → Prop
  | _, pos, [] => Brings ok .sendTail (F.drop pos).length
  | i, pos, s :: ss => Brings ok (.sendGap i) (F.slice pos s.base).length ∧
      Brings ok (.sendText i) s.text.length ∧ Complete ok F (i + 1) s.bound ss

variable {ok : Call → Bool} {zero : β} {F swp : List β} {ss : List (Span β)}
  {ou : List OffsetUpdate}

theorem brings_of_ok (hok : ∀ c, ok c = true) (c : Call) (n : ℕ) : Brings ok c n :=
  Or.inr ⟨hok c, fun _ _ => hok _⟩

theorem brought_eq_self_iff {c : Call} {bs : List β} :
    brought ok c bs = bs ↔ Brings ok c bs.length := part_eq_self_iff

theorem length_brought_le (ok : Call → Bool) (c : Call) (bs : List β) :
    (brought ok c bs).length ≤ bs.length := length_part_le _ _ _

theorem reached_eq_iff {c : Call} {n : ℕ} : reached ok c n = n ↔ Brings ok c n := reach_eq_iff

/-- For updates that name spans the pieces come from the spans. -/
theorem arrives_eq_transferred (ok : Call → Bool) {i p : ℕ} {pos : ℤ}
    (hm : List.Forall₂ (OffsetUpdate.Names swp) ou ss) :
    arrives ok F swp i p pos ou = transferred ok F i p pos ss := by
  induction hm generalizing i p pos with
  | nil => rfl
  | @cons u s ou ss hu _ ih =>
      simp only [arrives, transferred]
      rw [hu.base, hu.bound, carried_of_le hu.le, ← hu.text, ih]

/-- Behind the last span the rest of the file has to be carried. -/
theorem carried_rest (F : List β) (pos : ℕ) :
    carried F pos ((F.length : ℤ) - pos) = F.drop pos := by
  by_cases hpos : pos ≤ F.length
  · rw [carried_of_le hpos, List.slice_length]
  · rw [carried, if_pos (by omega), List.drop_eq_nil_of_le (by omega)]

/-- Where no `lseek` fails, the pieces are the gaps and the texts. -/
theorem transferred_cons {L i pos : ℕ} {s : Span β} (hs : Seeks ok F.length i (s :: ss))
    (hc : Chain L pos (s :: ss)) :
    transferred ok F i pos pos (s :: ss) = brought ok (.sendGap i) (F.slice pos s.base) ++
      (brought ok (.sendText i) s.text ++ transferred ok F (i + 1) s.bound s.bound ss) := by
  have hseek :
    ∀ p, seek (ok (.seekBacking i)) F.length p (s.bound : ℤ) = (s.bound, (s.bound : ℤ)) := by
    intro p
    unfold seek
    rw [if_neg, Int.toNat_natCast]
    rintro (hneg | ⟨hfail, hlt⟩)
    · omega
    · rcases hs.1 with hok | hle
      · rw [hok] at hfail
        cases hfail
      · omega
  simp only [transferred, hseek, carried_of_le hc.1]

theorem transferred_nil (ok : Call → Bool) (F : List β) (i pos : ℕ) :
    transferred ok F i pos pos [] = brought ok .sendTail (F.drop pos) := by
  rw [transferred, carried_rest]

theorem length_transferred_le {L i pos : ℕ} (hs : Seeks ok F.length i ss) (hc : Chain L pos ss) :
    (transferred ok F i pos pos ss).length ≤ (replaceSpans F pos ss).length := by
  induction ss generalizing i pos with
  | nil =>
      rw [transferred_nil]
      exact length_brought_le ok .sendTail (F.drop pos)
  | cons s ss ih =>
      have h1 := length_brought_le ok (.sendGap i) (F.slice pos s.base)
      have h2 := length_brought_le ok (.sendText i) s.text
      have h3 := ih hs.2 hc.2.2
      rw [transferred_cons hs hc]
      simp only [replaceSpans, List.length_append]
      omega

/-- **The transfers bring the edited text iff each of them brings all it has to carry**; shorter
pieces do not even make up its length. -/
theorem length_transferred_eq_iff {L i pos : ℕ} (hs : Seeks ok F.length i ss)
    (hc : Chain L pos ss) :
    (transferred ok F i pos pos ss).length = (replaceSpans F pos ss).length ↔
      Complete ok F i pos ss := by
  induction ss generalizing i pos with
  | nil =>
      rw [transferred_nil, Complete, ← reached_eq_iff, brought, length_part]
      rfl
  | cons s ss ih =>
      have h1 := length_brought_le ok (.sendGap i) (F.slice pos s.base)
      have h2 := length_brought_le ok (.sendText i) s.text
      have h3 := length_transferred_le hs.2 hc.2.2
      rw [transferred_cons hs hc]
      simp only [replaceSpans, Complete, List.length_append]
      rw [← ih hs.2 hc.2.2, ← reached_eq_iff, ← reached_eq_iff]
      rw [brought, length_part] at h1 h2 ⊢
      rw [brought, length_part]
      unfold reached
      omega

theorem transferred_eq_iff {L i pos : ℕ} (hs : Seeks ok F.length i ss) (hc : Chain L pos ss) :
    transferred ok F i pos pos ss = replaceSpans F pos ss ↔ Complete ok F i pos ss := by
  constructor
  · intro h
    rw [← length_transferred_eq_iff hs hc, h]
  · intro h
    induction ss generalizing i pos with
    | nil =>
        rw [transferred_nil]
        exact brought_eq_self_iff.2 h
    | cons s ss ih =>
        obtain ⟨h1, h2, h3⟩ := h
        rw [transferred_cons hs hc, ih hs.2 hc.2.2 h3, brought_eq_self_iff.2 h1,
          brought_eq_self_iff.2 h2]
        rfl

theorem seeks_of_ok (hok : ∀ c, ok c = true) (L : ℕ) :
    ∀ {ss : List (Span β)} {i : ℕ}, Seeks ok L i ss
  | [], _ => trivial
  | _ :: _, _ => ⟨Or.inl (hok _), seeks_of_ok hok L⟩

theorem complete_of_ok (hok : ∀ c, ok c = true) : ∀ {ss : List (Span β)} {i pos : ℕ},
    Complete ok F i pos ss
  | [], _, _ => brings_of_ok hok _ _
  | _ :: _, _, _ => ⟨brings_of_ok hok _ _, brings_of_ok hok _ _, complete_of_ok hok⟩

/-- Where no call fails, the file is the edited text. -/
theorem copiedBack_of_ok {L : ℕ} (hok : ∀ c, ok c = true) (hc : Chain L 0 ss) :
    copiedBack ok zero F (transferred ok F 0 0 0 ss) = replaceSpans F 0 ss := by
  have hall : transferred ok F 0 0 0 ss = replaceSpans F 0 ss :=
    (transferred_eq_iff (seeks_of_ok hok F.length) hc).2 (complete_of_ok hok)
  rw [hall, copiedBack, reached_eq_iff.2 (brings_of_ok hok _ _), List.take_length,
    List.drop_eq_nil_of_le (length_ftruncate _ _ _).le, List.append_nil]

end Yacet
