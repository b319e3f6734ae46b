import Yacet.Lib.Patchwork
import Mathlib.Data.List.TakeWhile

/-!
# File descriptors: `lseek`, `write`, `sendfile`, `ftruncate`

A descriptor is the file's bytes and the current file offset.  A call that fails returns `-1` and
leaves everything as it is.  `sendfile` fails on a negative count and otherwise transfers up to its
count of bytes of the input file: `sendfileUpTo` may stop short anywhere, `sendfile` does not.

* `Fd.wrote old w` — the descriptor after writing `w` over a file that held `old`.
* `Fd.write_over`, `sendfile_over`, `sendfile_fail` — a write or a transfer there extends `w`, a
  failed one does not.
* `part` — what a transfer brings of the bytes it has to carry; `sendfileUpTo_over` says so, and
  `part_eq_self_iff` when that is all of them.
* `ftruncate_written` — truncating to the length of a text of which only the beginning has been
  written.
-/

namespace Descriptor

variable {β : Type*}

/-- An open file: its content and the offset of the descriptor. -/
structure Fd (β : Type*) where
  data : List β
  pos : ℕ
  deriving DecidableEq, Repr

namespace Fd

/-- `write`: overwrite from the offset on; a hole in front of it reads as `zero`. -/
def write (zero : β) (fd : Fd β) (bs : List β) : Fd β :=
  if bs = [] then fd
  else ⟨fd.data.take fd.pos ++ List.replicate (fd.pos - fd.data.length) zero ++ bs ++
      fd.data.drop (fd.pos + bs.length), fd.pos + bs.length⟩

/-- `lseek(fd, off, SEEK_SET)` with its return value.  It fails below 0; beyond the end of the file
`ok = false` is a position that the file system cannot represent. -/
def lseek (ok : Bool) (fd : Fd β) (off : ℤ) : Fd β × ℤ :=
  if off < 0 ∨ (ok = false ∧ (fd.data.length : ℤ) < off) then (fd, -1)
  else ({ fd with pos := off.toNat }, off)

/-- The bytes `w` have been written over a file that held `old`, from its beginning on. -/
def wrote (old w : List β) : Fd β := ⟨w ++ old.drop w.length, w.length⟩

theorem wrote_nil (old : List β) : wrote old [] = ⟨old, 0⟩ := rfl

theorem data_wrote_nil (w : List β) : (wrote [] w).data = w := by
  simp [wrote]

theorem write_over (zero : β) (old w bs : List β) :
    (wrote old w).write zero bs = wrote old (w ++ bs) := by
  unfold write wrote
  split
  · rename_i hbs
    rw [hbs, List.append_nil]
  · simp [List.drop_append]

/-- The descriptor of the file with its bytes replaced one by one. -/
def map {γ : Type*} (f : β → γ) (fd : Fd β) : Fd γ := ⟨fd.data.map f, fd.pos⟩

theorem write_map {γ : Type*} (f : β → γ) (zero : β) (fd : Fd β) (bs : List β) :
    (fd.map f).write (f zero) (bs.map f) = (fd.write zero bs).map f := by
  unfold write map
  by_cases hbs : bs = []
  · simp [hbs]
  · simp [hbs]

end Fd

/-- How far a transfer of `n` bytes gets: nowhere if it fails, and otherwise it goes on behind its
first `k` bytes if `more k`. -/
def reach (ok : Bool) (more : ℕ → Bool) (n : ℕ) : ℕ :=
  if ok then ((List.range n).takeWhile more).length else 0

/-- `sendfile(out, in, NULL, count)`; `ok = false` is a failing call. -/
def sendfileUpTo (zero : β) (ok : Bool) (more : ℕ → Bool) (out inp : Fd β) (count : ℤ) :
    Fd β × Fd β × ℤ :=
  if ok = false ∨ count < 0 then (out, inp, -1)
  else
    let bs := inp.data.slice inp.pos (inp.pos + count.toNat)
    let bs := bs.take (reach ok more bs.length)
    (out.write zero bs, { inp with pos := inp.pos + bs.length }, bs.length)

/-- `sendfile` that does not stop short. -/
def sendfile (zero : β) (ok : Bool) (out inp : Fd β) (count : ℤ) : Fd β × Fd β × ℤ :=
  sendfileUpTo zero ok (fun _ => true) out inp count

/-- `ftruncate`: cut off, or extend with `zero`. -/
def ftruncate (zero : β) (data : List β) (size : ℕ) : List β :=
  data.take size ++ List.replicate (size - data.length) zero

theorem reach_le (ok : Bool) (more : ℕ → Bool) (n : ℕ) : reach ok more n ≤ n := by
  unfold reach
  split
  · have h := (List.takeWhile_sublist (l := List.range n) more).length_le
    rwa [List.length_range] at h
  · exact Nat.zero_le n

/-- A transfer gets to the end iff there is nothing to carry, or it does not fail and goes on
everywhere. -/
theorem reach_eq_iff {ok : Bool} {more : ℕ → Bool} {n : ℕ} :
    reach ok more n = n ↔ n = 0 ∨ (ok = true ∧ ∀ k < n, more k = true) := by
  unfold reach
  cases ok with
  | false =>
      rw [if_neg Bool.false_ne_true, eq_comm]
      exact (or_iff_left fun h => Bool.false_ne_true h.1).symm
  | true =>
      have hprefix := List.takeWhile_prefix (l := List.range n) more
      rw [if_pos rfl]
      constructor
      · intro h
        have hall : (List.range n).takeWhile more = List.range n :=
          hprefix.eq_of_length (by rw [List.length_range]; exact h)
        exact Or.inr ⟨rfl, fun k hk => List.takeWhile_eq_self_iff.1 hall k (List.mem_range.2 hk)⟩
      · rintro (rfl | ⟨-, h⟩)
        · rfl
        · rw [List.takeWhile_eq_self_iff.2 fun k hk => h k (List.mem_range.1 hk), List.length_range]

theorem sendfile_eq (zero : β) (ok : Bool) (out inp : Fd β) (count : ℤ) :
    sendfile zero ok out inp count =
      if ok = false ∨ count < 0 then (out, inp, -1)
      else
        let bs := inp.data.slice inp.pos (inp.pos + count.toNat)
        (out.write zero bs, { inp with pos := inp.pos + bs.length }, (bs.length : ℤ)) := by
  unfold sendfile sendfileUpTo
  cases ok with
  | false => rfl
  | true => simp only [reach_eq_iff.2 (Or.inr ⟨rfl, fun _ _ => rfl⟩), List.take_length]

theorem sendfileUpTo_fail (zero : β) {ok : Bool} {more : ℕ → Bool} {out inp : Fd β} {count : ℤ}
    (h : ok = false ∨ count < 0) : sendfileUpTo zero ok more out inp count = (out, inp, -1) :=
  if_pos h

theorem sendfile_fail (zero : β) {ok : Bool} {out inp : Fd β} {count : ℤ}
    (h : ok = false ∨ count < 0) : sendfile zero ok out inp count = (out, inp, -1) :=
  sendfileUpTo_fail zero h

theorem sendfile_map {γ : Type*} (f : β → γ) (zero : β) (ok : Bool) (out inp : Fd β) (count : ℤ) :
    sendfile (f zero) ok (out.map f) (inp.map f) count =
      ((sendfile zero ok out inp count).1.map f, (sendfile zero ok out inp count).2.1.map f,
        (sendfile zero ok out inp count).2.2) := by
  rw [sendfile_eq, sendfile_eq]
  split
  · rfl
  · have hbs : (inp.map f).data.slice (inp.map f).pos ((inp.map f).pos + count.toNat) =
        (inp.data.slice inp.pos (inp.pos + count.toNat)).map f := List.slice_map f _ _ _
    simp only [hbs, Fd.write_map, List.length_map]
    rfl

/-- A transfer of the bytes from the input's offset up to position `b` of the input file. -/
theorem sendfile_over (zero : β) (old w : List β) {data : List β} {a b : ℕ} (hab : a ≤ b)
    (hb : b ≤ data.length) :
    sendfile zero true (Fd.wrote old w) ⟨data, a⟩ ((b : ℤ) - a) =
      (Fd.wrote old (w ++ data.slice a b), ⟨data, b⟩, (b : ℤ) - a) := by
  have hcount : ((b : ℤ) - a).toNat = b - a := by omega
  have hlen : (data.slice a b).length = b - a := List.length_slice_of_le hb
  rw [sendfile_eq, if_neg (by simp; omega)]
  simp only [hcount, Nat.add_sub_cancel' hab, Fd.write_over, hlen]
  refine Prod.ext_iff.2 ⟨rfl, Prod.ext_iff.2 ⟨rfl, ?_⟩⟩
  show ((b - a : ℕ) : ℤ) = (b : ℤ) - a
  omega

/-- What a `write` with outcome `ok` appends. -/
def keep (ok : Bool) (bs : List β) : List β := if ok then bs else []

/-! ## Transfers that stop short -/

/-- What a transfer brings of the bytes `bs`. -/
def part (ok : Bool) (more : ℕ → Bool) (bs : List β) : List β := bs.take (reach ok more bs.length)

variable {ok : Bool} {more : ℕ → Bool} {bs : List β}

theorem length_part (ok : Bool) (more : ℕ → Bool) (bs : List β) :
    (part ok more bs).length = reach ok more bs.length :=
  List.length_take_of_le (reach_le ok more bs.length)

theorem length_part_le (ok : Bool) (more : ℕ → Bool) (bs : List β) :
    (part ok more bs).length ≤ bs.length := by
  rw [length_part]
  exact reach_le ok more bs.length

/-- A transfer brings everything iff it gets to the end. -/
theorem part_eq_self_iff :
    part ok more bs = bs ↔ bs.length = 0 ∨ (ok = true ∧ ∀ k < bs.length, more k = true) := by
  rw [part, List.take_eq_self_iff, ← reach_eq_iff]
  exact ⟨fun h => Nat.le_antisymm (reach_le ok more bs.length) h, fun h => h.ge⟩

/-- The bytes that a transfer of `count` bytes has to carry from position `p` on. -/
def carried (data : List β) (p : ℕ) (count : ℤ) : List β :=
  if count < 0 then [] else data.slice p (p + count.toNat)

theorem carried_of_le {data : List β} {a b : ℕ} (h : a ≤ b) :
    carried data a ((b : ℤ) - a) = data.slice a b := by
  have hcount : ((b : ℤ) - a).toNat = b - a := by omega
  rw [carried, if_neg (by omega), hcount, Nat.add_sub_cancel' h]

/-- A transfer appends its part. -/
theorem sendfileUpTo_over (zero : β) (ok : Bool) (more : ℕ → Bool) (old w data : List β) (p : ℕ)
    (count : ℤ) :
    (sendfileUpTo zero ok more (Fd.wrote old w) ⟨data, p⟩ count).1 =
        Fd.wrote old (w ++ part ok more (carried data p count)) ∧
      (sendfileUpTo zero ok more (Fd.wrote old w) ⟨data, p⟩ count).2.1 =
        ⟨data, p + (part ok more (carried data p count)).length⟩ := by
  unfold carried
  by_cases hfail : ok = false ∨ count < 0
  · rw [sendfileUpTo_fail zero hfail]
    rcases hfail with rfl | hneg
    · simp [part, reach]
    · simp [part, hneg]
  · rw [not_or, Bool.not_eq_false] at hfail
    obtain ⟨rfl, hcount⟩ := hfail
    rw [if_neg hcount, sendfileUpTo, if_neg (by simpa using hcount)]
    simp only [part, Fd.write_over, and_self]

/-- Of a text only the beginning `t` has been written: behind it the old file goes on. -/
theorem ftruncate_written (zero : β) (old t : List β) {n : ℕ} (h : t.length ≤ n) :
    ftruncate zero (Fd.wrote old t).data n = t ++ (ftruncate zero old n).drop t.length := by
  unfold ftruncate Fd.wrote
  simp only [List.length_append, List.length_drop]
  rw [List.take_append, List.take_of_length_le h, List.append_assoc, List.drop_append,
    List.drop_take, List.length_take]
  congr 2
  rw [List.drop_replicate]
  congr 1
  omega

theorem length_ftruncate (zero : β) (data : List β) (n : ℕ) :
    (ftruncate zero data n).length = n := by
  simp only [ftruncate, List.length_append, List.length_take, List.length_replicate]
  omega

end Descriptor
