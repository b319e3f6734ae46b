import Yacet.Lib.CString

/-!
# Strings in a block of memory

Strings that lie one behind another, each with its end, and copies between them.

* `layout`, `offset` — the block of a list of strings and where each of them begins.
* `Holds` — a string stands at an address.
* `strcpy` — a copy between strings that do not overlap.
* `holds_write_self`, `holds_write_agree` — **what has been written stands there, and so does each
  string whose bytes the copy does not change.**
* `agree_of_holds` — no other string does.
-/

namespace StringBlock

open CString

variable {β : Type*} {nul : β} {mem s r : List β} {p q : ℕ} {args : List (List β)}

/-- The strings one behind another. -/
def layout (nul : β) (args : List (List β)) : List β := (args.map (· ++ [nul])).flatten

/-- Where a string of the layout begins. -/
def offset (nul : β) (args : List (List β)) (a : ℕ) : ℕ := (layout nul (args.take a)).length

/-- The string at an address. -/
def strAt [DecidableEq β] (nul : β) (mem : List β) (p : ℕ) : List β := cstr nul (mem.drop p)

/-- The string and its end written at an address. -/
def write (nul : β) (mem : List β) (dst : ℕ) (s : List β) : List β :=
  mem.take dst ++ (s ++ [nul]) ++ mem.drop (dst + (s.length + 1))

/-- Two strings with their ends, at these addresses, do not meet. -/
def Apart (p : ℕ) (s : List β) (q : ℕ) (r : List β) : Prop := p + s.length < q ∨ q + r.length < p

instance (p : ℕ) (s : List β) (q : ℕ) (r : List β) : Decidable (Apart p s q r) :=
  inferInstanceAs (Decidable (_ ∨ _))

/-- `strcpy(dst, src)`; `none` for a copy that overlaps its source, which is undefined. -/
def strcpy [DecidableEq β] (nul : β) (mem : List β) (dst src : ℕ) : Option (List β) :=
  let s := strAt nul mem src
  if Apart dst s src s then some (write nul mem dst s) else none

/-- The string and its end stand at the address. -/
structure Holds (nul : β) (mem : List β) (p : ℕ) (s : List β) : Prop where
  notMem : nul ∉ s
  occurs : OccursAt (s ++ [nul]) mem p

/-- Where two strings with their ends meet, they have the same bytes. -/
def Agree (nul : β) (p : ℕ) (s : List β) (q : ℕ) (r : List β) : Prop :=
  ∀ x < s.length + 1, ∀ y < r.length + 1, p + x = q + y → (s ++ [nul])[x]? = (r ++ [nul])[y]?

instance [DecidableEq β] (p : ℕ) (s : List β) (q : ℕ) (r : List β) :
    Decidable (Agree nul p s q r) :=
  inferInstanceAs (Decidable (∀ x < s.length + 1, ∀ y < r.length + 1, _ → _))

theorem strAt_of_holds [DecidableEq β] (h : Holds nul mem p s) : strAt nul mem p = s := by
  obtain ⟨t, ht⟩ := h.occurs
  rw [strAt, ← ht, List.append_assoc, cstr_append_of_notMem h.notMem]
  simp [cstr]

theorem lt_length_of_holds (h : Holds nul mem p s) : p + s.length < mem.length := by
  have := h.occurs.length_le
  rw [List.length_drop, List.length_append, List.length_singleton] at this
  omega

/-! ## The layout -/

theorem layout_append (args rest : List (List β)) :
    layout nul (args ++ rest) = layout nul args ++ layout nul rest := by
  rw [layout, List.map_append, List.flatten_append]
  rfl

/-- Each string stands at its offset. -/
theorem holds_layout {a : ℕ} (ha : a < args.length) (hargs : ∀ s ∈ args, nul ∉ s) :
    Holds nul (layout nul args) (offset nul args a) args[a] := by
  refine ⟨hargs _ (List.getElem_mem ha), ?_⟩
  have hcut : layout nul args =
      layout nul (args.take a) ++ (args[a] ++ [nul] ++ layout nul (args.drop (a + 1))) := by
    conv_lhs => rw [← List.take_append_drop a args, List.drop_eq_getElem_cons ha]
    rw [layout_append]
    rfl
  rw [OccursAt, offset, hcut, List.drop_left]
  exact List.prefix_append _ _

/-- The strings of a layout do not meet. -/
theorem offset_lt (nul : β) (args : List (List β)) {a b : ℕ} (hab : a < b) (hb : b ≤ args.length) :
    offset nul args a + (args[a]).length < offset nul args b := by
  have hcut : args.take b = args.take a ++ args[a] :: (args.take b).drop (a + 1) := by
    conv_lhs => rw [← List.take_append_drop a (args.take b),
      List.drop_eq_getElem_cons (by rw [List.length_take]; omega)]
    rw [List.take_take, min_eq_left (by omega), List.getElem_take]
  have hlen : layout nul (args.take b) =
      layout nul (args.take a) ++
        (args[a] ++ [nul] ++ layout nul ((args.take b).drop (a + 1))) := by
    rw [hcut, layout_append, ← hcut]
    rfl
  rw [offset, offset, hlen]
  simp only [List.length_append, List.length_singleton]
  omega

/-! ## Copies -/

/-- The bytes of a string that stands at an address. -/
theorem getElem?_of_holds (h : Holds nul mem p s) {x : ℕ} (hx : x < s.length + 1) :
    mem[p + x]? = (s ++ [nul])[x]? := by
  have hlen : x < (s ++ [nul]).length := by simpa using hx
  have hocc := List.prefix_iff_getElem?.1 h.occurs x hlen
  rw [List.getElem?_drop] at hocc
  rw [hocc, List.getElem?_eq_getElem hlen]

/-- Strings in one memory agree. -/
theorem agree_of_holds (hs : Holds nul mem p s) (hr : Holds nul mem q r) : Agree nul p s q r := by
  intro x hx y hy hxy
  rw [← getElem?_of_holds hs hx, ← getElem?_of_holds hr hy, hxy]

/-- What has been written stands there. -/
theorem holds_write_self (hs : nul ∉ s) (hp : p ≤ mem.length) :
    Holds nul (write nul mem p s) p s := by
  refine ⟨hs, ?_⟩
  rw [OccursAt, write, List.append_assoc, List.drop_append_of_le_length (by simp [hp]),
    List.drop_of_length_le (by simp), List.nil_append]
  exact List.prefix_append _ _

/-- A byte that is not written. -/
theorem getElem?_write (i : ℕ) (hp : p ≤ mem.length) (hi : i < p ∨ p + s.length < i) :
    (write nul mem p s)[i]? = mem[i]? := by
  rw [write]
  rcases hi with hi | hi
  · rw [List.append_assoc, List.getElem?_append_left (by rw [List.length_take]; omega),
      List.getElem?_take_of_lt hi]
  · rw [List.getElem?_append_right (by simp; omega), List.getElem?_drop]
    congr 1
    simp
    omega

/-- **A string whose bytes are not changed is still there.** -/
theorem holds_write_agree (h : Holds nul mem q r) (hs : nul ∉ s) (hp : p ≤ mem.length)
    (hagree : Agree nul p s q r) : Holds nul (write nul mem p s) q r := by
  refine ⟨h.notMem, List.prefix_iff_getElem?.2 fun y hy => ?_⟩
  rw [List.getElem?_drop, ← List.getElem?_eq_getElem hy]
  have hy' : y < r.length + 1 := by simpa using hy
  by_cases hmeet : p ≤ q + y ∧ q + y ≤ p + s.length
  · have hwritten := getElem?_of_holds (holds_write_self hs hp) (x := q + y - p) (by omega)
    rw [show p + (q + y - p) = q + y by omega] at hwritten
    rw [hwritten]
    exact hagree _ (by omega) y hy' (by omega)
  · rw [getElem?_write (q + y) hp (by omega), getElem?_of_holds h hy']

theorem length_le_write : mem.length ≤ (write nul mem p s).length := by
  rw [write]
  simp only [List.length_append, List.length_take, List.length_drop, List.length_singleton]
  omega

theorem write_of_strcpy [DecidableEq β] {mem' : List β} (h : strcpy nul mem p q = some mem') :
    ∃ s, mem' = write nul mem p s := by
  rw [strcpy] at h
  split at h
  · exact ⟨_, (Option.some.inj h).symm⟩
  · cases h

/-! ## A block that ends with the end of a string -/

theorem getLast?_layout (hargs : args ≠ []) : (layout nul args).getLast? = some nul := by
  obtain ⟨front, a, rfl⟩ := (List.eq_nil_or_concat args).resolve_left hargs
  rw [List.concat_eq_append, layout_append]
  simp [layout]

theorem getLast?_write (h : mem.getLast? = some nul) :
    (write nul mem p s).getLast? = some nul := by
  rw [write, List.getLast?_append]
  by_cases hlen : mem.length ≤ p + (s.length + 1)
  · rw [List.drop_of_length_le hlen]
    simp
  · rw [List.getLast?_drop, if_neg hlen, h]
    rfl

/-- In such a block a text that can be read ends with its end. -/
theorem holds_of_strAt [DecidableEq β] (hlast : mem.getLast? = some nul) (hp : p < mem.length)
    (h : strAt nul mem p = s) : Holds nul mem p s := by
  have hmem : nul ∈ mem.drop p := by
    have hlast' : (mem.drop p).getLast? = some nul := by
      rw [List.getLast?_drop, if_neg (by omega), hlast]
    exact List.mem_of_getLast? hlast'
  obtain ⟨u, v, hcut, hu⟩ := List.eq_append_cons_of_mem hmem
  have hsu : s = u := by
    rw [← h, strAt, hcut, cstr_append_of_notMem hu]
    simp [cstr]
  subst hsu
  refine ⟨hu, ?_⟩
  rw [OccursAt, hcut, ← List.singleton_append (l := v), ← List.append_assoc]
  exact List.prefix_append _ _

end StringBlock
