import Mathlib.Data.Int.Init
import Yacet.Lib.CText
import Yacet.Lib.Tickets

/-!
# Names of lock nodes (`zkclient.c`)

A lock node is called `<word>-<sequence>`, the sequence number printed with `%010d`.

* `lockPath` — where a node is; `getLockName`, `getSequenceNumber` — how the checks take a path or a
  name apart.
* `getSequenceNumber_lockNode` — **the number of a node is read back from its name.**
* `toInt` — the conversion of an unsigned value to `int`; `seqBound` is the first number that does
  not fit.
-/

namespace Yacet

open CText Tickets

abbrev Text := List Char

/-- The end of a C string. -/
def nulChar : Char := Char.ofNat 0

/-- `PATH_MAX` (`common.h`). -/
def pathMax : ℕ := 3072

/-! ## Answers of ZooKeeper -/

def ZOK : ℤ := 0

def ZBADARGUMENTS : ℤ := -8

/-- `zoo_exists` and `zoo_wexists` refuse a path that is no absolute one; `server` answers for the
others. -/
def zooExists (server : Text → ℤ) : Option Text → ℤ
  | some ('/' :: path) => server ('/' :: path)
  | _ => ZBADARGUMENTS

theorem zooExists_of_relative {server : Text → ℤ} {path : Option Text}
    (h : ∀ p ∈ path, '/' ∉ p) : zooExists server path = ZBADARGUMENTS := by
  unfold zooExists
  split
  · rename_i p
    exact absurd List.mem_cons_self (h _ rfl)
  · rfl

/-- The loop behind the first answer: up to three more failures. -/
def existsLoop (server : ℕ → Text → ℤ) (path : Option Text) : ℕ → ℤ → ℤ
  | 0, ret => ret
  | left + 1, ret =>
    if ret = ZOK then ret else existsLoop server path left (zooExists (server left) path)

/-- `zoo_exists` or `zoo_wexists` with its retries. -/
def existsRetry (server : ℕ → Text → ℤ) (path : Option Text) : ℤ :=
  existsLoop server path 3 (zooExists (server 3) path)

/-- No retry helps a relative path. -/
theorem existsRetry_of_relative {server : ℕ → Text → ℤ} {path : Option Text}
    (h : ∀ p ∈ path, '/' ∉ p) : existsRetry server path = ZBADARGUMENTS := by
  have hloop : ∀ left, existsLoop server path left ZBADARGUMENTS = ZBADARGUMENTS := by
    intro left
    induction left with
    | zero => rfl
    | succ left ih => rw [existsLoop, if_neg (by decide), zooExists_of_relative h, ih]
  rw [existsRetry, zooExists_of_relative h, hloop]

/-! ## Names -/

/-- An unsigned value stored in an `int`. -/
def toInt (n : ℕ) : ℤ := (n : ℤ).bmod (2 ^ 32)

/-- Sequence numbers are `int`s. -/
def seqBound : ℕ := 2 ^ 31

theorem toInt_of_lt {n : ℕ} (h : n < seqBound) : toInt n = n := by
  unfold seqBound at h
  apply Int.bmod_eq_of_le
  · norm_num
  · norm_num
    exact h

/-- `strtol` stored in an `int`. -/
def strtolInt (s : Text) : ℤ := toInt (min (strtoul s).1 (2 ^ 63 - 1))

/-- `<word>-%010d`. -/
def lockNode (word : Text) (s : ℕ) : Text := word ++ '-' :: zeroPadded 10 s

/-- `<file>/<folder>/<name>`. -/
def lockPath (filePath folder name : Text) : Text := (filePath ++ '/' :: folder) ++ '/' :: name

/-- `getLockName`: the last name of the path. -/
def getLockName (str : Text) : Option Text := (strrchr '/' str).map (List.drop 1)

/-- `getSequenceNumber`. -/
def getSequenceNumber (lockName : Text) : ℕ :=
  match strrchr '-' lockName with
  | none => 0
  | some t =>
    let ret := strtoul (t.drop 1)
    if 2 ^ 64 ≤ ret.1 ∨ ret.2 ≠ [] then 0 else ret.1

theorem strrchr_lockNode (word : Text) (s : ℕ) :
    strrchr '-' (lockNode word s) = some ('-' :: zeroPadded 10 s) :=
  strrchr_append (notMem_zeroPadded (by decide))

theorem slash_notMem_lockNode {word : Text} (h : '/' ∉ word) (s : ℕ) : '/' ∉ lockNode word s := by
  intro hmem
  rcases List.mem_append.1 hmem with hmem | hmem
  · exact h hmem
  · rcases List.mem_cons.1 hmem with hmem | hmem
    · cases hmem
    · exact notMem_zeroPadded (by decide) hmem

/-- The answer of `zoo_create` tells the name of the node. -/
theorem getLockName_lockPath {name : Text} (h : '/' ∉ name) (filePath folder : Text) :
    getLockName (lockPath filePath folder name) = some name := by
  rw [getLockName, lockPath, strrchr_append h, Option.map_some, List.drop_one, List.tail_cons]

theorem lockPath_inj {filePath folder name name' : Text}
    (h : lockPath filePath folder name = lockPath filePath folder name') : name = name' :=
  (List.cons.inj (List.append_cancel_left h)).2

/-- **The number of a node is read back from its name.** -/
theorem getSequenceNumber_lockNode (word : Text) {s : ℕ} (h : s < seqBound) :
    getSequenceNumber (lockNode word s) = s := by
  unfold seqBound at h
  simp only [getSequenceNumber, strrchr_lockNode, List.drop_one, List.tail_cons,
    strtoul_zeroPadded_end]
  rw [if_neg]
  rintro (h | h)
  · omega
  · exact h rfl

theorem toInt_getSequenceNumber (word : Text) {s : ℕ} (h : s < seqBound) :
    toInt (getSequenceNumber (lockNode word s)) = s := by
  rw [getSequenceNumber_lockNode word h, toInt_of_lt h]

theorem strtolInt_zeroPadded (width : ℕ) {s : ℕ} (h : s < seqBound) :
    strtolInt (zeroPadded width s) = s := by
  have hmin : min s (2 ^ 63 - 1) = s := by
    unfold seqBound at h
    omega
  rw [strtolInt, strtoul_zeroPadded_end, hmin, toInt_of_lt h]

/-- Two nodes of one name have one number. -/
theorem lockNode_inj {word word' : Text} {s t : ℕ} (h : lockNode word s = lockNode word' t) :
    s = t := by
  have hdash := congrArg (strrchr '-') h
  rw [strrchr_lockNode, strrchr_lockNode, Option.some.injEq, List.cons.injEq] at hdash
  have hread := congrArg (fun ds => Nat.ofDigitChars 10 ds 0) hdash.2
  simpa only [ofDigitChars_zeroPadded] using hread

/-- An issued number is found by name as its owner's node only. -/
theorem eq_of_lockNode {ν : Type*} (word : ν → Text) {v : ν} {s : ℕ} {d : Dir ν}
    (h : Issued v s d) {e : ℕ × ν} (he : e ∈ d.nodes)
    (hname : lockNode (word e.2) e.1 = lockNode (word v) s) : e.2 = v := by
  have hs : e.1 = s := lockNode_inj hname
  subst hs
  exact h.own e.2 he

end Yacet
