import Yacet.LockNames
import Yacet.Lib.CString
import Yacet.Lib.Steps

/-!
# Preparing the path of a lock (`zkclient.c`)

`zk_acquire_lock` makes the node of each directory on the way, of the file and of the subfolder,
cutting the path with a NUL at each slash in turn.

* `retryCreate` — `retry_create` on the answers of ZooKeeper in their order.
* `zkAcquireLock` — the return value and what is left of the path in memory.
* `zkAcquireLock_path_iff` — **the path is as before iff each directory is granted.**
* `step` — one call of one of several clients that prepare the same path, as nothing else happens to
  its nodes.
* `Unraced` — a client that creates a node above the subfolder still finds it absent.
* `race_prepares` — **in a run of such steps nobody fails and everybody ends with all nodes made**;
  a step that is not one of them is a failure.
-/

namespace Yacet

namespace LockPath

open CString Steps

/-! ## One client -/

def ZCONNECTIONLOSS : ℤ := -4

def ZNONODE : ℤ := -101

def ZNODEEXISTS : ℤ := -110

/-- What `retry_create` asks ZooKeeper for. -/
inductive Call
  | zooExists
  | zooCreate
  deriving DecidableEq, Repr

/-- The call that follows an answer in the loop of `retry_create`. -/
def nextCall (ret : ℤ) : Option Call :=
  if ret = ZCONNECTIONLOSS then some .zooExists
  else if ret = ZNONODE then some .zooCreate
  else none

/-- The loop behind the answer `ret` with `left` rounds to go; `k` answers have come, and `replies`
holds all of them in their order. -/
def retryLoop (replies : ℕ → ℤ) : ℕ → ℕ → ℤ → ℤ × ℕ
  | 0, k, ret => (ret, k)
  | left + 1, k, ret =>
    match nextCall ret with
    | some _ => retryLoop replies left (k + 1) (replies k)
    | none => (ret, k)

/-- `retry_create`: the return value and the number of answers behind it. -/
def retryCreate (replies : ℕ → ℤ) (k : ℕ) : ℤ × ℕ := retryLoop replies 3 (k + 1) (replies k)

/-- The loop over the slashes from `slashptr` on, with the text `front` before it: what it returns
early, if it does, the path in memory and the number of answers. -/
def dirLoop (replies : ℕ → ℤ) (front : Text) : Text → ℕ → Option ℤ × Text × ℕ
  | [], k => (none, front, k)
  | c :: rest, k =>
    if c = '/' then
      -- the path ends at the slash now
      let (ret, k) := retryCreate replies k
      if ret ≠ ZOK then (some ret, front ++ nulChar :: rest, k)
      else dirLoop replies (front ++ ['/']) rest k
    else dirLoop replies (front ++ [c]) rest k

/-- The attempts to create the lock node; they only read the path. -/
def attempts (attempt : ℕ → ℤ) : ℕ → ℤ → ℤ
  | 0, checkRetry => checkRetry
  | left + 1, checkRetry =>
    if checkRetry = ZOK then checkRetry else attempts attempt left (attempt left)

/-- `zk_acquire_lock` on a path that is not empty: the return value and the path in memory. -/
def zkAcquireLock (replies attempt : ℕ → ℤ) (path : Text) : ℤ × Text :=
  match dirLoop replies (path.take 1) (path.drop 1) 0 with
  | (some ret, path, _) => (ret, path)
  | (none, path, k) =>
    let (ret, k) := retryCreate replies k
    if ret ≠ ZOK then (ret, path)
    else
      -- the subfolder
      let (ret, _) := retryCreate replies k
      if ret = ZCONNECTIONLOSS then (ret, path)
      else (attempts attempt 3 ZCONNECTIONLOSS, path)

/-- Among the answers from the `k`-th on the first one that is not tried again comes after three at
most, and it is good; `k'` is the number of answers with it. -/
def Granted (replies : ℕ → ℤ) (k k' : ℕ) : Prop :=
  ∃ j ≤ 3, k' = k + j + 1 ∧
    (∀ i < j, replies (k + i) = ZCONNECTIONLOSS ∨ replies (k + i) = ZNONODE) ∧ replies (k + j) = ZOK

/-- So it is for each of `n` nodes. -/
def AllGranted (replies : ℕ → ℤ) : ℕ → ℕ → Prop
  | 0, _ => True
  | n + 1, k => ∃ k', Granted replies k k' ∧ AllGranted replies n k'

variable {replies : ℕ → ℤ} {k k' left : ℕ} {ret : ℤ}

theorem nextCall_eq_none_iff : nextCall ret = none ↔ ¬ (ret = ZCONNECTIONLOSS ∨ ret = ZNONODE) := by
  unfold nextCall
  split
  · simp [*]
  · split
    · simp [*]
    · simp [*]

/-- An answer that is not tried again is the last one. -/
theorem answered_iff (h : nextCall (replies k) = none) (n : ℕ) :
    (replies k, k + 1) = (ZOK, k') ↔ ∃ j ≤ n, k' = k + j + 1 ∧
      (∀ i < j, replies (k + i) = ZCONNECTIONLOSS ∨ replies (k + i) = ZNONODE) ∧
      replies (k + j) = ZOK := by
  rw [nextCall_eq_none_iff] at h
  constructor
  · intro heq
    rw [Prod.mk.injEq] at heq
    exact ⟨0, Nat.zero_le n, heq.2.symm, fun i hi => absurd hi (Nat.not_lt_zero i), heq.1⟩
  · rintro ⟨j, -, hk, hretried, hok⟩
    cases j with
    | zero => rw [hk, show replies k = ZOK from hok]
    | succ j => exact absurd (hretried 0 (Nat.succ_pos j)) h

theorem retryLoop_iff : retryLoop replies left (k + 1) (replies k) = (ZOK, k') ↔
    ∃ j ≤ left, k' = k + j + 1 ∧
      (∀ i < j, replies (k + i) = ZCONNECTIONLOSS ∨ replies (k + i) = ZNONODE) ∧
      replies (k + j) = ZOK := by
  induction left generalizing k with
  | zero =>
      rw [retryLoop]
      constructor
      · intro h
        rw [Prod.mk.injEq] at h
        exact ⟨0, Nat.le_refl 0, h.2.symm, fun i hi => absurd hi (Nat.not_lt_zero i), h.1⟩
      · rintro ⟨j, hj, hk, -, hok⟩
        obtain rfl : j = 0 := by omega
        rw [hk, show replies k = ZOK from hok]
  | succ left ih =>
      rw [retryLoop]
      cases hnext : nextCall (replies k) with
      | none => exact answered_iff hnext (left + 1)
      | some call =>
          have hretry : replies k = ZCONNECTIONLOSS ∨ replies k = ZNONODE := by
            by_contra hno
            rw [nextCall_eq_none_iff.2 hno] at hnext
            cases hnext
          simp only
          rw [ih]
          constructor
          · rintro ⟨j, hj, hk, hretried, hok⟩
            refine ⟨j + 1, by omega, by omega, fun i hi => ?_, ?_⟩
            · cases i with
              | zero => exact hretry
              | succ i =>
                  rw [show k + (i + 1) = k + 1 + i by omega]
                  exact hretried i (by omega)
            · rw [show k + (j + 1) = k + 1 + j by omega]
              exact hok
          · rintro ⟨j, hj, hk, hretried, hok⟩
            cases j with
            | zero =>
                rw [show replies k = ZOK from hok] at hretry
                exact absurd hretry (by decide)
            | succ j =>
                refine ⟨j, by omega, by omega, fun i hi => ?_, ?_⟩
                · rw [show k + 1 + i = k + (i + 1) by omega]
                  exact hretried (i + 1) (by omega)
                · rw [show k + 1 + j = k + (j + 1) by omega]
                  exact hok

/-- **`retry_create` returns `ZOK` iff the node is granted.** -/
theorem retryCreate_iff : retryCreate replies k = (ZOK, k') ↔ Granted replies k k' := retryLoop_iff

/-- The loop over the slashes leaves the path as it was iff each directory is granted. -/
theorem dirLoop_iff (front rest : Text) : (dirLoop replies front rest k).2.1 = front ++ rest ↔
    AllGranted replies (rest.count '/') k := by
  induction rest generalizing front k with
  | nil => exact iff_of_true (List.append_nil front).symm trivial
  | cons c rest ih =>
      rw [dirLoop]
      by_cases hc : c = '/'
      · subst hc
        rw [if_pos rfl, List.count_cons_self, AllGranted]
        cases hrun : retryCreate replies k with
        | mk ret k₁ =>
            by_cases hret : ret = ZOK
            · subst hret
              simp only [ne_eq, not_true_eq_false, if_false]
              rw [List.append_cons front '/' rest, ih]
              constructor
              · exact fun h => ⟨k₁, retryCreate_iff.1 hrun, h⟩
              · rintro ⟨k₂, hgranted, h⟩
                have heq := hrun.symm.trans (retryCreate_iff.2 hgranted)
                rw [Prod.mk.injEq] at heq
                rwa [heq.2]
            · simp only [ne_eq, hret, not_false_eq_true, if_true]
              refine iff_of_false (fun heq => ?_) ?_
              · rw [List.append_cancel_left_eq, List.cons.injEq] at heq
                exact absurd heq.1 (by decide)
              · rintro ⟨k₂, hgranted, -⟩
                have heq := hrun.symm.trans (retryCreate_iff.2 hgranted)
                rw [Prod.mk.injEq] at heq
                exact hret heq.1
      · rw [if_neg hc, List.append_cons front c rest, ih, List.count_cons_of_ne hc]

/-- **The path is as it was iff each directory on the way is granted.** -/
theorem zkAcquireLock_path_iff (replies attempt : ℕ → ℤ) (path : Text) :
    (zkAcquireLock replies attempt path).2 = path ↔
      AllGranted replies ((path.drop 1).count '/') 0 := by
  have hloop := @dirLoop_iff replies 0 (path.take 1) (path.drop 1)
  rw [List.take_append_drop] at hloop
  rw [← hloop, zkAcquireLock]
  split
  · rename_i hrun
    rw [hrun]
  · rename_i hrun
    rw [hrun]
    simp only
    split
    · rfl
    · split <;> rfl

/-- Four answers that the connection is lost at the first directory of `/a/b`: from then on the path
reads `/a`. -/
theorem zkAcquireLock_cuts_path :
    let out := zkAcquireLock (fun _ => ZCONNECTIONLOSS) (fun _ => ZOK) ['/', 'a', '/', 'b']
    out = (ZCONNECTIONLOSS, ['/', 'a', nulChar, 'b']) ∧ out.2 ≠ ['/', 'a', '/', 'b'] ∧
      cstr nulChar out.2 = ['/', 'a'] := by
  decide

/-! ## Several clients -/

/-- Where a client stands in the preparation of the path: at a node, with the call that it makes
next and the rounds that its `retry_create` has left. -/
inductive Phase
  | calling (level : ℕ) (call : Call) (left : ℕ)
  | prepared
  | failed (ret : ℤ)
  deriving DecidableEq, Repr

/-- The nodes on the way are made from the top: the first `depth` of them exist. -/
structure System where
  depth : ℕ
  phase : ℕ → Phase

/-- The nodes of the directories, of the file and of the subfolder. -/
def height (path : Text) : ℕ := (path.drop 1).count '/' + 2

/-- The first `m` nodes exist. -/
def start (m : ℕ) : System := ⟨m, fun _ => .calling 0 .zooExists 3⟩

/-- What ZooKeeper answers, and the number of nodes afterwards. -/
def reply (depth level : ℕ) : Call → ℤ × ℕ
  | .zooExists => (if level < depth then ZOK else ZNONODE, depth)
  | .zooCreate =>
    if level < depth then (ZNODEEXISTS, depth)
    else if level = depth then (ZOK, depth + 1)
    else (ZNONODE, depth)

/-- Behind an answer: another round of `retry_create`, or its return. -/
def after (levels level left : ℕ) (ret : ℤ) : Phase :=
  match left, nextCall ret with
  | left + 1, some call => .calling level call left
  | _, _ =>
    if level + 1 < levels then
      if ret ≠ ZOK then .failed ret else .calling (level + 1) .zooExists 3
    else if ret = ZCONNECTIONLOSS then .failed ret
    else .prepared

/-- A call of client `c` and its answer. -/
def step (levels : ℕ) (c : ℕ) (σ : System) : Option System :=
  match σ.phase c with
  | .calling level call left =>
    let (ret, depth) := reply σ.depth level call
    some ⟨depth, Function.update σ.phase c (after levels level left ret)⟩
  | _ => none

/-- A create of a node above the subfolder that another client has made since. -/
def Phase.late (levels depth : ℕ) : Phase → Bool
  | .calling level .zooCreate _ => level < depth && level + 1 < levels
  | _ => false

/-- The step is no such create. -/
def Unraced (levels : ℕ) (c : ℕ) (σ : System) : Prop := (σ.phase c).late levels σ.depth = false

instance (levels c : ℕ) (σ : System) : Decidable (Unraced levels c σ) := by
  unfold Unraced
  infer_instance

/-- Nobody has failed. -/
def NobodyFails (σ : System) : Prop := ∀ c ret, σ.phase c ≠ .failed ret

/-- A client's own part of the invariant. -/
def Phase.Ok (levels depth : ℕ) : Phase → Prop
  | .calling level .zooExists left => level < levels ∧ level ≤ depth ∧ left = 3
  | .calling level .zooCreate left => level < levels ∧ level ≤ depth ∧ left = 2
  | .prepared => levels ≤ depth
  | .failed _ => False

/-- The calls that a client makes at most from here on. -/
def Phase.weight (levels : ℕ) : Phase → ℕ
  | .calling level .zooExists _ => 2 * (levels - level)
  | .calling level .zooCreate _ => 2 * (levels - level) - 1
  | _ => 0

variable {levels m c depth level : ℕ} {σ σ' : System} {p : Phase} {call : Call}

theorem Phase.Ok.mono (h : p.Ok levels depth) {depth' : ℕ} (hle : depth ≤ depth') :
    p.Ok levels depth' := by
  cases p with
  | calling level call left =>
      cases call with
      | zooExists => exact ⟨h.1, h.2.1.trans hle, h.2.2⟩
      | zooCreate => exact ⟨h.1, h.2.1.trans hle, h.2.2⟩
  | prepared => exact Nat.le_trans h hle
  | failed ret => exact h

theorem le_reply : depth ≤ (reply depth level call).2 := by
  unfold reply
  cases call with
  | zooExists => exact Nat.le_refl depth
  | zooCreate =>
      simp only
      split
      · exact Nat.le_refl depth
      · split
        · exact Nat.le_succ depth
        · exact Nat.le_refl depth

/-- A node that is there now: the client goes on to the next one, or it has them all. -/
theorem after_ok (left : ℕ) (hlevel : level < levels) (hdepth : level < depth) :
    (after levels level left ZOK).Ok levels depth ∧
      (after levels level left ZOK).weight levels + 2 ≤ 2 * (levels - level) := by
  have hafter : after levels level left ZOK =
      if level + 1 < levels then .calling (level + 1) .zooExists 3 else .prepared := by
    cases left with
    | zero => rfl
    | succ left => rfl
  rw [hafter]
  split
  · rename_i hmore
    exact ⟨⟨hmore, hdepth, rfl⟩, by simp only [Phase.weight]; omega⟩
  · exact ⟨show levels ≤ depth by omega, by simp only [Phase.weight]; omega⟩

/-- **One call**: the client goes on and has fewer calls to make, unless it comes too late with a
create; then it has failed. -/
theorem step_phase (h : (Phase.calling level call left).Ok levels depth) :
    let out := reply depth level call
    if (Phase.calling level call left).late levels depth then
      after levels level left out.1 = .failed ZNODEEXISTS
    else (after levels level left out.1).Ok levels out.2 ∧
      (after levels level left out.1).weight levels <
        (Phase.calling level call left).weight levels := by
  intro out
  cases call with
  | zooExists =>
      obtain ⟨hlevel, hdepth, rfl⟩ := h
      rw [if_neg (by simp [Phase.late])]
      by_cases hlt : level < depth
      · have hout : out = (ZOK, depth) := by simp [out, reply, hlt]
        obtain ⟨hok, hweight⟩ := after_ok 3 hlevel hlt
        rw [hout]
        refine ⟨hok, ?_⟩
        show (after levels level 3 ZOK).weight levels < 2 * (levels - level)
        omega
      · have hout : out = (ZNONODE, depth) := by simp [out, reply, hlt]
        rw [hout]
        exact ⟨⟨hlevel, hdepth, rfl⟩, show 2 * (levels - level) - 1 < 2 * (levels - level) by omega⟩
  | zooCreate =>
      obtain ⟨hlevel, hdepth, rfl⟩ := h
      by_cases hlt : level < depth
      · have hout : out = (ZNODEEXISTS, depth) := by simp [out, reply, hlt]
        have hafter : after levels level 2 ZNODEEXISTS =
            if level + 1 < levels then .failed ZNODEEXISTS else .prepared := rfl
        rw [hout, hafter]
        by_cases hmore : level + 1 < levels
        · rw [if_pos (by simp [Phase.late, hlt, hmore]), if_pos hmore]
        · rw [if_neg (by simp [Phase.late, hmore]), if_neg hmore]
          exact ⟨show levels ≤ depth by omega, by simp only [Phase.weight]; omega⟩
      · obtain rfl : level = depth := by omega
        have hout : out = (ZOK, level + 1) := by simp [out, reply]
        obtain ⟨hok, hweight⟩ := after_ok 2 hlevel (Nat.lt_succ_self level)
        rw [if_neg (by simp [Phase.late]), hout]
        refine ⟨hok, ?_⟩
        show (after levels level 2 ZOK).weight levels < 2 * (levels - level) - 1
        omega

/-- What a step leaves. -/
theorem step_cases (h : step levels c σ = some σ') : ∃ level call left,
    σ.phase c = .calling level call left ∧ σ' = ⟨(reply σ.depth level call).2,
      Function.update σ.phase c (after levels level left (reply σ.depth level call).1)⟩ := by
  unfold step at h
  split at h
  · rename_i level call left hphase
    exact ⟨level, call, left, hphase, (Option.some.inj h).symm⟩
  · cases h

/-- **A step of the invariant**, and the calls that it takes off. -/
theorem unraced_step (hok : ∀ c, (σ.phase c).Ok levels σ.depth) (hunraced : Unraced levels c σ)
    (h : step levels c σ = some σ') :
    (∀ d, (σ'.phase d).Ok levels σ'.depth) ∧
      ∀ d, (σ'.phase d).weight levels + (if d = c then 1 else 0) ≤ (σ.phase d).weight levels := by
  obtain ⟨level, call, left, hphase, rfl⟩ := step_cases h
  have hc := hok c
  rw [Unraced, hphase] at hunraced
  rw [hphase] at hc
  have hstep := step_phase hc
  simp only [hunraced, Bool.false_eq_true, if_false] at hstep
  constructor
  · intro d
    by_cases hd : d = c
    · subst hd
      simp only [Function.update_self]
      exact hstep.1
    · simp only [Function.update_of_ne hd]
      exact (hok d).mono le_reply
  · intro d
    by_cases hd : d = c
    · subst hd
      simp only [Function.update_self, if_true, hphase]
      exact hstep.2
    · simp only [Function.update_of_ne hd, if_neg hd]
      exact Nat.le_refl _

/-- A step of a client keeps the others from nothing, but a late create is a failure. -/
theorem nobodyFails_iff (hok : ∀ c, (σ.phase c).Ok levels σ.depth) (h : step levels c σ = some σ') :
    NobodyFails σ' ↔ Unraced levels c σ := by
  constructor
  · intro hnobody
    obtain ⟨level, call, left, hphase, rfl⟩ := step_cases h
    have hc := hok c
    rw [hphase] at hc
    rw [Unraced, hphase]
    by_contra hlate
    rw [Bool.not_eq_false] at hlate
    have hstep := step_phase hc
    simp only [hlate, if_true] at hstep
    apply hnobody c ZNODEEXISTS
    simp only [Function.update_self]
    exact hstep
  · intro hunraced d ret hfailed
    have hd := (unraced_step hok hunraced h).1 d
    rw [hfailed] at hd
    exact hd

theorem run_ok {as : List ℕ} (h : runGuarded (step levels) (Unraced levels) as σ = some σ')
    (hok : ∀ c, (σ.phase c).Ok levels σ.depth) :
    (∀ c, (σ'.phase c).Ok levels σ'.depth) ∧
      ∀ c, (σ'.phase c).weight levels + as.count c ≤ (σ.phase c).weight levels := by
  induction as generalizing σ with
  | nil =>
      cases h
      exact ⟨hok, fun c => Nat.le_refl _⟩
  | cons a as ih =>
      rw [runGuarded, List.foldlM_cons] at h
      obtain ⟨τ, hτ, hrest⟩ := Option.bind_eq_some_iff.1 h
      split at hτ
      · rename_i hunraced
        obtain ⟨hok', hweight⟩ := unraced_step hok hunraced hτ
        obtain ⟨hok'', hweight'⟩ := ih hrest hok'
        refine ⟨hok'', fun c => ?_⟩
        have h1 := hweight c
        have h2 := hweight' c
        by_cases hc : c = a
        · subst hc
          rw [List.count_cons_self]
          rw [if_pos rfl] at h1
          omega
        · rw [List.count_cons_of_ne (Ne.symm hc)]
          rw [if_neg hc] at h1
          omega
      · cases hτ

/-- **In a run without a late create nobody fails, everybody comes to the end with at most two calls
for each node, and all nodes exist then**; a late create is a failure. -/
theorem race_prepares {path : Text} {as : List ℕ}
    (h : runGuarded (step (height path)) (Unraced (height path)) as (start m) = some σ) :
    NobodyFails σ ∧
      (∀ c, σ.phase c = .prepared → height path ≤ σ.depth) ∧
      (∀ c, σ.phase c = .prepared ∨ (step (height path) c σ).isSome = true) ∧
      (∀ c, as.count c ≤ 2 * height path) ∧
      ∀ c σ', step (height path) c σ = some σ' → (NobodyFails σ' ↔ Unraced (height path) c σ) := by
  have hstart : ∀ c, ((start m).phase c).Ok (height path) (start m).depth := fun c =>
    ⟨Nat.succ_pos _, Nat.zero_le _, rfl⟩
  obtain ⟨hok, hweight⟩ := run_ok h hstart
  refine ⟨fun c ret hfailed => ?_, fun c hc => ?_, fun c => ?_, fun c => ?_, fun c σ' hstep =>
    nobodyFails_iff hok hstep⟩
  · have hc := hok c
    rw [hfailed] at hc
    exact hc
  · have hc' := hok c
    rw [hc] at hc'
    exact hc'
  · cases hphase : σ.phase c with
    | calling level call left => exact Or.inr (by simp [step, hphase])
    | prepared => exact Or.inl rfl
    | failed ret =>
        have hc := hok c
        rw [hphase] at hc
        exact hc.elim
  · exact (Nat.le_add_left _ _).trans (hweight c)

/-- Two clients, one behind the other, on `/a`, which is not there yet. -/
theorem race_prepares_two : ∃ σ,
    runGuarded (step (height ['/', 'a'])) (Unraced (height ['/', 'a'])) [0, 0, 1, 0, 0, 1]
        (start 0) = some σ ∧
      σ.phase 0 = .prepared ∧ NobodyFails σ := by
  have hrun : ((runGuarded (step (height ['/', 'a'])) (Unraced (height ['/', 'a']))
      [0, 0, 1, 0, 0, 1] (start 0)).map fun σ => σ.phase 0) = some .prepared := by decide
  obtain ⟨σ, hσ, hphase⟩ := Option.map_eq_some_iff.1 hrun
  exact ⟨σ, hσ, hphase, (race_prepares hσ).1⟩

/-- Both find `/a` missing, and the one that creates it second fails. -/
theorem late_create_fails : ∃ σ,
    runGuarded (step (height ['/', 'a'])) (fun _ _ => True) [0, 1, 1, 0] (start 0) = some σ ∧
      σ.phase 0 = .failed ZNODEEXISTS ∧ ¬ NobodyFails σ := by
  have hrun : ((runGuarded (step (height ['/', 'a'])) (fun _ _ => True) [0, 1, 1, 0]
      (start 0)).map fun σ => σ.phase 0) = some (.failed ZNODEEXISTS) := by decide
  obtain ⟨σ, hσ, hphase⟩ := Option.map_eq_some_iff.1 hrun
  exact ⟨σ, hσ, hphase, fun h => h 0 _ hphase⟩

end LockPath

end Yacet
