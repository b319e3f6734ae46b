import Yacet.LockNames
import Yacet.Lib.Steps
import Yacet.Lib.Tickets

/-!
# The master lock (`zkclient.c`)

Readers and writers of a file create numbered nodes in its `master` directory, list the directory
and go by what stands in front of their own node.

* `readEligibility`, `writeEligibility` — the two checks, over the names of the children.
* `writeEligibility_iff` — a writer is let in iff no listed node has a smaller number.
* `readEligibility_of_relative` — a reader is let in whatever is listed: its check looks for the
  word behind a slash, and the names of children hold none.
* `step` — any number of clients that acquire and release; every answer of the server can be lost.
* `writer_excludes` — a writer holds the lock alone in every run in which no reader lists the
  directory while a writer stands in front of it.
-/

namespace Yacet

open CText Tickets Steps

namespace MasterLock

/-! ## The checks -/

/-- `LOCK_TYPE_MASTER_READ` and `LOCK_TYPE_MASTER_WRITE`. -/
inductive Kind
  | read
  | write
  deriving DecidableEq, Repr

def Kind.word : Kind → Text
  | .read => ['r', 'e', 'a', 'd']
  | .write => ['w', 'r', 'i', 't', 'e']

theorem Kind.slash_notMem_word (k : Kind) : '/' ∉ k.word := by
  cases k <;> decide

/-- What the loop over the children keeps. -/
structure Scan where
  minSeq : ℤ
  nextSmallestSeq : ℤ
  nextSmallestLock : Option Text

def Scan.start (currentSeq : ℤ) : Scan := ⟨currentSeq, 0, none⟩

/-- A child with number `s` that the check counts. -/
def Scan.note (currentSeq : ℤ) (a : Scan) (s : ℤ) (name : Text) : Scan where
  minSeq := if s < a.minSeq then s else a.minSeq
  nextSmallestSeq :=
    if s > a.nextSmallestSeq ∧ s < currentSeq then s else a.nextSmallestSeq
  nextSmallestLock :=
    if s > a.nextSmallestSeq ∧ s < currentSeq then some name else a.nextSmallestLock

/-- Behind the loop: `lock_acquired` and the answer.  A client that is not let in watches the node
in front of it. -/
def eligibility (server : ℕ → Text → ℤ) (currentSeq : ℤ) (a : Scan) : Bool × ℤ :=
  if currentSeq = a.minSeq then (true, ZOK) else (false, existsRetry server a.nextSmallestLock)

/-- A client that has counted no child is let in. -/
theorem eligibility_start (server : ℕ → Text → ℤ) (currentSeq : ℤ) :
    eligibility server currentSeq (.start currentSeq) = (true, ZOK) := if_pos rfl

/-- The loop of a writer: every child counts. -/
def writeScan (currentSeq : ℤ) (children : List Text) : Scan :=
  children.foldl (fun a name => a.note currentSeq (toInt (getSequenceNumber name)) name)
    (.start currentSeq)

/-- `_zk_determine_master_write_lock_eligibility`, behind `zoo_get_children`. -/
def writeEligibility (server : ℕ → Text → ℤ) (lockName : Text) (children : List Text) : Bool × ℤ :=
  let currentSeq := toInt (getSequenceNumber lockName)
  eligibility server currentSeq (writeScan currentSeq children)

/-- One child in the check of a reader; `none` where `strrchr` finds no dash. -/
def readScan (currentSeq : ℤ) (a : Scan) (name : Text) : Option Scan :=
  match strrchr '/' name with
  | none => some a
  | some znode =>
    if Kind.write.word <+: znode.drop 1 then
      (strrchr '-' znode).map fun t => a.note currentSeq (strtolInt (t.drop 1)) name
    else some a

/-- `_zk_determine_master_read_lock_eligibility`, behind `zoo_get_children`. -/
def readEligibility (server : ℕ → Text → ℤ) (lockName : Text) (children : List Text) :
    Option (Bool × ℤ) := do
  let t ← strrchr '-' lockName
  let currentSeq := strtolInt (t.drop 1)
  let a ← children.foldlM (readScan currentSeq) (.start currentSeq)
  return eligibility server currentSeq a

theorem foldl_note_minSeq (seq : Text → ℤ) (currentSeq : ℤ) (children : List Text) (a : Scan) :
    (children.foldl (fun a name => a.note currentSeq (seq name) name) a).minSeq ≤ a.minSeq ∧
      (a.minSeq ≤ (children.foldl (fun a name => a.note currentSeq (seq name) name) a).minSeq ↔
        ∀ name ∈ children, a.minSeq ≤ seq name) := by
  induction children generalizing a with
  | nil => simp
  | cons n ns ih =>
      obtain ⟨hle, hiff⟩ := ih (a.note currentSeq (seq n) n)
      simp only [List.foldl_cons, List.forall_mem_cons]
      have hmin : (a.note currentSeq (seq n) n).minSeq =
          if seq n < a.minSeq then seq n else a.minSeq := rfl
      rw [hmin] at hle hiff
      split at hle
      · rename_i hlt
        exact ⟨by omega, fun h => absurd h (by omega), fun h => absurd h.1 (by omega)⟩
      · rename_i hge
        rw [if_neg hge] at hiff
        exact ⟨hle, fun h => ⟨by omega, hiff.1 h⟩, fun h => hiff.2 h.2⟩

/-- The smallest number is the own one iff no child has a smaller one. -/
theorem writeScan_minSeq (currentSeq : ℤ) (children : List Text) :
    currentSeq = (writeScan currentSeq children).minSeq ↔
      ∀ name ∈ children, currentSeq ≤ toInt (getSequenceNumber name) := by
  obtain ⟨hle, hiff⟩ := foldl_note_minSeq (fun name => toInt (getSequenceNumber name)) currentSeq
    children (.start currentSeq)
  constructor
  · intro h
    exact hiff.1 h.le
  · intro h
    exact le_antisymm (hiff.2 h) hle

/-- What the loop wants to watch is one of the children. -/
theorem foldl_note_nextSmallestLock (seq : Text → ℤ) (currentSeq : ℤ) (children : List Text)
    (a : Scan) {p : Text}
    (h : p ∈ (children.foldl
      (fun a name => a.note currentSeq (seq name) name) a).nextSmallestLock) :
    p ∈ children ∨ p ∈ a.nextSmallestLock := by
  induction children generalizing a with
  | nil => exact Or.inr h
  | cons n ns ih =>
      rcases ih _ h with hmem | hmem
      · exact Or.inl (List.mem_cons_of_mem _ hmem)
      · simp only [Scan.note] at hmem
        split at hmem
        · cases hmem
          exact Or.inl List.mem_cons_self
        · exact Or.inr hmem

theorem writeScan_nextSmallestLock {currentSeq : ℤ} {children : List Text} {p : Text}
    (h : p ∈ (writeScan currentSeq children).nextSmallestLock) : p ∈ children :=
  (foldl_note_nextSmallestLock _ _ _ _ h).resolve_right (by simp [Scan.start])

/-- **A writer is let in iff no listed node has a smaller number**; the attempt fails otherwise,
because the name it wants to watch is relative. -/
theorem writeEligibility_iff {server : ℕ → Text → ℤ} {lockName : Text} {children : List Text}
    (hrel : ∀ name ∈ children, '/' ∉ name) :
    (writeEligibility server lockName children).2 = ZOK ↔
      ∀ name ∈ children, toInt (getSequenceNumber lockName) ≤ toInt (getSequenceNumber name) := by
  rw [← writeScan_minSeq]
  simp only [writeEligibility, eligibility]
  split
  · rename_i heq
    exact ⟨fun _ => heq, fun _ => rfl⟩
  · rename_i hne
    rw [existsRetry_of_relative fun p hp => hrel p (writeScan_nextSmallestLock hp)]
    exact ⟨fun h => absurd h (by decide), fun h => absurd h hne⟩

/-- **A reader is let in whatever the directory holds.** -/
theorem readEligibility_of_relative {server : ℕ → Text → ℤ} {word : Text} {s : ℕ}
    {children : List Text} (hrel : ∀ name ∈ children, '/' ∉ name) :
    readEligibility server (lockNode word s) children = some (true, ZOK) := by
  have hscan : ∀ (currentSeq : ℤ) (a : Scan), children.foldlM (readScan currentSeq) a = some a := by
    intro currentSeq a
    induction children with
    | nil => rfl
    | cons n ns ih =>
        rw [List.foldlM_cons, readScan, strrchr_eq_none (hrel n List.mem_cons_self)]
        exact ih fun name hname => hrel name (List.mem_cons_of_mem _ hname)
  rw [readEligibility, strrchr_lockNode]
  simp only [Option.bind_eq_bind, Option.bind_some, hscan]
  rw [eligibility_start]
  rfl

/-! ## Clients -/

/-- Where a client stands in its acquisition or release.  `count` calls have failed before, `left`
is the `lock_name` of an earlier attempt.  `held` is where `zk_acquire_master_lock` has returned
0. -/
inductive Phase
  | idle (k : Kind) (left : Option Text)
  | trying (k : Kind) (count : ℕ) (left : Option Text)
  | created (k : Kind) (count : ℕ) (lockName : Text)
  | listed (k : Kind) (count : ℕ) (lockName : Text) (children : List Text)
  | held (k : Kind) (lockName : Text) (lockAcquired : Bool)
  | releasing (k : Kind) (lockName : Text) (count : ℕ)
  deriving DecidableEq, Repr

/-- Who made a node, and what for. -/
structure Node where
  client : ℕ
  kind : Kind
  deriving DecidableEq, Repr

def nodeName (e : ℕ × Node) : Text := lockNode e.2.kind.word e.1

/-- `<file>/master/<name>`. -/
def fullPath (filePath name : Text) : Text :=
  lockPath filePath ['m', 'a', 's', 't', 'e', 'r'] name

abbrev System := Tickets.System Node Phase

def start : System := ⟨Dir.empty, fun _ => .idle .read none⟩

/-- A call and what ZooKeeper makes of it. -/
inductive Act
  | acquire (c : ℕ) (k : Kind)
  | parentFails (c : ℕ)
  | create (c s : ℕ)
  | createLost (c s : ℕ)
  | createFails (c : ℕ)
  | list (c : ℕ) (children : List Text)
  | listFails (c : ℕ)
  | decide (c : ℕ) (server : ℕ → Text → ℤ)
  | release (c : ℕ)
  | delete (c : ℕ) (made answered : Bool)
  | leave (c : ℕ)

/-- The next attempt of `zk_acquire_lock`, or the end of it: `zk_acquire_master_lock` returns -1. -/
def Phase.failed (k : Kind) (count : ℕ) (left : Option Text) : Phase :=
  if count + 1 < 3 then .trying k (count + 1) left else .idle k left

def check (k : Kind) (server : ℕ → Text → ℤ) (lockName : Text) (children : List Text) :
    Option (Bool × ℤ) :=
  match k with
  | .read => readEligibility server lockName children
  | .write => some (writeEligibility server lockName children)

/-- `zoo_delete`. -/
def zooDelete (filePath path : Text) (d : Dir Node) : Dir Node :=
  d.remove fun e => fullPath filePath (nodeName e) == path

/-- One step of one client. -/
def step (filePath : Text) : Act → System → Option System
  | .acquire c k, σ =>
    match σ.phase c with
    | .idle _ _ => some (σ.enter c (.trying k 0 none))
    | _ => none
  | .parentFails c, σ =>
    match σ.phase c with
    | .trying k 0 left => some (σ.enter c (.idle k left))
    | _ => none
  | .create c s, σ =>
    match σ.phase c with
    | .trying k count _ =>
      if σ.dir.next ≤ s ∧ s < seqBound then
        (getLockName (fullPath filePath (lockNode k.word s))).map fun lockName =>
          System.enter ⟨σ.dir.add s ⟨c, k⟩, σ.phase⟩ c (.created k count lockName)
      else none
    | _ => none
  | .createLost c s, σ =>
    match σ.phase c with
    | .trying k count left =>
      if σ.dir.next ≤ s ∧ s < seqBound then
        some (System.enter ⟨σ.dir.add s ⟨c, k⟩, σ.phase⟩ c (.failed k count left))
      else none
    | _ => none
  | .createFails c, σ =>
    match σ.phase c with
    | .trying k count left => some (σ.enter c (.failed k count left))
    | _ => none
  | .list c children, σ =>
    match σ.phase c with
    | .created k count lockName =>
      if children.Perm (σ.dir.nodes.map nodeName) then
        some (σ.enter c (.listed k count lockName children))
      else none
    | _ => none
  | .listFails c, σ =>
    match σ.phase c with
    | .created k count lockName => some (σ.enter c (.failed k count (some lockName)))
    | _ => none
  | .decide c server, σ =>
    match σ.phase c with
    | .listed k count lockName children =>
      -- an attempt that ends with `ZOK` is enough: a client that is not let in goes on to lock its
      -- own fresh mutex, which does not block
      (check k server lockName children).map fun r =>
        σ.enter c (if r.2 = ZOK then .held k lockName r.1 else .failed k count (some lockName))
    | _ => none
  | .release c, σ =>
    match σ.phase c with
    | .held k lockName _ => some (σ.enter c (.releasing k lockName 0))
    | .idle k (some lockName) => some (σ.enter c (.releasing k lockName 0))
    | _ => none
  | .delete c made answered, σ =>
    match σ.phase c with
    | .releasing k lockName count =>
      let dir := if made then zooDelete filePath (fullPath filePath lockName) σ.dir else σ.dir
      some (System.enter ⟨dir, σ.phase⟩ c
        (if answered = false ∧ count + 1 < 3 then .releasing k lockName (count + 1)
          else .idle k (some lockName)))
    | _ => none
  | .leave c, σ =>
    match σ.phase c with
    | .idle k _ => some (System.enter ⟨σ.dir.remove fun e => e.2.client == c, σ.phase⟩ c
        (.idle k none))
    | _ => none

/-- Client `c` is between a successful acquisition and its release. -/
def Holds (σ : System) (c : ℕ) (k : Kind) : Prop :=
  ∃ lockName lockAcquired, σ.phase c = .held k lockName lockAcquired

/-- The name of a reader's node that waits for the list. -/
def Phase.readerName : Phase → Option Text
  | .created .read _ lockName => some lockName
  | _ => none

def Act.lister : Act → Option ℕ
  | .list c _ => some c
  | _ => none

/-- No writer's node stands in front of a reader that lists the directory. -/
def Unopposed (a : Act) (σ : System) : Prop :=
  ∀ c ∈ a.lister, ∀ lockName ∈ (σ.phase c).readerName,
    Front (fun e => e.2.kind ≠ .write) (getSequenceNumber lockName) σ.dir

instance (a : Act) (σ : System) : Decidable (Unopposed a σ) :=
  inferInstanceAs (Decidable (∀ c ∈ a.lister, ∀ lockName ∈ (σ.phase c).readerName,
    ∀ e ∈ σ.dir.nodes, e.1 < getSequenceNumber lockName → e.2.kind ≠ .write))

/-! ## What a client knows -/

/-- One of two conflicting nodes is a writer's. -/
def Conflict (v w : Node) : Prop := v.kind = .write ∨ w.kind = .write

/-- The names of a list are relative and hold all that stands in front; a reader has no writer
there. -/
structure Listed (k : Kind) (s : ℕ) (children : List Text) (d : Dir Node) : Prop where
  relative : ∀ name ∈ children, '/' ∉ name
  seen : Front (fun e => nodeName e ∈ children) s d
  unopposed : k = .read → Front (fun e => e.2.kind ≠ .write) s d

/-- What a client can rely on where it stands: its name is that of its node, and once it holds the
lock nothing in front conflicts. -/
def Phase.Ok (c : ℕ) (d : Dir Node) : Phase → Prop
  | .idle k left => ∀ lockName ∈ left, ∃ s, lockName = nodeName (s, ⟨c, k⟩) ∧ Issued ⟨c, k⟩ s d
  | .trying k _ left =>
    ∀ lockName ∈ left, ∃ s, lockName = nodeName (s, ⟨c, k⟩) ∧ Issued ⟨c, k⟩ s d
  | .created k _ lockName => ∃ s, lockName = nodeName (s, ⟨c, k⟩) ∧ Owns ⟨c, k⟩ s d
  | .listed k _ lockName children =>
    ∃ s, lockName = nodeName (s, ⟨c, k⟩) ∧ Owns ⟨c, k⟩ s d ∧ Listed k s children d
  | .held k lockName _ => ∃ s, lockName = nodeName (s, ⟨c, k⟩) ∧ Owns ⟨c, k⟩ s d ∧
      Front (fun e => ¬ Conflict ⟨c, k⟩ e.2) s d
  | .releasing k lockName _ => ∃ s, lockName = nodeName (s, ⟨c, k⟩) ∧ Issued ⟨c, k⟩ s d

/-- **New nodes and the loss of others' nodes leave a client what it knows.** -/
theorem stable : Stable Node.client Phase.Ok where
  add c d p t v h ht := by
    cases p with
    | idle k left =>
        intro lockName hname
        obtain ⟨s, hs, hissued⟩ := h lockName hname
        exact ⟨s, hs, hissued.add ht⟩
    | trying k count left =>
        intro lockName hname
        obtain ⟨s, hs, hissued⟩ := h lockName hname
        exact ⟨s, hs, hissued.add ht⟩
    | created k count lockName =>
        obtain ⟨s, hs, hown⟩ := h
        exact ⟨s, hs, hown.add ht⟩
    | listed k count lockName children =>
        obtain ⟨s, hs, hown, hlist⟩ := h
        exact ⟨s, hs, hown.add ht, hlist.relative, hlist.seen.add hown.lt ht v,
          fun hk => (hlist.unopposed hk).add hown.lt ht v⟩
    | held k lockName lockAcquired =>
        obtain ⟨s, hs, hown, hclear⟩ := h
        exact ⟨s, hs, hown.add ht, hclear.add hown.lt ht v⟩
    | releasing k lockName count =>
        obtain ⟨s, hs, hissued⟩ := h
        exact ⟨s, hs, hissued.add ht⟩
  remove c d p gone h hgone := by
    have hkept : ∀ {s k}, Owns ⟨c, k⟩ s d → Owns ⟨c, k⟩ s (d.remove gone) := by
      intro s k hown
      exact hown.remove fun hmem => hgone _ hown.present hmem rfl
    cases p with
    | idle k left =>
        intro lockName hname
        obtain ⟨s, hs, hissued⟩ := h lockName hname
        exact ⟨s, hs, hissued.remove⟩
    | trying k count left =>
        intro lockName hname
        obtain ⟨s, hs, hissued⟩ := h lockName hname
        exact ⟨s, hs, hissued.remove⟩
    | created k count lockName =>
        obtain ⟨s, hs, hown⟩ := h
        exact ⟨s, hs, hkept hown⟩
    | listed k count lockName children =>
        obtain ⟨s, hs, hown, hlist⟩ := h
        exact ⟨s, hs, hkept hown, hlist.relative, hlist.seen.remove gone,
          fun hk => (hlist.unopposed hk).remove gone⟩
    | held k lockName lockAcquired =>
        obtain ⟨s, hs, hown, hclear⟩ := h
        exact ⟨s, hs, hkept hown, hclear.remove gone⟩
    | releasing k lockName count =>
        obtain ⟨s, hs, hissued⟩ := h
        exact ⟨s, hs, hissued.remove⟩

/-- Two failures leave another attempt, three end the acquisition. -/
theorem ok_failed {c count : ℕ} {k : Kind} {left : Option Text} {d : Dir Node}
    (h : ∀ lockName ∈ left, ∃ s, lockName = nodeName (s, ⟨c, k⟩) ∧ Issued ⟨c, k⟩ s d) :
    (Phase.failed k count left).Ok c d := by
  unfold Phase.failed
  split
  · exact h
  · exact h

/-- After a failed attempt the context keeps the name of its node. -/
theorem ok_failed_of_owns {c count s : ℕ} {k : Kind} {d : Dir Node} (h : Owns ⟨c, k⟩ s d) :
    (Phase.failed k count (some (nodeName (s, ⟨c, k⟩)))).Ok c d := by
  apply ok_failed
  rintro _ ⟨⟩
  exact ⟨s, rfl, h.toIssued⟩

/-- The invariant of all runs. -/
def Consistent : System → Prop := Inv seqBound (fun _ => True) Phase.Ok

theorem Consistent.start : Consistent start :=
  Inv.start _ fun c => by simp [Phase.Ok]

/-! ## Steps -/

section Steps

variable {filePath : Text} {σ τ : System} {c s : ℕ} {k : Kind} {lockName : Text}
  {children : List Text} {r : Bool × ℤ} {d : Dir Node}

theorem slash_notMem_nodeName (e : ℕ × Node) : '/' ∉ nodeName e :=
  slash_notMem_lockNode e.2.kind.slash_notMem_word e.1

/-- A deletion by name takes the own node only. -/
theorem client_of_deleted (h : Issued ⟨c, k⟩ s d) {e : ℕ × Node} (he : e ∈ d.nodes)
    (hpath : (fullPath filePath (nodeName e) == fullPath filePath (nodeName (s, ⟨c, k⟩))) = true) :
    e.2.client = c := by
  have hname := lockPath_inj (beq_iff_eq.1 hpath)
  exact congrArg Node.client (eq_of_lockNode (fun v : Node => v.kind.word) h he hname)

/-- What a list of the directory tells. -/
theorem listed_of_perm (h : children.Perm (d.nodes.map nodeName))
    (hread : k = .read → Front (fun e => e.2.kind ≠ .write) s d) : Listed k s children d where
  relative name hname := by
    obtain ⟨e, -, rfl⟩ := List.mem_map.1 (h.mem_iff.1 hname)
    exact slash_notMem_nodeName e
  seen e he _ := h.mem_iff.2 (List.mem_map_of_mem he)
  unopposed := hread

/-- **A client that is let in has no conflicting node in front of it**, if a reader had no writer
there when it listed. -/
theorem Listed.clear_of_check {server : ℕ → Text → ℤ} (h : Listed k s children d)
    (hs : s < seqBound) (hcheck : check k server (nodeName (s, ⟨c, k⟩)) children = some r)
    (hr : r.2 = ZOK) : Front (fun e => ¬ Conflict ⟨c, k⟩ e.2) s d := by
  cases k with
  | read =>
      refine (h.unopposed rfl).imp ?_
      rintro e - - hne (hconf | hconf)
      · cases hconf
      · exact hne hconf
  | write =>
      intro e he hlt
      obtain rfl := Option.some.inj hcheck
      have hle := (writeEligibility_iff h.relative).1 hr _ (h.seen e he hlt)
      rw [nodeName, nodeName, toInt_getSequenceNumber _ hs,
        toInt_getSequenceNumber _ (hlt.trans hs)] at hle
      omega

/-- The client that makes the call. -/
def Act.actor : Act → ℕ
  | .acquire c _ | .parentFails c | .create c _ | .createLost c _ | .createFails c | .list c _
  | .listFails c | .decide c _ | .release c | .delete c _ _ | .leave c => c

/-- What a call makes of the directory and of the client's phase. -/
inductive Goes (filePath : Text) (σ : System) : Act → Dir Node → Phase → Prop
  | acquire {c : ℕ} {k k' : Kind} {left : Option Text} (h : σ.phase c = .idle k' left) :
      Goes filePath σ (.acquire c k) σ.dir (.trying k 0 none)
  | parentFails {c : ℕ} {k : Kind} {left : Option Text} (h : σ.phase c = .trying k 0 left) :
      Goes filePath σ (.parentFails c) σ.dir (.idle k left)
  | create {c s count : ℕ} {k : Kind} {left : Option Text} (h : σ.phase c = .trying k count left)
      (hs : σ.dir.next ≤ s) (hbound : s < seqBound) : Goes filePath σ (.create c s)
      (σ.dir.add s ⟨c, k⟩) (.created k count (nodeName (s, ⟨c, k⟩)))
  | createLost {c s count : ℕ} {k : Kind} {left : Option Text}
      (h : σ.phase c = .trying k count left) (hs : σ.dir.next ≤ s) (hbound : s < seqBound) :
      Goes filePath σ (.createLost c s) (σ.dir.add s ⟨c, k⟩) (.failed k count left)
  | createFails {c count : ℕ} {k : Kind} {left : Option Text}
      (h : σ.phase c = .trying k count left) :
      Goes filePath σ (.createFails c) σ.dir (.failed k count left)
  | list {c count : ℕ} {k : Kind} {lockName : Text} {children : List Text}
      (h : σ.phase c = .created k count lockName)
      (hperm : children.Perm (σ.dir.nodes.map nodeName)) :
      Goes filePath σ (.list c children) σ.dir (.listed k count lockName children)
  | listFails {c count : ℕ} {k : Kind} {lockName : Text}
      (h : σ.phase c = .created k count lockName) :
      Goes filePath σ (.listFails c) σ.dir (.failed k count (some lockName))
  | decide {c count : ℕ} {k : Kind} {lockName : Text} {children : List Text}
      {server : ℕ → Text → ℤ} {r : Bool × ℤ} (h : σ.phase c = .listed k count lockName children)
      (hr : check k server lockName children = some r) :
      Goes filePath σ (.decide c server) σ.dir
        (if r.2 = ZOK then .held k lockName r.1 else .failed k count (some lockName))
  | release {c : ℕ} {k : Kind} {lockName : Text} {lockAcquired : Bool}
      (h : σ.phase c = .held k lockName lockAcquired) :
      Goes filePath σ (.release c) σ.dir (.releasing k lockName 0)
  | releaseIdle {c : ℕ} {k : Kind} {lockName : Text} (h : σ.phase c = .idle k (some lockName)) :
      Goes filePath σ (.release c) σ.dir (.releasing k lockName 0)
  | delete {c count : ℕ} {made answered : Bool} {k : Kind} {lockName : Text}
      (h : σ.phase c = .releasing k lockName count) :
      Goes filePath σ (.delete c made answered)
        (if made then zooDelete filePath (fullPath filePath lockName) σ.dir else σ.dir)
        (if answered = false ∧ count + 1 < 3 then .releasing k lockName (count + 1)
          else .idle k (some lockName))
  | leave {c : ℕ} {k : Kind} {left : Option Text} (h : σ.phase c = .idle k left) :
      Goes filePath σ (.leave c) (σ.dir.remove fun e => e.2.client == c) (.idle k none)

theorem goes_of_step {a : Act} (hstep : step filePath a σ = some τ) :
    ∃ d p, τ = System.enter ⟨d, σ.phase⟩ a.actor p ∧ Goes filePath σ a d p := by
  cases a with
  | acquire c k =>
      simp only [MasterLock.step] at hstep
      split at hstep
      · rename_i hphase
        cases hstep
        exact ⟨_, _, rfl, .acquire hphase⟩
      · cases hstep
  | parentFails c =>
      simp only [MasterLock.step] at hstep
      split at hstep
      · rename_i hphase
        cases hstep
        exact ⟨_, _, rfl, .parentFails hphase⟩
      · cases hstep
  | create c s =>
      simp only [MasterLock.step] at hstep
      split at hstep
      · rename_i k count left hphase
        split at hstep
        · rename_i hs
          obtain ⟨lockName, hname, rfl⟩ := Option.map_eq_some_iff.1 hstep
          rw [fullPath, getLockName_lockPath (slash_notMem_lockNode k.slash_notMem_word s)] at hname
          cases hname
          exact ⟨_, _, rfl, .create hphase hs.1 hs.2⟩
        · cases hstep
      · cases hstep
  | createLost c s =>
      simp only [MasterLock.step] at hstep
      split at hstep
      · rename_i hphase
        split at hstep
        · rename_i hs
          cases hstep
          exact ⟨_, _, rfl, .createLost hphase hs.1 hs.2⟩
        · cases hstep
      · cases hstep
  | createFails c =>
      simp only [MasterLock.step] at hstep
      split at hstep
      · rename_i hphase
        cases hstep
        exact ⟨_, _, rfl, .createFails hphase⟩
      · cases hstep
  | list c children =>
      simp only [MasterLock.step] at hstep
      split at hstep
      · rename_i hphase
        split at hstep
        · rename_i hperm
          cases hstep
          exact ⟨_, _, rfl, .list hphase hperm⟩
        · cases hstep
      · cases hstep
  | listFails c =>
      simp only [MasterLock.step] at hstep
      split at hstep
      · rename_i hphase
        cases hstep
        exact ⟨_, _, rfl, .listFails hphase⟩
      · cases hstep
  | decide c server =>
      simp only [MasterLock.step] at hstep
      split at hstep
      · rename_i hphase
        obtain ⟨r, hr, rfl⟩ := Option.map_eq_some_iff.1 hstep
        exact ⟨_, _, rfl, .decide hphase hr⟩
      · cases hstep
  | release c =>
      simp only [MasterLock.step] at hstep
      split at hstep
      · rename_i hphase
        cases hstep
        exact ⟨_, _, rfl, .release hphase⟩
      · rename_i hphase
        cases hstep
        exact ⟨_, _, rfl, .releaseIdle hphase⟩
      · cases hstep
  | delete c made answered =>
      simp only [MasterLock.step] at hstep
      split at hstep
      · rename_i hphase
        cases hstep
        exact ⟨_, _, rfl, .delete hphase⟩
      · cases hstep
  | leave c =>
      simp only [MasterLock.step] at hstep
      split at hstep
      · rename_i hphase
        cases hstep
        exact ⟨_, _, rfl, .leave hphase⟩
      · cases hstep

/-- **A call keeps the invariant**: a new node is its maker's, a list holds all that stands in
front, whoever is let in is clear, and only the own node is deleted. -/
theorem Goes.consistent {a : Act} {p : Phase} (hgoes : Goes filePath σ a d p) (h : Consistent σ)
    (hguard : Unopposed a σ) : Consistent (System.enter ⟨d, σ.phase⟩ a.actor p) := by
  cases hgoes with
  | acquire hphase => exact Inv.enter h (by simp [Phase.Ok])
  | @parentFails c k left hphase =>
      have hok : Phase.Ok c σ.dir (.trying k 0 left) := Inv.of_phase h hphase
      exact Inv.enter h hok
  | create hphase hs hbound =>
      exact Inv.add stable h hs hbound trivial ⟨_, rfl, Owns.new h.numbered hs⟩
  | @createLost c s count k left hphase hs hbound =>
      -- a node whose answer is lost stays behind
      have hok : Phase.Ok c σ.dir (.trying k count left) := Inv.of_phase h hphase
      exact Inv.add stable h hs hbound trivial
        (ok_failed (stable.add c σ.dir (.trying k count left) s _ hok hs))
  | @createFails c count k left hphase =>
      have hok : Phase.Ok c σ.dir (.trying k count left) := Inv.of_phase h hphase
      exact Inv.enter h (ok_failed hok)
  | list hphase hperm =>
      obtain ⟨s, rfl, hown⟩ := Inv.of_phase h hphase
      refine Inv.enter h ⟨s, rfl, hown, listed_of_perm hperm ?_⟩
      rintro rfl
      have hs : s < seqBound := Nat.lt_of_lt_of_le hown.lt h.bound
      have hfront := hguard _ rfl _ (by rw [hphase]; rfl)
      rwa [nodeName, getSequenceNumber_lockNode _ hs] at hfront
  | listFails hphase =>
      obtain ⟨s, rfl, hown⟩ := Inv.of_phase h hphase
      exact Inv.enter h (ok_failed_of_owns hown)
  | decide hphase hcheck =>
      obtain ⟨s, rfl, hown, hlist⟩ := Inv.of_phase h hphase
      apply Inv.enter h
      split
      · rename_i hr
        have hs : s < seqBound := Nat.lt_of_lt_of_le hown.lt h.bound
        exact ⟨s, rfl, hown, hlist.clear_of_check hs hcheck hr⟩
      · exact ok_failed_of_owns hown
  | release hphase =>
      obtain ⟨s, rfl, hown, -⟩ := Inv.of_phase h hphase
      exact Inv.enter h ⟨s, rfl, hown.toIssued⟩
  | @releaseIdle c k lockName hphase =>
      have hok : Phase.Ok c σ.dir (.idle k (some lockName)) := Inv.of_phase h hphase
      exact Inv.enter h (hok lockName rfl)
  | @delete c count made answered k lockName hphase =>
      obtain ⟨s, rfl, hissued⟩ := Inv.of_phase h hphase
      have hnext : ∀ d, Issued ⟨c, k⟩ s d → Phase.Ok c d
          (if answered = false ∧ count + 1 < 3 then .releasing k (nodeName (s, ⟨c, k⟩)) (count + 1)
            else .idle k (some (nodeName (s, ⟨c, k⟩)))) := by
        intro d hd
        split
        · exact ⟨s, rfl, hd⟩
        · rintro _ ⟨⟩
          exact ⟨s, rfl, hd⟩
      split
      · exact Inv.remove stable h (fun e he hpath => client_of_deleted hissued he hpath)
          (hnext _ hissued.remove)
      · exact Inv.enter h (hnext _ hissued)
  | leave hphase =>
      exact Inv.remove stable h (fun e _ hgone => beq_iff_eq.1 hgone) (by simp [Phase.Ok])

/-- The step lemma. -/
theorem Consistent.step {a : Act} (h : Consistent σ) (hguard : Unopposed a σ)
    (hstep : step filePath a σ = some τ) : Consistent τ := by
  obtain ⟨d, p, rfl, hgoes⟩ := goes_of_step hstep
  exact hgoes.consistent h hguard

/-- Two holders are readers. -/
theorem Consistent.exclusive (h : Consistent σ) {c c' : ℕ} {k k' : Kind} (hne : c ≠ c')
    (hc : Holds σ c k) (hc' : Holds σ c' k') : ¬ Conflict ⟨c, k⟩ ⟨c', k'⟩ := by
  obtain ⟨name, acquired, hphase⟩ := hc
  obtain ⟨name', acquired', hphase'⟩ := hc'
  obtain ⟨s, -, hown, hclear⟩ := Inv.of_phase h hphase
  obtain ⟨t, -, hown', hclear'⟩ := Inv.of_phase h hphase'
  refine Front.exclusive (R := Conflict) (fun v w => Or.symm) ?_ hown.present hown'.present hclear
    hclear'
  exact hown.ne hown' fun heq => hne (congrArg Node.client heq)

end Steps

/-- **A writer holds the lock alone** in every run in which no reader lists the directory while a
writer's node stands in front of its own. -/
theorem writer_excludes {filePath : Text} {σ : System}
    (h : Reach (step filePath) Unopposed start σ) {c : ℕ} (hc : Holds σ c .write) :
    ∀ c' ≠ c, ∀ k, ¬ Holds σ c' k := by
  intro c' hne k hc'
  have hinv : Consistent σ :=
    h.invariant Consistent.start fun a s t hs hguard hstep => hs.step hguard hstep
  exact hinv.exclusive hne.symm hc hc' (Or.inl rfl)

/-- A client that finds the lock free. -/
def enters (c s : ℕ) (k : Kind) (children : List (ℕ × Node)) : List Act :=
  [.acquire c k, .create c s, .list c (children.map nodeName), .decide c fun _ _ => ZOK]

/-- A writer holds the lock, a reader comes behind it and is let in. -/
def readerJoins : List Act :=
  enters 0 0 .write [(0, ⟨0, .write⟩)] ++ enters 1 1 .read [(1, ⟨1, .read⟩), (0, ⟨0, .write⟩)]

/-- A reader holds and releases the lock, a writer comes after it, another writer fails. -/
def writerAlone : List Act :=
  enters 1 0 .read [(0, ⟨1, .read⟩)] ++ [.release 1, .delete 1 true true] ++
    enters 0 1 .write [(1, ⟨0, .write⟩)] ++ enters 2 2 .write [(1, ⟨0, .write⟩), (2, ⟨2, .write⟩)]

theorem writer_excludes_writerAlone : ∃ σ,
    runGuarded (step ['/', 'f']) Unopposed writerAlone start = some σ ∧
      Holds σ 0 .write ∧ ∀ c' ≠ 0, ∀ k, ¬ Holds σ c' k := by
  have hrun : (runGuarded (step ['/', 'f']) Unopposed writerAlone start).bind
      (fun σ => some (σ.phase 0)) =
        some (.held .write (nodeName (1, ⟨0, .write⟩)) true) := by decide +kernel
  obtain ⟨σ, hσ, hphase⟩ := Option.bind_eq_some_iff.1 hrun
  have hholds : Holds σ 0 .write := ⟨_, _, Option.some.inj hphase⟩
  exact ⟨σ, hσ, hholds, writer_excludes (reach_of_runGuarded hσ) hholds⟩

/-- A reader does not see the writer in front of it. -/
theorem reader_joins_writer : ∃ σ,
    runGuarded (step ['/', 'f']) (fun _ _ => True) readerJoins start = some σ ∧
      Reach (step ['/', 'f']) (fun _ _ => True) start σ ∧ Holds σ 0 .write ∧ Holds σ 1 .read := by
  have hrun : (runGuarded (step ['/', 'f']) (fun _ _ => True) readerJoins start).bind
      (fun σ => some (σ.phase 0, σ.phase 1)) =
        some (.held .write (nodeName (0, ⟨0, .write⟩)) true,
          .held .read (nodeName (1, ⟨1, .read⟩)) true) := by decide +kernel
  obtain ⟨σ, hσ, hphase⟩ := Option.bind_eq_some_iff.1 hrun
  obtain ⟨h0, h1⟩ := Prod.mk.inj (Option.some.inj hphase)
  exact ⟨σ, hσ, reach_of_runGuarded hσ, ⟨_, _, h0⟩, ⟨_, _, h1⟩⟩

end MasterLock

end Yacet
