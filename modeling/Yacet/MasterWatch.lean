import Yacet.MasterLock

/-!
# Watches on the master lock (`zkclient.c`)

A client that is not let in watches the node in front of it with `zoo_wexists`; `watcher` checks
again when that node has been deleted, and unlocks the client's mutex once it is let in.

* `WSystem`, `wstep` — the clients of `MasterLock` with their watches.
* `Right` — a client that is refused watches the node that blocks it, by its full path, and enters
  only after a later check in `watcher`.
* `Clear` — no writer's check finds a node in front of its own.
* `right_iff_clear` — **after clear steps the next step is right iff it is clear**: the names of the
  children are relative, and `zoo_wexists` refuses them.
-/

namespace Yacet

open CText Tickets Steps

namespace MasterLock

/-! ## Clients with watches -/

/-- The path that a check gives to `zoo_wexists` when the client is not let in. -/
def watchPath (k : Kind) (lockName : Text) (children : List Text) : Option Text :=
  match k with
  | .write => (writeScan (toInt (getSequenceNumber lockName)) children).nextSmallestLock
  | .read => do
    let t ← strrchr '-' lockName
    let currentSeq := strtolInt (t.drop 1)
    let a ← children.foldlM (readScan currentSeq) (.start currentSeq)
    a.nextSmallestLock

/-- The clients, the path each watches for its present call, whether a check of that call has
refused it, and whether one in `watcher` has let it in since. -/
structure WSystem where
  base : System
  watch : ℕ → Option Text
  refused : ℕ → Bool
  woken : ℕ → Bool

def wstart : WSystem := ⟨start, fun _ => none, fun _ => false, fun _ => false⟩

/-- A call of a client, or the event that the node it watches has been deleted. -/
inductive WAct
  | call (a : Act)
  | deleted (c : ℕ) (server : ℕ → Text → ℤ) (children : List Text)

/-- The watch after a check with answer `r`. -/
def watchAfter (k : Kind) (lockName : Text) (children : List Text) (r : Bool × ℤ) : Option Text :=
  if r.1 = false ∧ r.2 = ZOK then watchPath k lockName children else none

/-- What a call means for watches, once it has led to `σ`. -/
def WSystem.after (w : WSystem) (a : Act) (σ : System) : WSystem :=
  match a with
  | .acquire c _ =>
    ⟨σ, Function.update w.watch c none, Function.update w.refused c false,
      Function.update w.woken c false⟩
  | .decide c server =>
    match w.base.phase c with
    | .listed k _ lockName children =>
      match check k server lockName children with
      | some r =>
        ⟨σ, Function.update w.watch c (watchAfter k lockName children r),
          Function.update w.refused c (w.refused c || !r.1), w.woken⟩
      | none => { w with base := σ }
    | _ => { w with base := σ }
  | _ => { w with base := σ }

/-- One step of a client or of its watcher.  A client that waits is where `zk_acquire_lock` has
returned `ZOK`. -/
def wstep (filePath : Text) : WAct → WSystem → Option WSystem
  | .call a, w => (step filePath a w.base).map (w.after a)
  | .deleted c server children, w =>
    match w.watch c, w.base.phase c with
    | some path, .held k lockName _ =>
      if (∀ e ∈ w.base.dir.nodes, fullPath filePath (nodeName e) ≠ path) ∧
          children.Perm (w.base.dir.nodes.map nodeName) then
        (check k server lockName children).map fun r =>
          { w with
            watch := Function.update w.watch c (watchAfter k lockName children r)
            woken := Function.update w.woken c (w.woken c || r.1) }
      else none
    | _, _ => none

/-! ## What is right -/

/-- A node that keeps a client out: any for a writer, a writer's for a reader. -/
def Blocks (k : Kind) (e : ℕ × Node) : Prop := k = .write ∨ e.2.kind = .write

/-- Among the children, `e` is the last blocking node in front of number `s`. -/
structure Last (k : Kind) (s : ℕ) (children : List Text) (e : ℕ × Node) : Prop where
  mem : nodeName e ∈ children
  lt : e.1 < s
  blocks : Blocks k e
  max : ∀ f, nodeName f ∈ children → f.1 < s → Blocks k f → f.1 ≤ e.1

/-- The step `a` from `w` to `w'` treats refused clients as it should. -/
structure Right (filePath : Text) (a : WAct) (w w' : WSystem) : Prop where
  watched : ∀ c server, a = .call (.decide c server) → ∀ k count lockName children,
    w.base.phase c = .listed k count lockName children →
    ∀ r, check k server lockName children = some r → r.1 = false →
    ∃ e, Last k (getSequenceNumber lockName) children e ∧
      w'.watch c = some (fullPath filePath (nodeName e))
  entered : ∀ c k, Holds w'.base c k → w'.refused c = true → w'.woken c = true

def WAct.decider : WAct → Option ℕ
  | .call (.decide c _) => some c
  | _ => none

/-- The name and the list of a writer before its check. -/
def Phase.writerList : Phase → Option (Text × List Text)
  | .listed .write _ lockName children => some (lockName, children)
  | _ => none

/-- The check of a writer finds no node in front of its own. -/
def Clear (a : WAct) (w : WSystem) : Prop :=
  ∀ c ∈ a.decider, ∀ x ∈ (w.base.phase c).writerList,
    ∀ name ∈ x.2, getSequenceNumber x.1 ≤ getSequenceNumber name

instance (a : WAct) (w : WSystem) : Decidable (Clear a w) :=
  inferInstanceAs (Decidable (∀ c ∈ a.decider, ∀ x ∈ (w.base.phase c).writerList,
    ∀ name ∈ x.2, getSequenceNumber x.1 ≤ getSequenceNumber name))

/-! ## Names -/

/-- A name of a lock node. -/
def IsNode (name : Text) : Prop := ∃ e : ℕ × Node, e.1 < seqBound ∧ name = nodeName e

theorem IsNode.slash_notMem {name : Text} (h : IsNode name) : '/' ∉ name := by
  obtain ⟨e, -, rfl⟩ := h
  exact slash_notMem_nodeName e

theorem IsNode.toInt_eq {name : Text} (h : IsNode name) :
    toInt (getSequenceNumber name) = getSequenceNumber name := by
  obtain ⟨e, he, rfl⟩ := h
  rw [nodeName, toInt_getSequenceNumber _ he, getSequenceNumber_lockNode _ he]

/-- The names that a client has got are those of nodes. -/
def Phase.Named : Phase → Prop
  | .created _ _ lockName => IsNode lockName
  | .listed _ _ lockName children => IsNode lockName ∧ ∀ name ∈ children, IsNode name
  | _ => True

/-- All numbers are in range and all names are those of nodes. -/
structure Named (σ : System) : Prop where
  bound : ∀ e ∈ σ.dir.nodes, e.1 < seqBound
  phase : ∀ c, (σ.phase c).Named

theorem Named.start : Named start := ⟨by simp [MasterLock.start, Dir.empty], fun _ => trivial⟩

variable {filePath : Text} {σ τ : System} {c : ℕ} {a : Act} {p : Phase} {d : Dir Node}

theorem Named.enter (h : Named σ) (hd : ∀ e ∈ d.nodes, e.1 < seqBound) (hp : p.Named) :
    Named (System.enter ⟨d, σ.phase⟩ c p) := by
  refine ⟨hd, fun c' => ?_⟩
  show (Function.update σ.phase c p c').Named
  by_cases hc : c' = c
  · subst hc
    rw [Function.update_self]
    exact hp
  · rw [Function.update_of_ne hc]
    exact h.phase c'

theorem named_failed (k : Kind) (count : ℕ) (left : Option Text) :
    (Phase.failed k count left).Named := by
  unfold Phase.failed
  split <;> trivial

theorem Named.add (h : Named σ) {s : ℕ} (hs : s < seqBound) (v : Node) :
    ∀ e ∈ (σ.dir.add s v).nodes, e.1 < seqBound := by
  intro e he
  rcases Dir.mem_add.1 he with he | rfl
  · exact h.bound e he
  · exact hs

theorem Named.remove (h : Named σ) (gone : ℕ × Node → Bool) :
    ∀ e ∈ (σ.dir.remove gone).nodes, e.1 < seqBound :=
  fun e he => h.bound e (Dir.mem_remove.1 he).1

theorem Named.step (h : Named σ) (hstep : step filePath a σ = some τ) : Named τ := by
  obtain ⟨d, p, rfl, hgoes⟩ := goes_of_step hstep
  cases hgoes with
  | create hphase hs hbound => exact h.enter (h.add hbound _) ⟨_, hbound, rfl⟩
  | createLost hphase hs hbound => exact h.enter (h.add hbound _) (named_failed _ _ _)
  | createFails hphase => exact h.enter h.bound (named_failed _ _ _)
  | @list c count k lockName children hphase hperm =>
      refine h.enter h.bound ⟨?_, fun name hname => ?_⟩
      · have hnamed := h.phase c
        rw [hphase] at hnamed
        exact hnamed
      · obtain ⟨e, he, rfl⟩ := List.mem_map.1 (hperm.mem_iff.1 hname)
        exact ⟨e, h.bound e he, rfl⟩
  | listFails hphase => exact h.enter h.bound (named_failed _ _ _)
  | decide hphase hr =>
      refine h.enter h.bound ?_
      split
      · trivial
      · exact named_failed _ _ _
  | delete hphase =>
      refine h.enter ?_ ?_
      · split
        · exact h.remove _
        · exact h.bound
      · split <;> trivial
  | leave hphase => exact h.enter (h.remove _) trivial
  | _ => exact h.enter h.bound trivial

/-! ## The checks -/

section Checks

variable {server : ℕ → Text → ℤ} {lockName : Text} {children : List Text} {r : Bool × ℤ} {k : Kind}

/-- A reader is let in, a writer iff no child has a smaller number. -/
theorem check_fst_iff (hname : IsNode lockName) (hchildren : ∀ name ∈ children, IsNode name)
    (hcheck : check k server lockName children = some r) : r.1 = true ↔
      (k = .write → ∀ name ∈ children, getSequenceNumber lockName ≤ getSequenceNumber name) := by
  cases k with
  | read =>
      obtain ⟨e, -, rfl⟩ := hname
      rw [check, nodeName, readEligibility_of_relative fun n hn => (hchildren n hn).slash_notMem]
        at hcheck
      cases hcheck
      constructor
      · intro _ hk
        cases hk
      · intro _
        rfl
  | write =>
      obtain rfl := Option.some.inj hcheck
      have hnum : (∀ name ∈ children,
          toInt (getSequenceNumber lockName) ≤ toInt (getSequenceNumber name)) ↔
          ∀ name ∈ children, getSequenceNumber lockName ≤ getSequenceNumber name := by
        refine forall₂_congr fun name hn => ?_
        rw [hname.toInt_eq, (hchildren name hn).toInt_eq, Nat.cast_le]
      rw [← hnum, ← writeScan_minSeq, forall_prop_of_true rfl]
      simp only [writeEligibility, eligibility]
      split
      · rename_i heq
        exact ⟨fun _ => heq, fun _ => rfl⟩
      · rename_i hne
        exact ⟨fun h => absurd h Bool.false_ne_true, fun h => absurd h hne⟩

/-- **A refused client sets no watch**: the path it gives is the relative name of a child. -/
theorem watchAfter_of_refused (hname : IsNode lockName) (hchildren : ∀ name ∈ children, IsNode name)
    (hcheck : check k server lockName children = some r) :
    watchAfter k lockName children r = none := by
  refine if_neg ?_
  rintro ⟨hrefused, hret⟩
  cases k with
  | read =>
      have hin := (check_fst_iff hname hchildren hcheck).2 fun hk => by cases hk
      rw [hrefused] at hin
      cases hin
  | write =>
      have hin := (check_fst_iff hname hchildren hcheck).2 fun _ name hn => ?_
      · rw [hrefused] at hin
        cases hin
      · obtain rfl := Option.some.inj hcheck
        have hle := (writeEligibility_iff fun n hn => (hchildren n hn).slash_notMem).1 hret name hn
        rwa [hname.toInt_eq, (hchildren name hn).toInt_eq, Nat.cast_le] at hle

end Checks

/-! ## Runs -/

/-- The state of a clear run: nobody has been refused, so nobody watches. -/
structure Calm (w : WSystem) : Prop where
  named : Named w.base
  watch : ∀ c, w.watch c = none
  refused : ∀ c, w.refused c = false

theorem Calm.wstart : Calm wstart := ⟨Named.start, fun _ => rfl, fun _ => rfl⟩

variable {w w' : WSystem} {b : WAct}

theorem update_const {α : Type*} {f : ℕ → α} {v : α} (h : ∀ c, f c = v) {u : α} (hu : u = v)
    (c c' : ℕ) : Function.update f c u c' = v := by
  by_cases hc : c' = c
  · rw [hc, Function.update_self, hu]
  · rw [Function.update_of_ne hc, h]

/-- What a `decide` has looked at. -/
theorem decide_listed {server : ℕ → Text → ℤ}
    (hstep : wstep filePath (.call (.decide c server)) w = some w') :
    ∃ k count lockName children r, w.base.phase c = .listed k count lockName children ∧
      check k server lockName children = some r ∧
      w'.watch = Function.update w.watch c (watchAfter k lockName children r) ∧
      w'.refused = Function.update w.refused c (w.refused c || !r.1) := by
  obtain ⟨σ, hσ, rfl⟩ := Option.map_eq_some_iff.1 hstep
  obtain ⟨d, p, rfl, hgoes⟩ := goes_of_step hσ
  cases hgoes with
  | @decide c count k lockName children server r hphase hr =>
      refine ⟨k, count, lockName, children, r, hphase, hr, ?_, ?_⟩
      · simp only [WSystem.after, hphase, hr]
      · simp only [WSystem.after, hphase, hr]

theorem Calm.listed (h : Calm w) {k : Kind} {count : ℕ} {lockName : Text} {children : List Text}
    (hphase : w.base.phase c = .listed k count lockName children) :
    IsNode lockName ∧ ∀ name ∈ children, IsNode name := by
  have hnamed := h.named.phase c
  rw [hphase] at hnamed
  exact hnamed

theorem WSystem.after_base (w : WSystem) (a : Act) (σ : System) : (w.after a σ).base = σ := by
  unfold WSystem.after
  split
  · rfl
  · split
    · split <;> rfl
    · rfl
  · rfl

theorem exists_of_decider (h : c ∈ b.decider) : ∃ server, b = .call (.decide c server) := by
  cases b with
  | deleted => cases h
  | call a =>
      cases a with
      | decide c' server =>
          cases h
          exact ⟨server, rfl⟩
      | _ => cases h

theorem writerList_of_phase {k : Kind} {count : ℕ} {lockName : Text} {children : List Text}
    (hphase : w.base.phase c = .listed k count lockName children) {x : Text × List Text}
    (hx : x ∈ (w.base.phase c).writerList) : k = .write ∧ x = (lockName, children) := by
  rw [hphase] at hx
  cases k with
  | read => cases hx
  | write => exact ⟨rfl, (Option.some.inj hx).symm⟩

/-- A clear check lets the client in. -/
theorem Clear.check_fst {server : ℕ → Text → ℤ} {k : Kind} {count : ℕ} {lockName : Text}
    {children : List Text} {r : Bool × ℤ} (h : Clear (.call (.decide c server)) w)
    (hphase : w.base.phase c = .listed k count lockName children) (hname : IsNode lockName)
    (hchildren : ∀ name ∈ children, IsNode name)
    (hr : check k server lockName children = some r) : r.1 = true := by
  refine (check_fst_iff hname hchildren hr).2 fun hk => ?_
  subst hk
  exact h c rfl (lockName, children) (by rw [hphase]; rfl)

/-- **The step lemma.** -/
theorem Calm.step (h : Calm w) (hclear : Clear b w) (hstep : wstep filePath b w = some w') :
    Calm w' := by
  cases b with
  | deleted c server children =>
      simp only [wstep, h.watch c] at hstep
      cases hstep
  | call a =>
      obtain ⟨σ, hσ, rfl⟩ := Option.map_eq_some_iff.1 hstep
      have hnamed : Named (w.after a σ).base := by
        rw [WSystem.after_base]
        exact h.named.step hσ
      cases a with
      | acquire c k =>
          exact ⟨hnamed, update_const h.watch rfl c, update_const h.refused rfl c⟩
      | decide c server =>
          obtain ⟨k, count, lockName, children, r, hphase, hr, hwatch, hrefused⟩ :=
            decide_listed hstep
          obtain ⟨hname, hchildren⟩ := h.listed hphase
          have hin := hclear.check_fst hphase hname hchildren hr
          refine ⟨hnamed, ?_, ?_⟩
          · rw [hwatch]
            exact update_const h.watch (watchAfter_of_refused hname hchildren hr) c
          · rw [hrefused, h.refused c, hin]
            exact update_const h.refused rfl c
      | _ => exact ⟨hnamed, h.watch, h.refused⟩

/-- **After clear steps the next step is right iff it is clear.** -/
theorem right_iff_clear {filePath : Text} {w w' : WSystem} {b : WAct}
    (h : Reach (wstep filePath) Clear wstart w) (hstep : wstep filePath b w = some w') :
    Right filePath b w w' ↔ Clear b w := by
  have hcalm : Calm w :=
    h.invariant Calm.wstart fun a s t hs hclear hstep => hs.step hclear hstep
  constructor
  · intro hright c hc x hx
    obtain ⟨server, rfl⟩ := exists_of_decider hc
    obtain ⟨k, count, lockName, children, r, hphase, hr, hwatch, -⟩ := decide_listed hstep
    obtain ⟨rfl, rfl⟩ := writerList_of_phase hphase hx
    obtain ⟨hname, hchildren⟩ := hcalm.listed hphase
    by_contra hblocked
    have hrefused : r.1 = false := by
      rw [← Bool.not_eq_true, check_fst_iff hname hchildren hr]
      exact fun hin => hblocked (hin rfl)
    obtain ⟨e, -, hset⟩ := hright.watched c server rfl _ _ _ _ hphase r hr hrefused
    rw [hwatch, Function.update_self, watchAfter_of_refused hname hchildren hr] at hset
    cases hset
  · intro hclear
    refine ⟨?_, fun c k _ hrefused => ?_⟩
    · rintro c server rfl k count lockName children hphase r hr hrefused
      obtain ⟨hname, hchildren⟩ := hcalm.listed hphase
      have hin := hclear.check_fst hphase hname hchildren hr
      rw [hrefused] at hin
      cases hin
    · rw [(hcalm.step hclear hstep).refused c] at hrefused
      cases hrefused

/-- A writer comes behind another one that holds the lock. -/
def writerBehind : List Act :=
  enters 0 0 .write [(0, ⟨0, .write⟩)] ++ [.acquire 1 .write, .create 1 1,
    .list 1 [nodeName (0, ⟨0, .write⟩), nodeName (1, ⟨1, .write⟩)]]

/-- All steps are clear until it checks; that one is not, and goes wrong. -/
theorem right_iff_clear_behind : ∃ w w',
    runGuarded (wstep ['/', 'f']) Clear (writerBehind.map .call) wstart = some w ∧
      wstep ['/', 'f'] (.call (.decide 1 fun _ _ => ZOK)) w = some w' ∧
      ¬ Right ['/', 'f'] (.call (.decide 1 fun _ _ => ZOK)) w w' := by
  have hrun : ((runGuarded (wstep ['/', 'f']) Clear (writerBehind.map .call) wstart).bind fun w =>
      (wstep ['/', 'f'] (.call (.decide 1 fun _ _ => ZOK)) w).map fun _ =>
        decide (Clear (.call (.decide 1 fun _ _ => ZOK)) w)) = some false := by decide +kernel
  obtain ⟨w, hw, hrest⟩ := Option.bind_eq_some_iff.1 hrun
  obtain ⟨w', hw', hclear⟩ := Option.map_eq_some_iff.1 hrest
  refine ⟨w, w', hw, hw', fun hright => of_decide_eq_false hclear ?_⟩
  exact (right_iff_clear (reach_of_runGuarded hw) hw').1 hright

/-- It is refused, and watches nothing. -/
theorem refused_watches_nothing : ∃ w w',
    Reach (wstep ['/', 'f']) (fun _ _ => True) wstart w ∧
      wstep ['/', 'f'] (.call (.decide 1 fun _ _ => ZOK)) w = some w' ∧
      w'.refused 1 = true ∧ w'.watch 1 = none ∧
      ¬ Right ['/', 'f'] (.call (.decide 1 fun _ _ => ZOK)) w w' := by
  have hrun : ((runGuarded (wstep ['/', 'f']) (fun _ _ => True) (writerBehind.map .call)
      wstart).bind fun w => (wstep ['/', 'f'] (.call (.decide 1 fun _ _ => ZOK)) w).map fun w' =>
        (w.base.phase 1, w'.refused 1, w'.watch 1)) =
        some (.listed .write 0 (nodeName (1, ⟨1, .write⟩))
          [nodeName (0, ⟨0, .write⟩), nodeName (1, ⟨1, .write⟩)], true, none) := by decide +kernel
  obtain ⟨w, hw, hrest⟩ := Option.bind_eq_some_iff.1 hrun
  obtain ⟨w', hw', heq⟩ := Option.map_eq_some_iff.1 hrest
  obtain ⟨hphase, hrefused, hwatch⟩ := by simpa only [Prod.mk.injEq] using heq
  refine ⟨w, w', reach_of_runGuarded hw, hw', hrefused, hwatch, fun hright => ?_⟩
  have hcheck : ∃ r, check .write (fun _ _ => ZOK) (nodeName (1, ⟨1, .write⟩))
      [nodeName (0, ⟨0, .write⟩), nodeName (1, ⟨1, .write⟩)] = some r ∧ r.1 = false :=
    ⟨_, rfl, by decide +kernel⟩
  obtain ⟨r, hr, hfalse⟩ := hcheck
  obtain ⟨e, -, hset⟩ := hright.watched 1 _ rfl _ _ _ _ hphase r hr hfalse
  rw [hwatch] at hset
  cases hset

end MasterLock

end Yacet
