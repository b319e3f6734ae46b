import Yacet.Lib.Steps
import Mathlib.Algebra.BigOperators.Group.Finset.Piecewise
import Mathlib.Algebra.Order.BigOperators.Group.Finset
import Mathlib.Data.Finset.Range

/-!
# The file threads (`prepare_file_threads`, `thd_open_files`)

The main thread and one thread per file talk over two bounded stacks: go-aheads without an addressee
go down `global_qp`, pointers to the threads' records come back on `global_qc`, and the state of a
thread is read through its pointer when the main thread gets to it.

* `System`, `step` — the threads and the two stacks; a step that blocks is not enabled.
* `Orderly` — a thread takes its first go-ahead of the round; the main thread meets a thread that is
  through only as the last one it waits for.
* `orderly_rounds` — in every run of orderly steps each round gives every live thread one go-ahead
  and takes one result of each, and the loop ends only when no thread needs a retry.
-/

namespace Yacet

open Steps

namespace Threads

/-! ## `pcq.h` -/

/-- `pcq_enqueue`; `none` is a full queue, on which the caller waits. -/
def pcqEnqueue {α : Type*} (sz : ℕ) (q : List α) (elm : α) : Option (List α) :=
  if q.length = sz then none else some (elm :: q)

/-- `pcq_dequeue`: the element enqueued last; `none` is an empty queue, on which the caller
waits. -/
def pcqDequeue {α : Type*} : List α → Option (α × List α)
  | [] => none
  | elm :: q => some (elm, q)

/-! ## The state -/

/-- `THD_STATE_*`. -/
inductive ThdState
  | ok
  | failed
  | terminated
  | retry
  deriving DecidableEq, Repr

/-- Where a thread is in `thd_open_files`. -/
inductive Pc
  | absent
  /-- `sql_init`, `pull_swap_file` -/
  | setup
  /-- at a `pcq_enqueue(&global_qc, oft)`; `again`: it goes on afterwards -/
  | report (again : Bool)
  /-- at `pcq_dequeue(&global_qp)` -/
  | wait
  /-- at `push_swap_file`, with a go-ahead -/
  | push
  /-- single mode: at the editor and `push_swap_file` -/
  | solo
  /-- behind the label `fail` -/
  | exiting
  | exited
  deriving DecidableEq, Repr

/-- `struct open_files_thread` and the thread itself; `none` is a `thd_state` not yet written. -/
structure Thd where
  state : Option ThdState
  pc : Pc
  deriving DecidableEq, Repr

/-- The outcomes of `push_swap_file`: 0, -2 and -1. -/
inductive PushRet
  | ok
  | retry
  | failed
  deriving DecidableEq, Repr

/-- Where the main thread is in `prepare_file_threads`. -/
inductive Main
  /-- in the loop of `open_files` -/
  | create (i : ℕ)
  | count (i numThds : ℕ)
  /-- in front of `exec_editor` -/
  | edit (numThds : ℕ)
  | send (succ : Bool) (i numThds : ℕ)
  | recv (succ : Bool) (i numThds : ℕ)
  /-- at `pthread_join(retval->thd, NULL)`, on its way to `next` -/
  | reap (t : ℕ) (next : Main)
  | join (i : ℕ)
  | returned (ret : ℤ)
  deriving DecidableEq, Repr

/-- The threads, the two queues (last element first) and the main thread; then the record of the
current round: its live threads, how many go-aheads each thread has taken, how many results of each
the main thread has dequeued, and whether the editor has failed. -/
structure System where
  thds : ℕ → Thd
  qp : List Bool
  qc : List ℕ
  main : Main
  live : Finset ℕ
  go : ℕ → ℕ
  res : ℕ → ℕ
  aborted : Bool

/-! ## The loops of the main thread -/

def afterJoin (n i : ℕ) : Main := if i < n then .join i else .returned 0

def afterRecv (n : ℕ) (succ : Bool) (i numThds : ℕ) : Main :=
  if i < numThds then .recv succ i numThds else if succ then .edit numThds else afterJoin n 0

def afterSend (n : ℕ) (succ : Bool) (i numThds : ℕ) : Main :=
  if i < numThds then .send succ i numThds
  else if succ then afterRecv n false 0 numThds else afterJoin n 0

def afterCount (mult : Bool) (n i numThds : ℕ) : Main :=
  if i < n then .count i numThds
  else if 0 < numThds then if mult then .edit numThds else afterJoin n 0
  else .returned (-1)

def afterCreate (mult : Bool) (n i : ℕ) : Main :=
  if i < n then .create i else afterCount mult n 0 0

/-- The queues are initialised and the array is allocated. -/
def System.start (mult : Bool) (n : ℕ) : System :=
  ⟨fun _ => ⟨none, .absent⟩, [], [], afterCreate mult n 0, ∅, fun _ => 0, fun _ => 0, false⟩

/-! ## The steps -/

inductive Act
  | create (ok : Bool)
  | setup (t : ℕ) (ok : Bool)
  | report (t : ℕ)
  | take (t : ℕ)
  | push (t : ℕ) (ret : PushRet)
  | exit (t : ℕ)
  | count
  | edit (ok : Bool)
  | send
  | recv
  | reap
  | join

def System.setThd (σ : System) (t : ℕ) (th : Thd) : System :=
  { σ with thds := Function.update σ.thds t th }

/-- `pthread_create` in `open_files`. -/
def create (mult : Bool) (n : ℕ) (ok : Bool) (σ : System) : Option System :=
  match σ.main with
  | .create i =>
    if ok then some { σ.setThd i ⟨none, .setup⟩ with main := afterCreate mult n (i + 1) }
    else (pcqEnqueue n σ.qc i).map fun qc =>
      { σ.setThd i ⟨some .failed, .absent⟩ with qc := qc, main := afterCreate mult n (i + 1) }
  | _ => none

/-- `sql_init` and `pull_swap_file`. -/
def setup (mult : Bool) (t : ℕ) (ok : Bool) (σ : System) : Option System :=
  match (σ.thds t).pc with
  | .setup =>
    some (σ.setThd t (if ok then ⟨some (if mult then .retry else .ok), .report true⟩
      else ⟨some .terminated, .report false⟩))
  | _ => none

/-- `pcq_enqueue(&global_qc, oft)`. -/
def report (mult : Bool) (n t : ℕ) (σ : System) : Option System :=
  match (σ.thds t).pc with
  | .report again =>
    (pcqEnqueue n σ.qc t).map fun qc =>
      { σ.setThd t ⟨(σ.thds t).state,
          if again then if mult then .wait else .solo else .exiting⟩ with qc := qc }
  | _ => none

/-- `pcq_dequeue(&global_qp)`. -/
def take (t : ℕ) (σ : System) : Option System :=
  match (σ.thds t).pc with
  | .wait =>
    (pcqDequeue σ.qp).map fun (succ, qp) =>
      if succ then
        { σ.setThd t ⟨(σ.thds t).state, .push⟩ with
          qp := qp, go := Function.update σ.go t (σ.go t + 1) }
      else { σ.setThd t ⟨(σ.thds t).state, .exiting⟩ with qp := qp }
  | _ => none

/-- `push_swap_file`; in single mode a failing editor counts as a failed push. -/
def push (t : ℕ) (ret : PushRet) (σ : System) : Option System :=
  match (σ.thds t).pc, ret with
  | .push, .ok => some (σ.setThd t ⟨some .ok, .report false⟩)
  | .push, .retry => some (σ.setThd t ⟨(σ.thds t).state, .report true⟩)
  | .push, .failed => some (σ.setThd t ⟨some .terminated, .report false⟩)
  | .solo, .retry => some σ
  | .solo, _ => some (σ.setThd t ⟨(σ.thds t).state, .exiting⟩)
  | _, _ => none

/-- `sql_deinit`, `zk_unlock_intervals(oft->rf)` and the return. -/
def exit (t : ℕ) (σ : System) : Option System :=
  match (σ.thds t).pc with
  | .exiting => some (σ.setThd t ⟨(σ.thds t).state, .exited⟩)
  | _ => none

/-- A result of the set-up. -/
def count (mult : Bool) (n : ℕ) (σ : System) : Option System :=
  match σ.main with
  | .count i numThds =>
    (pcqDequeue σ.qc).map fun (t, qc) =>
      let main := match (σ.thds t).state with
        | some .terminated => .reap t (afterCount mult n (i + 1) numThds)
        | some .failed => afterCount mult n (i + 1) numThds
        | _ => afterCount mult n (i + 1) (numThds + 1)
      { σ with qc := qc, main := main, res := Function.update σ.res t (σ.res t + 1) }
  | _ => none

/-- The threads that need a retry. -/
def retrying (n : ℕ) (σ : System) : Finset ℕ :=
  (Finset.range n).filter fun t => (σ.thds t).state = some .retry

/-- `exec_editor`: a round begins. -/
def edit (n : ℕ) (ok : Bool) (σ : System) : Option System :=
  match σ.main with
  | .edit numThds =>
    some { σ with
      main := afterSend n ok 0 numThds
      live := retrying n σ
      go := fun _ => 0
      res := fun _ => 0
      aborted := !ok }
  | _ => none

/-- `pcq_enqueue(&global_qp, succ)`. -/
def send (n : ℕ) (σ : System) : Option System :=
  match σ.main with
  | .send succ i numThds =>
    (pcqEnqueue n σ.qp succ).map fun qp =>
      { σ with qp := qp, main := afterSend n succ (i + 1) numThds }
  | _ => none

/-- A result of the round; `num_thds` is decremented in the loop that it bounds. -/
def recv (n : ℕ) (σ : System) : Option System :=
  match σ.main with
  | .recv succ i numThds =>
    (pcqDequeue σ.qc).map fun (t, qc) =>
      let main := match (σ.thds t).state with
        | some .retry => afterRecv n true (i + 1) numThds
        | some .terminated => .reap t (afterRecv n succ (i + 1) (numThds - 1))
        | _ => afterRecv n succ (i + 1) (numThds - 1)
      { σ with qc := qc, main := main, res := Function.update σ.res t (σ.res t + 1) }
  | _ => none

/-- `pthread_join` of a terminated thread. -/
def reap (σ : System) : Option System :=
  match σ.main with
  | .reap t next => if (σ.thds t).pc = .exited then some { σ with main := next } else none
  | _ => none

/-- The final loop: only threads whose state is `THD_STATE_OK` are joined. -/
def join (n : ℕ) (σ : System) : Option System :=
  match σ.main with
  | .join i =>
    if (σ.thds i).state = some .ok → (σ.thds i).pc = .exited then
      some { σ with main := afterJoin n (i + 1) }
    else none
  | _ => none

/-- One step, of the main thread or of thread `t`, with `n` files. -/
def step (mult : Bool) (n : ℕ) : Act → System → Option System
  | .create ok => create mult n ok
  | .setup t ok => setup mult t ok
  | .report t => report mult n t
  | .take t => take t
  | .push t ret => push t ret
  | .exit t => exit t
  | .count => count mult n
  | .edit ok => edit n ok
  | .send => send n
  | .recv => recv n
  | .reap => reap
  | .join => join n

/-! ## Rounds -/

/-- The main thread behind a `pthread_join` of its loops. -/
def Main.resume : Main → Main
  | .reap _ next => next.resume
  | main => main

/-- A thread takes a go-ahead only as its first of the round; the main thread dequeues a thread that
is through only as the last one it waits for. -/
def Orderly : Act → System → Prop
  | .take t, σ => σ.go t = 0
  | .recv, σ =>
    match σ.main, σ.qc with
    | .recv _ i numThds, t :: _ => (σ.thds t).state = some .retry ∨ i + 1 = numThds
    | _, _ => True
  | _, _ => True

instance (a : Act) (σ : System) : Decidable (Orderly a σ) := by
  unfold Orderly
  split
  · infer_instance
  · split <;> infer_instance
  · infer_instance

/-- The main thread has left the loop over the results of a round. -/
def Main.RoundOver (main : Main) : Prop :=
  match main.resume with
  | .recv _ _ _ => False
  | _ => True

/-- The main thread has left the loop over the rounds. -/
def Main.LoopOver (main : Main) : Prop :=
  match main.resume with
  | .join _ => True
  | .returned _ => True
  | _ => False

/-- One go-ahead for and one result of each live thread, and no go-ahead left over. -/
def RoundDone (n : ℕ) (σ : System) : Prop :=
  σ.qp = [] ∧ ∀ t < n, σ.go t = (if t ∈ σ.live then 1 else 0) ∧
    σ.res t = if t ∈ σ.live then 1 else 0

/-! ## What a thread can be doing -/

def Waiting (th : Thd) : Prop := th = ⟨some .retry, .wait⟩

/-- The thread is through, or was never created. -/
def Over (th : Thd) : Prop :=
  (∃ s, th.state = some s ∧ s ≠ .retry) ∧ (th.pc = .absent ∨ th.pc = .exiting ∨ th.pc = .exited)

/-- The thread has yet to report. -/
def Busy (th : Thd) : Prop :=
  th.pc = .setup ∨ th = ⟨some .retry, .push⟩ ∨ th = ⟨some .retry, .report true⟩ ∨
    ∃ s, s ≠ .retry ∧ th = ⟨some s, .report false⟩

def Fresh (th : Thd) : Prop := th = ⟨none, .absent⟩

/-- The thread has not pushed yet. -/
def Early (th : Thd) : Prop := th.pc ≠ .push ∧ th.pc ≠ .solo ∧ th.state ≠ some .ok

/-- A step of a thread that leaves the queues alone. -/
inductive Moves : Thd → Thd → Prop
  | setup {s th} (h : th = ⟨some .retry, .report true⟩ ∨ th = ⟨some .terminated, .report false⟩) :
    Moves ⟨s, .setup⟩ th
  | push {s th} (h : th = ⟨some .ok, .report false⟩ ∨ th = ⟨s, .report true⟩ ∨
      th = ⟨some .terminated, .report false⟩) : Moves ⟨s, .push⟩ th
  | solo {s th} : Moves ⟨s, .solo⟩ th
  | exit {s} : Moves ⟨s, .exiting⟩ ⟨s, .exited⟩

variable {n t i c num sent : ℕ} {σ σ' : System} {a : Act} {th th' : Thd}

theorem Moves.busy (h : Moves th th') : Busy th → Busy th' := by
  intro hb
  cases h with
  | setup h =>
      rcases h with rfl | rfl
      · exact Or.inr (Or.inr (Or.inl rfl))
      · exact Or.inr (Or.inr (Or.inr ⟨_, by decide, rfl⟩))
  | push h =>
      have hs : ∀ {s : Option ThdState}, Busy ⟨s, .push⟩ → s = some .retry := by
        rintro s (h | h | h | ⟨_, _, h⟩) <;> cases h
        rfl
      cases hs hb
      rcases h with rfl | rfl | rfl
      · exact Or.inr (Or.inr (Or.inr ⟨_, by decide, rfl⟩))
      · exact Or.inr (Or.inr (Or.inl rfl))
      · exact Or.inr (Or.inr (Or.inr ⟨_, by decide, rfl⟩))
  | solo => rcases hb with h | h | h | ⟨_, _, h⟩ <;> cases h
  | exit => rcases hb with h | h | h | ⟨_, _, h⟩ <;> cases h

theorem Moves.over (h : Moves th th') : Over th → Over th' := by
  rintro ⟨hs, hpc⟩
  cases h with
  | exit => exact ⟨hs, Or.inr (Or.inr rfl)⟩
  | setup => rcases hpc with h | h | h <;> cases h
  | push => rcases hpc with h | h | h <;> cases h
  | solo => rcases hpc with h | h | h <;> cases h

theorem Moves.not_waiting (h : Moves th th') : ¬ Waiting th := by
  intro hw
  cases hw
  cases h

theorem Moves.not_fresh (h : Moves th th') : ¬ Fresh th := by
  intro hw
  cases hw
  cases h

theorem Moves.early (h : Moves th th') : Early th → Early th' := by
  rintro ⟨hpush, hsolo, hstate⟩
  cases h with
  | setup h => rcases h with rfl | rfl <;> exact ⟨nofun, nofun, nofun⟩
  | push => exact absurd rfl hpush
  | solo => exact absurd rfl hsolo
  | exit => exact ⟨nofun, nofun, hstate⟩

/-- A thread that has just reported waits for the next round or is through. -/
theorem Busy.reported (h : Busy th) {again : Bool} (hpc : th.pc = .report again) :
    Waiting ⟨th.state, if again then .wait else .exiting⟩ ∨
      Over ⟨th.state, if again then .wait else .exiting⟩ := by
  rcases h with h | rfl | rfl | ⟨s, hs, rfl⟩
  · rw [h] at hpc
    cases hpc
  · cases hpc
  · cases hpc
    exact Or.inl rfl
  · cases hpc
    exact Or.inr ⟨⟨s, rfl, hs⟩, Or.inr (Or.inl rfl)⟩

theorem Waiting.pc (h : Waiting th) : th.pc = .wait := congrArg Thd.pc h

theorem Waiting.state (h : Waiting th) : th.state = some .retry := congrArg Thd.state h

theorem Over.state (h : Over th) : th.state ≠ some .retry := by
  obtain ⟨⟨s, hs, hne⟩, _⟩ := h
  rw [hs]
  intro he
  exact hne (Option.some.inj he)

/-- What the steps of the threads do. -/
theorem thread_cases (h : step true n a σ = some σ') :
    (∃ t th, Moves (σ.thds t) th ∧ σ' = σ.setThd t th) ∨
    (∃ t again, a = .report t ∧ (σ.thds t).pc = .report again ∧
      σ' = { σ.setThd t ⟨(σ.thds t).state, if again then .wait else .exiting⟩ with
        qc := t :: σ.qc }) ∨
    (∃ t succ qp, a = .take t ∧ (σ.thds t).pc = .wait ∧ σ.qp = succ :: qp ∧
      σ' = if succ then { σ.setThd t ⟨(σ.thds t).state, .push⟩ with
          qp := qp, go := Function.update σ.go t (σ.go t + 1) }
        else { σ.setThd t ⟨(σ.thds t).state, .exiting⟩ with qp := qp }) ∨
    (a = .count ∨ a = .send ∨ a = .recv ∨ a = .reap ∨ a = .join ∨ (∃ ok, a = .create ok) ∨
      ∃ ok, a = .edit ok) := by
  have hmove : ∀ {t : ℕ} {pc : Pc}, (σ.thds t).pc = pc → σ.thds t = ⟨(σ.thds t).state, pc⟩ := by
    rintro t pc rfl
    rfl
  cases a with
  | setup t ok =>
      simp only [step, setup] at h
      split at h
      · rename_i hpc
        cases h
        refine Or.inl ⟨t, _, ?_, rfl⟩
        rw [hmove hpc]
        apply Moves.setup
        cases ok
        · exact Or.inr rfl
        · exact Or.inl rfl
      · cases h
  | push t ret =>
      simp only [step, push] at h
      split at h
      · rename_i hpc
        cases h
        refine Or.inl ⟨t, _, ?_, rfl⟩
        rw [hmove hpc]
        exact Moves.push (Or.inl rfl)
      · rename_i hpc
        cases h
        refine Or.inl ⟨t, _, ?_, rfl⟩
        rw [hmove hpc]
        exact Moves.push (Or.inr (Or.inl rfl))
      · rename_i hpc
        cases h
        refine Or.inl ⟨t, _, ?_, rfl⟩
        rw [hmove hpc]
        exact Moves.push (Or.inr (Or.inr rfl))
      · rename_i hpc
        cases h
        refine Or.inl ⟨t, σ.thds t, ?_, ?_⟩
        · rw [hmove hpc]
          exact Moves.solo
        · rw [System.setThd, Function.update_eq_self]
      · rename_i hpc _
        cases h
        refine Or.inl ⟨t, _, ?_, rfl⟩
        rw [hmove hpc]
        exact Moves.solo
      · cases h
  | exit t =>
      simp only [step, exit] at h
      split at h
      · rename_i hpc
        cases h
        refine Or.inl ⟨t, _, ?_, rfl⟩
        rw [hmove hpc]
        exact Moves.exit
      · cases h
  | report t =>
      simp only [step, report] at h
      split at h
      · rename_i again hpc
        obtain ⟨qc, hqc, rfl⟩ := Option.map_eq_some_iff.1 h
        unfold pcqEnqueue at hqc
        split at hqc
        · cases hqc
        · cases hqc
          exact Or.inr (Or.inl ⟨t, again, rfl, hpc, rfl⟩)
      · cases h
  | take t =>
      simp only [step, take] at h
      split at h
      · rename_i hpc
        obtain ⟨⟨succ, qp⟩, hqp, rfl⟩ := Option.map_eq_some_iff.1 h
        refine Or.inr (Or.inr (Or.inl ⟨t, succ, qp, rfl, hpc, ?_, rfl⟩))
        unfold pcqDequeue at hqp
        split at hqp
        · cases hqp
        · rename_i hq
          cases hqp
          exact hq
      · cases h
  | count => simp
  | send => simp
  | recv => simp
  | reap => simp
  | join => simp
  | create ok => simp
  | edit ok => simp

/-! ## The way of one result -/

/-- A thread between its creation, or its go-ahead, and the dequeuing of its result: it has yet to
report, its record is on `global_qc`, or the main thread has dequeued it. -/
inductive Reporting (onQc : Prop) (res : ℕ) (th : Thd) : Prop
  | busy (hb : Busy th) (hq : ¬ onQc) (hr : res = 0)
  | reported (h : Waiting th ∨ Over th) (hq : onQc) (hr : res = 0)
  | received (h : Waiting th ∨ Over th) (hq : ¬ onQc) (hr : res = 1)

namespace Reporting

variable {p q : Prop} {r : ℕ}

theorem move (h : Reporting p r th) (hm : Moves th th') : Reporting p r th' := by
  have hdone : Waiting th ∨ Over th → Waiting th' ∨ Over th' := by
    rintro (hw | ho)
    · exact absurd hw hm.not_waiting
    · exact Or.inr (hm.over ho)
  cases h with
  | busy hb hq hr => exact busy (hm.busy hb) hq hr
  | reported hd hq hr => exact reported (hdone hd) hq hr
  | received hd hq hr => exact received (hdone hd) hq hr

theorem report (h : Reporting p r th) {again : Bool} (hpc : th.pc = .report again) (hq : q) :
    ¬ p ∧ r = 0 ∧ Reporting q r ⟨th.state, if again then .wait else .exiting⟩ := by
  have hnot : ¬ (Waiting th ∨ Over th) := by
    rintro (hw | ⟨_, h | h | h⟩)
    · rw [hw.pc] at hpc
      cases hpc
    all_goals
      rw [h] at hpc
      cases hpc
  cases h with
  | busy hb hp hr => exact ⟨hp, hr, reported (hb.reported hpc) hq hr⟩
  | reported hd => exact absurd hd hnot
  | received hd => exact absurd hd hnot

theorem dequeue (h : Reporting p r th) (hp : p) (hq : ¬ q) :
    r = 0 ∧ (Waiting th ∨ Over th) ∧ Reporting q (r + 1) th := by
  cases h with
  | busy _ hnot _ => exact absurd hp hnot
  | reported hd _ hr => exact ⟨hr, hd, received hd hq (by rw [hr])⟩
  | received _ hnot _ => exact absurd hp hnot

theorem le_one (h : Reporting p r th) : r ≤ 1 := by
  cases h with
  | busy _ _ hr => omega
  | reported _ _ hr => omega
  | received _ _ hr => omega

theorem of_one (h : Reporting p r th) (hr : r = 1) : (Waiting th ∨ Over th) ∧ ¬ p := by
  cases h with
  | busy _ _ h0 => omega
  | reported _ _ h0 => omega
  | received hd hq _ => exact ⟨hd, hq⟩

end Reporting

/-! ## The invariants -/

open Finset in
/-- The threads below `c` have been created and `i` of their results counted, `num` of them good. -/
structure SetupInv (n c i num : ℕ) (σ : System) : Prop where
  le : c ≤ n
  qp : σ.qp = []
  nodup : σ.qc.Nodup
  lt : ∀ t ∈ σ.qc, t < c
  created : ∀ t < c, Reporting (t ∈ σ.qc) (σ.res t) (σ.thds t)
  fresh : ∀ t, c ≤ t → Fresh (σ.thds t) ∧ σ.res t = 0
  early : ∀ t, Early (σ.thds t)
  sum : ∑ t ∈ range n, σ.res t = i
  num : ((retrying n σ).filter fun t => σ.res t = 1).card = num

/-- Between two rounds: every thread waits or is through. -/
structure IdleInv (n num : ℕ) (σ : System) : Prop where
  qp : σ.qp = []
  qc : σ.qc = []
  each : ∀ t < n, Waiting (σ.thds t) ∨ Over (σ.thds t)
  fresh : ∀ t, n ≤ t → Fresh (σ.thds t)
  num : (retrying n σ).card = num

/-- A thread in a round. -/
def Stage (σ : System) (t : ℕ) : Prop :=
  (t ∈ σ.live ∧ σ.go t = 0 ∧ σ.res t = 0 ∧ t ∉ σ.qc ∧ Waiting (σ.thds t)) ∨
  (t ∈ σ.live ∧ σ.go t = 1 ∧ Reporting (t ∈ σ.qc) (σ.res t) (σ.thds t) ∧
    (σ.res t = 1 → Waiting (σ.thds t))) ∨
  (t ∉ σ.live ∧ σ.go t = 0 ∧ σ.res t = 0 ∧ t ∉ σ.qc ∧ Over (σ.thds t))

open Finset in
/-- In a round with `num` live threads, after `sent` go-aheads and `i` results. -/
structure RoundInv (n sent i num : ℕ) (σ : System) : Prop where
  qp : ∀ b ∈ σ.qp, b = true
  sent : σ.qp.length + ∑ t ∈ range n, σ.go t = sent
  nodup : σ.qc.Nodup
  lt : ∀ t ∈ σ.qc, t < n
  fresh : ∀ t, n ≤ t → Fresh (σ.thds t)
  live : σ.live ⊆ range n
  each : ∀ t < n, Stage σ t
  card : σ.live.card = num
  sum : ∑ t ∈ range n, σ.res t = i

/-- The loop is over. -/
structure EndInv (n : ℕ) (σ : System) : Prop where
  each : ∀ t < n, Over (σ.thds t)
  fresh : ∀ t, n ≤ t → Fresh (σ.thds t)

def InvAt (n : ℕ) (σ : System) : Main → Prop
  | .create i => i < n ∧ SetupInv n i 0 0 σ
  | .count i num => i < n ∧ SetupInv n n i num σ
  | .edit num => 0 < num ∧ IdleInv n num σ
  | .send true i num => i < num ∧ RoundInv n i 0 num σ
  | .send false _ _ => σ.aborted = true
  | .recv succ i num => i < num ∧ (succ = true ↔ 0 < i) ∧ RoundInv n num i num σ
  | .reap _ _ => False
  | .join _ => σ.aborted = true ∨ EndInv n σ
  | .returned _ => σ.aborted = true ∨ EndInv n σ

def Inv (n : ℕ) (σ : System) : Prop := InvAt n σ σ.main.resume

@[simp] theorem setThd_self (σ : System) (t : ℕ) (th : Thd) : (σ.setThd t th).thds t = th :=
  Function.update_self _ _ _

@[simp] theorem setThd_res (σ : System) (t : ℕ) (th : Thd) : (σ.setThd t th).res = σ.res := rfl

@[simp] theorem setThd_go (σ : System) (t : ℕ) (th : Thd) : (σ.setThd t th).go = σ.go := rfl

@[simp] theorem setThd_live (σ : System) (t : ℕ) (th : Thd) : (σ.setThd t th).live = σ.live := rfl

theorem setThd_of_ne (σ : System) {t u : ℕ} (h : u ≠ t) (th : Thd) :
    (σ.setThd t th).thds u = σ.thds u := Function.update_of_ne h _ _

/-- A thread that the step leaves alone stays where it is. -/
theorem Stage.congr (h : Stage σ t) (hth : σ'.thds t = σ.thds t) (hqc : t ∈ σ'.qc ↔ t ∈ σ.qc)
    (hlive : σ'.live = σ.live) (hgo : σ'.go t = σ.go t) (hres : σ'.res t = σ.res t) :
    Stage σ' t := by
  unfold Stage at h ⊢
  rw [hth, hlive, hgo, hres, propext hqc]
  exact h

/-! ## Steps of the threads -/

open Finset in
theorem sum_bump {f : ℕ → ℕ} (ht : t < n) :
    ∑ u ∈ range n, Function.update f t (f t + 1) u = ∑ u ∈ range n, f u + 1 := by
  have hmem : t ∈ range n := mem_range.2 ht
  rw [sum_update_of_mem hmem, ← add_sum_erase _ f hmem, ← erase_eq]
  omega

theorem retrying_congr (h : ∀ u < n, ((σ'.thds u).state = some .retry ↔
    (σ.thds u).state = some .retry)) : retrying n σ' = retrying n σ := by
  refine Finset.filter_congr fun u hu => ?_
  rw [h u (Finset.mem_range.1 hu)]

theorem SetupInv.move (h : SetupInv n c i num σ) (hm : Moves (σ.thds t) th) :
    SetupInv n c i num (σ.setThd t th) := by
  have htc : t < c := by
    by_contra hlt
    exact hm.not_fresh (h.fresh t (by omega)).1
  refine ⟨h.le, h.qp, h.nodup, h.lt, fun u hu => ?_, fun u hu => ?_, fun u => ?_, h.sum, ?_⟩
  · by_cases hut : u = t
    · subst hut
      rw [setThd_self]
      exact (h.created u hu).move hm
    · rw [setThd_of_ne σ hut]
      exact h.created u hu
  · rw [setThd_of_ne σ (by omega)]
    exact h.fresh u hu
  · by_cases hut : u = t
    · subst hut
      rw [setThd_self]
      exact hm.early (h.early u)
    · rw [setThd_of_ne σ hut]
      exact h.early u
  · rw [← h.num]
    congr 1
    ext u
    simp only [retrying, Finset.mem_filter, Finset.mem_range]
    by_cases hut : u = t
    · subst hut
      rw [setThd_self]
      refine and_congr_left fun hres => and_congr_right fun _ => ?_
      rcases ((h.created u htc).of_one hres).1 with hw | ho
      · exact absurd hw hm.not_waiting
      · exact ⟨fun he => absurd he (hm.over ho).state, fun he => absurd he ho.state⟩
    · rw [setThd_of_ne σ hut]
      rfl

theorem SetupInv.report (h : SetupInv n c i num σ) {again : Bool}
    (hpc : (σ.thds t).pc = .report again) :
    SetupInv n c i num { σ.setThd t ⟨(σ.thds t).state, if again then .wait else .exiting⟩ with
      qc := t :: σ.qc } := by
  have htc : t < c := by
    by_contra hlt
    rw [(h.fresh t (by omega)).1] at hpc
    cases hpc
  obtain ⟨hq, hr, hrep⟩ := (h.created t htc).report hpc (q := t ∈ t :: σ.qc) List.mem_cons_self
  refine ⟨h.le, h.qp, List.nodup_cons.2 ⟨hq, h.nodup⟩, ?_, fun u hu => ?_, fun u hu => ?_,
    fun u => ?_, h.sum, ?_⟩
  · intro u hu
    rcases List.mem_cons.1 hu with rfl | hu
    · exact htc
    · exact h.lt u hu
  · by_cases hut : u = t
    · subst hut
      simpa using hrep
    · have hmem : u ∈ t :: σ.qc ↔ u ∈ σ.qc := by simp [hut]
      simp only [setThd_of_ne σ hut, propext hmem]
      exact h.created u hu
  · simp only [setThd_of_ne σ (show u ≠ t by omega)]
    exact h.fresh u hu
  · by_cases hut : u = t
    · subst hut
      simp only [setThd_self]
      refine ⟨?_, ?_, (h.early u).2.2⟩ <;> cases again <;> exact nofun
    · simp only [setThd_of_ne σ hut]
      exact h.early u
  · rw [← h.num]
    congr 2
    refine retrying_congr fun u _ => ?_
    by_cases hut : u = t
    · subst hut
      simp
    · simp only [setThd_of_ne σ hut]

theorem IdleInv.move (h : IdleInv n num σ) (hm : Moves (σ.thds t) th) :
    IdleInv n num (σ.setThd t th) := by
  have htn : t < n := by
    by_contra hlt
    exact hm.not_fresh (h.fresh t (by omega))
  have hover : Over (σ.thds t) := (h.each t htn).resolve_left hm.not_waiting
  refine ⟨h.qp, h.qc, fun u hu => ?_, fun u hu => ?_, ?_⟩
  · by_cases hut : u = t
    · subst hut
      rw [setThd_self]
      exact Or.inr (hm.over hover)
    · rw [setThd_of_ne σ hut]
      exact h.each u hu
  · rw [setThd_of_ne σ (by omega)]
    exact h.fresh u hu
  · rw [← h.num]
    congr 1
    refine retrying_congr fun u _ => ?_
    by_cases hut : u = t
    · subst hut
      rw [setThd_self]
      exact ⟨fun he => absurd he (hm.over hover).state, fun he => absurd he hover.state⟩
    · rw [setThd_of_ne σ hut]

theorem EndInv.move (h : EndInv n σ) (hm : Moves (σ.thds t) th) : EndInv n (σ.setThd t th) := by
  refine ⟨fun u hu => ?_, fun u hu => ?_⟩
  all_goals
    by_cases hut : u = t
    · subst hut
      rw [setThd_self]
      first
        | exact hm.over (h.each u hu)
        | exact absurd (h.fresh u hu) hm.not_fresh
    · rw [setThd_of_ne σ hut]
      first
        | exact h.each u hu
        | exact h.fresh u hu

/-- A thread that is not at a report: nothing to enqueue. -/
theorem not_report {again : Bool} (h : Waiting th ∨ Over th ∨ Fresh th) :
    th.pc ≠ .report again := by
  intro hpc
  rcases h with h | ⟨_, h | h | h⟩ | h
  · rw [h.pc] at hpc
    cases hpc
  · rw [h] at hpc
    cases hpc
  · rw [h] at hpc
    cases hpc
  · rw [h] at hpc
    cases hpc
  · rw [h] at hpc
    cases hpc

theorem RoundInv.move (h : RoundInv n sent i num σ) (hm : Moves (σ.thds t) th) :
    RoundInv n sent i num (σ.setThd t th) := by
  have htn : t < n := by
    by_contra hlt
    exact hm.not_fresh (h.fresh t (by omega))
  refine ⟨h.qp, h.sent, h.nodup, h.lt, fun u hu => ?_, h.live, fun u hu => ?_, h.card, h.sum⟩
  · rw [setThd_of_ne σ (by omega)]
    exact h.fresh u hu
  · by_cases hut : u = t
    · subst hut
      rcases h.each u hu with ⟨_, _, _, _, hw⟩ | ⟨hl, hgo, hrep, hearly⟩ | ⟨hl, hgo, hr, hq, ho⟩
      · exact absurd hw hm.not_waiting
      · refine Or.inr (Or.inl ⟨hl, hgo, ?_, fun hr => absurd (hearly hr) hm.not_waiting⟩)
        rw [setThd_self]
        exact hrep.move hm
      · refine Or.inr (Or.inr ⟨hl, hgo, hr, hq, ?_⟩)
        rw [setThd_self]
        exact hm.over ho
    · exact (h.each u hu).congr (setThd_of_ne σ hut th) Iff.rfl rfl rfl rfl

theorem RoundInv.report (h : RoundInv n sent i num σ) {again : Bool}
    (hpc : (σ.thds t).pc = .report again) :
    RoundInv n sent i num { σ.setThd t ⟨(σ.thds t).state, if again then .wait else .exiting⟩ with
      qc := t :: σ.qc } := by
  have htn : t < n := by
    by_contra hlt
    exact not_report (Or.inr (Or.inr (h.fresh t (by omega)))) hpc
  obtain ⟨hl, hgo, hrep⟩ : t ∈ σ.live ∧ σ.go t = 1 ∧
      Reporting (t ∈ σ.qc) (σ.res t) (σ.thds t) := by
    rcases h.each t htn with ⟨_, _, _, _, hw⟩ | ⟨hl, hgo, hrep, _⟩ | ⟨_, _, _, _, ho⟩
    · exact absurd hpc (not_report (Or.inl hw))
    · exact ⟨hl, hgo, hrep⟩
    · exact absurd hpc (not_report (Or.inr (Or.inl ho)))
  obtain ⟨hq, hr, hrep⟩ := hrep.report hpc (q := t ∈ t :: σ.qc) List.mem_cons_self
  refine ⟨h.qp, h.sent, List.nodup_cons.2 ⟨hq, h.nodup⟩, ?_, fun u hu => ?_, h.live, fun u hu => ?_,
    h.card, h.sum⟩
  · intro u hu
    rcases List.mem_cons.1 hu with rfl | hu
    · exact htn
    · exact h.lt u hu
  · simp only [setThd_of_ne σ (show u ≠ t by omega)]
    exact h.fresh u hu
  · by_cases hut : u = t
    · subst hut
      refine Or.inr (Or.inl ⟨hl, hgo, ?_, fun h1 => ?_⟩)
      · simpa using hrep
      · simp only [setThd_res] at h1
        omega
    · exact (h.each u hu).congr (setThd_of_ne σ hut _) (by simp [hut]) rfl rfl rfl

/-- A thread takes its go-ahead. -/
theorem RoundInv.take (h : RoundInv n sent i num σ) {qp : List Bool} (hgo : σ.go t = 0)
    (hpc : (σ.thds t).pc = .wait) (hqp : σ.qp = true :: qp) :
    RoundInv n sent i num { σ.setThd t ⟨(σ.thds t).state, .push⟩ with
      qp := qp, go := Function.update σ.go t (σ.go t + 1) } := by
  have htn : t < n := by
    by_contra hlt
    rw [h.fresh t (by omega)] at hpc
    cases hpc
  obtain ⟨hl, hr, hq, hw⟩ : t ∈ σ.live ∧ σ.res t = 0 ∧ t ∉ σ.qc ∧ Waiting (σ.thds t) := by
    rcases h.each t htn with ⟨hl, _, hr, hq, hw⟩ | ⟨_, hgo', _⟩ | ⟨_, _, _, _, _, ho | ho | ho⟩
    · exact ⟨hl, hr, hq, hw⟩
    · omega
    all_goals
      rw [ho] at hpc
      cases hpc
  refine ⟨fun b hb => h.qp b ?_, ?_, h.nodup, h.lt, fun u hu => ?_, h.live, fun u hu => ?_, h.card,
    h.sum⟩
  · rw [hqp]
    exact List.mem_cons_of_mem _ hb
  · have hsent := h.sent
    rw [hqp, List.length_cons] at hsent
    simp only [sum_bump htn]
    omega
  · simp only [setThd_of_ne σ (show u ≠ t by omega)]
    exact h.fresh u hu
  · by_cases hut : u = t
    · subst hut
      refine Or.inr (Or.inl ⟨hl, ?_, Reporting.busy ?_ hq hr, fun h1 => ?_⟩)
      · simp [hgo]
      · simp only [setThd_self, hw.state]
        exact Or.inr (Or.inl rfl)
      · simp only [setThd_res] at h1
        omega
    · exact (h.each u hu).congr (setThd_of_ne σ hut _) Iff.rfl rfl
        (Function.update_of_ne hut _ _) rfl

theorem InvAt.move {m : Main} (h : InvAt n σ m) (hm : Moves (σ.thds t) th) :
    InvAt n (σ.setThd t th) m := by
  cases m with
  | create i => exact ⟨h.1, h.2.move hm⟩
  | count i num => exact ⟨h.1, h.2.move hm⟩
  | edit num => exact ⟨h.1, h.2.move hm⟩
  | send succ i num =>
      cases succ with
      | true => exact ⟨h.1, h.2.move hm⟩
      | false => exact h
  | recv succ i num => exact ⟨h.1, h.2.1, h.2.2.move hm⟩
  | reap t next => exact h
  | join i => exact h.imp id fun hend => hend.move hm
  | returned ret => exact h.imp id fun hend => hend.move hm

theorem EndInv.not_report (h : EndInv n σ) {again : Bool} : (σ.thds t).pc ≠ .report again := by
  by_cases ht : t < n
  · exact Threads.not_report (Or.inr (Or.inl (h.each t ht)))
  · exact Threads.not_report (Or.inr (Or.inr (h.fresh t (by omega))))

theorem EndInv.not_wait (h : EndInv n σ) : (σ.thds t).pc ≠ .wait := by
  intro hpc
  by_cases ht : t < n
  · obtain ⟨_, ho | ho | ho⟩ := h.each t ht
    all_goals
      rw [ho] at hpc
      cases hpc
  · rw [h.fresh t (by omega)] at hpc
    cases hpc

theorem InvAt.report {m : Main} (h : InvAt n σ m) {again : Bool}
    (hpc : (σ.thds t).pc = .report again) :
    InvAt n { σ.setThd t ⟨(σ.thds t).state, if again then .wait else .exiting⟩ with
      qc := t :: σ.qc } m := by
  cases m with
  | create i => exact ⟨h.1, h.2.report hpc⟩
  | count i num => exact ⟨h.1, h.2.report hpc⟩
  | edit num =>
      by_cases ht : t < n
      · have hth := h.2.each t ht
        exact absurd hpc (not_report (hth.imp id Or.inl))
      · exact absurd hpc (not_report (Or.inr (Or.inr (h.2.fresh t (by omega)))))
  | send succ i num =>
      cases succ with
      | true => exact ⟨h.1, h.2.report hpc⟩
      | false => exact h
  | recv succ i num => exact ⟨h.1, h.2.1, h.2.2.report hpc⟩
  | reap t next => exact h
  | join i => exact h.imp id fun hend => absurd hpc hend.not_report
  | returned ret => exact h.imp id fun hend => absurd hpc hend.not_report

theorem InvAt.take {m : Main} (h : InvAt n σ m) {succ : Bool} {qp : List Bool}
    (hgo : σ.go t = 0) (hpc : (σ.thds t).pc = .wait) (hqp : σ.qp = succ :: qp) :
    InvAt n (if succ then { σ.setThd t ⟨(σ.thds t).state, .push⟩ with
        qp := qp, go := Function.update σ.go t (σ.go t + 1) }
      else { σ.setThd t ⟨(σ.thds t).state, .exiting⟩ with qp := qp }) m := by
  -- set-up and the time between the rounds leave nothing on `global_qp`, a round only go-aheads
  have hempty : σ.qp ≠ [] := by
    rw [hqp]
    exact List.cons_ne_nil _ _
  have hround : ∀ {sent i num : ℕ}, RoundInv n sent i num σ → succ = true := by
    intro sent i num hr
    apply hr.qp
    rw [hqp]
    exact List.mem_cons_self
  cases m with
  | create i => exact absurd h.2.qp hempty
  | count i num => exact absurd h.2.qp hempty
  | edit num => exact absurd h.2.qp hempty
  | send go i num =>
      cases go with
      | true =>
          cases hround h.2
          exact ⟨h.1, h.2.take hgo hpc hqp⟩
      | false =>
          cases succ with
          | true => exact h
          | false => exact h
  | recv go i num =>
      cases hround h.2.2
      exact ⟨h.1, h.2.1, h.2.2.take hgo hpc hqp⟩
  | reap t next => exact h
  | join i =>
      rcases h with h | h
      · cases succ with
        | true => exact Or.inl h
        | false => exact Or.inl h
      · exact absurd hpc h.not_wait
  | returned ret =>
      rcases h with h | h
      · cases succ with
        | true => exact Or.inl h
        | false => exact Or.inl h
      · exact absurd hpc h.not_wait

/-! ## Steps of the main thread -/

theorem resume_afterJoin : (afterJoin n i).resume = afterJoin n i := by
  unfold afterJoin
  split <;> rfl

theorem resume_afterRecv {succ : Bool} :
    (afterRecv n succ i num).resume = afterRecv n succ i num := by
  unfold afterRecv
  split
  · rfl
  · split
    · rfl
    · exact resume_afterJoin

theorem resume_afterSend {succ : Bool} :
    (afterSend n succ i num).resume = afterSend n succ i num := by
  unfold afterSend
  split
  · rfl
  · split
    · exact resume_afterRecv
    · exact resume_afterJoin

theorem resume_afterCount {mult : Bool} :
    (afterCount mult n i num).resume = afterCount mult n i num := by
  unfold afterCount
  split
  · rfl
  · split
    · split
      · rfl
      · exact resume_afterJoin
    · rfl

theorem resume_afterCreate {mult : Bool} :
    (afterCreate mult n i).resume = afterCreate mult n i := by
  unfold afterCreate
  split
  · rfl
  · exact resume_afterCount

theorem invAt_afterJoin (h : σ.aborted = true ∨ EndInv n σ) : InvAt n σ (afterJoin n i) := by
  unfold afterJoin
  split <;> exact h

open Finset in
/-- All results are in. -/
theorem sum_le_eq {f g : ℕ → ℕ} (hle : ∀ t < n, f t ≤ g t)
    (hsum : ∑ t ∈ range n, f t = ∑ t ∈ range n, g t) : ∀ t < n, f t = g t := by
  intro t ht
  exact (sum_eq_sum_iff_of_le fun u hu => hle u (mem_range.1 hu)).1 hsum t (mem_range.2 ht)

theorem SetupInv.idle (h : SetupInv n n n num σ) :
    IdleInv n num σ ∧ (num = 0 → EndInv n σ) := by
  have hone : ∀ t < n, σ.res t = 1 := by
    refine sum_le_eq (fun t ht => (h.created t ht).le_one) ?_
    rw [h.sum]
    simp
  have heach : ∀ t < n, (Waiting (σ.thds t) ∨ Over (σ.thds t)) ∧ t ∉ σ.qc := fun t ht =>
    (h.created t ht).of_one (hone t ht)
  have hnum : (retrying n σ).card = num := by
    rw [← h.num]
    congr 1
    refine (Finset.filter_true_of_mem fun t ht => hone t ?_).symm
    exact Finset.mem_range.1 (Finset.mem_filter.1 ht).1
  refine ⟨⟨h.qp, ?_, fun t ht => (heach t ht).1, fun t ht => (h.fresh t ht).1, hnum⟩, ?_⟩
  · rw [List.eq_nil_iff_forall_not_mem]
    intro t ht
    exact (heach t (h.lt t ht)).2 ht
  · rintro rfl
    refine ⟨fun t ht => ?_, fun t ht => (h.fresh t ht).1⟩
    rcases (heach t ht).1 with hw | ho
    · refine absurd ?_ (Finset.notMem_empty t)
      rw [← Finset.card_eq_zero.1 hnum, retrying, Finset.mem_filter]
      exact ⟨Finset.mem_range.2 ht, hw.state⟩
    · exact ho

theorem invAt_afterCount (h : SetupInv n n i num σ) (hi : i ≤ n) :
    InvAt n σ (afterCount true n i num) := by
  unfold afterCount
  split
  · rename_i hlt
    exact ⟨hlt, h⟩
  · rename_i hlt
    obtain rfl : i = n := by omega
    split
    · rename_i hpos
      exact ⟨hpos, h.idle.1⟩
    · rename_i hpos
      exact Or.inr (h.idle.2 (by omega))

theorem invAt_afterCreate (h : SetupInv n c 0 0 σ) : InvAt n σ (afterCreate true n c) := by
  unfold afterCreate
  split
  · rename_i hlt
    exact ⟨hlt, h⟩
  · rename_i hlt
    obtain rfl : c = n := by
      have := h.le
      omega
    exact invAt_afterCount h (Nat.zero_le _)

theorem inv_start : Inv n (System.start true n) := by
  unfold Inv
  rw [System.start, resume_afterCreate]
  apply invAt_afterCreate
  refine ⟨Nat.zero_le n, rfl, List.nodup_nil, nofun, nofun, fun _ _ => ⟨rfl, rfl⟩,
    fun _ => ⟨nofun, nofun, nofun⟩, by simp, by simp⟩

theorem invAt_afterSend (h : RoundInv n i 0 num σ) (hi : i ≤ num) (hpos : 0 < num) :
    InvAt n σ (afterSend n true i num) := by
  unfold afterSend
  split
  · rename_i hlt
    exact ⟨hlt, h⟩
  · rename_i hlt
    obtain rfl : i = num := by omega
    rw [if_pos rfl, afterRecv, if_pos hpos]
    exact ⟨hpos, by simp, h⟩

theorem SetupInv.withMain {m : Main} (h : SetupInv n c i num σ) :
    SetupInv n c i num { σ with main := m } :=
  ⟨h.le, h.qp, h.nodup, h.lt, h.created, h.fresh, h.early, h.sum, h.num⟩

/-- The invariants do not look at the main thread. -/
theorem InvAt.withMain {m m' : Main} (h : InvAt n σ m) : InvAt n { σ with main := m' } m := by
  have hround : ∀ {sent i num : ℕ}, RoundInv n sent i num σ →
      RoundInv n sent i num { σ with main := m' } := fun h =>
    ⟨h.qp, h.sent, h.nodup, h.lt, h.fresh, h.live, h.each, h.card, h.sum⟩
  have hend : EndInv n σ → EndInv n { σ with main := m' } := fun h => ⟨h.each, h.fresh⟩
  cases m with
  | create i => exact ⟨h.1, h.2.withMain⟩
  | count i num => exact ⟨h.1, h.2.withMain⟩
  | edit num => exact ⟨h.1, h.2.qp, h.2.qc, h.2.each, h.2.fresh, h.2.num⟩
  | send succ i num =>
      cases succ with
      | true => exact ⟨h.1, hround h.2⟩
      | false => exact h
  | recv succ i num => exact ⟨h.1, h.2.1, hround h.2.2⟩
  | reap t next => exact h
  | join i => exact h.imp id hend
  | returned ret => exact h.imp id hend

/-- `pthread_create`, whether it succeeds or not: the thread starts, or its record is on
`global_qc`. -/
theorem SetupInv.create (h : SetupInv n i 0 0 σ) (hi : i < n) {qc : List ℕ}
    (hth : th = ⟨none, .setup⟩ ∧ qc = σ.qc ∨ th = ⟨some .failed, .absent⟩ ∧ qc = i :: σ.qc) :
    SetupInv n (i + 1) 0 0 { σ.setThd i th with qc := qc } := by
  have hnot : i ∉ σ.qc := fun hmem => Nat.lt_irrefl _ (h.lt i hmem)
  have hmem : ∀ u, u ≠ i → (u ∈ qc ↔ u ∈ σ.qc) := by
    intro u hu
    rcases hth with ⟨_, rfl⟩ | ⟨_, rfl⟩
    · rfl
    · simp [hu]
  refine ⟨hi, h.qp, ?_, ?_, fun u hu => ?_, fun u hu => ?_, fun u => ?_, h.sum, ?_⟩
  · rcases hth with ⟨_, rfl⟩ | ⟨_, rfl⟩
    · exact h.nodup
    · exact List.nodup_cons.2 ⟨hnot, h.nodup⟩
  · intro u hu
    by_cases hui : u = i
    · omega
    · have := h.lt u ((hmem u hui).1 hu)
      omega
  · by_cases hui : u = i
    · subst hui
      simp only [setThd_self, setThd_res]
      have hres := (h.fresh u (Nat.le_refl u)).2
      rcases hth with ⟨rfl, rfl⟩ | ⟨rfl, rfl⟩
      · exact Reporting.busy (Or.inl rfl) hnot hres
      · exact Reporting.reported (Or.inr ⟨⟨_, rfl, by decide⟩, Or.inl rfl⟩) List.mem_cons_self hres
    · simp only [setThd_of_ne σ hui, setThd_res, propext (hmem u hui)]
      exact h.created u (by omega)
  · simp only [setThd_of_ne σ (show u ≠ i by omega)]
    exact h.fresh u (by omega)
  · by_cases hui : u = i
    · subst hui
      simp only [setThd_self]
      rcases hth with ⟨rfl, _⟩ | ⟨rfl, _⟩ <;> exact ⟨nofun, nofun, nofun⟩
    · simp only [setThd_of_ne σ hui]
      exact h.early u
  · rw [← h.num]
    congr 2
    refine retrying_congr fun u _ => ?_
    by_cases hui : u = i
    · subst hui
      have hfresh := (h.fresh u (Nat.le_refl u)).1
      simp only [setThd_self, congrArg Thd.state hfresh]
      rcases hth with ⟨rfl, _⟩ | ⟨rfl, _⟩ <;> simp
    · simp only [setThd_of_ne σ hui]

/-- A result of the set-up is counted. -/
theorem SetupInv.count (h : SetupInv n n i num σ) {qc : List ℕ} {m : Main} (hqc : σ.qc = t :: qc) :
    SetupInv n n (i + 1) (if (σ.thds t).state = some .retry then num + 1 else num)
      { σ with qc := qc, main := m, res := Function.update σ.res t (σ.res t + 1) } ∧
    (Waiting (σ.thds t) ∨ Over (σ.thds t)) := by
  have hnd := h.nodup
  rw [hqc, List.nodup_cons] at hnd
  have htn : t < n := h.lt t (by rw [hqc]; exact List.mem_cons_self)
  have hmem : ∀ u, u ≠ t → (u ∈ qc ↔ u ∈ σ.qc) := by
    intro u hu
    rw [hqc]
    simp [hu]
  have hton : t ∈ σ.qc := by
    rw [hqc]
    exact List.mem_cons_self
  obtain ⟨hr, hdone, hrep⟩ := (h.created t htn).dequeue hton hnd.1
  refine ⟨⟨h.le, h.qp, hnd.2, fun u hu => h.lt u ?_, fun u hu => ?_, fun u hu => ?_, h.early,
    ?_, ?_⟩,
    hdone⟩
  · rw [hqc]
    exact List.mem_cons_of_mem _ hu
  · by_cases hut : u = t
    · subst hut
      simpa using hrep
    · simp only [Function.update_of_ne hut, propext (hmem u hut)]
      exact h.created u hu
  · simp only [Function.update_of_ne (show u ≠ t by omega)]
    exact h.fresh u hu
  · simp only [sum_bump htn, h.sum]
  · have hset : ((retrying n σ).filter fun u => Function.update σ.res t (σ.res t + 1) u = 1) =
        if (σ.thds t).state = some .retry then
          insert t ((retrying n σ).filter fun u => σ.res u = 1)
        else (retrying n σ).filter fun u => σ.res u = 1 := by
      ext u
      by_cases hut : u = t
      · subst hut
        by_cases hs : (σ.thds u).state = some .retry <;> simp [retrying, hs, hr, htn]
      · by_cases hs : (σ.thds t).state = some .retry <;> simp [hs, hut]
    show ((retrying n σ).filter fun u => Function.update σ.res t (σ.res t + 1) u = 1).card = _
    rw [hset]
    split
    · rw [Finset.card_insert_of_notMem (by simp [hr]), h.num]
    · exact h.num

/-- A go-ahead is sent. -/
theorem RoundInv.send (h : RoundInv n sent i num σ) {m : Main} :
    RoundInv n (sent + 1) i num { σ with qp := true :: σ.qp, main := m } := by
  refine ⟨?_, ?_, h.nodup, h.lt, h.fresh, h.live, h.each, h.card, h.sum⟩
  · intro b hb
    rcases List.mem_cons.1 hb with rfl | hb
    · rfl
    · exact h.qp b hb
  · have := h.sent
    simp only [List.length_cons]
    omega

/-- A round begins. -/
theorem IdleInv.edit (h : IdleInv n num σ) {m : Main} {b : Bool} :
    RoundInv n 0 0 num { σ with
      main := m
      live := retrying n σ
      go := fun _ => 0
      res := fun _ => 0
      aborted := b } := by
  refine ⟨?_, ?_, ?_, ?_, h.fresh, Finset.filter_subset _ _, fun t ht => ?_, h.num, by simp⟩
  · intro b hb
    rw [h.qp] at hb
    cases hb
  · simp [h.qp]
  · rw [h.qc]
    exact List.nodup_nil
  · intro t ht
    rw [h.qc] at ht
    cases ht
  · have hnot : t ∉ σ.qc := by
      rw [h.qc]
      exact List.not_mem_nil
    rcases h.each t ht with hw | ho
    · exact Or.inl ⟨Finset.mem_filter.2 ⟨Finset.mem_range.2 ht, hw.state⟩, rfl, rfl, hnot, hw⟩
    · refine Or.inr (Or.inr ⟨fun hl => ?_, rfl, rfl, hnot, ho⟩)
      exact ho.state (Finset.mem_filter.1 hl).2

/-- The thread whose result is on top of `global_qc`. -/
theorem RoundInv.top (h : RoundInv n sent i num σ) {qc : List ℕ} (hqc : σ.qc = t :: qc) :
    t < n ∧ t ∉ qc ∧ qc.Nodup ∧ t ∈ σ.live ∧ σ.go t = 1 ∧ σ.res t = 0 ∧
      (Waiting (σ.thds t) ∨ Over (σ.thds t)) := by
  have hnd := h.nodup
  rw [hqc, List.nodup_cons] at hnd
  have hton : t ∈ σ.qc := by
    rw [hqc]
    exact List.mem_cons_self
  have htn := h.lt t hton
  rcases h.each t htn with ⟨_, _, _, hq, _⟩ | ⟨hl, hgo, hrep, _⟩ | ⟨_, _, _, hq, _⟩
  · exact absurd hton hq
  · obtain ⟨hr, hdone, _⟩ := hrep.dequeue hton (show ¬ False from id)
    exact ⟨htn, hnd.1, hnd.2, hl, hgo, hr, hdone⟩
  · exact absurd hton hq

/-- The result of a thread that needs a retry is dequeued. -/
theorem RoundInv.recv (h : RoundInv n num i num σ) {qc : List ℕ} {m : Main}
    (hqc : σ.qc = t :: qc) (hw : Waiting (σ.thds t)) :
    RoundInv n num (i + 1) num
      { σ with qc := qc, main := m, res := Function.update σ.res t (σ.res t + 1) } := by
  obtain ⟨htn, hnot, hnd, hl, hgo, hr, _⟩ := h.top hqc
  refine ⟨h.qp, h.sent, hnd, fun u hu => h.lt u ?_, h.fresh, h.live, fun u hu => ?_, h.card, ?_⟩
  · rw [hqc]
    exact List.mem_cons_of_mem _ hu
  · by_cases hut : u = t
    · subst hut
      refine Or.inr (Or.inl ⟨hl, hgo, ?_, fun _ => hw⟩)
      exact Reporting.received (Or.inl hw) hnot (by simp [hr])
    · refine (h.each u hu).congr rfl ?_ rfl rfl (Function.update_of_ne hut _ _)
      rw [hqc]
      simp [hut]
  · simp only [sum_bump htn, h.sum]

open Finset in
/-- **The last result of a round**: all live threads have had their go-ahead and have reported. -/
theorem RoundInv.last (h : RoundInv n num i num σ) {qc : List ℕ} {m : Main}
    (hqc : σ.qc = t :: qc) (hi : i + 1 = num) :
    RoundDone n { σ with qc := qc, main := m, res := Function.update σ.res t (σ.res t + 1) } ∧
      qc = [] ∧ ∀ u < n, u ≠ t →
        (u ∈ σ.live → Waiting (σ.thds u)) ∧ (u ∉ σ.live → Over (σ.thds u)) := by
  obtain ⟨htn, hnot, hnd, hl, hgo, hr, _⟩ := h.top hqc
  have hcount : ∑ u ∈ range n, (if u ∈ σ.live then 1 else 0) = num := by
    rw [← card_filter, filter_mem_eq_inter, inter_eq_right.2 h.live, h.card]
  have hres : ∀ u < n, Function.update σ.res t (σ.res t + 1) u = if u ∈ σ.live then 1 else 0 := by
    refine sum_le_eq (fun u hu => ?_) ?_
    · by_cases hut : u = t
      · subst hut
        simp [hl, hr]
      · rw [Function.update_of_ne hut]
        rcases h.each u hu with ⟨_, _, hr, _⟩ | ⟨hl, _, hrep, _⟩ | ⟨_, _, hr, _⟩
        · omega
        · rw [if_pos hl]
          exact hrep.le_one
        · omega
    · rw [sum_bump htn, h.sum, hcount, hi]
  -- a thread that has reported has had its go-ahead
  have hstage : ∀ u < n, u ≠ t → (u ∈ σ.live → σ.go u = 1 ∧ u ∉ σ.qc ∧ Waiting (σ.thds u)) ∧
      (u ∉ σ.live → σ.go u = 0 ∧ u ∉ σ.qc ∧ Over (σ.thds u)) := by
    intro u hu hut
    have hru := hres u hu
    rw [Function.update_of_ne hut] at hru
    rcases h.each u hu with ⟨hl, _, hr, _⟩ | ⟨hl, hgo, hrep, hearly⟩ | ⟨hl, hgo, _, hq, ho⟩
    · rw [if_pos hl] at hru
      omega
    · rw [if_pos hl] at hru
      exact ⟨fun _ => ⟨hgo, (hrep.of_one hru).2, hearly hru⟩, fun hnl => absurd hl hnl⟩
    · exact ⟨fun hl' => absurd hl' hl, fun _ => ⟨hgo, hq, ho⟩⟩
  have hgos : ∀ u < n, σ.go u = if u ∈ σ.live then 1 else 0 := by
    intro u hu
    by_cases hut : u = t
    · subst hut
      rw [if_pos hl, hgo]
    · split
      · rename_i hlu
        exact ((hstage u hu hut).1 hlu).1
      · rename_i hlu
        exact ((hstage u hu hut).2 hlu).1
  refine ⟨⟨?_, fun u hu => ⟨hgos u hu, hres u hu⟩⟩, ?_, fun u hu hut => ?_⟩
  · have hsent := h.sent
    rw [sum_congr rfl fun u hu => hgos u (mem_range.1 hu), hcount] at hsent
    have hzero : σ.qp.length = 0 := by omega
    exact List.length_eq_zero_iff.1 hzero
  · rw [List.eq_nil_iff_forall_not_mem]
    intro u hu
    have huq : u ∈ σ.qc := by
      rw [hqc]
      exact List.mem_cons_of_mem _ hu
    have hut : u ≠ t := by
      rintro rfl
      exact hnot hu
    obtain ⟨h1, h2⟩ := hstage u (h.lt u huq) hut
    by_cases hlu : u ∈ σ.live
    · exact (h1 hlu).2.1 huq
    · exact (h2 hlu).2.1 huq
  · exact ⟨fun hlu => ((hstage u hu hut).1 hlu).2.2, fun hlu => ((hstage u hu hut).2 hlu).2.2⟩

theorem pcqDequeue_some {α : Type*} {q q' : List α} {elm : α}
    (h : pcqDequeue q = some (elm, q')) : q = elm :: q' := by
  cases q with
  | nil => cases h
  | cons e q =>
      cases h
      rfl

/-- Without a thread that needs a retry the loop is over. -/
theorem IdleInv.over (h : IdleInv n 0 σ) : EndInv n σ := by
  refine ⟨fun t ht => ?_, h.fresh⟩
  rcases h.each t ht with hw | ho
  · have hmem : t ∈ retrying n σ :=
      Finset.mem_filter.2 ⟨Finset.mem_range.2 ht, hw.state⟩
    rw [Finset.card_eq_zero.1 h.num] at hmem
    exact absurd hmem (Finset.notMem_empty t)
  · exact ho

/-- Who needs a retry after the last result of a round. -/
theorem RoundInv.mem_retrying (h : RoundInv n num i num σ) {qc : List ℕ} (hqc : σ.qc = t :: qc)
    (hi : i + 1 = num) {u : ℕ} :
    u ∈ retrying n σ ↔ u ∈ σ.live ∧ (u = t → Waiting (σ.thds t)) := by
  obtain ⟨-, -, -, hl, -, -, hdone⟩ := h.top hqc
  obtain ⟨-, -, hrest⟩ := h.last (m := σ.main) hqc hi
  simp only [retrying, Finset.mem_filter, Finset.mem_range]
  constructor
  · rintro ⟨hu, hs⟩
    by_cases hut : u = t
    · subst hut
      exact ⟨hl, fun _ => hdone.resolve_right fun ho => ho.state hs⟩
    · refine ⟨?_, fun he => absurd he hut⟩
      by_contra hlu
      exact ((hrest u hu hut).2 hlu).state hs
  · rintro ⟨hlu, hw⟩
    have hu := Finset.mem_range.1 (h.live hlu)
    refine ⟨hu, ?_⟩
    by_cases hut : u = t
    · rw [hut]
      exact (hw hut).state
    · exact ((hrest u hu hut).1 hlu).state

/-- After the last result of a round every thread waits or is through. -/
theorem RoundInv.idle (h : RoundInv n num i num σ) {qc : List ℕ} {m : Main} (hqc : σ.qc = t :: qc)
    (hi : i + 1 = num) {k : ℕ} (hk : (retrying n σ).card = k) :
    IdleInv n k { σ with qc := qc, main := m, res := Function.update σ.res t (σ.res t + 1) } := by
  obtain ⟨-, -, -, -, -, -, hdone⟩ := h.top hqc
  obtain ⟨hround, hnil, hrest⟩ := h.last (m := m) hqc hi
  refine ⟨hround.1, hnil, fun u hu => ?_, h.fresh, hk⟩
  by_cases hut : u = t
  · subst hut
    exact hdone
  · by_cases hlu : u ∈ σ.live
    · exact Or.inl ((hrest u hu hut).1 hlu)
    · exact Or.inr ((hrest u hu hut).2 hlu)

/-- The result of a thread that needs a retry: the same threads are live in the next round. -/
theorem recv_waiting {qc : List ℕ} (hqc : σ.qc = t :: qc) (hi : i < num)
    (hround : RoundInv n num i num σ) (hw : Waiting (σ.thds t)) {m : Main} :
    InvAt n { σ with qc := qc, main := m, res := Function.update σ.res t (σ.res t + 1) }
      (afterRecv n true (i + 1) num) := by
  unfold afterRecv
  split
  · rename_i hlt
    exact ⟨hlt, by simp, hround.recv hqc hw⟩
  · rename_i hlt
    have hlast : i + 1 = num := by omega
    rw [if_pos rfl]
    refine ⟨by omega, hround.idle hqc hlast ?_⟩
    have hlive : retrying n σ = σ.live := by
      ext u
      rw [hround.mem_retrying hqc hlast]
      exact and_iff_left fun _ => hw
    rw [hlive, hround.card]

/-- The last result of a round, of a thread that is through: it is no longer live. -/
theorem recv_over {succ : Bool} {qc : List ℕ} (hqc : σ.qc = t :: qc) (hlast : i + 1 = num)
    (hsucc : succ = true ↔ 0 < i) (hround : RoundInv n num i num σ) (ho : Over (σ.thds t))
    {m : Main} :
    InvAt n { σ with qc := qc, main := m, res := Function.update σ.res t (σ.res t + 1) }
      (afterRecv n succ (i + 1) (num - 1)) := by
  obtain ⟨-, -, -, hl, -, -, -⟩ := hround.top hqc
  have hlive : retrying n σ = σ.live.erase t := by
    ext u
    rw [hround.mem_retrying hqc hlast, Finset.mem_erase, and_comm]
    refine and_congr_left fun _ => ⟨fun hw hut => ho.state (hw hut).state, fun hut he => ?_⟩
    exact absurd he hut
  have hcard : (retrying n σ).card = num - 1 := by
    rw [hlive, Finset.card_erase_of_mem hl, hround.card]
  have hidle : IdleInv n (num - 1)
      { σ with qc := qc, main := m, res := Function.update σ.res t (σ.res t + 1) } :=
    hround.idle hqc hlast hcard
  rw [afterRecv, if_neg (by omega)]
  split
  · rename_i hs
    have hpos := hsucc.1 hs
    exact ⟨by omega, hidle⟩
  · rename_i hs
    have hzero : num - 1 = 0 := by
      have : ¬ 0 < i := fun hpos => hs (hsucc.2 hpos)
      omega
    rw [hzero] at hidle
    exact invAt_afterJoin (Or.inr hidle.over)

/-- **The steps over the results of a round.** -/
theorem recv_step (hinv : Inv n σ) (ho : Orderly .recv σ) (h : recv n σ = some σ') :
    Inv n σ' ∧ (σ'.main.RoundOver → RoundDone n σ') := by
  unfold recv at h
  split at h
  · rename_i succ i num hmain
    obtain ⟨⟨t, qc⟩, hq, rfl⟩ := Option.map_eq_some_iff.1 h
    have hqc := pcqDequeue_some hq
    unfold Inv at hinv
    rw [hmain] at hinv
    obtain ⟨hi, hsucc, hround⟩ := hinv
    obtain ⟨-, -, -, -, -, -, hdone⟩ := hround.top hqc
    by_cases hw : Waiting (σ.thds t)
    · simp only [Inv, Main.RoundOver, hw.state, resume_afterRecv]
      refine ⟨recv_waiting hqc hi hround hw, fun hover => (hround.last hqc ?_).1⟩
      by_contra hne
      rw [afterRecv, if_pos (by omega)] at hover
      exact hover.elim
    · have hover := hdone.resolve_left hw
      simp only [Orderly, hmain, hqc] at ho
      have hlast := ho.resolve_left hover.state
      refine ⟨?_, fun _ => (hround.last hqc hlast).1⟩
      have hresume : (match (σ.thds t).state with
          | some .retry => afterRecv n true (i + 1) num
          | some .terminated => .reap t (afterRecv n succ (i + 1) (num - 1))
          | _ => afterRecv n succ (i + 1) (num - 1)).resume =
          afterRecv n succ (i + 1) (num - 1) := by
        obtain ⟨⟨s, hs, hne⟩, _⟩ := hover
        rw [hs]
        cases s with
        | retry => exact absurd rfl hne
        | terminated => exact resume_afterRecv
        | ok => exact resume_afterRecv
        | failed => exact resume_afterRecv
      unfold Inv
      simp only [hresume]
      exact recv_over hqc hlast hsucc hround hover
  · cases h

/-- A result of the set-up is counted. -/
theorem count_step (hinv : Inv n σ) (h : Threads.count true n σ = some σ') : Inv n σ' := by
  unfold Inv at hinv
  unfold count at h
  split at h
  · rename_i i num hmain
    rw [hmain] at hinv
    obtain ⟨hi, hsetup⟩ := hinv
    obtain ⟨⟨t, qc⟩, hq, rfl⟩ := Option.map_eq_some_iff.1 h
    have hcount := fun m => hsetup.count (m := m) (pcqDequeue_some hq)
    have hdone := (hcount (.count i num)).2
    have hresume : (match (σ.thds t).state with
        | some .terminated => Main.reap t (afterCount true n (i + 1) num)
        | some .failed => afterCount true n (i + 1) num
        | _ => afterCount true n (i + 1) (num + 1)).resume =
        afterCount true n (i + 1) (if (σ.thds t).state = some .retry then num + 1 else num) := by
      rcases hdone with hw | ⟨⟨s, hs, hne⟩, _⟩
      · rw [hw.state, if_pos rfl]
        exact resume_afterCount
      · have hearly := (hsetup.early t).2.2
        rw [hs] at hearly ⊢
        cases s with
        | retry => exact absurd rfl hne
        | ok => exact absurd rfl hearly
        | terminated => exact resume_afterCount
        | failed => exact resume_afterCount
    unfold Inv
    simp only [hresume]
    exact invAt_afterCount (hcount _).1 hi
  · cases h

theorem send_step (hinv : Inv n σ) (h : Threads.send n σ = some σ') : Inv n σ' := by
  unfold Inv at hinv
  unfold send at h
  split at h
  · rename_i succ i num hmain
    rw [hmain] at hinv
    obtain ⟨qp, hq, rfl⟩ := Option.map_eq_some_iff.1 h
    unfold pcqEnqueue at hq
    split at hq
    · cases hq
    · cases hq
      simp only [Inv, resume_afterSend]
      cases succ with
      | true =>
          obtain ⟨hi, hround⟩ := hinv
          exact invAt_afterSend hround.send hi (by omega)
      | false =>
          unfold afterSend
          split
          · exact hinv
          · exact invAt_afterJoin (Or.inl hinv)
  · cases h

theorem reap_step (hinv : Inv n σ) (h : Threads.reap σ = some σ') : Inv n σ' := by
  unfold Inv at hinv
  unfold reap at h
  split at h
  · rename_i t next hmain
    split at h
    · cases h
      rw [hmain] at hinv
      exact hinv.withMain
    · cases h
  · cases h

theorem join_step (hinv : Inv n σ) (h : Threads.join n σ = some σ') : Inv n σ' := by
  unfold Inv at hinv
  unfold join at h
  split at h
  · rename_i i hmain
    split at h
    · cases h
      rw [hmain] at hinv
      simp only [Inv, resume_afterJoin]
      exact invAt_afterJoin (hinv.imp id fun hend => ⟨hend.each, hend.fresh⟩)
    · cases h
  · cases h

theorem create_step {ok : Bool} (hinv : Inv n σ) (h : Threads.create true n ok σ = some σ') :
    Inv n σ' := by
  unfold Inv at hinv
  unfold create at h
  split at h
  · rename_i i hmain
    rw [hmain] at hinv
    obtain ⟨hi, hsetup⟩ := hinv
    split at h
    · cases h
      simp only [Inv, resume_afterCreate]
      exact invAt_afterCreate (hsetup.create hi (Or.inl ⟨rfl, rfl⟩)).withMain
    · obtain ⟨qc, hq, rfl⟩ := Option.map_eq_some_iff.1 h
      unfold pcqEnqueue at hq
      split at hq
      · cases hq
      · cases hq
        simp only [Inv, resume_afterCreate]
        exact invAt_afterCreate (hsetup.create hi (Or.inr ⟨rfl, rfl⟩)).withMain
  · cases h

theorem edit_step {ok : Bool} (hinv : Inv n σ) (h : Threads.edit n ok σ = some σ') : Inv n σ' := by
  unfold Inv at hinv
  unfold edit at h
  split at h
  · rename_i num hmain
    rw [hmain] at hinv
    obtain ⟨hpos, hidle⟩ := hinv
    cases h
    simp only [Inv, resume_afterSend]
    cases ok with
    | true => exact invAt_afterSend hidle.edit (Nat.zero_le _) hpos
    | false =>
        rw [afterSend, if_pos hpos]
        rfl
  · cases h

/-- The other steps of the main thread. -/
theorem main_step (hinv : Inv n σ) (h : step true n a σ = some σ')
    (ha : a = .count ∨ a = .send ∨ a = .reap ∨ a = .join ∨ (∃ ok, a = .create ok) ∨
      ∃ ok, a = .edit ok) : Inv n σ' := by
  rcases ha with rfl | rfl | rfl | rfl | ⟨ok, rfl⟩ | ⟨ok, rfl⟩
  · exact count_step hinv h
  · exact send_step hinv h
  · exact reap_step hinv h
  · exact join_step hinv h
  · exact create_step hinv h
  · exact edit_step hinv h

/-! ## Runs -/

/-- **An orderly step keeps the invariant.** -/
theorem inv_step (hinv : Inv n σ) (ho : Orderly a σ) (h : step true n a σ = some σ') :
    Inv n σ' := by
  rcases thread_cases h with ⟨t, th, hm, rfl⟩ | ⟨t, again, rfl, hpc, rfl⟩ |
    ⟨t, succ, qp, rfl, hpc, hqp, rfl⟩ | ha
  · exact InvAt.move hinv hm
  · exact InvAt.report hinv hpc
  · have hnext := InvAt.take hinv ho hpc hqp
    cases succ with
    | true => exact hnext
    | false => exact hnext
  · by_cases hrecv : a = .recv
    · subst hrecv
      exact (recv_step hinv ho h).1
    · refine main_step hinv h ?_
      rcases ha with ha | ha | ha | ha | ha | ha | ha
      · exact Or.inl ha
      · exact Or.inr (Or.inl ha)
      · exact absurd ha hrecv
      · exact Or.inr (Or.inr (Or.inl ha))
      · exact Or.inr (Or.inr (Or.inr (Or.inl ha)))
      · exact Or.inr (Or.inr (Or.inr (Or.inr (Or.inl ha))))
      · exact Or.inr (Or.inr (Or.inr (Or.inr (Or.inr ha))))

theorem inv_run (h : Reach (step true n) Orderly (System.start true n) σ) : Inv n σ := by
  refine h.invariant inv_start ?_
  intro a σ σ' hinv ho hstep
  exact inv_step hinv ho hstep

theorem Inv.loopOver (h : Inv n σ) (hover : σ.main.LoopOver) :
    σ.aborted = true ∨ ∀ t < n, (σ.thds t).state ≠ some .retry := by
  unfold Inv at h
  unfold Main.LoopOver at hover
  have hend : EndInv n σ → ∀ t < n, (σ.thds t).state ≠ some .retry := by
    intro hend t ht
    exact (hend.each t ht).state
  split at hover
  · rename_i hmain
    rw [hmain] at h
    exact h.imp id hend
  · rename_i hmain
    rw [hmain] at h
    exact h.imp id hend
  · exact hover.elim

/-- **In every orderly run** each round gives every live thread exactly one go-ahead and takes
exactly one result of each, and the loop ends only when no thread needs a retry, or when the editor
has failed and the threads are told to stop. -/
theorem orderly_rounds (hrun : Reach (step true n) Orderly (System.start true n) σ) :
    (∀ σ', Orderly .recv σ → step true n .recv σ = some σ' → σ'.main.RoundOver →
      RoundDone n σ') ∧
    (σ.main.LoopOver → σ.aborted = true ∨ ∀ t < n, (σ.thds t).state ≠ some .retry) := by
  have hinv := inv_run hrun
  refine ⟨?_, hinv.loopOver⟩
  intro σ' ho hstep hover
  exact (recv_step hinv ho hstep).2 hover

/-- Two files: the set-up, and a round in which both threads push and report. -/
def twoFiles (ret₀ ret₁ : PushRet) : List Act :=
  [.create true, .create true, .setup 0 true, .setup 1 true, .report 0, .report 1, .count, .count,
    .edit true, .send, .send, .take 0, .take 1, .push 0 ret₀, .push 1 ret₁]

/-- Thread 0 needs a retry, thread 1 is through and is the last one dequeued. -/
theorem orderly_rounds_two : ∃ σ σ', runGuarded (step true 2) Orderly
      (twoFiles .retry .ok ++ [.report 1, .report 0, .recv]) (System.start true 2) = some σ ∧
    step true 2 .recv σ = some σ' ∧ σ'.main = .edit 1 ∧ RoundDone 2 σ' := by
  have hrun : ((runGuarded (step true 2) Orderly
      (twoFiles .retry .ok ++ [.report 1, .report 0, .recv]) (System.start true 2)).bind
      fun σ => (step true 2 .recv σ).map fun σ' => (decide (Orderly .recv σ), σ'.main)) =
      some (true, .edit 1) := by
    decide +kernel
  obtain ⟨σ, hrun, hmap⟩ := Option.bind_eq_some_iff.1 hrun
  obtain ⟨σ', hstep, heq⟩ := Option.map_eq_some_iff.1 hmap
  simp only [Prod.mk.injEq, decide_eq_true_eq] at heq
  refine ⟨σ, σ', hrun, hstep, heq.2, ?_⟩
  refine (orderly_rounds (reach_of_runGuarded hrun)).1 σ' heq.1 hstep ?_
  rw [heq.2]
  trivial

/-- Thread 1 is through and is dequeued first: the loop ends, thread 0 waits for ever. -/
theorem early_success_strands : ∃ σ σ',
    Reach (step true 2) (fun _ _ => True) (System.start true 2) σ ∧
    step true 2 .recv σ = some σ' ∧ σ'.main = .join 0 ∧ σ'.aborted = false ∧ σ'.qc = [0] ∧
      (σ'.thds 0).state = some .retry ∧ ¬ RoundDone 2 σ' := by
  have hrun : ((runGuarded (step true 2) (fun _ _ => True)
      (twoFiles .retry .ok ++ [.report 0, .report 1]) (System.start true 2)).bind
      fun σ => (step true 2 .recv σ).map fun σ' => (σ'.main, σ'.aborted, σ'.qc,
        (σ'.thds 0).state, decide (0 ∈ σ'.live ∧ σ'.res 0 = 0))) =
      some (.join 0, false, [0], some .retry, true) := by
    decide +kernel
  obtain ⟨σ, hrun, hmap⟩ := Option.bind_eq_some_iff.1 hrun
  obtain ⟨σ', hstep, heq⟩ := Option.map_eq_some_iff.1 hmap
  simp only [Prod.mk.injEq, decide_eq_true_eq] at heq
  obtain ⟨hmain, hab, hqc, hstate, hlive, hres⟩ := heq
  refine ⟨σ, σ', reach_of_runGuarded hrun, hstep, hmain, hab, hqc, hstate, ?_⟩
  rintro ⟨_, hdone⟩
  have := (hdone 0 (by decide)).2
  rw [if_pos hlive, hres] at this
  cases this

end Threads

end Yacet
