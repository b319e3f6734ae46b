import Yacet.ThreadTokens

/-!
# `prepare_file_threads` can always come to its end

* `Flow.thread` — a thread that does not wait at `global_qp` can go on.
* `Flow.goes_on` — the main thread can go on, or a thread that it waits for can.
* `can_return` — in every run, orderly or not, single or multiple mode, whatever has happened so
  far, the main thread can return.
-/

namespace Yacet

open Steps

namespace Threads

variable {mult : Bool} {n t i c num : ℕ} {σ σ' : System} {th : Thd}

/-! ## What is left to do -/

/-- What is left to a thread. -/
def Pc.rank : Pc → ℕ
  | .absent => 0
  | .exited => 0
  | .exiting => 1
  | .solo => 2
  | .report false => 2
  | .push => 3
  | .wait => 4
  | .report true => 5
  | .setup => 6

/-- What is left to the main thread when the editor fails at the next call. -/
def Main.rank (n : ℕ) : Main → ℕ
  | .create c => 4 * (n + 1) + (n - c)
  | .count i _ => 2 * (n + 1) + 2 * (n - i)
  | .edit _ => 2 * (n + 1)
  | .send true i num => 4 * (n + 1) + (num - i)
  | .send false i num => n + 1 + (num - i)
  | .recv _ i num => 2 * (n + 1) + 2 * (num - i)
  | .reap _ next => next.rank n + 1
  | .join i => n - i + 1
  | .returned _ => 0

open Finset in
def left (n : ℕ) (σ : System) : ℕ :=
  7 * σ.main.rank n + ∑ t ∈ range n, (σ.thds t).pc.rank

theorem rank_afterJoin : (afterJoin n i).rank n ≤ n - i + 1 := by
  unfold afterJoin
  split <;> simp [Main.rank]

theorem rank_afterRecv (n : ℕ) (succ : Bool) (i num : ℕ) :
    (afterRecv n succ i num).rank n ≤ 2 * (n + 1) + 2 * (num - i) := by
  unfold afterRecv
  split
  · simp [Main.rank]
  · split
    · simp [Main.rank]
    · have := rank_afterJoin (n := n) (i := 0)
      omega

theorem rank_afterSend (succ : Bool) (i : ℕ) (hnum : num ≤ n) : (afterSend n succ i num).rank n ≤
    (if succ then 4 * (n + 1) else n + 1) + (num - i) := by
  unfold afterSend
  split
  · cases succ <;> simp [Main.rank]
  · split
    · have := rank_afterRecv n false 0 num
      omega
    · have := rank_afterJoin (n := n) (i := 0)
      omega

theorem rank_afterCount (mult : Bool) (n i num : ℕ) :
    (afterCount mult n i num).rank n ≤ 2 * (n + 1) + 2 * (n - i) := by
  unfold afterCount
  split
  · simp [Main.rank]
  · split
    · split
      · simp [Main.rank]
      · have := rank_afterJoin (n := n) (i := 0)
        omega
    · simp [Main.rank]

theorem rank_afterCreate (mult : Bool) (hc : c < n) :
    (afterCreate mult n (c + 1)).rank n < 4 * (n + 1) + (n - c) := by
  unfold afterCreate
  split
  · simp only [Main.rank]
    omega
  · have := rank_afterCount mult n 0 0
    omega

/-- The step of a thread lowers what is left. -/
theorem left_thd (ht : t < n) (hthds : σ'.thds = Function.update σ.thds t th)
    (hmain : σ'.main = σ.main) (hlt : th.pc.rank < (σ.thds t).pc.rank) : left n σ' < left n σ := by
  have hsum := sum_turn ht (f := fun u => (σ.thds u).pc.rank) (g := fun u => (σ'.thds u).pc.rank)
    fun u hu => by rw [hthds, Function.update_of_ne hu]
  rw [hthds, Function.update_self, ← hthds] at hsum
  unfold left
  rw [hmain]
  omega

/-- **A thread that does not wait can go on.** -/
theorem Flow.thread (hs : Flow mult n σ) (habs : (σ.thds t).pc ≠ .absent)
    (hex : (σ.thds t).pc ≠ .exited) (hwait : (σ.thds t).pc = .wait → σ.qp ≠ []) :
    ∃ a σ', step mult n a σ = some σ' ∧ left n σ' < left n σ := by
  have htn : t < n := by
    by_contra hlt
    exact habs (hs.fresh t (by omega))
  cases hpc : (σ.thds t).pc with
  | absent => exact absurd hpc habs
  | exited => exact absurd hpc hex
  | setup =>
      refine ⟨.setup t false, _, by simp only [step, setup, hpc]; rfl, ?_⟩
      refine left_thd htn rfl rfl ?_
      simp [hpc, Pc.rank]
  | report again =>
      have hroom := hs.room hpc
      have henq : pcqEnqueue n σ.qc t = some (t :: σ.qc) := by
        rw [pcqEnqueue, if_neg (by omega)]
      refine ⟨.report t, _, by simp only [step, report, hpc, henq]; rfl, ?_⟩
      refine left_thd htn rfl rfl ?_
      rw [hpc]
      cases again <;> cases mult <;> simp [Pc.rank]
  | wait =>
      obtain ⟨b, qp, hqp⟩ := List.exists_cons_of_ne_nil (hwait hpc)
      refine ⟨.take t, _, by simp only [step, take, hpc, hqp]; rfl, ?_⟩
      cases b
      all_goals
        refine left_thd htn rfl rfl ?_
        simp [hpc, Pc.rank]
  | push =>
      refine ⟨.push t .ok, _, by simp only [step, push, hpc]; rfl, ?_⟩
      refine left_thd htn rfl rfl ?_
      simp [hpc, Pc.rank]
  | solo =>
      refine ⟨.push t .ok, _, by simp only [step, push, hpc]; rfl, ?_⟩
      refine left_thd htn rfl rfl ?_
      simp [hpc, Pc.rank]
  | exiting =>
      refine ⟨.exit t, _, by simp only [step, exit, hpc]; rfl, ?_⟩
      refine left_thd htn rfl rfl ?_
      simp [hpc, Pc.rank]

theorem left_main (hthds : σ'.thds = σ.thds) (hlt : σ'.main.rank n < σ.main.rank n) :
    left n σ' < left n σ := by
  unfold left
  rw [hthds]
  omega

/-- With a token left and nothing on the queues a thread is at work. -/
theorem Flow.working (hs : Flow mult n σ) (htok : 0 < tokens n σ) (hqp : σ.qp = [])
    (hqc : σ.qc = []) : ∃ a σ', step mult n a σ = some σ' ∧ left n σ' < left n σ := by
  have hsum : ∑ t ∈ Finset.range n, (σ.thds t).pc.load ≠ 0 := by
    simp only [tokens, hqp, hqc, List.length_nil] at htok
    omega
  obtain ⟨t, -, hload⟩ := Finset.exists_ne_zero_of_sum_ne_zero hsum
  apply hs.thread (t := t)
  · intro hpc
    exact hload (by rw [hpc]; rfl)
  · intro hpc
    exact hload (by rw [hpc]; rfl)
  · intro hpc
    exact absurd (by rw [hpc]; rfl) hload

/-- While a result is missing, a thread is at work or can take a go-ahead. -/
theorem Flow.serving (hs : Flow mult n σ) (htok : 0 < tokens n σ) (heng : 0 < (engaged n σ).card)
    (hqc : σ.qc = []) : ∃ a σ', step mult n a σ = some σ' ∧ left n σ' < left n σ := by
  by_cases hqp : σ.qp = []
  · exact hs.working htok hqp hqc
  · obtain ⟨t, ht⟩ := Finset.card_pos.1 heng
    have hpc := (Finset.mem_filter.1 ht).2.resolve_right (by rw [hqc]; exact List.not_mem_nil)
    apply hs.thread (t := t)
    · intro h
      rw [h] at hpc
      rcases hpc with hpc | hpc <;> cases hpc
    · intro h
      rw [h] at hpc
      rcases hpc with hpc | hpc <;> cases hpc
    · exact fun _ => hqp

theorem Placed.ok {stop : Bool} (h : Placed mult stop th) (hs : th.state = some .ok) :
    th.pc ≠ .absent ∧ th.pc ≠ .wait := by
  cases h with
  | solo _ hpc => rcases hpc with rfl | rfl <;> exact ⟨nofun, nofun⟩
  | ending _ hpc => rcases hpc with rfl | rfl | rfl <;> exact ⟨nofun, nofun⟩
  | _ => cases hs

/-- **The main thread can go on, or a thread that it waits for can.** -/
theorem Flow.goes_on (hs : Flow mult n σ) (hret : ∀ ret, σ.main ≠ .returned ret) :
    ∃ a σ', step mult n a σ = some σ' ∧ left n σ' < left n σ := by
  have hbudget := hs.budget
  cases hmain : σ.main with
  | create c =>
      rw [hmain] at hbudget
      obtain ⟨hc, -, -, -, hfresh⟩ := hbudget
      refine ⟨.create true, _, by simp only [step, create, hmain]; rfl, ?_⟩
      have hsum := sum_turn hc (f := fun u => (σ.thds u).pc.rank)
        (g := fun u => ((σ.setThd c ⟨none, .setup⟩).thds u).pc.rank) fun u hu => by
          rw [setThd_of_ne σ hu]
      have hrank := rank_afterCreate mult hc
      have hsetup : (⟨none, .setup⟩ : Thd).pc.rank = 6 := rfl
      have habsent : (σ.thds c).pc.rank = 0 := by
        rw [hfresh c (Nat.le_refl c)]
        rfl
      rw [setThd_self] at hsum
      simp only [left, hmain, Main.rank]
      omega
  | count i num =>
      rw [hmain] at hbudget
      obtain ⟨hi, hopen, htok, -⟩ := hbudget
      cases hqc : σ.qc with
      | nil => exact hs.working (by omega) hopen.qp hqc
      | cons t qc =>
          refine ⟨.count, _, by simp only [step, count, hmain, hqc]; rfl, ?_⟩
          refine left_main rfl ?_
          have := rank_afterCount mult n (i + 1) num
          have := rank_afterCount mult n (i + 1) (num + 1)
          simp only [hmain, Main.rank]
          split
          · simp only [Main.rank]
            omega
          · omega
          · omega
  | edit num =>
      rw [hmain] at hbudget
      obtain ⟨-, htok, -⟩ := hbudget
      refine ⟨.edit false, _, by simp only [step, edit, hmain]; rfl, ?_⟩
      refine left_main rfl ?_
      have := rank_afterSend false 0 (show num ≤ n by omega)
      rw [if_neg Bool.false_ne_true] at this
      simp only [hmain, Main.rank]
      omega
  | send succ i num =>
      have hroom := hs.room_send hmain
      have henq : pcqEnqueue n σ.qp succ = some (succ :: σ.qp) := by
        rw [pcqEnqueue, if_neg (by omega)]
      refine ⟨.send, _, by simp only [step, send, hmain, henq]; rfl, ?_⟩
      refine left_main rfl ?_
      rw [hmain] at hbudget
      cases succ with
      | true =>
          obtain ⟨hi, -, htok, hsent, -⟩ := hbudget
          have := rank_afterSend true (i + 1) (show num ≤ n by omega)
          rw [if_pos rfl] at this
          simp only [hmain, Main.rank]
          omega
      | false =>
          obtain ⟨hi, -, hnum, -⟩ := hbudget
          have := rank_afterSend false (i + 1) hnum
          rw [if_neg Bool.false_ne_true] at this
          simp only [hmain, Main.rank]
          omega
  | recv succ i num =>
      rw [hmain] at hbudget
      obtain ⟨hi, -, htok, hmost, heng⟩ := hbudget
      cases hqc : σ.qc with
      | nil => exact hs.serving (by omega) (by omega) hqc
      | cons t qc =>
          refine ⟨.recv, _, by simp only [step, recv, hmain, hqc]; rfl, ?_⟩
          refine left_main rfl ?_
          have := rank_afterRecv n true (i + 1) num
          have := rank_afterRecv n succ (i + 1) (num - 1)
          simp only [hmain, Main.rank]
          split
          · omega
          · simp only [Main.rank]
            omega
          · omega
  | reap t next =>
      obtain ⟨hend, -⟩ := hs.awaited t next hmain
      by_cases hpc : (σ.thds t).pc = .exited
      · refine ⟨.reap, _, by simp only [step, reap, hmain, if_pos hpc]; rfl, ?_⟩
        refine left_main rfl ?_
        simp [hmain, Main.rank]
      · apply hs.thread (t := t)
        · rintro h
          rw [h] at hend
          rcases hend with h | h | h <;> cases h
        · exact hpc
        · rintro h
          rw [h] at hend
          rcases hend with h | h | h <;> cases h
  | join i =>
      by_cases hok : (σ.thds i).state = some .ok → (σ.thds i).pc = .exited
      · refine ⟨.join, _, by simp only [step, join, hmain, if_pos hok]; rfl, ?_⟩
        refine left_main rfl ?_
        have := rank_afterJoin (n := n) (i := i + 1)
        rw [hmain] at hbudget
        have := hbudget.1
        simp only [hmain, Main.rank]
        omega
      · rw [Classical.not_imp] at hok
        obtain ⟨hstate, hpc⟩ := hok
        obtain ⟨habs, hwait⟩ := (hs.placed i).ok hstate
        exact hs.thread habs hpc fun h => absurd h hwait
  | returned ret => exact absurd hmain (hret ret)

/-- **`prepare_file_threads` can always return**, single or multiple mode, whatever the threads, the
editor and the pushes have done so far: nobody is in a deadlock, and nobody can be led into one. -/
theorem can_return (hrun : Reach (step mult n) (fun _ _ => True) (System.start mult n) σ) :
    ∃ σ', Reach (step mult n) (fun _ _ => True) σ σ' ∧ ∃ ret, σ'.main = .returned ret := by
  refine exists_reach_of_measure (left n) (fun σ hs hgoal => ?_) (flow_run hrun)
  obtain ⟨a, σ', hstep, hlt⟩ := hs.goes_on fun ret hret => hgoal ⟨ret, hret⟩
  exact ⟨a, σ', trivial, hstep, flow_step hs hstep, hlt⟩

/-- Two files, one push succeeds and the other is to be repeated; the successful one is dequeued
first, and the main thread is about to leave the loop with a thread unserved. -/
theorem can_return_unserved : ∃ σ σ',
    Reach (step true 2) (fun _ _ => True) (System.start true 2) σ ∧
      σ.main = .recv false 0 2 ∧ σ.qc = [1, 0] ∧ (σ.thds 1).state = some .ok ∧
      Reach (step true 2) (fun _ _ => True) σ σ' ∧ ∃ ret, σ'.main = .returned ret := by
  have hrun : (runGuarded (step true 2) (fun _ _ => True)
      (twoFiles .retry .ok ++ [.report 0, .report 1]) (System.start true 2)).map
        (fun σ => (σ.main, σ.qc, (σ.thds 1).state)) = some (.recv false 0 2, [1, 0], some .ok) := by
    decide +kernel
  obtain ⟨σ, hrun, heq⟩ := Option.map_eq_some_iff.1 hrun
  simp only [Prod.mk.injEq] at heq
  obtain ⟨σ', hreach, hret⟩ := can_return (reach_of_runGuarded hrun)
  exact ⟨σ, σ', reach_of_runGuarded hrun, heq.1, heq.2.1, heq.2.2, hreach, hret⟩

end Threads

end Yacet
