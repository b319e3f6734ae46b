import Yacet.Threads

/-!
# What `prepare_file_threads` leaves behind

When the main thread returns, the array of the threads is freed and both queues are destroyed.

* `Reaped` — in multiple mode the final loop comes to no thread that needs a retry, and to a
  terminated one only when its record has been dequeued.
* `Tracks` — what holds between the main thread and the threads from the creation to the return.
* `returned_quiet` — in every run whose final loop is so, single or multiple mode, every thread has
  returned before the main thread does, and no step is left to anyone.
* `abort_leaves_thread` — the editor fails: the thread that is told to stop is not joined.
-/

namespace Yacet

open Steps

namespace Threads

/-! ## The end of a thread -/

/-- The thread has returned, or was never created. -/
def Gone (th : Thd) : Prop := th.pc = .absent ∨ th.pc = .exited

/-- Nobody uses the array, the queues or a `range_file`, now or later. -/
def Quiet (mult : Bool) (n : ℕ) (σ : System) : Prop :=
  (∀ t, Gone (σ.thds t)) ∧ ∀ a, step mult n a σ = none

/-- The thread that the final loop has come to, in front of its next step. -/
def joining : Act → Main → Option ℕ
  | .join, .join i => some i
  | _, _ => none

/-- The thread that the final loop comes to in multiple mode does not need a retry, and if it has
terminated, its record has been dequeued. -/
def Reaped (mult : Bool) (a : Act) (σ : System) : Prop :=
  ∀ i ∈ joining a σ.main, mult = true → (σ.thds i).state ≠ some .retry ∧
    ((σ.thds i).state = some .terminated → (σ.thds i).pc ≠ .report false ∧ i ∉ σ.qc)

instance (mult : Bool) (a : Act) (σ : System) : Decidable (Reaped mult a σ) := by
  unfold Reaped
  infer_instance

/-- The main thread waits in `pthread_join` for thread `t`. -/
def System.Awaits (σ : System) (t : ℕ) : Prop := ∃ next, σ.main = .reap t next

/-! ## Steps of a thread -/

/-- What a thread may become, and whether it puts its record on `global_qc`. -/
inductive Goes (mult : Bool) (qp : List Bool) : Thd → Bool → Thd → Prop
  | pulled {s} :
    Goes mult qp ⟨s, .setup⟩ false ⟨some (if mult then .retry else .ok), .report true⟩
  | failed {s} : Goes mult qp ⟨s, .setup⟩ false ⟨some .terminated, .report false⟩
  | report {s again} : Goes mult qp ⟨s, .report again⟩ true
      ⟨s, if again then if mult then .wait else .solo else .exiting⟩
  | take {s pc} (hqp : qp ≠ []) (hpc : pc = .push ∨ pc = .exiting) :
    Goes mult qp ⟨s, .wait⟩ false ⟨s, pc⟩
  | pushed {s} : Goes mult qp ⟨s, .push⟩ false ⟨some .ok, .report false⟩
  | retry {s} : Goes mult qp ⟨s, .push⟩ false ⟨s, .report true⟩
  | terminated {s} : Goes mult qp ⟨s, .push⟩ false ⟨some .terminated, .report false⟩
  | solo {s pc} (hpc : pc = .solo ∨ pc = .exiting) : Goes mult qp ⟨s, .solo⟩ false ⟨s, pc⟩
  | exit {s} : Goes mult qp ⟨s, .exiting⟩ false ⟨s, .exited⟩

variable {mult : Bool} {n t i c num : ℕ} {σ σ' : System} {a : Act} {th th' : Thd} {r : Bool}
  {qp : List Bool} {q q' w w' : Prop}

/-- Thread `t` takes a step; the main thread stays where it is. -/
structure Moved (mult : Bool) (σ : System) (t : ℕ) (σ' : System) : Prop where
  goes : ∃ r, Goes mult σ.qp (σ.thds t) r (σ'.thds t) ∧ σ'.qc = if r then t :: σ.qc else σ.qc
  others : ∀ u, u ≠ t → σ'.thds u = σ.thds u
  main : σ'.main = σ.main
  res : σ'.res = σ.res
  qp : σ.qp = [] → σ'.qp = []

theorem Moved.setThd (h : Goes mult σ.qp (σ.thds t) false th) : Moved mult σ t (σ.setThd t th) := by
  refine ⟨⟨false, ?_, rfl⟩, fun u hu => setThd_of_ne σ hu th, rfl, rfl, id⟩
  rwa [setThd_self]

theorem thd_eq {pc : Pc} (h : th.pc = pc) : th = ⟨th.state, pc⟩ := by
  rw [← h]

/-- A step is a thread's or the main thread's. -/
theorem step_moved (h : step mult n a σ = some σ') :
    (∃ t, Moved mult σ t σ') ∨ (∃ ok, a = .create ok) ∨ a = .count ∨ (∃ ok, a = .edit ok) ∨
      a = .send ∨ a = .recv ∨ a = .reap ∨ a = .join := by
  cases a with
  | setup t ok =>
      simp only [step, setup] at h
      split at h
      · rename_i hpc
        cases h
        refine Or.inl ⟨t, Moved.setThd ?_⟩
        rw [thd_eq hpc]
        cases ok
        · exact Goes.failed
        · exact Goes.pulled
      · cases h
  | report t =>
      simp only [step, report] at h
      split at h
      · rename_i again hpc
        obtain ⟨qc, hqc, rfl⟩ := Option.map_eq_some_iff.1 h
        unfold pcqEnqueue at hqc
        split at hqc
        · cases hqc
        · cases hqc
          refine Or.inl ⟨t, ⟨true, ?_, rfl⟩, fun u hu => setThd_of_ne σ hu _, rfl, rfl, id⟩
          simp only [setThd_self]
          nth_rewrite 1 [thd_eq hpc]
          exact Goes.report
      · cases h
  | take t =>
      simp only [step, take] at h
      split at h
      · rename_i hpc
        obtain ⟨⟨succ, qp⟩, hqp, rfl⟩ := Option.map_eq_some_iff.1 h
        have hne : σ.qp ≠ [] := by
          rw [pcqDequeue_some hqp]
          exact List.cons_ne_nil _ _
        cases succ
        all_goals
          refine Or.inl ⟨t, ⟨false, ?_, rfl⟩, fun u hu => setThd_of_ne σ hu _, rfl, rfl,
            fun hnil => absurd hnil hne⟩
          simp only [Bool.false_eq_true, if_true, if_false, setThd_self]
          nth_rewrite 1 [thd_eq hpc]
          apply Goes.take hne
          simp
      · cases h
  | push t ret =>
      simp only [step, push] at h
      split at h
      all_goals first
        | cases h
          done
        | skip
      · rename_i hpc
        cases h
        refine Or.inl ⟨t, Moved.setThd ?_⟩
        rw [thd_eq hpc]
        exact Goes.pushed
      · rename_i hpc
        cases h
        refine Or.inl ⟨t, Moved.setThd ?_⟩
        nth_rewrite 1 [thd_eq hpc]
        exact Goes.retry
      · rename_i hpc
        cases h
        refine Or.inl ⟨t, Moved.setThd ?_⟩
        rw [thd_eq hpc]
        exact Goes.terminated
      · rename_i hpc
        cases h
        refine Or.inl ⟨t, ⟨false, ?_, rfl⟩, fun u _ => rfl, rfl, rfl, id⟩
        rw [thd_eq hpc]
        exact Goes.solo (Or.inl rfl)
      · rename_i hpc _
        cases h
        refine Or.inl ⟨t, Moved.setThd ?_⟩
        nth_rewrite 1 [thd_eq hpc]
        exact Goes.solo (Or.inr rfl)
  | exit t =>
      simp only [step, exit] at h
      split at h
      · rename_i hpc
        cases h
        refine Or.inl ⟨t, Moved.setThd ?_⟩
        nth_rewrite 1 [thd_eq hpc]
        exact Goes.exit
      · cases h
  | create ok => exact Or.inr (Or.inl ⟨ok, rfl⟩)
  | count => simp
  | edit ok => simp
  | send => simp
  | recv => simp
  | reap => simp
  | join => simp

/-! ## What holds of one thread -/

/-- What the state of a thread says about it; `q`: its record is on `global_qc`; `w`: the main
thread waits for its end. -/
structure Sane (mult : Bool) (q w : Prop) (th : Thd) : Prop where
  failed : th.state = some .failed → th.pc = .absent
  terminated : th.state = some .terminated → th.pc = .report false ∨ q ∨ w ∨ th.pc = .exited
  single : mult = false → th.state ≠ some .retry

/-- The thread has reported the result of its set-up, or was never created. -/
structure Reported (mult : Bool) (th : Thd) : Prop where
  state : th.state ≠ none
  pc : th.pc = .absent ∨ (mult = true ∧ th.pc = .wait) ∨ th.pc = .solo ∨ th.pc = .exiting ∨
    th.pc = .exited

/-- The thread has yet to report the result of its set-up. -/
def Unreported (th : Thd) : Prop :=
  th.pc = .setup ∨ (th.state ≠ none ∧ ∃ again, th.pc = .report again)

/-- A thread reports once in the set-up; `r` counts the results dequeued. -/
inductive Counted (mult : Bool) (q : Prop) (r : ℕ) (th : Thd) : Prop
  | before (h : Unreported th) (hq : ¬ q) (hr : r = 0)
  | queued (h : Reported mult th) (hq : q) (hr : r = 0)
  | after (h : Reported mult th) (hq : ¬ q) (hr : r = 1)

theorem Gone.not_goes (h : Gone th) : ¬ Goes mult qp th r th' := by
  intro hgoes
  rcases h with h | h <;> cases hgoes <;> cases h

theorem Sane.goes (h : Sane mult q w th) (hgoes : Goes mult qp th r th') (hr : r = true → q')
    (hq : q → q') : Sane mult q' w th' := by
  have hcarry : ∀ {s : Option ThdState} {pc pc' : Pc}, Sane mult q w ⟨s, pc⟩ → pc ≠ .absent →
      (pc = .report false → q') → pc ≠ .exited → Sane mult q' w ⟨s, pc'⟩ := by
    intro s pc pc' h habs hrep hex
    refine ⟨fun hs => absurd (h.failed hs) habs, fun hs => ?_, h.single⟩
    rcases h.terminated hs with hpc | hpc | hpc | hpc
    · exact Or.inr (Or.inl (hrep hpc))
    · exact Or.inr (Or.inl (hq hpc))
    · exact Or.inr (Or.inr (Or.inl hpc))
    · exact absurd hpc hex
  cases hgoes with
  | pulled => cases mult <;> exact ⟨nofun, nofun, nofun⟩
  | failed => exact ⟨nofun, fun _ => Or.inl rfl, fun _ => nofun⟩
  | report => exact hcarry h nofun (fun _ => hr rfl) nofun
  | take => exact hcarry h nofun nofun nofun
  | pushed => exact ⟨nofun, nofun, fun _ => nofun⟩
  | retry => exact hcarry h nofun nofun nofun
  | terminated => exact ⟨nofun, fun _ => Or.inl rfl, fun _ => nofun⟩
  | solo => exact hcarry h nofun nofun nofun
  | exit => exact hcarry h nofun nofun nofun

/-- The main thread dequeues a record or gets on with its loops. -/
theorem Sane.mono (h : Sane mult q w th)
    (hqw : th.state = some .terminated → q ∨ w → q' ∨ w' ∨ th.pc = .exited) :
    Sane mult q' w' th := by
  refine ⟨h.failed, fun hs => ?_, h.single⟩
  rcases h.terminated hs with hpc | hq | hw | hpc
  · exact Or.inl hpc
  · exact Or.inr (hqw hs (Or.inl hq))
  · exact Or.inr (hqw hs (Or.inr hw))
  · exact Or.inr (Or.inr (Or.inr hpc))

theorem Goes.state_ne_none (h : Goes mult qp th r th') (hs : th.state ≠ none) :
    th'.state ≠ none := by
  cases h with
  | pulled => nofun
  | failed => nofun
  | report => exact hs
  | take => exact hs
  | pushed => nofun
  | retry => exact hs
  | terminated => nofun
  | solo => exact hs
  | exit => exact hs

/-- Nothing that has reported reports again before the first go-ahead, in single mode never. -/
theorem Reported.goes (h : Reported mult th) (hgoes : Goes mult qp th r th')
    (hqp : mult = true → qp = []) : r = false ∧ Reported mult th' ∧ th'.state = th.state := by
  obtain ⟨hs, hpc⟩ := h
  cases hgoes with
  | take hne =>
      rcases hpc with hpc | ⟨hm, -⟩ | hpc | hpc | hpc
      · cases hpc
      · exact absurd (hqp hm) hne
      all_goals cases hpc
  | solo hpc' =>
      refine ⟨rfl, ⟨hs, ?_⟩, rfl⟩
      rcases hpc' with rfl | rfl
      · exact Or.inr (Or.inr (Or.inl rfl))
      · exact Or.inr (Or.inr (Or.inr (Or.inl rfl)))
  | exit => exact ⟨rfl, ⟨hs, Or.inr (Or.inr (Or.inr (Or.inr rfl)))⟩, rfl⟩
  | pulled => rcases hpc with hpc | ⟨-, hpc⟩ | hpc | hpc | hpc <;> cases hpc
  | failed => rcases hpc with hpc | ⟨-, hpc⟩ | hpc | hpc | hpc <;> cases hpc
  | report => rcases hpc with hpc | ⟨-, hpc⟩ | hpc | hpc | hpc <;> cases hpc
  | pushed => rcases hpc with hpc | ⟨-, hpc⟩ | hpc | hpc | hpc <;> cases hpc
  | retry => rcases hpc with hpc | ⟨-, hpc⟩ | hpc | hpc | hpc <;> cases hpc
  | terminated => rcases hpc with hpc | ⟨-, hpc⟩ | hpc | hpc | hpc <;> cases hpc

theorem Unreported.goes (h : Unreported th) (hgoes : Goes mult qp th r th') :
    (r = false ∧ Unreported th') ∨ (r = true ∧ Reported mult th') := by
  cases hgoes with
  | pulled => exact Or.inl ⟨rfl, Or.inr ⟨nofun, true, rfl⟩⟩
  | failed => exact Or.inl ⟨rfl, Or.inr ⟨nofun, false, rfl⟩⟩
  | @report s again =>
      have hs : s ≠ none := by
        rcases h with h | h
        · cases h
        · exact h.1
      refine Or.inr ⟨rfl, hs, ?_⟩
      cases again <;> cases mult <;> simp
  | take => rcases h with h | ⟨-, _, h⟩ <;> cases h
  | pushed => rcases h with h | ⟨-, _, h⟩ <;> cases h
  | retry => rcases h with h | ⟨-, _, h⟩ <;> cases h
  | terminated => rcases h with h | ⟨-, _, h⟩ <;> cases h
  | solo => rcases h with h | ⟨-, _, h⟩ <;> cases h
  | exit => rcases h with h | ⟨-, _, h⟩ <;> cases h

namespace Counted

variable {k : ℕ}

theorem goes (h : Counted mult q k th) (hgoes : Goes mult qp th r th')
    (hqp : mult = true → qp = []) (hq : q' ↔ q ∨ r = true) : Counted mult q' k th' := by
  cases h with
  | before hu hnot hk =>
      rcases hu.goes hgoes with ⟨rfl, hu'⟩ | ⟨rfl, hrep⟩
      · exact before hu' (by simpa [hq] using hnot) hk
      · exact queued hrep (hq.2 (Or.inr rfl)) hk
  | queued hrep hon hk =>
      obtain ⟨rfl, hrep', -⟩ := hrep.goes hgoes hqp
      exact queued hrep' (hq.2 (Or.inl hon)) hk
  | after hrep hnot hk =>
      obtain ⟨rfl, hrep', -⟩ := hrep.goes hgoes hqp
      exact after hrep' (by simpa [hq] using hnot) hk

theorem reports (h : Counted mult q k th) (hgoes : Goes mult qp th true th')
    (hqp : mult = true → qp = []) : ¬ q := by
  cases h with
  | before _ hnot _ => exact hnot
  | queued hrep _ _ => cases (hrep.goes hgoes hqp).1
  | after hrep _ _ => cases (hrep.goes hgoes hqp).1

theorem dequeue (h : Counted mult q k th) (hon : q) (hq : ¬ q') :
    k = 0 ∧ Reported mult th ∧ Counted mult q' (k + 1) th := by
  cases h with
  | before _ hnot _ => exact absurd hon hnot
  | queued hrep _ hk => exact ⟨hk, hrep, after hrep hq (by rw [hk])⟩
  | after _ hnot _ => exact absurd hon hnot

theorem le_one (h : Counted mult q k th) : k ≤ 1 := by
  cases h with
  | before _ _ hk => omega
  | queued _ _ hk => omega
  | after _ _ hk => omega

theorem of_one (h : Counted mult q k th) (hk : k = 1) : Reported mult th ∧ ¬ q := by
  cases h with
  | before _ _ h0 => omega
  | queued _ _ h0 => omega
  | after hrep hnot _ => exact ⟨hrep, hnot⟩

end Counted

/-! ## The invariant -/

open Finset in
/-- The threads below `c` have been created and `i` of their results counted, `num` of them good. -/
structure Setup (mult : Bool) (n c i num : ℕ) (σ : System) : Prop where
  le : c ≤ n
  qp : σ.qp = []
  nodup : σ.qc.Nodup
  lt : ∀ t ∈ σ.qc, t < c
  created : ∀ t < c, Counted mult (t ∈ σ.qc) (σ.res t) (σ.thds t)
  fresh : ∀ t, c ≤ t → (σ.thds t).pc = .absent ∧ σ.res t = 0
  sum : ∑ t ∈ range n, σ.res t = i
  good : num = 0 → ∀ t < c, σ.res t = 1 →
    (σ.thds t).state = some .terminated ∨ (σ.thds t).state = some .failed

/-- The set-up is over. -/
structure Ready (mult : Bool) (n : ℕ) (σ : System) : Prop where
  state : ∀ t < n, (σ.thds t).state ≠ none
  single : mult = false → σ.qc = [] ∧ ∀ t < n, Reported mult (σ.thds t)

def PhaseAt (mult : Bool) (n : ℕ) (σ : System) : Main → Prop
  | .create c => c < n ∧ Setup mult n c 0 0 σ
  | .count i num => i < n ∧ Setup mult n n i num σ
  | .edit _ => mult = true ∧ Ready mult n σ
  | .send _ _ _ => mult = true ∧ Ready mult n σ
  | .recv _ _ _ => mult = true ∧ Ready mult n σ
  | .reap _ _ => False
  | .join i => i < n ∧ Ready mult n σ ∧ ∀ t < i, Gone (σ.thds t)
  | .returned _ => ∀ t < n, Gone (σ.thds t) ∨ σ.Awaits t

structure Tracks (mult : Bool) (n : ℕ) (σ : System) : Prop where
  sane : ∀ t, Sane mult (t ∈ σ.qc) (σ.Awaits t) (σ.thds t)
  fresh : ∀ t, n ≤ t → (σ.thds t).pc = .absent
  phase : PhaseAt mult n σ σ.main.resume

/-! ## Steps of the threads -/

namespace Moved

variable (h : Moved mult σ t σ')
include h

theorem mem_qc_of_ne {u : ℕ} (hu : u ≠ t) : u ∈ σ'.qc ↔ u ∈ σ.qc := by
  obtain ⟨r, -, hqc⟩ := h.goes
  rw [hqc]
  cases r <;> simp [hu]

theorem awaits {u : ℕ} : σ'.Awaits u ↔ σ.Awaits u := by
  rw [System.Awaits, System.Awaits, h.main]

theorem gone {u : ℕ} (hu : Gone (σ.thds u)) : Gone (σ'.thds u) := by
  by_cases hut : u = t
  · subst hut
    obtain ⟨r, hgoes, -⟩ := h.goes
    exact absurd hgoes hu.not_goes
  · rw [h.others u hut]
    exact hu

theorem sane (hs : ∀ u, Sane mult (u ∈ σ.qc) (σ.Awaits u) (σ.thds u)) (u : ℕ) :
    Sane mult (u ∈ σ'.qc) (σ'.Awaits u) (σ'.thds u) := by
  rw [h.awaits]
  by_cases hut : u = t
  · subst hut
    obtain ⟨r, hgoes, hqc⟩ := h.goes
    apply (hs u).goes hgoes
    · intro hr
      rw [hqc, hr]
      exact List.mem_cons_self
    · intro hu
      rw [hqc]
      split
      · exact List.mem_cons_of_mem _ hu
      · exact hu
  · rw [h.others u hut, propext (h.mem_qc_of_ne hut)]
    exact hs u

theorem setup (hs : Setup mult n c i num σ) : Setup mult n c i num σ' := by
  obtain ⟨r, hgoes, hqc⟩ := h.goes
  have htc : t < c := by
    by_contra hlt
    exact (Gone.not_goes (Or.inl (hs.fresh t (by omega)).1)) hgoes
  have hqp : mult = true → σ.qp = [] := fun _ => hs.qp
  refine ⟨hs.le, h.qp hs.qp, ?_, ?_, fun u hu => ?_, fun u hu => ?_, ?_, fun hnum u hu hres => ?_⟩
  · rw [hqc]
    cases r with
    | false => exact hs.nodup
    | true => exact List.nodup_cons.2 ⟨(hs.created t htc).reports hgoes hqp, hs.nodup⟩
  · intro u hu
    by_cases hut : u = t
    · rw [hut]
      exact htc
    · exact hs.lt u ((h.mem_qc_of_ne hut).1 hu)
  · rw [h.res]
    by_cases hut : u = t
    · subst hut
      apply (hs.created u hu).goes hgoes hqp
      rw [hqc]
      cases r <;> simp
    · rw [h.others u hut, propext (h.mem_qc_of_ne hut)]
      exact hs.created u hu
  · rw [h.others u (by omega), h.res]
    exact hs.fresh u hu
  · rw [h.res]
    exact hs.sum
  · rw [h.res] at hres
    have hgood := hs.good hnum u hu hres
    by_cases hut : u = t
    · subst hut
      have hrep := ((hs.created u hu).of_one hres).1
      rw [(hrep.goes hgoes hqp).2.2]
      exact hgood
    · rw [h.others u hut]
      exact hgood

theorem ready (hs : Ready mult n σ) (hfresh : ∀ u, n ≤ u → (σ.thds u).pc = .absent) :
    Ready mult n σ' := by
  obtain ⟨r, hgoes, hqc⟩ := h.goes
  have htn : t < n := by
    by_contra hlt
    exact (Gone.not_goes (Or.inl (hfresh t (by omega)))) hgoes
  refine ⟨fun u hu => ?_, fun hm => ?_⟩
  · by_cases hut : u = t
    · subst hut
      exact hgoes.state_ne_none (hs.state u hu)
    · rw [h.others u hut]
      exact hs.state u hu
  · have hqp : mult = true → σ.qp = [] := by
      rw [hm]
      exact nofun
    obtain ⟨hnil, hrep⟩ := hs.single hm
    obtain ⟨rfl, hrep', -⟩ := (hrep t htn).goes hgoes hqp
    refine ⟨by rw [hqc, hnil]; rfl, fun u hu => ?_⟩
    by_cases hut : u = t
    · subst hut
      exact hrep'
    · rw [h.others u hut]
      exact hrep u hu

/-- **A step of a thread keeps the invariant.** -/
theorem tracks (hs : Tracks mult n σ) : Tracks mult n σ' := by
  refine ⟨h.sane hs.sane, fun u hu => ?_, ?_⟩
  · obtain ⟨r, hgoes, -⟩ := h.goes
    have hut : u ≠ t := by
      rintro rfl
      exact (Gone.not_goes (Or.inl (hs.fresh u hu))) hgoes
    rw [h.others u hut]
    exact hs.fresh u hu
  · rw [h.main]
    have hphase := hs.phase
    generalize σ.main.resume = main at hphase
    cases main with
    | create c => exact ⟨hphase.1, h.setup hphase.2⟩
    | count i num => exact ⟨hphase.1, h.setup hphase.2⟩
    | edit num => exact ⟨hphase.1, h.ready hphase.2 hs.fresh⟩
    | send succ i num => exact ⟨hphase.1, h.ready hphase.2 hs.fresh⟩
    | recv succ i num => exact ⟨hphase.1, h.ready hphase.2 hs.fresh⟩
    | reap t next => exact hphase
    | join i =>
        obtain ⟨hi, hready, hgone⟩ := hphase
        exact ⟨hi, h.ready hready hs.fresh, fun u hu => h.gone (hgone u hu)⟩
    | returned ret =>
        intro u hu
        rw [h.awaits]
        exact (hphase u hu).imp h.gone id

end Moved

/-! ## Steps of the main thread -/

/-- The set-up is over: every thread has reported, and with no good one all are through. -/
theorem Setup.ready (h : Setup mult n n n num σ) :
    σ.qc = [] ∧ (∀ t < n, Reported mult (σ.thds t)) ∧
      (num = 0 →
        ∀ t < n, (σ.thds t).state = some .terminated ∨ (σ.thds t).state = some .failed) := by
  have hone : ∀ t < n, σ.res t = 1 := by
    refine sum_le_eq (fun t ht => (h.created t ht).le_one) ?_
    rw [h.sum]
    simp
  refine ⟨?_, fun t ht => ((h.created t ht).of_one (hone t ht)).1, fun hnum t ht =>
    h.good hnum t ht (hone t ht)⟩
  rw [List.eq_nil_iff_forall_not_mem]
  intro t ht
  have htn := h.lt t ht
  exact ((h.created t htn).of_one (hone t htn)).2 ht

theorem phaseAt_afterJoin (h : Ready mult n σ) (hgone : ∀ t < i, Gone (σ.thds t)) (hi : i ≤ n) :
    PhaseAt mult n σ (afterJoin n i) := by
  unfold afterJoin
  split
  · rename_i hlt
    exact ⟨hlt, h, hgone⟩
  · intro t ht
    exact Or.inl (hgone t (by omega))

theorem phaseAt_afterRecv {succ : Bool} (h : Ready mult n σ) (hm : mult = true) :
    PhaseAt mult n σ (afterRecv n succ i num) := by
  unfold afterRecv
  split
  · exact ⟨hm, h⟩
  · split
    · exact ⟨hm, h⟩
    · exact phaseAt_afterJoin h nofun (Nat.zero_le n)

theorem phaseAt_afterSend {succ : Bool} (h : Ready mult n σ) (hm : mult = true) :
    PhaseAt mult n σ (afterSend n succ i num) := by
  unfold afterSend
  split
  · exact ⟨hm, h⟩
  · split
    · exact phaseAt_afterRecv h hm
    · exact phaseAt_afterJoin h nofun (Nat.zero_le n)

theorem phaseAt_afterCount (hs : ∀ t, Sane mult (t ∈ σ.qc) (σ.Awaits t) (σ.thds t))
    (h : Setup mult n n i num σ) (hi : i ≤ n) : PhaseAt mult n σ (afterCount mult n i num) := by
  unfold afterCount
  split
  · rename_i hlt
    exact ⟨hlt, h⟩
  · rename_i hlt
    obtain rfl : i = n := by omega
    obtain ⟨hqc, hrep, hbad⟩ := h.ready
    have hready : Ready mult i σ := ⟨fun t ht => (hrep t ht).state, fun _ => ⟨hqc, hrep⟩⟩
    split
    · cases mult with
      | true => exact ⟨rfl, hready⟩
      | false => exact phaseAt_afterJoin hready nofun (Nat.zero_le i)
    · rename_i hpos
      intro t ht
      rcases hbad (by omega) t ht with hterm | hfail
      · rcases (hs t).terminated hterm with hpc | hq | hw | hpc
        · rcases (hrep t ht).pc with h | ⟨-, h⟩ | h | h | h <;> rw [hpc] at h <;> cases h
        · rw [hqc] at hq
          cases hq
        · exact Or.inr hw
        · exact Or.inl (Or.inr hpc)
      · exact Or.inl (Or.inl ((hs t).failed hfail))

theorem phaseAt_afterCreate (hs : ∀ t, Sane mult (t ∈ σ.qc) (σ.Awaits t) (σ.thds t))
    (h : Setup mult n c 0 0 σ) : PhaseAt mult n σ (afterCreate mult n c) := by
  unfold afterCreate
  split
  · rename_i hlt
    exact ⟨hlt, h⟩
  · rename_i hlt
    obtain rfl : c = n := by
      have := h.le
      omega
    exact phaseAt_afterCount hs h (Nat.zero_le _)

theorem tracks_start : Tracks mult n (System.start mult n) := by
  have hs : ∀ t, Sane mult (t ∈ (System.start mult n).qc) ((System.start mult n).Awaits t)
      ((System.start mult n).thds t) := by
    intro t
    constructor <;> simp [System.start]
  refine ⟨hs, fun _ _ => rfl, ?_⟩
  rw [System.start, resume_afterCreate]
  apply phaseAt_afterCreate hs
  exact ⟨Nat.zero_le n, rfl, List.nodup_nil, by simp [System.start], by simp, fun _ _ => ⟨rfl, rfl⟩,
    by simp [System.start], by simp⟩

/-- The main thread takes a record from `global_qc`; of a terminated thread it waits for the end. -/
theorem sane_dequeue (hs : ∀ u, Sane mult (u ∈ σ.qc) (σ.Awaits u) (σ.thds u))
    (hno : ∀ u, ¬ σ.Awaits u) {qc : List ℕ} (res : ℕ → ℕ) {m : Main} (hqc : σ.qc = t :: qc)
    (hm : (σ.thds t).state = some .terminated → ∃ next, m = .reap t next) (u : ℕ) :
    Sane mult (u ∈ qc) (System.Awaits { σ with qc := qc, main := m, res := res } u) (σ.thds u) := by
  apply (hs u).mono
  intro hterm hqw
  have hq := hqw.resolve_right (hno u)
  rw [hqc] at hq
  rcases List.mem_cons.1 hq with rfl | hq
  · exact Or.inr (Or.inl (hm hterm))
  · exact Or.inl hq

/-- The main thread leaves `global_qc` and the threads alone. -/
theorem sane_keep (hs : ∀ u, Sane mult (u ∈ σ.qc) (σ.Awaits u) (σ.thds u))
    (hno : ∀ u, σ.Awaits u → (σ.thds u).pc = .exited) (hthds : σ'.thds = σ.thds)
    (hqc : σ'.qc = σ.qc) (u : ℕ) : Sane mult (u ∈ σ'.qc) (σ'.Awaits u) (σ'.thds u) := by
  rw [hthds, hqc]
  apply (hs u).mono
  rintro - (hq | hw)
  · exact Or.inl hq
  · exact Or.inr (Or.inr (hno u hw))

theorem not_awaits {m : Main} (hmain : σ.main = m) (hm : ∀ t next, m ≠ .reap t next) (t : ℕ) :
    ¬ σ.Awaits t := by
  rintro ⟨next, h⟩
  exact hm t next (hmain.symm.trans h)

/-- `pthread_create`, whether it succeeds or not. -/
theorem Setup.create (h : Setup mult n i 0 0 σ) (hi : i < n) {qc : List ℕ} {m : Main}
    (hth : th = ⟨none, .setup⟩ ∧ qc = σ.qc ∨ th = ⟨some .failed, .absent⟩ ∧ qc = i :: σ.qc) :
    Setup mult n (i + 1) 0 0 { σ.setThd i th with qc := qc, main := m } := by
  have hnot : i ∉ σ.qc := fun hmem => Nat.lt_irrefl _ (h.lt i hmem)
  have hmem : ∀ u, u ≠ i → (u ∈ qc ↔ u ∈ σ.qc) := by
    intro u hu
    rcases hth with ⟨_, rfl⟩ | ⟨_, rfl⟩
    · rfl
    · simp [hu]
  have hres := (h.fresh i (Nat.le_refl i)).2
  refine ⟨hi, h.qp, ?_, ?_, fun u hu => ?_, fun u hu => ?_, h.sum, fun hnum u hu h1 => ?_⟩
  · rcases hth with ⟨_, rfl⟩ | ⟨_, rfl⟩
    · exact h.nodup
    · exact List.nodup_cons.2 ⟨hnot, h.nodup⟩
  · intro u hu
    by_cases hui : u = i
    · omega
    · have := h.lt u ((hmem u hui).1 hu)
      omega
  · by_cases hui : u = i
    · subst hui
      simp only [setThd_self, setThd_res]
      rcases hth with ⟨rfl, rfl⟩ | ⟨rfl, rfl⟩
      · exact Counted.before (Or.inl rfl) hnot hres
      · exact Counted.queued ⟨nofun, Or.inl rfl⟩ List.mem_cons_self hres
    · simp only [setThd_of_ne σ hui, setThd_res, propext (hmem u hui)]
      exact h.created u (by omega)
  · simp only [setThd_of_ne σ (show u ≠ i by omega)]
    exact h.fresh u (by omega)
  · simp only [setThd_res] at h1
    have hui : u ≠ i := by
      rintro rfl
      omega
    simp only [setThd_of_ne σ hui]
    exact h.good hnum u (by omega) h1

/-- A result of the set-up is counted. -/
theorem Setup.count (h : Setup mult n n i num σ) {qc : List ℕ} {m : Main} (hqc : σ.qc = t :: qc) :
    Setup mult n n (i + 1)
      (if (σ.thds t).state = some .terminated ∨ (σ.thds t).state = some .failed then num
        else num + 1)
      { σ with qc := qc, main := m, res := Function.update σ.res t (σ.res t + 1) } := by
  have hnd := h.nodup
  rw [hqc, List.nodup_cons] at hnd
  have hton : t ∈ σ.qc := by
    rw [hqc]
    exact List.mem_cons_self
  have htn : t < n := h.lt t hton
  have hmem : ∀ u, u ≠ t → (u ∈ qc ↔ u ∈ σ.qc) := by
    intro u hu
    rw [hqc]
    simp [hu]
  obtain ⟨hr, -, hcounted⟩ := (h.created t htn).dequeue hton hnd.1
  refine ⟨h.le, h.qp, hnd.2, fun u hu => h.lt u ?_, fun u hu => ?_, fun u hu => ?_, ?_,
    fun hnum u hu h1 => ?_⟩
  · rw [hqc]
    exact List.mem_cons_of_mem _ hu
  · by_cases hut : u = t
    · subst hut
      simpa using hcounted
    · simp only [Function.update_of_ne hut, propext (hmem u hut)]
      exact h.created u hu
  · simp only [Function.update_of_ne (show u ≠ t by omega)]
    exact h.fresh u hu
  · simp only [sum_bump htn, h.sum]
  · split at hnum
    · rename_i hbad
      by_cases hut : u = t
      · subst hut
        exact hbad
      · simp only [Function.update_of_ne hut] at h1
        exact h.good hnum u hu h1
    · cases hnum

theorem create_tracks {ok : Bool} (hs : Tracks mult n σ)
    (h : Threads.create mult n ok σ = some σ') : Tracks mult n σ' := by
  have hphase := hs.phase
  unfold create at h
  split at h
  · rename_i i hmain
    rw [hmain] at hphase
    obtain ⟨hi, hsetup⟩ := hphase
    have hno := not_awaits hmain nofun
    have hkeep : ∀ {th : Thd} {qc : List ℕ} {m : Main},
        (th = ⟨none, .setup⟩ ∧ qc = σ.qc ∨ th = ⟨some .failed, .absent⟩ ∧ qc = i :: σ.qc) →
        m = afterCreate mult n (i + 1) →
        Tracks mult n { σ.setThd i th with qc := qc, main := m } := by
      rintro th qc m hth rfl
      have hsane : ∀ u, Sane mult (u ∈ qc)
          (System.Awaits { σ.setThd i th with qc := qc, main := afterCreate mult n (i + 1) } u)
          ((σ.setThd i th).thds u) := by
        intro u
        by_cases hui : u = i
        · subst hui
          rw [setThd_self]
          rcases hth with ⟨rfl, -⟩ | ⟨rfl, -⟩
          · exact ⟨nofun, nofun, fun _ => nofun⟩
          · exact ⟨fun _ => rfl, nofun, fun _ => nofun⟩
        · rw [setThd_of_ne σ hui]
          refine (hs.sane u).mono fun _ hqw => Or.inl ?_
          have hq := hqw.resolve_right (hno u)
          rcases hth with ⟨-, rfl⟩ | ⟨-, rfl⟩
          · exact hq
          · exact List.mem_cons_of_mem _ hq
      refine ⟨hsane, fun u hu => ?_, ?_⟩
      · simp only [setThd_of_ne σ (show u ≠ i by omega)]
        exact hs.fresh u hu
      · simp only [resume_afterCreate]
        exact phaseAt_afterCreate hsane (hsetup.create hi hth)
    split at h
    · cases h
      exact hkeep (Or.inl ⟨rfl, rfl⟩) rfl
    · obtain ⟨qc, hq, rfl⟩ := Option.map_eq_some_iff.1 h
      unfold pcqEnqueue at hq
      split at hq
      · cases hq
      · cases hq
        exact hkeep (Or.inr ⟨rfl, rfl⟩) rfl
  · cases h

theorem count_tracks (hs : Tracks mult n σ) (h : Threads.count mult n σ = some σ') :
    Tracks mult n σ' := by
  have hphase := hs.phase
  unfold count at h
  split at h
  · rename_i i num hmain
    rw [hmain] at hphase
    obtain ⟨hi, hsetup⟩ := hphase
    obtain ⟨⟨t, qc⟩, hq, rfl⟩ := Option.map_eq_some_iff.1 h
    have hqc := pcqDequeue_some hq
    have htracks : ∀ m : Main, ((σ.thds t).state = some .terminated → ∃ next, m = .reap t next) →
        m.resume = afterCount mult n (i + 1) (if (σ.thds t).state = some .terminated ∨
          (σ.thds t).state = some .failed then num else num + 1) →
        Tracks mult n { σ with
          qc := qc
          main := m
          res := Function.update σ.res t (σ.res t + 1) } := by
      intro m hterm hresume
      have hsane := sane_dequeue hs.sane (not_awaits hmain nofun)
        (Function.update σ.res t (σ.res t + 1)) hqc hterm
      refine ⟨hsane, hs.fresh, ?_⟩
      simp only [hresume]
      exact phaseAt_afterCount hsane (hsetup.count hqc) hi
    refine htracks _ (fun hterm => ?_) ?_
    · simp only [hterm]
      exact ⟨_, rfl⟩
    · rcases (σ.thds t).state with _ | s
      · exact resume_afterCount
      · cases s <;> exact resume_afterCount
  · cases h

/-- The other steps of the main thread, while threads talk to it in multiple mode. -/
theorem Tracks.next (hs : Tracks mult n σ) (hno : ∀ u, σ.Awaits u → (σ.thds u).pc = .exited)
    (hthds : σ'.thds = σ.thds) (hqc : σ'.qc = σ.qc) (hphase : PhaseAt mult n σ' σ'.main.resume) :
    Tracks mult n σ' := by
  refine ⟨sane_keep hs.sane hno hthds hqc, fun u hu => ?_, hphase⟩
  rw [hthds]
  exact hs.fresh u hu

theorem Ready.congr (h : Ready mult n σ) (hthds : σ'.thds = σ.thds)
    (hqc : mult = false → σ'.qc = σ.qc) : Ready mult n σ' := by
  refine ⟨?_, fun hm => ?_⟩
  · rw [hthds]
    exact h.state
  · rw [hthds, hqc hm]
    exact h.single hm

theorem edit_tracks {ok : Bool} (hs : Tracks mult n σ) (h : Threads.edit n ok σ = some σ') :
    Tracks mult n σ' := by
  have hphase := hs.phase
  unfold edit at h
  split at h
  · rename_i num hmain
    rw [hmain] at hphase
    cases h
    refine hs.next (fun u hu => absurd hu (not_awaits hmain nofun u)) rfl rfl ?_
    simp only [resume_afterSend]
    exact phaseAt_afterSend (hphase.2.congr rfl fun _ => rfl) hphase.1
  · cases h

theorem send_tracks (hs : Tracks mult n σ) (h : Threads.send n σ = some σ') : Tracks mult n σ' := by
  have hphase := hs.phase
  unfold send at h
  split at h
  · rename_i succ i num hmain
    rw [hmain] at hphase
    obtain ⟨qp, -, rfl⟩ := Option.map_eq_some_iff.1 h
    refine hs.next (fun u hu => absurd hu (not_awaits hmain nofun u)) rfl rfl ?_
    simp only [resume_afterSend]
    exact phaseAt_afterSend (hphase.2.congr rfl fun _ => rfl) hphase.1
  · cases h

theorem recv_tracks (hs : Tracks mult n σ) (h : Threads.recv n σ = some σ') : Tracks mult n σ' := by
  have hphase := hs.phase
  unfold recv at h
  split at h
  · rename_i succ i num hmain
    rw [hmain] at hphase
    obtain ⟨hmult, hready⟩ := hphase
    obtain ⟨⟨t, qc⟩, hq, rfl⟩ := Option.map_eq_some_iff.1 h
    have htracks : ∀ m : Main, ((σ.thds t).state = some .terminated → ∃ next, m = .reap t next) →
        (∃ succ num, m.resume = afterRecv n succ (i + 1) num) →
        Tracks mult n { σ with
          qc := qc
          main := m
          res := Function.update σ.res t (σ.res t + 1) } := by
      rintro m hterm ⟨succ, num, hresume⟩
      refine ⟨sane_dequeue hs.sane (not_awaits hmain nofun) _ (pcqDequeue_some hq) hterm,
        hs.fresh, ?_⟩
      simp only [hresume]
      refine phaseAt_afterRecv (hready.congr rfl fun hf => ?_) hmult
      rw [hmult] at hf
      cases hf
    refine htracks _ (fun hterm => ?_) ?_
    · simp only [hterm]
      exact ⟨_, rfl⟩
    · rcases (σ.thds t).state with _ | s
      · exact ⟨_, _, resume_afterRecv⟩
      · cases s <;> exact ⟨_, _, resume_afterRecv⟩
  · cases h

theorem reap_tracks (hs : Tracks mult n σ) (h : Threads.reap σ = some σ') : Tracks mult n σ' := by
  have hphase := hs.phase
  unfold reap at h
  split at h
  · rename_i t next hmain
    split at h
    · rename_i hpc
      cases h
      rw [hmain] at hphase
      have hexited : ∀ u, σ.Awaits u → (σ.thds u).pc = .exited := by
        rintro u ⟨next', hu⟩
        rw [hmain] at hu
        cases hu
        exact hpc
      refine hs.next hexited rfl rfl ?_
      simp only [Main.resume] at hphase ⊢
      generalize next.resume = m at hphase
      cases m with
      | create c =>
          exact ⟨hphase.1, hphase.2.le, hphase.2.qp, hphase.2.nodup, hphase.2.lt, hphase.2.created,
            hphase.2.fresh, hphase.2.sum, hphase.2.good⟩
      | count i num =>
          exact ⟨hphase.1, hphase.2.le, hphase.2.qp, hphase.2.nodup, hphase.2.lt, hphase.2.created,
            hphase.2.fresh, hphase.2.sum, hphase.2.good⟩
      | edit num => exact ⟨hphase.1, hphase.2.congr rfl fun _ => rfl⟩
      | send succ i num => exact ⟨hphase.1, hphase.2.congr rfl fun _ => rfl⟩
      | recv succ i num => exact ⟨hphase.1, hphase.2.congr rfl fun _ => rfl⟩
      | reap t next => exact hphase
      | join i => exact ⟨hphase.1, hphase.2.1.congr rfl fun _ => rfl, hphase.2.2⟩
      | returned ret =>
          intro u hu
          rcases hphase u hu with hgone | hw
          · exact Or.inl hgone
          · exact Or.inl (Or.inr (hexited u hw))
    · cases h
  · cases h

/-- **The final loop**: the thread it comes to is through when it goes on. -/
theorem join_tracks (hs : Tracks mult n σ) (hg : Reaped mult .join σ)
    (h : Threads.join n σ = some σ') : Tracks mult n σ' := by
  have hphase := hs.phase
  unfold join at h
  split at h
  · rename_i i hmain
    rw [hmain] at hphase
    obtain ⟨hi, hready, hgone⟩ := hphase
    have hno := not_awaits hmain (by simp)
    simp only [Reaped, joining, hmain, Option.mem_some_iff, forall_eq'] at hg
    split at h
    · rename_i hok
      cases h
      have hterm : (σ.thds i).state = some .terminated → (σ.thds i).pc ≠ .report false →
          i ∉ σ.qc → Gone (σ.thds i) := by
        intro hterm hpc hq
        rcases (hs.sane i).terminated hterm with h | h | h | h
        · exact absurd h hpc
        · exact absurd h hq
        · exact absurd h (hno i)
        · exact Or.inr h
      have hthd : Gone (σ.thds i) := by
        cases hstate : (σ.thds i).state with
        | none => exact absurd hstate (hready.state i hi)
        | some s =>
            cases s with
            | ok => exact Or.inr (hok hstate)
            | failed => exact Or.inl ((hs.sane i).failed hstate)
            | terminated =>
                cases mult with
                | true =>
                    obtain ⟨hpc, hq⟩ := (hg rfl).2 hstate
                    exact hterm hstate hpc hq
                | false =>
                    obtain ⟨hnil, hrep⟩ := hready.single rfl
                    refine hterm hstate (fun hpc => ?_) (by simp [hnil])
                    rcases (hrep i hi).pc with h | ⟨-, h⟩ | h | h | h <;> rw [hpc] at h <;> cases h
            | retry =>
                cases mult with
                | true => exact absurd hstate (hg rfl).1
                | false => exact absurd hstate ((hs.sane i).single rfl)
      refine hs.next (fun u hu => absurd hu (hno u)) rfl rfl ?_
      simp only [resume_afterJoin]
      refine phaseAt_afterJoin (hready.congr rfl fun _ => rfl) (fun t ht => ?_) hi
      rcases Nat.lt_succ_iff_lt_or_eq.1 ht with hlt | rfl
      · exact hgone t hlt
      · exact hthd
    · cases h
  · cases h

/-! ## Runs -/

/-- **A step whose guard holds keeps the invariant.** -/
theorem tracks_step (hs : Tracks mult n σ) (hg : Reaped mult a σ) (h : step mult n a σ = some σ') :
    Tracks mult n σ' := by
  rcases step_moved h with ⟨t, hm⟩ | ⟨ok, rfl⟩ | rfl | ⟨ok, rfl⟩ | rfl | rfl | rfl | rfl
  · exact hm.tracks hs
  · exact create_tracks hs h
  · exact count_tracks hs h
  · exact edit_tracks hs h
  · exact send_tracks hs h
  · exact recv_tracks hs h
  · exact reap_tracks hs h
  · exact join_tracks hs hg h

theorem tracks_run (h : Reach (step mult n) (Reaped mult) (System.start mult n) σ) :
    Tracks mult n σ := by
  refine h.invariant tracks_start ?_
  intro a σ σ' hs hg hstep
  exact tracks_step hs hg hstep

/-- Behind the return nothing moves once all threads are gone. -/
theorem no_step {ret : ℤ} (hmain : σ.main = .returned ret) (hgone : ∀ t, Gone (σ.thds t)) :
    step mult n a σ = none := by
  cases h : step mult n a σ with
  | none => rfl
  | some σ' =>
      rcases step_moved h with ⟨t, hm⟩ | ⟨ok, rfl⟩ | rfl | ⟨ok, rfl⟩ | rfl | rfl | rfl | rfl
      · obtain ⟨r, hgoes, -⟩ := hm.goes
        exact absurd hgoes (hgone t).not_goes
      · simp [step, create, hmain] at h
      · simp [step, count, hmain] at h
      · simp [step, edit, hmain] at h
      · simp [step, send, hmain] at h
      · simp [step, recv, hmain] at h
      · simp [step, reap, hmain] at h
      · simp [step, join, hmain] at h

/-- **When `prepare_file_threads` returns, every thread has returned before**, and nobody touches
the array, the queues or a `range_file` any more: in single mode always, in multiple mode when the
final loop meets no thread that needs a retry or has terminated unnoticed. -/
theorem returned_quiet {ret : ℤ}
    (hrun : Reach (step mult n) (Reaped mult) (System.start mult n) σ)
    (hret : σ.main = .returned ret) : Quiet mult n σ := by
  have hs := tracks_run hrun
  have hphase := hs.phase
  rw [hret] at hphase
  have hgone : ∀ t, Gone (σ.thds t) := by
    intro t
    by_cases ht : t < n
    · exact (hphase t ht).resolve_right (not_awaits hret nofun t)
    · exact Or.inl (hs.fresh t (by omega))
  exact ⟨hgone, fun a => no_step hret hgone⟩

/-- Two files: one push succeeds, one fails. -/
theorem returned_quiet_two : ∃ σ, runGuarded (step true 2) (Reaped true)
      (twoFiles .failed .ok ++ [.report 0, .recv, .exit 0, .reap, .report 1, .exit 1, .join, .join])
      (System.start true 2) = some σ ∧ σ.main = .returned 0 ∧ Quiet true 2 σ := by
  have hrun : (runGuarded (step true 2) (Reaped true)
      (twoFiles .failed .ok ++ [.report 0, .recv, .exit 0, .reap, .report 1, .exit 1, .join, .join])
      (System.start true 2)).map System.main = some (.returned 0) := by
    decide +kernel
  obtain ⟨σ, hrun, hmain⟩ := Option.map_eq_some_iff.1 hrun
  exact ⟨σ, hrun, hmain, returned_quiet (reach_of_runGuarded hrun) hmain⟩

/-- One file, and the editor fails: the main thread returns while the thread it has told to stop is
still in front of `global_qp`. -/
theorem abort_leaves_thread : ∃ σ, Reach (step true 1) (fun _ _ => True) (System.start true 1) σ ∧
    σ.main = .returned 0 ∧ (σ.thds 0).pc = .wait ∧ (step true 1 (.take 0) σ).isSome ∧
      ¬ Quiet true 1 σ := by
  have hrun : (runGuarded (step true 1) (fun _ _ => True)
      [.create true, .setup 0 true, .report 0, .count, .edit false, .send, .join]
      (System.start true 1)).map
        (fun σ => (σ.main, (σ.thds 0).pc, (step true 1 (.take 0) σ).isSome)) =
      some (.returned 0, .wait, true) := by
    decide +kernel
  obtain ⟨σ, hrun, heq⟩ := Option.map_eq_some_iff.1 hrun
  simp only [Prod.mk.injEq] at heq
  obtain ⟨hmain, hpc, hstep⟩ := heq
  refine ⟨σ, reach_of_runGuarded hrun, hmain, hpc, hstep, ?_⟩
  rintro ⟨hgone, -⟩
  rcases hgone 0 with h | h <;> rw [hpc] at h <;> cases h

end Threads

end Yacet
