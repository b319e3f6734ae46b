import Yacet.ThreadJoins

/-!
# Nobody waits for room on `global_qp` or `global_qc`

A go-ahead on `global_qp`, a thread that owes a report and a record on `global_qc` are the same
thing on its way from the main thread to a thread and back: a token.

* `tokens` — they are never more than the files, in orderly runs and in others, so that neither
  queue of capacity `num_files` is ever full when something is put on it.
* `engaged` — the threads that `num_thds` is about: the main thread never waits for more results
  than there are such threads.
* `Flow` — what holds after every step, orderly or not.
* `enqueue_never_blocks` — in every run, single or multiple mode, no `pcq_enqueue` waits.
-/

namespace Yacet

open Steps

namespace Threads

/-! ## Tokens -/

/-- The thread owes a report. -/
def Pc.load : Pc → ℕ
  | .setup => 1
  | .report _ => 1
  | .push => 1
  | _ => 0

open Finset in
/-- Go-aheads, reports that are owed, and records. -/
def tokens (n : ℕ) (σ : System) : ℕ :=
  σ.qp.length + ∑ t ∈ range n, (σ.thds t).pc.load + σ.qc.length

/-- The thread has yet to come to its label `fail`. -/
def Pc.Engaged (pc : Pc) : Prop := pc.load = 1 ∨ pc = .wait

instance (pc : Pc) : Decidable pc.Engaged := by
  unfold Pc.Engaged
  infer_instance

/-- The threads that have yet to end, and those whose records the main thread has yet to see. -/
def engaged (n : ℕ) (σ : System) : Finset ℕ :=
  (Finset.range n).filter fun t => (σ.thds t).pc.Engaged ∨ t ∈ σ.qc

/-- The thread has decided to stop. -/
def Pc.Ending (pc : Pc) : Prop := pc = .report false ∨ pc = .exiting ∨ pc = .exited

variable {mult : Bool} {n t i c num : ℕ} {σ σ' : System} {a : Act} {th th' : Thd} {r : Bool}
  {qp : List Bool} {stop : Bool}

/-! ## Where a thread of a state can be -/

/-- The states that threads have at their places; `stop`: the editor has failed. -/
inductive Placed (mult stop : Bool) : Thd → Prop
  | fresh : Placed mult stop ⟨none, .absent⟩
  | failed : Placed mult stop ⟨some .failed, .absent⟩
  | setup : Placed mult stop ⟨none, .setup⟩
  | back {pc} (hm : mult = true) (hpc : pc = .wait ∨ pc = .push ∨ pc = .report true) :
    Placed mult stop ⟨some .retry, pc⟩
  | solo {pc} (hm : mult = false) (hpc : pc = .report true ∨ pc = .solo) :
    Placed mult stop ⟨some .ok, pc⟩
  | ending {s pc} (hs : s = .ok ∨ s = .terminated) (hpc : pc.Ending) :
    Placed mult stop ⟨some s, pc⟩
  | stopped {pc} (hstop : stop = true) (hpc : pc = .exiting ∨ pc = .exited) :
    Placed mult stop ⟨some .retry, pc⟩

/-- A thread takes a step, and what becomes of `global_qp`. -/
structure Turn (mult : Bool) (σ : System) (t : ℕ) (σ' : System) : Prop where
  moved : Moved mult σ t σ'
  aborted : σ'.aborted = σ.aborted
  queue : (σ.thds t).pc ≠ .wait ∧ σ'.qp = σ.qp ∨
    ∃ b, σ.qp = b :: σ'.qp ∧ (σ.thds t).pc = .wait ∧
      (σ'.thds t).pc = if b then .push else .exiting

theorem Moved.not_wait (h : Moved mult σ t σ')
    (hkeep : ∀ u, (σ.thds u).pc = .wait → (σ'.thds u).pc = .wait) : (σ.thds t).pc ≠ .wait := by
  intro hpc
  obtain ⟨r, hgoes, -⟩ := h.goes
  have hpc' := hkeep t hpc
  generalize σ.thds t = th at hgoes hpc
  generalize σ'.thds t = th' at hgoes hpc'
  cases hgoes with
  | take _ h => rcases h with rfl | rfl <;> cases hpc'
  | _ => cases hpc

theorem wait_setThd {u : ℕ} (h : (σ.thds u).pc ≠ .wait) (v : ℕ) (hv : (σ.thds v).pc = .wait) :
    ((σ.setThd u th).thds v).pc = .wait := by
  have hvu : v ≠ u := by
    rintro rfl
    exact h hv
  rw [setThd_of_ne σ hvu]
  exact hv

/-- A step is a thread's or the main thread's. -/
theorem step_turn (h : step mult n a σ = some σ') :
    (∃ t, Turn mult σ t σ') ∨ (∃ ok, a = .create ok) ∨ a = .count ∨ (∃ ok, a = .edit ok) ∨
      a = .send ∨ a = .recv ∨ a = .reap ∨ a = .join := by
  have hkeeps : (∃ t, Moved mult σ t σ') → σ'.aborted = σ.aborted → σ'.qp = σ.qp →
      (∀ u, (σ.thds u).pc = .wait → (σ'.thds u).pc = .wait) → ∃ t, Turn mult σ t σ' := by
    rintro ⟨t, hm⟩ hab hqp hkeep
    exact ⟨t, hm, hab, Or.inl ⟨hm.not_wait hkeep, hqp⟩⟩
  have hmoved := step_moved h
  cases a with
  | setup t ok =>
      simp only [reduceCtorEq, exists_false, or_false] at hmoved
      refine Or.inl ?_
      simp only [step, setup] at h
      split at h
      · rename_i hpc
        cases h
        exact hkeeps hmoved rfl rfl (wait_setThd (by simp [hpc]))
      · cases h
  | report t =>
      simp only [reduceCtorEq, exists_false, or_false] at hmoved
      refine Or.inl ?_
      simp only [step, report] at h
      split at h
      · rename_i again hpc
        obtain ⟨qc, -, rfl⟩ := Option.map_eq_some_iff.1 h
        exact hkeeps hmoved rfl rfl (wait_setThd (by simp [hpc]))
      · cases h
  | take t =>
      simp only [reduceCtorEq, exists_false, or_false] at hmoved
      obtain ⟨u, hm⟩ := hmoved
      simp only [step, take] at h
      split at h
      · rename_i hpc
        obtain ⟨⟨b, qp⟩, hqp, rfl⟩ := Option.map_eq_some_iff.1 h
        have hq := pcqDequeue_some hqp
        have hut : u = t := by
          by_contra hne
          have hsame := congrArg Thd.pc (hm.others t (Ne.symm hne))
          cases b <;> simp [hpc] at hsame
        subst hut
        refine Or.inl ⟨u, hm, ?_, Or.inr ⟨b, ?_, hpc, ?_⟩⟩ <;> cases b <;> simp [hq, System.setThd]
      · cases h
  | push t ret =>
      simp only [reduceCtorEq, exists_false, or_false] at hmoved
      refine Or.inl ?_
      simp only [step, push] at h
      split at h
      · rename_i hpc
        cases h
        exact hkeeps hmoved rfl rfl (wait_setThd (by simp [hpc]))
      · rename_i hpc
        cases h
        exact hkeeps hmoved rfl rfl (wait_setThd (by simp [hpc]))
      · rename_i hpc
        cases h
        exact hkeeps hmoved rfl rfl (wait_setThd (by simp [hpc]))
      · cases h
        exact hkeeps hmoved rfl rfl fun _ hu => hu
      · rename_i hpc _
        cases h
        exact hkeeps hmoved rfl rfl (wait_setThd (by simp [hpc]))
      · cases h
  | exit t =>
      simp only [reduceCtorEq, exists_false, or_false] at hmoved
      refine Or.inl ?_
      simp only [step, exit] at h
      split at h
      · rename_i hpc
        cases h
        exact hkeeps hmoved rfl rfl (wait_setThd (by simp [hpc]))
      · cases h
  | create ok => exact Or.inr (Or.inl ⟨ok, rfl⟩)
  | count => simp
  | edit ok => simp
  | send => simp
  | recv => simp
  | reap => simp
  | join => simp

/-! ## What a step of a thread leaves of the tokens -/

theorem Goes.load (h : Goes mult qp th r th') (hpc : th.pc ≠ .wait) :
    th'.pc.load + (if r then 1 else 0) = th.pc.load := by
  cases h with
  | pulled => rfl
  | failed => rfl
  | @report s again => cases again <;> cases mult <;> rfl
  | take => exact absurd rfl hpc
  | pushed => rfl
  | retry => rfl
  | terminated => rfl
  | solo hpc' => rcases hpc' with rfl | rfl <;> rfl
  | exit => rfl

/-- A thread that is at work still is, or its record is on its way. -/
theorem Goes.engaged (h : Goes mult qp th r th') (hpc : th.pc ≠ .wait) (he : th.pc.Engaged) :
    th'.pc.Engaged ∨ r = true := by
  cases h with
  | pulled => exact Or.inl (Or.inl rfl)
  | failed => exact Or.inl (Or.inl rfl)
  | report => exact Or.inr rfl
  | take => exact absurd rfl hpc
  | pushed => exact Or.inl (Or.inl rfl)
  | retry => exact Or.inl (Or.inl rfl)
  | terminated => exact Or.inl (Or.inl rfl)
  | solo => rcases he with he | he <;> cases he
  | exit => rcases he with he | he <;> cases he

theorem Goes.ending (h : Goes mult qp th r th') (he : th.pc.Ending) : th'.pc.Ending := by
  cases h with
  | @report s again =>
      rcases he with he | he | he <;> cases he
      exact Or.inr (Or.inl rfl)
  | exit => exact Or.inr (Or.inr rfl)
  | _ => rcases he with he | he | he <;> cases he

theorem Placed.goes (h : Placed mult stop th) (hgoes : Goes mult qp th r th')
    (hwait : th.pc = .wait → th'.pc = .exiting → stop = true) : Placed mult stop th' := by
  cases h with
  | fresh => cases hgoes
  | failed => cases hgoes
  | setup =>
      cases hgoes with
      | pulled =>
          cases mult with
          | true => exact back rfl (Or.inr (Or.inr rfl))
          | false => exact solo rfl (Or.inl rfl)
      | failed => exact ending (Or.inr rfl) (Or.inl rfl)
  | back hm hpc =>
      subst hm
      rcases hpc with rfl | rfl | rfl
      · cases hgoes with
        | take _ hpc =>
            rcases hpc with rfl | rfl
            · exact back rfl (Or.inr (Or.inl rfl))
            · exact stopped (hwait rfl rfl) (Or.inl rfl)
      · cases hgoes with
        | pushed => exact ending (Or.inl rfl) (Or.inl rfl)
        | retry => exact back rfl (Or.inr (Or.inr rfl))
        | terminated => exact ending (Or.inr rfl) (Or.inl rfl)
      · cases hgoes with
        | report => exact back rfl (Or.inl rfl)
  | solo hm hpc =>
      subst hm
      rcases hpc with rfl | rfl
      · cases hgoes with
        | report => exact solo rfl (Or.inr rfl)
      · cases hgoes with
        | solo hpc =>
            rcases hpc with rfl | rfl
            · exact solo rfl (Or.inr rfl)
            · exact ending (Or.inl rfl) (Or.inr (Or.inl rfl))
  | ending hs hpc =>
      rcases hpc with rfl | rfl | rfl
      · cases hgoes with
        | report => exact ending hs (Or.inr (Or.inl rfl))
      · cases hgoes with
        | exit => exact ending hs (Or.inr (Or.inr rfl))
      · cases hgoes
  | stopped hstop hpc =>
      rcases hpc with rfl | rfl
      · cases hgoes with
        | exit => exact stopped hstop (Or.inr rfl)
      · cases hgoes

theorem Placed.retry (h : Placed mult false th) (hs : th.state = some .retry) :
    th.pc.Engaged := by
  cases h with
  | back _ hpc =>
      rcases hpc with rfl | rfl | rfl
      · exact Or.inr rfl
      · exact Or.inl rfl
      · exact Or.inl rfl
  | ending hs' => rcases hs' with rfl | rfl <;> cases hs
  | stopped hstop => cases hstop
  | _ => cases hs

theorem Placed.terminated (h : Placed mult stop th) (hs : th.state = some .terminated) :
    th.pc.Ending := by
  cases h with
  | ending _ hpc => exact hpc
  | _ => cases hs

open Finset in
/-- A sum in which only thread `t` has changed. -/
theorem sum_turn {f g : ℕ → ℕ} (ht : t < n) (h : ∀ u, u ≠ t → g u = f u) :
    ∑ u ∈ range n, g u + f t = ∑ u ∈ range n, f u + g t := by
  have hmem : t ∈ range n := mem_range.2 ht
  have hrest : ∑ u ∈ (range n).erase t, g u = ∑ u ∈ (range n).erase t, f u :=
    sum_congr rfl fun u hu => h u (ne_of_mem_erase hu)
  have hf := add_sum_erase _ f hmem
  have hg := add_sum_erase _ g hmem
  omega

namespace Turn

variable (h : Turn mult σ t σ')
include h

theorem lt (hfresh : ∀ u, n ≤ u → (σ.thds u).pc = .absent) : t < n := by
  by_contra hlt
  obtain ⟨r, hgoes, -⟩ := h.moved.goes
  exact Gone.not_goes (Or.inl (hfresh t (by omega))) hgoes

theorem fresh {c : ℕ} (hfresh : ∀ u, c ≤ u → (σ.thds u).pc = .absent) (u : ℕ) (hu : c ≤ u) :
    (σ'.thds u).pc = .absent := by
  have hut : u ≠ t := by
    have := h.lt hfresh
    omega
  rw [h.moved.others u hut]
  exact hfresh u hu

/-- A token is lost only when a thread is told to stop. -/
theorem tokens (ht : t < n) : tokens n σ' ≤ tokens n σ ∧
    ((∀ b ∈ σ.qp, b = true) → tokens n σ' = tokens n σ) := by
  obtain ⟨r, hgoes, hqc⟩ := h.moved.goes
  have hsum := sum_turn ht (f := fun u => (σ.thds u).pc.load) (g := fun u => (σ'.thds u).pc.load)
    fun u hu => by rw [h.moved.others u hu]
  have hlen : σ'.qc.length = (if r then 1 else 0) + σ.qc.length := by
    rw [hqc]
    cases r <;> simp [Nat.add_comm]
  unfold Threads.tokens
  rcases h.queue with ⟨hpc, hqp⟩ | ⟨b, hqp, hpc, hpc'⟩
  · have hload := hgoes.load hpc
    rw [hqp]
    omega
  · have hr : r = false := by
      generalize σ.thds t = th at hgoes hpc
      generalize σ'.thds t = th' at hgoes
      cases hgoes with
      | report => cases hpc
      | _ => rfl
    have hwait : (σ.thds t).pc.load = 0 := by
      rw [hpc]
      rfl
    have htaken : (σ'.thds t).pc.load = if b then 1 else 0 := by
      rw [hpc']
      cases b <;> rfl
    rw [hr, if_neg Bool.false_ne_true] at hlen
    rw [hqp, List.length_cons]
    cases b with
    | true =>
        rw [if_pos rfl] at htaken
        omega
    | false =>
        rw [if_neg Bool.false_ne_true] at htaken
        refine ⟨by omega, fun hall => ?_⟩
        cases hall false List.mem_cons_self

/-- With go-aheads alone on `global_qp` nobody leaves. -/
theorem engaged (hqp : ∀ b ∈ σ.qp, b = true) : engaged n σ ⊆ engaged n σ' := by
  intro u hu
  obtain ⟨hun, hu⟩ := Finset.mem_filter.1 hu
  refine Finset.mem_filter.2 ⟨hun, ?_⟩
  by_cases hut : u = t
  · subst hut
    obtain ⟨r, hgoes, hqc⟩ := h.moved.goes
    rcases hu with he | hq
    · rcases h.queue with ⟨hpc, -⟩ | ⟨b, hb, -, hpc'⟩
      · rcases hgoes.engaged hpc he with he' | hr
        · exact Or.inl he'
        · right
          rw [hqc, hr]
          exact List.mem_cons_self
      · have hb' : b = true := by
          apply hqp
          rw [hb]
          exact List.mem_cons_self
        left
        rw [hpc', hb']
        exact Or.inl rfl
    · right
      rw [hqc]
      cases r with
      | false => exact hq
      | true => exact List.mem_cons_of_mem _ hq
  · rw [h.moved.others u hut, h.moved.mem_qc_of_ne hut]
    exact hu

theorem goAheads (hqp : ∀ b ∈ σ.qp, b = true) : ∀ b ∈ σ'.qp, b = true := by
  rcases h.queue with ⟨-, hq⟩ | ⟨b, hq, -, -⟩
  · rw [hq]
    exact hqp
  · intro c hc
    apply hqp
    rw [hq]
    exact List.mem_cons_of_mem _ hc

theorem placed (hgo : σ.aborted = false → ∀ b ∈ σ.qp, b = true) {u : ℕ}
    (hp : Placed mult σ.aborted (σ.thds u)) : Placed mult σ'.aborted (σ'.thds u) := by
  rw [h.aborted]
  by_cases hut : u = t
  · subst hut
    obtain ⟨r, hgoes, -⟩ := h.moved.goes
    apply hp.goes hgoes
    intro hwait hexit
    by_contra hno
    rcases h.queue with ⟨hpc, -⟩ | ⟨b, hq, -, hpc'⟩
    · exact hpc hwait
    · have hb : b = true := by
        apply hgo (by simpa using hno)
        rw [hq]
        exact List.mem_cons_self
      rw [hpc', hb] at hexit
      cases hexit
  · rw [h.moved.others u hut]
    exact hp

theorem ending {u : ℕ} (hu : (σ.thds u).pc.Ending) : (σ'.thds u).pc.Ending := by
  by_cases hut : u = t
  · subst hut
    obtain ⟨r, hgoes, -⟩ := h.moved.goes
    exact hgoes.ending hu
  · rw [h.moved.others u hut]
    exact hu

theorem records (hp : ∀ u, Placed mult σ.aborted (σ.thds u))
    (hq : ∀ u ∈ σ.qc, (σ.thds u).state ≠ none) : ∀ u ∈ σ'.qc, (σ'.thds u).state ≠ none := by
  obtain ⟨r, hgoes, hqc⟩ := h.moved.goes
  intro u hu
  by_cases hut : u = t
  · subst hut
    apply hgoes.state_ne_none
    cases r with
    | false =>
        apply hq
        rwa [hqc] at hu
    | true =>
        have hpu := hp u
        generalize σ.thds u = th at hgoes hpu
        generalize σ'.thds u = th' at hgoes
        cases hgoes
        cases hpu <;> nofun
  · rw [h.moved.others u hut]
    exact hq u ((h.moved.mem_qc_of_ne hut).1 hu)

/-- Before the first go-ahead nobody pushes. -/
theorem early (hnil : σ.qp = []) {u : ℕ} (hu : mult = true →
      (σ.thds u).pc ≠ .push ∧ (σ.thds u).state ≠ some .ok) (hm : mult = true) :
    (σ'.thds u).pc ≠ .push ∧ (σ'.thds u).state ≠ some .ok := by
  obtain ⟨hpush, hok⟩ := hu hm
  by_cases hut : u = t
  · subst hut hm
    obtain ⟨r, hgoes, -⟩ := h.moved.goes
    rw [hnil] at hgoes
    generalize σ.thds u = th at hgoes hpush hok
    generalize σ'.thds u = th' at hgoes
    cases hgoes with
    | pulled => exact ⟨nofun, nofun⟩
    | failed => exact ⟨nofun, nofun⟩
    | @report s again => exact ⟨by cases again <;> nofun, hok⟩
    | take hne => exact absurd rfl hne
    | solo hpc => exact ⟨by rcases hpc with rfl | rfl <;> nofun, hok⟩
    | exit => exact ⟨nofun, hok⟩
    | _ => exact absurd rfl hpush
  · rw [h.moved.others u hut]
    exact ⟨hpush, hok⟩

end Turn

/-! ## The invariant -/

/-- The set-up: no go-ahead has been sent. -/
structure Opening (mult : Bool) (σ : System) : Prop where
  aborted : σ.aborted = false
  qp : σ.qp = []
  early : ∀ t, mult = true → (σ.thds t).pc ≠ .push ∧ (σ.thds t).state ≠ some .ok

/-- The tokens that there may be and must be, by the place of the main thread. -/
def Budget (mult : Bool) (n : ℕ) (σ : System) : Main → Prop
  | .create c => c < n ∧ Opening mult σ ∧ tokens n σ = c ∧ (∀ t < c, t ∈ engaged n σ) ∧
      ∀ t, c ≤ t → Fresh (σ.thds t)
  | .count i num => i < n ∧ Opening mult σ ∧ tokens n σ + i = n ∧ num ≤ i ∧
      (mult = true → num + tokens n σ ≤ (engaged n σ).card)
  | .edit num => σ.aborted = false ∧ tokens n σ + num ≤ n ∧ num ≤ (engaged n σ).card
  | .send true i num => i < num ∧ σ.aborted = false ∧ tokens n σ + (num - i) ≤ n ∧
      i ≤ tokens n σ ∧ num ≤ (engaged n σ).card
  | .send false i num => i < num ∧ σ.aborted = true ∧ num ≤ n ∧ tokens n σ + (num - i) ≤ n
  | .recv _ i num => i < num ∧ σ.aborted = false ∧ tokens n σ + i ≤ n ∧ num ≤ tokens n σ + i ∧
      num ≤ (engaged n σ).card
  | .reap _ _ => False
  | .join i => i < n ∧ tokens n σ ≤ n
  | .returned _ => tokens n σ ≤ n

structure Flow (mult : Bool) (n : ℕ) (σ : System) : Prop where
  fresh : ∀ t, n ≤ t → (σ.thds t).pc = .absent
  placed : ∀ t, Placed mult σ.aborted (σ.thds t)
  records : ∀ t ∈ σ.qc, (σ.thds t).state ≠ none
  goAheads : σ.aborted = false → ∀ b ∈ σ.qp, b = true
  awaited : ∀ t next, σ.main = .reap t next → (σ.thds t).pc.Ending ∧ next.resume = next
  budget : Budget mult n σ σ.main.resume

theorem Opening.turn (h : Opening mult σ) (ht : Turn mult σ t σ') : Opening mult σ' := by
  refine ⟨ht.aborted.trans h.aborted, ht.moved.qp h.qp, fun u => ?_⟩
  exact ht.early h.qp (h.early u)

theorem Budget.turn {m : Main} (h : Budget mult n σ m) (ht : Turn mult σ t σ') (htn : t < n)
    (hgo : σ.aborted = false → ∀ b ∈ σ.qp, b = true) : Budget mult n σ' m := by
  obtain ⟨hle, heq⟩ := ht.tokens htn
  have hcard : σ.aborted = false → (engaged n σ).card ≤ (engaged n σ').card := fun hab =>
    Finset.card_le_card (ht.engaged (hgo hab))
  have hsame : σ.aborted = false → tokens n σ' = tokens n σ := fun hab => heq (hgo hab)
  cases m with
  | create c =>
      obtain ⟨hc, hopen, htok, heng, hfresh⟩ := h
      have hab := hopen.aborted
      refine ⟨hc, hopen.turn ht, (hsame hab).trans htok, fun u hu => ?_, fun u hu => ?_⟩
      · exact ht.engaged (hgo hab) (heng u hu)
      · have htc := ht.lt fun v hv => congrArg Thd.pc (hfresh v hv)
        rw [ht.moved.others u (by omega)]
        exact hfresh u hu
  | count i num =>
      obtain ⟨hi, hopen, htok, hnum, heng⟩ := h
      have hab := hopen.aborted
      rw [← hsame hab] at htok
      refine ⟨hi, hopen.turn ht, htok, hnum, fun hm => ?_⟩
      have := heng hm
      have := hcard hab
      have := hsame hab
      omega
  | edit num =>
      obtain ⟨hab, htok, heng⟩ := h
      have := hcard hab
      have := hsame hab
      exact ⟨ht.aborted.trans hab, by omega, by omega⟩
  | send succ i num =>
      cases succ with
      | true =>
          obtain ⟨hi, hab, htok, hsent, heng⟩ := h
          have := hcard hab
          have := hsame hab
          exact ⟨hi, ht.aborted.trans hab, by omega, by omega, by omega⟩
      | false =>
          obtain ⟨hi, hab, hnum, htok⟩ := h
          exact ⟨hi, ht.aborted.trans hab, hnum, by omega⟩
  | recv succ i num =>
      obtain ⟨hi, hab, htok, hmost, heng⟩ := h
      have := hcard hab
      have := hsame hab
      exact ⟨hi, ht.aborted.trans hab, by omega, by omega, by omega⟩
  | reap t next => exact h
  | join i => exact ⟨h.1, hle.trans h.2⟩
  | returned ret => exact hle.trans h

/-- **A step of a thread keeps the invariant.** -/
theorem Flow.turn (h : Flow mult n σ) (ht : Turn mult σ t σ') : Flow mult n σ' := by
  refine ⟨ht.fresh h.fresh, fun u => ht.placed h.goAheads (h.placed u),
    ht.records h.placed h.records,
    fun hab => ?_, fun u next hmain => ?_, ?_⟩
  · rw [ht.aborted] at hab
    exact ht.goAheads (h.goAheads hab)
  · rw [ht.moved.main] at hmain
    obtain ⟨hu, hnext⟩ := h.awaited u next hmain
    exact ⟨ht.ending hu, hnext⟩
  · rw [ht.moved.main]
    exact h.budget.turn ht (ht.lt h.fresh) h.goAheads

theorem Budget.le {m : Main} (h : Budget mult n σ m) : tokens n σ ≤ n := by
  cases m with
  | create c =>
      obtain ⟨hc, -, htok, -⟩ := h
      omega
  | count i num =>
      obtain ⟨-, -, htok, -⟩ := h
      omega
  | edit num =>
      obtain ⟨-, htok, -⟩ := h
      omega
  | send succ i num =>
      cases succ with
      | true =>
          obtain ⟨-, -, htok, -⟩ := h
          omega
      | false =>
          obtain ⟨-, -, -, htok⟩ := h
          omega
  | recv succ i num =>
      obtain ⟨-, -, htok, -⟩ := h
      omega
  | reap t next => exact h.elim
  | join i => exact h.2
  | returned ret => exact h

/-! ## Steps of the main thread -/

theorem budget_afterJoin (h : tokens n σ ≤ n) : Budget mult n σ (afterJoin n i) := by
  unfold afterJoin
  split
  · rename_i hi
    exact ⟨hi, h⟩
  · exact h

theorem budget_afterRecv {succ : Bool} (hab : σ.aborted = false) (hle : tokens n σ + i ≤ n)
    (hnum : num ≤ tokens n σ + i) (heng : num ≤ (engaged n σ).card) :
    Budget mult n σ (afterRecv n succ i num) := by
  unfold afterRecv
  split
  · rename_i hi
    exact ⟨hi, hab, hle, hnum, heng⟩
  · split
    · exact ⟨hab, by omega, heng⟩
    · exact budget_afterJoin (by omega)

theorem budget_afterSend {succ : Bool} (hi : i ≤ num) (hle : tokens n σ + (num - i) ≤ n)
    (hab : σ.aborted = !succ) (hsent : succ = true → i ≤ tokens n σ ∧ num ≤ (engaged n σ).card)
    (hnum : num ≤ n) : Budget mult n σ (afterSend n succ i num) := by
  unfold afterSend
  split
  · rename_i hlt
    cases succ with
    | true =>
        obtain ⟨hsent, heng⟩ := hsent rfl
        exact ⟨hlt, hab, hle, hsent, heng⟩
    | false => exact ⟨hlt, hab, hnum, hle⟩
  · split
    · rename_i hs
      subst hs
      obtain ⟨hsent, heng⟩ := hsent rfl
      exact budget_afterRecv hab (by omega) (by omega) heng
    · exact budget_afterJoin (by omega)

theorem budget_afterCount (hopen : Opening mult σ) (hi : i ≤ n) (htok : tokens n σ + i = n)
    (hnum : num ≤ i) (heng : mult = true → num + tokens n σ ≤ (engaged n σ).card) :
    Budget mult n σ (afterCount mult n i num) := by
  unfold afterCount
  split
  · rename_i hlt
    exact ⟨hlt, hopen, htok, hnum, heng⟩
  · split
    · split
      · rename_i hm
        have := heng hm
        exact ⟨hopen.aborted, by omega, by omega⟩
      · exact budget_afterJoin (by omega)
    · show tokens n σ ≤ n
      omega

theorem budget_afterCreate (hc : c ≤ n) (hopen : Opening mult σ) (htok : tokens n σ = c)
    (heng : ∀ t < c, t ∈ engaged n σ) (hfresh : ∀ t, c ≤ t → Fresh (σ.thds t)) :
    Budget mult n σ (afterCreate mult n c) := by
  unfold afterCreate
  split
  · rename_i hlt
    exact ⟨hlt, hopen, htok, heng, hfresh⟩
  · obtain rfl : c = n := by omega
    refine budget_afterCount hopen (Nat.zero_le _) (by omega) (Nat.zero_le _) fun _ => ?_
    have hall : Finset.range c ⊆ engaged c σ := fun t ht => heng t (Finset.mem_range.1 ht)
    have := Finset.card_le_card hall
    rw [Finset.card_range] at this
    omega

theorem Budget.not_reap {m : Main} (h : Budget mult n σ m) (next : Main) : m ≠ .reap t next := by
  rintro rfl
  exact h

theorem flow_start : Flow mult n (System.start mult n) := by
  have hbudget : Budget mult n (System.start mult n) (afterCreate mult n 0) := by
    apply budget_afterCreate (Nat.zero_le n)
    · exact ⟨rfl, rfl, fun _ _ => ⟨by simp [System.start], by simp [System.start]⟩⟩
    · simp [tokens, System.start, Pc.load]
    · simp
    · exact fun _ _ => rfl
  refine ⟨fun _ _ => rfl, fun _ => Placed.fresh, by simp [System.start], by simp [System.start],
    fun t next hmain => absurd hmain (hbudget.not_reap next), ?_⟩
  rw [System.start, resume_afterCreate]
  exact hbudget

theorem Placed.mono {stop' : Bool} (h : Placed mult stop th)
    (hstop : stop' = false → stop = false) :
    Placed mult stop' th := by
  cases h with
  | fresh => exact fresh
  | failed => exact failed
  | setup => exact setup
  | back hm hpc => exact back hm hpc
  | solo hm hpc => exact solo hm hpc
  | ending hs hpc => exact ending hs hpc
  | stopped hs hpc =>
      refine stopped ?_ hpc
      cases stop' with
      | true => rfl
      | false => rw [hstop rfl] at hs; cases hs

/-- The main thread takes a step that leaves the threads alone. -/
theorem Flow.next (h : Flow mult n σ) (hthds : σ'.thds = σ.thds) (hqc : ∀ u ∈ σ'.qc, u ∈ σ.qc)
    (hab : σ'.aborted = false → σ.aborted = false ∧ ∀ b ∈ σ'.qp, b = true)
    (hawaited : ∀ t next, σ'.main = .reap t next → (σ.thds t).pc.Ending ∧ next.resume = next)
    (hbudget : Budget mult n σ' σ'.main.resume) : Flow mult n σ' := by
  refine ⟨fun u hu => ?_, fun u => ?_, fun u hu => ?_, fun hf => (hab hf).2, fun t next hmain => ?_,
    hbudget⟩
  · rw [hthds]
    exact h.fresh u hu
  · rw [hthds]
    exact (h.placed u).mono fun hf => (hab hf).1
  · rw [hthds]
    exact h.records u (hqc u hu)
  · rw [hthds]
    exact hawaited t next hmain

/-- A record is taken from `global_qc`. -/
theorem tokens_dequeue (m : Main) (res : ℕ → ℕ) {qc : List ℕ}
    (hqc : σ.qc = t :: qc) :
    tokens n { σ with qc := qc, main := m, res := res } + 1 = tokens n σ := by
  simp only [tokens, hqc, List.length_cons]
  omega

theorem engaged_dequeue (m : Main) (res : ℕ → ℕ) {qc : List ℕ}
    (hqc : σ.qc = t :: qc) :
    (engaged n σ).erase t ⊆ engaged n { σ with qc := qc, main := m, res := res } := by
  intro u hu
  obtain ⟨hut, hu⟩ := Finset.mem_erase.1 hu
  obtain ⟨hun, hu⟩ := Finset.mem_filter.1 hu
  refine Finset.mem_filter.2 ⟨hun, hu.imp id fun hq => ?_⟩
  rw [hqc] at hq
  exact List.mem_of_ne_of_mem hut hq

theorem card_dequeue (m : Main) (res : ℕ → ℕ) {qc : List ℕ}
    (hqc : σ.qc = t :: qc) :
    (engaged n σ).card ≤ (engaged n { σ with qc := qc, main := m, res := res }).card + 1 := by
  have hle := Finset.card_le_card (engaged_dequeue (n := n) m res hqc)
  have := Finset.pred_card_le_card_erase (s := engaged n σ) (a := t)
  omega

theorem card_dequeue_engaged (m : Main) (res : ℕ → ℕ) {qc : List ℕ}
    (hqc : σ.qc = t :: qc)
    (ht : (σ.thds t).pc.Engaged) :
    (engaged n σ).card ≤ (engaged n { σ with qc := qc, main := m, res := res }).card := by
  refine Finset.card_le_card fun u hu => ?_
  by_cases hut : u = t
  · subst hut
    exact Finset.mem_filter.2 ⟨(Finset.mem_filter.1 hu).1, Or.inl ht⟩
  · exact engaged_dequeue m res hqc (Finset.mem_erase.2 ⟨hut, hu⟩)

/-- The main thread takes a record from `global_qc`; of a terminated thread it waits for the end. -/
theorem Flow.dequeue (h : Flow mult n σ) {qc : List ℕ} {m next : Main} {res : ℕ → ℕ}
    (hqc : σ.qc = t :: qc) (hnext : next.resume = next)
    (hm : m = next ∨ m = .reap t next ∧ (σ.thds t).state = some .terminated)
    (hbudget : Budget mult n { σ with qc := qc, main := m, res := res } next) :
    Flow mult n { σ with qc := qc, main := m, res := res } := by
  refine h.next rfl (fun u hu => ?_) (fun hf => ⟨hf, h.goAheads hf⟩) (fun u next' hr => ?_) ?_
  · rw [hqc]
    exact List.mem_cons_of_mem _ hu
  · rcases hm with rfl | ⟨rfl, hterm⟩
    · exact absurd hr (hbudget.not_reap next')
    · cases hr
      exact ⟨(h.placed t).terminated hterm, hnext⟩
  · rcases hm with rfl | ⟨rfl, -⟩
    · simp only [hnext]
      exact hbudget
    · simp only [Main.resume, hnext]
      exact hbudget

theorem count_flow (hs : Flow mult n σ) (h : Threads.count mult n σ = some σ') :
    Flow mult n σ' := by
  have hbudget := hs.budget
  unfold count at h
  split at h
  · rename_i i num hmain
    rw [hmain] at hbudget
    obtain ⟨hi, hopen, htok, hnum, heng⟩ := hbudget
    obtain ⟨⟨t, qc⟩, hq, rfl⟩ := Option.map_eq_some_iff.1 h
    have hqc := pcqDequeue_some hq
    have hcount : ∀ m : Main, ∀ num' : ℕ, (m = afterCount mult n (i + 1) num' ∨
        m = .reap t (afterCount mult n (i + 1) num') ∧ (σ.thds t).state = some .terminated) →
        num' = num ∨ num' = num + 1 ∧ (mult = true → (σ.thds t).pc.Engaged) →
        Flow mult n { σ with
          qc := qc
          main := m
          res := Function.update σ.res t (σ.res t + 1) } := by
      intro m num' hm hnum'
      apply hs.dequeue hqc resume_afterCount hm
      have htok' := tokens_dequeue (n := n) m (Function.update σ.res t (σ.res t + 1)) hqc
      have hcard := card_dequeue (n := n) m (Function.update σ.res t (σ.res t + 1)) hqc
      refine budget_afterCount ⟨hopen.aborted, hopen.qp, hopen.early⟩ hi (by omega) (by omega)
        fun hmult => ?_
      have hroom := heng hmult
      rcases hnum' with rfl | ⟨rfl, hengaged⟩
      · omega
      · have := card_dequeue_engaged (n := n) m
          (Function.update σ.res t (σ.res t + 1)) hqc (hengaged hmult)
        omega
    -- a thread that is counted as good is at work, if it is to be told to go ahead
    have hgood : (σ.thds t).state ≠ some .terminated → (σ.thds t).state ≠ some .failed →
        mult = true → (σ.thds t).pc.Engaged := by
      intro hterm hfail hm
      have hplaced := hs.placed t
      have hok := (hopen.early t hm).2
      have hset : (σ.thds t).state ≠ none := by
        apply hs.records
        rw [hqc]
        exact List.mem_cons_self
      rw [hopen.aborted, hm] at hplaced
      apply hplaced.retry
      rcases hstate : (σ.thds t).state with _ | s
      · exact absurd hstate hset
      · cases s with
        | retry => rfl
        | ok => exact absurd hstate hok
        | failed => exact absurd hstate hfail
        | terminated => exact absurd hstate hterm
    by_cases hterm : (σ.thds t).state = some .terminated
    · simp only [hterm]
      exact hcount _ num (Or.inr ⟨rfl, hterm⟩) (Or.inl rfl)
    · by_cases hfail : (σ.thds t).state = some .failed
      · simp only [hfail]
        exact hcount _ num (Or.inl rfl) (Or.inl rfl)
      · refine hcount _ (num + 1) (Or.inl ?_) (Or.inr ⟨rfl, hgood hterm hfail⟩)
        split
        · rename_i h
          exact absurd h hterm
        · rename_i h
          exact absurd h hfail
        · rfl
  · cases h

theorem recv_flow (hs : Flow mult n σ) (h : Threads.recv n σ = some σ') : Flow mult n σ' := by
  have hbudget := hs.budget
  unfold recv at h
  split at h
  · rename_i succ i num hmain
    rw [hmain] at hbudget
    obtain ⟨hi, hab, hle, hmost, heng⟩ := hbudget
    obtain ⟨⟨t, qc⟩, hq, rfl⟩ := Option.map_eq_some_iff.1 h
    have hqc := pcqDequeue_some hq
    have hrecv : ∀ m : Main, ∀ num' : ℕ, ∀ succ', (m = afterRecv n succ' (i + 1) num' ∨
        m = .reap t (afterRecv n succ' (i + 1) num') ∧ (σ.thds t).state = some .terminated) →
        num' = num - 1 ∨ num' = num ∧ (σ.thds t).pc.Engaged →
        Flow mult n { σ with
          qc := qc
          main := m
          res := Function.update σ.res t (σ.res t + 1) } := by
      intro m num' succ' hm hnum'
      apply hs.dequeue hqc resume_afterRecv hm
      have htok' := tokens_dequeue (n := n) m (Function.update σ.res t (σ.res t + 1)) hqc
      have hcard := card_dequeue (n := n) m (Function.update σ.res t (σ.res t + 1)) hqc
      refine budget_afterRecv hab (by omega) (by omega) ?_
      rcases hnum' with rfl | ⟨rfl, hengaged⟩
      · omega
      · have := card_dequeue_engaged (n := n) m
          (Function.update σ.res t (σ.res t + 1)) hqc hengaged
        omega
    by_cases hretry : (σ.thds t).state = some .retry
    · have hplaced := hs.placed t
      rw [hab] at hplaced
      simp only [hretry]
      exact hrecv _ num true (Or.inl rfl) (Or.inr ⟨rfl, hplaced.retry hretry⟩)
    · by_cases hterm : (σ.thds t).state = some .terminated
      · simp only [hterm]
        exact hrecv _ (num - 1) succ (Or.inr ⟨rfl, hterm⟩) (Or.inl rfl)
      · refine hrecv _ (num - 1) succ (Or.inl ?_) (Or.inl rfl)
        split
        · rename_i h
          exact absurd h hretry
        · rename_i h
          exact absurd h hterm
        · rfl
  · cases h

/-- Thread `i` has been created, or it has not and there is a record of that. -/
def Made (i : ℕ) (σ : System) (th : Thd) (qc : List ℕ) : Prop :=
  th = ⟨none, .setup⟩ ∧ qc = σ.qc ∨ th = ⟨some .failed, .absent⟩ ∧ qc = i :: σ.qc

theorem Made.mem_qc {i u : ℕ} {qc : List ℕ} (h : Made i σ th qc) (hu : u ≠ i) :
    u ∈ qc ↔ u ∈ σ.qc := by
  rcases h with ⟨-, rfl⟩ | ⟨-, rfl⟩
  · exact Iff.rfl
  · rw [List.mem_cons, or_iff_right hu]

/-- There is a token more: the one of the thread, or its record. -/
theorem Made.tokens {i : ℕ} {qc : List ℕ} {m : Main} (h : Made i σ th qc) (hi : i < n)
    (hfresh : σ.thds i = ⟨none, .absent⟩) :
    tokens n { σ.setThd i th with qc := qc, main := m } = tokens n σ + 1 := by
  have hsum := sum_turn hi (f := fun u => (σ.thds u).pc.load)
    (g := fun u => ((σ.setThd i th).thds u).pc.load) fun u hu => by rw [setThd_of_ne σ hu]
  have hqp : (σ.setThd i th).qp = σ.qp := rfl
  have hone : Pc.load .setup = 1 := rfl
  have hzero : Pc.load .absent = 0 := rfl
  simp only [setThd_self, hfresh] at hsum
  unfold Threads.tokens
  rcases h with ⟨rfl, rfl⟩ | ⟨rfl, rfl⟩
  · simp only [hqp] at hsum ⊢
    omega
  · simp only [hqp, List.length_cons] at hsum ⊢
    omega

theorem Made.budget {i : ℕ} {qc : List ℕ} (h : Made i σ th qc)
    (hbudget : Budget mult n σ (.create i)) :
    Budget mult n { σ.setThd i th with qc := qc, main := afterCreate mult n (i + 1) }
      (afterCreate mult n (i + 1)) := by
  obtain ⟨hi, hopen, htok, heng, hfresh⟩ := hbudget
  apply budget_afterCreate hi
  · refine ⟨hopen.aborted, hopen.qp, fun u hm => ?_⟩
    by_cases hui : u = i
    · subst hui
      simp only [setThd_self]
      rcases h with ⟨rfl, -⟩ | ⟨rfl, -⟩ <;> exact ⟨nofun, nofun⟩
    · simp only [setThd_of_ne σ hui]
      exact hopen.early u hm
  · rw [h.tokens hi (hfresh i (Nat.le_refl i)), htok]
  · intro u hu
    refine Finset.mem_filter.2 ⟨Finset.mem_range.2 (by omega), ?_⟩
    by_cases hui : u = i
    · subst hui
      simp only [setThd_self]
      rcases h with ⟨rfl, -⟩ | ⟨-, rfl⟩
      · exact Or.inl (Or.inl rfl)
      · exact Or.inr List.mem_cons_self
    · simp only [setThd_of_ne σ hui]
      rw [h.mem_qc hui]
      exact (Finset.mem_filter.1 (heng u (by omega))).2
  · intro u hu
    simp only [setThd_of_ne σ (show u ≠ i by omega)]
    exact hfresh u (by omega)

/-- The main thread has come by a thread of `Made`. -/
theorem Flow.made {i : ℕ} {qc : List ℕ} (hs : Flow mult n σ) (hmain : σ.main = .create i)
    (h : Made i σ th qc) :
    Flow mult n { σ.setThd i th with qc := qc, main := afterCreate mult n (i + 1) } := by
  have hbudget := hs.budget
  rw [hmain] at hbudget
  have hafter := h.budget hbudget
  obtain ⟨hi, -, -, -, hfresh⟩ := hbudget
  have hnot : i ∉ σ.qc := by
    intro hq
    apply hs.records i hq
    rw [hfresh i (Nat.le_refl i)]
  refine ⟨fun u hu => ?_, fun u => ?_, fun u hu => ?_, fun hab => hs.goAheads hab,
    fun u next hr => absurd hr (hafter.not_reap next), ?_⟩
  · simp only [setThd_of_ne σ (show u ≠ i by omega)]
    exact hs.fresh u hu
  · by_cases hui : u = i
    · subst hui
      simp only [setThd_self]
      rcases h with ⟨rfl, -⟩ | ⟨rfl, -⟩
      · exact Placed.setup
      · exact Placed.failed
    · simp only [setThd_of_ne σ hui]
      exact hs.placed u
  · by_cases hui : u = i
    · subst hui
      simp only [setThd_self]
      rcases h with ⟨-, rfl⟩ | ⟨rfl, -⟩
      · exact absurd hu hnot
      · nofun
    · simp only [setThd_of_ne σ hui]
      exact hs.records u ((h.mem_qc hui).1 hu)
  · simp only [resume_afterCreate]
    exact hafter

theorem create_flow {ok : Bool} (hs : Flow mult n σ)
    (h : Threads.create mult n ok σ = some σ') : Flow mult n σ' := by
  unfold create at h
  split at h
  · rename_i i hmain
    split at h
    · cases h
      exact hs.made hmain (Or.inl ⟨rfl, rfl⟩)
    · obtain ⟨qc, hq, rfl⟩ := Option.map_eq_some_iff.1 h
      unfold pcqEnqueue at hq
      split at hq
      · cases hq
      · cases hq
        exact hs.made hmain (Or.inr ⟨rfl, rfl⟩)
  · cases h

theorem edit_flow {ok : Bool} (hs : Flow mult n σ) (h : Threads.edit n ok σ = some σ') :
    Flow mult n σ' := by
  have hbudget := hs.budget
  unfold edit at h
  split at h
  · rename_i num hmain
    rw [hmain] at hbudget
    obtain ⟨hab, htok, heng⟩ := hbudget
    cases h
    have hafter : Budget mult n { σ with
        main := afterSend n ok 0 num
        live := retrying n σ
        go := fun _ => 0
        res := fun _ => 0
        aborted := !ok } (afterSend n ok 0 num) :=
      budget_afterSend (Nat.zero_le _) htok rfl (fun _ => ⟨Nat.zero_le _, heng⟩) (by omega)
    refine hs.next rfl (fun _ hu => hu) (fun _ => ⟨hab, hs.goAheads hab⟩)
      (fun u next hr => absurd hr (hafter.not_reap next)) ?_
    simp only [resume_afterSend]
    exact hafter
  · cases h

theorem send_flow (hs : Flow mult n σ) (h : Threads.send n σ = some σ') : Flow mult n σ' := by
  have hbudget := hs.budget
  unfold send at h
  split at h
  · rename_i succ i num hmain
    rw [hmain] at hbudget
    obtain ⟨qp, hq, rfl⟩ := Option.map_eq_some_iff.1 h
    unfold pcqEnqueue at hq
    split at hq
    · cases hq
    · cases hq
      have htok : tokens n { σ with qp := succ :: σ.qp, main := afterSend n succ (i + 1) num } =
          tokens n σ + 1 := by
        simp only [tokens, List.length_cons]
        omega
      have hafter : Budget mult n { σ with
        qp := succ :: σ.qp, main := afterSend n succ (i + 1) num }
            (afterSend n succ (i + 1) num) ∧ σ.aborted = !succ := by
        cases succ with
        | true =>
            obtain ⟨hi, hab, hle, hsent, heng⟩ := hbudget
            exact ⟨budget_afterSend hi (by omega) hab (fun _ => ⟨by omega, heng⟩) (by omega), hab⟩
        | false =>
            obtain ⟨hi, hab, hnum, hle⟩ := hbudget
            exact ⟨budget_afterSend hi (by omega) hab nofun hnum, hab⟩
      refine hs.next rfl (fun _ hu => hu) (fun hab => ⟨hab, fun b hb => ?_⟩)
        (fun u next hr => absurd hr (hafter.1.not_reap next)) ?_
      · rcases List.mem_cons.1 hb with rfl | hb
        · rw [hafter.2] at hab
          simpa using hab
        · exact hs.goAheads hab b hb
      · simp only [resume_afterSend]
        exact hafter.1
  · cases h

/-- The budget does not look at the main thread. -/
theorem Budget.withMain (m' : Main) {m : Main} (h : Budget mult n σ m) :
    Budget mult n { σ with main := m' } m := by
  cases m with
  | create c =>
      obtain ⟨hc, hopen, hrest⟩ := h
      exact ⟨hc, ⟨hopen.aborted, hopen.qp, hopen.early⟩, hrest⟩
  | count i num =>
      obtain ⟨hi, hopen, hrest⟩ := h
      exact ⟨hi, ⟨hopen.aborted, hopen.qp, hopen.early⟩, hrest⟩
  | send succ i num => cases succ <;> exact h
  | _ => exact h

theorem reap_flow (hs : Flow mult n σ) (h : Threads.reap σ = some σ') : Flow mult n σ' := by
  have hbudget := hs.budget
  unfold reap at h
  split at h
  · rename_i t next hmain
    split at h
    · cases h
      rw [hmain] at hbudget
      have hnext := (hs.awaited t next hmain).2
      simp only [Main.resume, hnext] at hbudget
      have hafter := hbudget.withMain next
      refine hs.next rfl (fun _ hu => hu) (fun hab => ⟨hab, hs.goAheads hab⟩)
        (fun u next' hr => absurd hr (hafter.not_reap next')) ?_
      simp only [hnext]
      exact hafter
    · cases h
  · cases h

theorem join_flow (hs : Flow mult n σ) (h : Threads.join n σ = some σ') : Flow mult n σ' := by
  have hbudget := hs.budget
  unfold join at h
  split at h
  · rename_i i hmain
    rw [hmain] at hbudget
    split at h
    · cases h
      have hafter : Budget mult n { σ with main := afterJoin n (i + 1) } (afterJoin n (i + 1)) :=
        budget_afterJoin hbudget.2
      refine hs.next rfl (fun _ hu => hu) (fun hab => ⟨hab, hs.goAheads hab⟩)
        (fun u next hr => absurd hr (hafter.not_reap next)) ?_
      simp only [resume_afterJoin]
      exact hafter
    · cases h
  · cases h

/-! ## Runs -/

/-- **Every step keeps the invariant.** -/
theorem flow_step (hs : Flow mult n σ) (h : step mult n a σ = some σ') : Flow mult n σ' := by
  rcases step_turn h with ⟨t, ht⟩ | ⟨ok, rfl⟩ | rfl | ⟨ok, rfl⟩ | rfl | rfl | rfl | rfl
  · exact hs.turn ht
  · exact create_flow hs h
  · exact count_flow hs h
  · exact edit_flow hs h
  · exact send_flow hs h
  · exact recv_flow hs h
  · exact reap_flow hs h
  · exact join_flow hs h

theorem flow_run (h : Reach (step mult n) (fun _ _ => True) (System.start mult n) σ) :
    Flow mult n σ :=
  h.invariant flow_start fun _ _ _ hs _ hstep => flow_step hs hstep

open Finset in
/-- A record that is owed has a place on `global_qc`. -/
theorem Flow.room (hs : Flow mult n σ) {again : Bool} (hpc : (σ.thds t).pc = .report again) :
    σ.qc.length < n := by
  have htn : t < n := by
    by_contra hlt
    rw [hs.fresh t (by omega)] at hpc
    cases hpc
  have hone : (σ.thds t).pc.load = 1 := by
    rw [hpc]
    rfl
  have hle := hs.budget.le
  have hmem := single_le_sum (f := fun u => (σ.thds u).pc.load) (fun _ _ => Nat.zero_le _)
    (mem_range.2 htn)
  unfold tokens at hle
  omega

theorem Flow.room_send (hs : Flow mult n σ) {succ : Bool} (hmain : σ.main = .send succ i num) :
    σ.qp.length < n := by
  have hbudget := hs.budget
  rw [hmain] at hbudget
  cases succ with
  | true =>
      obtain ⟨hi, -, htok, -⟩ := hbudget
      unfold tokens at htok
      omega
  | false =>
      obtain ⟨hi, -, -, htok⟩ := hbudget
      unfold tokens at htok
      omega

theorem Flow.room_create (hs : Flow mult n σ) (hmain : σ.main = .create c) : σ.qc.length < n := by
  have hbudget := hs.budget
  rw [hmain] at hbudget
  obtain ⟨hc, -, htok, -⟩ := hbudget
  unfold tokens at htok
  omega

/-- **No `pcq_enqueue` ever waits**: in every run there is room for the record of a thread that
could not be created, for every report and for every go-ahead. -/
theorem enqueue_never_blocks
    (hrun : Reach (step mult n) (fun _ _ => True) (System.start mult n) σ) :
    (∀ c, σ.main = .create c → (pcqEnqueue n σ.qc c).isSome) ∧
      (∀ t again, (σ.thds t).pc = .report again → (pcqEnqueue n σ.qc t).isSome) ∧
      ∀ succ i num, σ.main = .send succ i num → (pcqEnqueue n σ.qp succ).isSome := by
  have hs := flow_run hrun
  have hroom : ∀ {α : Type} {q : List α} {elm : α}, q.length < n → (pcqEnqueue n q elm).isSome := by
    intro α q elm hlt
    rw [pcqEnqueue, if_neg (by omega)]
    rfl
  refine ⟨fun c hmain => ?_, fun t again hpc => ?_, fun succ i num hmain => ?_⟩
  · exact hroom (hs.room_create hmain)
  · exact hroom (hs.room hpc)
  · exact hroom (hs.room_send hmain)

/-- Two files: one record is on `global_qc`, the other thread is about to report. -/
theorem enqueue_never_blocks_two : ∃ σ,
    Reach (step true 2) (fun _ _ => True) (System.start true 2) σ ∧ σ.qc = [0] ∧
      (σ.thds 1).pc = .report false ∧ (pcqEnqueue 2 σ.qc 1).isSome := by
  have hrun : (runGuarded (step true 2) (fun _ _ => True)
      (twoFiles .retry .ok ++ [.report 0]) (System.start true 2)).map
        (fun σ => (σ.qc, (σ.thds 1).pc)) = some ([0], .report false) := by
    decide +kernel
  obtain ⟨σ, hrun, heq⟩ := Option.map_eq_some_iff.1 hrun
  simp only [Prod.mk.injEq] at heq
  have hreach := reach_of_runGuarded hrun
  exact ⟨σ, hreach, heq.1, heq.2, (enqueue_never_blocks hreach).2.1 1 false heq.2⟩

end Threads

end Yacet
