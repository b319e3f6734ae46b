import Yacet.Lib.Condition
import Yacet.Threads

/-!
# The queue of the threads (`pcq.h`)

A step is what a thread does between taking the mutex and giving it back: it tests the condition of
its loop and either sleeps or moves an element and signals.

* `enqueueRound`, `dequeueRound` — a test of the loop, with the mutex held.
* `step` — a call begins, a woken thread goes on, or a thread wakes without a signal.
* `step_stack` — a step leaves the stored elements alone, or it is `pcqEnqueue` or `pcqDequeue` on
  them.
* `run_conserves` — **no element is lost or doubled, and nobody sleeps while elements or slots are
  left for which no waiter is woken.**
-/

namespace Yacet

open Condition Steps

namespace Pcq

/-! ## The state -/

/-- Where a thread is. -/
inductive Phase (α : Type*)
  | outside
  | enqueuing (elm : α)
  | dequeuing
  deriving Repr

/-- `struct pcq`, the threads, and the elements that calls have put in and taken out. -/
structure System (ι α : Type*) [DecidableEq ι] where
  q : ℕ → α
  cap : ℕ
  full : Cond ι
  empty : Cond ι
  phase : ι → Phase α
  enqueued : List α
  dequeued : List α

/-- What the next step is; `who` is the thread that its signal wakes. -/
inductive Act (ι α : Type*)
  | enqueue (t : ι) (elm : α) (who : Option ι)
  | dequeue (t : ι) (who : Option ι)
  | resume (t : ι) (who : Option ι)
  | spurious (t : ι)

variable {ι α : Type*} [DecidableEq ι]

/-- `pcq_init`; the cells hold what `malloc` leaves there. -/
def init (q : ℕ → α) : System ι α := ⟨q, 0, Cond.init, Cond.init, fun _ => .outside, [], []⟩

/-- `pcq_enqueue_real` from a test of its loop on. -/
def enqueueRound (sz : ℕ) (t : ι) (elm : α) (who : Option ι) (σ : System ι α) :
    Option (System ι α) :=
  if σ.cap = sz then
    some { σ with full := σ.full.sleep t, phase := Function.update σ.phase t (.enqueuing elm) }
  else
    (σ.empty.signal who).map fun empty =>
      { σ with
        q := Function.update σ.q σ.cap elm
        cap := σ.cap + 1
        empty := empty
        phase := Function.update σ.phase t .outside
        enqueued := σ.enqueued ++ [elm] }

/-- `pcq_dequeue` from a test of its loop on. -/
def dequeueRound (t : ι) (who : Option ι) (σ : System ι α) : Option (System ι α) :=
  if σ.cap = 0 then
    some { σ with empty := σ.empty.sleep t, phase := Function.update σ.phase t .dequeuing }
  else
    (σ.full.signal who).map fun full =>
      { σ with
        cap := σ.cap - 1
        full := full
        phase := Function.update σ.phase t .outside
        dequeued := σ.dequeued ++ [σ.q (σ.cap - 1)] }

def step (sz : ℕ) : Act ι α → System ι α → Option (System ι α)
  | .enqueue t elm who, σ =>
    match σ.phase t with
    | .outside => enqueueRound sz t elm who σ
    | _ => none
  | .dequeue t who, σ =>
    match σ.phase t with
    | .outside => dequeueRound t who σ
    | _ => none
  | .resume t who, σ =>
    match σ.phase t with
    | .outside => none
    | .enqueuing elm =>
      if t ∈ σ.full.woken then enqueueRound sz t elm who { σ with full := σ.full.leave t } else none
    | .dequeuing =>
      if t ∈ σ.empty.woken then dequeueRound t who { σ with empty := σ.empty.leave t } else none
  | .spurious t, σ =>
    if t ∈ σ.full.asleep then some { σ with full := σ.full.wake t }
    else if t ∈ σ.empty.asleep then some { σ with empty := σ.empty.wake t }
    else none

/-- The elements in the queue, the one enqueued last in front. -/
def System.stored (σ : System ι α) : List α := ((List.range σ.cap).map σ.q).reverse

/-! ## A step is an operation of a stack -/

variable {sz : ℕ} {a : Act ι α} {σ σ' τ : System ι α} {t : ι} {elm : α} {who : Option ι}

@[simp] theorem length_stored (σ : System ι α) : σ.stored.length = σ.cap := by
  simp [System.stored]

/-- What a step does to the elements. -/
inductive Moves (sz : ℕ) (σ τ : System ι α) : Prop
  | none (h : τ.stored = σ.stored) (hin : τ.enqueued = σ.enqueued) (hout : τ.dequeued = σ.dequeued)
  | enqueue (elm : α) (h : Threads.pcqEnqueue sz σ.stored elm = some τ.stored)
      (hin : τ.enqueued = σ.enqueued ++ [elm]) (hout : τ.dequeued = σ.dequeued)
  | dequeue (elm : α) (h : Threads.pcqDequeue σ.stored = some (elm, τ.stored))
      (hin : τ.enqueued = σ.enqueued) (hout : τ.dequeued = σ.dequeued ++ [elm])

/-- It looks at the elements alone. -/
theorem Moves.congr (h : Moves sz σ' τ) (hs : σ'.stored = σ.stored) (hin : σ'.enqueued = σ.enqueued)
    (hout : σ'.dequeued = σ.dequeued) : Moves sz σ τ := by
  cases h with
  | none h hin' hout' => exact .none (h.trans hs) (hin'.trans hin) (hout'.trans hout)
  | enqueue elm h hin' hout' => exact .enqueue elm (hs ▸ h) (hin ▸ hin') (hout'.trans hout)
  | dequeue elm h hin' hout' => exact .dequeue elm (hs ▸ h) (hin'.trans hin) (hout ▸ hout')

/-- A write behind the elements does not change them. -/
theorem stored_push (σ : System ι α) (elm : α) :
    ((List.range (σ.cap + 1)).map (Function.update σ.q σ.cap elm)).reverse = elm :: σ.stored := by
  have hsame :
    (List.range σ.cap).map (Function.update σ.q σ.cap elm) = (List.range σ.cap).map σ.q := by
    apply List.map_congr_left
    intro i hi
    exact Function.update_of_ne (List.mem_range.1 hi).ne _ _
  rw [List.range_succ, List.map_append, hsame, List.reverse_append]
  simp [System.stored]

theorem enqueueRound_moves (h : enqueueRound sz t elm who σ = some τ) : Moves sz σ τ := by
  unfold enqueueRound at h
  split at h
  · cases h
    exact .none rfl rfl rfl
  · rename_i hroom
    obtain ⟨empty, -, rfl⟩ := Option.map_eq_some_iff.1 h
    refine .enqueue elm ?_ rfl rfl
    rw [Threads.pcqEnqueue, length_stored, if_neg hroom, Option.some.injEq]
    exact (stored_push σ elm).symm

theorem dequeueRound_moves (h : dequeueRound t who σ = some τ) : Moves sz σ τ := by
  unfold dequeueRound at h
  split at h
  · cases h
    exact .none rfl rfl rfl
  · rename_i hne
    obtain ⟨full, -, rfl⟩ := Option.map_eq_some_iff.1 h
    obtain ⟨n, hn⟩ := Nat.exists_eq_succ_of_ne_zero hne
    refine .dequeue (σ.q (σ.cap - 1)) ?_ rfl rfl
    have hstored : σ.stored = σ.q n :: ((List.range n).map σ.q).reverse := by
      rw [System.stored, hn, List.range_succ, List.map_append, List.reverse_append]
      rfl
    rw [hstored, hn]
    rfl

/-- **A step leaves the elements alone or is one operation of the stack.** -/
theorem step_stack (h : step sz a σ = some τ) : Moves sz σ τ := by
  cases a with
  | enqueue t elm who =>
      simp only [step] at h
      split at h
      · exact enqueueRound_moves h
      · cases h
  | dequeue t who =>
      simp only [step] at h
      split at h
      · exact dequeueRound_moves h
      · cases h
  | resume t who =>
      simp only [step] at h
      split at h
      · cases h
      · split at h
        · exact (enqueueRound_moves h).congr rfl rfl rfl
        · cases h
      · split at h
        · exact (dequeueRound_moves h).congr rfl rfl rfl
        · cases h
  | spurious t =>
      simp only [step] at h
      split at h
      · cases h
        exact .none rfl rfl rfl
      · split at h
        · cases h
          exact .none rfl rfl rfl
        · cases h

/-! ## What holds between the steps -/

/-- The elements taken out and those stored are the ones put in, and there is room for those
stored. -/
structure Conserved (sz : ℕ) (σ : System ι α) : Prop where
  le : σ.cap ≤ sz
  perm : (σ.dequeued ++ σ.stored).Perm σ.enqueued

theorem Moves.conserved (hm : Moves sz σ τ) (h : Conserved sz σ) : Conserved sz τ := by
  have hle := h.le
  rw [← length_stored] at hle
  have hperm := h.perm
  cases hm with
  | none hs hin hout =>
      rw [← hs] at hle hperm
      rw [← hin, ← hout] at hperm
      exact ⟨length_stored τ ▸ hle, hperm⟩
  | enqueue elm hs hin hout =>
      unfold Threads.pcqEnqueue at hs
      split at hs
      · cases hs
      · have hs := Option.some.inj hs
        refine ⟨?_, ?_⟩
        · rw [← length_stored, ← hs, List.length_cons]
          omega
        · rw [← hs, hin, hout]
          exact (List.perm_middle.trans (hperm.cons elm)).trans
            (List.perm_append_singleton elm _).symm
  | dequeue elm hs hin hout =>
      have hs := Threads.pcqDequeue_some hs
      rw [hs] at hle hperm
      refine ⟨?_, ?_⟩
      · rw [List.length_cons] at hle
        rw [← length_stored]
        omega
      · rw [hin, hout, List.append_assoc]
        exact hperm

/-- The threads that wait are those within a call, and none of them sleeps on what is there for
it. -/
structure Waiting (sz : ℕ) (σ : System ι α) : Prop where
  full : NoLost (sz - σ.cap) σ.full
  empty : NoLost σ.cap σ.empty
  producers : ∀ u, σ.full.Waits u ↔ ∃ elm, σ.phase u = .enqueuing elm
  consumers : ∀ u, σ.empty.Waits u ↔ σ.phase u = .dequeuing

/-- Thread `t` has the mutex and is about to test the condition of its loop. -/
structure Testing (slots elems : ℕ) (t : ι) (σ : System ι α) : Prop where
  full : NoLost slots σ.full
  empty : NoLost elems σ.empty
  producers : ∀ u, σ.full.Waits u ↔ u ≠ t ∧ ∃ elm, σ.phase u = .enqueuing elm
  consumers : ∀ u, σ.empty.Waits u ↔ u ≠ t ∧ σ.phase u = .dequeuing

theorem Waiting.testing (h : Waiting sz σ) (ht : σ.phase t = .outside) :
    Testing (sz - σ.cap) σ.cap t σ := by
  refine ⟨h.full, h.empty, fun u => (h.producers u).trans ⟨?_, And.right⟩,
    fun u => (h.consumers u).trans ⟨?_, And.right⟩⟩
  · rintro ⟨elm, hu⟩
    refine ⟨?_, elm, hu⟩
    rintro rfl
    rw [ht] at hu
    cases hu
  · intro hu
    refine ⟨?_, hu⟩
    rintro rfl
    rw [ht] at hu
    cases hu

/-- A woken producer. -/
theorem Waiting.producer (h : Waiting sz σ) (ht : t ∈ σ.full.woken)
    (hphase : σ.phase t = .enqueuing elm) :
    Testing (sz - σ.cap - 1) σ.cap t { σ with full := σ.full.leave t } := by
  refine ⟨h.full.leave t, h.empty, fun u => ?_, fun u => (h.consumers u).trans ⟨?_, And.right⟩⟩
  · rw [← h.producers u]
    exact Cond.waits_leave ht
  · intro hu
    refine ⟨?_, hu⟩
    rintro rfl
    rw [hphase] at hu
    cases hu

/-- A woken consumer. -/
theorem Waiting.consumer (h : Waiting sz σ) (ht : t ∈ σ.empty.woken)
    (hphase : σ.phase t = .dequeuing) :
    Testing (sz - σ.cap) (σ.cap - 1) t { σ with empty := σ.empty.leave t } := by
  refine ⟨h.full, h.empty.leave t, fun u => (h.producers u).trans ⟨?_, And.right⟩, fun u => ?_⟩
  · rintro ⟨elm, hu⟩
    refine ⟨?_, elm, hu⟩
    rintro rfl
    rw [hphase] at hu
    cases hu
  · rw [← h.consumers u]
    exact Cond.waits_leave ht

theorem update_iff {P : Phase α → Prop} {p : Phase α} {u : ι} :
    P (Function.update σ.phase t p u) ↔ u = t ∧ P p ∨ u ≠ t ∧ P (σ.phase u) := by
  by_cases hut : u = t
  · subst hut
    simp
  · simp [hut]

/-- **A test of `pcq_enqueue_real` loses no wake-up.** -/
theorem enqueueRound_waiting {slots elems : ℕ} (h : Testing slots elems t σ)
    (hslots : sz - σ.cap - 1 ≤ slots) (helems : σ.cap ≤ elems)
    (hrun : enqueueRound sz t elm who σ = some τ) : Waiting sz τ := by
  unfold enqueueRound at hrun
  split at hrun
  · rename_i hfull
    cases hrun
    constructor
    case full =>
      show NoLost (sz - σ.cap) _
      rw [hfull, Nat.sub_self]
      exact noLost_zero _
    case empty => exact h.empty.mono helems
    case producers =>
      intro u
      rw [Cond.waits_sleep, h.producers u, update_iff (P := fun p => ∃ elm, p = .enqueuing elm)]
      simp
    case consumers =>
      intro u
      rw [h.consumers u, update_iff (P := fun p => p = .dequeuing)]
      simp
  · obtain ⟨empty, hsignal, rfl⟩ := Option.map_eq_some_iff.1 hrun
    constructor
    case full =>
      show NoLost (sz - (σ.cap + 1)) σ.full
      rw [← Nat.sub_sub]
      exact h.full.mono hslots
    case empty => exact (h.empty.mono helems).signal hsignal
    case producers =>
      intro u
      rw [h.producers u, update_iff (P := fun p => ∃ elm, p = .enqueuing elm)]
      simp
    case consumers =>
      intro u
      rw [Cond.waits_signal hsignal, h.consumers u, update_iff (P := fun p => p = .dequeuing)]
      simp

/-- **Nor does a test of `pcq_dequeue`.** -/
theorem dequeueRound_waiting {slots elems : ℕ} (h : Testing slots elems t σ)
    (hslots : sz - σ.cap ≤ slots) (helems : σ.cap - 1 ≤ elems)
    (hrun : dequeueRound t who σ = some τ) : Waiting sz τ := by
  unfold dequeueRound at hrun
  split at hrun
  · rename_i hempty
    cases hrun
    constructor
    case full => exact h.full.mono hslots
    case empty =>
      show NoLost σ.cap _
      rw [hempty]
      exact noLost_zero _
    case producers =>
      intro u
      rw [h.producers u, update_iff (P := fun p => ∃ elm, p = .enqueuing elm)]
      simp
    case consumers =>
      intro u
      rw [Cond.waits_sleep, h.consumers u, update_iff (P := fun p => p = .dequeuing)]
      simp
  · obtain ⟨full, hsignal, rfl⟩ := Option.map_eq_some_iff.1 hrun
    constructor
    case full =>
      show NoLost (sz - (σ.cap - 1)) full
      exact ((h.full.mono hslots).signal hsignal).mono (by omega)
    case empty => exact h.empty.mono helems
    case producers =>
      intro u
      rw [Cond.waits_signal hsignal, h.producers u,
        update_iff (P := fun p => ∃ elm, p = .enqueuing elm)]
      simp
    case consumers =>
      intro u
      rw [h.consumers u, update_iff (P := fun p => p = .dequeuing)]
      simp

/-- **The step lemma.** -/
theorem step_waiting (h : Waiting sz σ) (hstep : step sz a σ = some τ) :
    Waiting sz τ := by
  cases a with
  | enqueue t elm who =>
      simp only [step] at hstep
      split at hstep
      · rename_i hphase
        exact enqueueRound_waiting (h.testing hphase) (Nat.sub_le _ 1) le_rfl hstep
      · cases hstep
  | dequeue t who =>
      simp only [step] at hstep
      split at hstep
      · rename_i hphase
        exact dequeueRound_waiting (h.testing hphase) le_rfl (Nat.sub_le _ 1) hstep
      · cases hstep
  | resume t who =>
      simp only [step] at hstep
      split at hstep
      · cases hstep
      · rename_i elm hphase
        split at hstep
        · rename_i ht
          exact enqueueRound_waiting (h.producer ht hphase) le_rfl le_rfl hstep
        · cases hstep
      · rename_i hphase
        split at hstep
        · rename_i ht
          exact dequeueRound_waiting (h.consumer ht hphase) le_rfl le_rfl hstep
        · cases hstep
  | spurious t =>
      simp only [step] at hstep
      split at hstep
      · rename_i ht
        cases hstep
        exact ⟨h.full.wake ht, h.empty,
          fun u => (Cond.waits_wake (Or.inl ht)).trans (h.producers u),
          h.consumers⟩
      · split at hstep
        · rename_i ht
          cases hstep
          exact ⟨h.full, h.empty.wake ht, h.producers,
            fun u => (Cond.waits_wake (Or.inl ht)).trans (h.consumers u)⟩
        · cases hstep

/-! ## Runs -/

/-- A state that the queue comes to, whatever is called and however the threads are scheduled. -/
abbrev Reached (sz : ℕ) (q : ℕ → α) (σ : System ι α) : Prop :=
  Reach (step sz) (fun _ _ => True) (init q) σ

variable {q : ℕ → α}

theorem run_invariant (h : Reached sz q σ) : Conserved sz σ ∧ Waiting sz σ := by
  refine h.invariant (I := fun σ => Conserved sz σ ∧
    Waiting sz σ) ⟨⟨Nat.zero_le sz, List.Perm.refl _⟩, ?_⟩ ?_
  · refine ⟨fun hne => ?_, noLost_zero _, fun u => ?_, fun u => ?_⟩
    · exact absurd hne Finset.not_nonempty_empty
    · refine iff_of_false Cond.not_waits_init ?_
      rintro ⟨elm, hu⟩
      cases hu
    · refine iff_of_false Cond.not_waits_init fun hu => ?_
      cases hu
  · rintro a s t ⟨hs, hw⟩ - hstep
    exact ⟨(step_stack hstep).conserved hs, step_waiting hw hstep⟩

/-- **No element is lost or doubled and no wake-up is lost**, for any number of threads and any
order of their steps. -/
theorem run_conserves (h : Reached sz q σ) :
    σ.cap ≤ sz ∧ (σ.dequeued ++ σ.stored).Perm σ.enqueued ∧
      ¬ (σ.empty.asleep.Nonempty ∧ σ.empty.woken.card < σ.cap) ∧
      ¬ (σ.full.asleep.Nonempty ∧ σ.full.woken.card < sz - σ.cap) := by
  obtain ⟨hconserved, hwaiting⟩ := run_invariant h
  refine ⟨hconserved.le, hconserved.perm, ?_, ?_⟩
  · rintro ⟨hne, hlt⟩
    exact absurd (hwaiting.empty hne) (Nat.not_le.2 hlt)
  · rintro ⟨hne, hlt⟩
    exact absurd (hwaiting.full hne) (Nat.not_le.2 hlt)

/-- Consumer 0 is woken for the 7, consumer 2 takes it first, and consumer 0 sleeps again until the
8 comes; producer 3 finds the queue full. -/
theorem run_conserves_overtaken :
    ∃ σ : System ℕ ℕ, σ.dequeued = [7] ∧ σ.stored = [8] ∧ σ.full.asleep = {3} ∧
      σ.empty.woken = {0} ∧
      σ.cap ≤ 1 ∧ (σ.dequeued ++ σ.stored).Perm σ.enqueued ∧
      ¬ (σ.empty.asleep.Nonempty ∧ σ.empty.woken.card < σ.cap) ∧
      ¬ (σ.full.asleep.Nonempty ∧ σ.full.woken.card < 1 - σ.cap) := by
  have hrun : ∃ σ : System ℕ ℕ, runGuarded (step 1) (fun _ _ => True)
      [.dequeue 0 none, .enqueue 1 7 (some 0), .dequeue 2 none, .resume 0 none,
        .enqueue 1 8 (some 0),
        .enqueue 3 9 none] (init fun _ => 0) = some σ ∧ σ.dequeued = [7] ∧ σ.stored = [8] ∧
      σ.full.asleep = {3} ∧ σ.empty.woken = {0} :=
        ⟨_, rfl, by decide, by decide, by decide, by decide⟩
  obtain ⟨σ, hrun, hdequeued, hstored, hasleep, hwoken⟩ := hrun
  exact ⟨σ, hdequeued, hstored, hasleep, hwoken, run_conserves (reach_of_runGuarded hrun)⟩

/-- So the threads within the calls do not all sleep, some on each condition. -/
theorem run_not_stuck (hsz : 0 < sz) (h : Reached sz q σ) (hp : σ.full.asleep.Nonempty)
    (hc : σ.empty.asleep.Nonempty) : ∃ t, t ∈ σ.full.woken ∨ t ∈ σ.empty.woken := by
  obtain ⟨-, hwaiting⟩ := run_invariant h
  by_contra hno
  have hfull : σ.full.woken = ∅ := Finset.eq_empty_of_forall_notMem fun t ht => hno ⟨t, Or.inl ht⟩
  have hempty : σ.empty.woken = ∅ := Finset.eq_empty_of_forall_notMem fun t ht => hno ⟨t, Or.inr ht⟩
  have hslots := hwaiting.full hp
  have helems := hwaiting.empty hc
  rw [hfull, Finset.card_empty] at hslots
  rw [hempty, Finset.card_empty] at helems
  omega

end Pcq

end Yacet
