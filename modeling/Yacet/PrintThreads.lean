import Yacet.Lib.Steps
import Yacet.PrintFile

/-!
# The print threads (`main.c`, `range.h`)

`-p` starts a thread for each name and joins them all.  The warnings of a query are printed as they
come, the block of a file or a range between a lock and an unlock of `print_lock`.

* `System`, `step` — the threads, the lock, the lines on the standard output and the main thread.
* `Inv` — the locked lines are the blocks of the threads that have had the lock, and a part of the
  block of the one that has it.
* `stdout_blocks` — **in every run the blocks come out whole, one after the other; when the main
  thread is through, each has come out once.  Until then some thread can go on.**
-/

namespace Yacet

open Steps Printing

namespace PrintThreads

/-! ## The state -/

/-- What a thread prints: outside the lock, and within it; a thread whose query fails has no
block. -/
structure Script where
  warnings : List Text
  block : List Text

/-- Where a thread is; the texts are those it has yet to print. -/
inductive Pc
  | absent
  | warning (rest : List Text)
  | printing (rest : List Text)
  | exited
  deriving DecidableEq, Repr

inductive Main
  | create (i : ℕ)
  | join (i : ℕ)
  | returned
  /-- `pthread_join` of a thread that was not created -/
  | wild
  deriving DecidableEq, Repr

/-- A `printf` of a thread. -/
structure Line where
  thread : ℕ
  locked : Bool
  text : Text
  deriving DecidableEq, Repr

/-- The threads, `print_lock`, the standard output and the main thread; `turns` records the threads
that have released the lock. -/
structure System where
  pcs : ℕ → Pc
  holder : Option ℕ
  out : List Line
  main : Main
  turns : List ℕ

def afterJoin (n i : ℕ) : Main := if i < n then .join i else .returned

def afterCreate (n i : ℕ) : Main := if i < n then .create i else afterJoin n 0

def System.start (n : ℕ) : System := ⟨fun _ => .absent, none, [], afterCreate n 0, []⟩

/-! ## The steps -/

inductive Act
  | create (ok : Bool)
  | warn (t : ℕ)
  | fail (t : ℕ)
  | lock (t : ℕ)
  | print (t : ℕ)
  | unlock (t : ℕ)
  | join

def System.setPc (σ : System) (t : ℕ) (pc : Pc) : System :=
    { σ with pcs := Function.update σ.pcs t pc }

variable (script : ℕ → Script) (n : ℕ)

/-- `pthread_create`; if it fails, the loop goes on. -/
def create (ok : Bool) (σ : System) : Option System :=
  match σ.main with
  | .create i =>
    some { (if ok then σ.setPc i (.warning (script i).warnings) else σ) with
      main := afterCreate n (i + 1) }
  | _ => none

/-- A `printf` of the query. -/
def warn (t : ℕ) (σ : System) : Option System :=
  match σ.pcs t with
  | .warning (text :: rest) =>
    some { σ.setPc t (.warning rest) with out := σ.out ++ [⟨t, false, text⟩] }
  | _ => none

/-- The query has failed. -/
def fail (t : ℕ) (σ : System) : Option System :=
  match σ.pcs t with
  | .warning [] => if (script t).block = [] then some (σ.setPc t .exited) else none
  | _ => none

/-- `pthread_mutex_lock(&print_lock)`. -/
def lock (t : ℕ) (σ : System) : Option System :=
  match σ.pcs t with
  | .warning [] =>
    if (script t).block ≠ [] ∧ σ.holder = none then
      some { σ.setPc t (.printing (script t).block) with holder := some t }
    else none
  | _ => none

/-- A `printf` of the block. -/
def print (t : ℕ) (σ : System) : Option System :=
  match σ.pcs t with
  | .printing (text :: rest) =>
    some { σ.setPc t (.printing rest) with out := σ.out ++ [⟨t, true, text⟩] }
  | _ => none

/-- `pthread_mutex_unlock(&print_lock)`, and the return. -/
def unlock (t : ℕ) (σ : System) : Option System :=
  match σ.pcs t with
  | .printing [] => some { σ.setPc t .exited with holder := none, turns := σ.turns ++ [t] }
  | _ => none

/-- `pthread_join(thds[j], NULL)`. -/
def join (σ : System) : Option System :=
  match σ.main with
  | .join i =>
    match σ.pcs i with
    | .exited => some { σ with main := afterJoin n (i + 1) }
    | .absent => some { σ with main := .wild }
    | _ => none
  | _ => none

def step : Act → System → Option System
  | .create ok => create script n ok
  | .warn t => warn t
  | .fail t => fail script t
  | .lock t => lock script t
  | .print t => print t
  | .unlock t => unlock t
  | .join => join n

/-! ## What has been printed -/

/-- The texts printed within the lock. -/
def locked (out : List Line) : List Text := (out.filter Line.locked).map Line.text

/-- The texts that a thread has printed outside the lock. -/
def warningsOf (t : ℕ) (out : List Line) : List Text :=
  (out.filter fun l => l.thread = t ∧ l.locked = false).map Line.text

/-- A thread, and the warnings that it has printed. -/
def Told (t : ℕ) (said : List Text) : Pc → Prop
  | .absent => said = []
  | .warning rest => (script t).warnings = said ++ rest
  | .printing _ => (script t).block ≠ [] ∧ said = (script t).warnings
  | .exited => said = (script t).warnings

/-- The lock and the part of a block that has been printed in the present turn. -/
def Turn (σ : System) (part : List Text) : Option ℕ → Prop
  | none => part = [] ∧ ∀ t rest, σ.pcs t ≠ .printing rest
  | some t => ∃ rest, σ.pcs t = .printing rest ∧ (script t).block = part ++ rest ∧
      ∀ u rest', σ.pcs u = .printing rest' → u = t

/-- How far the main thread is. -/
def Created (σ : System) : Main → Prop
  | .create i => i < n ∧ ∀ t, i ≤ t → σ.pcs t = .absent
  | .join i => i < n ∧ (∀ t < i, σ.pcs t = .exited) ∧ ∀ t, n ≤ t → σ.pcs t = .absent
  | .returned => (∀ t < n, σ.pcs t = .exited) ∧ ∀ t, n ≤ t → σ.pcs t = .absent
  | .wild => True

structure Inv (σ : System) : Prop where
  blocks : ∃ part, locked σ.out = (σ.turns.flatMap fun t => (script t).block) ++ part ∧
    Turn script σ part σ.holder
  nodup : σ.turns.Nodup
  mem : ∀ t, t ∈ σ.turns ↔ σ.pcs t = .exited ∧ (script t).block ≠ []
  told : ∀ t, Told script t (warningsOf t σ.out) (σ.pcs t)
  main : Created n σ σ.main

variable {script n} {σ σ' : System} {t u i : ℕ} {pc : Pc} {text : Text} {out : List Line}

@[simp] theorem setPc_self : (σ.setPc t pc).pcs t = pc := Function.update_self _ _ _

theorem setPc_of_ne (h : u ≠ t) : (σ.setPc t pc).pcs u = σ.pcs u := Function.update_of_ne h _ _

theorem locked_warning : locked (out ++ [⟨t, false, text⟩]) = locked out := by
  simp [locked]

theorem locked_append : locked (out ++ [⟨t, true, text⟩]) = locked out ++ [text] := by
  simp [locked]

theorem warningsOf_self :
    warningsOf t (out ++ [⟨t, false, text⟩]) = warningsOf t out ++ [text] := by
  simp [warningsOf]

theorem warningsOf_of_ne (h : u ≠ t) {b : Bool} :
    warningsOf u (out ++ [⟨t, b, text⟩]) = warningsOf u out := by
  simp [warningsOf, h.symm]

theorem warningsOf_locked : warningsOf u (out ++ [⟨t, true, text⟩]) = warningsOf u out := by
  simp [warningsOf]

/-- The main thread does not depend on a thread that has not exited. -/
theorem Created.setPc {m : Main} (h : Created n σ m) (hpc : σ.pcs t ≠ .absent)
    (he : σ.pcs t ≠ .exited)
    {σ' : System} (hσ : σ'.pcs = (σ.setPc t pc).pcs) : Created n σ' m := by
  have hold : ∀ {u}, σ.pcs u = .absent ∨ σ.pcs u = .exited → σ'.pcs u = σ.pcs u := by
    intro u hu
    rw [hσ]
    apply setPc_of_ne
    rintro rfl
    rcases hu with hu | hu
    · exact hpc hu
    · exact he hu
  cases m with
  | create i =>
      refine ⟨h.1, fun u hu => ?_⟩
      rw [hold (Or.inl (h.2 u hu)), h.2 u hu]
  | join i =>
      refine ⟨h.1, fun u hu => ?_, fun u hu => ?_⟩
      · rw [hold (Or.inr (h.2.1 u hu)), h.2.1 u hu]
      · rw [hold (Or.inl (h.2.2 u hu)), h.2.2 u hu]
  | returned =>
      refine ⟨fun u hu => ?_, fun u hu => ?_⟩
      · rw [hold (Or.inr (h.1 u hu)), h.1 u hu]
      · rw [hold (Or.inl (h.2 u hu)), h.2 u hu]
  | wild => trivial

/-- The turn goes on while another thread moves outside the lock. -/
theorem Turn.setPc {part : List Text} {holder : Option ℕ} (h : Turn script σ part holder)
    (hpc : ∀ rest, σ.pcs t ≠ .printing rest) (hnew : ∀ rest, pc ≠ .printing rest) {σ' : System}
    (hσ : σ'.pcs = (σ.setPc t pc).pcs) : Turn script σ' part holder := by
  have hiff : ∀ {u rest}, σ'.pcs u = .printing rest ↔ σ.pcs u = .printing rest := by
    intro u rest
    rw [hσ]
    by_cases hu : u = t
    · subst hu
      rw [setPc_self]
      exact iff_of_false (hnew rest) (hpc rest)
    · rw [setPc_of_ne hu]
  cases holder with
  | none =>
      refine ⟨h.1, fun u rest hu => h.2 u rest (hiff.1 hu)⟩
  | some v =>
      obtain ⟨rest, hv, hblock, huniq⟩ := h
      exact ⟨rest, hiff.2 hv, hblock, fun u rest' hu => huniq u rest' (hiff.1 hu)⟩

theorem created_afterJoin (hi : i ≤ n) (hdone : ∀ t < i, σ.pcs t = .exited)
    (hab : ∀ t, n ≤ t → σ.pcs t = .absent) : Created n σ (afterJoin n i) := by
  unfold afterJoin
  split
  · rename_i hlt
    exact ⟨hlt, hdone, hab⟩
  · rename_i hge
    exact ⟨fun t ht => hdone t (by omega), hab⟩

theorem created_afterCreate (hi : i ≤ n) (hab : ∀ t, i ≤ t → σ.pcs t = .absent) :
    Created n σ (afterCreate n i) := by
  unfold afterCreate
  split
  · rename_i hlt
    exact ⟨hlt, hab⟩
  · rename_i hge
    exact created_afterJoin (Nat.zero_le n) (fun t ht => absurd ht (Nat.not_lt_zero t))
      fun t ht => hab t (by omega)

theorem inv_start : Inv script n (System.start n) where
  blocks := ⟨[], rfl, rfl, fun _ _ => nofun⟩
  nodup := List.nodup_nil
  mem t := by simp [System.start]
  told t := rfl
  main := created_afterCreate (Nat.zero_le n) fun _ _ => rfl

/-! ## The steps keep the invariant -/

/-- The told part of the threads other than the one that moves. -/
theorem told_of_ne (h : Inv script n σ) (hne : u ≠ t)
    (hsaid : warningsOf u out = warningsOf u σ.out) :
    Told script u (warningsOf u out) ((σ.setPc t pc).pcs u) := by
  rw [hsaid, setPc_of_ne hne]
  exact h.told u

/-- A thread moves outside the lock. -/
theorem Inv.outside (h : Inv script n σ) (pc : Pc) (out : List Line)
    (hpc : ∀ rest, σ.pcs t ≠ .printing rest) (he : σ.pcs t ≠ .exited)
    (hnew : ∀ rest, pc ≠ .printing rest) (he' : pc = .exited → (script t).block = [])
    (hout : locked out = locked σ.out) (hsaid : ∀ u, u ≠ t → warningsOf u out = warningsOf u σ.out)
    (htold : Told script t (warningsOf t out) pc) {m : Main} (hmain : Created n (σ.setPc t pc) m) :
    Inv script n { σ.setPc t pc with out := out, main := m } where
  blocks := by
    obtain ⟨part, hlocked, hturn⟩ := h.blocks
    exact ⟨part, hout.trans hlocked, hturn.setPc hpc hnew rfl⟩
  nodup := h.nodup
  mem u := by
    by_cases hu : u = t
    · subst hu
      show u ∈ σ.turns ↔ (σ.setPc u pc).pcs u = _ ∧ _
      rw [h.mem, setPc_self]
      exact iff_of_false (fun hx => he hx.1) fun hx => hx.2 (he' hx.1)
    · show u ∈ σ.turns ↔ (σ.setPc t pc).pcs u = _ ∧ _
      rw [h.mem, setPc_of_ne hu]
  told u := by
    by_cases hu : u = t
    · subst hu
      show Told script u (warningsOf u out) ((σ.setPc u pc).pcs u)
      rw [setPc_self]
      exact htold
    · exact told_of_ne h hu (hsaid u hu)
  main := by
    cases m with
    | create i => exact hmain
    | join i => exact hmain
    | returned => exact hmain
    | wild => trivial

theorem Inv.withMain (h : Inv script n σ) {m : Main} (hmain : Created n σ m) :
    Inv script n { σ with main := m } where
  blocks := by
    obtain ⟨part, hlocked, hturn⟩ := h.blocks
    refine ⟨part, hlocked, ?_⟩
    cases hh : σ.holder with
    | none => rw [hh] at hturn; exact hturn
    | some t => rw [hh] at hturn; exact hturn
  nodup := h.nodup
  mem := h.mem
  told := h.told
  main := by
    cases m with
    | create i => exact hmain
    | join i => exact hmain
    | returned => exact hmain
    | wild => trivial

theorem create_step {ok : Bool} (h : Inv script n σ) (hs : create script n ok σ = some σ') :
    Inv script n σ' := by
  unfold create at hs
  split at hs
  · rename_i i hmain
    have hcreated := h.main
    rw [hmain] at hcreated
    obtain ⟨hlt, hab⟩ := hcreated
    have hi := hab i le_rfl
    cases hs
    cases ok
    · exact h.withMain (created_afterCreate hlt fun t ht => hab t (by omega))
    · refine h.outside (.warning (script i).warnings) σ.out ?_ ?_ (fun _ => nofun) nofun
        rfl (fun _ _ => rfl) ?_ (created_afterCreate hlt fun t ht => ?_)
      · rw [hi]
        exact fun _ => nofun
      · rw [hi]
        exact nofun
      · have htold := h.told i
        rw [hi] at htold
        have hnone : warningsOf i σ.out = [] := htold
        rw [hnone]
        rfl
      · rw [setPc_of_ne (by omega)]
        exact hab t (by omega)
  · cases hs

theorem warn_step (h : Inv script n σ) (hs : warn t σ = some σ') : Inv script n σ' := by
  unfold warn at hs
  split at hs
  · rename_i text rest hpc
    cases hs
    refine h.outside (.warning rest) _ ?_ ?_ (fun _ => nofun) nofun locked_warning
      (fun u hu => warningsOf_of_ne hu) ?_ (h.main.setPc ?_ ?_ rfl)
    · rw [hpc]
      exact fun _ => nofun
    · rw [hpc]
      exact nofun
    · have htold := h.told t
      rw [hpc] at htold
      have hsaid : (script t).warnings = warningsOf t σ.out ++ text :: rest := htold
      rw [warningsOf_self]
      show (script t).warnings = _
      rw [hsaid, List.append_assoc]
      rfl
    · rw [hpc]
      exact nofun
    · rw [hpc]
      exact nofun
  · cases hs

/-- A thread that has said all its warnings. -/
theorem Inv.said (h : Inv script n σ) (hpc : σ.pcs t = .warning []) :
    warningsOf t σ.out = (script t).warnings := by
  have htold := h.told t
  rw [hpc] at htold
  have hsaid : (script t).warnings = warningsOf t σ.out ++ [] := htold
  rw [hsaid, List.append_nil]

theorem fail_step (h : Inv script n σ) (hs : fail script t σ = some σ') : Inv script n σ' := by
  unfold fail at hs
  split at hs
  · rename_i hpc
    split at hs
    · rename_i hnil
      cases hs
      refine h.outside .exited σ.out ?_ ?_ (fun _ => nofun) (fun _ => hnil) rfl
        (fun _ _ => rfl) (h.said hpc) (h.main.setPc ?_ ?_ rfl)
      · rw [hpc]
        exact fun _ => nofun
      · rw [hpc]
        exact nofun
      · rw [hpc]
        exact nofun
      · rw [hpc]
        exact nofun
    · cases hs
  · cases hs

theorem lock_step (h : Inv script n σ) (hs : lock script t σ = some σ') : Inv script n σ' := by
  unfold lock at hs
  split at hs
  · rename_i hpc
    split at hs
    · rename_i hguard
      obtain ⟨hblock, hfree⟩ := hguard
      cases hs
      obtain ⟨part, hlocked, hturn⟩ := h.blocks
      rw [hfree] at hturn
      obtain ⟨rfl, hnone⟩ := hturn
      refine ⟨⟨[], hlocked, (script t).block, setPc_self, rfl, fun u rest hu => ?_⟩, h.nodup, ?_,
        ?_, ?_⟩
      · by_contra hne
        have hu' : (σ.setPc t (.printing (script t).block)).pcs u = .printing rest := hu
        rw [setPc_of_ne hne] at hu'
        exact hnone u rest hu'
      · intro u
        show u ∈ σ.turns ↔ (σ.setPc t (.printing (script t).block)).pcs u = _ ∧ _
        rw [h.mem]
        by_cases hu : u = t
        · subst hu
          rw [setPc_self, hpc]
          simp
        · rw [setPc_of_ne hu]
      · intro u
        by_cases hu : u = t
        · subst hu
          show Told script u (warningsOf u σ.out) ((σ.setPc u _).pcs u)
          rw [setPc_self]
          exact ⟨hblock, h.said hpc⟩
        · exact told_of_ne h hu rfl
      · refine h.main.setPc (t := t) ?_ ?_ rfl
        · rw [hpc]
          exact nofun
        · rw [hpc]
          exact nofun
    · cases hs
  · cases hs

/-- The thread that prints a block has the lock. -/
theorem Inv.turn (h : Inv script n σ) {rest : List Text} (hpc : σ.pcs t = .printing rest) :
    σ.holder = some t ∧
      (∃ part, locked σ.out = (σ.turns.flatMap fun t => (script t).block) ++ part ∧
      (script t).block = part ++ rest) ∧ ∀ u rest', σ.pcs u = .printing rest' → u = t := by
  obtain ⟨part, hlocked, hturn⟩ := h.blocks
  cases hholder : σ.holder with
  | none =>
      rw [hholder] at hturn
      exact absurd hpc (hturn.2 t rest)
  | some v =>
      rw [hholder] at hturn
      obtain ⟨rest', hv, hblock, huniq⟩ := hturn
      obtain rfl := huniq t rest hpc
      rw [hpc] at hv
      cases hv
      exact ⟨rfl, ⟨part, hlocked, hblock⟩, huniq⟩

theorem print_step (h : Inv script n σ) (hs : print t σ = some σ') : Inv script n σ' := by
  unfold print at hs
  split at hs
  · rename_i text rest hpc
    cases hs
    obtain ⟨hholder, ⟨part, hlocked, hblock⟩, huniq⟩ := h.turn hpc
    have htold := h.told t
    rw [hpc] at htold
    refine ⟨⟨part ++ [text], ?_, ?_⟩, h.nodup, ?_, ?_, ?_⟩
    · show locked (σ.out ++ [⟨t, true, text⟩]) = _
      rw [locked_append, hlocked, List.append_assoc]
      rfl
    · show Turn script _ _ σ.holder
      rw [hholder]
      refine ⟨rest, setPc_self, by rw [hblock]; simp, fun u rest' hu => ?_⟩
      by_contra hne
      have hu' : (σ.setPc t (.printing rest)).pcs u = .printing rest' := hu
      rw [setPc_of_ne hne] at hu'
      exact hne (huniq u rest' hu')
    · intro u
      show u ∈ σ.turns ↔ (σ.setPc t (.printing rest)).pcs u = _ ∧ _
      rw [h.mem]
      by_cases hu : u = t
      · subst hu
        rw [setPc_self, hpc]
        simp
      · rw [setPc_of_ne hu]
    · intro u
      show Told script u (warningsOf u (σ.out ++ [⟨t, true, text⟩]))
        ((σ.setPc t (.printing rest)).pcs u)
      by_cases hu : u = t
      · subst hu
        rw [setPc_self, warningsOf_locked]
        exact htold
      · exact told_of_ne h hu warningsOf_locked
    · refine h.main.setPc (t := t) ?_ ?_ rfl
      · rw [hpc]
        exact nofun
      · rw [hpc]
        exact nofun
  · cases hs

theorem unlock_step (h : Inv script n σ) (hs : unlock t σ = some σ') : Inv script n σ' := by
  unfold unlock at hs
  split at hs
  · rename_i hpc
    cases hs
    obtain ⟨hholder, ⟨part, hlocked, hblock⟩, huniq⟩ := h.turn hpc
    have htold := h.told t
    rw [hpc] at htold
    have hfresh : t ∉ σ.turns := by
      rw [h.mem, hpc]
      simp
    refine ⟨⟨[], ?_, rfl, fun u rest' hu => ?_⟩, ?_, ?_, ?_, ?_⟩
    · show locked σ.out = ((σ.turns ++ [t]).flatMap fun t => (script t).block) ++ []
      rw [hlocked, List.append_nil, List.flatMap_append, List.flatMap_singleton, hblock,
        List.append_nil]
    · have hu' : (σ.setPc t .exited).pcs u = .printing rest' := hu
      by_cases hne : u = t
      · subst hne
        rw [setPc_self] at hu'
        cases hu'
      · rw [setPc_of_ne hne] at hu'
        exact hne (huniq u rest' hu')
    · show (σ.turns ++ [t]).Nodup
      rw [← List.concat_eq_append]
      exact h.nodup.concat hfresh
    · intro u
      show u ∈ σ.turns ++ [t] ↔ (σ.setPc t .exited).pcs u = _ ∧ _
      rw [List.mem_append, List.mem_singleton, h.mem]
      by_cases hu : u = t
      · subst hu
        rw [setPc_self]
        simp [htold.1]
      · rw [setPc_of_ne hu]
        simp [hu]
    · intro u
      by_cases hu : u = t
      · subst hu
        show Told script u (warningsOf u σ.out) ((σ.setPc u .exited).pcs u)
        rw [setPc_self]
        exact htold.2
      · exact told_of_ne h hu rfl
    · refine h.main.setPc (t := t) ?_ ?_ rfl
      · rw [hpc]
        exact nofun
      · rw [hpc]
        exact nofun
  · cases hs

theorem join_step (h : Inv script n σ) (hs : join n σ = some σ') : Inv script n σ' := by
  unfold join at hs
  split at hs
  · rename_i i hmain
    have hcreated := h.main
    rw [hmain] at hcreated
    obtain ⟨hlt, hdone, hab⟩ := hcreated
    split at hs
    · rename_i hpc
      cases hs
      refine h.withMain (created_afterJoin hlt (fun t ht => ?_) hab)
      rcases Nat.lt_succ_iff_lt_or_eq.1 ht with ht | rfl
      · exact hdone t ht
      · exact hpc
    · cases hs
      exact h.withMain trivial
    · cases hs
  · cases hs

theorem inv_step {a : Act} (h : Inv script n σ) (hs : step script n a σ = some σ') :
    Inv script n σ' := by
  cases a with
  | create ok => exact create_step h hs
  | warn t => exact warn_step h hs
  | fail t => exact fail_step h hs
  | lock t => exact lock_step h hs
  | print t => exact print_step h hs
  | unlock t => exact unlock_step h hs
  | join => exact join_step h hs

theorem inv_run (hrun : Reach (step script n) (fun _ _ => True) (System.start n) σ) :
    Inv script n σ :=
  hrun.invariant inv_start fun _ _ _ h _ hs => inv_step h hs

/-! ## Some thread can go on -/

theorem enabled_printing {rest : List Text} (hpc : σ.pcs t = .printing rest) :
    ∃ a σ', step script n a σ = some σ' := by
  cases rest with
  | nil => exact ⟨.unlock t, _, by simp only [step, unlock, hpc]; rfl⟩
  | cons text rest => exact ⟨.print t, _, by simp only [step, print, hpc]; rfl⟩

/-- A thread that has been created is not stuck: it goes on, or the holder of the lock does. -/
theorem Inv.enabled_thread (h : Inv script n σ) (hab : σ.pcs t ≠ .absent) (he : σ.pcs t ≠ .exited) :
    ∃ a σ', step script n a σ = some σ' := by
  cases hpc : σ.pcs t with
  | absent => exact absurd hpc hab
  | exited => exact absurd hpc he
  | printing rest => exact enabled_printing hpc
  | warning rest =>
      cases rest with
      | cons text rest => exact ⟨.warn t, _, by simp only [step, warn, hpc]; rfl⟩
      | nil =>
          by_cases hblock : (script t).block = []
          · exact ⟨.fail t, _, by simp only [step, fail, hpc]; rw [if_pos hblock]⟩
          · cases hholder : σ.holder with
            | none =>
                exact ⟨.lock t, _, by simp only [step, lock, hpc]; rw [if_pos ⟨hblock, hholder⟩]⟩
            | some v =>
                obtain ⟨part, -, hturn⟩ := h.blocks
                rw [hholder] at hturn
                obtain ⟨rest, hv, -⟩ := hturn
                exact enabled_printing hv

theorem Inv.enabled (h : Inv script n σ) (hret : σ.main ≠ .returned) (hwild : σ.main ≠ .wild) :
    ∃ a σ', step script n a σ = some σ' := by
  cases hmain : σ.main with
  | returned => exact absurd hmain hret
  | wild => exact absurd hmain hwild
  | create i => exact ⟨.create true, _, by simp only [step, create, hmain]; rfl⟩
  | join i =>
      cases hpc : σ.pcs i with
      | exited => exact ⟨.join, _, by simp only [step, join, hmain, hpc]; rfl⟩
      | absent => exact ⟨.join, _, by simp only [step, join, hmain, hpc]; rfl⟩
      | warning rest =>
          exact h.enabled_thread (t := i) (by rw [hpc]; exact nofun) (by rw [hpc]; exact nofun)
      | printing rest => exact enabled_printing hpc

/-- What has been printed when the main thread is through. -/
theorem Inv.stdout (h : Inv script n σ) (hret : σ.main = .returned) :
    locked σ.out = (σ.turns.flatMap fun t => (script t).block) ∧
      (∀ t, t ∈ σ.turns ↔ t < n ∧ (script t).block ≠ []) ∧
      ∀ t < n, warningsOf t σ.out = (script t).warnings := by
  have hdone := h.main
  rw [hret] at hdone
  obtain ⟨hexited, hab⟩ := hdone
  have hno : ∀ t rest, σ.pcs t ≠ .printing rest := by
    intro t rest hpc
    by_cases ht : t < n
    · rw [hexited t ht] at hpc
      cases hpc
    · rw [hab t (Nat.not_lt.1 ht)] at hpc
      cases hpc
  refine ⟨?_, fun t => ?_, fun t ht => ?_⟩
  · obtain ⟨part, hlocked, hturn⟩ := h.blocks
    cases hholder : σ.holder with
    | none =>
        rw [hholder] at hturn
        rw [hlocked, hturn.1, List.append_nil]
    | some t =>
        rw [hholder] at hturn
        obtain ⟨rest, hpc, -⟩ := hturn
        exact absurd hpc (hno t rest)
  · rw [h.mem]
    by_cases ht : t < n
    · simp [hexited t ht, ht]
    · simp [hab t (Nat.not_lt.1 ht), ht]
  · have htold := h.told t
    rw [hexited t ht] at htold
    exact htold

/-- **The blocks come out whole, in the order of the turns**: in every state of every run the locked
lines are the blocks of the threads that have had their turn and a part of the block of the thread
that has the lock.  When the main thread is through, each thread has printed its warnings and had
its turn once, unless its query has failed; until then some step is possible, unless the main thread
has joined a thread that was never created. -/
theorem stdout_blocks (hrun : Reach (step script n) (fun _ _ => True) (System.start n) σ) :
    (σ.turns.Nodup ∧ ∃ part, locked σ.out = (σ.turns.flatMap fun t => (script t).block) ++ part ∧
      (part ≠ [] → ∃ t, σ.holder = some t ∧ t ∉ σ.turns ∧ part <+: (script t).block)) ∧
    (σ.main = .returned → locked σ.out = (σ.turns.flatMap fun t => (script t).block) ∧
      (∀ t, t ∈ σ.turns ↔ t < n ∧ (script t).block ≠ []) ∧
      ∀ t < n, warningsOf t σ.out = (script t).warnings) ∧
    (σ.main ≠ .returned → σ.main ≠ .wild → ∃ a σ', step script n a σ = some σ') := by
  have h := inv_run hrun
  obtain ⟨part, hlocked, hturn⟩ := h.blocks
  refine ⟨⟨h.nodup, part, hlocked, fun hne => ?_⟩, h.stdout, h.enabled⟩
  cases hholder : σ.holder with
  | none =>
      rw [hholder] at hturn
      exact absurd hturn.1 hne
  | some t =>
      rw [hholder] at hturn
      obtain ⟨rest, hpc, hblock, -⟩ := hturn
      refine ⟨t, rfl, ?_, rest, hblock.symm⟩
      rw [h.mem, hpc]
      exact fun hx => nomatch hx.1

/-- File `a` with a flagged row, and file `b`. -/
def twoScripts (t : ℕ) : Script :=
  if t = 0 then ⟨[warning ⟨1, 1, 1, 0, 2, true⟩], fileBlock 0 ['a'] [⟨1, 0, 2⟩]⟩
  else ⟨[], fileBlock 0 ['b'] [⟨2, 3, 4⟩]⟩

/-- The second thread has its turn first, and the warning of the first comes between its lines. -/
def secondFirst : List Act :=
  [.create true, .create true, .lock 1, .print 1, .warn 0, .print 1, .unlock 1, .lock 0, .print 0,
    .print 0, .unlock 0, .join, .join]

theorem stdout_blocks_two : ∃ σ, Reach (step twoScripts 2) (fun _ _ => True) (System.start 2) σ ∧
    σ.main = .returned ∧
    locked σ.out = fileBlock 0 ['b'] [⟨2, 3, 4⟩] ++ fileBlock 0 ['a'] [⟨1, 0, 2⟩] := by
  have hrun :
    ∃ σ, runGuarded (step twoScripts 2) (fun _ _ => True) secondFirst (System.start 2) = some σ ∧
      σ.main = .returned ∧ σ.turns = [1, 0] := ⟨_, rfl, rfl, rfl⟩
  obtain ⟨σ, hrun, hret, hturns⟩ := hrun
  have hreach := reach_of_runGuarded hrun
  refine ⟨σ, hreach, hret, ?_⟩
  rw [((stdout_blocks hreach).2.1 hret).1, hturns]
  rfl

/-! ## The files of the command line -/

/-- **The standard output of `-p -f`**: the blocks of all files in some order, each with the pieces
of its own rows. -/
theorem stdout_files {fuel : ℕ} {name junk : ℕ → Text} {rows : ℕ → List OffsetRow}
    (hrows : ∀ t < n, ∀ r ∈ rows t, r.base ≤ r.bound) (hjunk : ∀ t < n, (junk t).length = 8)
    (hfuel : ∀ t < n, (rows t).length < fuel)
    (hscript : ∀ t < n, ∃ r, thdPfile fuel (name t) (rows t) true (junk t) = .ok r ∧
      script t = ⟨r.warnings, r.block⟩)
    (hrun : Reach (step script n) (fun _ _ => True) (System.start n) σ)
      (hret : σ.main = .returned) :
    ∃ l : ℕ → List ItNode, (∀ t < n, Pieces ((rows t).map OffsetRow.node) (l t)) ∧
      σ.turns.Perm (List.range n) ∧ locked σ.out = σ.turns.flatMap fun t =>
        fileBlock 0 (name t) (l t) := by
  have h := inv_run hrun
  obtain ⟨hlocked, hmem, -⟩ := h.stdout hret
  have hblock : ∀ t, ∃ l, t < n → Pieces ((rows t).map OffsetRow.node) l ∧
      (script t).block = fileBlock 0 (name t) l := by
    intro t
    by_cases ht : t < n
    · obtain ⟨r, hr, hs⟩ := hscript t ht
      obtain ⟨l, hl, hb⟩ := (correct_of_thdPfile (hrows t ht) (hjunk t ht) (hfuel t ht) hr).2.block
      exact ⟨l, fun _ => ⟨hl, by rw [hs]; exact hb⟩⟩
    · exact ⟨[], fun ht' => absurd ht' ht⟩
  choose l hl using hblock
  refine ⟨l, fun t ht => (hl t ht).1, ?_, ?_⟩
  · rw [List.perm_ext_iff_of_nodup h.nodup List.nodup_range]
    intro t
    rw [hmem, List.mem_range]
    refine and_iff_left_of_imp fun ht => ?_
    rw [(hl t ht).2]
    exact List.cons_ne_nil _ _
  · rw [hlocked]
    apply List.flatMap_congr
    intro t ht
    exact (hl t ((hmem t).1 ht).1).2

end PrintThreads

end Yacet
