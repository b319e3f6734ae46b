import Yacet.Lib.Tickets

/-!
# The nodes of one client

A client keeps the name of the node that it has created last.  As long as every node of its own has
the name it keeps, it has one node at most and can delete it.

* `By` — a step of one client: the others stay where they are and get no nodes.
* `Books`, `Tidy` — the name that a client keeps, and the clients that have no nodes of another
  name; a fresh one, whose next node will be a new one, keeps none.
* `Tidy.of_by`, `Tidy.enter`, `Tidy.add`, `Tidy.remove` — steps of others and own ones.
* `Tidy.unique` — **a tidy client has one node at most.**
-/

namespace Tickets

variable {ν π κ : Type*}

/-- No node of client `c` is there. -/
def NoneOf (owner : ν → ℕ) (c : ℕ) (d : Dir ν) : Prop := ∀ e ∈ d.nodes, owner e.2 ≠ c

instance (owner : ν → ℕ) (c : ℕ) (d : Dir ν) : Decidable (NoneOf owner c d) := by
  unfold NoneOf
  infer_instance

/-! ## Steps of one client -/

/-- Client `c` has taken a step. -/
structure By (owner : ν → ℕ) (c : ℕ) (σ τ : System ν π) : Prop where
  phase : ∀ c', c' ≠ c → τ.phase c' = σ.phase c'
  nodes : ∀ e ∈ τ.dir.nodes, e ∈ σ.dir.nodes ∨ owner e.2 = c
  numbered : σ.dir.WellNumbered → τ.dir.WellNumbered

section By

variable {owner : ν → ℕ} {c : ℕ} {σ τ : System ν π} {p : π}

theorem By.enter : By owner c σ (σ.enter c p) where
  phase _ hc := System.phase_enter_of_ne _ hc p
  nodes _ he := Or.inl he
  numbered h := h

theorem By.add {s : ℕ} (hs : σ.dir.next ≤ s) {v : ν} (hv : owner v = c) :
    By owner c σ (System.enter ⟨σ.dir.add s v, σ.phase⟩ c p) where
  phase _ hc := System.phase_enter_of_ne _ hc p
  nodes e he := by
    rcases Dir.mem_add.1 he with he | rfl
    · exact Or.inl he
    · exact Or.inr hv
  numbered h := h.add hs v

theorem By.remove (gone : ℕ × ν → Bool) :
    By owner c σ (System.enter ⟨σ.dir.remove gone, σ.phase⟩ c p) where
  phase _ hc := System.phase_enter_of_ne _ hc p
  nodes _ he := Or.inl (Dir.mem_remove.1 he).1
  numbered h := h.remove gone

/-- The nodes of the other clients were there before. -/
theorem By.mem (h : By owner c σ τ) {e : ℕ × ν} (he : e ∈ τ.dir.nodes) (hne : owner e.2 ≠ c) :
    e ∈ σ.dir.nodes :=
  (h.nodes e he).resolve_right hne

theorem By.noneOf (h : By owner c σ τ) {c' : ℕ} (hne : c' ≠ c) (hnone : NoneOf owner c' σ.dir) :
    NoneOf owner c' τ.dir := by
  intro e he heq
  exact hnone e (h.mem he fun hc => hne (heq.symm.trans hc)) heq

end By

/-! ## Tidy clients -/

/-- The name of a node, the name that a client keeps in a phase, and the phases from which it goes
on to a new node or ends without one. -/
structure Books (ν π κ : Type*) where
  owner : ν → ℕ
  label : ℕ × ν → κ
  kept : π → Option κ
  fresh : π → Prop
  label_inj : ∀ e e', label e = label e' → e.1 = e'.1

/-- All nodes of client `c` have the name that it keeps. -/
structure Tidy (B : Books ν π κ) (c : ℕ) (σ : System ν π) : Prop where
  known : ∀ e ∈ σ.dir.nodes, B.owner e.2 = c → B.label e ∈ B.kept (σ.phase c)
  fresh : B.fresh (σ.phase c) → B.kept (σ.phase c) = none

namespace Tidy

variable {B : Books ν π κ} {c : ℕ} {σ τ : System ν π} {d : Dir ν} {p : π}

theorem noneOf (h : Tidy B c σ) (hkept : B.kept (σ.phase c) = none) :
    NoneOf B.owner c σ.dir := by
  intro e he howner
  have hmem := h.known e he howner
  rw [hkept] at hmem
  cases hmem

theorem noneOf_of_fresh (h : Tidy B c σ) (hfresh : B.fresh (σ.phase c)) :
    NoneOf B.owner c σ.dir :=
  h.noneOf (h.fresh hfresh)

/-- **A tidy client has one node at most.** -/
theorem unique (h : Tidy B c σ) (hnum : σ.dir.WellNumbered) {e e' : ℕ × ν} (he : e ∈ σ.dir.nodes)
    (he' : e' ∈ σ.dir.nodes) (howner : B.owner e.2 = c) (howner' : B.owner e'.2 = c) : e = e' := by
  have hlabel : B.label e = B.label e' :=
    Option.mem_unique (h.known e he howner) (h.known e' he' howner')
  exact List.inj_on_of_nodup_map hnum.nodup he he' (B.label_inj e e' hlabel)

/-- Steps of others leave a client tidy. -/
theorem of_by {c' : ℕ} (h : Tidy B c σ) (hby : By B.owner c' σ τ) (hne : c ≠ c') : Tidy B c τ := by
  have hphase := hby.phase c hne
  constructor
  · intro e he howner
    rw [hphase]
    exact h.known e (hby.mem he fun hc => hne (howner.symm.trans hc)) howner
  · rw [hphase]
    exact h.fresh

theorem of_known (hknown : ∀ e ∈ d.nodes, B.owner e.2 = c → B.label e ∈ B.kept p)
    (hfresh : B.fresh p → B.kept p = none) (phase : ℕ → π) :
    Tidy B c (System.enter ⟨d, phase⟩ c p) := by
  constructor
  · rw [System.phase_enter_self]
    exact hknown
  · rw [System.phase_enter_self]
    exact hfresh

/-- A client without nodes can go on as it likes. -/
theorem of_noneOf (hnone : NoneOf B.owner c σ.dir) (hfresh : B.fresh p → B.kept p = none) :
    Tidy B c (σ.enter c p) :=
  of_known (fun e he howner => absurd howner (hnone e he)) hfresh σ.phase

/-- It goes on and keeps the name. -/
theorem enter (h : Tidy B c σ) (hkept : B.kept p = B.kept (σ.phase c))
    (hfresh : B.fresh p → B.kept p = none) : Tidy B c (σ.enter c p) := by
  refine of_known (fun e he howner => ?_) hfresh σ.phase
  rw [hkept]
  exact h.known e he howner

/-- **A fresh client creates a node and keeps its name.** -/
theorem add (h : Tidy B c σ) (hnone : B.fresh (σ.phase c)) {s : ℕ} {v : ν}
    (hlabel : B.label (s, v) ∈ B.kept p) (hfresh : B.fresh p → B.kept p = none) :
    Tidy B c (System.enter ⟨σ.dir.add s v, σ.phase⟩ c p) := by
  refine of_known (fun e he howner => ?_) hfresh σ.phase
  rcases Dir.mem_add.1 he with he | rfl
  · exact absurd howner (h.noneOf_of_fresh hnone e he)
  · exact hlabel

/-- Nodes go, and the client keeps the name. -/
theorem remove (h : Tidy B c σ) {gone : ℕ × ν → Bool} (hkept : B.kept p = B.kept (σ.phase c))
    (hfresh : B.fresh p → B.kept p = none) :
    Tidy B c (System.enter ⟨σ.dir.remove gone, σ.phase⟩ c p) := by
  refine of_known (fun e he howner => ?_) hfresh σ.phase
  rw [hkept]
  exact h.known e (Dir.mem_remove.1 he).1 howner

/-- When all nodes of the kept name go, none is left. -/
theorem noneOf_remove (h : Tidy B c σ) {gone : ℕ × ν → Bool}
    (hgone : ∀ e, B.label e ∈ B.kept (σ.phase c) → gone e = true) :
    NoneOf B.owner c (σ.dir.remove gone) := by
  intro e he howner
  obtain ⟨hmem, hstays⟩ := Dir.mem_remove.1 he
  rw [hgone e (h.known e hmem howner)] at hstays
  cases hstays

end Tidy

end Tickets
