import Mathlib.Data.List.Nodup
import Mathlib.Logic.Function.Basic

/-!
# Directories of numbered nodes

A directory gives every new node a number above all numbers it has given before; nodes can go away
at any time.  A lock protocol on such a directory lets a client in when nothing that conflicts with
its node stands in front of it.

* `Dir`, `Dir.add`, `Dir.remove` — the directory and its two changes.
* `Front` — what holds of every node in front of a number; `Front.add` and `Front.remove`: once it
  holds it stays, since new nodes are numbered behind.
* `Front.exclusive` — **two nodes that each have no conflicting node in front do not conflict.**
* `Issued`, `Owns` — a number that stands for one value only, and whose node is there.
* `Inv` — clients on a directory, each with something it knows; `Inv.enter`, `Inv.add` and
  `Inv.remove`: a step of one client leaves the others what they know if that is `Stable`.
-/

namespace Tickets

variable {ν : Type*}

/-- The nodes with their numbers, and the least number not yet given. -/
structure Dir (ν : Type*) where
  nodes : List (ℕ × ν)
  next : ℕ
  deriving DecidableEq, Repr

namespace Dir

def empty : Dir ν := ⟨[], 0⟩

/-- A new node with number `s`. -/
def add (d : Dir ν) (s : ℕ) (v : ν) : Dir ν := ⟨d.nodes ++ [(s, v)], s + 1⟩

/-- The nodes of `gone` vanish; no number is given twice. -/
def remove (d : Dir ν) (gone : ℕ × ν → Bool) : Dir ν := ⟨d.nodes.filter fun e => !gone e, d.next⟩

@[simp] theorem next_add (d : Dir ν) (s : ℕ) (v : ν) : (d.add s v).next = s + 1 := rfl

@[simp] theorem next_remove (d : Dir ν) (gone : ℕ × ν → Bool) : (d.remove gone).next = d.next := rfl

@[simp] theorem mem_add {d : Dir ν} {s : ℕ} {v : ν} {e : ℕ × ν} :
    e ∈ (d.add s v).nodes ↔ e ∈ d.nodes ∨ e = (s, v) := by
  simp [add]

@[simp] theorem mem_remove {d : Dir ν} {gone : ℕ × ν → Bool} {e : ℕ × ν} :
    e ∈ (d.remove gone).nodes ↔ e ∈ d.nodes ∧ gone e = false := by
  simp [remove]

/-- The numbers are below `next` and all different. -/
structure WellNumbered (d : Dir ν) : Prop where
  lt : ∀ e ∈ d.nodes, e.1 < d.next
  nodup : (d.nodes.map Prod.fst).Nodup

theorem WellNumbered.empty : WellNumbered (empty : Dir ν) :=
  ⟨by simp [Dir.empty], by simp [Dir.empty]⟩

theorem WellNumbered.add {d : Dir ν} (h : d.WellNumbered) {s : ℕ} (hs : d.next ≤ s) (v : ν) :
    (d.add s v).WellNumbered := by
  constructor
  · intro e he
    rw [next_add]
    rcases mem_add.1 he with he | rfl
    · have := h.lt e he
      omega
    · exact Nat.lt_succ_self s
  · rw [Dir.add, List.map_append, List.nodup_append]
    refine ⟨h.nodup, by simp, ?_⟩
    intro a ha b hb
    obtain ⟨e, he, rfl⟩ := List.mem_map.1 ha
    have hlt := h.lt e he
    rw [List.map_singleton, List.mem_singleton] at hb
    omega

theorem WellNumbered.remove {d : Dir ν} (h : d.WellNumbered) (gone : ℕ × ν → Bool) :
    (d.remove gone).WellNumbered := by
  constructor
  · intro e he
    exact h.lt e (mem_remove.1 he).1
  · exact h.nodup.sublist (List.filter_sublist.map _)

end Dir

/-- Every node in front of number `s` has the property. -/
def Front (Q : ℕ × ν → Prop) (s : ℕ) (d : Dir ν) : Prop := ∀ e ∈ d.nodes, e.1 < s → Q e

namespace Front

variable {Q Q' : ℕ × ν → Prop} {d : Dir ν} {s : ℕ}

theorem imp (h : Front Q s d) (hQ : ∀ e ∈ d.nodes, e.1 < s → Q e → Q' e) : Front Q' s d := by
  intro e he hlt
  exact hQ e he hlt (h e he hlt)

/-- **New nodes do not stand in front.** -/
theorem add (h : Front Q s d) {t : ℕ} (hs : s < d.next) (ht : d.next ≤ t) (v : ν) :
    Front Q s (d.add t v) := by
  intro e he hlt
  rcases Dir.mem_add.1 he with he | rfl
  · exact h e he hlt
  · omega

theorem remove (h : Front Q s d) (gone : ℕ × ν → Bool) : Front Q s (d.remove gone) := by
  intro e he hlt
  exact h e (Dir.mem_remove.1 he).1 hlt

/-- **Of two conflicting nodes one stands in front of the other**, so they cannot both be clear. -/
theorem exclusive {R : ν → ν → Prop} (hR : ∀ v w, R v w → R w v) {s t : ℕ} {v w : ν}
    (hne : s ≠ t) (hv : (s, v) ∈ d.nodes) (hw : (t, w) ∈ d.nodes)
    (hs : Front (fun e => ¬ R v e.2) s d) (ht : Front (fun e => ¬ R w e.2) t d) : ¬ R v w := by
  intro hvw
  rcases Nat.lt_or_gt_of_ne hne with hlt | hgt
  · exact ht _ hv hlt (hR v w hvw)
  · exact hs _ hw hgt hvw

end Front

/-! ## Owned numbers -/

/-- The node of number `s` is `v`, if it is there. -/
structure Issued (v : ν) (s : ℕ) (d : Dir ν) : Prop where
  lt : s < d.next
  own : ∀ w, (s, w) ∈ d.nodes → w = v

/-- It is there. -/
structure Owns (v : ν) (s : ℕ) (d : Dir ν) : Prop extends Issued v s d where
  present : (s, v) ∈ d.nodes

section Owned

variable {v w : ν} {s t : ℕ} {d : Dir ν} {gone : ℕ × ν → Bool}

theorem Issued.add (h : Issued v s d) (ht : d.next ≤ t) : Issued v s (d.add t w) := by
  have hlt := h.lt
  constructor
  · rw [Dir.next_add]
    omega
  · intro u hu
    rcases Dir.mem_add.1 hu with hu | hu
    · exact h.own u hu
    · cases hu
      omega

theorem Issued.remove (h : Issued v s d) : Issued v s (d.remove gone) :=
  ⟨h.lt, fun u hu => h.own u (Dir.mem_remove.1 hu).1⟩

theorem Owns.add (h : Owns v s d) (ht : d.next ≤ t) : Owns v s (d.add t w) :=
  ⟨h.toIssued.add ht, Dir.mem_add.2 (Or.inl h.present)⟩

theorem Owns.remove (h : Owns v s d) (hgone : ¬ gone (s, v) = true) : Owns v s (d.remove gone) :=
  ⟨h.toIssued.remove, Dir.mem_remove.2 ⟨h.present, Bool.not_eq_true _ ▸ hgone⟩⟩

/-- A new node has its number for itself. -/
theorem Owns.new (h : d.WellNumbered) (hs : d.next ≤ s) : Owns v s (d.add s v) := by
  refine ⟨⟨Nat.lt_succ_self s, ?_⟩, Dir.mem_add.2 (Or.inr rfl)⟩
  intro u hu
  rcases Dir.mem_add.1 hu with hu | hu
  · have := h.lt _ hu
    omega
  · cases hu
    rfl

/-- Different owned values have different numbers. -/
theorem Owns.ne (h : Owns v s d) (h' : Owns w t d) (hne : v ≠ w) : s ≠ t := by
  rintro rfl
  exact hne (h.own w h'.present).symm

end Owned

/-! ## Clients on a directory -/

/-- A directory, and where every client stands. -/
structure System (ν π : Type*) where
  dir : Dir ν
  phase : ℕ → π

variable {π : Type*}

def System.enter (σ : System ν π) (c : ℕ) (p : π) : System ν π :=
  { σ with phase := Function.update σ.phase c p }

@[simp] theorem System.dir_enter (σ : System ν π) (c : ℕ) (p : π) : (σ.enter c p).dir = σ.dir := rfl

@[simp] theorem System.phase_enter_self (σ : System ν π) (c : ℕ) (p : π) :
    (σ.enter c p).phase c = p := by
  change Function.update σ.phase c p c = p
  rw [Function.update_self]

theorem System.phase_enter_of_ne (σ : System ν π) {c c' : ℕ} (hc : c' ≠ c) (p : π) :
    (σ.enter c p).phase c' = σ.phase c' := by
  change Function.update σ.phase c p c' = σ.phase c'
  rw [Function.update_of_ne hc]

/-- What a client knows is not touched by new nodes, nor when nodes of others go. -/
structure Stable (owner : ν → ℕ) (Ok : ℕ → Dir ν → π → Prop) : Prop where
  add : ∀ c d p t v, Ok c d p → d.next ≤ t → Ok c (d.add t v) p
  remove : ∀ c d p gone, Ok c d p → (∀ e ∈ d.nodes, gone e = true → owner e.2 ≠ c) →
    Ok c (d.remove gone) p

/-- The numbers stay below `bound`, every node is good, and every client is right about what it
knows. -/
structure Inv (bound : ℕ) (Good : ν → Prop) (Ok : ℕ → Dir ν → π → Prop) (σ : System ν π) :
    Prop where
  numbered : σ.dir.WellNumbered
  bound : σ.dir.next ≤ bound
  good : ∀ e ∈ σ.dir.nodes, Good e.2
  phase : ∀ c, Ok c σ.dir (σ.phase c)

namespace Inv

variable {bound : ℕ} {Good : ν → Prop} {Ok : ℕ → Dir ν → π → Prop} {σ : System ν π} {c s : ℕ}
  {p : π} {v : ν} {d : Dir ν} {gone : ℕ × ν → Bool} {owner : ν → ℕ}

theorem start (p : π) (hp : ∀ c, Ok c Dir.empty p) :
    Inv bound Good Ok ⟨Dir.empty, fun _ => p⟩ where
  numbered := Dir.WellNumbered.empty
  bound := Nat.zero_le _
  good := by simp [Dir.empty]
  phase := hp

theorem of_phase (h : Inv bound Good Ok σ) (hphase : σ.phase c = p) : Ok c σ.dir p := by
  rw [← hphase]
  exact h.phase c

/-- A change of the directory that leaves the other clients what they know. -/
theorem of_others (hnum : d.WellNumbered) (hbound : d.next ≤ bound)
    (hgood : ∀ e ∈ d.nodes, Good e.2) (hothers : ∀ c' ≠ c, Ok c' d (σ.phase c')) (hp : Ok c d p) :
    Inv bound Good Ok (System.enter ⟨d, σ.phase⟩ c p) where
  numbered := hnum
  bound := hbound
  good := hgood
  phase c' := by
    by_cases hc : c' = c
    · subst hc
      rw [System.phase_enter_self]
      exact hp
    · rw [System.phase_enter_of_ne _ hc]
      exact hothers c' hc

/-- A client goes on without touching the directory. -/
theorem enter (h : Inv bound Good Ok σ) (hp : Ok c σ.dir p) : Inv bound Good Ok (σ.enter c p) :=
  of_others h.numbered h.bound h.good (fun c' _ => h.phase c') hp

/-- **A client creates a node.** -/
theorem add (hst : Stable owner Ok) (h : Inv bound Good Ok σ) (hnext : σ.dir.next ≤ s)
    (hs : s < bound) (hv : Good v) (hp : Ok c (σ.dir.add s v) p) :
    Inv bound Good Ok (System.enter ⟨σ.dir.add s v, σ.phase⟩ c p) := by
  refine of_others (h.numbered.add hnext v) hs ?_ (fun c' _ => hst.add _ _ _ _ _ (h.phase c') hnext)
    hp
  intro e he
  rcases Dir.mem_add.1 he with he | rfl
  · exact h.good e he
  · exact hv

/-- **Nodes of a client go.** -/
theorem remove (hst : Stable owner Ok) (h : Inv bound Good Ok σ)
    (hgone : ∀ e ∈ σ.dir.nodes, gone e = true → owner e.2 = c) (hp : Ok c (σ.dir.remove gone) p) :
    Inv bound Good Ok (System.enter ⟨σ.dir.remove gone, σ.phase⟩ c p) := by
  refine of_others (h.numbered.remove gone) h.bound
    (fun e he => h.good e (Dir.mem_remove.1 he).1) (fun c' hc => ?_) hp
  apply hst.remove _ _ _ _ (h.phase c')
  intro e he hmem heq
  exact hc (heq.symm.trans (hgone e he hmem))

end Inv

end Tickets
