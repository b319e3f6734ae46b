import Yacet.MasterWatch
import Yacet.Lib.Books

/-!
# The nodes a master lock leaves (`zkclient.c`)

`zk_acquire_lock` creates a node before it checks, starts over with a new one on any error, and
keeps only the newest name.

* `Smooth` — a call of client `c` after which nothing has to be started over: the client has no node
  left when it acquires, no answer is lost once it has one, and no other client's node stands in
  front of a writer that lists the directory.
* `Neat` — one node at most, none after an error, and nothing of its own keeps the client out.
* `neat_of_smooth` — **a client all of whose calls are smooth stays neat**, whatever the others do.
-/

namespace Yacet

open CText Tickets Steps

namespace MasterLock

def Act.acquires : Act → Bool
  | .acquire _ _ => true
  | _ => false

def Act.lists : Act → Bool
  | .list _ _ => true
  | _ => false

/-- A call that ends with an error although the client has a node. -/
def Act.lossy : Act → Bool
  | .createLost _ _ | .listFails _ => true
  | _ => false

/-- The name of a writer's node that waits for the list. -/
def Phase.writerName : Phase → Option Text
  | .created .write _ lockName => some lockName
  | _ => none

/-- A call of client `c` that makes it start over for no reason of its own; calls of others are. -/
def Smooth (c : ℕ) (a : Act) (σ : System) : Prop :=
  a.actor = c → a.lossy = false ∧ (a.acquires = true → NoneOf Node.client c σ.dir) ∧
    (a.lists = true → ∀ lockName ∈ (σ.phase c).writerName,
      ∀ e ∈ σ.dir.nodes, e.1 < getSequenceNumber lockName → e.2.client = c)

instance (c : ℕ) (a : Act) (σ : System) : Decidable (Smooth c a σ) := by
  unfold Smooth
  infer_instance

/-- `zk_acquire_lock` is under way. -/
def Phase.acquiring : Phase → Bool
  | .trying _ _ _ | .created _ _ _ | .listed _ _ _ _ => true
  | _ => false

def Phase.isIdle : Phase → Bool
  | .idle _ _ => true
  | _ => false

/-- What has been listed lets the client in. -/
def Phase.Admitted : Phase → Prop
  | .listed k _ lockName children => ∀ server, check k server lockName children = some (true, ZOK)
  | _ => True

/-- Client `c` has one node at most, none once `zk_acquire_lock` has returned an error, and no node
of its own keeps it out. -/
structure Neat (filePath : Text) (c : ℕ) (σ : System) : Prop where
  single : ∀ e ∈ σ.dir.nodes, ∀ e' ∈ σ.dir.nodes, e.2.client = c → e'.2.client = c → e = e'
  error : ∀ a τ, Smooth c a σ → step filePath a σ = some τ → (σ.phase c).acquiring = true →
    (τ.phase c).isIdle = true → NoneOf Node.client c τ.dir
  admitted : (σ.phase c).Admitted

/-! ## Steps -/

/-- The name that a client keeps. -/
def Phase.kept : Phase → Option Text
  | .idle _ left => left
  | .trying _ _ left => left
  | .created _ _ lockName => some lockName
  | .listed _ _ lockName _ => some lockName
  | .held _ lockName _ => some lockName
  | .releasing _ lockName _ => some lockName

/-- The next call creates a node. -/
def Phase.fresh : Phase → Bool
  | .trying _ _ _ => true
  | _ => false

def books : Books Node Phase Text where
  owner := Node.client
  label := nodeName
  kept := Phase.kept
  fresh p := p.fresh = true
  label_inj _ _ h := lockNode_inj h

theorem kept_failed (k : Kind) (count : ℕ) (left : Option Text) :
    (Phase.failed k count left).kept = left := by
  unfold Phase.failed
  split <;> rfl

theorem admitted_failed (k : Kind) (count : ℕ) (left : Option Text) :
    (Phase.failed k count left).Admitted := by
  unfold Phase.failed
  split <;> trivial

variable {filePath : Text} {c : ℕ} {a : Act} {σ τ : System} {d : Dir Node} {p : Phase}

/-- A call concerns nobody else. -/
theorem step_by (hstep : step filePath a σ = some τ) : By Node.client a.actor σ τ := by
  obtain ⟨d, p, rfl, hgoes⟩ := goes_of_step hstep
  cases hgoes with
  | create h hs hbound => exact By.add hs rfl
  | createLost h hs hbound => exact By.add hs rfl
  | delete h =>
      split
      · exact By.remove _
      · exact By.enter
  | leave h => exact By.remove _
  | _ => exact By.enter

/-! ## Own calls -/

/-- **A client that has listed the directory is let in**, if all nodes in front of a writer's own
are the client's: they all have its name. -/
theorem admitted_of_front (hnamed : Named σ) (htidy : Tidy books c σ) {k : Kind} {count : ℕ}
    {lockName : Text} {children : List Text} (hphase : σ.phase c = .created k count lockName)
    (hperm : children.Perm (σ.dir.nodes.map nodeName))
    (hfront : ∀ lockName ∈ (σ.phase c).writerName,
      ∀ e ∈ σ.dir.nodes, e.1 < getSequenceNumber lockName → e.2.client = c) :
    (Phase.listed k count lockName children).Admitted := by
  intro server
  have hname : IsNode lockName := by
    have hok := hnamed.phase c
    rw [hphase] at hok
    exact hok
  have hchildren : ∀ name ∈ children, ∃ e ∈ σ.dir.nodes, name = nodeName e := by
    intro name hmem
    obtain ⟨e, he, rfl⟩ := List.mem_map.1 (hperm.mem_iff.1 hmem)
    exact ⟨e, he, rfl⟩
  have hrel : ∀ name ∈ children, '/' ∉ name := by
    intro name hmem
    obtain ⟨e, -, rfl⟩ := hchildren name hmem
    exact slash_notMem_nodeName e
  cases k with
  | read =>
      obtain ⟨e, -, rfl⟩ := hname
      exact readEligibility_of_relative hrel
  | write =>
      have hle : ∀ name ∈ children,
          toInt (getSequenceNumber lockName) ≤ toInt (getSequenceNumber name) := by
        intro name hmem
        obtain ⟨e, he, rfl⟩ := hchildren name hmem
        have hs := hnamed.bound e he
        rw [hname.toInt_eq, nodeName, toInt_getSequenceNumber _ hs, Nat.cast_le]
        by_contra hlt
        rw [Nat.not_le] at hlt
        have hown := hfront lockName (by rw [hphase]; rfl) e he hlt
        have hkept := htidy.known e he hown
        rw [hphase] at hkept
        have hsame : nodeName e = lockName := (Option.mem_some_iff.1 hkept).symm
        rw [← hsame, nodeName, getSequenceNumber_lockNode _ hs] at hlt
        exact Nat.lt_irrefl _ hlt
      rw [check, writeEligibility]
      simp only [eligibility]
      rw [if_pos ((writeScan_minSeq _ _).2 hle)]

/-- What holds for client `c` in all runs in which its own calls are smooth. -/
structure Steady (c : ℕ) (σ : System) : Prop where
  named : Named σ
  numbered : σ.dir.WellNumbered
  tidy : Tidy books c σ
  admitted : (σ.phase c).Admitted

theorem Steady.start (c : ℕ) : Steady c start where
  named := Named.start
  numbered := Dir.WellNumbered.empty
  tidy := ⟨by simp [MasterLock.start, Dir.empty], fun hp => by cases hp⟩
  admitted := trivial

/-- A smooth call leaves the directory tidy and the client admitted. -/
theorem Goes.tidy (hgoes : Goes filePath σ a d p) (h : Steady a.actor σ)
    (hsmooth : Smooth a.actor a σ) :
    Tidy books a.actor (System.enter ⟨d, σ.phase⟩ a.actor p) ∧ p.Admitted := by
  obtain ⟨hlossy, hacquires, hlists⟩ := hsmooth rfl
  have hnew : ∀ {p : Phase}, p.kept = (σ.phase a.actor).kept →
      (books.fresh p → books.fresh (σ.phase a.actor)) → Tidy books a.actor (σ.enter a.actor p) :=
    fun hkept hfresh => h.tidy.enter hkept fun hp => hkept.trans (h.tidy.fresh (hfresh hp))
  cases hgoes with
  | acquire hphase => exact ⟨Tidy.of_noneOf (hacquires rfl) fun _ => rfl, trivial⟩
  | parentFails hphase =>
      exact ⟨hnew (by rw [Act.actor, hphase]; rfl) (fun hp => by cases hp), trivial⟩
  | create hphase hs hbound =>
      refine ⟨h.tidy.add ?_ rfl (fun hp => by cases hp), trivial⟩
      rw [Act.actor, hphase]
      rfl
  | createLost hphase hs hbound => cases hlossy
  | createFails hphase =>
      refine ⟨hnew ?_ fun _ => ?_, admitted_failed _ _ _⟩
      · rw [kept_failed, Act.actor, hphase]
        rfl
      · rw [Act.actor, hphase]
        rfl
  | list hphase hperm =>
      refine ⟨hnew (by rw [Act.actor, hphase]; rfl) (fun hp => by cases hp), ?_⟩
      exact admitted_of_front h.named h.tidy hphase hperm (hlists rfl)
  | listFails hphase => cases hlossy
  | @decide c count k lockName children server r hphase hr =>
      have hadm := h.admitted
      rw [Act.actor, hphase] at hadm
      obtain rfl : (true, ZOK) = r := Option.some.inj ((hadm server).symm.trans hr)
      rw [if_pos rfl]
      refine ⟨hnew (by rw [Act.actor, hphase]; rfl) (fun hp => by cases hp), trivial⟩
  | release hphase => exact ⟨hnew (by rw [Act.actor, hphase]; rfl) (fun hp => by cases hp), trivial⟩
  | releaseIdle hphase =>
      exact ⟨hnew (by rw [Act.actor, hphase]; rfl) (fun hp => by cases hp), trivial⟩
  | @delete c count made answered k lockName hphase =>
      have hp : ∃ p : Phase, p = (if answered = false ∧ count + 1 < 3 then
          .releasing k lockName (count + 1) else .idle k (some lockName)) ∧
          p.kept = some lockName ∧ p.fresh = false ∧ p.Admitted := by
        split
        · exact ⟨_, rfl, rfl, rfl, trivial⟩
        · exact ⟨_, rfl, rfl, rfl, trivial⟩
      obtain ⟨p, hp, hkept, hfresh, hadm⟩ := hp
      rw [← hp]
      have hsame : p.kept = (σ.phase c).kept := by
        rw [hkept, hphase]
        rfl
      refine ⟨?_, hadm⟩
      split
      · exact h.tidy.remove hsame fun hp => absurd (hp.symm.trans hfresh) (by decide)
      · exact h.tidy.enter hsame fun hp => absurd (hp.symm.trans hfresh) (by decide)
  | @leave c k left hphase =>
      refine ⟨Tidy.of_known (fun e he howner => ?_) (fun _ => rfl) σ.phase, trivial⟩
      have hstays : (e.2.client == c) = false := (Dir.mem_remove.1 he).2
      exact absurd (beq_iff_eq.2 howner) (ne_true_of_eq_false hstays)

/-- **The step lemma.** -/
theorem Steady.step (h : Steady c σ) (hsmooth : Smooth c a σ)
    (hstep : step filePath a σ = some τ) : Steady c τ := by
  have hby := step_by hstep
  by_cases hc : a.actor = c
  · subst hc
    obtain ⟨d, p, rfl, hgoes⟩ := goes_of_step hstep
    obtain ⟨htidy, hadm⟩ := hgoes.tidy h hsmooth
    refine ⟨h.named.step hstep, hby.numbered h.numbered, htidy, ?_⟩
    rw [System.phase_enter_self]
    exact hadm
  · refine ⟨h.named.step hstep, hby.numbered h.numbered, h.tidy.of_by hby (Ne.symm hc), ?_⟩
    rw [hby.phase c (Ne.symm hc)]
    exact h.admitted

/-- An acquisition that ends without the lock ends before the client has a node. -/
theorem Goes.noneOf (hgoes : Goes filePath σ a d p) (h : Steady a.actor σ)
    (hsmooth : Smooth a.actor a σ) (hacq : (σ.phase a.actor).acquiring = true)
    (hidle : p.isIdle = true) : NoneOf Node.client a.actor d := by
  obtain ⟨hlossy, -, -⟩ := hsmooth rfl
  cases hgoes with
  | parentFails hphase => exact h.tidy.noneOf_of_fresh (by rw [Act.actor, hphase]; rfl)
  | createFails hphase => exact h.tidy.noneOf_of_fresh (by rw [Act.actor, hphase]; rfl)
  | createLost hphase hs hbound => cases hlossy
  | listFails hphase => cases hlossy
  | @decide c count k lockName children server r hphase hr =>
      have hadm := h.admitted
      rw [Act.actor, hphase] at hadm
      obtain rfl : (true, ZOK) = r := Option.some.inj ((hadm server).symm.trans hr)
      rw [if_pos rfl] at hidle
      cases hidle
  | acquire hphase =>
      rw [Act.actor, hphase] at hacq
      cases hacq
  | create hphase hs hbound => cases hidle
  | list hphase hperm => cases hidle
  | release hphase => cases hidle
  | releaseIdle hphase => cases hidle
  | delete hphase =>
      rw [Act.actor, hphase] at hacq
      cases hacq
  | leave hphase =>
      rw [Act.actor, hphase] at hacq
      cases hacq

theorem Steady.neat (h : Steady c σ) : Neat filePath c σ where
  single _ he _ he' howner howner' := h.tidy.unique h.numbered he he' howner howner'
  error a τ hsmooth hstep hacq hidle := by
    by_cases hc : a.actor = c
    · subst hc
      obtain ⟨d, p, rfl, hgoes⟩ := goes_of_step hstep
      rw [System.phase_enter_self] at hidle
      exact hgoes.noneOf h hsmooth hacq hidle
    · rw [(step_by hstep).phase c (Ne.symm hc)] at hidle
      cases hphase : σ.phase c with
      | idle k left =>
          rw [hphase] at hacq
          cases hacq
      | _ =>
          rw [hphase] at hidle
          cases hidle
  admitted := h.admitted

/-- **A client all of whose calls are smooth stays neat**, whatever the others do. -/
theorem neat_of_smooth (h : Reach (step filePath) (Smooth c) start σ) : Neat filePath c σ :=
  Steady.neat (h.invariant (Steady.start c) fun _ _ _ hs hsmooth hstep => hs.step hsmooth hstep)

end MasterLock

end Yacet
