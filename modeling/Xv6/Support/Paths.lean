import Xv6.Support.Machine
import Mathlib

/-!
# Support — paths that take a lock

Code that takes and releases one spinlock, on any number of CPUs.  A *path* is what is left to do of
an operation: actions on the shared state, and between them the calls of the lock, of the scheduler,
and jumps to named points, by which a loop is written.

A CPU that calls `acquire` while it holds the lock panics; `Path.Obeys` says of a path, without
looking at the state, that it does not, that it releases only what it holds, that it enters the
scheduler with the lock and comes back from it with the lock, and with which lock it ends.

* `Path.obeys_bind`: the rule for a sequence.
* `obeys_of_reachable`: when the code at every point obeys, the paths of all CPUs obey in every state
  that can be reached, whatever the interleaving.
* `Path.run`: a path alone on its CPU, up to the scheduler.
-/

namespace Xv6.Support

/-- What is left to do.  The actions have labels in `τ`, and the points are those of `ρ`. -/
inductive Path (τ ρ ε σ α : Type) where
  | ret (a : α)
  /-- a panic or a fault -/
  | stop (e : ε)
  | act (t : τ) (f : σ → σ) (next : σ → Path τ ρ ε σ α)
  | acquire (next : Path τ ρ ε σ α)
  | release (next : Path τ ρ ε σ α)
  /-- into the scheduler; `next` when it comes back -/
  | sched (next : Path τ ρ ε σ α)
  | jump (r : ρ)

namespace Path

variable {τ ρ ε σ α β : Type}

def bind : Path τ ρ ε σ α → (α → Path τ ρ ε σ β) → Path τ ρ ε σ β
  | ret a, g => g a
  | stop e, _ => stop e
  | act t f next, g => act t f fun s => (next s).bind g
  | acquire next, g => acquire (next.bind g)
  | release next, g => release (next.bind g)
  | sched next, g => sched (next.bind g)
  | jump r, _ => jump r

instance : Monad (Path τ ρ ε σ) where
  pure := ret
  bind := bind

/-- One action that returns a value, or stops. -/
def perform (t : τ) (g : σ → Except ε (α × σ)) : Path τ ρ ε σ α :=
  act t (fun s => match g s with
    | .ok r => r.2
    | .error _ => s)
    fun s => match g s with
    | .ok r => ret r.1
    | .error e => stop e

/-- `acquire` -/
def lock : Path τ ρ ε σ Unit := acquire (ret ())

/-- `release` -/
def unlock : Path τ ρ ε σ Unit := release (ret ())

/-! ### Discipline -/

/-- A path, on a CPU that holds the lock or not, takes it only when it does not hold it, and ends as
`Q` says; where an action meets the condition `G` of its label.  At the point `r` the lock is held
exactly if `need r`. -/
def Obeys (G : τ → σ → Prop) (need : ρ → Bool) (Q : α → Bool → Prop) :
    Path τ ρ ε σ α → Bool → Prop
  | ret a, h => Q a h
  | stop _, _ => True
  | act t _ next, h => ∀ s, G t s → Obeys G need Q (next s) h
  | acquire next, h => h = false ∧ Obeys G need Q next true
  | release next, h => h = true ∧ Obeys G need Q next false
  | sched next, h => h = true ∧ Obeys G need Q next true
  | jump r, h => need r = h

variable {G : τ → σ → Prop} {need : ρ → Bool}

variable {h : Bool} {Q : β → Bool → Prop}

theorem Obeys.mono {Q Q' : α → Bool → Prop} (hQ : ∀ a h, Q a h → Q' a h) {p : Path τ ρ ε σ α}
    (hp : p.Obeys G need Q h) : p.Obeys G need Q' h := by
  induction p generalizing h with
  | ret a => exact hQ a h hp
  | stop e => trivial
  | act t f next ih => exact fun s hs => ih s (hp s hs)
  | acquire next ih => exact ⟨hp.1, ih hp.2⟩
  | release next ih => exact ⟨hp.1, ih hp.2⟩
  | sched next ih => exact ⟨hp.1, ih hp.2⟩
  | jump r => exact hp

/-- **Sequence.**  The second path obeys from where the first leaves the lock. -/
theorem obeys_bind {p : Path τ ρ ε σ α} {g : α → Path τ ρ ε σ β}
    (hp : p.Obeys G need (fun a h => (g a).Obeys G need Q h) h) : (p >>= g).Obeys G need Q h := by
  change (p.bind g).Obeys G need Q h
  induction p generalizing h with
  | ret a => exact hp
  | stop e => trivial
  | act t f next ih => exact fun s hs => ih s (hp s hs)
  | acquire next ih => exact ⟨hp.1, ih hp.2⟩
  | release next ih => exact ⟨hp.1, ih hp.2⟩
  | sched next ih => exact ⟨hp.1, ih hp.2⟩
  | jump r => exact hp

theorem obeys_lock {g : Unit → Path τ ρ ε σ β}
    (hg : (g ()).Obeys G need Q true) : (lock >>= g).Obeys G need Q false :=
  obeys_bind ⟨rfl, hg⟩

theorem obeys_unlock {g : Unit → Path τ ρ ε σ β}
    (hg : (g ()).Obeys G need Q false) : (unlock >>= g).Obeys G need Q true :=
  obeys_bind ⟨rfl, hg⟩

/-- An action, and then a path that obeys with every value it can return. -/
theorem obeys_perform {t : τ} {f : σ → Except ε (α × σ)} {g : α → Path τ ρ ε σ β}
    (hg : ∀ s a s', G t s → f s = .ok (a, s') → (g a).Obeys G need Q h) :
    (perform t f >>= g).Obeys G need Q h := by
  refine obeys_bind fun s hs => ?_
  beta_reduce
  cases hf : f s with
  | error e => trivial
  | ok r => exact hg s r.1 r.2 hs hf

end Path

/-! ### Any number of CPUs -/

/-- The shared state, the CPU that holds the lock, the path of each CPU (none while it is in the
scheduler and has released the lock), and the paths that wait in the scheduler. -/
structure Cpus (C τ ρ ε σ α : Type) where
  state : σ
  owner : Option C
  path : C → Option (Path τ ρ ε σ α)
  parked : List (Path τ ρ ε σ α)

/-- What a CPU does next. -/
inductive Move (C τ ρ : Type) where
  /-- an operation starts at a point, where the last one has returned -/
  | start (c : C) (r : ρ)
  /-- the next step of its path -/
  | step (c : C)
  /-- the timer, with the action `t`: the path gives up the CPU, and goes on later from here -/
  | timer (c : C) (t : τ)
  /-- the scheduler goes on with a path that waits -/
  | resume (c : C) (i : Nat)
  /-- a new path waits in the scheduler -/
  | spawn (r : ρ)

/-- The code: the path at each point, whether it starts with the lock, and what the timer does. -/
structure Code (τ ρ ε σ α : Type) where
  path : ρ → Path τ ρ ε σ α
  need : ρ → Bool
  timer : τ → σ → σ

namespace Cpus

variable {C τ ρ ε σ α : Type} [DecidableEq C]

/-- The path of a CPU goes on. -/
def goOn (S : Cpus C τ ρ ε σ α) (c : C) (p : Path τ ρ ε σ α) : Cpus C τ ρ ε σ α :=
  { S with path := Function.update S.path c (some p) }

/-- The next step of the path `p` of a CPU. -/
def next (K : Code τ ρ ε σ α) (S : Cpus C τ ρ ε σ α) (c : C) :
    Path τ ρ ε σ α → Option (Cpus C τ ρ ε σ α)
  | .ret _ | .stop _ => none
  | .act _ f n => some { S.goOn c (n S.state) with state := f S.state }
  | .acquire n => if S.owner = none then some { S.goOn c n with owner := some c } else none
  | .release n => if S.owner = some c then some { S.goOn c n with owner := none } else none
  | .sched n =>
    if S.owner = some c then
      some { S with owner := none, path := Function.update S.path c none, parked := n :: S.parked }
    else none
  | .jump r => some (S.goOn c (K.path r))

def step (K : Code τ ρ ε σ α) (S : Cpus C τ ρ ε σ α) : Move C τ ρ → Option (Cpus C τ ρ ε σ α)
  | .start c r => match S.path c with
      | some (.ret _) => if K.need r = false then some (S.goOn c (K.path r)) else none
      | _ => none
  | .step c => (S.path c).bind (S.next K c)
  | .timer c t => match S.path c with
      | some p =>
        -- interrupts are off while the lock is held
        if S.owner = some c then none
        else some (S.goOn c (.acquire (.act t (K.timer t) fun _ => .sched (.release p))))
      | none => none
  | .resume c i => match S.path c, S.owner, S.parked[i]? with
      | none, none, some p =>
        some { S.goOn c p with owner := some c, parked := S.parked.eraseIdx i }
      | _, _, _ => none
  | .spawn r => if K.need r = true then some { S with parked := K.path r :: S.parked } else none

/-- An action meets the condition of its label. -/
def Meets (G : τ → σ → Prop) (S : Cpus C τ ρ ε σ α) : Move C τ ρ → Prop
  | .step c => match S.path c with
      | some (.act t _ _) => G t S.state
      | _ => True
  | _ => True

instance (G : τ → σ → Prop) [∀ t s, Decidable (G t s)] (S : Cpus C τ ρ ε σ α) (m : Move C τ ρ) :
    Decidable (Meets G S m) :=
  match m with
  | .step c => by
    unfold Meets
    dsimp only
    split <;> infer_instance
  | .start .. | .timer .. | .resume .. | .spawn _ => .isTrue trivial

/-- Every path obeys, and ends without the lock. -/
structure Disciplined (G : τ → σ → Prop) (K : Code τ ρ ε σ α) (S : Cpus C τ ρ ε σ α) : Prop where
  path : ∀ c p, S.path c = some p → p.Obeys G K.need (fun _ h => h = false) (S.owner = some c)
  idle : ∀ c, S.path c = none → S.owner ≠ some c
  parked : ∀ p ∈ S.parked, p.Obeys G K.need (fun _ h => h = false) true

namespace Disciplined

variable {G : τ → σ → Prop} {K : Code τ ρ ε σ α} {S S' : Cpus C τ ρ ε σ α} {c : C}

/-- One CPU goes on, and the lock is as it was for every other. -/
theorem goOn (h : Disciplined G K S) {p : Path τ ρ ε σ α} {owner : Option C} {s : σ}
    (hp : p.Obeys G K.need (fun _ h => h = false) (owner = some c))
    (ho : ∀ c', c' ≠ c → (owner = some c' ↔ S.owner = some c')) :
    Disciplined G K { S.goOn c p with state := s, owner := owner } where
  path := by
    intro c' q hq
    by_cases e : c' = c
    · subst e
      cases (Function.update_self ..).symm.trans hq
      exact hp
    · have := h.path c' q ((Function.update_of_ne e ..).symm.trans hq)
      simpa only [ho c' e] using this
  idle := by
    intro c' hc'
    by_cases e : c' = c
    · subst e
      cases (Function.update_self ..).symm.trans hc'
    · have := h.idle c' ((Function.update_of_ne e ..).symm.trans hc')
      rwa [ne_eq, ho c' e]
  parked := h.parked

section

variable (hK : ∀ r, (K.path r).Obeys G K.need (fun _ h => h = false) (K.need r))
  (h : Disciplined G K S)
include hK h

/-- The next step of a path that obeys. -/
theorem next {p : Path τ ρ ε σ α} (hp : S.path c = some p)
    (hG : ∀ t f n, p = .act t f n → G t S.state) (hs : S.next K c p = some S') :
    Disciplined G K S' := by
  have hobeys := h.path c p hp
  cases p with
  | ret a => cases hs
  | stop e => cases hs
  | act t f n =>
    cases hs
    exact h.goOn (hobeys S.state (hG t f n rfl)) fun _ _ => Iff.rfl
  | acquire n =>
    rw [Cpus.next] at hs
    split at hs
    · rename_i hfree
      cases hs
      refine h.goOn (by simpa using hobeys.2) fun c' hc' => ?_
      rw [hfree]
      exact ⟨fun e => absurd (Option.some.inj e).symm hc', (nomatch ·)⟩
    · cases hs
  | release n =>
    rw [Cpus.next] at hs
    split at hs
    · rename_i hheld
      cases hs
      refine h.goOn (by simpa using hobeys.2) fun c' hc' => ?_
      rw [hheld]
      exact ⟨(nomatch ·), fun e => absurd (Option.some.inj e).symm hc'⟩
    · cases hs
  | sched n =>
    rw [Cpus.next] at hs
    split at hs
    · rename_i hheld
      cases hs
      refine ⟨fun c' q hq => ?_, fun _ _ => (nomatch ·), fun q hq => ?_⟩
      · obtain ⟨hc', hq⟩ : c' ≠ c ∧ S.path c' = some q := by
          by_cases e : c' = c
          · subst e
            cases (Function.update_self ..).symm.trans hq
          · exact ⟨e, (Function.update_of_ne e ..).symm.trans hq⟩
        have hne : ¬some c = some c' := fun e => hc' (Option.some.inj e).symm
        simpa [hheld, hne] using h.path c' q hq
      · rcases List.mem_cons.mp hq with rfl | hq
        · exact hobeys.2
        · exact h.parked q hq
    · cases hs
  | jump r =>
    cases hs
    refine h.goOn ?_ fun _ _ => Iff.rfl
    have hr : K.need r = decide (S.owner = some c) := hobeys
    rw [← hr]
    exact hK r

/-- Every move that meets the conditions keeps the discipline. -/
theorem step {m : Move C τ ρ} (hm : Meets G S m) (hs : S.step K m = some S') :
    Disciplined G K S' := by
  cases m with
  | start c r =>
    rw [Cpus.step] at hs
    split at hs
    · rename_i a hp
      split at hs
      · rename_i hr
        cases hs
        refine h.goOn ?_ fun _ _ => Iff.rfl
        have hfree : decide (S.owner = some c) = false := h.path c _ hp
        have hobeys := hK r
        rw [hr] at hobeys
        rwa [hfree]
      · cases hs
    · cases hs
  | step c =>
    obtain ⟨p, hp, hs⟩ := Option.bind_eq_some_iff.mp hs
    refine h.next hK hp (fun t f n e => ?_) hs
    rw [Meets, hp, e] at hm
    exact hm
  | timer c t =>
    rw [Cpus.step] at hs
    split at hs
    · rename_i p hp
      split at hs
      · cases hs
      · rename_i hfree
        cases hs
        refine h.goOn ⟨decide_eq_false hfree, fun s _ => ⟨rfl, rfl, ?_⟩⟩ fun _ _ => Iff.rfl
        simpa [hfree] using h.path c p hp
    · cases hs
  | resume c i =>
    rw [Cpus.step] at hs
    split at hs
    · rename_i p hc ho hp
      cases hs
      have hobeys := h.parked p (List.mem_of_getElem? hp)
      have hgo : Disciplined G K { S.goOn c p with owner := some c } := by
        refine h.goOn (by simpa using hobeys) fun c' hc' => ?_
        rw [ho]
        exact ⟨fun e => absurd (Option.some.inj e).symm hc', (nomatch ·)⟩
      exact ⟨hgo.path, hgo.idle, fun q hq => h.parked q (List.mem_of_mem_eraseIdx hq)⟩
    · cases hs
  | spawn r =>
    rw [Cpus.step] at hs
    split at hs
    · rename_i hr
      cases hs
      refine ⟨h.path, h.idle, fun q hq => ?_⟩
      rcases List.mem_cons.mp hq with rfl | hq
      · exact hr ▸ hK r
      · exact h.parked q hq
    · cases hs

/-- **The discipline in every reachable state**, when the code at every point obeys. -/
theorem run (r : Run (fun S (m : Move C τ ρ) S' => S.step K m = some S') (Meets G) S S') :
    Disciplined G K S' :=
  r.invariant h fun _ _ _ hI hG hs => hI.step hK hG hs

end

end Disciplined

end Cpus

end Xv6.Support
