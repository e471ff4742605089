import Mathlib

/-!
# Support — Result

Computations that may stop.  A function that runs another and goes on with its value returns a
value exactly when both do (`bind_ok`); this is the one rule by which a run of a long function is
taken apart into the runs of its parts.
-/

namespace Xv6.Support

universe u v

variable {ε : Type u} {α β : Type v}

variable {f : α → Except ε β} {x : Except ε α} {γ : Type v}

/-- A sequence of two computations returns `b` when the first returns a value with which the
second returns `b`. -/
theorem bind_ok {b : β} : (x >>= f) = .ok b ↔ ∃ a, x = .ok a ∧ f a = .ok b := by
  cases x with
  | error e =>
    constructor
    · intro h; cases h
    · rintro ⟨_, h, _⟩; cases h
  | ok a =>
    constructor
    · intro h; exact ⟨a, rfl, h⟩
    · rintro ⟨_, h, hf⟩; cases h; exact hf

/-- A sequence of two computations stops where the first does, or the second after it. -/
theorem bind_error {e : ε} :
    (x >>= f) = .error e ↔ x = .error e ∨ ∃ a, x = .ok a ∧ f a = .error e := by
  cases x with
  | error e' =>
    constructor
    · intro h; cases h; exact .inl rfl
    · rintro (h | ⟨_, h, _⟩)
      · cases h; rfl
      · cases h
  | ok a =>
    constructor
    · intro h; exact .inr ⟨a, rfl, h⟩
    · rintro (h | ⟨_, h, hf⟩)
      · cases h
      · cases h; exact hf

theorem map_ok {b : β} {g : α → β} : x.map g = .ok b ↔ ∃ a, x = .ok a ∧ g a = b := by
  cases x <;> simp [Except.map]

/-- A function of the result of a sequence is one of the result of its second part. -/
theorem except_map_bind {g : β → γ} : (x >>= f).map g = x >>= fun a => (f a).map g := by
  cases x <;> rfl

theorem except_bind_map {x : Except ε γ} {g : γ → α} :
    (x.map g >>= f) = x >>= fun a => f (g a) := by
  cases x <;> rfl

theorem except_map_map {f : α → β} {g : β → γ} : (x.map f).map g = x.map fun a => g (f a) := by
  cases x <;> rfl

theorem toOption_eq_some {a : α} : x.toOption = some a ↔ x = .ok a := by
  cases x with
  | error e =>
    constructor
    · intro h; cases h
    · intro h; cases h
  | ok b =>
    constructor
    · intro h; cases h; rfl
    · intro h; cases h; rfl

/-- The computation returns a value of which `P` holds, or stops for a reason of which `Q` holds. -/
def Meets (x : Except ε α) (P : α → Prop) (Q : ε → Prop) : Prop :=
  match x with
  | .ok a => P a
  | .error e => Q e

namespace Meets

variable {P P' : α → Prop} {Q Q' : ε → Prop}

theorem ok (h : Meets x P Q) {a : α} (hx : x = .ok a) : P a := by
  subst hx
  exact h

theorem error (h : Meets x P Q) {e : ε} (hx : x = .error e) : Q e := by
  subst hx
  exact h

theorem mono (h : Meets x P Q) (hP : ∀ a, P a → P' a) (hQ : ∀ e, Q e → Q' e) : Meets x P' Q' := by
  cases x with
  | ok a => exact hP a h
  | error e => exact hQ e h

end Meets

/-- What holds of the result of a computation can be decided by running it. -/
instance decidableOk {x : Except ε α} {P : α → Prop} [DecidablePred P] :
    Decidable (∃ a, x = .ok a ∧ P a) :=
  match x with
  | .error _ => isFalse fun ⟨_, h, _⟩ => nomatch h
  | .ok a => decidable_of_iff (P a) ⟨fun h => ⟨a, rfl, h⟩, fun ⟨_, h, hP⟩ => Except.ok.inj h ▸ hP⟩

instance decidableOkPair {x : Except ε (α × β)} {a : α} {P : β → Prop} [DecidableEq α]
    [DecidablePred P] : Decidable (∃ b, x = .ok (a, b) ∧ P b) :=
  decidable_of_iff (∃ r, x = .ok r ∧ r.1 = a ∧ P r.2)
    ⟨fun ⟨r, h, ha, hP⟩ => ⟨r.2, by rw [h, ← ha], hP⟩, fun ⟨b, h, hP⟩ => ⟨(a, b), h, rfl, hP⟩⟩

instance decidableError {x : Except ε α} {e : ε} [DecidableEq ε] : Decidable (x = .error e) :=
  match x with
  | .error e' => decidable_of_iff (e' = e) ⟨congrArg _, Except.error.inj⟩
  | .ok _ => isFalse nofun

instance decidableSome {x : Option α} {P : α → Prop} [DecidablePred P] :
    Decidable (∃ a, x = some a ∧ P a) :=
  match x with
  | none => isFalse fun ⟨_, h, _⟩ => nomatch h
  | some a => decidable_of_iff (P a) ⟨fun h => ⟨a, rfl, h⟩, fun ⟨_, h, hP⟩ => Option.some.inj h ▸ hP⟩

/-- What every round of a loop keeps, the loop keeps. -/
theorem foldlM_invariant {σ : Type v} {body : σ → α → Except ε σ} {I : σ → Prop} {l : List α}
    (hbody : ∀ a ∈ l, ∀ s s', I s → body s a = .ok s' → I s') {s s' : σ} (hs : I s)
    (h : l.foldlM body s = .ok s') : I s' := by
  induction l generalizing s with
  | nil =>
    cases h
    exact hs
  | cons a l ih =>
    obtain ⟨s₁, h₁, h⟩ := bind_ok.mp h
    exact ih (fun b hb => hbody b (List.mem_cons_of_mem a hb))
      (hbody a List.mem_cons_self s s₁ hs h₁) h

/-- A loop each of whose rounds runs `g` over the list `f x`, in every state that meets `I`, runs
`g` over these lists joined. -/
theorem foldlM_flatMap {σ : Type v} {γ : Type*} {body : σ → α → Except ε σ} {g : σ → γ → Except ε σ}
    {f : α → List γ} {I : σ → Prop} {l : List α}
    (hbody : ∀ a ∈ l, ∀ s, I s → body s a = (f a).foldlM g s)
    (hinv : ∀ a ∈ l, ∀ s s', I s → (f a).foldlM g s = .ok s' → I s') {s : σ} (hs : I s) :
    l.foldlM body s = (l.flatMap f).foldlM g s := by
  induction l generalizing s with
  | nil => rfl
  | cons a l ih =>
    have ha : a ∈ a :: l := List.mem_cons_self
    rw [List.foldlM_cons, List.flatMap_cons, List.foldlM_append, hbody a ha s hs]
    cases hr : (f a).foldlM g s with
    | error e => rfl
    | ok s' =>
      exact ih (fun b hb => hbody b (List.mem_cons_of_mem a hb))
        (fun b hb => hinv b (List.mem_cons_of_mem a hb)) (hinv a ha s s' hs hr)

end Xv6.Support
