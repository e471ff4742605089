import Mathlib

/-!
# Support — Ring

A circular, doubly linked list through a head, as C code keeps one: each node has a pointer to the
next and one to the previous node, and the head, which is `none` here, closes the circle.  The
pointers are two functions; taking a node out and putting one in after the head are the usual
assignments, one by one and in this order.

* `Ring`: the nodes from the head on, each once, with the pointers both ways.
* `ring_pushFront`, `ring_moveFront`: the assignments do what they are for.
* `scanNext_eq`: the loop over the list visits its nodes in order.
-/

namespace Xv6.Support

variable {α : Type*}

/-- The pointers of all nodes; `none` is the head. -/
structure Links (α : Type*) where
  next : Option α → Option α
  prev : Option α → Option α

namespace Links

variable [DecidableEq α]

/-- `x->next = y` -/
def setNext (k : Links α) (x y : Option α) : Links α :=
  { k with next := Function.update k.next x y }

/-- `x->prev = y` -/
def setPrev (k : Links α) (x y : Option α) : Links α :=
  { k with prev := Function.update k.prev x y }

/-- Take `b` out. -/
def unlink (k : Links α) (b : α) : Links α :=
  -- b->next->prev = b->prev;
  let k := k.setPrev (k.next (some b)) (k.prev (some b))
  -- b->prev->next = b->next;
  k.setNext (k.prev (some b)) (k.next (some b))

/-- Put `b` in after the head. -/
def pushFront (k : Links α) (b : α) : Links α :=
  -- b->next = head.next;
  let k := k.setNext (some b) (k.next none)
  -- b->prev = &head;
  let k := k.setPrev (some b) none
  -- head.next->prev = b;
  let k := k.setPrev (k.next none) (some b)
  -- head.next = b;
  k.setNext none (some b)

/-- The loop `for(b = x; b != &head; b = b->next)` up to a node that satisfies `P`. -/
def scanNext (k : Links α) (P : α → Bool) : Nat → Option α → Option α
  | 0, _ => none
  | _ + 1, none => none
  | fuel + 1, some b => if P b then some b else scanNext k P fuel (k.next (some b))

/-- The loop `for(b = x; b != &head; b = b->prev)` up to a node that satisfies `P`. -/
def scanPrev (k : Links α) (P : α → Bool) : Nat → Option α → Option α
  | 0, _ => none
  | _ + 1, none => none
  | fuel + 1, some b => if P b then some b else scanPrev k P fuel (k.prev (some b))

/-- From the node `x` through the nodes of the list to the head. -/
def Path (k : Links α) : Option α → List α → Prop
  | x, [] => k.next x = none ∧ k.prev none = x
  | x, b :: l => k.next x = some b ∧ k.prev (some b) = x ∧ Path k (some b) l

/-- **The list, from the head on.** -/
def Ring (k : Links α) (l : List α) : Prop := l.Nodup ∧ k.Path none l

variable {k k' : Links α} {l : List α} {b : α}

variable {x : Option α}

omit [DecidableEq α] in
/-- A path depends on the pointers of its own nodes. -/
theorem path_congr (hx : k'.next x = k.next x) (hn : ∀ c ∈ l, k'.next (some c) = k.next (some c))
    (hp : ∀ c ∈ l, k'.prev (some c) = k.prev (some c)) (h0 : k'.prev none = k.prev none)
    (h : k.Path x l) : k'.Path x l := by
  induction l generalizing x with
  | nil => exact ⟨hx.trans h.1, h0.trans h.2⟩
  | cons b l ih =>
    obtain ⟨h₁, h₂, h₃⟩ := h
    exact ⟨hx.trans h₁, (hp b List.mem_cons_self).trans h₂,
      ih (hn b List.mem_cons_self) (fun c hc => hn c (List.mem_cons_of_mem b hc))
        (fun c hc => hp c (List.mem_cons_of_mem b hc)) h₃⟩

/-- **A node is put in at the front.** -/
theorem ring_pushFront (h : k.Ring l) (hb : b ∉ l) : (k.pushFront b).Ring (b :: l) := by
  obtain ⟨hnd, hpath⟩ := h
  -- the first node so far is not `b`
  have hfirst : k.next none ≠ some b := by
    cases l with
    | nil => simp [hpath.1]
    | cons c l =>
      rw [hpath.1]
      intro he
      cases he
      exact hb List.mem_cons_self
  have hnext (x : Option α) : (k.pushFront b).next x =
      if x = none then some b else if x = some b then k.next none else k.next x := by
    simp only [pushFront, setNext, setPrev, Function.update_apply]
  have hprev (x : Option α) : (k.pushFront b).prev x =
      if x = k.next none then some b else if x = some b then none else k.prev x := by
    simp [pushFront, setNext, setPrev, Function.update_apply]
  refine ⟨List.nodup_cons.mpr ⟨hb, hnd⟩, ?_, ?_, ?_⟩
  · rw [hnext, if_pos rfl]
  · rw [hprev, if_neg hfirst.symm, if_pos rfl]
  have hself : (k.pushFront b).next (some b) = k.next none := by
    rw [hnext, if_neg (Option.some_ne_none b), if_pos rfl]
  cases l with
  | nil =>
    refine ⟨hself.trans hpath.1, ?_⟩
    rw [hprev, hpath.1, if_pos rfl]
  | cons c l =>
    obtain ⟨h₁, -, h₃⟩ := hpath
    rw [List.nodup_cons] at hnd
    have hkeep (d : α) (hd : d ∈ c :: l) : (k.pushFront b).next (some d) = k.next (some d) := by
      rw [hnext, if_neg (Option.some_ne_none d), if_neg]
      intro he
      cases he
      exact hb hd
    refine ⟨hself.trans h₁, by rw [hprev, h₁, if_pos rfl],
      path_congr (hkeep c List.mem_cons_self) (fun d hd => hkeep d (List.mem_cons_of_mem c hd))
        (fun d hd => ?_) ?_ h₃⟩
    · rw [hprev, h₁, if_neg, if_neg]
      · intro he
        cases he
        exact hb (List.mem_cons_of_mem c hd)
      · intro he
        cases he
        exact hnd.1 hd
    · rw [hprev, h₁, if_neg (Option.some_ne_none c).symm, if_neg (Option.some_ne_none b).symm]

omit [DecidableEq α] in
/-- The neighbours of a node of a path. -/
theorem path_neighbours {l₁ l₂ : List α} (h : k.Path x (l₁ ++ b :: l₂)) :
    (k.prev (some b) = x ∨ ∃ c ∈ l₁, k.prev (some b) = some c) ∧
      (k.next (some b) = none ∨ ∃ c ∈ l₂, k.next (some b) = some c) := by
  induction l₁ generalizing x with
  | nil =>
    obtain ⟨-, h₂, h₃⟩ := h
    refine ⟨.inl h₂, ?_⟩
    cases l₂ with
    | nil => exact .inl h₃.1
    | cons c l₂ => exact .inr ⟨c, List.mem_cons_self, h₃.1⟩
  | cons a l₁ ih =>
    obtain ⟨hprev, hnext⟩ := ih h.2.2
    refine ⟨.inr ?_, hnext⟩
    rcases hprev with hprev | ⟨c, hc, hprev⟩
    · exact ⟨a, List.mem_cons_self, hprev⟩
    · exact ⟨c, List.mem_cons_of_mem a hc, hprev⟩

theorem unlink_next (k : Links α) (b : α) (x : Option α) : (k.unlink b).next x =
    if x = k.prev (some b) then k.next (some b) else k.next x := by
  simp [unlink, setNext, setPrev, Function.update_apply]

theorem unlink_prev (k : Links α) (b : α) (x : Option α) : (k.unlink b).prev x =
    if x = k.next (some b) then k.prev (some b) else k.prev x := by
  simp [unlink, setNext, setPrev, Function.update_apply]

/-- A node is taken out of a path: its neighbours are joined. -/
theorem path_unlink {l₁ l₂ : List α} (hnd : (l₁ ++ b :: l₂).Nodup)
    (hx : ∀ c ∈ l₁ ++ b :: l₂, x ≠ some c) (h : k.Path x (l₁ ++ b :: l₂)) :
    (k.unlink b).Path x (l₁ ++ l₂) := by
  induction l₁ generalizing x with
  | nil =>
    obtain ⟨-, hprev, h₃⟩ := h
    have hself : (k.unlink b).next x = k.next (some b) := by
      rw [unlink_next, if_pos hprev.symm]
    cases l₂ with
    | nil =>
      refine ⟨hself.trans h₃.1, ?_⟩
      rw [unlink_prev, if_pos h₃.1.symm, hprev]
    | cons c l₂ =>
      obtain ⟨h₁, -, h₃⟩ := h₃
      have hnd' := (List.nodup_cons.mp (List.nodup_cons.mp hnd).2).1
      have hkeep (d : α) (hd : d ∈ c :: l₂) : (k.unlink b).next (some d) = k.next (some d) := by
        rw [unlink_next, if_neg]
        rw [hprev]
        exact (hx d (List.mem_cons_of_mem b hd)).symm
      refine ⟨hself.trans h₁, by rw [unlink_prev, if_pos h₁.symm, hprev],
        path_congr (hkeep c List.mem_cons_self)
          (fun d hd => hkeep d (List.mem_cons_of_mem c hd)) (fun d hd => ?_) ?_ h₃⟩
      · rw [unlink_prev, h₁, if_neg]
        intro he
        cases he
        exact hnd' hd
      · rw [unlink_prev, h₁, if_neg (Option.some_ne_none c).symm]
  | cons a l₁ ih =>
    obtain ⟨h₁, h₂, h₃⟩ := h
    obtain ⟨hprev, hnext⟩ := path_neighbours h₃
    rw [List.cons_append, List.nodup_cons] at hnd
    refine ⟨?_, ?_, ih hnd.2 (fun c hc he => ?_) h₃⟩
    · -- the node before `b` comes after `x`
      rw [unlink_next, if_neg, h₁]
      intro he
      rcases hprev with hprev | ⟨c, hc, hprev⟩
      · exact hx a List.mem_cons_self (he.trans hprev)
      · exact hx c (List.mem_cons_of_mem a (List.mem_append_left _ hc)) (he.trans hprev)
    · -- the node after `b` is not `a`
      rw [unlink_prev, if_neg, h₂]
      intro he
      rcases hnext with hnext | ⟨c, hc, hnext⟩
      · rw [hnext] at he
        cases he
      · rw [hnext] at he
        cases he
        exact hnd.1 (List.mem_append_right _ (List.mem_cons_of_mem b hc))
    · cases he
      exact hnd.1 hc

/-- Move `b` to the front. -/
def moveFront (k : Links α) (b : α) : Links α := (k.unlink b).pushFront b

/-- **A node is moved to the front.** -/
theorem ring_moveFront (h : k.Ring l) (hb : b ∈ l) : (k.moveFront b).Ring (b :: l.erase b) := by
  obtain ⟨hnd, hpath⟩ := h
  obtain ⟨l₁, l₂, rfl⟩ := List.append_of_mem hb
  have hnot : b ∉ l₁ := fun hc => (List.nodup_append.mp hnd).2.2 b hc b List.mem_cons_self rfl
  have herase : (l₁ ++ b :: l₂).erase b = l₁ ++ l₂ := by
    rw [List.erase_append_right _ hnot, List.erase_cons_head]
  refine ring_pushFront ⟨hnd.erase b, ?_⟩ hnd.not_mem_erase
  rw [herase]
  exact path_unlink hnd (fun _ _ => (Option.some_ne_none _).symm) hpath

omit [DecidableEq α] in
/-- **The loop over the list** visits the nodes in order. -/
theorem scanNext_eq {fuel : Nat} {P : α → Bool} (h : k.Path x l)
    (hfuel : l.length < fuel) : k.scanNext P fuel (k.next x) = l.find? P := by
  induction l generalizing x fuel with
  | nil =>
    rw [h.1]
    cases fuel <;> rfl
  | cons b l ih =>
    obtain ⟨h₁, -, h₃⟩ := h
    cases fuel with
    | zero => exact absurd hfuel (Nat.not_lt_zero _)
    | succ fuel =>
      rw [h₁, scanNext, List.find?_cons, ih h₃ (Nat.lt_of_succ_lt_succ hfuel)]
      cases P b <;> rfl

omit [DecidableEq α] in
/-- The loop stops at a node that satisfies the condition. -/
theorem scanPrev_some {fuel : Nat} {P : α → Bool}
    (h : k.scanPrev P fuel x = some b) : P b = true := by
  induction fuel generalizing x with
  | zero => cases h
  | succ fuel ih =>
    cases x with
    | none => cases h
    | some c =>
      rw [scanPrev] at h
      split at h
      · cases h
        assumption
      · exact ih h

end Links

end Xv6.Support
