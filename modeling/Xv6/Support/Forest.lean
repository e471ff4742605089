import Mathlib

/-!
# Support — Forest

Trees kept in a store: a node is a name, `child a x` is the name found in entry `x` of node `a`,
and `0` is no node.  A *place* is a root and a path down from it, the last step first; `get` reads
the node at a place.  A shape bounds the places: each root has a depth, each node a width.  In a
forest with `Inj` every node is at one place.

* `get_congr`: the places read only the entries of inner nodes.
* `graft_root`, `graft_child`: a new node with no children, put at an empty place, changes that
  place only.
* `get_prune`: dropping roots empties the places under them and no others.
* `mem_tree`, `nodup_tree`: the list of the nodes under a node.
-/

namespace Xv6.Support

variable {R B : Type*} [Zero B] [DecidableEq B]

/-- The node reached from `a` along a path, the last step first. -/
def follow (child : B → Nat → B) (a : B) : List Nat → B
  | [] => a
  | x :: p => if follow child a p = 0 then 0 else child (follow child a p) x

/-- The roots and the children of every node. -/
@[ext] structure Forest (R B : Type*) where
  root : R → B
  child : B → Nat → B

/-- How deep the tree of a root is, and how many entries a node has. -/
structure Shape (R : Type*) where
  depth : R → Nat
  width : Nat

namespace Forest

/-- The node at a place. -/
def get (F : Forest R B) (q : R × List Nat) : B := follow F.child (F.root q.1) q.2

@[simp] theorem get_nil (F : Forest R B) (r : R) : F.get (r, []) = F.root r := rfl

theorem get_cons (F : Forest R B) (r : R) (x : Nat) (p : List Nat) :
    F.get (r, x :: p) = if F.get (r, p) = 0 then 0 else F.child (F.get (r, p)) x := rfl

/-- A place of the shape. -/
def Valid (sh : Shape R) (q : R × List Nat) : Prop :=
  q.2.length ≤ sh.depth q.1 ∧ ∀ x ∈ q.2, x < sh.width

/-- A place whose node has entries. -/
def Inner (sh : Shape R) (q : R × List Nat) : Prop :=
  q.2.length < sh.depth q.1 ∧ ∀ x ∈ q.2, x < sh.width

variable {q : R × List Nat} {p : List Nat} {r : R} {b : B}

theorem Inner.valid {sh : Shape R} (h : Inner sh q) : Valid sh q := ⟨Nat.le_of_lt h.1, h.2⟩

theorem valid_nil (sh : Shape R) (r : R) : Valid sh (r, []) :=
  ⟨Nat.zero_le _, List.forall_mem_nil _⟩

theorem valid_cons {sh : Shape R} {x : Nat} :
    Valid sh (r, x :: p) ↔ Inner sh (r, p) ∧ x < sh.width := by
  constructor
  · rintro ⟨hl, hx⟩
    exact ⟨⟨hl, fun y hy => hx y (List.mem_cons_of_mem x hy)⟩, hx x List.mem_cons_self⟩
  rintro ⟨⟨hl, hp⟩, hx⟩
  refine ⟨hl, fun y hy => ?_⟩
  rcases List.mem_cons.mp hy with rfl | hy
  · exact hx
  · exact hp y hy

/-- Every node is at one place. -/
def Inj (sh : Shape R) (F : Forest R B) : Prop :=
  ∀ q q', Valid sh q → Valid sh q' → F.get q ≠ 0 → F.get q = F.get q' → q = q'

/-- The node `b` is somewhere in the forest. -/
def Holds (sh : Shape R) (F : Forest R B) (b : B) : Prop := ∃ q, Valid sh q ∧ F.get q = b

variable {sh : Shape R} {F G : Forest R B}

/-- There is no node below an empty place. -/
theorem get_of_suffix {s : List Nat} (h : s <:+ p) (hne : F.get (r, p) ≠ 0) : F.get (r, s) ≠ 0 := by
  obtain ⟨t, rfl⟩ := h
  induction t with
  | nil => exact hne
  | cons x t ih =>
    refine ih fun h0 => hne ?_
    rw [List.cons_append, get_cons, if_pos h0]

/-- Two forests with the same roots and the same entries in inner nodes. -/
theorem get_congr (hr : G.root = F.root)
    (hc : ∀ q, Inner sh q → F.get q ≠ 0 → ∀ x < sh.width, G.child (F.get q) x = F.child (F.get q) x)
    (hq : Valid sh q) : G.get q = F.get q := by
  obtain ⟨r, p⟩ := q
  induction p with
  | nil => exact congrFun hr r
  | cons x p ih =>
    obtain ⟨hi, hx⟩ := valid_cons.mp hq
    rw [get_cons, get_cons, ih hi.valid]
    by_cases h0 : F.get (r, p) = 0
    · rw [if_pos h0, if_pos h0]
    · rw [if_neg h0, if_neg h0, hc _ hi h0 x hx]

/-! ### Grafting a node -/

variable [DecidableEq R]

/-- `G` is `F` with the node `b` at the place `q`, empty before. -/
structure Graft (sh : Shape R) (F G : Forest R B) (q : R × List Nat) (b : B) : Prop where
  valid : Valid sh q
  empty : F.get q = 0
  get : ∀ q', Valid sh q' → G.get q' = if q' = q then b else F.get q'

theorem graft_root (h0 : F.root r = 0) (hr : G.root = Function.update F.root r b)
    (hc : ∀ q, Inner sh q → F.get q ≠ 0 → ∀ x < sh.width, G.child (F.get q) x = F.child (F.get q) x)
    (hz : ∀ x < sh.width, G.child b x = 0) : Graft sh F G (r, []) b := by
  refine ⟨valid_nil sh r, h0, ?_⟩
  rintro ⟨s, p⟩ hq
  induction p with
  | nil =>
    rw [get_nil, get_nil, hr]
    by_cases e : s = r
    · subst e; simp
    · simp [e]
  | cons x p ih =>
    obtain ⟨hi, hx⟩ := valid_cons.mp hq
    rw [get_cons, get_cons, ih hi.valid]
    by_cases e : (s, p) = (r, [])
    · cases e
      simp [h0, hz x hx]
    · by_cases hp : F.get (s, p) = 0
      · simp [e, hp]
      · simp [e, hp, hc _ hi hp x hx]

theorem graft_child (hinj : Inj sh F) {x : Nat}
    (hi : Inner sh (r, p)) (hx : x < sh.width) (ha : F.get (r, p) ≠ 0)
    (h0 : F.child (F.get (r, p)) x = 0) (hr : G.root = F.root) (hb : G.child (F.get (r, p)) x = b)
    (hc : ∀ q, Inner sh q → F.get q ≠ 0 → ∀ y < sh.width, ¬(F.get q = F.get (r, p) ∧ y = x) →
      G.child (F.get q) y = F.child (F.get q) y)
    (hz : ∀ y < sh.width, G.child b y = 0) : Graft sh F G (r, x :: p) b := by
  have hempty : F.get (r, x :: p) = 0 := by rw [get_cons, if_neg ha, h0]
  refine ⟨valid_cons.mpr ⟨hi, hx⟩, hempty, ?_⟩
  rintro ⟨s, t⟩ hq
  induction t with
  | nil => simp [hr]
  | cons y t ih =>
    obtain ⟨ht, hy⟩ := valid_cons.mp hq
    rw [get_cons, get_cons, ih ht.valid]
    by_cases e : (s, t) = (r, x :: p)
    · -- below the new node there is nothing
      cases e
      have hne : (r, y :: x :: p) ≠ (r, x :: p) := by simp
      rw [if_pos rfl, hz y hy, if_neg hne, hempty]
      simp
    · by_cases h : F.get (s, t) = 0
      · have hne : (s, y :: t) ≠ (r, x :: p) := by
          rintro ⟨⟩
          exact ha h
        simp [e, h, hne]
      · rw [if_neg e, if_neg h, if_neg h]
        by_cases e' : (s, y :: t) = (r, x :: p)
        · cases e'
          rw [if_pos rfl, hb]
        rw [if_neg e']
        refine hc _ ht h y hy ?_
        rintro ⟨hget, rfl⟩
        cases hinj _ _ ht.valid hi.valid h hget
        exact e' rfl

theorem Graft.inj (hg : Graft sh F G q b) (hinj : Inj sh F) (hb : ¬ Holds sh F b) : Inj sh G := by
  intro p p' hp hp' hne heq
  rw [hg.get p hp] at hne heq
  rw [hg.get p' hp'] at heq
  by_cases e : p = q
  · by_cases e' : p' = q
    · rw [e, e']
    · rw [if_pos e, if_neg e'] at heq
      exact absurd ⟨p', hp', heq.symm⟩ hb
  · rw [if_neg e] at hne heq
    by_cases e' : p' = q
    · rw [if_pos e'] at heq
      exact absurd ⟨p, hp, heq⟩ hb
    · rw [if_neg e'] at heq
      exact hinj p p' hp hp' hne heq

theorem Graft.holds {c : B} (hg : Graft sh F G q b) (hc : c ≠ 0) :
    Holds sh G c ↔ c = b ∨ Holds sh F c := by
  constructor
  · rintro ⟨p, hp, h⟩
    rw [hg.get p hp] at h
    split at h
    · exact .inl h.symm
    · exact .inr ⟨p, hp, h⟩
  · rintro (rfl | ⟨p, hp, h⟩)
    · exact ⟨q, hg.valid, by rw [hg.get q hg.valid, if_pos rfl]⟩
    refine ⟨p, hp, ?_⟩
    have hne : p ≠ q := by
      rintro rfl
      exact hc (h ▸ hg.empty)
    rw [hg.get p hp, if_neg hne, h]

/-! ### Dropping roots -/

theorem follow_zero (child : B → Nat → B) (p : List Nat) : follow child 0 p = 0 := by
  induction p with
  | nil => rfl
  | cons x p ih => rw [follow, if_pos ih]

omit [DecidableEq R] in
theorem get_prune {D : R → Prop} [DecidablePred D] (hr : ∀ r, G.root r = if D r then 0 else F.root r)
    (hc : ∀ q, Inner sh q → F.get q ≠ 0 → ∀ x < sh.width, G.child (F.get q) x = F.child (F.get q) x)
    (hq : Valid sh q) : G.get q = if D q.1 then 0 else F.get q := by
  obtain ⟨r, p⟩ := q
  induction p with
  | nil => exact hr r
  | cons x p ih =>
    obtain ⟨hi, hx⟩ := valid_cons.mp hq
    rw [get_cons, get_cons, ih hi.valid]
    by_cases hD : D r
    · simp [hD]
    · by_cases h0 : F.get (r, p) = 0
      · simp [hD, h0]
      · simp [hD, h0, hc _ hi h0 x hx]

end Forest

/-! ### The nodes under a node -/

/-- The nodes under `a` down to depth `d`, children before their parent. -/
def tree (child : B → Nat → B) (n : Nat) : Nat → B → List B
  | 0, a => [a]
  | d + 1, a =>
    ((List.range n).flatMap fun x => if child a x = 0 then [] else tree child n d (child a x)) ++ [a]

theorem follow_append (child : B → Nat → B) {a : B} (ha : a ≠ 0) (p : List Nat) (x : Nat) :
    follow child a (p ++ [x]) = follow child (child a x) p := by
  induction p with
  | nil => simp [follow, ha]
  | cons y p ih => rw [List.cons_append, follow, follow, ih]

variable {child : B → Nat → B} {n : Nat}

/-- A node is listed under `a` when a path from `a` leads to it. -/
theorem mem_tree {d : Nat} {a b : B} (ha : a ≠ 0) : b ∈ tree child n d a ↔
    b ≠ 0 ∧ ∃ p : List Nat, p.length ≤ d ∧ (∀ x ∈ p, x < n) ∧ follow child a p = b := by
  induction d generalizing a with
  | zero =>
    constructor
    · intro h
      rw [tree, List.mem_singleton] at h
      exact ⟨h ▸ ha, [], Nat.le_refl 0, List.forall_mem_nil _, h.symm⟩
    · rintro ⟨-, p, hl, -, h⟩
      rw [List.length_eq_zero_iff.mp (Nat.le_zero.mp hl)] at h
      rw [tree, List.mem_singleton]
      exact h.symm
  | succ d ih =>
    rw [tree, List.mem_append, List.mem_flatMap, List.mem_singleton]
    constructor
    · rintro (⟨x, hx, h⟩ | rfl)
      · split at h
        · cases h
        rename_i hc
        obtain ⟨hb, p, hl, hp, hf⟩ := (ih hc).mp h
        refine ⟨hb, p ++ [x], by simpa using hl, fun y hy => ?_, ?_⟩
        · rcases List.mem_append.mp hy with hy | hy
          · exact hp y hy
          · rw [List.mem_singleton.mp hy]
            exact List.mem_range.mp hx
        · rw [follow_append child ha, hf]
      · exact ⟨ha, [], Nat.zero_le _, List.forall_mem_nil _, rfl⟩
    · rintro ⟨hb, p, hl, hp, hf⟩
      -- the first step down is the last of the list
      rcases List.eq_nil_or_concat p with rfl | ⟨p, x, rfl⟩
      · exact .inr hf.symm
      rw [List.concat_eq_append] at hl hp hf
      rw [follow_append child ha] at hf
      have hc : child a x ≠ 0 := by
        intro h0
        rw [h0, Forest.follow_zero] at hf
        exact hb hf.symm
      refine .inl ⟨x, List.mem_range.mpr (hp x (by simp)), ?_⟩
      rw [if_neg hc]
      refine (ih hc).mpr ⟨hb, p, by simpa using hl, fun y hy => hp y (by simp [hy]), hf⟩

/-- The nodes under `a` are listed once when different paths lead to different nodes. -/
theorem nodup_tree {d : Nat} {a : B} (ha : a ≠ 0)
    (hinj : ∀ p p' : List Nat, p.length ≤ d → p'.length ≤ d → (∀ x ∈ p, x < n) →
      (∀ x ∈ p', x < n) → follow child a p ≠ 0 → follow child a p = follow child a p' → p = p') :
    (tree child n d a).Nodup := by
  induction d generalizing a with
  | zero => exact List.nodup_singleton a
  | succ d ih =>
    -- a path below child `x` is a path of `a` that begins with `x`
    have below {x : Nat} (hx : x < n) {p : List Nat} (hl : p.length ≤ d) (hp : ∀ y ∈ p, y < n) :
        (p ++ [x]).length ≤ d + 1 ∧ ∀ y ∈ p ++ [x], y < n := by
      refine ⟨by simpa using hl, fun y hy => ?_⟩
      rcases List.mem_append.mp hy with hy | hy
      · exact hp y hy
      · exact List.mem_singleton.mp hy ▸ hx
    have hmem {x : Nat} {b : B} (h : b ∈ if child a x = 0 then [] else tree child n d (child a x)) :
        child a x ≠ 0 ∧ b ≠ 0 ∧
          ∃ p : List Nat, p.length ≤ d ∧ (∀ x ∈ p, x < n) ∧ follow child a (p ++ [x]) = b := by
      split at h
      · cases h
      · rename_i hc
        obtain ⟨hb, p, hl, hp, hf⟩ := (mem_tree hc).mp h
        exact ⟨hc, hb, p, hl, hp, by rw [follow_append child ha, hf]⟩
    rw [tree, List.nodup_append]
    refine ⟨List.nodup_flatMap.mpr ⟨fun x hx => ?_, ?_⟩, List.nodup_singleton a, ?_⟩
    · split
      · exact List.nodup_nil
      rename_i hc
      have hx := List.mem_range.mp hx
      refine ih hc fun p p' hl hl' hp hp' hne heq => ?_
      rw [← follow_append child ha] at hne heq
      rw [← follow_append child ha] at heq
      obtain ⟨hl₁, hp₁⟩ := below hx hl hp
      obtain ⟨hl₂, hp₂⟩ := below hx hl' hp'
      exact List.append_cancel_right (hinj _ _ hl₁ hl₂ hp₁ hp₂ hne heq)
    · refine List.nodup_range.imp_of_mem fun {x y} hx hy hxy b hb hb' => ?_
      obtain ⟨-, hne, p, hl, hp, hf⟩ := hmem hb
      obtain ⟨-, -, p', hl', hp', hf'⟩ := hmem hb'
      obtain ⟨hl₁, hp₁⟩ := below (List.mem_range.mp hx) hl hp
      obtain ⟨hl₂, hp₂⟩ := below (List.mem_range.mp hy) hl' hp'
      have heq := hinj _ _ hl₁ hl₂ hp₁ hp₂ (hf ▸ hne) (hf.trans hf'.symm)
      have hlast := congrArg List.reverse heq
      simp only [List.reverse_append, List.reverse_singleton, List.singleton_append,
        List.cons.injEq] at hlast
      exact hxy hlast.1
    · rintro b hb c hc rfl
      obtain ⟨x, hx, hb⟩ := List.mem_flatMap.mp hb
      obtain ⟨-, hne, p, hl, hp, hf⟩ := hmem hb
      obtain ⟨hl₁, hp₁⟩ := below (List.mem_range.mp hx) hl hp
      have := hinj _ [] hl₁ (Nat.zero_le _) hp₁ (List.forall_mem_nil _) (hf ▸ hne)
        (hf.trans (List.mem_singleton.mp hc))
      simp at this

end Xv6.Support
