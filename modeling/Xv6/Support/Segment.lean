import Mathlib

/-!
# Support — Segment

Singly linked nodes.  `next` gives the pointer that a node holds and `ptr` the pointer to a node;
`Seg ptr next a l b` says that from the pointer `a` one meets the nodes of `l`, in order, and is
then at the pointer `b`.  With `b` the null pointer this is a list, with `b = a` a circle.

* `seg_append`: segments one after the other.
* `seg_congr`, `Seg.relink`: a segment depends on the pointers in its own nodes, and the last one of
  them says where it ends.
* `Seg.next_inj`, `Seg.round`: in a circle a node has one predecessor, and one comes round to it.
-/

namespace Xv6.Support

variable {α β : Type*} {ptr : α → β} {next next' : α → β} {a b c : β} {l l₁ l₂ : List α} {q : α}

/-- From the pointer `a` through the nodes of the list to the pointer `b`. -/
def Seg (ptr : α → β) (next : α → β) : β → List α → β → Prop
  | a, [], b => a = b
  | a, q :: l, b => a = ptr q ∧ Seg ptr next (next q) l b

theorem seg_append :
    Seg ptr next a (l₁ ++ l₂) c ↔ ∃ b, Seg ptr next a l₁ b ∧ Seg ptr next b l₂ c := by
  induction l₁ generalizing a with
  | nil =>
    constructor
    · intro h
      exact ⟨a, rfl, h⟩
    · rintro ⟨b, rfl, h⟩
      exact h
  | cons q l ih =>
    rw [List.cons_append, Seg, ih]
    constructor
    · rintro ⟨ha, b, h₁, h₂⟩
      exact ⟨b, ⟨ha, h₁⟩, h₂⟩
    · rintro ⟨b, ⟨ha, h₁⟩, h₂⟩
      exact ⟨ha, b, h₁, h₂⟩

theorem seg_snoc : Seg ptr next a (l ++ [q]) b ↔ Seg ptr next a l (ptr q) ∧ next q = b := by
  rw [seg_append]
  constructor
  · rintro ⟨c, h, rfl, hb⟩
    exact ⟨h, hb⟩
  · rintro ⟨h, hb⟩
    exact ⟨_, h, rfl, hb⟩

theorem seg_congr (h : ∀ q ∈ l, next' q = next q) : Seg ptr next' a l b ↔ Seg ptr next a l b := by
  induction l generalizing a with
  | nil => exact Iff.rfl
  | cons q l ih =>
    rw [Seg, Seg, h q (List.mem_cons_self ..), ih fun r hr => h r (List.mem_cons_of_mem q hr)]

/-- The pointer in the last node says where the segment ends. -/
theorem Seg.relink (h : Seg ptr next a (l ++ [q]) b) (hq : next' q = c)
    (hl : ∀ r ∈ l, next' r = next r) : Seg ptr next' a (l ++ [q]) c :=
  seg_snoc.mpr ⟨(seg_congr hl).mpr (seg_snoc.mp h).1, hq⟩

/-- Each node's pointer is the pointer to the node behind it. -/
theorem Seg.map_next (h : Seg ptr next a l b) : a :: l.map next = l.map ptr ++ [b] := by
  induction l generalizing a with
  | nil =>
    cases h
    rfl
  | cons q l ih => rw [List.map_cons, List.map_cons, List.cons_append, h.1, ih h.2]

/-- In a circle no two nodes hold the same pointer. -/
theorem Seg.next_inj (h : Seg ptr next (ptr q) (q :: l) (ptr q)) (hnd : ((q :: l).map ptr).Nodup)
    {r s : α} (hr : r ∈ q :: l) (hs : s ∈ q :: l) (e : next r = next s) : r = s := by
  have hmap : (q :: l).map next = l.map ptr ++ [ptr q] := (List.cons.inj h.map_next).2
  refine List.inj_on_of_nodup_map ?_ hr hs e
  rw [hmap]
  exact (List.perm_append_singleton _ _).nodup_iff.mpr hnd

/-- A circle can be walked from any of its nodes. -/
theorem Seg.round (h : Seg ptr next a l a) (hq : q ∈ l) :
    ∃ l', Seg ptr next (next q) l' (ptr q) ∧ (q :: l').Perm l := by
  obtain ⟨l₁, l₂, rfl⟩ := List.append_of_mem hq
  obtain ⟨_, h₁, rfl, h₂⟩ := seg_append.mp h
  have hperm : ((q :: l₂) ++ l₁).Perm (l₁ ++ q :: l₂) := List.perm_append_comm
  exact ⟨l₂ ++ l₁, seg_append.mpr ⟨a, h₂, h₁⟩, hperm⟩

end Xv6.Support
