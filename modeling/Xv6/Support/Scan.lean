import Mathlib

/-!
# Support — Scan

A scan of a list that keeps the best entry seen.  It starts from a default that stands for no
entry; an entry is *taken* from the default when it qualifies.  Once one is taken the scan holds a
taken entry to the end (`scan_taken`); when none qualifies it ends with the default
(`scan_default`).  A scan that takes an entry exactly when its key is below that of what it holds
ends with the first of those with the least key (`scan_firstLeast`).

And lists that grow at their end, in which equal entries stand together (`Together`): a list stays
one when the new entry is the one it ends in, or is not in it (`Together.concat`).
-/

namespace Xv6.Support

variable {α β : Type*} {f : β → α → β} {b₀ : β} {S : α → Prop} {G : β → Prop}

/-- A scan that has taken an entry holds one to the end. -/
theorem scan_good (hgood : ∀ b a, G b → G (f b a)) (l : List α) {b : β} (hb : G b) :
    G (l.foldl f b) := by
  induction l generalizing b with
  | nil => exact hb
  | cons a l ih => exact ih (hgood b a hb)

variable {a : α} {l : List α}

/-- A scan of a list with a qualifying entry ends with a taken one. -/
theorem scan_taken (hskip : ∀ a, ¬ S a → f b₀ a = b₀) (htake : ∀ a, S a → G (f b₀ a))
    (hgood : ∀ b a, G b → G (f b a)) (ha : a ∈ l) (hs : S a) :
    G (l.foldl f b₀) := by
  induction l with
  | nil => cases ha
  | cons c l ih =>
    by_cases hc : S c
    · exact scan_good hgood l (htake c hc)
    · rw [List.foldl_cons, hskip c hc]
      rcases List.mem_cons.mp ha with rfl | ha
      · exact absurd hs hc
      · exact ih ha

/-- A scan of a list with no qualifying entry ends with the default. -/
theorem scan_default (hskip : ∀ a, ¬ S a → f b₀ a = b₀) (hn : ∀ a ∈ l, ¬ S a) :
    l.foldl f b₀ = b₀ := by
  induction l with
  | nil => rfl
  | cons c l ih =>
    rw [List.foldl_cons, hskip c (hn c List.mem_cons_self)]
    exact ih fun a ha => hn a (List.mem_cons_of_mem c ha)

/-- A scan that turns good at any qualifying entry, as long as it keeps `W`, ends good. -/
theorem scan_reaches {W : β → Prop} (hkeep : ∀ b a, W b → W (f b a))
    (hgood : ∀ b a, G b → G (f b a)) (htake : ∀ b a, W b → S a → G (f b a))
    {b : β} (hb : W b) (ha : a ∈ l) (hs : S a) : G (l.foldl f b) := by
  induction l generalizing b with
  | nil => cases ha
  | cons c l ih =>
    rcases List.mem_cons.mp ha with rfl | ha
    · exact scan_good hgood l (htake b a hb hs)
    · exact ih (hkeep b c hb) ha

/-! ### The first with the least key -/

section

variable {κ : Type*} [LinearOrder κ] {key : α → κ}

/-- Of the entries that qualify, `a` has the least key, and is the first that has. -/
def FirstLeast (S : α → Prop) (key : α → κ) (l : List α) (a : α) : Prop :=
  ∃ l₁ l₂, l = l₁ ++ a :: l₂ ∧ S a ∧ (∀ b ∈ l₁, S b → key a < key b) ∧ ∀ b ∈ l₂, S b → key a ≤ key b

namespace FirstLeast

variable {l : List α} {a b : α}

theorem qualifies (h : FirstLeast S key l a) : S a := by
  obtain ⟨l₁, l₂, -, hs, -, -⟩ := h
  exact hs

theorem le (h : FirstLeast S key l a) (hb : b ∈ l) (hs : S b) : key a ≤ key b := by
  obtain ⟨l₁, l₂, rfl, -, h₁, h₂⟩ := h
  rcases List.mem_append.mp hb with hb | hb
  · exact (h₁ b hb hs).le
  · rcases List.mem_cons.mp hb with rfl | hb
    · exact le_refl _
    · exact h₂ b hb hs

/-- In a list that is ordered by `R`, what stands before `a` has a greater key. -/
theorem lt {R : α → α → Prop} (h : FirstLeast S key l a) (hl : l.Pairwise R) (hb : b ∈ l)
    (hne : b ≠ a) (hR : ¬R a b) (hs : S b) : key a < key b := by
  obtain ⟨l₁, l₂, rfl, -, h₁, -⟩ := h
  rcases List.mem_append.mp hb with hb | hb
  · exact h₁ b hb hs
  · rcases List.mem_cons.mp hb with rfl | hb
    · exact absurd rfl hne
    · have hcons := (List.pairwise_append.mp hl).2.1
      exact absurd ((List.pairwise_cons.mp hcons).1 b hb) hR

end FirstLeast

/-- The scan ends with what it began with, when no key is below that; or with the first entry with
the least key.  What a visit does need only be known where it holds something of rank `r` at most,
as it does at the start. -/
theorem scan_firstLeast (key : α → κ) (held : β → α) (rank : β → κ) {r : κ}
    (hskip : ∀ b a, rank b ≤ r → ¬(S a ∧ key a < rank b) → f b a = b)
    (htake : ∀ b a, rank b ≤ r → S a → key a < rank b →
      held (f b a) = a ∧ rank (f b a) = key a) (l : List α) {b : β} (hb : rank b ≤ r) :
    (∀ a ∈ l, S a → rank b ≤ key a) ∧ l.foldl f b = b ∨
      FirstLeast S key l (held (l.foldl f b)) ∧ key (held (l.foldl f b)) < rank b := by
  induction l generalizing b with
  | nil => exact .inl ⟨fun _ ha => (nomatch ha), rfl⟩
  | cons c l ih =>
    rw [List.foldl_cons]
    by_cases hc : S c ∧ key c < rank b
    · -- from here on the scan holds `c` or something below it
      obtain ⟨hheld, hrank⟩ := htake b c hb hc.1 hc.2
      rcases ih (b := f b c) (hrank ▸ hc.2.le.trans hb) with
        ⟨hle, he⟩ | ⟨⟨l₁, l₂, hl, hs, h₁, h₂⟩, hlt⟩
      · rw [he, hheld]
        refine .inr ⟨⟨[], l, rfl, hc.1, fun _ ha => (nomatch ha), fun a ha hs => ?_⟩, hc.2⟩
        exact hrank ▸ hle a ha hs
      rw [hrank] at hlt
      refine .inr ⟨⟨c :: l₁, l₂, congrArg (c :: ·) hl, hs, fun a ha hsa => ?_, h₂⟩, hlt.trans hc.2⟩
      rcases List.mem_cons.mp ha with rfl | ha
      · exact hlt
      · exact h₁ a ha hsa
    · rw [hskip b c hb hc]
      have hge : S c → rank b ≤ key c := fun hs => not_lt.mp fun hlt => hc ⟨hs, hlt⟩
      rcases ih hb with ⟨hle, he⟩ | ⟨⟨l₁, l₂, hl, hs, h₁, h₂⟩, hlt⟩
      · refine .inl ⟨fun a ha hsa => ?_, he⟩
        rcases List.mem_cons.mp ha with rfl | ha
        · exact hge hsa
        · exact hle a ha hsa
      · refine .inr ⟨⟨c :: l₁, l₂, congrArg (c :: ·) hl, hs, fun a ha hsa => ?_, h₂⟩, hlt⟩
        rcases List.mem_cons.mp ha with rfl | ha
        · exact hlt.trans_le (hge hsa)
        · exact h₁ a ha hsa

end

/-! ### Entries that stand together -/

/-- Between two equal entries there is no other. -/
def Together (l : List α) : Prop := ∀ a b, a ≠ b → ¬[a, b, a].Sublist l

/-- From the first `a` on, every entry is `a`. -/
def EndsIn (l : List α) (a : α) : Prop := ∀ b, [a, b].Sublist l → b = a

theorem sublist_concat {m : List α} {x : α} (h : l.Sublist (m ++ [x])) :
    l.Sublist m ∨ ∃ l', l = l' ++ [x] ∧ l'.Sublist m := by
  obtain ⟨l₁, l₂, rfl, h₁, h₂⟩ := List.sublist_append_iff.mp h
  rcases List.sublist_singleton.mp h₂ with rfl | rfl
  · rw [List.append_nil]
    exact .inl h₁
  · exact .inr ⟨l₁, rfl, h₁⟩

theorem EndsIn.of_not_mem (h : a ∉ l) : EndsIn l a :=
  fun _ hs => absurd (hs.subset (List.mem_cons_self ..)) h

theorem EndsIn.concat (h : EndsIn l a) : EndsIn (l ++ [a]) a := by
  intro b hs
  rcases sublist_concat hs with hs | ⟨l', he, -⟩
  · exact h b hs
  · exact List.singleton_inj.mp (List.append_inj' (show [a] ++ [b] = l' ++ [a] from he) rfl).2

theorem Together.concat (h : Together l) (ha : EndsIn l a) : Together (l ++ [a]) := by
  intro b c hbc hs
  rcases sublist_concat hs with hs | ⟨l', he, hl'⟩
  · exact h b c hbc hs
  · obtain ⟨rfl, hb⟩ := List.append_inj' (show [b, c] ++ [b] = l' ++ [a] from he) rfl
    obtain rfl := List.singleton_inj.mp hb
    exact hbc (ha c hl').symm

end Xv6.Support
