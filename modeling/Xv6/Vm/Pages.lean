import Xv6.Vm.Extent

/-!
# Vm — which pages are free

A function that changes no directory and loses no page, whatever is kept outside, leaves the same
pages free (`free_iff`): one that is free afterwards and was not before had no use, and could have
been kept.  With it, `copyuvm` takes from the free list what it maps, and all of it comes back.
-/

namespace Xv6.Vm

variable {m m' : Mem} {S : Set Page} {d p : Page}

/-- A free page is in no directory. -/
theorem Tagged.unheld {use : Page → Use} (h : Tagged m use) (hp : p ∈ m.freelist) :
    Tagged.Idle { m with freelist := [] } p := by
  have hu := h.free p hp
  have hm : Tagged { m with freelist := [] } use := ⟨List.nodup_nil, nofun, h.dir, h.table, h.frame⟩
  exact hm.idle (List.not_mem_nil) (by simp [hu]) (by simp [hu]) (by simp [hu])

theorem free_iff (ho : Own m S) (hd : m'.dirs = m.dirs)
    (h : ∀ S, Own m S → Own m' S ∧ Saves S m S m') (p : Page) :
    p ∈ m'.freelist ↔ p ∈ m.freelist := by
  obtain ⟨use, ht, -⟩ := ho
  obtain ⟨⟨use', ht', -⟩, hs⟩ := h ∅ ⟨use, ht, nofun⟩
  constructor
  · intro hp
    by_contra hn
    obtain ⟨-, hidle⟩ := ht'.unheld hp
    simp only [hd] at hidle
    obtain ⟨use₁, ht₁, hK, -⟩ := ht.keep {p} (by rintro _ rfl; exact ⟨hn, hidle⟩)
    exact ((h {p} ⟨use₁, ht₁, hK⟩).1.fresh hp).2 rfl
  · intro hp
    obtain ⟨-, hdir, htable, hframe⟩ := ht.unheld hp
    rw [← hd] at hdir
    simp only [← hd] at htable hframe
    rcases hs p (.inr (.free hp)) with hp | hp
    · cases hp
    cases hp with
    | free h => exact h
    | dir h => cases hdir.symm.trans h
    | table h hi hp => exact absurd hp (htable _ _ _ _ h hi)
    | frame h hv => exact absurd hv (hframe _ _ _ _ _ h)

/-- The page is mapped at one place of one directory, and has no other use. -/
def Sole (m : Mem) (d : Page) (v : Nat) (p : Page) : Prop :=
  p ∉ m.freelist ∧ m.dirs p = none ∧ (∀ e D i T, m.dirs e = some D → D i = some T → T.page ≠ p) ∧
    ∀ e v' w u, m.pte e v' = some (.user p w u) → e = d ∧ v' = v

theorem Own.sole {v : Nat} {w u : Bool} (ho : Own m S) (h : m.pte d v = some (.user p w u)) :
    Sole m d v p := by
  have hfree := ho.not_free h
  obtain ⟨use, ht, -⟩ := ho
  have huse {e : Page} {v : Nat} {w u : Bool} (h : m.pte e v = some (.user p w u)) :
      use p = .frame e v := by
    obtain ⟨D, hD, hv⟩ := Option.bind_eq_some_iff.mp h
    exact ht.frame e D v p w u hD hv
  refine ⟨hfree, ?_, fun e D i T hD hi e' => ?_, fun e v' w' u' h' => ?_⟩
  · cases hD : m.dirs p with
    | none => rfl
    | some D => cases (huse h).symm.trans (ht.dir p D hD)
  · cases (huse h).symm.trans (e' ▸ ht.table e D i T hD hi)
  · cases (huse h').symm.trans (huse h)
    exact ⟨rfl, rfl⟩

theorem Unbuilt.free_iff (ho : Own m S) (h : ∀ S, Own m S → Unbuilt S m m') :
    m'.freelist.Nodup ∧ ∀ p, p ∈ m'.freelist ↔ p ∈ m.freelist := by
  obtain ⟨use, ht, -⟩ := (h S ho).own
  exact ⟨ht.nodup, Vm.free_iff ho (h S ho).dirs fun S ho => ⟨(h S ho).own, (h S ho).saves⟩⟩

end Xv6.Vm
