import Xv6.Vm.Works

/-!
# Vm — where a directory has no entries

Which functions keep the pages from a size on free (`Bare`).
-/

namespace Xv6.Vm

section

variable {S : Set Page} {d : Page} {m m' : Mem}

theorem Bare.mono {a b : Nat} (h : Bare m d a) (hab : a ≤ b) : Bare m d b :=
  fun v hv hk => h v (hab.trans hv) hk

theorem Agree.bare {sz : Nat} (h : Agree d (fun v => sz ≤ v * PGSIZE ∧ v * PGSIZE < KERNBASE) m m')
    (hb : Bare m d sz) : Bare m' d sz :=
  fun v hv hk => (h v ⟨hv, hk⟩).trans (hb v hv hk)

theorem Bare.congr {sz : Nat} (hb : Bare m d sz) (hd : m'.dirs d = m.dirs d) : Bare m' d sz :=
  Agree.bare (.of_dirs hd) hb

theorem Works.bare {S' : Set Page} {T : Nat → Prop} {sz : Nat} (h : Works S S' d T m m')
    (hT : ∀ v, T v → v * PGSIZE < sz) (hb : Bare m d sz) : Bare m' d sz :=
  Agree.bare (h.agree.mono fun v hv hTv => absurd (hT v hTv) (Nat.not_lt.mpr hv.1)) hb

/-- After `deallocuvm` nothing is present from the new size on, if nothing was from the old. -/
theorem deallocuvm_bare {oldsz newsz r : Nat} (ho : Own m S) (hb : Bare m d oldsz)
    (h : deallocuvm m d oldsz newsz = .ok (r, m')) : Bare m' d (min oldsz newsz) := by
  obtain ⟨hw, -, hclear⟩ := deallocuvm_works ho h
  intro v hv hk
  by_cases hlt : oldsz ≤ v * PGSIZE
  · exact (hw.agree v fun h => by omega).trans (hb v hlt hk)
  · exact hclear v (by omega) (Nat.lt_of_not_le hlt)

end

end Xv6.Vm
