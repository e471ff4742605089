import Xv6.Vm.Bytes
import Xv6.Vm.Supply

/-!
# Vm — pages that user code may use

A stack is two pages below its top that are mapped for the user (`Stack`); `copyout` to such pages
does not fail (`copyout_true`).
-/

namespace Xv6.Vm

/-- User code may read and write the page. -/
def Usable (m : Mem) (d : Page) (v : Nat) : Prop := ∃ p, m.pte d v = some (.user p true true)

/-- Every page that begins in the two pages below `top` is usable. -/
def Stack (m : Mem) (d : Page) (top : Nat) : Prop :=
  2 * PGSIZE ≤ top ∧ ∀ v, top ≤ v * PGSIZE + 2 * PGSIZE → v * PGSIZE < top → Usable m d v

variable {d : Page} {m m' : Mem}

/-- `copyout` to a page that is not there returns -1. -/
theorem copyout_none {va : Nat} {buf : List UInt8} (hne : buf ≠ [])
    (h : uva2ka m d (va / PGSIZE) = .ok none) : copyout m d va buf = .ok (false, m) := by
  rw [copyout]
  cases buf with
  | nil => exact absurd rfl hne
  | cons b bs =>
    rw [List.length_cons, copyoutLoop]
    · rw [h]
      rfl
    · rintro ⟨⟩

/-- The sixteen bytes `thread_create` puts at the top of a stack arrive. -/
theorem Stack.copyout {top : Nat} {buf : List UInt8} {ok : Bool} (hs : Stack m d top)
    (htop : top < 2 ^ 32) (hlen : buf.length = 16)
    (h : copyout m d ((top + (2 ^ 32 - 16)) % 2 ^ 32) buf = .ok (ok, m')) : ok = true := by
  obtain ⟨htwo, hu⟩ := hs
  obtain ⟨n, hn, -, hok, hnone⟩ := copyout_copied (Nat.mod_lt _ (by decide)) h
  refine hok.mpr (Nat.le_antisymm hn (Nat.le_of_not_lt fun hlt => ?_))
  -- every one of the addresses lies in the pages below the top
  obtain ⟨x, hx⟩ : ∃ x, ((top + (2 ^ 32 - 16)) % 2 ^ 32 + n) % 2 ^ 32 = x := ⟨_, rfl⟩
  obtain ⟨p, hp⟩ := hu (x / PGSIZE) (by unfold PGSIZE at htwo ⊢; omega)
    (by unfold PGSIZE at htwo ⊢; omega)
  have h₀ := hnone hlt
  rw [place, hx, Mem.userPage, hp] at h₀
  cases h₀

theorem Stack.congr {top : Nat} (hs : Stack m d top) (hd : m'.dirs d = m.dirs d) :
    Stack m' d top := by
  refine ⟨hs.1, fun v h₁ h₂ => ?_⟩
  obtain ⟨p, hp⟩ := hs.2 v h₁ h₂
  refine ⟨p, ?_⟩
  rwa [Mem.pte, hd]

theorem Full.congr {sz : Nat} (hf : Full m d sz) (hd : m'.dirs d = m.dirs d) : Full m' d sz := by
  intro v hv
  obtain ⟨D, p, w, u, hD, hp⟩ := hf v hv
  exact ⟨D, p, w, u, hd.trans hD, hp⟩

theorem Full.mono {a b : Nat} (hf : Full m d b) (h : a ≤ b) : Full m d a :=
  fun v hv => hf v (Nat.lt_of_lt_of_le hv h)

/-- A stack that `allocuvm` maps with the page above it. -/
theorem Stack.alloc {S : Set Page} {base r : Nat} (ho : Own m S)
    (h : allocuvm m d base (base + 3 * PGSIZE) = .ok (r, m')) (hr : r ≠ 0) :
    Stack m' d (base + 2 * PGSIZE) := by
  refine ⟨Nat.le_add_left .., fun v h₁ h₂ => ?_⟩
  obtain ⟨p, hp, -⟩ := ((allocuvm_spec ho h).pages hr v (by omega) (by omega)).2
  exact ⟨p, hp⟩

/-- A stack stays usable when `allocuvm` succeeds: it maps no page that is there. -/
theorem Stack.keep {S : Set Page} {base newsz r top : Nat} (hs : Stack m d top) (ho : Own m S)
    (h : allocuvm m d base newsz = .ok (r, m')) (hr : r ≠ 0) : Stack m' d top := by
  have ha := allocuvm_spec ho h
  refine ⟨hs.1, fun v h₁ h₂ => ?_⟩
  obtain ⟨p, hp⟩ := hs.2 v h₁ h₂
  by_cases hrange : base ≤ v * PGSIZE ∧ v * PGSIZE < newsz
  · rw [(ha.pages hr v hrange.1 hrange.2).1] at hp
    cases hp
  · exact ⟨p, (ha.agree (by omega)).trans hp⟩

end Xv6.Vm
