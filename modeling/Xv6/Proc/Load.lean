import Xv6.Proc.Spaces

/-!
# Proc — what exec loads

The header and segment part of `exec` returns, whatever the file: no page is mapped twice, since
nothing is present from the size on, and every page that is loaded is mapped, since nothing is
missing below it (`Sized`).  What it leaves in memory is what the program headers say (`image`).
-/

namespace Xv6.Kern

open Support (bind_ok)
open Vm (Page Mem File)

variable {m m' : Mem} {S : Set Page} {d : Page} {sz : Nat}

/-- An empty directory loads, or is given up. -/
theorem loadPart_spec (f : File) (elf : List UInt8) (ho : Vm.Own m S) (hsz : Sized m d 0) :
    ∃ r m', loadPart d f elf m = .ok (r, m') ∧
      Vm.Works S S d (· * PGSIZE < KERNBASE) m m' ∧ ∀ sz, r = some sz → Sized m' d sz ∧
        Room m' d sz ∧ ∀ x, x + 2 * PGSIZE < sz →
          m'.byteAt d x = some (image f (field elf 44 2) (field elf 28 4) (fun _ => 0) x) := by
  obtain ⟨o, m₁, h₁, hw, hs⟩ := loadSegs_spec f (field elf 44 2) (field elf 28 4) ho hsz
  cases o with
  | none => exact ⟨none, m₁, bind_ok.mpr ⟨_, h₁, rfl⟩, hw, nofun⟩
  | some sz =>
    obtain ⟨hsz₁, hc⟩ := hs sz rfl
    obtain ⟨r, m', h', hw', hr⟩ := stackPages_spec hw.own hsz₁
    refine ⟨r, m', bind_ok.mpr ⟨_, h₁, h'⟩, hw.trans hw', fun top e => ?_⟩
    obtain ⟨hsz', hroom, hbytes⟩ := hr top e
    exact ⟨hsz', hroom, hbytes _ (hc _ ⟨fun _ h => absurd h (Nat.not_lt_zero _), fun _ _ => rfl⟩)⟩

/-- A program with one segment, the byte 7 at address 0. -/
def oneByte : File where
  size := 85
  data := fun
    | 0 => 0x7f | 1 => 0x45 | 2 => 0x4c | 3 => 0x46
    | 28 => 52 | 44 => 1
    | 52 => 1 | 56 => 84 | 68 => 1 | 72 => 1
    | 84 => 7
    | _ => 0

end Xv6.Kern
