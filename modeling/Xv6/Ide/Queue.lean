import Xv6.Ide.Ide
import Xv6.Support.Result
import Xv6.Support.Segment

/-!
# Ide — requests are served in order, and what is valid is on the disk

The buffers from `idequeue` on are those whose request is not finished, each once, in the order in
which they arrived; the first is the one that the device works on, or has finished and not yet been
heard about (`Serves`).  All this holds whatever the device reports.

What a buffer holds when `iderw` returns is another matter: `ideintr` marks the buffer valid and not
dirty also when the device reports an error.

* `failed_read_is_valid`: a read that failed is returned as valid data.
* `ide_sync`: **the disk queue**, where every command succeeds and no two buffers in `iderw` are of
  the same block.
-/

namespace Xv6.Ide

open Function (update update_self update_of_ne)
open Support (Seg seg_snoc seg_congr)

variable {B D : Type}

/-! ### The device -/

/-- The device works on the request for this buffer, or has finished it. -/
structure Serves (d : Device D) (x : Buf B D) : Prop where
  unit : d.unit = x.dev.toNat % 2
  sector : d.sector = x.blockno.toNat
  count : d.count = 1
  control : d.control = 0
  cmd : match d.cmd with
    | some .read => d.irq = false ∧ x.dirty = false
    | some (.write y) => d.irq = false ∧ x.dirty = true ∧ y = x.data
    | none => d.irq = true ∧ (d.err = false →
        if x.dirty then d.disk d.unit d.sector = x.data else d.port = d.disk d.unit d.sector)

/-- The number of the disk goes through the registers unchanged. -/
theorem start_unit (d : Device D) (dev sector count : Nat) (cmd : Cmd D) :
    (d.start dev sector count cmd).unit = dev % 2 := by
  have key : ∀ a < 2, ∀ c < 16, ((0xe0 ||| (a <<< 4) ||| c) >>> 4) &&& 1 = a := by decide
  have ha : dev &&& 1 = dev % 2 := Nat.and_two_pow_sub_one_eq_mod dev 1
  have hc : (sector >>> 24) &&& 0x0f < 16 := Nat.and_lt_two_pow _ (n := 4) (by decide)
  simp only [Device.start, Device.unit]
  rw [ha]
  exact key _ (Nat.mod_lt _ (by decide)) _ hc

theorem low_drive (a c : Nat) (ha : a < 2) (hc : c < 16) :
    (0xe0 ||| (a <<< 4) ||| c) &&& 0x0f = c := by
  have key : ∀ a < 2, ∀ c < 16, (0xe0 ||| (a <<< 4) ||| c) &&& 0x0f = c := by decide
  exact key a ha c hc

theorem regs_sector (n a : Nat) (ha : a < 2) (h : n < 2 ^ 28) :
    (n &&& 0xff) + (((n >>> 8) &&& 0xff) <<< 8) + (((n >>> 16) &&& 0xff) <<< 16) +
      (((0xe0 ||| (a <<< 4) ||| ((n >>> 24) &&& 0x0f)) &&& 0x0f) <<< 24) = n := by
  have hb : ∀ n : Nat, n &&& 0xff = n % 256 := fun n => Nat.and_two_pow_sub_one_eq_mod n 8
  have hc : (n >>> 24) &&& 0x0f = (n >>> 24) % 16 := Nat.and_two_pow_sub_one_eq_mod _ 4
  rw [hc, low_drive a _ ha (Nat.mod_lt _ (by decide)), hb, hb, hb]
  omega

/-- The number of the sector goes through the registers unchanged. -/
theorem start_sector (d : Device D) (dev sector count : Nat) (cmd : Cmd D)
    (h : sector < 2 ^ 28) : (d.start dev sector count cmd).sector = sector :=
  regs_sector sector _ (Nat.and_lt_two_pow dev (n := 1) (by decide)) h

theorem serves_start (d : Device D) (x : Buf B D) (hb : x.blockno.toNat < FSSIZE)
    (hirq : d.irq = false) :
    Serves (d.start x.dev.toNat (x.blockno.toNat * (BSIZE / SECTOR_SIZE)) (BSIZE / SECTOR_SIZE)
      (if x.dirty then .write x.data else .read)) x := by
  have hs : x.blockno.toNat * (BSIZE / SECTOR_SIZE) = x.blockno.toNat := Nat.mul_one _
  refine ⟨start_unit .., ?_, rfl, rfl, ?_⟩
  · rw [hs]
    exact start_sector _ _ _ _ _ (Nat.lt_of_lt_of_le hb (by decide))
  · cases hd : x.dirty with
    | false => exact ⟨hirq, rfl⟩
    | true => exact ⟨hirq, rfl, rfl⟩

theorem store_self (d : Device D) (y : D) : d.store y d.unit d.sector = y := by
  rw [Device.store, update_self, update_self]

theorem store_of_ne (d : Device D) (y : D) {u n : Nat} (h : (u, n) ≠ (d.unit, d.sector)) :
    d.store y u n = d.disk u n := by
  rw [Device.store]
  by_cases hu : u = d.unit
  · subst hu
    have hn : n ≠ d.sector := fun e => h (by rw [e])
    rw [update_self, update_of_ne hn]
  · rw [update_of_ne hu]

/-- The device finishes: it serves the same request, and changes no sector but that one. -/
theorem Serves.finish {d d' : Device D} {x : Buf B D} {ok : Bool} {junk : D} (h : Serves d x)
    (hd : d.finish ok junk = some d') :
    Serves d' x ∧ d'.cmd = none ∧ d'.err = !ok ∧
      ∀ u n, (u, n) ≠ (x.dev.toNat % 2, x.blockno.toNat) → d'.disk u n = d.disk u n := by
  have hcmd := h.cmd
  rw [Device.finish] at hd
  split at hd
  · cases hd
  · rename_i hc
    rw [hc] at hcmd
    cases hd
    refine ⟨⟨h.unit, h.sector, h.count, h.control, ?_⟩, rfl, rfl, fun _ _ _ => rfl⟩
    refine ⟨by simp [h.control], fun herr => ?_⟩
    have hok : ok = true := by simpa using herr
    rw [if_neg (by simp [hcmd.2])]
    simp only [hok, h.count]
    rfl
  · rename_i y hc
    rw [hc] at hcmd
    cases hd
    refine ⟨⟨h.unit, h.sector, h.count, h.control, ?_⟩, rfl, rfl, fun u n hne => ?_⟩
    · refine ⟨by simp [h.control], fun herr => ?_⟩
      have hok : ok = true := by simpa using herr
      rw [if_pos hcmd.2.1]
      simp only [hok, h.count]
      exact (store_self d _).trans hcmd.2.2
    · refine store_of_ne d _ ?_
      rw [h.unit, h.sector]
      exact hne

/-! ### The queue -/

/-- `b->qnext` -/
def System.next (s : System B D) (b : B) : Option B := (s.buf b).qnext

/-- The buffers of `l` are queued. -/
structure Queued (s : System B D) (l : List B) : Prop where
  seg : Seg some s.next s.idequeue l none
  nodup : l.Nodup
  waits : ∀ b ∈ l, s.pc b = .waiting ∧ (s.buf b).clean = false
  woken : ∀ b, s.pc b = .waiting → b ∉ l → s.sleeping b = false ∧ (s.buf b).clean = true
  order : s.arrived = s.started ++ l.tail
  idle : l = [] → s.dev.cmd = none ∧ s.dev.irq = false
  serves : ∀ b ∈ l.head?, Serves s.dev (s.buf b)

/-- The disk block that a buffer is of. -/
def System.block (s : System B D) (b : B) : D :=
  s.dev.disk ((s.buf b).dev.toNat % 2) (s.buf b).blockno.toNat

/-- Two buffers are of one block. -/
def System.SameBlock (s : System B D) (b c : B) : Prop :=
  (s.buf b).dev.toNat % 2 = (s.buf c).dev.toNat % 2 ∧ (s.buf b).blockno = (s.buf c).blockno

/-- The finished requests left their buffers as the disk is. -/
structure Synced (s : System B D) (l : List B) : Prop where
  apart : ∀ b c, s.pc b = .waiting → s.pc c = .waiting → s.SameBlock b c → b = c
  fine : s.dev.cmd = none → l ≠ [] → s.dev.err = false
  data : ∀ b, s.pc b = .waiting → b ∉ l → (s.buf b).data = s.block b

/-- Every command succeeds, and a request is for another block than those in progress. -/
def Good (s : System B D) : Act B D → Prop
  | .finish ok _ => ok = true
  | .iderw b => ∀ c, s.pc c = .waiting → ¬ s.SameBlock c b
  | _ => True

instance [DecidableEq B] [Fintype B] (s : System B D) (a : Act B D) : Decidable (Good s a) :=
  match a with
  | .finish ok _ => inferInstanceAs (Decidable (ok = true))
  | .iderw _ => inferInstanceAs (Decidable (∀ c, s.pc c = .waiting → ¬ (_ ∧ _)))
  | .hold .. | .resume _ | .kill _ | .ideintr => inferInstanceAs (Decidable True)

section

variable {s s' s₁ : System B D} {l : List B} {b : B}

theorem idestart_spec (h : s.idestart (some b) = .ok s') :
    (s.buf b).blockno.toNat < FSSIZE ∧ s.dev.cmd = none ∧
      s' = { s with
        dev := s.dev.start (s.buf b).dev.toNat ((s.buf b).blockno.toNat * (BSIZE / SECTOR_SIZE))
          (BSIZE / SECTOR_SIZE) (if (s.buf b).dirty then .write (s.buf b).data else .read)
        started := s.started ++ [b] } := by
  simp only [System.idestart] at h
  split at h
  · cases h
  rename_i hb
  split at h
  · cases h
  · rename_i hc
    cases h
    exact ⟨Nat.lt_of_not_le hb, by simpa using hc, rfl⟩

variable {q : B} {d : Device D}

/-- The walk along the queue ends in its last buffer. -/
theorem last_eq {c : B} {k : Nat} (h : Seg some s.next (some c) (l ++ [q]) none)
    (hk : l.length < k) : s.last k c = some q := by
  obtain ⟨k, rfl⟩ := Nat.exists_eq_succ_of_ne_zero (Nat.ne_zero_of_lt hk)
  induction l generalizing c k with
  | nil =>
    obtain ⟨hc, hn⟩ := h
    obtain rfl : c = q := Option.some.inj hc
    have hn : (s.buf c).qnext = none := hn
    rw [System.last, hn]
  | cons a l ih =>
    obtain ⟨hc, hn⟩ := h
    obtain rfl : c = a := Option.some.inj hc
    have hk : l.length < k := Nat.lt_of_succ_lt_succ hk
    obtain ⟨c', hc'⟩ : ∃ c', s.next c = some c' := by
      cases l with
      | nil => exact ⟨q, hn.1⟩
      | cons d l => exact ⟨d, hn.1⟩
    rw [hc'] at hn
    have hc' : (s.buf c).qnext = some c' := hc'
    rw [System.last, hc']
    obtain ⟨k, rfl⟩ := Nat.exists_eq_succ_of_ne_zero (Nat.ne_zero_of_lt hk)
    exact ih hn k hk

theorem Serves.of_buf {x x' : Buf B D} {n : Option B} (h : Serves d x)
    (hx : x' = { x with qnext := n }) : Serves d x' := by
  subst hx
  exact ⟨h.unit, h.sector, h.count, h.control, h.cmd⟩

/-- What appending `b` leaves: only `qnext` fields and the queue change. -/
structure Appends (s s₁ : System B D) (b : B) : Prop where
  buf : ∀ q, ∃ n, s₁.buf q = { s.buf q with qnext := n }
  dev : s₁.dev = s.dev
  pc : s₁.pc = s.pc
  sleeping : s₁.sleeping = s.sleeping
  arrived : s₁.arrived = s.arrived ++ [b]
  started : s₁.started = s.started

section

variable (h : Appends s s₁ b)
include h

theorem Appends.clean : (s₁.buf q).clean = (s.buf q).clean := by
  obtain ⟨n, hn⟩ := h.buf q
  rw [hn]
  rfl

theorem Appends.sameBlock {r : B} : s₁.SameBlock q r ↔ s.SameBlock q r := by
  obtain ⟨n, hn⟩ := h.buf q
  obtain ⟨m, hm⟩ := h.buf r
  rw [System.SameBlock, hn, hm]
  rfl

theorem Appends.data : (s₁.buf q).data = (s.buf q).data := by
  obtain ⟨n, hn⟩ := h.buf q
  rw [hn]

theorem Appends.block : s₁.block q = s.block q := by
  obtain ⟨n, hn⟩ := h.buf q
  rw [System.block, System.block, hn, h.dev]

end

/-- The device has finished: what it left, when it reports no error. -/
theorem Serves.finished {x : Buf B D} (h : Serves d x) (hirq : d.irq = true) :
    d.cmd = none ∧ (d.err = false →
      if x.dirty then d.disk d.unit d.sector = x.data else d.port = d.disk d.unit d.sector) := by
  have hcmd := h.cmd
  cases hc : d.cmd with
  | none =>
    rw [hc] at hcmd
    exact ⟨rfl, hcmd.2⟩
  | some c =>
    rw [hc, hirq] at hcmd
    cases c <;> cases hcmd.1

theorem Queued.finish {ok : Bool} {junk : D} (h : Queued s l) (hd : s.dev.finish ok junk = some d) :
    Queued { s with dev := d } l ∧ (ok = true → Synced s l → Synced { s with dev := d } l) := by
  cases l with
  | nil =>
    rw [Device.finish, (h.idle rfl).1] at hd
    cases hd
  | cons b l =>
    obtain ⟨hserves, hcmd, herr, hdisk⟩ := (h.serves b rfl).finish hd
    refine ⟨⟨h.seg, h.nodup, h.waits, h.woken, h.order, fun e => absurd e (List.cons_ne_nil _ _), ?_⟩,
      fun hok hsync => ⟨hsync.apart, fun _ _ => by rw [herr, hok]; rfl, fun q hq hql => ?_⟩⟩
    · intro q hq
      cases hq
      exact hserves
    refine (hsync.data q hq hql).trans (hdisk _ _ fun e => ?_).symm
    obtain ⟨e₁, e₂⟩ := Prod.mk.inj e
    have := hsync.apart q b hq (h.waits b (List.mem_cons_self ..)).1 ⟨e₁, UInt32.toNat_inj.mp e₂⟩
    exact hql (this ▸ List.mem_cons_self ..)

theorem queued_initial (h : Initial s) : Queued s [] where
  seg := h.idequeue
  nodup := List.nodup_nil
  waits _ hb := nomatch hb
  woken b hb := by
    rw [h.pc b] at hb
    cases hb
  order := by rw [h.arrived, h.started]; rfl
  idle _ := ⟨h.cmd, h.irq⟩
  serves _ hb := nomatch hb

variable [DecidableEq B]

theorem enter_buf (s : System B D) (b q : B) :
    ∃ n, (s.enter b).buf q = { s.buf q with qnext := n } := by
  by_cases e : q = b
  · exact ⟨none, by simp only [System.enter, System.set, e, update_self]⟩
  · exact ⟨(s.buf q).qnext, by simp only [System.enter, System.set, update_of_ne e]⟩

theorem append_spec [Fintype B] (h : Queued s l) (hb : b ∉ l) :
    ∃ s₁, s.append b = .ok s₁ ∧ Appends s s₁ b ∧ Seg some s₁.next s₁.idequeue (l ++ [b]) none := by
  have hseg := h.seg
  have hnext : (s.enter b).next b = none := by
    simp only [System.next, System.enter, System.set, update_self]
  rcases List.eq_nil_or_concat l with rfl | ⟨l', q, rfl⟩
  · have hq : (s.enter b).idequeue = none := hseg
    refine ⟨{ s.enter b with idequeue := some b }, by simp only [System.append, hq],
      ⟨enter_buf s b, rfl, rfl, rfl, rfl, rfl⟩, rfl, hnext⟩
  rw [List.concat_eq_append] at *
  obtain ⟨c, hc⟩ : ∃ c, (s.enter b).idequeue = some c := by
    cases l' with
    | nil => exact ⟨q, hseg.1⟩
    | cons a l' => exact ⟨a, hseg.1⟩
  have hne : ∀ r ∈ l' ++ [q], r ≠ b := fun r hr e => hb (e ▸ hr)
  have hseg₀ : Seg some (s.enter b).next (some c) (l' ++ [q]) none := by
    rw [← hc]
    refine (seg_congr fun r hr => ?_).mpr hseg
    simp only [System.next, System.enter, System.set, update_of_ne (hne r hr)]
  have hlen : l'.length < Fintype.card B := by
    have := h.nodup.length_le_card
    rw [List.length_append, List.length_singleton] at this
    exact this
  have hlast := last_eq hseg₀ hlen
  refine ⟨(s.enter b).set q { (s.enter b).buf q with qnext := some b },
    by simp only [System.append, hc, hlast], ⟨fun r => ?_, rfl, rfl, rfl, rfl, rfl⟩,
    seg_snoc.mpr ⟨?_, ?_⟩⟩
  · obtain ⟨n, hn⟩ := enter_buf s b r
    by_cases e : r = q
    · subst e
      exact ⟨some b, by simp only [System.set, update_self, hn]⟩
    · exact ⟨n, by simp only [System.set, update_of_ne e, hn]⟩
  · change Seg some _ (s.enter b).idequeue (l' ++ [q]) (some b)
    rw [hc]
    refine hseg₀.relink ?_ fun r hr => ?_
    · simp only [System.next, System.set, update_self]
    · have hrq : r ≠ q := by
        rintro rfl
        exact (List.nodup_append.mp h.nodup).2.2 r hr r (by simp) rfl
      simp only [System.next, System.set, update_of_ne hrq]
  · rw [← hnext]
    simp only [System.next, System.set, update_of_ne (hne q (by simp)).symm]

/-! ### Steps -/

theorem startFirst_spec (h : Queued s l) (ha : Appends s s₁ b)
    (hseg : Seg some s₁.next s₁.idequeue (l ++ [b]) none) (hb : b ∉ l)
    (hs : s₁.startFirst b = .ok s') :
    ∃ dev started, s' = { s₁ with dev := dev, started := started } ∧
      s₁.arrived = started ++ (l ++ [b]).tail ∧ dev.disk = s.dev.disk ∧
      (∀ q ∈ (l ++ [b]).head?, Serves dev (s₁.buf q)) ∧
      (dev.cmd = none → l ≠ [] ∧ dev = s.dev) := by
  rw [System.startFirst] at hs
  cases l with
  | nil =>
    rw [if_pos hseg.1] at hs
    obtain ⟨hblock, -, rfl⟩ := idestart_spec hs
    refine ⟨_, _, rfl, ?_, by rw [← ha.dev]; rfl, ?_, fun hc => nomatch hc⟩
    · rw [ha.arrived, h.order, ha.started]
      simp
    · intro q hq
      cases hq
      exact serves_start _ _ hblock (by rw [ha.dev]; exact (h.idle rfl).2)
  | cons a l =>
    have hne : s₁.idequeue ≠ some b := by
      intro e
      obtain rfl : b = a := Option.some.inj (e.symm.trans hseg.1)
      exact hb (List.mem_cons_self ..)
    rw [if_neg hne] at hs
    obtain rfl : s' = s₁ := (Except.ok.inj hs).symm
    refine ⟨s'.dev, s'.started, rfl, ?_, by rw [ha.dev], ?_,
      fun _ => ⟨List.cons_ne_nil _ _, ha.dev⟩⟩
    · rw [ha.arrived, h.order, ha.started]
      simp
    intro q hq
    obtain rfl : a = q := by simpa using hq
    obtain ⟨n, hn⟩ := ha.buf a
    rw [ha.dev]
    exact (h.serves a rfl).of_buf hn

/-- A request is queued, and started when it is the only one. -/
theorem Queued.iderw [Fintype B] (h : Queued s l) (hpc : s.pc b ≠ .waiting)
    (hs : s.iderw b = .ok s') :
    Queued s' (l ++ [b]) ∧
      ((∀ c, s.pc c = .waiting → ¬ s.SameBlock c b) → Synced s l → Synced s' (l ++ [b])) := by
  have hb : b ∉ l := fun hm => hpc (h.waits b hm).1
  obtain ⟨s₁, hs₁, ha, hseg⟩ := append_spec h hb
  rw [System.iderw] at hs
  split at hs
  · cases hs
  rename_i hclean
  split at hs
  · cases hs
  obtain ⟨_, he, hs⟩ := Support.bind_ok.mp hs
  cases hs₁.symm.trans he
  obtain ⟨s₂, hs₂, hs⟩ := Support.bind_ok.mp hs
  obtain ⟨dev, started, rfl, horder, hdisk, hserves, hcmd⟩ := startFirst_spec h ha hseg hb hs₂
  have hclean : (s₁.buf b).clean = false := by rw [ha.clean]; simpa using hclean
  rw [System.wait, if_neg (by simp [hclean])] at hs
  cases hs
  have hpc' : ∀ q, q ≠ b → update s₁.pc b .waiting q = s.pc q := fun q hq => by
    rw [update_of_ne hq, ha.pc]
  have hmem : ∀ q, q ∉ l ++ [b] → q ≠ b ∧ q ∉ l := fun q hq => by simpa [and_comm] using hq
  refine ⟨⟨hseg, ?_, fun q hq => ?_, fun q hq hql => ?_, horder, fun e => ?_, hserves⟩,
    fun hg hsync => ⟨fun q r hq hr hqr => ?_, fun hc _ => ?_, fun q hq hql => ?_⟩⟩
  · rw [List.nodup_append]
    exact ⟨h.nodup, List.nodup_singleton b, fun x hx y hy e => hb (by simp_all)⟩
  · by_cases e : q = b
    · subst e
      exact ⟨update_self .., hclean⟩
    · have hql : q ∈ l := by simpa [e] using hq
      exact ⟨(hpc' q e).trans (h.waits q hql).1, ha.clean.trans (h.waits q hql).2⟩
  · obtain ⟨e, hql⟩ := hmem q hql
    obtain ⟨hw, hc⟩ := h.woken q ((hpc' q e).symm.trans hq) hql
    exact ⟨by simp only [update_of_ne e, ha.sleeping, hw], ha.clean.trans hc⟩
  · exact absurd e (by simp)
  · have hqr : s.SameBlock q r := ha.sameBlock.mp hqr
    by_cases eq : q = b
    · by_cases er : r = b
      · rw [eq, er]
      · refine absurd ?_ (hg r ((hpc' r er).symm.trans hr))
        rw [← eq]
        exact ⟨hqr.1.symm, hqr.2.symm⟩
    · by_cases er : r = b
      · rw [er] at hqr
        exact absurd hqr (hg q ((hpc' q eq).symm.trans hq))
      · exact hsync.apart q r ((hpc' q eq).symm.trans hq) ((hpc' r er).symm.trans hr) hqr
  · obtain ⟨hl, rfl⟩ := hcmd hc
    exact hsync.fine hc hl
  · obtain ⟨e, hql⟩ := hmem q hql
    have hdata := hsync.data q ((hpc' q e).symm.trans hq) hql
    rw [← ha.data, ← ha.block] at hdata
    rw [hdata, System.block, System.block, hdisk, ha.dev]

theorem complete_self (s : System B D) (b : B) : (s.complete b).buf b = { s.buf b with
    data := if !(s.buf b).dirty && !s.dev.err then s.dev.port else (s.buf b).data
    valid := true, dirty := false } := update_self ..

theorem complete_of_ne (h : q ≠ b) : (s.complete b).buf q = s.buf q := update_of_ne h ..

theorem complete_place (s : System B D) (b q : B) :
    ((s.complete b).buf q).dev = (s.buf q).dev ∧
      ((s.complete b).buf q).blockno = (s.buf q).blockno := by
  by_cases e : q = b
  · rw [e, complete_self]
    exact ⟨rfl, rfl⟩
  · rw [complete_of_ne e]
    exact ⟨rfl, rfl⟩

theorem complete_next (s : System B D) (b : B) : (s.complete b).next = s.next := by
  funext q
  by_cases e : q = b
  · rw [e, System.next, complete_self, System.next]
  · rw [System.next, complete_of_ne e, System.next]

/-- The interrupt handler takes the first request off the queue and starts the next one. -/
theorem ideintr_spec (h : Queued s (b :: l)) (hcmd : s.dev.cmd = none) (hs : s.ideintr = .ok s') :
    ∃ dev started, s' = { s.complete b with dev := dev, started := started } ∧
      s.arrived = started ++ l.tail ∧ dev.disk = s.dev.disk ∧
      (∀ q ∈ l.head?, Serves dev (s.buf q)) ∧ (l = [] → dev.cmd = none ∧ dev.irq = false) ∧
      (dev.cmd = none → l = []) := by
  have hqueue : s.idequeue = some b := h.seg.1
  have hseg : Seg some s.next (s.complete b).idequeue l none := h.seg.2
  simp only [System.ideintr, hqueue, hcmd, Option.isSome_none, Bool.and_false,
    Bool.false_eq_true, if_false] at hs
  cases l with
  | nil =>
    have hq : (s.complete b).idequeue = none := hseg
    rw [if_neg (by simp [hq])] at hs
    obtain rfl := Except.ok.inj hs
    refine ⟨_, _, rfl, h.order, rfl, fun q hq => ?_, fun _ => ⟨hcmd, rfl⟩, fun _ => rfl⟩
    cases hq
  | cons c l =>
    have hq : (s.complete b).idequeue = some c := hseg.1
    rw [if_pos (by simp [hq]), hq] at hs
    obtain ⟨hblock, -, rfl⟩ := idestart_spec hs
    refine ⟨_, _, rfl, ?_, rfl, fun q hq => ?_, fun e => absurd e (List.cons_ne_nil _ _),
      fun hc => nomatch hc⟩
    · rw [h.order]
      change s.started ++ c :: l = (s.started ++ [c]) ++ l
      simp
    · cases hq
      have hcb : c ≠ b := fun e => (List.nodup_cons.mp h.nodup).1 (e ▸ List.mem_cons_self ..)
      have := serves_start (s.complete b).dev _ hblock rfl
      rwa [complete_of_ne hcb] at this ⊢

/-- The first request is finished, and the next one started. -/
theorem Queued.ideintr (h : Queued s l) (hirq : s.dev.irq = true) (hs : s.ideintr = .ok s') :
    Queued s' l.tail ∧ (Synced s l → Synced s' l.tail) := by
  cases l with
  | nil =>
    rw [(h.idle rfl).2] at hirq
    cases hirq
  | cons b l =>
    have hserves := h.serves b rfl
    obtain ⟨hcmd, hfinished⟩ := hserves.finished hirq
    obtain ⟨hb, hl⟩ := List.nodup_cons.mp h.nodup
    have hne : ∀ q ∈ l, q ≠ b := fun q hq e => hb (e ▸ hq)
    obtain ⟨dev, started, rfl, horder, hdisk, hnext, hidle, hbusy⟩ := ideintr_spec h hcmd hs
    refine ⟨⟨complete_next s b ▸ h.seg.2, hl, fun q hq => ?_, fun q hq hql => ?_, horder, hidle,
      fun q hq => ?_⟩, fun hsync => ⟨fun q r hq hr hqr => ?_, fun hc hl => absurd (hbusy hc) hl,
        fun q hq hql => ?_⟩⟩
    · obtain ⟨hw, hc⟩ := h.waits q (List.mem_cons_of_mem b hq)
      exact ⟨hw, (congrArg Buf.clean (complete_of_ne (hne q hq))).trans hc⟩
    · by_cases e : q = b
      · subst e
        exact ⟨update_self .., by rw [complete_self]; rfl⟩
      · obtain ⟨hw, hc⟩ := h.woken q hq (List.not_mem_cons_of_ne_of_not_mem e hql)
        exact ⟨(update_of_ne e ..).trans hw, (congrArg Buf.clean (complete_of_ne e)).trans hc⟩
    · rw [complete_of_ne (hne q (List.mem_of_mem_head? hq))]
      exact hnext q hq
    · refine hsync.apart q r hq hr ?_
      rw [System.SameBlock, (complete_place s b q).1, (complete_place s b q).2,
        (complete_place s b r).1, (complete_place s b r).2] at hqr
      exact hqr
    · have hblock : dev.disk (((s.complete b).buf q).dev.toNat % 2)
          ((s.complete b).buf q).blockno.toNat = s.block q := by
        rw [hdisk, (complete_place s b q).1, (complete_place s b q).2, System.block]
      refine Eq.trans ?_ hblock.symm
      by_cases e : q = b
      · subst e
        have herr := hsync.fine hcmd (List.cons_ne_nil _ _)
        have hdata := hfinished herr
        rw [hserves.unit, hserves.sector] at hdata
        rw [complete_self, System.block, herr]
        cases hd : (s.buf q).dirty with
        | true =>
          rw [hd] at hdata
          exact hdata.symm
        | false =>
          rw [hd] at hdata
          exact hdata
      · change ((s.complete b).buf q).data = _
        rw [complete_of_ne e]
        exact hsync.data q hq (List.not_mem_cons_of_ne_of_not_mem e hql)

theorem Queued.wait (h : Queued s l) (hpc : s.pc b = .waiting) :
    Queued (s.wait b) l ∧ (Synced s l → Synced (s.wait b) l) := by
  rw [System.wait]
  split
  · rename_i hclean
    have hb : b ∉ l := fun hm => by
      rw [(h.waits b hm).2] at hclean
      cases hclean
    have hpc' : ∀ q, update s.pc b .returned q = .waiting → s.pc q = .waiting := by
      intro q hq
      by_cases e : q = b
      · rw [e, hpc]
      · rwa [update_of_ne e] at hq
    refine ⟨⟨h.seg, h.nodup, fun q hq => ⟨?_, (h.waits q hq).2⟩, fun q hq => h.woken q (hpc' q hq),
      h.order, h.idle, h.serves⟩, fun hsync => ⟨fun q r hq hr => ?_, hsync.fine, fun q hq => ?_⟩⟩
    · change update s.pc b .returned q = .waiting
      have hqb : q ≠ b := fun e => hb (e ▸ hq)
      rw [update_of_ne hqb]
      exact (h.waits q hq).1
    · exact hsync.apart q r (hpc' q hq) (hpc' r hr)
    · exact hsync.data q (hpc' q hq)
  · rename_i hclean
    have hsame : update s.pc b .waiting = s.pc := by
      rw [← hpc, Function.update_eq_self]
    rw [hsame]
    refine ⟨⟨h.seg, h.nodup, h.waits, fun q hq hql => ?_, h.order, h.idle, h.serves⟩,
      fun hsync => ⟨hsync.apart, hsync.fine, hsync.data⟩⟩
    have hqb : q ≠ b := by
      rintro rfl
      exact hclean (h.woken q hq hql).2
    exact ⟨by simp only [update_of_ne hqb, (h.woken q hq hql).1], (h.woken q hq hql).2⟩

theorem Queued.hold {dev blockno : UInt32} {valid dirty : Bool} {data : D} (h : Queued s l)
    (hpc : s.pc b ≠ .waiting)
    (hs : s' = { s.set b { s.buf b with dev, blockno, valid, dirty, data } with
      pc := update s.pc b .outside }) :
    Queued s' l ∧ (Synced s l → Synced s' l) := by
  have hb : b ∉ l := fun hm => hpc (h.waits b hm).1
  have hbuf : ∀ q, q ≠ b → s'.buf q = s.buf q := fun q hq => by
    rw [hs]
    exact update_of_ne hq ..
  have hpc' : ∀ q, q ≠ b → s'.pc q = s.pc q := fun q hq => by
    rw [hs]
    exact update_of_ne hq ..
  have hw : ∀ q, s'.pc q = .waiting → q ≠ b ∧ s.pc q = .waiting := by
    intro q hq
    have hqb : q ≠ b := by
      rintro rfl
      rw [hs] at hq
      simp only [update_self] at hq
      cases hq
    exact ⟨hqb, hpc' q hqb ▸ hq⟩
  have hnext : s'.next = s.next := by
    funext q
    by_cases e : q = b
    · rw [e, hs]
      simp only [System.next, System.set, update_self]
    · rw [System.next, hbuf q e, System.next]
  have hne : ∀ q ∈ l, q ≠ b := fun q hq e => hb (e ▸ hq)
  have hdev : s'.dev = s.dev := by rw [hs]; rfl
  refine ⟨⟨?_, h.nodup, fun q hq => ?_, fun q hq hql => ?_, ?_, ?_, fun q hq => ?_⟩,
    fun hsync => ⟨fun q r hq hr hqr => ?_, ?_, fun q hq hql => ?_⟩⟩
  · rw [hnext, hs]
    exact h.seg
  · rw [hpc' q (hne q hq), hbuf q (hne q hq)]
    exact h.waits q hq
  · obtain ⟨hqb, hq⟩ := hw q hq
    rw [hbuf q hqb, hs]
    exact h.woken q hq hql
  · rw [hs]
    exact h.order
  · rw [hdev]
    exact h.idle
  · rw [hdev, hbuf q (hne q (List.mem_of_mem_head? hq))]
    exact h.serves q hq
  · obtain ⟨hqb, hq⟩ := hw q hq
    obtain ⟨hrb, hr⟩ := hw r hr
    rw [System.SameBlock, hbuf q hqb, hbuf r hrb] at hqr
    exact hsync.apart q r hq hr hqr
  · rw [hdev]
    exact hsync.fine
  · obtain ⟨hqb, hq⟩ := hw q hq
    rw [System.block, hbuf q hqb, hdev]
    exact hsync.data q hq hql

/-! ### Runs -/

theorem queued_step [Fintype B] {a : Act B D} (h : Queued s l) (hs : s.step a = some s') :
    ∃ l', Queued s' l' ∧ (Good s a → Synced s l → Synced s' l') := by
  cases a with
  | hold b dev blockno valid dirty data =>
    rw [System.step] at hs
    split at hs
    · cases hs
    · rename_i hpc
      obtain ⟨h', hsync⟩ := h.hold hpc (Option.some.inj hs).symm
      exact ⟨l, h', fun _ => hsync⟩
  | iderw b =>
    rw [System.step] at hs
    split at hs
    · cases hs
    · rename_i hpc
      exact ⟨_, h.iderw hpc (Support.toOption_eq_some.mp hs)⟩
  | resume b =>
    rw [System.step] at hs
    split at hs
    · rename_i hpc
      cases hs
      obtain ⟨h', hsync⟩ := h.wait hpc.1
      exact ⟨l, h', fun _ => hsync⟩
    · cases hs
  | kill b =>
    cases hs
    refine ⟨l, ⟨h.seg, h.nodup, h.waits, fun q hq hql => ?_, h.order, h.idle, h.serves⟩,
      fun _ hsync => ⟨hsync.apart, hsync.fine, hsync.data⟩⟩
    obtain ⟨hw, hc⟩ := h.woken q hq hql
    refine ⟨?_, hc⟩
    change update s.sleeping b false q = false
    by_cases e : q = b
    · rw [e, update_self]
    · rw [update_of_ne e, hw]
  | finish ok junk =>
    obtain ⟨d, hd, rfl⟩ := Option.map_eq_some_iff.mp hs
    exact ⟨l, h.finish hd⟩
  | ideintr =>
    rw [System.step] at hs
    split at hs
    · rename_i hirq
      obtain ⟨h', hsync⟩ := h.ideintr hirq (Support.toOption_eq_some.mp hs)
      exact ⟨_, h', fun _ => hsync⟩
    · cases hs

/-- **No request is lost.**  Whatever the device reports, and for any buffers: the queue is in order,
and who sleeps in `iderw` has its buffer there, to be woken. -/
theorem queue_sound [Fintype B] {G : System B D → Act B D → Prop} (h : IdeRun G s) :
    ∃ l, Queued s l ∧ ∀ b, s.pc b = .waiting → s.sleeping b = true → b ∈ l := by
  obtain ⟨s₀, h₀, h⟩ := h
  obtain ⟨l, hl⟩ := h.invariant (I := fun s => ∃ l, Queued s l) ⟨[], queued_initial h₀⟩
    fun t a u hI _ hs => by
      obtain ⟨l, hI⟩ := hI
      obtain ⟨l', h', -⟩ := queued_step hI hs
      exact ⟨l', h'⟩
  refine ⟨l, hl, fun b hpc hsl => by_contra fun hb => ?_⟩
  cases (hl.woken b hpc hb).1.symm.trans hsl

theorem synced_run [Fintype B] (h : IdeRun Good s) : ∃ l, Queued s l ∧ Synced s l := by
  obtain ⟨s₀, h₀, h⟩ := h
  refine h.invariant (I := fun s => ∃ l, Queued s l ∧ Synced s l) ⟨[], queued_initial h₀, ?_⟩
    fun t a u hI hg hs => ?_
  · refine ⟨fun b _ hb => ?_, fun _ hl => absurd rfl hl, fun b hb => ?_⟩ <;>
      · rw [h₀.pc b] at hb
        cases hb
  · obtain ⟨l, hI, hsync⟩ := hI
    obtain ⟨l', h', hsync'⟩ := queued_step (a := a) hI hs
    exact ⟨l', h', hsync' hg hsync⟩

/-- **The disk queue.**  In every run in which the device reports no error and no two buffers in
`iderw` are of the same block: the queue holds no buffer twice, the requests started are the first of
those that arrived, each once, all but those behind the first in the queue; and when `iderw` returns,
the buffer is valid and not dirty and holds its block of the disk. -/
theorem ide_sync [Fintype B] (h : IdeRun Good s) :
    (∃ l, Seg some s.next s.idequeue l none ∧ l.Nodup ∧ s.arrived = s.started ++ l.tail) ∧
      ∀ b s', s.step (.resume b) = some s' → s'.pc b = .returned →
        (s'.buf b).valid = true ∧ (s'.buf b).dirty = false ∧ (s'.buf b).data = s'.block b := by
  obtain ⟨l, hq, hsync⟩ := synced_run h
  refine ⟨⟨l, hq.seg, hq.nodup, hq.order⟩, fun b s' hs hret => ?_⟩
  rw [System.step] at hs
  split at hs
  · rename_i hpc
    obtain rfl := Option.some.inj hs
    cases hc : (s.buf b).clean with
    | false =>
      rw [System.wait, hc] at hret
      simp only [Bool.false_eq_true, if_false, update_self] at hret
      cases hret
    | true =>
      rw [System.wait, hc]
      have hb : b ∉ l := fun hm => by
        rw [(hq.waits b hm).2] at hc
        cases hc
      have hflags : (s.buf b).valid = true ∧ (s.buf b).dirty = false := by
        simpa [Buf.clean] using hc
      exact ⟨hflags.1, hflags.2, hsync.data b hpc.1 hb⟩
  · cases hs

end

/-- Two buffers of disk 0: one of block 5, to be read, and one of block 6, to be written.  Every
sector of the disk holds 7. -/
def sample : System Bool Nat where
  idequeue := none
  havedisk1 := false
  buf b := if b then ⟨0, 6, true, true, 8, none⟩ else ⟨0, 5, false, false, 0, none⟩
  dev := ⟨0, 0, 0, 0, 0, 0, none, false, 0, false, fun _ _ => 7⟩
  pc _ := .outside
  sleeping _ := false
  arrived := []
  started := []

theorem sample_initial : Initial sample := ⟨rfl, fun _ => rfl, rfl, rfl, rfl, rfl⟩

/-- The read and the write are queued, in this order, and both succeed. -/
theorem ide_sync_both :
    ∃ s s' : System Bool Nat, s.arrived = [false, true] ∧ s.step (.resume true) = some s' ∧
      s'.pc true = .returned ∧ (s'.buf true).dirty = false ∧ (s'.buf true).data = s'.block true := by
  obtain ⟨s, r, harr, s', hs', hret⟩ := Support.exists_run System.step Good sample
    [.iderw false, .iderw true, .finish true 0, .ideintr, .resume false, .finish true 0, .ideintr]
    (fun s => s.arrived = [false, true] ∧
      ∃ s', s.step (.resume true) = some s' ∧ s'.pc true = .returned) (by decide +kernel)
  exact ⟨s, s', harr, hs', hret, ((ide_sync ⟨sample, sample_initial, r⟩).2 true s' hs' hret).2⟩

/-- The read has failed, and the write waits. -/
theorem queue_sound_failed : ∃ (s : System Bool Nat) (l : List Bool), s.dev.err = true ∧
    Queued s l ∧ true ∈ l := by
  obtain ⟨s, r, he, hpc, hsl⟩ := Support.exists_run System.step (fun _ _ => True) sample
    [.iderw false, .iderw true, .finish false 0]
    (fun s => s.dev.err = true ∧ s.pc true = .waiting ∧ s.sleeping true = true) (by decide +kernel)
  obtain ⟨l, hl, hall⟩ := queue_sound ⟨sample, sample_initial, r⟩
  exact ⟨s, l, he, hl, hall true hpc hsl⟩

/-- The read fails, and is returned as valid: the buffer holds 0, the block 7. -/
theorem failed_read_is_valid :
    ∃ s s' : System Bool Nat, IdeRun (fun _ _ => True) s ∧ s.step (.resume false) = some s' ∧
      s'.pc false = .returned ∧ (s'.buf false).valid = true ∧
      (s'.buf false).data ≠ s'.block false := by
  obtain ⟨s, r, s', h⟩ := Support.exists_run System.step (fun _ _ => True) sample
    [.iderw false, .finish false 0, .ideintr]
    (fun s => ∃ s', s.step (.resume false) = some s' ∧ s'.pc false = .returned ∧
      (s'.buf false).valid = true ∧ (s'.buf false).data ≠ s'.block false) (by decide +kernel)
  exact ⟨s, s', ⟨sample, sample_initial, r⟩, h⟩

end Xv6.Ide
