import Xv6.Console.Console
import Xv6.Support.Result
import Xv6.Support.Window

/-!
# Console — the line discipline

The bytes committed and those being edited form one stream, of which the three indices are the
lengths modulo `2 ^ 32`: `r` of what was taken, `w` of what was committed, `e` of all of it.  The ring
holds the stream from `r` on (`Holds`).  Editing moves the end of the stream and stays above `w`;
reading moves `r` and stays below `w`.

* `console_discipline`: **the line discipline**.  The indices are in order; a batch leaves the
  committed bytes that are not read; what was committed is what was taken, in order, and what the
  ring still holds; and a read stops at a newline and before a `^D`.
-/

namespace Xv6.Console

open Support (Window counter_eq_iff counter_add counter_mod counter_sub counter_pred)

/-! ### The ring -/

/-- The ring holds the committed bytes that were not taken, and the line that is being edited. -/
structure Holds (t : Input) (committed pending : List UInt8) (taken : Nat) : Prop where
  r : t.r = UInt32.ofNat taken
  w : t.w = UInt32.ofNat committed.length
  e : t.e = UInt32.ofNat (committed ++ pending).length
  taken_le : taken ≤ committed.length
  window : Window INPUT_BUF t.buf taken (committed ++ pending)

namespace Holds

variable {t : Input} {committed pending : List UInt8} {taken : Nat} {c : UInt8}

section

variable (h : Holds t committed pending taken)
include h

theorem length_le : (committed ++ pending).length ≤ taken + 128 := h.window.fits

theorem w_sub_r : (t.w - t.r).toNat = committed.length - taken := by
  have := h.length_le
  rw [List.length_append] at this
  rw [h.w, h.r, counter_sub h.taken_le (by omega)]

theorem e_sub_r : (t.e - t.r).toNat = (committed ++ pending).length - taken := by
  have := h.length_le
  rw [h.e, h.r, counter_sub h.window.start (by omega)]

theorem e_eq_w_iff : t.e = t.w ↔ pending = [] := by
  have := h.length_le
  have := h.taken_le
  rw [List.length_append] at *
  rw [eq_comm, h.e, h.w, List.length_append, counter_eq_iff (by omega) (by omega)]
  rw [← List.length_eq_zero_iff]
  omega

theorem r_eq_w_iff : t.r = t.w ↔ taken = committed.length := by
  have := h.length_le
  rw [List.length_append] at this
  rw [h.r, h.w, counter_eq_iff h.taken_le (by omega)]

end

theorem cell (i : Nat) : t.cell (UInt32.ofNat i) = t.buf (i % INPUT_BUF) := by
  rw [Input.cell, counter_mod (by decide)]

section

variable (h : Holds t committed pending taken)
include h

/-- The bytes between two indices. -/
theorem slice {a b : Nat} (ha : taken ≤ a) (hab : a ≤ b) (hb : b ≤ (committed ++ pending).length) :
    t.slice (UInt32.ofNat a) (UInt32.ofNat b) = ((committed ++ pending).take b).drop a := by
  have := h.length_le
  rw [Input.slice, counter_sub hab (by omega), ← h.window.slice ha hb]
  refine List.map_congr_left fun k _ => ?_
  rw [counter_add, cell]

theorem slice_r_w : t.slice t.r t.w = committed.drop taken := by
  rw [h.r, h.w, h.slice (Nat.le_refl _) h.taken_le (by simp), List.take_left]

theorem slice_w_e : t.slice t.w t.e = pending := by
  rw [h.w, h.e, h.slice h.taken_le (by simp) (Nat.le_refl _), List.take_length, List.drop_left]

/-- `input.e--` drops the last byte of the line. -/
theorem back (hne : pending ≠ []) :
    Holds { t with e := t.e - 1 } committed pending.dropLast taken := by
  obtain ⟨l, x, rfl⟩ := (List.eq_nil_or_concat pending).resolve_left hne
  rw [List.concat_eq_append] at *
  have hl : (committed ++ (l ++ [x])).length = (committed ++ l).length + 1 := by simp; omega
  have hw := h.window.take (m := (committed ++ l).length)
    (by have := h.taken_le; simp; omega) (by omega)
  rw [← List.append_assoc, List.take_left] at hw
  rw [List.dropLast_concat]
  exact ⟨h.r, h.w, by simp only [h.e, hl, counter_pred], h.taken_le, hw⟩

theorem put (hroom : t.e - t.r < UInt32.ofNat INPUT_BUF) :
    Holds (t.put c) committed (pending ++ [c]) taken := by
  have hroom : (t.e - t.r).toNat < 128 := hroom
  rw [h.e_sub_r] at hroom
  have hstart := h.window.start
  have hw := h.window.push (x := c) (by simp only [INPUT_BUF]; omega)
  rw [← counter_mod (N := INPUT_BUF) (by decide), ← h.e, List.append_assoc] at hw
  refine ⟨h.r, h.w, ?_, h.taken_le, hw⟩
  have hl : (committed ++ (pending ++ [c])).length = (committed ++ pending).length + 1 := by
    rw [← List.append_assoc, List.length_append, List.length_singleton]
  change t.e + 1 = _
  rw [h.e, hl]
  exact counter_add _ 1

theorem commit : Holds { t with w := t.e } (committed ++ pending) [] taken where
  r := h.r
  w := h.e
  e := by rw [List.append_nil]; exact h.e
  taken_le := h.window.start
  window := by rw [List.append_nil]; exact h.window

theorem take (hne : t.r ≠ t.w) : Holds { t with r := t.r + 1 } committed pending (taken + 1) ∧
      committed[taken]? = some (t.cell t.r) := by
  have hlt : taken < committed.length :=
    Nat.lt_of_le_of_ne h.taken_le fun e => hne (h.r_eq_w_iff.mpr e)
  have hlt' : taken < (committed ++ pending).length := by rw [List.length_append]; omega
  refine ⟨⟨?_, h.w, h.e, hlt, h.window.pop hlt'⟩, ?_⟩
  · change t.r + 1 = _
    rw [h.r]
    exact counter_add _ 1
  · have := h.window.head hlt'
    rw [List.getElem?_append_left hlt] at this
    rw [this, h.r, cell]

/-- Kill line drops bytes from the end of the line. -/
theorem killLine (k : Nat) : ∃ pending', Holds (t.killLine k) committed pending' taken := by
  induction k generalizing t pending with
  | zero => exact ⟨pending, h⟩
  | succ k ih =>
    rw [Input.killLine]
    split
    · rename_i hc
      exact ih (h.back fun e => hc.1 (h.e_eq_w_iff.mpr e))
    · exact ⟨pending, h⟩

end

end Holds

/-! ### Editing -/

section

variable {P : Type} {s s' : System P}

/-- The ring of the console is in order. -/
structure Ring (s : System P) : Prop where
  holds : ∃ pending, Holds s.input s.committed pending s.taken.length
  order : s.taken.map Prod.snd <+: s.committed

/-- What editing may change: the line, and more may be committed. -/
structure Edits (s s' : System P) : Prop where
  r : s'.input.r = s.input.r
  pc : s'.pc = s.pc
  taken : s'.taken = s.taken
  committed : s.committed <+: s'.committed

theorem Edits.refl (s : System P) : Edits s s := ⟨rfl, rfl, rfl, List.prefix_rfl⟩

theorem Edits.trans {s'' : System P} (h : Edits s s') (h' : Edits s' s'') : Edits s s'' :=
  ⟨h'.r.trans h.r, h'.pc.trans h.pc, h'.taken.trans h.taken, h.committed.trans h'.committed⟩

/-- A new line in the ring, nothing committed. -/
theorem Ring.line {t : Input} {pending : List UInt8} (h : Ring s) (hr : t.r = s.input.r)
    (ht : Holds t s.committed pending s.taken.length) :
    Ring { s with input := t } ∧ Edits s { s with input := t } :=
  ⟨⟨⟨pending, ht⟩, h.order⟩, hr, rfl, rfl, List.prefix_rfl⟩

theorem Ring.commit (h : Ring s) : Ring s.commit ∧ Edits s s.commit := by
  obtain ⟨pending, hh⟩ := h.holds
  have hc : s.commit.committed = s.committed ++ pending := by rw [← hh.slice_w_e]; rfl
  refine ⟨⟨⟨[], ?_⟩, ?_⟩, rfl, rfl, rfl, List.prefix_append ..⟩
  · rw [hc]
    exact hh.commit
  · rw [hc]
    exact h.order.trans (List.prefix_append ..)

theorem killLine_r (t : Input) (k : Nat) : (t.killLine k).r = t.r := by
  induction k generalizing t with
  | zero => rfl
  | succ k ih =>
    rw [Input.killLine]
    split
    · exact ih _
    · rfl

theorem Ring.key (h : Ring s) (c : UInt8) : Ring (s.key c) ∧ Edits s (s.key c) := by
  obtain ⟨pending, hh⟩ := h.holds
  rw [System.key]
  split
  · exact ⟨h, .refl s⟩
  split
  · obtain ⟨pending', hh'⟩ := hh.killLine (s.input.e - s.input.w).toNat
    exact h.line (killLine_r ..) hh'
  split
  · split
    · rename_i hne
      exact h.line rfl (hh.back fun e => hne (hh.e_eq_w_iff.mpr e))
    · exact ⟨h, .refl s⟩
  split
  · rename_i hroom
    generalize (if c = CR then NL else c) = c'
    obtain ⟨h', hedits⟩ := h.line (t := s.input.put c') rfl (hh.put hroom.2)
    simp only []
    split
    · exact ⟨h'.commit.1, hedits.trans h'.commit.2⟩
    · exact ⟨h', hedits⟩
  · exact ⟨h, .refl s⟩

theorem Ring.consoleintr (h : Ring s) (cs : List UInt8) :
    Ring (s.consoleintr cs) ∧ Edits s (s.consoleintr cs) := by
  induction cs generalizing s with
  | nil => exact ⟨h, .refl s⟩
  | cons c cs ih =>
    obtain ⟨h', hedits⟩ := h.key c
    obtain ⟨h'', hedits'⟩ := ih h'
    exact ⟨h'', hedits.trans hedits'⟩

/-- Editing leaves the committed bytes that are still to be read. -/
theorem Ring.keeps (h : Ring s) (h' : Ring s') (hedits : Edits s s') :
    s.input.slice s.input.r s.input.w <+: s'.input.slice s'.input.r s'.input.w := by
  obtain ⟨_, hh⟩ := h.holds
  obtain ⟨_, hh'⟩ := h'.holds
  rw [hh.slice_r_w, hh'.slice_r_w, hedits.taken]
  exact hedits.committed.drop _

/-! ### Reading -/

theorem Ring.take (h : Ring s) (hne : s.input.r ≠ s.input.w) (p : P) : Ring (s.take p) := by
  obtain ⟨pending, hh⟩ := h.holds
  obtain ⟨hh', hcell⟩ := hh.take hne
  refine ⟨⟨pending, ?_⟩, ?_⟩
  · rw [System.take, List.length_append, List.length_singleton]
    exact hh'
  · rw [System.take, List.map_append]
    refine Support.prefix_snoc h.order ?_
    rw [List.length_map]
    exact hcell

theorem putBack_take (s : System P) (p : P) : (s.take p).putBack = s := by
  simp only [System.take, System.putBack, UInt32.add_sub_cancel, List.dropLast_concat]

end

section

variable {P : Type} [DecidableEq P] {s s' : System P} {p q : P}

/-- The bytes that a process has received, of those taken. -/
def received (taken : List (P × UInt8)) (p : P) : List UInt8 :=
  (taken.filter fun x => x.1 = p ∧ x.2 ≠ C 'D').map Prod.snd

/-- What a process has of its read, or had of its last one. -/
def Clean (taken : List (P × UInt8)) (p : P) : Pc → Prop
  | .reading target n dst =>
    dst.length + n = target ∧ dst <:+ received taken p ∧ ∀ b ∈ dst, b ≠ NL ∧ b ≠ C 'D'
  | .done (some dst) => dst <:+ received taken p ∧ NL ∉ dst.dropLast ∧ C 'D' ∉ dst
  | _ => True

theorem received_append (taken : List (P × UInt8)) (p q : P) (b : UInt8) :
    received (taken ++ [(q, b)]) p = received taken p ++ if q = p ∧ b ≠ C 'D' then [b] else [] := by
  rw [received, List.filter_append, List.map_append, received]
  congr 1
  by_cases h : q = p ∧ b ≠ C 'D'
  · simp [h]
  · simp [h]

theorem Clean.of_received {taken taken' : List (P × UInt8)} {pc : Pc}
    (h : Clean taken p pc) (he : received taken' p = received taken p) : Clean taken' p pc := by
  cases pc with
  | idle => trivial
  | reading target n dst =>
    rw [Clean, he]
    exact h
  | done dst =>
    cases dst with
    | none => trivial
    | some dst =>
      rw [Clean, he]
      exact h

/-- The ring is in order, and so is every read. -/
structure Ordered (s : System P) : Prop where
  ring : Ring s
  clean : ∀ p, Clean s.taken p (s.pc p)

/-- A process goes on to a point that is in order. -/
theorem Ring.goto {pc : Pc} (h : Ring s) (hothers : ∀ q, q ≠ p → Clean s.taken q (s.pc q))
    (hp : Clean s.taken p pc) : Ordered (s.goto p pc) := by
  refine ⟨⟨h.holds, h.order⟩, fun q => ?_⟩
  change Clean s.taken q (Function.update s.pc p pc q)
  by_cases e : q = p
  · rw [e, Function.update_self]
    exact hp
  · rw [Function.update_of_ne e]
    exact hothers q e

/-- A read runs from one state in order to another.  The induction is on what is still to come; of
the process that reads only the bytes it has are known in between. -/
theorem ordered_consoleread {target n : Nat} {dst : List UInt8} (h : Ring s)
    (hothers : ∀ q, q ≠ p → Clean s.taken q (s.pc q))
    (hp : Clean s.taken p (.reading target n dst)) :
    Ordered (s.consoleread p target dst n) := by
  have hdone : ∀ dst : List UInt8, (∀ b ∈ dst, b ≠ NL ∧ b ≠ C 'D') →
      NL ∉ dst.dropLast ∧ C 'D' ∉ dst :=
    fun dst hb => ⟨fun hm => (hb _ (List.mem_of_mem_dropLast hm)).1 rfl, fun hm => (hb _ hm).2 rfl⟩
  induction n generalizing s dst with
  | zero => exact h.goto hothers ⟨hp.2.1, hdone dst hp.2.2⟩
  | succ n ih =>
    obtain ⟨hlen, hsuf, hbytes⟩ := hp
    rw [System.consoleread]
    split
    · split
      · exact h.goto hothers trivial
      · have h' : Ring (s.sleep p) := ⟨h.holds, h.order⟩
        exact h'.goto hothers ⟨hlen, hsuf, hbytes⟩
    · rename_i hne
      have h' := h.take hne p
      have hrec : ∀ q, received (s.take p).taken q = received s.taken q ++
          if p = q ∧ s.input.cell s.input.r ≠ C 'D' then [s.input.cell s.input.r] else [] :=
        fun q => received_append ..
      have hothers' : ∀ q, q ≠ p → Clean (s.take p).taken q (s.pc q) := fun q hq =>
        (hothers q hq).of_received (by rw [hrec q, if_neg fun hc => hq hc.1.symm, List.append_nil])
      simp only []
      split
      · rename_i hD
        split
        · rw [putBack_take]
          exact h.goto hothers ⟨hsuf, hdone dst hbytes⟩
        · refine h'.goto hothers' ⟨?_, hdone dst hbytes⟩
          rw [hrec p, if_neg fun hc => hc.2 hD, List.append_nil]
          exact hsuf
      · rename_i hD
        have hsuf' : dst ++ [s.input.cell s.input.r] <:+ received (s.take p).taken p := by
          obtain ⟨l, hl⟩ := hsuf
          rw [hrec p, if_pos ⟨rfl, hD⟩, ← hl]
          exact ⟨l, (List.append_assoc ..).symm⟩
        split
        · refine h'.goto hothers' ⟨hsuf', ?_, ?_⟩
          · rw [List.dropLast_concat]
            exact fun hm => (hbytes _ hm).1 rfl
          · rw [List.mem_append, List.mem_singleton]
            rintro (hm | hm)
            · exact (hbytes _ hm).2 rfl
            · exact hD hm.symm
        · rename_i hNL
          refine ih h' hothers' ⟨?_, hsuf', fun b hb => ?_⟩
          · rw [List.length_append, List.length_singleton]
            omega
          · rcases List.mem_append.mp hb with hb | hb
            · exact hbytes b hb
            · rw [List.mem_singleton.mp hb]
              exact ⟨hNL, hD⟩

/-! ### Runs -/

theorem ordered_step {a : Act P} (h : Ordered s) (hs : s.step a = some s') : Ordered s' := by
  cases a with
  | intr cs =>
    cases hs
    obtain ⟨h', hedits⟩ := h.ring.consoleintr cs
    refine ⟨h', fun p => ?_⟩
    rw [hedits.taken, hedits.pc]
    exact h.clean p
  | call p n =>
    rw [System.step] at hs
    split at hs
    · cases hs
    · cases hs
      exact h.ring.goto (fun q _ => h.clean q)
        ⟨Nat.zero_add _, List.nil_suffix, fun _ hb => nomatch hb⟩
  | run p =>
    rw [System.step] at hs
    split at hs
    · rename_i target n dst hpc
      split at hs
      · cases hs
      · cases hs
        exact ordered_consoleread h.ring (fun q _ => h.clean q) (hpc ▸ h.clean p)
    · cases hs
  | kill p =>
    cases hs
    exact ⟨⟨h.ring.holds, h.ring.order⟩, h.clean⟩

theorem ordered_run (h : ConsoleRun s) : Ordered s := by
  obtain ⟨killed, h⟩ := h
  refine h.invariant ?_ fun _ _ _ h _ hs => ordered_step h hs
  exact ⟨⟨⟨[], rfl, rfl, rfl, Nat.le_refl _, Window.nil ..⟩, List.prefix_rfl⟩, fun _ => trivial⟩

end

end Xv6.Console
