import Xv6.Fs.Inode
import Xv6.Support.Forest
import Xv6.Support.Result

/-!
# Fs — the block trees

The blocks of the inodes as a forest: the roots are the entries of `addrs` of every inode, and a
block's children are the words in it.  `Owned` says that the forest and the bitmap agree: a block
is at one place, and the blocks at a place are the data blocks marked used.

What `bmap` and the loop of `writei` do to a volume is a sequence of two kinds of edits (`Edits`):
an empty place is filled with the first free block, or the contents of a data block change.  Each
keeps `Owned`, as long as the bits of the blocks below the first data block are set
(`Edits.owned`).
-/

namespace Xv6.Fs

open Support (Forest Shape Bytes getWord setWord putBytes bind_ok)
open Support.Forest (Valid Inner Inj Holds Graft)

/-- The inode as the kernel sees it: the cached copy when it is valid. -/
def Volume.current (fs : Volume) (i : Nat) : Dinode :=
  if (fs.inode i).valid then (fs.inode i).toDinode else fs.dinode i

/-- An inode number and an entry of its `addrs`. -/
abbrev Root := Nat × Fin (NDIRECT + 3)

/-- Where a block number may be stored: in an entry of `addrs`, or below it in an index block. -/
abbrev Place := Root × List Nat

def shape : Shape Root := ⟨fun r => rootDepth r.2, NINDIRECT⟩

/-- The block trees of all inodes. -/
def Volume.forest (fs : Volume) : Forest Root Nat :=
  ⟨fun r => (fs.current r.1).addrs r.2, fun a x => getWord (fs.disk a) x⟩

/-- **Block ownership.**  Every block number stored is stored at one place; it is the number of a
data block marked used; and every data block marked used is stored. -/
structure Owned (sb : Superblock) (fs : Volume) : Prop where
  inj : Inj shape fs.forest
  data : ∀ q, Valid shape q → fs.forest.get q ≠ 0 →
    sb.nmeta ≤ fs.forest.get q ∧ fs.forest.get q < sb.size ∧ fs.used sb (fs.forest.get q) = true
  held : ∀ b, sb.nmeta ≤ b → b < sb.size → fs.used sb b = true → Holds shape fs.forest b

/-- The blocks below the first data block are marked used, as `mkfs` leaves them. -/
def MetaUsed (sb : Superblock) (fs : Volume) : Prop :=
  ∀ b < sb.nmeta, b < sb.size → fs.used sb b = true

section

variable {sb : Superblock} {fs fs₁ fs' : Volume} {i : Nat}

theorem current_of_valid (h : (fs.inode i).valid = true) : fs.current i = (fs.inode i).toDinode :=
  if_pos h

variable {b a bn : Nat} {q : Place}

theorem owned_of_not_used (h : Owned sb fs) (hu : fs.used sb b = false)
    (hq : Valid shape q) (hne : fs.forest.get q ≠ 0) : fs.forest.get q ≠ b := by
  rintro rfl
  rw [(h.data q hq hne).2.2] at hu
  cases hu

/-- The forest is read from the entries of `addrs` and the disk. -/
theorem forest_congr (h : ∀ j, (fs'.current j).addrs = (fs.current j).addrs)
    (hd : fs'.disk = fs.disk) : fs'.forest = fs.forest :=
  Support.Forest.ext (funext fun r => congrFun (h r.1) r.2) (by rw [Volume.forest, hd]; rfl)

/-- A change of the other fields of a cached inode. -/
theorem forest_setInode {f : Inode → Inode} (ha : (f (fs.inode i)).addrs = (fs.inode i).addrs)
    (hv : (f (fs.inode i)).valid = (fs.inode i).valid) : (fs.setInode i f).forest = fs.forest := by
  refine forest_congr (fun j => ?_) rfl
  by_cases e : j = i
  · subst e
    simp only [Volume.current, Volume.setInode, Function.update_self, hv]
    split
    · exact ha
    · rfl
  · simp [Volume.current, Volume.setInode, e]

/-- The disk inode is not read while the cached one is valid. -/
theorem forest_iupdate (hv : (fs.inode i).valid = true) : (iupdate sb fs i).forest = fs.forest := by
  refine forest_congr (fun j => ?_) rfl
  by_cases e : j = i
  · subst e; simp [Volume.current, iupdate, hv]
  · simp [Volume.current, iupdate, e]

/-- A new size, written to the disk inode. -/
theorem forest_setSize (hv : (fs.inode i).valid = true) (n : Nat) :
    (iupdate sb (fs.setInode i ({ · with size := n })) i).forest = fs.forest := by
  rw [forest_iupdate, forest_setInode rfl rfl]
  simp [Volume.setInode, hv]

theorem inode_setSize (n j : Nat) : (iupdate sb (fs.setInode i ({ · with size := n })) i).inode j =
    { fs.inode j with size := if j = i then n else (fs.inode j).size } := by
  by_cases e : j = i
  · subst e
    simp [iupdate, Volume.setInode]
  · simp [iupdate, Volume.setInode, e]

theorem inode_setAddr (r : Fin (NDIRECT + 3)) (a j : Nat) : (fs.setAddr i r a).inode j =
    { fs.inode j with addrs := ((fs.setAddr i r a).inode j).addrs } := by
  by_cases e : j = i
  · subst e
    simp [Volume.setAddr, Volume.setInode]
  · simp [Volume.setAddr, Volume.setInode, e]

/-- An entry of `addrs` is set, in a volume with the inodes of `fs`. -/
theorem root_setAddr (hi : fs₁.inode = fs.inode) (hd : fs₁.dinode = fs.dinode)
    (hv : (fs.inode i).valid = true) (r : Fin (NDIRECT + 3)) (a : Nat) :
    (fs₁.setAddr i r a).forest.root = Function.update fs.forest.root (i, r) a := by
  funext ⟨j, r'⟩
  by_cases e : j = i
  · subst e
    by_cases e' : r' = r
    · subst e'
      simp [Volume.forest, Volume.current, Volume.setAddr, Volume.setInode, hi, hv]
    · simp [Volume.forest, Volume.current, Volume.setAddr, Volume.setInode, hi, hv, e']
  · simp [Volume.forest, Volume.current, Volume.setAddr, Volume.setInode, hi, hd, e]

/-- Ownership depends on the places and the bits only. -/
theorem Owned.congr (h : Owned sb fs)
    (hget : ∀ q, Valid shape q → fs'.forest.get q = fs.forest.get q)
    (hused : ∀ c < sb.size, fs'.used sb c = fs.used sb c) : Owned sb fs' := by
  refine ⟨fun p p' hp hp' h0 heq => ?_, fun p hp h0 => ?_, fun b hb hlt hu => ?_⟩
  · rw [hget p hp] at h0 heq
    rw [hget p' hp'] at heq
    exact h.inj p p' hp hp' h0 heq
  · rw [hget p hp] at h0 ⊢
    obtain ⟨h₁, h₂, h₃⟩ := h.data p hp h0
    exact ⟨h₁, h₂, by rw [hused _ h₂, h₃]⟩
  · rw [hused b hlt] at hu
    obtain ⟨p, hp, e⟩ := h.held b hb hlt hu
    exact ⟨p, hp, by rw [hget p hp, e]⟩

/-! ### Filling a place -/

/-- The place of the index block that holds the place, if it is not an entry of `addrs`. -/
def parent : Place → List Place
  | (_, []) => []
  | (r, _ :: p) => [(r, p)]

/-- The place `q`, empty before, holds the block `b`, the first that was free. -/
structure Filled (sb : Superblock) (fs fs' : Volume) (q : Place) (b : Nat) : Prop where
  graft : Graft shape fs.forest fs'.forest q b
  le : sb.nmeta ≤ b
  lt : b < sb.size
  first : ∀ c < b, fs.used sb c = true
  clear : fs.used sb b = false
  used : ∀ c < sb.size, fs'.used sb c = (decide (c = b) || fs.used sb c)
  inode : ∀ j, fs'.inode j = { fs.inode j with addrs := (fs'.inode j).addrs }
  dinode : fs'.dinode = fs.dinode
  logged : fs'.logged = (parent q).map fs.forest.get ++ b :: sb.bblock b :: fs.logged

/-- The block `balloc` takes is a data block. -/
theorem Balloc.le (h : Balloc sb fs fs' b) (hm : MetaUsed sb fs) : sb.nmeta ≤ b := by
  by_contra hlt
  have := hm b (Nat.lt_of_not_le hlt) h.lt
  rw [h.clear] at this
  cases this

/-- `balloc` leaves the blocks in place as they were. -/
theorem Balloc.data (h : Balloc sb fs fs' b) (ho : Owned sb fs) (hq : Valid shape q)
    (hne : fs.forest.get q ≠ 0) : fs'.disk (fs.forest.get q) = fs.disk (fs.forest.get q) :=
  h.disk (ho.data q hq hne).1 (owned_of_not_used ho h.clear hq hne)

theorem Balloc.child (h : Balloc sb fs fs' b) (ho : Owned sb fs)
    (hq : Inner shape q) (hne : fs.forest.get q ≠ 0) (x : Nat) :
    fs'.forest.child (fs.forest.get q) x = fs.forest.child (fs.forest.get q) x :=
  congrArg (getWord · x) (h.data ho hq.valid hne)

/-- Blocks in place stay there, and the data blocks among them hold what they held. -/
def Stays (fs fs' : Volume) : Prop := ∀ p, Valid shape p → fs.forest.get p ≠ 0 →
  fs'.forest.get p = fs.forest.get p ∧
    (¬ Inner shape p → fs'.disk (fs.forest.get p) = fs.disk (fs.forest.get p))

theorem Stays.refl (fs : Volume) : Stays fs fs := fun _ _ _ => ⟨rfl, fun _ => rfl⟩

theorem Stays.trans (h : Stays fs fs₁) (h' : Stays fs₁ fs') : Stays fs fs' := by
  intro p hp hne
  obtain ⟨hget, hdata⟩ := h p hp hne
  obtain ⟨hget', hdata'⟩ := h' p hp (hget ▸ hne)
  rw [hget] at hget' hdata'
  exact ⟨hget', fun hl => (hdata' hl).trans (hdata hl)⟩

theorem Filled.ne_zero (h : Filled sb fs fs' q b) : b ≠ 0 :=
  (Nat.lt_of_lt_of_le (nmeta_pos sb) h.le).ne'

theorem Filled.get_self (h : Filled sb fs fs' q b) : fs'.forest.get q = b := by
  rw [h.graft.get q h.graft.valid, if_pos rfl]

theorem Filled.get (h : Filled sb fs fs' q b) {p : Place} (hp : Valid shape p)
    (hne : fs.forest.get p ≠ 0) : fs'.forest.get p = fs.forest.get p := by
  rw [h.graft.get p hp, if_neg]
  rintro rfl
  exact hne h.graft.empty

/-! ### Edits -/

/-- The volume `fs'` has come from `fs` by filling the places `N` and writing the data blocks at
the places `D`, the latest first. -/
inductive Edits (sb : Superblock) (fs : Volume) : Volume → List Place → List Place → Prop where
  | refl : Edits sb fs fs [] []
  | fill {fs₁ fs₂ : Volume} {N D : List Place} {q : Place} {b : Nat} (e : Edits sb fs fs₁ N D)
      (h : Filled sb fs₁ fs₂ q b) : Edits sb fs fs₂ (q :: N) D
  | data {fs₁ : Volume} {N D : List Place} {q : Place} (e : Edits sb fs fs₁ N D)
      (hv : Valid shape q) (hl : ¬ Inner shape q) (hne : fs₁.forest.get q ≠ 0) (v : Bytes) :
      Edits sb fs (fs₁.write (fs₁.forest.get q) v) N (q :: D)

theorem Filled.owned (h : Filled sb fs fs' q b) (ho : Owned sb fs) : Owned sb fs' := by
  have hnot : ¬ Holds shape fs.forest b := by
    rintro ⟨p, hp, hget⟩
    exact owned_of_not_used ho h.clear hp (hget ▸ h.ne_zero) hget
  refine ⟨h.graft.inj ho.inj hnot, fun p hp hne => ?_, fun c hle hlt hu => ?_⟩
  · rw [h.graft.get p hp] at hne ⊢
    split at hne
    · rename_i e
      rw [if_pos e, h.used b h.lt]
      exact ⟨h.le, h.lt, by simp⟩
    · rename_i e
      obtain ⟨h₁, h₂, h₃⟩ := ho.data p hp hne
      rw [if_neg e, h.used _ h₂, h₃]
      exact ⟨h₁, h₂, by simp⟩
  · have hc0 : c ≠ 0 := (Nat.lt_of_lt_of_le (nmeta_pos sb) hle).ne'
    rw [h.used c hlt, Bool.or_eq_true, decide_eq_true_eq] at hu
    exact (h.graft.holds hc0).mpr (hu.imp_right (ho.held c hle hlt))

theorem Filled.metaUsed (h : Filled sb fs fs' q b) (hm : MetaUsed sb fs) : MetaUsed sb fs' := by
  intro c hc hlt
  rw [h.used c hlt, hm c hc hlt, Bool.or_true]

/-- The block `a` of a path is in its place, found or taken; nothing else has moved. -/
structure Entered (sb : Superblock) (fs fs' : Volume) (q : Place) (a : Nat) : Prop where
  get : fs'.forest.get q = a
  ne : a ≠ 0
  stays : Stays fs fs'
  owned : Owned sb fs'
  metaUsed : MetaUsed sb fs'
  edits : ∃ N, Edits sb fs fs' N [] ∧ ∀ p ∈ N, p = q

theorem Filled.entered (h : Filled sb fs fs' q a) (ho : Owned sb fs) (hm : MetaUsed sb fs)
    (hdata : ∀ p, Valid shape p → ¬ Inner shape p → fs.forest.get p ≠ 0 →
      fs'.disk (fs.forest.get p) = fs.disk (fs.forest.get p)) : Entered sb fs fs' q a where
  get := h.get_self
  ne := h.ne_zero
  stays := fun p hp hne => ⟨h.get hp hne, fun hl => hdata p hp hl hne⟩
  owned := h.owned ho
  metaUsed := h.metaUsed hm
  edits := ⟨[q], .fill .refl h, fun _ hp => List.mem_singleton.mp hp⟩

theorem Entered.found (hq : fs.forest.get q = a) (ha : a ≠ 0) (ho : Owned sb fs)
    (hm : MetaUsed sb fs) : Entered sb fs fs q a :=
  ⟨hq, ha, .refl fs, ho, hm, [], .refl, fun _ hp => nomatch hp⟩

theorem rootEntry_spec (ho : Owned sb fs) (hm : MetaUsed sb fs) (hv : (fs.inode i).valid = true)
    {r : Fin (NDIRECT + 3)} (h : rootEntry sb fs i r = .ok (a, fs')) :
    Entered sb fs fs' ((i, r), []) a := by
  have hroot : fs.forest.get ((i, r), []) = (fs.inode i).addrs r :=
    congrArg (·.addrs r) (current_of_valid hv)
  rw [rootEntry] at h
  split at h
  · rename_i h0
    obtain ⟨⟨b, fs₁⟩, hb, h⟩ := bind_ok.mp h
    cases h
    have hb := balloc_ok hb
    have hle := hb.le hm
    have hg : Graft shape fs.forest (fs₁.setAddr i r a).forest ((i, r), []) a := by
      refine Support.Forest.graft_root (hroot.trans h0) (root_setAddr hb.inode hb.dinode hv r a)
        (fun q hq hne x _ => hb.child ho hq hne x) fun x _ => ?_
      change getWord (fs₁.disk a) x = 0
      rw [hb.zeroed, Support.getWord_zero]
    exact Filled.entered ⟨hg, hle, hb.lt, hb.first, hb.clear, fun c hc => hb.used hle hc,
      fun j => hb.inode ▸ inode_setAddr r a j, hb.dinode, hb.logged⟩ ho hm
        fun _ hp _ hne => hb.data ho hp hne
  · rename_i h0
    cases h
    exact .found hroot h0 ho hm

theorem indexEntry_spec (ho : Owned sb fs) (hm : MetaUsed sb fs) {r : Root} {p : List Nat}
    (hi : Inner shape (r, p)) (hne : fs.forest.get (r, p) ≠ 0) {x : Nat}
    (h : indexEntry sb fs (fs.forest.get (r, p)) x = .ok (a, fs')) :
    x < NINDIRECT ∧ Entered sb fs fs' (r, x :: p) a := by
  rw [indexEntry] at h
  split at h
  · cases h
  rename_i hx
  have hx : x < NINDIRECT := Nat.lt_of_not_le hx
  refine ⟨hx, ?_⟩
  split at h
  · rename_i h0
    obtain ⟨⟨b, fs₁⟩, hb, h⟩ := bind_ok.mp h
    cases h
    have hb := balloc_ok hb
    have hle := hb.le hm
    have hab : fs.forest.get (r, p) ≠ a := owned_of_not_used ho hb.clear hi.valid hne
    have hdisk := hb.disk (ho.data _ hi.valid hne).1 hab
    have hg : Graft shape fs.forest
        (fs₁.write (fs.forest.get (r, p)) (setWord (fs₁.disk (fs.forest.get (r, p))) x a)).forest (r, x :: p) a := by
      refine Support.Forest.graft_child ho.inj hi hx hne h0 ?_ ?_ (fun q hq hq0 y hy hny => ?_)
        fun y _ => ?_
      · funext ⟨j, r'⟩
        simp [Volume.forest, Volume.current, hb.inode, hb.dinode]
      · change getWord ((fs₁.write _ _).disk (fs.forest.get (r, p))) x = a
        rw [write_disk_self, Support.getWord_setWord_self _ _ (Nat.lt_trans hb.lt sb.size_lt)]
      · change getWord ((fs₁.write _ _).disk (fs.forest.get q)) y = getWord (fs.disk (fs.forest.get q)) y
        by_cases e : fs.forest.get q = fs.forest.get (r, p)
        · have hyx : y ≠ x := fun hy => hny ⟨e, hy⟩
          rw [e, write_disk_self, Support.getWord_setWord_of_ne _ _ hyx, hdisk]
        · rw [write_disk_of_ne _ e]
          exact hb.child ho hq hq0 y
      · change getWord ((fs₁.write _ _).disk a) y = 0
        rw [write_disk_of_ne _ hab.symm, hb.zeroed, Support.getWord_zero]
    refine Filled.entered ⟨hg, hle, hb.lt, hb.first, hb.clear, fun c hc => ?_, fun j => ?_, hb.dinode,
      ?_⟩ ho hm fun q hq hl hq0 => ?_
    · rw [used_write _ (ho.data _ hi.valid hne).1 hc, hb.used hle hc]
    · simp [hb.inode]
    · rw [write_logged, hb.logged]
      rfl
    · -- the index block that is written is not a data block
      have hother : fs.forest.get q ≠ fs.forest.get (r, p) := fun e =>
        hl (ho.inj q (r, p) hq hi.valid hq0 e ▸ hi)
      rw [write_disk_of_ne _ hother]
      exact hb.data ho hq hq0
  · rename_i h0
    cases h
    exact .found (by rw [Forest.get_cons, if_neg hne]; rfl) h0 ho hm

/-- The contents of a data block are read by no place. -/
theorem get_write_data (ho : Owned sb fs) (hv : Valid shape q) (hl : ¬ Inner shape q)
    (v : Bytes) {p : Place} (hp : Valid shape p) :
    (fs.write (fs.forest.get q) v).forest.get p = fs.forest.get p := by
  refine Support.Forest.get_congr (F := fs.forest) (G := (fs.write (fs.forest.get q) v).forest) rfl
    (fun p' hp' hne' x _ => ?_) hp
  have hother : fs.forest.get p' ≠ fs.forest.get q := by
    intro e
    rw [ho.inj p' q hp'.valid hv hne' e] at hp'
    exact hl hp'
  change getWord ((fs.write _ v).disk (fs.forest.get p')) x = getWord (fs.disk (fs.forest.get p')) x
  rw [write_disk_of_ne v hother]

theorem owned_write_data (ho : Owned sb fs) (hv : Valid shape q)
    (hl : ¬ Inner shape q) (hne : fs.forest.get q ≠ 0) (v : Bytes) :
    Owned sb (fs.write (fs.forest.get q) v) :=
  ho.congr (fun _ hp => get_write_data ho hv hl v hp) fun _ hc => used_write v (ho.data q hv hne).1 hc

namespace Edits

variable {N D : List Place}

section

variable (e : Edits sb fs fs' N D)
include e

/-- **Edits keep ownership.**  One case for a place filled, one for a data block written. -/
theorem owned (ho : Owned sb fs) (hm : MetaUsed sb fs) : Owned sb fs' ∧ MetaUsed sb fs' := by
  induction e with
  | refl => exact ⟨ho, hm⟩
  | fill _ h ih => exact ⟨h.owned ih.1, h.metaUsed ih.2⟩
  | data _ hv hl hne v ih =>
    refine ⟨owned_write_data ih.1 hv hl hne v, fun c hc hlt => ?_⟩
    rw [used_write v (ih.1.data _ hv hne).1 hlt]
    exact ih.2 c hc hlt

/-- Edits change the block lists of the cached inodes, and nothing else of any inode. -/
theorem inode :
    fs'.dinode = fs.dinode ∧ ∀ j, fs'.inode j = { fs.inode j with addrs := (fs'.inode j).addrs } := by
  induction e with
  | refl => exact ⟨rfl, fun _ => rfl⟩
  | fill _ h ih =>
    refine ⟨h.dinode.trans ih.1, fun j => ?_⟩
    rw [h.inode j, ih.2 j]
  | data _ _ _ _ _ ih => exact ih

theorem valid (j : Nat) : (fs'.inode j).valid = (fs.inode j).valid := by
  rw [e.inode.2 j]

theorem trans {fs₂ : Volume} {N' D' : List Place}
    (e' : Edits sb fs' fs₂ N' D') : Edits sb fs fs₂ (N' ++ N) (D' ++ D) := by
  induction e' with
  | refl => exact e
  | fill _ h ih => exact .fill ih h
  | data _ hv hl hne v ih => exact .data ih hv hl hne v

end

end Edits

/-! ### `bmap` and the loop of `writei` -/

/-- The walk down from a place fills places below it, and ends at the block there. -/
theorem walk_spec {xs : List Nat} {r : Root} {p : List Nat} (ho : Owned sb fs)
    (hm : MetaUsed sb fs) (hp : Valid shape (r, p)) (hd : p.length + xs.length = rootDepth r.2)
    (hne : fs.forest.get (r, p) ≠ 0) (h : walk sb xs (fs.forest.get (r, p)) fs = .ok (a, fs')) :
    Valid shape (r, xs.reverse ++ p) ∧ fs'.forest.get (r, xs.reverse ++ p) = a ∧ a ≠ 0 ∧
      Stays fs fs' ∧ ∃ N, Edits sb fs fs' N [] ∧
        ∀ q ∈ N, q.1 = r ∧ p.length < q.2.length ∧ q.2 <:+ xs.reverse ++ p := by
  induction xs generalizing fs p with
  | nil =>
    cases h
    exact ⟨hp, rfl, hne, .refl _, [], .refl, fun _ hq => nomatch hq⟩
  | cons x xs ih =>
    rw [walk] at h
    obtain ⟨⟨b, fs₁⟩, hb, h⟩ := bind_ok.mp h
    have hi : Inner shape (r, p) := by
      refine ⟨?_, hp.2⟩
      change p.length < rootDepth r.2
      rw [← hd, List.length_cons]
      omega
    obtain ⟨hx, rfl, hb0, hs₁, ho₁, hm₁, N₁, e₁, hN₁⟩ := indexEntry_spec ho hm hi hne hb
    have hd' : (x :: p).length + xs.length = rootDepth r.2 := by
      rw [← hd, List.length_cons, List.length_cons]
      omega
    have hv' : Valid shape (r, x :: p) := Support.Forest.valid_cons.mpr ⟨hi, hx⟩
    obtain ⟨hval, hget, ha0, hs₂, N₂, e₂, hN₂⟩ := ih ho₁ hm₁ hv' hd' hb0 h
    have hrev : (x :: xs).reverse ++ p = xs.reverse ++ x :: p := by simp
    rw [hrev]
    refine ⟨hval, hget, ha0, hs₁.trans hs₂, N₂ ++ N₁, e₁.trans e₂, fun q hq => ?_⟩
    rcases List.mem_append.mp hq with hq | hq
    · obtain ⟨h₁, h₂, h₃⟩ := hN₂ q hq
      rw [List.length_cons] at h₂
      exact ⟨h₁, by omega, h₃⟩
    · rw [hN₁ q hq]
      exact ⟨rfl, Nat.lt_succ_self _, List.suffix_append _ _⟩

/-- The path of a file block has the length of its region. -/
theorem bmapPath_length {r : Fin (NDIRECT + 3)} {xs : List Nat}
    (h : bmapPath bn = some (r, xs)) : xs.length = rootDepth r := by
  rw [bmapPath] at h
  split at h
  · cases h
    simp only [rootDepth, List.length_nil]
    omega
  dsimp only at h
  split at h
  · cases h; rfl
  split at h
  · cases h; rfl
  · split at h
    · cases h; rfl
    · cases h

/-- Every file block has a path. -/
theorem bmapPath_some (h : bn < MAXFILE) : ∃ r xs, bmapPath bn = some (r, xs) := by
  rw [bmapPath]
  split
  · exact ⟨_, _, rfl⟩
  dsimp only
  split
  · exact ⟨_, _, rfl⟩
  · split
    · exact ⟨_, _, rfl⟩
    · rw [if_pos (by simp only [MAXFILE, NDIRECT, NINDIRECT, BSIZE] at *; omega)]
      exact ⟨_, _, rfl⟩

/-- The place of file block `bn` of inode `i`. -/
def placeOf (i bn : Nat) : Option Place := (bmapPath bn).map fun (r, xs) => ((i, r), xs.reverse)

/-- **`bmap`** returns the block at the place of the file block, and fills places on the path to
it only. -/
theorem bmap_spec (ho : Owned sb fs) (hm : MetaUsed sb fs) (hv : (fs.inode i).valid = true)
    (h : bmap sb fs i bn = .ok (a, fs')) :
    ∃ q, placeOf i bn = some q ∧ Valid shape q ∧ ¬ Inner shape q ∧ fs'.forest.get q = a ∧ a ≠ 0 ∧
      Stays fs fs' ∧ ∃ N, Edits sb fs fs' N [] ∧ ∀ p ∈ N, p.1 = q.1 ∧ p.2 <:+ q.2 := by
  rw [bmap] at h
  split at h
  · cases h
  rename_i r xs hpath
  obtain ⟨⟨b, fs₁⟩, hb, h⟩ := bind_ok.mp h
  obtain ⟨rfl, hb0, hs₁, ho₁, hm₁, N₁, e₁, hN₁⟩ := rootEntry_spec ho hm hv hb
  have hlen := bmapPath_length hpath
  have hd : ([] : List Nat).length + xs.length = rootDepth r := by simpa using hlen
  obtain ⟨hval, hget, ha0, hs₂, N₂, e₂, hN₂⟩ :=
    walk_spec (r := (i, r)) ho₁ hm₁ (Support.Forest.valid_nil shape _) hd hb0 h
  rw [List.append_nil] at hval hget hN₂
  refine ⟨((i, r), xs.reverse), by rw [placeOf, hpath]; rfl, hval, ?_, hget, ha0, hs₁.trans hs₂,
    N₂ ++ N₁, e₁.trans e₂, fun p hp => ?_⟩
  · rintro ⟨hlt, -⟩
    change xs.reverse.length < rootDepth r at hlt
    rw [List.length_reverse, hlen] at hlt
    exact Nat.lt_irrefl _ hlt
  · rcases List.mem_append.mp hp with hp | hp
    · exact ⟨(hN₂ p hp).1, (hN₂ p hp).2.2⟩
    · rw [hN₁ p hp]
      exact ⟨rfl, List.nil_suffix⟩

/-- Every byte of a round of the loop of `writei` lies in its first block. -/
theorem div_of_round {off m o : Nat} (hm : m ≤ BSIZE - off % BSIZE) (h₁ : off ≤ o)
    (h₂ : o < off + m) : o / BSIZE = off / BSIZE := by
  simp only [BSIZE] at *
  omega

/-- The loop of `writei`, a round at a time: a round writes `x`, in one block. -/
theorem writeLoop_induction {P : Volume → Nat → List UInt8 → Prop} (nil : ∀ off, P fs' off [])
    (round : ∀ fs fs₁ off a x y, Owned sb fs → MetaUsed sb fs → (fs.inode i).valid = true →
      bmap sb fs i (off / BSIZE) = .ok (a, fs₁) → 0 < x.length → x.length ≤ BSIZE - off % BSIZE →
      P (fs₁.write a (putBytes (fs₁.disk a) (off % BSIZE) x)) (off + x.length) y → P fs off (x ++ y))
    {fuel off : Nat} {src : List UInt8} (ho : Owned sb fs) (hm : MetaUsed sb fs)
    (hv : (fs.inode i).valid = true) (hfuel : src.length ≤ fuel)
    (h : writeLoop sb i fuel off src fs = .ok fs') : P fs off src := by
  induction fuel generalizing fs off src with
  | zero =>
    cases h
    rw [List.eq_nil_of_length_eq_zero (Nat.le_zero.mp hfuel)]
    exact nil off
  | succ fuel ih =>
    rw [writeLoop] at h
    split at h
    · rename_i h0
      cases h
      rw [List.eq_nil_of_length_eq_zero h0]
      exact nil off
    rename_i h0
    obtain ⟨⟨a, fs₁⟩, hb, h⟩ := bind_ok.mp h
    dsimp only at h
    have hmod := Nat.mod_lt off (show 0 < BSIZE by decide)
    generalize hmin : min src.length (BSIZE - off % BSIZE) = m at h
    have hlen : (src.take m).length = m := by rw [List.length_take]; omega
    have hrest : (src.drop m).length ≤ fuel := by rw [List.length_drop]; omega
    obtain ⟨q, -, hval, hleaf, rfl, ha0, -, N, e, -⟩ := bmap_spec ho hm hv hb
    have e₂ := Edits.data e hval hleaf ha0
      (putBytes (fs₁.disk (fs₁.forest.get q)) (off % BSIZE) (src.take m))
    obtain ⟨ho₂, hm₂⟩ := e₂.owned ho hm
    rw [← List.take_append_drop m src]
    refine round _ _ _ _ _ _ ho hm hv hb (by omega) (by omega) ?_
    rw [hlen]
    exact ih ho₂ hm₂ (by rw [e₂.valid, hv]) hrest h

/-- The places of the bytes `off, …, off + n - 1` of a file are `D`, and those of `N` lie on the
paths to them. -/
structure Spans (i off n : Nat) (N D : List Place) : Prop where
  above : ∀ p ∈ N, ∃ q ∈ D, p.1 = q.1 ∧ p.2 <:+ q.2
  data : ∀ q, q ∈ D ↔ ∃ o, off ≤ o ∧ o < off + n ∧ placeOf i (o / BSIZE) = some q

/-- **The loop of `writei`** writes the data blocks of the bytes it is given, and fills places on
the paths to them only. -/
theorem writeLoop_spec {fuel off : Nat} {src : List UInt8} (ho : Owned sb fs) (hm : MetaUsed sb fs)
    (hv : (fs.inode i).valid = true) (hfuel : src.length ≤ fuel)
    (h : writeLoop sb i fuel off src fs = .ok fs') :
    ∃ N D, Edits sb fs fs' N D ∧ Spans i off src.length N D := by
  refine writeLoop_induction
    (P := fun fs off src => ∃ N D, Edits sb fs fs' N D ∧ Spans i off src.length N D)
    (fun off => ⟨[], [], .refl, List.forall_mem_nil _, fun q => ?_⟩) ?_ ho hm hv hfuel h
  · constructor
    · intro hq; cases hq
    · rintro ⟨o, h₁, h₂, -⟩
      exact absurd h₁ (Nat.not_le_of_lt h₂)
  rintro fs fs₁ off a x y ho hm hv hb h0 hx ⟨N, D, e, hN, hD⟩
  obtain ⟨q₀, hq₀, hval, hleaf, rfl, ha0, -, N₁, e₁, hN₁⟩ := bmap_spec ho hm hv hb
  refine ⟨N ++ N₁, D ++ [q₀], (e₁.data hval hleaf ha0 _).trans e, fun p hp => ?_, fun q => ?_⟩
  · rcases List.mem_append.mp hp with hp | hp
    · obtain ⟨q, hq, hpq⟩ := hN p hp
      exact ⟨q, List.mem_append_left _ hq, hpq⟩
    · exact ⟨q₀, List.mem_append_right _ (List.mem_singleton.mpr rfl), hN₁ p hp⟩
  · rw [List.mem_append, List.mem_singleton, hD, List.length_append]
    constructor
    · rintro (⟨o, h₁, h₂, ho⟩ | rfl)
      · exact ⟨o, by omega, by omega, ho⟩
      · exact ⟨off, Nat.le_refl _, by omega, hq₀⟩
    rintro ⟨o, h₁, h₂, ho⟩
    by_cases hlt : o < off + x.length
    · rw [div_of_round hx h₁ hlt, hq₀] at ho
      exact .inr (Option.some.inj ho).symm
    · exact .inl ⟨o, by omega, by omega, ho⟩

end

end Xv6.Fs
