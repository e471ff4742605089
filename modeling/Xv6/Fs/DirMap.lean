import Xv6.Fs.Dir

/-!
# Fs — a directory over any sequence of operations

From a directory in which no two entries have the same name, any sequence of `dirlink` and of the
entry-clearing write of `sys_unlink` keeps it a map (`dir_is_map`), as long as it stays below the
triple region.  There it does not: all blocks of the triple region up to file block 32905 have one
place in the block map, so a new entry in the second of them overwrites one in the first
(`entry_overwritten`).  The directory of that counterexample is one of a family, with any number of
entries that the region holds (`fullDir`).
-/

namespace Xv6.Fs

open Support (bind_ok Run ofWords getBit Bytes)
open Support.Forest (Valid Inner)

/-! ### Runs -/

/-- The operations on a directory: `dirlink`, and the clearing of the entry of a name. -/
inductive DirOp where
  | link (name : List UInt8) (inum : Nat)
  | clear (name : List UInt8)

/-- The lookup and the entry-clearing write of `sys_unlink`. -/
def clearName (sb : Superblock) (fs : Volume) (dp : Nat) (name : List UInt8) :
    Except Stop Volume := do
  let (found, fs) ← dirlookup sb fs dp name
  match found with
  | none => .ok fs
  | some (_, off) => clearEntry sb fs dp off

def dirStep (sb : Superblock) (dp : Nat) (fs : Volume) : DirOp → Option Volume
  | .link name inum =>
    if 0 < inum ∧ inum < 2 ^ 16 then (dirlink sb fs dp name inum).toOption.map Prod.snd else none
  | .clear name => (clearName sb fs dp name).toOption

/-- The directory is below the triple region, and stays there. -/
def Below (dp : Nat) (fs : Volume) : DirOp → Prop
  | .link _ _ => (fs.current dp).size < DOUBLE * BSIZE
  | .clear _ => (fs.current dp).size ≤ DOUBLE * BSIZE

/-- `fs'` is reached from `fs` by operations that all return, below the triple region. -/
def DirRun (sb : Superblock) (dp : Nat) : Volume → Volume → Prop :=
  Run (fun fs op fs' => dirStep sb dp fs op = some fs') (Below dp)

section

variable {sb : Superblock} {fs fs' : Volume} {dp : Nat}

theorem dirStep_ok {op : DirOp} (h : DirOk sb fs dp) (hd : NamesDistinct fs dp)
    (hb : Below dp fs op) (hs : dirStep sb dp fs op = some fs') :
    DirOk sb fs' dp ∧ NamesDistinct fs' dp := by
  cases op with
  | link name inum =>
    rw [dirStep] at hs
    split at hs
    · rename_i hi
      obtain ⟨⟨r, fs₁⟩, hr, rfl⟩ := Option.map_eq_some_iff.mp hs
      have hr := Support.toOption_eq_some.mp hr
      obtain ⟨r', fs₂, hr', h', hd', -⟩ := h.dirlink hd hi.1 hi.2 hb (h.room_of_dirlink hb hr)
      rw [hr] at hr'
      cases hr'
      exact ⟨h', hd'⟩
    · cases hs
  | clear name =>
    obtain ⟨⟨found, fs₁⟩, hl, hc⟩ := bind_ok.mp (Support.toOption_eq_some.mp hs)
    cases found with
    | none =>
      cases hc
      rw [h.dirlookup] at hl
      cases hslot : fs.slotOf dp name with
      | none =>
        rw [hslot] at hl
        cases hl
        exact ⟨h, hd⟩
      | some k =>
        rw [hslot] at hl
        cases hl
    | some p =>
      obtain ⟨fs₂, hc', h', hd', -⟩ := h.clearEntry hd hb hl
      dsimp only at hc
      rw [hc] at hc'
      cases hc'
      exact ⟨h', hd'⟩

/-- **A directory is a finite map.**  In every state reached below the triple region, from a
directory in which no two entries in use have the same name, no two have; `dirlink` refuses a name
that is there, and otherwise makes it found; the entry-clearing write makes a name not found; every
other name is found as before; and the directory grows only when no entry was free. -/
theorem dir_is_map {fs₀ : Volume} (h₀ : DirOk sb fs₀ dp) (hd₀ : NamesDistinct fs₀ dp)
    (r : DirRun sb dp fs₀ fs) :
    NamesDistinct fs dp ∧
    (∀ name inum, 0 < inum → inum < 2 ^ 16 → (fs.current dp).size < DOUBLE * BSIZE →
      (fs.missing dp (fs.current dp).size DIRENT).card ≤ (fs.freeBlocks sb).length →
      ∃ ret fs', dirlink sb fs dp name inum = .ok (ret, fs') ∧
        (ret = -1 ↔ finds sb fs dp name ≠ some none) ∧
        (ret ≠ -1 → ret = 0 ∧ finds sb fs' dp name = some (some inum)) ∧
        (∀ other, ret = -1 ∨ ¬ sameName other name → finds sb fs' dp other = finds sb fs dp other) ∧
        ((fs'.current dp).size ≠ (fs.current dp).size →
          ∀ k < fs.slots dp, direntInum (fs.slot dp k) ≠ 0)) ∧
    ∀ name ip off fs₁, dirlookup sb fs dp name = .ok (some (ip, off), fs₁) →
      (fs.current dp).size ≤ DOUBLE * BSIZE →
      ∃ fs', clearEntry sb fs₁ dp off = .ok fs' ∧ finds sb fs' dp name = some none ∧
        (∀ other, ¬ sameName other name → finds sb fs' dp other = finds sb fs dp other) ∧
        (fs'.current dp).size = (fs.current dp).size := by
  have h : DirOk sb fs dp ∧ NamesDistinct fs dp := by
    refine Run.invariant (I := fun fs => DirOk sb fs dp ∧ NamesDistinct fs dp) ⟨h₀, hd₀⟩ ?_ r
    exact fun fs op fs' h hb hs => dirStep_ok h.1 h.2 hb hs
  refine ⟨h.2, fun name inum h0 hi hsize hroom => ?_, fun name ip off fs₁ hl hsize => ?_⟩
  · obtain ⟨ret, fs', hr, -, -, hrest⟩ := h.1.dirlink h.2 h0 hi hsize fun _ _ => hroom
    exact ⟨ret, fs', hr, hrest⟩
  · obtain ⟨fs', hr, -, -, hrest⟩ := h.1.clearEntry h.2 hsize hl
    exact ⟨fs', hr, hrest⟩

end

/-! ### A directory of any length

The blocks of inode 1 are laid out in order: 68–77 the direct ones, 78 the index block of the next
128, 207 and 208–335 the index blocks of the double region, and 16720–16722 those of the first block
of the triple region. -/

/-- The name of entry `k`: three bytes, none of them 0. -/
def entryName (k : Nat) : List UInt8 :=
  [UInt8.ofNat (k % 128 + 1), UInt8.ofNat (k / 128 % 128 + 1), UInt8.ofNat (k / 16384 + 1)]

/-- The block of file block `bn`. -/
def dataBlock (bn : Nat) : Nat :=
  if bn < 10 then 68 + bn else if bn < 138 then 69 + bn else if bn < 16522 then 198 + bn else 16723

/-- The file block that a data block holds. -/
def fileBlock (b : Nat) : Nat :=
  if b < 78 then b - 68 else if b < 207 then b - 69 else if b < 16720 then b - 198 else 16522

/-- The bits of the blocks below 16724 are set. -/
def fullBits (j : Nat) : UInt8 := if j < 2090 then 0xFF else if j = 2090 then 0x0F else 0

def fullDisk (b : Nat) : Bytes :=
  if 58 ≤ b ∧ b < 68 then fun j => fullBits ((b - 58) * 512 + j)
  else if b = 78 then ofWords fun x => 79 + x
  else if b = 207 then ofWords fun x => 208 + x
  else if 208 ≤ b ∧ b < 336 then ofWords fun y => 336 + 128 * (b - 208) + y
  else if 16720 ≤ b ∧ b < 16723 then ofWords fun x => if x = 0 then b + 1 else 0
  else fun o => (direntOf (entryName (32 * fileBlock b + o / 16)) 1).getD (o % 16) 0

/-- The block in entry `r` of `addrs`. -/
def fullAddrs (r : Fin (NDIRECT + 3)) : Nat :=
  if r.val < 10 then 68 + r.val else if r.val = 10 then 78 else if r.val = 11 then 207 else 16720

/-- A directory of `m` entries. -/
def fullDinode (m : Nat) : Dinode := ⟨.dir, 0, 0, 1, DIRENT * m, fullAddrs⟩

/-- **Inode 1 is a directory of `m` entries**, locked; there is no other inode. -/
def fullDir (m : Nat) : Volume where
  disk := fullDisk
  dinode := fun i => if i = 1 then fullDinode m else ⟨.free, 0, 0, 0, 0, fun _ => 0⟩
  inode := fun i => if i = 1 then ⟨fullDinode m, 1, true⟩ else ⟨⟨.free, 0, 0, 0, 0, fun _ => 0⟩, 0, false⟩
  logged := []

theorem current_fullDir (m i : Nat) : (fullDir m).current i =
    if i = 1 then fullDinode m else ⟨.free, 0, 0, 0, 0, fun _ => 0⟩ := by
  by_cases h : i = 1
  · simp [Volume.current, fullDir, h]
  · simp [Volume.current, fullDir, h]

theorem used_fullDir {m b : Nat} (h : b < FSSIZE) :
    (fullDir m).used mkfsSb b = decide (b < 16724) := by
  have hblock : 58 ≤ mkfsSb.bblock b ∧ mkfsSb.bblock b < 68 := by
    simp only [Superblock.bblock, mkfsSb, BPB, BSIZE, FSSIZE, LOGSIZE, MAXOPBLOCKS, IPB] at *
    omega
  have hidx : (mkfsSb.bblock b - 58) * 512 + b % BPB / 8 = b / 8 := by
    simp only [Superblock.bblock, mkfsSb, BPB, BSIZE, LOGSIZE, MAXOPBLOCKS, IPB] at *
    omega
  have hbit : b % BPB % 8 = b % 8 := by
    simp only [BPB, BSIZE]
    omega
  have hff : ∀ r < 8, ((0xFF : UInt8) &&& 1 <<< UInt8.ofNat r != 0) = true := by decide
  have h0f : ∀ r < 8, ((0x0F : UInt8) &&& 1 <<< UInt8.ofNat r != 0) = decide (r < 4) := by decide
  have hlt : b % 8 < 8 := Nat.mod_lt _ (by decide)
  rw [Volume.used]
  change getBit (fullDisk (mkfsSb.bblock b)) (b % BPB) = _
  rw [fullDisk, if_pos hblock, getBit, hidx, Support.bitMask, hbit, fullBits]
  split
  · rw [hff _ hlt, eq_comm, decide_eq_true_iff]
    omega
  split
  · rw [h0f _ hlt]
    refine decide_eq_decide.mpr ?_
    omega
  · rw [eq_comm, UInt8.zero_and]
    refine (decide_eq_false ?_).trans rfl
    omega

/-- The entries of an index block. -/
theorem child_fullDir {m b x : Nat} {f : Nat → Nat} (hb : fullDisk b = ofWords f)
    (hf : f x < 2 ^ 32) : (fullDir m).forest.child b x = f x := by
  change Support.getWord (fullDisk b) x = _
  rw [hb, Support.getWord_ofWords _ hf]

/-- The place of a block. -/
def fullPlace (b : Nat) : Place :=
  if b < 78 then ((1, Fin.ofNat _ (b - 68)), [])
  else if b = 78 then ((1, 10), [])
  else if b < 207 then ((1, 10), [b - 79])
  else if b = 207 then ((1, 11), [])
  else if b < 336 then ((1, 11), [b - 208])
  else if b < 16720 then ((1, 11), [(b - 336) % 128, (b - 336) / 128])
  else ((1, 12), List.replicate (b - 16720) 0)

section

variable (m : Nat)

theorem root_fullDir (r : Fin (NDIRECT + 3)) :
    (fullDir m).forest.get ((1, r), []) = fullAddrs r := by
  change ((fullDir m).current 1).addrs r = _
  rw [current_fullDir]
  rfl

variable {x bn k : Nat}

theorem get_single (hx : x < NINDIRECT) : (fullDir m).forest.get ((1, 10), [x]) = 79 + x := by
  simp only [NINDIRECT, BSIZE] at hx
  have hb : fullDisk 78 = ofWords fun x => 79 + x := rfl
  rw [Support.Forest.get_cons, root_fullDir]
  exact child_fullDir hb (by omega)

theorem get_index (hx : x < NINDIRECT) : (fullDir m).forest.get ((1, 11), [x]) = 208 + x := by
  simp only [NINDIRECT, BSIZE] at hx
  have hb : fullDisk 207 = ofWords fun x => 208 + x := rfl
  rw [Support.Forest.get_cons, root_fullDir]
  exact child_fullDir hb (by omega)

theorem get_double {y : Nat} (hx : x < NINDIRECT) (hy : y < NINDIRECT) :
    (fullDir m).forest.get ((1, 11), [y, x]) = 336 + 128 * x + y := by
  rw [Support.Forest.get_cons, get_index m hx, if_neg (by omega)]
  simp only [NINDIRECT, BSIZE] at hx hy
  have hb : fullDisk (208 + x) = ofWords fun y => 336 + 128 * x + y := by
    rw [fullDisk, if_neg (by omega), if_neg (by omega), if_neg (by omega), if_pos (by omega),
      Nat.add_sub_cancel_left]
  exact child_fullDir hb (by omega)

/-- The one path of the triple region. -/
theorem get_triple {p : List Nat} (hlen : p.length ≤ 3) :
    (fullDir m).forest.get ((1, 12), p) = if ∀ x ∈ p, x = 0 then 16720 + p.length else 0 := by
  induction p with
  | nil =>
    rw [root_fullDir]
    rfl
  | cons x p ih =>
    rw [List.length_cons] at hlen
    rw [Support.Forest.get_cons, ih (by omega)]
    by_cases hall : ∀ y ∈ p, y = 0
    · have hb : fullDisk (16720 + p.length) =
          ofWords fun x => if x = 0 then 16720 + p.length + 1 else 0 := by
        rw [fullDisk, if_neg (by omega), if_neg (by omega), if_neg (by omega), if_neg (by omega),
          if_pos (by omega)]
      rw [if_pos hall, if_neg (by omega), child_fullDir hb (by split <;> omega)]
      by_cases hx : x = 0
      · have hall' : ∀ y ∈ x :: p, y = 0 := List.forall_mem_cons.mpr ⟨hx, hall⟩
        rw [if_pos hx, if_pos hall']
        rfl
      · rw [if_neg hx, if_neg fun hc => hx (hc x List.mem_cons_self)]
    · rw [if_neg hall, if_pos rfl, if_neg fun hc => hall (List.forall_mem_cons.mp hc).2]

/-- Every block has the place it is listed at. -/
theorem fullPlace_get {q : Place} (hv : Valid shape q) (hne : (fullDir m).forest.get q ≠ 0) :
    68 ≤ (fullDir m).forest.get q ∧ (fullDir m).forest.get q < 16724 ∧
      fullPlace ((fullDir m).forest.get q) = q := by
  obtain ⟨⟨i, r⟩, p⟩ := q
  have hi : i = 1 := by
    by_contra hi
    refine Support.Forest.get_of_suffix List.nil_suffix hne ?_
    change ((fullDir m).current i).addrs r = 0
    rw [current_fullDir, if_neg hi]
  subst hi
  obtain ⟨hlen, hlt⟩ := hv
  change p.length ≤ r.val + 1 - 10 at hlen
  change ∀ x ∈ p, x < NINDIRECT at hlt
  have hr := r.isLt
  have hcases : r.val < 10 ∨ r = 10 ∨ r = 11 ∨ r = 12 := by
    simp only [Fin.ext_iff]
    change r.val < 10 ∨ r.val = 10 ∨ r.val = 11 ∨ r.val = 12
    change r.val < 13 at hr
    omega
  rcases hcases with hr | rfl | rfl | rfl
  · obtain rfl : p = [] := List.eq_nil_of_length_eq_zero (by omega)
    rw [root_fullDir, fullAddrs, if_pos hr, fullPlace, if_pos (by omega), Nat.add_sub_cancel_left]
    refine ⟨by omega, by omega, ?_⟩
    rw [Fin.ofNat_val_eq_self]
  · match p, hlen, hlt with
    | [], _, _ => exact ⟨by rw [root_fullDir]; decide, by rw [root_fullDir]; decide,
        by rw [root_fullDir]; rfl⟩
    | [x], _, hlt =>
      have hx : x < 128 := hlt x List.mem_cons_self
      rw [get_single m hx, fullPlace, if_neg (by omega), if_neg (by omega), if_pos (by omega),
        Nat.add_sub_cancel_left]
      exact ⟨by omega, by omega, rfl⟩
  · match p, hlen, hlt with
    | [], _, _ => exact ⟨by rw [root_fullDir]; decide, by rw [root_fullDir]; decide,
        by rw [root_fullDir]; rfl⟩
    | [x], _, hlt =>
      have hx : x < 128 := hlt x List.mem_cons_self
      rw [get_index m hx, fullPlace, if_neg (by omega), if_neg (by omega), if_neg (by omega),
        if_neg (by omega), if_pos (by omega), Nat.add_sub_cancel_left]
      exact ⟨by omega, by omega, rfl⟩
    | [y, x], _, hlt =>
      have hx : x < 128 := hlt x (by simp)
      have hy : y < 128 := hlt y (by simp)
      rw [get_double m hx hy, fullPlace, if_neg (by omega), if_neg (by omega), if_neg (by omega),
        if_neg (by omega), if_neg (by omega), if_pos (by omega)]
      refine ⟨by omega, by omega, ?_⟩
      rw [show (336 + 128 * x + y - 336) % 128 = y by omega,
        show (336 + 128 * x + y - 336) / 128 = x by omega]
  · have hlen : p.length ≤ 3 := hlen
    rw [get_triple m hlen] at hne ⊢
    split at hne
    · rename_i hall
      rw [if_pos hall, fullPlace, if_neg (by omega), if_neg (by omega), if_neg (by omega),
        if_neg (by omega), if_neg (by omega), if_neg (by omega), Nat.add_sub_cancel_left]
      refine ⟨by omega, by omega, ?_⟩
      rw [← List.eq_replicate_of_mem hall]
    · exact absurd rfl hne

/-- Every block that is marked is listed. -/
theorem exists_place {b : Nat} (h₁ : 68 ≤ b) (h₂ : b < 16724) :
    ∃ q, Valid shape q ∧ (fullDir m).forest.get q = b := by
  have root (r : Fin (NDIRECT + 3)) (h : fullAddrs r = b) :
      ∃ q, Valid shape q ∧ (fullDir m).forest.get q = b :=
    ⟨_, Support.Forest.valid_nil shape _, (root_fullDir m r).trans h⟩
  have single (x : Nat) (h : x < NINDIRECT) : ∀ y ∈ [x], y < NINDIRECT := by simpa
  by_cases h₃ : b < 78
  · refine root ⟨b - 68, by simp only [NDIRECT]; omega⟩ ?_
    rw [fullAddrs, if_pos (by dsimp only; omega)]
    dsimp only
    omega
  by_cases h₄ : b = 78
  · exact root 10 h₄.symm
  by_cases h₅ : b < 207
  · have hx : b - 79 < NINDIRECT := by simp only [NINDIRECT, BSIZE]; omega
    exact ⟨((1, 10), [b - 79]), ⟨Nat.le_refl _, single _ hx⟩, (get_single m hx).trans (by omega)⟩
  by_cases h₆ : b = 207
  · exact root 11 h₆.symm
  by_cases h₇ : b < 336
  · have hx : b - 208 < NINDIRECT := by simp only [NINDIRECT, BSIZE]; omega
    exact ⟨((1, 11), [b - 208]), ⟨Nat.le_succ 1, single _ hx⟩, (get_index m hx).trans (by omega)⟩
  by_cases h₈ : b < 16720
  · have hx : (b - 336) / 128 < NINDIRECT := by simp only [NINDIRECT, BSIZE]; omega
    have hy : (b - 336) % 128 < NINDIRECT := Nat.mod_lt _ (by decide)
    refine ⟨((1, 11), [(b - 336) % 128, (b - 336) / 128]), ⟨Nat.le_refl _, fun x hx' => ?_⟩,
      (get_double m hx hy).trans (by omega)⟩
    rcases List.mem_pair.mp hx' with h | h
    · rw [h]; exact hy
    · rw [h]; exact hx
  · obtain ⟨p, hall, hlen⟩ : ∃ p : List Nat, (∀ x ∈ p, x = 0) ∧ p.length = b - 16720 :=
      ⟨List.replicate (b - 16720) 0, fun _ => List.eq_of_mem_replicate, List.length_replicate⟩
    have h₃ : p.length ≤ 3 := by omega
    refine ⟨((1, 12), p), ⟨h₃, fun x hx => ?_⟩, ?_⟩
    · rw [hall x hx]
      decide
    · rw [get_triple m h₃, if_pos hall]
      omega

theorem owned_fullDir : Owned mkfsSb (fullDir m) := by
  refine ⟨fun q q' hq hq' hne heq => ?_, fun q hq hne => ?_, fun b hb hlt hu => ?_⟩
  · have h := (fullPlace_get m hq hne).2.2
    rw [heq] at h
    rw [← h, (fullPlace_get m hq' (heq ▸ hne)).2.2]
  · obtain ⟨h₁, h₂, -⟩ := fullPlace_get m hq hne
    have hlt : (fullDir m).forest.get q < FSSIZE := h₂.trans (by decide)
    exact ⟨h₁, hlt, by rw [used_fullDir hlt]; exact decide_eq_true h₂⟩
  · rw [used_fullDir hlt, decide_eq_true_iff] at hu
    exact exists_place m hb hu

/-- The two first blocks of the triple region have one place. -/
theorem placeOf_triple (h₁ : 16522 ≤ bn) (h₂ : bn < 16524) :
    placeOf 1 bn = some ((1, 12), [0, 0, 0]) := by
  obtain rfl | rfl : bn = 16522 ∨ bn = 16523 := by omega
  · decide
  · decide

theorem placeOf_fullDir (h : bn < 16524) :
    ∃ q, placeOf 1 bn = some q ∧ Valid shape q ∧ (fullDir m).forest.get q = dataBlock bn := by
  by_cases h₃ : 16522 ≤ bn
  · have hlt : ∀ x ∈ [0, 0, 0], x < NINDIRECT := by decide
    refine ⟨_, placeOf_triple h₃ h, ⟨Nat.le_refl _, hlt⟩, ?_⟩
    have hall : ∀ x ∈ [0, 0, 0], x = 0 := by decide
    rw [get_triple m (Nat.le_refl _), if_pos hall, dataBlock, if_neg (by omega),
      if_neg (by omega), if_neg (by omega)]
    rfl
  obtain ⟨q, hq, hv⟩ := placeOf_valid 1 (show bn < DOUBLE by
    simp only [DOUBLE, NDIRECT, NINDIRECT, BSIZE]; omega)
  refine ⟨q, hq, hv, ?_⟩
  rw [placeOf, bmapPath] at hq
  simp only [NDIRECT, NINDIRECT, BSIZE] at hq
  rw [dataBlock]
  split at hq
  · rename_i hlt
    cases hq
    rw [if_pos hlt]
    exact (root_fullDir m _).trans (if_pos hlt)
  · rename_i h₁
    rw [if_neg h₁]
    split at hq
    · rename_i hlt
      cases hq
      rw [if_pos (by omega)]
      have hx : bn - 10 < NINDIRECT := by simp only [NINDIRECT, BSIZE]; omega
      refine (get_single m hx).trans ?_
      omega
    · rename_i h₂
      rw [if_neg (by omega), if_pos (by omega)]
      split at hq
      · cases hq
        have hx : (bn - 10 - 128) / 128 < NINDIRECT := by simp only [NINDIRECT, BSIZE]; omega
        have hy : (bn - 10 - 128) % 128 < NINDIRECT := Nat.mod_lt _ (by decide)
        refine (get_double m hx hy).trans ?_
        omega
      · omega

theorem dataBlock_pos (bn : Nat) : dataBlock bn ≠ 0 := by
  rw [dataBlock]
  split
  · omega
  · split
    · omega
    · split <;> omega

/-- The bytes of the data blocks are those of the entries. -/
theorem fullDisk_dataBlock (h : bn < 16523) (o : Nat) : fullDisk (dataBlock bn) o =
    (direntOf (entryName (32 * bn + o / 16)) 1).getD (o % 16) 0 := by
  have hb : ¬ (58 ≤ dataBlock bn ∧ dataBlock bn < 68) ∧ dataBlock bn ≠ 78 ∧ dataBlock bn ≠ 207 ∧
      ¬ (208 ≤ dataBlock bn ∧ dataBlock bn < 336) ∧
      ¬ (16720 ≤ dataBlock bn ∧ dataBlock bn < 16723) ∧ fileBlock (dataBlock bn) = bn := by
    rw [fileBlock, dataBlock]
    split
    · rw [if_pos (by omega)]; omega
    split
    · rw [if_neg (by omega), if_pos (by omega)]; omega
    · split
      · rw [if_neg (by omega), if_neg (by omega), if_pos (by omega)]; omega
      · rw [if_neg (by omega), if_neg (by omega), if_neg (by omega)]; omega
  obtain ⟨h₁, h₂, h₃, h₄, h₅, h₆⟩ := hb
  rw [fullDisk, if_neg h₁, if_neg h₂, if_neg h₃, if_neg h₄, if_neg h₅, h₆]

theorem slot_fullDir (hk : k < 32 * 16523) : (fullDir m).slot 1 k = direntOf (entryName k) 1 := by
  refine List.ext_getElem (by simp [Volume.slot, Volume.dirent]) fun j h₁ h₂ => ?_
  rw [length_direntOf] at h₂
  simp only [Volume.slot, Volume.dirent, List.getElem_map, List.getElem_range]
  simp only [DIRENT] at h₂ ⊢
  have hdiv : (16 * k + j) / BSIZE = k / 32 ∧ (16 * k + j) % BSIZE = 16 * (k % 32) + j := by
    simp only [BSIZE]
    omega
  obtain ⟨q, hq, -, hget⟩ := placeOf_fullDir m (show k / 32 < 16524 by omega)
  rw [byteAt_of_place (by rw [hdiv.1]; exact hq), hget, hdiv.2]
  change fullDisk _ _ = _
  rw [fullDisk_dataBlock (by omega), show (16 * (k % 32) + j) / 16 = k % 32 by omega,
    show (16 * (k % 32) + j) % 16 = j by omega, Nat.div_add_mod,
    List.getD_eq_getElem _ _ (by rw [length_direntOf]; exact h₂)]

theorem size_fullDir : ((fullDir m).current 1).size = DIRENT * m := by
  rw [current_fullDir]
  rfl

theorem slots_fullDir : (fullDir m).slots 1 = m := by
  rw [Volume.slots, size_fullDir]
  exact Nat.mul_div_cancel_left m (by decide)

theorem dirOk_fullDir (hm : m ≤ 32 * 16523) : DirOk mkfsSb (fullDir m) 1 := by
  have hsize (i : Nat) (hi : i ≠ 1) : ((fullDir m).current i).size = 0 := by
    rw [current_fullDir, if_neg hi]
  refine ⟨⟨owned_fullDir m, fun b hb hlt => ?_, fun i bn h => ?_, fun i => ?_⟩, fun i => ?_,
    fun i => ?_, Int.le_refl 1, rfl, rfl, ?_⟩
  · rw [used_fullDir hlt]
    exact decide_eq_true (hb.trans (by decide))
  · by_cases hi : i = 1
    · subst hi
      rw [size_fullDir] at h
      simp only [DIRENT, BSIZE] at h
      obtain ⟨q, hq, hv, hget⟩ := placeOf_fullDir m (show bn < 16524 by omega)
      exact ⟨q, hq, hv, hget ▸ dataBlock_pos bn⟩
    · rw [hsize i hi] at h
      exact absurd h (Nat.not_lt_zero _)
  · by_cases hi : i = 1
    · subst hi
      rw [size_fullDir]
      simp only [DIRENT]
      omega
    · rw [hsize i hi]
      decide
  · by_cases hi : i = 1
    · simp [fullDir, hi]
    · simp [fullDir, hi]
  · by_cases hi : i = 1
    · simp [fullDir, hi]
    · simp [fullDir, hi]
  · rw [size_fullDir]
    exact Nat.mul_mod_right _ _

theorem key_entryName (hk : k < 32 * 16523) :
    direntKey (direntOf (entryName k) 1) = some (entryName k) := by
  rw [direntKey_direntOf _ (by decide) (by decide)]
  have hne (x : Nat) (hx : x < 255) : UInt8.ofNat (x + 1) ≠ 0 := by
    intro h
    have h := congrArg UInt8.toNat h
    rw [UInt8.toNat_ofNat', Nat.mod_eq_of_lt (by omega)] at h
    cases h
  have h₁ := hne (k % 128) (by omega)
  have h₂ := hne (k / 128 % 128) (by omega)
  have h₃ := hne (k / 16384) (by omega)
  rw [entryName]
  generalize UInt8.ofNat (k % 128 + 1) = a at h₁
  generalize UInt8.ofNat (k / 128 % 128 + 1) = b at h₂
  generalize UInt8.ofNat (k / 16384 + 1) = c at h₃
  simp [cutName, DIRSIZ, h₁, h₂, h₃]

theorem entryName_inj {l : Nat} (hk : k < 32 * 16523) (hl : l < 32 * 16523)
    (h : entryName k = entryName l) : k = l := by
  have hinj (x y : Nat) (hx : x < 255) (hy : y < 255)
      (h : UInt8.ofNat (x + 1) = UInt8.ofNat (y + 1)) : x = y := by
    have h := congrArg UInt8.toNat h
    rw [UInt8.toNat_ofNat', UInt8.toNat_ofNat', Nat.mod_eq_of_lt (by omega),
      Nat.mod_eq_of_lt (by omega)] at h
    omega
  simp only [entryName, List.cons.injEq, and_true] at h
  have h₁ := hinj _ _ (by omega) (by omega) h.1
  have h₂ := hinj _ _ (by omega) (by omega) h.2.1
  have h₃ := hinj _ _ (by omega) (by omega) h.2.2
  omega

theorem namesDistinct_fullDir (hm : m ≤ 32 * 16523) : NamesDistinct (fullDir m) 1 := by
  intro i hi j hj k hki hkj
  rw [slots_fullDir] at hi hj
  rw [slot_fullDir m (by omega), key_entryName (by omega)] at hki hkj
  exact entryName_inj (by omega) (by omega) (Option.some.inj (hki.trans hkj.symm))

end

/-- An empty directory, and an entry put into it. -/
theorem dir_is_map_first : ∃ ret fs', dirlink mkfsSb (fullDir 0) 1 [97] 5 = .ok (ret, fs') ∧
    finds mkfsSb fs' 1 [97] = some (some 5) := by
  have h := dirOk_fullDir 0 (Nat.zero_le _)
  obtain ⟨-, hlink, -⟩ := dir_is_map h (namesDistinct_fullDir 0 (Nat.zero_le _)) .refl
  have hnone : (fullDir 0).missing 1 ((fullDir 0).current 1).size DIRENT = ∅ := by decide +kernel
  obtain ⟨ret, fs', hr, hiff, hfound, -⟩ := hlink [97] 5 (by decide) (by decide) (by decide)
    (by rw [hnone]; exact Nat.zero_le _)
  have hnot : finds mkfsSb (fullDir 0) 1 [97] = some none := by decide +kernel
  exact ⟨ret, fs', hr, (hfound fun e => hiff.mp e hnot).2⟩

/-! ### An entry that is overwritten -/

/-- The double region and one block more. -/
abbrev FULL : Nat := 32 * 16523

/-- The full directory after a new entry at its end. -/
def overwritten : Volume :=
  iupdate mkfsSb (((fullDir FULL).write 16723
    (Support.putBytes (fullDisk 16723) 0 (direntOf [255] 1))).setInode 1
      ({ · with size := DIRENT * FULL + DIRENT })) 1

theorem current_overwritten (i : Nat) : (overwritten.current i).size =
    if i = 1 then DIRENT * FULL + DIRENT else 0 := by
  refine (size_setSize rfl _ i).trans ?_
  split
  · rfl
  · rename_i hi
    change ((fullDir FULL).current i).size = 0
    rw [current_fullDir, if_neg hi]

theorem get_overwritten {q : Place} (hq : Valid shape q) :
    overwritten.forest.get q = (fullDir FULL).forest.get q := by
  have hlt : ∀ x ∈ [0, 0, 0], x < NINDIRECT := by decide
  have hget : (fullDir FULL).forest.get ((1, 12), [0, 0, 0]) = 16723 := by
    rw [get_triple FULL (Nat.le_refl _)]
    rfl
  have hv : Valid shape ((1, 12), [0, 0, 0]) := ⟨Nat.le_refl _, hlt⟩
  have hleaf : ¬ Inner shape ((1, 12), [0, 0, 0]) := fun h => Nat.lt_irrefl _ h.1
  have hwrite := get_write_data (owned_fullDir FULL) hv hleaf
    (Support.putBytes (fullDisk 16723) 0 (direntOf [255] 1)) hq
  rw [hget] at hwrite
  rw [overwritten, forest_setSize rfl, hwrite]

theorem dirOk_overwritten : DirOk mkfsSb overwritten 1 := by
  have h := dirOk_fullDir FULL (Nat.le_refl _)
  have hused {c : Nat} (hc : c < FSSIZE) : overwritten.used mkfsSb c =
      (fullDir FULL).used mkfsSb c := used_write _ (by decide) hc
  have hinode (i : Nat) : overwritten.inode i = { (fullDir FULL).inode i with
      size := if i = 1 then DIRENT * FULL + DIRENT else ((fullDir FULL).inode i).size } := by
    by_cases hi : i = 1
    · subst hi; rfl
    · simp [overwritten, iupdate, Volume.setInode, hi]
  refine ⟨⟨h.wf.owned.congr (fun q hq => get_overwritten hq) fun c hc => hused hc,
    fun b hb hlt => (hused hlt).trans (h.wf.metaUsed b hb hlt), fun i bn hlt => ?_, fun i => ?_⟩,
    fun i => ?_, fun i => ?_, ?_, ?_, ?_, ?_⟩
  · rw [current_overwritten] at hlt
    split at hlt
    · rename_i hi
      subst hi
      simp only [DIRENT, BSIZE, FULL] at hlt
      obtain ⟨q, hq, hv, hget⟩ := placeOf_fullDir FULL (show bn < 16524 by omega)
      exact ⟨q, hq, hv, by rw [get_overwritten hv, hget]; exact dataBlock_pos bn⟩
    · exact absurd hlt (Nat.not_lt_zero _)
  · rw [current_overwritten]
    split <;> decide
  · by_cases hi : i = 1
    · subst hi
      intro _
      rfl
    · intro hv
      simp [overwritten, iupdate, Volume.setInode, hi, fullDir] at hv
  · rw [hinode]; exact h.ref i
  · rw [hinode]; exact h.held
  · rw [hinode]; exact h.valid
  · rw [hinode]; exact h.dir
  · rw [current_overwritten, if_pos rfl]
    decide

/-- The two slots that share their bytes, and the others. -/
theorem slot_overwritten {k : Nat} (hk : k < FULL + 1) : overwritten.slot 1 k =
    if k = 32 * 16522 ∨ k = FULL then direntOf [255] 1 else direntOf (entryName k) 1 := by
  refine List.ext_getElem (by split <;> simp [Volume.slot, Volume.dirent]) fun j h₁ h₂ => ?_
  have hj : j < 16 := by rw [length_slot] at h₁; exact h₁
  simp only [Volume.slot, Volume.dirent, List.getElem_map, List.getElem_range]
  simp only [DIRENT, FULL] at hk ⊢
  have hdiv : (16 * k + j) / BSIZE = k / 32 ∧ (16 * k + j) % BSIZE = 16 * (k % 32) + j := by
    simp only [BSIZE]
    omega
  obtain ⟨q, hq, hv, hget⟩ := placeOf_fullDir FULL (show k / 32 < 16524 by omega)
  rw [byteAt_of_place (by rw [hdiv.1]; exact hq), get_overwritten hv, hget, hdiv.2]
  change ((fullDir FULL).write 16723 _).disk _ _ = _
  have hsame {k' : Nat} (hk' : k' / 32 < 16523) (h : k' = k) :
      fullDisk (dataBlock (k' / 32)) (16 * (k' % 32) + j) =
      (direntOf (entryName k) 1).getD j 0 := by
    rw [fullDisk_dataBlock hk', show (16 * (k' % 32) + j) / 16 = k' % 32 by omega,
      show (16 * (k' % 32) + j) % 16 = j by omega, Nat.div_add_mod, h]
  by_cases htriple : 16522 ≤ k / 32
  · have hblock : dataBlock (k / 32) = 16723 := by
      rw [dataBlock, if_neg (by omega), if_neg (by omega), if_neg (by omega)]
    rw [hblock, write_disk_self, Support.putBytes, length_direntOf]
    by_cases h0 : k = 32 * 16522 ∨ k = 32 * 16523
    · have hmod : 16 * (k % 32) + j = j := by omega
      simp only [hmod, if_pos h0]
      rw [if_pos ⟨Nat.zero_le _, by omega⟩, Nat.sub_zero,
        List.getD_eq_getElem _ _ (by rw [length_direntOf]; exact hj)]
    · simp only [if_neg h0]
      rw [if_neg (by simp only [DIRENT]; omega), ← hblock, hsame (by omega) rfl,
        List.getD_eq_getElem _ _ (by rw [length_direntOf]; exact hj)]
  · have hblock : dataBlock (k / 32) ≠ 16723 := by
      rw [dataBlock]
      split
      · omega
      · split
        · omega
        · rw [if_pos (by omega)]
          omega
    have h0 : ¬ (k = 32 * 16522 ∨ k = 32 * 16523) := by omega
    simp only [if_neg h0]
    rw [write_disk_of_ne _ hblock]
    change fullDisk _ _ = _
    rw [hsame (by omega) rfl, List.getD_eq_getElem _ _ (by rw [length_direntOf]; exact hj)]

theorem dirlink_full : dirlink mkfsSb (fullDir FULL) 1 [255] 1 = .ok (0, overwritten) := by
  have h := dirOk_fullDir FULL (Nat.le_refl _)
  have hslots := slots_fullDir FULL
  have hnone : (fullDir FULL).slotOf 1 [255] = none := by
    refine Support.findSlot_eq_none.mpr fun k hk => ?_
    rw [hslots] at hk
    rw [slot_fullDir FULL hk, key_entryName hk]
    intro he
    have hlen : 3 = 1 := congrArg List.length (Option.some.inj he)
    cases hlen
  have hfuel : (fullDir FULL).slots 1 - 0 < ((fullDir FULL).inode 1).size / DIRENT + 1 := by
    have := h.size_eq
    simp only [DIRENT] at *
    omega
  obtain ⟨k, hloop, -, hk, hfree, -⟩ := h.dirlinkLoop (Nat.zero_le _) hfuel
  have hkn : k = FULL := by
    rw [hslots] at hk hfree
    rcases Nat.eq_or_lt_of_le hk with hkn | hlt
    · exact hkn
    · have h0 := hfree hlt
      rw [slot_fullDir FULL hlt, direntInum_direntOf _ (by decide)] at h0
      cases h0
  have hbn : DIRENT * FULL / BSIZE = 16523 := by decide
  obtain ⟨q, hq, hv, hget⟩ := placeOf_fullDir FULL (show 16523 < 16524 by decide)
  have hbmap : bmap mkfsSb (fullDir FULL) 1 (DIRENT * FULL / BSIZE) = .ok (16723, fullDir FULL) := by
    rw [hbn, bmap_filled rfl hq hv (by rw [hget]; exact dataBlock_pos _), hget]
    rfl
  have hw : writeLoop mkfsSb 1 DIRENT (DIRENT * FULL) (direntOf [255] 1) (fullDir FULL) =
      .ok ((fullDir FULL).write 16723 (Support.putBytes (fullDisk 16723) 0 (direntOf [255] 1))) := by
    rw [writeLoop, if_neg (by rw [length_direntOf]; decide), hbmap]
    rfl
  have hwrite : writei mkfsSb (fullDir FULL) 1 (direntOf [255] 1) (DIRENT * FULL) =
      .ok (DIRENT, overwritten) := by
    rw [writei, length_direntOf, hw]
    rfl
  rw [dirlink, h.dirlookup, hnone]
  refine bind_ok.mpr ⟨_, rfl, bind_ok.mpr ⟨_, hloop, ?_⟩⟩
  rw [hkn]
  exact bind_ok.mpr ⟨_, hwrite, rfl⟩

/-- **A name is lost.**  The directory fills the double region and the first block of the triple
region.  A new entry overwrites the one that was the first of that block. -/
theorem entry_overwritten : ∃ fs fs' other, DirOk mkfsSb fs 1 ∧ NamesDistinct fs 1 ∧
    dirlink mkfsSb fs 1 [255] 1 = .ok (0, fs') ∧ ¬ sameName other [255] ∧
    finds mkfsSb fs 1 other = some (some 1) ∧ finds mkfsSb fs' 1 other = some none := by
  have h := dirOk_fullDir FULL (Nat.le_refl _)
  have hd := namesDistinct_fullDir FULL (Nat.le_refl _)
  have hlt : 32 * 16522 < FULL := by decide
  have hcut : cutName (entryName (32 * 16522)) = entryName (32 * 16522) := by decide
  refine ⟨fullDir FULL, overwritten, entryName (32 * 16522), h, hd, dirlink_full, by decide, ?_, ?_⟩
  · have hslot : (fullDir FULL).slotOf 1 (entryName (32 * 16522)) = some (32 * 16522) := by
      refine (Support.findSlot_eq_some hd).mpr ⟨by rw [slots_fullDir]; exact hlt, ?_⟩
      rw [slot_fullDir FULL hlt, key_entryName hlt, hcut]
    rw [h.finds, hslot, Option.map_some, slot_fullDir FULL hlt, direntInum_direntOf _ (by decide)]
  · have hslot : overwritten.slotOf 1 (entryName (32 * 16522)) = none := by
      refine Support.findSlot_eq_none.mpr fun k hk => ?_
      have hk : k < FULL + 1 := by
        rw [Volume.slots, current_overwritten, if_pos rfl] at hk
        simp only [DIRENT] at hk
        omega
      rw [slot_overwritten hk, hcut]
      split
      · decide
      rename_i hne
      rw [key_entryName (by simp only [FULL] at hk hne; omega)]
      intro he
      have := entryName_inj (by simp only [FULL] at hk hne; omega) hlt (Option.some.inj he)
      exact hne (.inl this)
    rw [dirOk_overwritten.finds, hslot]
    rfl

end Xv6.Fs
