import Xv6.Fs.Single

/-!
# Fs — a write in chunks (`file.c`)

`filewrite` and `filepwrite` cut a write into transactions of at most `CHUNK` bytes, at any byte.
They do what one `writei` of all the bytes does, but for the blocks that are logged
(`Volume.unlogged`): the loop of `writei` composes over a split (`writeLoop_append`).  A block that
a split cuts in two is found again where it was allocated, and it is filled in two steps.  The new
size that the first part writes to the inode is not seen by the second (`Blind`), and is overwritten
by its own.

* `pwrite_agrees`: `filepwrite`, `filewrite` and one `writei`; `filepread` and `fileread`.
-/

namespace Xv6.Fs

open Support (except_map_bind except_bind_map except_map_map Bytes putBytes putBytes_append)

section

variable {sb : Superblock} {fs fs₁ fs' : Volume} {i : Nat}

/-! ### Where `writei` does not look -/

variable {T : Volume → Volume}

/-- **The loop of `writei`** does the same to a volume changed where it does not look. -/
theorem writeLoop_blind (hT : Blind i T) (fuel off : Nat) (src : List UInt8) :
    writeLoop sb i fuel off src (T fs) = (writeLoop sb i fuel off src fs).map T := by
  induction fuel generalizing fs off src with
  | zero => rfl
  | succ fuel ih =>
    rw [writeLoop, writeLoop]
    split
    · rfl
    · rw [bmap_blind hT, except_bind_map, except_map_bind]
      refine congrArg _ (funext fun p => ?_)
      simp only [onVolume, hT.write, hT.disk]
      exact ih _ _

/-! ### The log -/

/-- The volume without the list of the blocks logged. -/
def Volume.unlogged (fs : Volume) : Volume := { fs with logged := [] }

/-- The blocks `l` are logged before. -/
def Volume.relog (l : List Nat) (fs : Volume) : Volume := { fs with logged := fs.logged ++ l }

theorem blind_relog (i : Nat) (l : List Nat) : Blind i (Volume.relog l) :=
  ⟨fun _ => rfl, fun _ => rfl, fun _ _ _ => rfl, fun _ _ _ => rfl⟩

theorem writeLoop_unlogged (fuel off : Nat) (src : List UInt8) :
    (writeLoop sb i fuel off src fs).map Volume.unlogged =
      (writeLoop sb i fuel off src fs.unlogged).map Volume.unlogged := by
  have h : writeLoop sb i fuel off src (fs.unlogged.relog fs.logged) =
      (writeLoop sb i fuel off src fs.unlogged).map (Volume.relog fs.logged) :=
    writeLoop_blind (blind_relog i fs.logged) fuel off src
  change writeLoop sb i fuel off src fs = _ at h
  rw [h, except_map_map]
  rfl

theorem writeLoop_congr (h : fs'.unlogged = fs.unlogged) (fuel off : Nat) (src : List UInt8) :
    (writeLoop sb i fuel off src fs').map Volume.unlogged =
      (writeLoop sb i fuel off src fs).map Volume.unlogged := by
  rw [writeLoop_unlogged, h, ← writeLoop_unlogged]

/-! ### A write in two parts -/

variable {fuel off n : Nat} {src : List UInt8}

/-- The loop runs out of bytes before it runs out of fuel. -/
theorem writeLoop_fuel {fuel' : Nat} (h : src.length ≤ fuel) (h' : src.length ≤ fuel') :
    writeLoop sb i fuel off src fs = writeLoop sb i fuel' off src fs := by
  induction fuel generalizing fuel' off src fs with
  | zero =>
    have h0 : src.length = 0 := Nat.le_zero.mp h
    cases fuel' with
    | zero => rfl
    | succ fuel' => rw [writeLoop, writeLoop, if_pos h0]
  | succ fuel ih =>
    cases fuel' with
    | zero =>
      have h0 : src.length = 0 := Nat.le_zero.mp h'
      rw [writeLoop, writeLoop, if_pos h0]
    | succ fuel' =>
      rw [writeLoop, writeLoop]
      split
      · rfl
      rename_i h0
      have hmod := Nat.mod_lt off (show 0 < BSIZE by decide)
      refine congrArg _ (funext fun p => ih ?_ ?_)
      · rw [List.length_drop]; omega
      · rw [List.length_drop]; omega

/-- A block written twice. -/
theorem write_write (fs : Volume) (a : Nat) (v w : Bytes) :
    ((fs.write a v).write a w).unlogged = (fs.write a w).unlogged := by
  simp [Volume.write, Volume.unlogged]

/-- **The loop of `writei` composes**: to write `x` and then `y` behind it is to write `x ++ y`. -/
theorem writeLoop_append {x y : List UInt8} (ho : Owned sb fs)
    (hm : MetaUsed sb fs) (hv : (fs.inode i).valid = true) (hfuel : (x ++ y).length ≤ fuel) :
    (writeLoop sb i fuel off (x ++ y) fs).map Volume.unlogged =
      (writeLoop sb i fuel off x fs >>= writeLoop sb i fuel (off + x.length) y).map
        Volume.unlogged := by
  induction fuel generalizing fs off x with
  | zero => rfl
  | succ fuel ih =>
    rw [List.length_append] at hfuel
    by_cases hx : x.length = 0
    · obtain rfl := List.eq_nil_of_length_eq_zero hx
      rfl
    have hxy : ¬ (x ++ y).length = 0 := by rw [List.length_append]; omega
    rw [writeLoop, if_neg hxy, writeLoop, if_neg hx]
    cases hb : bmap sb fs i (off / BSIZE) with
    | error e => rfl
    | ok p =>
      obtain ⟨a, fs₁⟩ := p
      have hmod := Nat.mod_lt off (show 0 < BSIZE by decide)
      obtain ⟨q, hq, hval, hleaf, rfl, ha0, -, N, e, -⟩ := bmap_spec ho hm hv hb
      have hstay (v : Bytes) : Owned sb (fs₁.write (fs₁.forest.get q) v) ∧
          MetaUsed sb (fs₁.write (fs₁.forest.get q) v) ∧
          ((fs₁.write (fs₁.forest.get q) v).inode i).valid = true := by
        have e₂ := Edits.data e hval hleaf ha0 v
        obtain ⟨ho₂, hm₂⟩ := e₂.owned ho hm
        exact ⟨ho₂, hm₂, by rw [e₂.valid, hv]⟩
      change (writeLoop sb i fuel _ _ _).map _ = (writeLoop sb i fuel _ _ _ >>= _).map _
      by_cases hlong : BSIZE - off % BSIZE ≤ x.length
      · -- the first round lies in `x`
        have h₁ : min (x ++ y).length (BSIZE - off % BSIZE) = BSIZE - off % BSIZE := by
          rw [List.length_append]; omega
        rw [h₁, Nat.min_eq_right hlong, List.take_append_of_le_length hlong,
          List.drop_append_of_le_length hlong]
        obtain ⟨ho₂, hm₂, hv₂⟩ := hstay (putBytes (fs₁.disk (fs₁.forest.get q)) (off % BSIZE)
          (x.take (BSIZE - off % BSIZE)))
        have hdrop : (x.drop (BSIZE - off % BSIZE)).length = x.length - (BSIZE - off % BSIZE) :=
          List.length_drop
        have hlen : (x.drop (BSIZE - off % BSIZE) ++ y).length ≤ fuel := by
          rw [List.length_append, hdrop]; omega
        rw [ih ho₂ hm₂ hv₂ hlen, hdrop]
        have hoff : off + (BSIZE - off % BSIZE) + (x.length - (BSIZE - off % BSIZE)) =
            off + x.length := by omega
        rw [hoff]
        refine congrArg _ (congrArg _ (funext fun fs₂ => writeLoop_fuel ?_ ?_)) <;> omega
      · -- `x` ends in this block
        have hshort : x.length ≤ BSIZE - off % BSIZE := by omega
        rw [Nat.min_eq_left hshort, List.take_length, List.drop_length]
        have hnil (fs : Volume) : writeLoop sb i fuel (off + x.length) [] fs = .ok fs := by
          cases fuel <;> rfl
        rw [hnil]
        change _ = (writeLoop sb i (fuel + 1) (off + x.length) y _).map _
        by_cases hy : y.length = 0
        · obtain rfl := List.eq_nil_of_length_eq_zero hy
          rw [List.append_nil, Nat.min_eq_left hshort, List.take_length, List.drop_length, hnil]
          rfl
        have hnext : (off + x.length) / BSIZE = off / BSIZE ∧
            (off + x.length) % BSIZE = off % BSIZE + x.length := by
          simp only [BSIZE] at *
          omega
        have hv₂ := (hstay (putBytes (fs₁.disk (fs₁.forest.get q)) (off % BSIZE) x)).2.2
        have hget := get_write_data (e.owned ho hm).1 hval hleaf
          (putBytes (fs₁.disk (fs₁.forest.get q)) (off % BSIZE) x) hval
        have hbmap : bmap sb _ i ((off + x.length) / BSIZE) = _ :=
          bmap_filled hv₂ (hnext.1.symm ▸ hq) hval (hget.symm ▸ ha0)
        conv_rhs => rw [writeLoop, if_neg hy, hbmap, hget, hnext.2]
        change _ = (writeLoop sb i fuel _ _ _).map _
        obtain ⟨m, hm'⟩ : ∃ m, m = min y.length (BSIZE - (off % BSIZE + x.length)) := ⟨_, rfl⟩
        have hsum : min (x ++ y).length (BSIZE - off % BSIZE) = x.length + m := by
          rw [List.length_append]; omega
        rw [hsum, ← hm', List.take_length_add_append, List.drop_length_add_append,
          ← Nat.add_assoc, write_disk_self, putBytes_append]
        exact writeLoop_congr (write_write _ _ _ _).symm _ _ _

/-! ### The size -/

/-- The end of `writei`: the size of the file is at least `n`. -/
def grown (sb : Superblock) (i n : Nat) (fs : Volume) : Volume :=
  if (fs.inode i).size < n then iupdate sb (fs.setInode i ({ · with size := n })) i else fs

/-- The size and the disk inode of inode `i`. -/
def Volume.resize (i n : Nat) (d : Dinode) (fs : Volume) : Volume :=
  { fs.setInode i ({ · with size := n }) with dinode := Function.update fs.dinode i d }

theorem blind_resize (i n : Nat) (d : Dinode) : Blind i (Volume.resize i n d) := by
  refine ⟨fun _ => rfl, fun fs => ?_, fun _ _ _ => rfl, fun fs r b => ?_⟩
  · simp [Volume.resize, Volume.setInode]
  · simp [Volume.resize, Volume.setAddr, Volume.setInode]

theorem grown_unlogged (n : Nat) (fs : Volume) :
    (grown sb i n fs).unlogged = (grown sb i n fs.unlogged).unlogged := by
  rw [grown, grown]
  change (if (fs.inode i).size < n then _ else _ : Volume).unlogged =
    (if (fs.inode i).size < n then _ else _ : Volume).unlogged
  split <;> rfl

/-- A size that was written before is overwritten. -/
theorem grown_resize {k : Nat} (d : Dinode) (hk : k < n) (hn : (fs.inode i).size < n) :
    (grown sb i n (fs.resize i k d)).unlogged = (grown sb i n fs).unlogged := by
  have hsize : ((fs.resize i k d).inode i).size = k := by simp [Volume.resize, Volume.setInode]
  rw [grown, grown, hsize, if_pos hk, if_pos hn]
  simp [Volume.resize, Volume.setInode, iupdate, Volume.unlogged]

theorem writeLoop_inode (ho : Owned sb fs)
    (hm : MetaUsed sb fs) (hv : (fs.inode i).valid = true) (hfuel : src.length ≤ fuel)
    (h : writeLoop sb i fuel off src fs = .ok fs') :
    fs'.inode i = { fs.inode i with addrs := (fs'.inode i).addrs } := by
  obtain ⟨N, D, e, -⟩ := writeLoop_spec ho hm hv hfuel h
  exact e.inode.2 i

/-- An open regular file whose inode has been read. -/
structure Opened (sb : Superblock) (fs : Volume) (i : Nat) : Prop where
  owned : Owned sb fs
  metaUsed : MetaUsed sb fs
  valid : (fs.inode i).valid = true
  ref : 1 ≤ (fs.inode i).ref
  file : (fs.inode i).type = .file

section

variable (h : Opened sb fs i)
include h

theorem Opened.ilock : ilock (beginOp fs) i = .ok (beginOp fs) := by
  have hr : ¬ (fs.inode i).ref < 1 := by have := h.ref; omega
  exact (if_neg hr).trans (if_pos h.valid)

theorem Opened.unlogged : Opened sb (beginOp fs) i :=
  ⟨h.owned.congr (fun _ _ => rfl) fun _ _ => rfl, h.metaUsed, h.valid, h.ref, h.file⟩

/-- A write that the checks of `writei` let through: its loop, and the new size. -/
theorem writei_accepted
    (hoff : off ≤ (fs.inode i).size) (hend : off + src.length ≤ MAXFILE * BSIZE) :
    writei sb fs i src off = (writeLoop sb i src.length off src fs).map fun fs' =>
      ((src.length : Int), grown sb i (off + src.length) fs') := by
  have hlt : off + src.length < 2 ^ 32 := Nat.lt_of_le_of_lt hend (by decide)
  have hd : (fs.inode i).type ≠ .dev := by rw [h.file]; decide
  rw [writei, if_neg hd, Nat.mod_eq_of_lt hlt, if_neg (by omega), if_neg (by omega)]
  cases hl : writeLoop sb i src.length off src fs with
  | error e => rfl
  | ok fs' =>
    have hsize : (fs'.inode i).size = (fs.inode i).size := by
      rw [writeLoop_inode h.owned h.metaUsed h.valid (Nat.le_refl _) hl]
    change (if _ then _ else _ : Except Stop (Int × Volume)) = .ok (_, grown _ _ _ fs')
    rw [grown]
    by_cases hgrow : (fs'.inode i).size < off + src.length
    · rw [if_pos hgrow, if_pos ⟨by omega, hgrow⟩]
    · rw [if_neg hgrow, if_neg fun hc => hgrow hc.2]

/-- A write leaves the file open, and as long as the write at least. -/
theorem opened_grown (hw : writeLoop sb i src.length off src fs = .ok fs') :
    Opened sb (grown sb i n fs') i ∧ n ≤ ((grown sb i n fs').inode i).size := by
  obtain ⟨N, D, e, -⟩ := writeLoop_spec h.owned h.metaUsed h.valid (Nat.le_refl _) hw
  obtain ⟨ho, hm⟩ := e.owned h.owned h.metaUsed
  have hinode := e.inode.2 i
  have hv : (fs'.inode i).valid = true := by rw [hinode, h.valid]
  have hr : 1 ≤ (fs'.inode i).ref := by rw [hinode]; exact h.ref
  have hf : (fs'.inode i).type = .file := by rw [hinode, h.file]
  rw [grown]
  split
  · have hforest : (iupdate sb _ i).forest = _ := forest_setSize hv n
    have hi : (iupdate sb (fs'.setInode i ({ · with size := n })) i).inode i =
        { fs'.inode i with size := n } := by simp [iupdate, Volume.setInode]
    refine ⟨⟨ho.congr (fun q _ => by rw [hforest]) fun _ _ => rfl, hm, ?_, ?_, ?_⟩, ?_⟩
    · rw [hi, hv]
    · rw [hi]; exact hr
    · rw [hi, hf]
    · rw [hi]
  · rename_i hn
    exact ⟨⟨ho, hm, hv, hr, hf⟩, Nat.le_of_not_lt hn⟩

end

/-! ### The loop of chunks -/

theorem unlogged_map {α : Type} {x y : Except Stop Volume} {g : Volume → α}
    (hg : ∀ fs, g fs = g fs.unlogged) (h : x.map Volume.unlogged = y.map Volume.unlogged) :
    x.map g = y.map g := by
  have hmap (x : Except Stop Volume) : x.map g = (x.map Volume.unlogged).map g := by
    rw [except_map_map]
    exact congrArg (Except.map · x) (funext hg)
  rw [hmap, h, ← hmap]

/-- The part of a write behind a first part, with the size the first part has written. -/
theorem writeLoop_grown {k : Nat} (ho : Owned sb fs) (hm : MetaUsed sb fs)
    (hv : (fs.inode i).valid = true) (hk : k < n) :
    ((writeLoop sb i src.length off src (grown sb i k fs)).map fun fs' =>
      (grown sb i n fs').unlogged) =
      (writeLoop sb i src.length off src fs).map fun fs' => (grown sb i n fs').unlogged := by
  rw [grown]
  split
  · rename_i hlt
    obtain ⟨d, hd⟩ : ∃ d, (iupdate sb (fs.setInode i ({ · with size := k })) i).unlogged =
        (fs.resize i k d).unlogged := ⟨_, rfl⟩
    rw [unlogged_map (grown_unlogged n) (writeLoop_congr hd _ _ _),
      writeLoop_blind (blind_resize i k d), except_map_map]
    cases hl : writeLoop sb i src.length off src fs with
    | error e => rfl
    | ok fs' =>
      have hsize : (fs'.inode i).size = (fs.inode i).size := by
        rw [writeLoop_inode ho hm hv (Nat.le_refl _) hl]
      exact congrArg _ (grown_resize d hk (by omega))
  · rfl

/-- **One `writei` in two parts**, but for the blocks logged. -/
theorem writei_append {x y : List UInt8} (h : Opened sb fs i)
    (hoff : off ≤ (fs.inode i).size) (hend : off + (x ++ y).length ≤ MAXFILE * BSIZE)
    (hy : 0 < y.length) : (writei sb fs i (x ++ y) off).map (·.2.unlogged) =
      (writei sb fs i x off >>= fun p => writei sb p.2 i y (off + x.length)).map (·.2.unlogged) := by
  have hlen : (x ++ y).length = x.length + y.length := List.length_append
  have hfuel : (x ++ y).length ≤ (x ++ y).length := Nat.le_refl _
  rw [writei_accepted h hoff hend, writei_accepted h hoff (by omega), except_map_map, except_bind_map,
    unlogged_map (grown_unlogged _) (writeLoop_append h.owned h.metaUsed h.valid hfuel),
    except_map_bind, except_map_bind,
    writeLoop_fuel (show x.length ≤ (x ++ y).length by omega) (Nat.le_refl x.length)]
  cases hx : writeLoop sb i x.length off x fs with
  | error e => rfl
  | ok fs₁ =>
    obtain ⟨N, D, e, -⟩ := writeLoop_spec h.owned h.metaUsed h.valid (Nat.le_refl _) hx
    obtain ⟨ho₁, hm₁⟩ := e.owned h.owned h.metaUsed
    have hv₁ : (fs₁.inode i).valid = true := by rw [e.valid, h.valid]
    obtain ⟨hopen, hsize⟩ := opened_grown (n := off + x.length) h hx
    change (writeLoop sb i (x ++ y).length (off + x.length) y fs₁).map _ =
      (writei sb (grown sb i (off + x.length) fs₁) i y (off + x.length)).map _
    rw [writei_accepted hopen hsize (by omega), except_map_map, hlen, ← Nat.add_assoc,
      writeLoop_grown ho₁ hm₁ hv₁ (by omega)]
    rw [writeLoop_fuel (show y.length ≤ x.length + y.length by omega) (Nat.le_refl _)]

theorem writei_beginOp (h : Opened sb fs i)
    (hoff : off ≤ (fs.inode i).size) (hend : off + src.length ≤ MAXFILE * BSIZE) :
    (writei sb fs i src off).map (·.2.unlogged) =
      (writei sb (beginOp fs) i src off).map (·.2.unlogged) := by
  rw [writei_accepted h hoff hend, writei_accepted h.unlogged hoff hend, except_map_map, except_map_map]
  exact unlogged_map (grown_unlogged _) (writeLoop_unlogged _ _ _)

/-- **The loop of `filepwrite`** does what one `writei` does. -/
theorem filepwriteLoop_writei (h : Opened sb fs i)
    (hfuel : src.length < fuel) (hoff : off ≤ (fs.inode i).size)
    (hend : off + src.length ≤ MAXFILE * BSIZE) :
    (filepwriteLoop sb i fuel off src fs).map (onVolume Volume.unlogged) =
      ((writei sb fs i src off).map (·.2.unlogged)).map fun v => (true, v) := by
  induction fuel generalizing off src fs with
  | zero => exact absurd hfuel (Nat.not_lt_zero _)
  | succ fuel ih =>
    rw [filepwriteLoop]
    by_cases h0 : src.length = 0
    · rw [if_pos h0, writei_accepted h hoff hend]
      obtain rfl := List.eq_nil_of_length_eq_zero h0
      have hg : grown sb i (off + 0) fs = fs := if_neg (by omega)
      exact congrArg (fun v => Except.ok (true, v.unlogged)) hg.symm
    rw [if_neg h0, fileChunk, h.ilock, writei_beginOp h hoff hend]
    obtain ⟨x, hx⟩ : ∃ x, x = src.take CHUNK := ⟨_, rfl⟩
    obtain ⟨y, hy⟩ : ∃ y, y = src.drop CHUNK := ⟨_, rfl⟩
    have hsrc : x ++ y = src := by rw [hx, hy, List.take_append_drop]
    have hlen : x.length + y.length = src.length := by rw [← hsrc, List.length_append]
    have hpos : 0 < x.length := by
      rw [hx, List.length_take]
      simp only [CHUNK, MAXOPBLOCKS]
      omega
    have hdrop : src.drop x.length = y := by rw [← hsrc, List.drop_left]
    have hmax : MAXFILE * BSIZE < 2 ^ 32 := by decide
    change (writei sb (beginOp fs) i (src.take CHUNK) off >>= _).map _ = _
    rw [← hx, writei_accepted h.unlogged hoff (by omega), except_bind_map]
    cases hw : writeLoop sb i x.length off x (beginOp fs) with
    | error e =>
      by_cases hy0 : y.length = 0
      · obtain rfl := List.eq_nil_of_length_eq_zero hy0
        rw [List.append_nil] at hsrc
        rw [← hsrc, writei_accepted h.unlogged hoff (by omega), hw]
        rfl
      · rw [← hsrc, writei_append h.unlogged hoff (by rw [hsrc]; exact hend) (by omega),
          writei_accepted h.unlogged hoff (by omega), hw]
        rfl
    | ok fs₁ =>
      obtain ⟨hopen, hsize⟩ := opened_grown (n := off + x.length) h.unlogged hw
      have hoff' : (if (0 : Int) < x.length then (off + (x.length : Int).toNat) % 2 ^ 32
          else off) = off + x.length := by
        rw [if_pos (by omega), Int.toNat_natCast, Nat.mod_eq_of_lt (by omega)]
      dsimp only [bind, Except.bind]
      rw [if_neg (by omega), if_neg (not_not_intro rfl), hoff', Int.toNat_natCast, hdrop,
        ih hopen (by omega) hsize (by omega)]
      by_cases hy0 : y.length = 0
      · obtain rfl := List.eq_nil_of_length_eq_zero hy0
        rw [List.append_nil] at hsrc
        have hg : grown sb i (off + x.length + 0) (grown sb i (off + x.length) fs₁) =
          grown sb i (off + x.length) fs₁ := if_neg (by omega)
        rw [← hsrc, writei_accepted h.unlogged hoff (by omega), hw,
          writei_accepted hopen hsize (by rw [List.length_nil]; omega)]
        exact congrArg (fun v => Except.ok (true, v.unlogged)) hg
      · rw [← hsrc, writei_append h.unlogged hoff (by rw [hsrc]; exact hend) (by omega),
          writei_accepted h.unlogged hoff (by omega), hw]
        rfl

/-- The two loops are in step: `f->off` is the offset that `filepwrite` keeps. -/
theorem filewriteLoop_eq (f : OpenFile) (fuel : Nat) (src : List UInt8) :
    (filewriteLoop sb fuel f src fs).map (fun p => (p.1, p.2.2)) =
      filepwriteLoop sb f.ip fuel f.off src fs := by
  induction fuel generalizing f src fs with
  | zero => rfl
  | succ fuel ih =>
    rw [filewriteLoop, filepwriteLoop]
    by_cases h0 : src.length = 0
    · rw [if_pos h0, if_pos h0]; rfl
    rw [if_neg h0, if_neg h0, except_map_bind]
    refine congrArg _ (funext fun p => ?_)
    dsimp only
    by_cases hr : p.1 < 0
    · rw [if_pos hr, if_pos hr]; rfl
    rw [if_neg hr, if_neg hr]
    split
    · rfl
    · rw [ih]
      split <;> rfl

end

/-- **`pwrite` and `pread` agree with `write` and `read`.**  `filepwrite` and `filepread` return
what `filewrite` and `fileread` return when `f->off` is `off`, leave the same volume, and leave the
file as it is.  On a regular file that is open, a write that fits from an offset in the file does
what one `writei` does. -/
theorem pwrite_agrees (sb : Superblock) (fs : Volume) (f : OpenFile) (off : Nat)
    (piperead : Nat → Except Stop (Option (List UInt8)))
    (pipewrite : List UInt8 → Except Stop Int) :
    (∀ src, filepwrite sb pipewrite fs f src off =
      (filewrite sb pipewrite fs { f with off } src).map fun p => (p.1, f, p.2.2)) ∧
    (∀ input n, filepread sb piperead fs input f n off =
      (fileread sb piperead fs input { f with off } n).map fun p => (p.1, f, p.2.2)) ∧
    ∀ src, f.type = .inode → f.writable = true → Opened sb fs f.ip → off ≤ (fs.inode f.ip).size →
      off + src.length ≤ MAXFILE * BSIZE →
      (filepwrite sb pipewrite fs f src off).map (fun p => (p.1, p.2.2.unlogged)) =
        (writei sb fs f.ip src off).map (onVolume Volume.unlogged) := by
  refine ⟨fun src => ?_, fun input n => ?_, fun src ht hw ho hoff hend => ?_⟩
  · rw [filepwrite, filewrite]
    by_cases hw : f.writable = false
    · rw [if_pos hw, if_pos hw]; rfl
    have h : (filewriteLoop sb (src.length + 1) { f with off } src fs).map _ =
      filepwriteLoop sb f.ip (src.length + 1) off src fs := filewriteLoop_eq _ _ _
    rw [if_neg hw, if_neg hw]
    dsimp only
    split
    · rw [except_map_bind]; rfl
    · rw [← h, except_bind_map, except_map_bind]; rfl
    · rfl
  · rw [filepread, fileread]
    by_cases hr : f.readable = false
    · rw [if_pos hr, if_pos hr]; rfl
    rw [if_neg hr, if_neg hr]
    dsimp only
    split
    · rw [except_map_bind]; rfl
    · rw [except_map_bind]
      refine congrArg _ (funext fun fs₁ => ?_)
      rw [except_map_bind]
      rfl
    · rfl
  · have hloop := filepwriteLoop_writei ho (Nat.lt_succ_self src.length) hoff hend
    have hval : (filepwrite sb pipewrite fs f src off).map (fun p => (p.1, p.2.2.unlogged)) =
        ((filepwriteLoop sb f.ip (src.length + 1) off src fs).map (onVolume Volume.unlogged)).map
          fun p => (if p.1 then (src.length : Int) else -1, p.2) := by
      rw [filepwrite, if_neg (by rw [hw]; decide), ht, except_map_map]
      dsimp only
      rw [except_map_bind]
      cases filepwriteLoop sb f.ip (src.length + 1) off src fs <;> rfl
    rw [hval, hloop, writei_accepted ho hoff hend]
    simp only [except_map_map]
    rfl

/-- The empty file, open; three bytes are written to it at its beginning. -/
theorem pwrite_agrees_empty :
    (filepwrite mkfsSb (fun _ => .error .hang) emptyFile ⟨.inode, 1, true, true, 1, 5⟩ [7, 8, 9]
      0).map (fun p => (p.1, p.2.2.unlogged)) =
      (writei mkfsSb emptyFile 1 [7, 8, 9] 0).map (onVolume Volume.unlogged) := by
  have hw := wellFormed_emptyFile
  have ho : Opened mkfsSb emptyFile 1 := ⟨hw.owned, hw.metaUsed, rfl, by decide, rfl⟩
  obtain ⟨-, -, h⟩ := pwrite_agrees mkfsSb emptyFile ⟨.inode, 1, true, true, 1, 5⟩ 0
    (fun _ => .error .hang) fun _ => .error .hang
  exact h [7, 8, 9] rfl rfl ho (Nat.zero_le _) (by decide)

end Xv6.Fs
