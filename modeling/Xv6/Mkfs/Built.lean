import Xv6.Fs.Dir
import Xv6.Mkfs.View

/-!
# Mkfs — what an image holds while it is written

An image under construction is sound (`Sound`): as a volume it is well formed, and a file has no
block beyond its size.  `ialloc` and `iappend` keep this, and say what they change (`Appended`).
With the root directory and the files of a list written, the image holds their bytes (`Built`).

* `iappend_ok`: an `iappend` that returns has appended the bytes.
* `addFiles_ok`, `addFiles_fault`: the loop over the files, when it returns and when it indexes
  beyond an array.
-/

namespace Xv6.Mkfs

open Support (bind_ok bind_error)
open Fs (mkfsSb Volume Owned MetaUsed WellFormed ROOTINO direntOf DIRENT)

section

variable {img img' : Image} {i : Nat}

/-! ### Writing an inode -/

/-- The inode `i` is written. -/
structure Put (img img' : Image) (i : Nat) (d : Dinode) : Prop where
  self : img'.dinode i = d
  other : ∀ j, j ≠ i → img'.dinode j = img.dinode j
  shown : img'.shown = img.shown
  sect : ∀ b, mkfsSb.bmapstart ≤ b → img'.sect b = img.sect b
  freeinode : img'.freeinode = img.freeinode
  freeblock : img'.freeblock = img.freeblock

theorem iblock_lt (h : i < INODES) : mkfsSb.iblock i < mkfsSb.bmapstart := by
  change i < 208 at h
  change i / 8 + 32 < 58
  omega

variable {d : Dinode} {fs' : Volume} {t n fuel : Nat} {p data : List UInt8} {files : List HostFile}

theorem winode_ok (hi : i < INODES) (hd : d.InRange)
    (h : winode img i d = .ok img') : Put img img' i d := by
  have hlt := iblock_lt hi
  obtain ⟨buf, hr, h⟩ := bind_ok.mp h
  rw [Image.rsect] at hr
  split at hr
  · cases hr
    cases h
    refine ⟨?_, fun j hj => ?_, shown_wsect_of_lt hlt, fun b hb => ?_, rfl, rfl⟩
    · rw [Image.dinode, sect_wsect_self, getDinode_putDinode_self _ _ hd]
    · -- another inode lies in another block, or elsewhere in this one
      rw [Image.dinode, Image.dinode]
      by_cases hb : mkfsSb.iblock j = mkfsSb.iblock i
      · have hne : j % IPB ≠ i % IPB := by
          intro he
          apply hj
          have hdiv : j / IPB = i / IPB := Nat.add_right_cancel hb
          rw [← Nat.div_add_mod j IPB, ← Nat.div_add_mod i IPB, hdiv, he]
        rw [hb, sect_wsect_self, getDinode_putDinode_of_ne _ _ hne]
      · rw [sect_wsect_of_ne _ hb]
    · exact sect_wsect_of_ne _ (Nat.lt_of_lt_of_le hlt hb).ne'
  · cases hr

theorem Put.fresh (h : Put img img' i d) (hf : Fresh img) : Fresh img' := by
  refine ⟨?_, ?_, fun b hb => ?_⟩
  · rw [h.freeblock]
    exact hf.le
  · rw [h.freeblock]
    exact hf.le_size
  · rw [h.freeblock] at hb
    rw [h.sect b (le_trans (by decide) (le_trans hf.le hb))]
    exact hf.zero b hb

/-! ### Sound images -/

/-- An inode that has never been written. -/
def zeroDinode : Dinode := ⟨0, 0, 0, 0, 0, fun _ => 0⟩

/-- **A sound image**: it is a well-formed volume; the bitmap is not written yet; the inodes not
taken are zero; and a file has no block beyond its size. -/
structure Sound (img : Image) : Prop where
  wf : WellFormed mkfsSb img.view
  fresh : Fresh img
  bits : ∀ b, mkfsSb.bmapstart ≤ b → b < mkfsSb.nmeta → img.sect b = fun _ => 0
  spare : ∀ i, img.freeinode ≤ i → i < INODES → img.dinode i = zeroDinode
  tight : ∀ i bn, img.view.Mapped i bn → bn * BSIZE < (img.view.current i).size

theorem current_view (img : Image) (i : Nat) : img.view.current i = img.volume.dinode i := rfl

theorem volume_dinode (hi : i < INODES) : img.volume.dinode i = (img.dinode i).read := if_pos hi

theorem volume_dinode_congr (h : img'.dinode i = img.dinode i) :
    img'.volume.dinode i = img.volume.dinode i := by
  change (if i < INODES then _ else _) = if i < INODES then _ else _
  rw [h]

theorem inRange_dinode (img : Image) (i : Nat) : (img.dinode i).InRange := inRange_getDinode _ _

theorem size_view (hi : i < INODES) : (img.view.current i).size = (img.dinode i).size := by
  rw [current_view, volume_dinode hi]
  rfl

theorem Sound.shows (hs : Sound img) (hi : i < INODES) : Shows i img (img.dinode i) img.view :=
  have hcur : img.view.current i = (img.dinode i).read := volume_dinode hi
  ⟨rfl, congrArg Fs.Dinode.addrs hcur, rfl, hs.fresh⟩

theorem content_of_same {fs : Volume} (hd : fs'.disk = fs.disk)
    (ha : ∀ j, (fs'.current j).addrs = (fs.current j).addrs)
    (hs : (fs'.current i).size = (fs.current i).size) : fs'.content i = fs.content i := by
  rw [Volume.content, Volume.content, hs]
  exact List.map_congr_left fun o _ => Fs.byteAt_congr (Fs.forest_congr ha hd) hd i o

/-! ### `ialloc` -/

theorem ialloc_ok {inum : Nat} (hs : Sound img) (hlt : img.freeinode < INODES) (ht : t < 2 ^ 16)
    (h : ialloc img t = .ok (inum, img')) :
    inum = img.freeinode ∧ Sound img' ∧ img'.freeinode = img.freeinode + 1 ∧
      img'.dinode inum = newDinode t ∧ (∀ j, j ≠ inum → img'.dinode j = img.dinode j) ∧
      img'.view.content inum = [] ∧ ∀ j, img'.view.content j = img.view.content j := by
  obtain ⟨img₁, hw, h⟩ := bind_ok.mp h
  cases h
  have h16 : 0 < 2 ^ 16 := by decide
  have h32 : 0 < 2 ^ 32 := by decide
  have hrange : (newDinode t).InRange := ⟨ht, h16, h16, (by decide : 1 < 2 ^ 16), h32, fun _ => h32⟩
  have hp := winode_ok hlt hrange hw
  have hspare := hs.spare img.freeinode le_rfl hlt
  have hother (j : Nat) (hj : j ≠ img.freeinode) : img'.dinode j = img.dinode j := hp.other j hj
  have hdisk : img'.view.disk = img.view.disk := hp.shown
  -- the inode that is taken had no block, and has none
  have hself : img'.view.current img.freeinode = (newDinode t).read := by
    rw [current_view, volume_dinode hlt, hp.self]
  have hself₀ : img.view.current img.freeinode = zeroDinode.read := by
    rw [current_view, volume_dinode hlt, hspare]
  have hcur (j : Nat) (hj : j ≠ img.freeinode) : img'.view.current j = img.view.current j :=
    volume_dinode_congr (hother j hj)
  have ha (j : Nat) : (img'.view.current j).addrs = (img.view.current j).addrs := by
    by_cases hj : j = img.freeinode
    · rw [hj, hself, hself₀]
      rfl
    · rw [hcur j hj]
  have hsize (j : Nat) : (img'.view.current j).size = (img.view.current j).size := by
    by_cases hj : j = img.freeinode
    · rw [hj, hself, hself₀]
      rfl
    · rw [hcur j hj]
  have hcontent (j : Nat) : img'.view.content j = img.view.content j :=
    content_of_same hdisk ha (hsize j)
  have hfresh : Fresh { img with freeinode := img.freeinode + 1 } :=
    ⟨hs.fresh.le, hs.fresh.le_size, hs.fresh.zero⟩
  refine ⟨rfl, ⟨hs.wf.same hdisk ha hsize, hp.fresh hfresh, fun b hb hlt => ?_,
    fun j hj hlt => ?_, fun j bn hj => ?_⟩, hp.freeinode, hp.self, hother, ?_, hcontent⟩
  · rw [hp.sect b hb]
    exact hs.bits b hb hlt
  · rw [hp.freeinode] at hj
    change img.freeinode + 1 ≤ j at hj
    rw [hother j (by omega)]
    exact hs.spare j (Nat.le_of_succ_le hj) hlt
  · rw [hsize]
    exact hs.tight j bn ((Fs.mapped_congr (Fs.forest_congr ha hdisk) j bn).mp hj)
  · refine List.eq_nil_of_length_eq_zero ?_
    rw [Fs.length_content, hself]
    rfl

/-! ### `iappend` -/

/-- **The bytes `p` are appended to inode `i`**, and nothing else is changed. -/
structure Appended (img img' : Image) (i : Nat) (p : List UInt8) : Prop where
  sound : Sound img'
  freeinode : img'.freeinode = img.freeinode
  reach : p ≠ [] → (img.dinode i).size + p.length ≤ REACH * BSIZE
  self : img'.view.content i = img.view.content i ++ p
  other : ∀ j, j ≠ i → img'.view.content j = img.view.content j
  inode : img'.dinode i =
    { img.dinode i with addrs := (img'.dinode i).addrs, size := (img'.dinode i).size }
  rest : ∀ j < INODES, j ≠ i → img'.dinode j = img.dinode j

theorem Appended.refl (hs : Sound img) (i : Nat) : Appended img img i [] :=
  ⟨hs, rfl, fun h => absurd rfl h, (List.append_nil _).symm, fun _ _ => rfl, rfl, fun _ _ _ => rfl⟩

theorem size_of_content (hi : i < INODES) : (img.dinode i).size = (img.view.content i).length := by
  rw [Fs.length_content, size_view hi]

theorem Appended.trans {img₂ : Image} {p' : List UInt8} (hi : i < INODES)
    (h : Appended img img' i p) (h' : Appended img' img₂ i p') : Appended img img₂ i (p ++ p') := by
  refine ⟨h'.sound, h'.freeinode.trans h.freeinode, fun hne => ?_, ?_, fun j hj => ?_,
    ?_, fun j hj hne => ?_⟩
  · by_cases hp' : p' = []
    · subst hp'
      rw [List.append_nil] at hne ⊢
      exact h.reach hne
    · have := h'.reach hp'
      rw [size_of_content hi, h.self, List.length_append, ← size_of_content hi] at this
      rw [List.length_append]
      omega
  · rw [h'.self, h.self, List.append_assoc]
  · rw [h'.other j hj, h.other j hj]
  · rw [h'.inode, h.inode]
  · rw [h'.rest j hj hne, h.rest j hj hne]

theorem length_placeOf {bn : Nat} {q : Fs.Place} (h : Fs.placeOf i bn = some q) :
    q.2.length = Fs.rootDepth q.1.2 := by
  obtain ⟨⟨r, xs⟩, hpath, rfl⟩ := Option.map_eq_some_iff.mp h
  rw [List.length_reverse]
  exact Fs.bmapPath_length hpath

/-- A leaf of the tree is filled only where bytes were written. -/
theorem leaf_of_edits {fs : Volume} {N D : List Fs.Place} {off j bn : Nat}
    (e : Fs.Edits mkfsSb fs fs' N D) (ho : Owned mkfsSb fs) (hm : MetaUsed mkfsSb fs)
    (hs : Fs.Spans i off n N D) (hend : off + n ≤ REACH * BSIZE) (hmap : fs'.Mapped j bn) :
    fs.Mapped j bn ∨ j = i ∧ bn * BSIZE < off + n := by
  obtain ⟨q, hq, hv, hne⟩ := hmap
  obtain ⟨-, hmem, hkeep⟩ := e.get ho hm
  by_cases hin : q ∈ N
  · right
    obtain ⟨p, hp, hroot, hsuf⟩ := hs.above q hin
    obtain ⟨o, hle, hlt, hpo⟩ := (hs.data p).mp hp
    -- both are leaves under one root, so their paths are equally long
    have hlen : q.2.length = p.2.length := by
      have h₁ := length_placeOf hq
      have h₂ := length_placeOf hpo
      rw [h₁, h₂, hroot]
    have hpq : q = p := Prod.ext hroot (hsuf.eq_of_length hlen)
    have hbn : o / BSIZE < Fs.DOUBLE := by
      change o / 512 < 10 + 128 + 128 * 128
      change off + n ≤ 138 * 512 at hend
      omega
    obtain ⟨rfl, rfl⟩ := Fs.placeOf_inj hbn hpo (hpq ▸ hq)
    exact ⟨rfl, Nat.lt_of_le_of_lt (Nat.div_mul_le_self o BSIZE) hlt⟩
  · left
    refine ⟨q, hq, hv, ?_⟩
    rwa [← hkeep q hv hin]

theorem rinode_ok (h : rinode img i = .ok d) : d = img.dinode i := by
  obtain ⟨buf, hr, h⟩ := bind_ok.mp h
  rw [Image.rsect] at hr
  split at hr
  · cases hr
    cases h
    rfl
  · cases hr

/-- The inode that `iappend` writes fits its fields. -/
theorem inRange_append {din din' : Dinode} (hin : din.InRange)
    (hs : Shows i img din' fs') (ho : Owned mkfsSb fs')
    (hdin : din' = { din with addrs := din'.addrs }) (hn : n < 2 ^ 32) :
    ({ din' with size := n } : Dinode).InRange := by
  rw [hdin]
  refine ⟨hin.type, hin.major, hin.minor, hin.nlink, hn, fun r => ?_⟩
  have hget : fs'.forest.get ((i, r), []) = din'.addrs r := by
    rw [Support.Forest.get_nil, ← hs.addrs]
    exact congrArg (fun d => Fs.Dinode.addrs d r) (Fs.current_of_valid hs.valid)
  by_cases h0 : din'.addrs r = 0
  · change din'.addrs r < 2 ^ 32
    rw [h0]
    decide
  · have := (ho.data _ (Support.Forest.valid_nil _ _) (hget ▸ h0)).2.1
    rw [hget] at this
    exact Nat.lt_trans this (by decide)

theorem dinode_of_low (h : ∀ b < mkfsSb.nmeta, img'.sect b = img.sect b) (hi : i < INODES) :
    img'.dinode i = img.dinode i := by
  rw [Image.dinode, Image.dinode, h _ (Nat.lt_trans (iblock_lt hi) (by decide))]

/-- With the inode written, the image shows what the loop of `writei` left, but for the size. -/
theorem view_of_put {img₁ : Image} {din' : Dinode} (hi : i < INODES)
    (hs : Shows i img₁ din' fs') (hf : Frame i img (img.dinode i) img.view img₁ din' fs')
    (hp : Put img₁ img' i { din' with size := n }) :
    img'.view.disk = fs'.disk ∧ (∀ j, (img'.view.current j).addrs = (fs'.current j).addrs) ∧
      ∀ j, (img'.view.current j).size = if j = i then n else (img.view.current j).size := by
  have hself : img'.view.current i = ({ din' with size := n } : Dinode).read := by
    rw [current_view, volume_dinode hi, hp.self]
  have hother (j : Nat) (hj : j ≠ i) : img'.view.current j = img.view.current j := by
    by_cases hjn : j < INODES
    · exact volume_dinode_congr ((hp.other j hj).trans (dinode_of_low hf.low hjn))
    · rw [current_view, current_view]
      exact (if_neg hjn).trans (if_neg hjn).symm
  refine ⟨?_, fun j => ?_, fun j => ?_⟩
  · rw [hs.disk]
    exact hp.shown
  · by_cases hj : j = i
    · rw [hj, hself, Fs.current_of_valid hs.valid]
      exact hs.addrs.symm
    · rw [hother j hj, Volume.current, Volume.current, hf.inode j hj, hf.dinode]
  · by_cases hj : j = i
    · rw [if_pos hj, hj, hself]
      rfl
    · rw [if_neg hj, hother j hj]

/-- **An `iappend` that returns has appended the bytes.** -/
theorem iappend_ok (hs : Sound img) (hi : i < INODES) (hlt : i < img.freeinode)
    (hp : p ≠ []) (h : iappend img i p = .ok img') : Appended img img' i p := by
  obtain ⟨din, hr, h⟩ := bind_ok.mp h
  obtain rfl := rinode_ok hr
  obtain ⟨⟨off', din', img₁⟩, hloop, hput⟩ := bind_ok.mp h
  have ho := hs.wf.owned
  have hm := hs.wf.metaUsed
  -- the loop, on the image and on its view
  obtain ⟨rfl, hreach, fs', hw, hshow', hframe⟩ := iappendLoop_sim (hs.shows hi) ho hm le_rfl hloop
  have hend := hreach hp
  have hdouble : (img.dinode i).size + p.length ≤ Fs.DOUBLE * BSIZE := le_trans hend (by decide)
  have hn : (img.dinode i).size + p.length < 2 ^ 32 := Nat.lt_of_le_of_lt hend (by decide)
  obtain ⟨N, D, e, hsp⟩ := Fs.writeLoop_spec ho hm rfl le_rfl hw
  obtain ⟨ho', hm'⟩ := e.owned ho hm
  have hput := winode_ok hi (inRange_append (inRange_dinode img i) hshow' ho' hframe.din hn) hput
  obtain ⟨hdisk, ha, hsize⟩ := view_of_put hi hshow' hframe hput
  have hsize₀ : (img.view.current i).size = (img.dinode i).size := size_view hi
  have hmax : (img.dinode i).size + p.length =
      max (img.view.current i).size ((img.dinode i).size + p.length) := by omega
  have hsize' := hsize
  rw [hmax] at hsize'
  have hforest := Fs.forest_congr ha hdisk
  have hmapped (j bn : Nat) := Fs.mapped_congr hforest j bn
  have hwrote : Fs.Wrote img.view img'.view i (img.dinode i).size p :=
    (Fs.writeLoop_wrote ho hm rfl le_rfl hdouble hw).congr hforest hdisk
  have howned : Owned mkfsSb img'.view := ho'.congr (fun q _ => by rw [hforest]) fun c _ => by
    rw [Volume.used, Volume.used, hdisk]
  have hmeta : MetaUsed mkfsSb img'.view := fun b hb hbs => by
    rw [Volume.used, hdisk]
    exact hm' b hb hbs
  obtain ⟨hcontent, hothers⟩ := Fs.content_of_wrote hs.wf hwrote hsize₀.ge hsize'
  refine ⟨⟨hs.wf.wrote hwrote howned hmeta hsize₀.ge hdouble hsize', hput.fresh hshow'.fresh,
    fun b hb hb' => ?_, fun j hj hjn => ?_, fun j bn hj => ?_⟩, ?_, fun _ => hend, ?_, hothers,
    ?_, fun j hjn hj => ?_⟩
  · rw [hput.sect b hb, hframe.low b hb']
    exact hs.bits b hb hb'
  · rw [hput.freeinode, hframe.freeinode] at hj
    rw [hput.other j (Nat.lt_of_lt_of_le hlt hj).ne', dinode_of_low hframe.low hjn]
    exact hs.spare j hj hjn
  · rw [hsize]
    rcases leaf_of_edits e ho hm hsp hend ((hmapped j bn).mp hj) with h | ⟨rfl, h⟩
    · have := hs.tight j bn h
      split
      · rename_i hji
        rw [hji] at this
        omega
      · exact this
    · rwa [if_pos rfl]
  · rw [hput.freeinode, hframe.freeinode]
  · have hlen : (img.view.content i).length = (img.dinode i).size := by
      rw [Fs.length_content, hsize₀]
    rw [hcontent, ← hlen, List.take_length, List.drop_eq_nil_of_le (Nat.le_add_right _ _),
      List.append_nil]
  · rw [hput.self, hframe.din]
  · rw [hput.other j hj, dinode_of_low hframe.low hjn]

/-- An `iappend` indexes beyond the array only where a file ends beyond its reach. -/
theorem iappendLoop_fault {off : Nat} {din : Dinode}
    (h : iappendLoop fuel off p din img = .error .fault) : REACH * BSIZE < off + p.length := by
  induction fuel generalizing off p din img with
  | zero => cases h
  | succ fuel ih =>
    rw [iappendLoop] at h
    split at h
    · cases h
    rename_i hp
    split at h
    · cases h
    rcases bind_error.mp h with hb | ⟨⟨x, din₁, img₁⟩, -, h⟩
    · -- the index is beyond the array
      rw [fileBlock] at hb
      split at hb
      · cases hb
      rename_i hfbn
      rcases bind_error.mp hb with ht | ⟨_, -, ht⟩
      · rw [takeIndirect] at ht
        rcases bind_error.mp ht with hr | ⟨_, -, ht⟩
        · rw [Image.rsect] at hr
          split at hr <;> cases hr
        split at ht
        · rename_i hx
          change 128 ≤ off / 512 - 10 at hx
          change 138 * 512 < off + p.length
          omega
        · split at ht <;> cases ht
      · cases ht
    · rcases bind_error.mp h with hr | ⟨_, -, h⟩
      · rw [Image.rsect] at hr
        split at hr <;> cases hr
      · have := ih h
        rw [List.length_drop] at this
        omega

theorem winode_fault : winode img i d ≠ .error .fault := by
  intro h
  rcases bind_error.mp h with hr | ⟨_, -, h⟩
  · rw [Image.rsect] at hr
    split at hr <;> cases hr
  · cases h

theorem rinode_fault : rinode img i ≠ .error .fault := by
  intro h
  rcases bind_error.mp h with hr | ⟨_, -, h⟩
  · rw [Image.rsect] at hr
    split at hr <;> cases hr
  · cases h

theorem iappend_fault (h : iappend img i p = .error .fault) :
    REACH * BSIZE < (img.dinode i).size + p.length := by
  rcases bind_error.mp h with hr | ⟨din, hr, h⟩
  · exact absurd hr rinode_fault
  · obtain rfl := rinode_ok hr
    rcases bind_error.mp h with hl | ⟨_, -, hw⟩
    · exact iappendLoop_fault hl
    · exact absurd hw winode_fault

/-! ### Copying a file -/

theorem chunk_ne_nil (h : data.length ≠ 0) : data.take BSIZE ≠ [] := by
  intro he
  have := congrArg List.length he
  rw [List.length_take, List.length_nil] at this
  change min 512 _ = 0 at this
  omega

theorem copyLoop_ok (hs : Sound img) (hi : i < INODES)
    (hlt : i < img.freeinode) (hfuel : data.length ≤ fuel)
    (h : copyLoop i fuel data img = .ok img') : Appended img img' i data := by
  induction fuel generalizing data img with
  | zero =>
    obtain rfl := List.eq_nil_of_length_eq_zero (Nat.le_zero.mp hfuel)
    cases h
    exact .refl hs i
  | succ fuel ih =>
    rw [copyLoop] at h
    split at h
    · rename_i hd
      obtain rfl := List.eq_nil_of_length_eq_zero hd
      cases h
      exact .refl hs i
    · rename_i hd
      obtain ⟨img₁, hap, h⟩ := bind_ok.mp h
      have h₁ := iappend_ok hs hi hlt (chunk_ne_nil hd) hap
      have hlen : (data.drop BSIZE).length ≤ fuel := by
        rw [List.length_drop]
        change _ - 512 ≤ fuel
        omega
      have h₂ := ih h₁.sound (h₁.freeinode ▸ hlt) hlen h
      have := h₁.trans hi h₂
      rwa [List.take_append_drop] at this

theorem copyLoop_fault (hs : Sound img) (hi : i < INODES)
    (hlt : i < img.freeinode) (h : copyLoop i fuel data img = .error .fault) :
    REACH * BSIZE < (img.dinode i).size + data.length := by
  induction fuel generalizing data img with
  | zero => cases h
  | succ fuel ih =>
    rw [copyLoop] at h
    split at h
    · cases h
    rename_i hd
    rcases bind_error.mp h with hap | ⟨img₁, hap, h⟩
    · have := iappend_fault hap
      rw [List.length_take] at this
      omega
    have h₁ := iappend_ok hs hi hlt (chunk_ne_nil hd) hap
    have := ih h₁.sound (h₁.freeinode ▸ hlt) h
    rw [size_of_content hi, h₁.self, List.length_append, ← size_of_content hi,
      List.length_take, List.length_drop] at this
    omega

/-! ### The root directory and the files -/

/-- The entries of the root directory. -/
def rootEntries (files : List HostFile) : List (List UInt8) :=
  direntOf [46] ROOTINO :: direntOf [46, 46] ROOTINO ::
    files.mapIdx fun k f => direntOf f.fsName (k + 2)

theorem rootEntries_concat (files : List HostFile) (f : HostFile) :
    rootEntries (files ++ [f]) = rootEntries files ++ [direntOf f.fsName (files.length + 2)] := by
  rw [rootEntries, List.mapIdx_concat]
  rfl

theorem length_direntOf (name : List UInt8) (inum : Nat) : (direntOf name inum).length = DIRENT := by
  rw [direntOf, List.length_cons, List.length_cons, Fs.length_strncpy]

theorem direntOf_ne_nil (name : List UInt8) (inum : Nat) : direntOf name inum ≠ [] :=
  List.cons_ne_nil _ _

theorem length_of_mem_rootEntries {de : List UInt8}
    (h : de ∈ rootEntries files) : de.length = DIRENT := by
  rcases List.mem_cons.mp h with rfl | h
  · exact length_direntOf _ _
  · rcases List.mem_cons.mp h with rfl | h
    · exact length_direntOf _ _
    · obtain ⟨k, hk, rfl⟩ := List.mem_mapIdx.mp h
      exact length_direntOf _ _

/-- An inode that `mkfs` has made, of the given type. -/
def Made (img : Image) (i t : Nat) : Prop :=
  img.dinode i = { newDinode t with addrs := (img.dinode i).addrs, size := (img.dinode i).size }

theorem Made.appended {j : Nat} (h : Made img j t) (hj : j < INODES)
    (ha : Appended img img' i p) : Made img' j t := by
  by_cases hji : j = i
  · subst hji
    rw [Made, ha.inode, h]
  · rw [Made, ha.rest j hj hji]
    exact h

theorem Made.congr (h : Made img i t) (hd : img'.dinode i = img.dinode i) : Made img' i t := by
  rw [Made, hd]
  exact h

/-- **The image with the files of the list.** -/
structure Built (files : List HostFile) (img : Image) : Prop where
  sound : Sound img
  freeinode : img.freeinode = files.length + 2
  /-- inode 0 is not used -/
  zero : img.dinode 0 = zeroDinode
  root : img.view.content ROOTINO = (rootEntries files).flatten
  rootMade : Made img ROOTINO T_DIR
  data : ∀ k (h : k < files.length), img.view.content (k + 2) = files[k].data
  dataMade : ∀ k < files.length, Made img (k + 2) T_FILE
  reach : ∀ f ∈ files, f.data.length ≤ REACH * BSIZE

theorem length_rootBytes (files : List HostFile) :
    (rootEntries files).flatten.length = DIRENT * (files.length + 2) := by
  have h : (rootEntries files).map List.length = List.replicate (files.length + 2) DIRENT := by
    refine List.eq_replicate_iff.mpr ⟨?_, fun n hn => ?_⟩
    · simp [rootEntries]
    · obtain ⟨de, hde, rfl⟩ := List.mem_map.mp hn
      exact length_of_mem_rootEntries hde
  rw [List.length_flatten, h, List.sum_replicate_nat, Nat.mul_comm]

section

variable (hb : Built files img)
include hb

theorem addFile_ok {f : HostFile} (hn : files.length + 2 < INODES) (h : addFile img f = .ok img') :
    Built (files ++ [f]) img' := by
  rw [addFile] at h
  split at h
  · cases h
  obtain ⟨⟨inum, img₁⟩, hal, h⟩ := bind_ok.mp h
  obtain ⟨img₂, hroot, hcopy⟩ := bind_ok.mp h
  obtain ⟨rfl, hs₁, hfree₁, hnew, hold, hnil, hcont⟩ :=
    ialloc_ok hb.sound (hb.freeinode ▸ hn) (by decide) hal
  have h₂ := iappend_ok hs₁ (by decide)
    (by rw [hfree₁, hb.freeinode]; exact Nat.succ_lt_succ (Nat.succ_pos _))
    (direntOf_ne_nil _ _) hroot
  have hlt : img.freeinode < img₂.freeinode := by
    rw [h₂.freeinode, hfree₁]
    exact Nat.lt_succ_self _
  have hin : img.freeinode < INODES := hb.freeinode ▸ hn
  have h₃ := copyLoop_ok h₂.sound hin hlt le_rfl hcopy
  rw [hb.freeinode] at hnew hold hnil h₂ h₃ hfree₁
  have hne : files.length + 2 ≠ ROOTINO := by
    change _ ≠ 1
    omega
  have hkeep (j : Nat) (h₁ : j ≠ ROOTINO) (h₂' : j ≠ files.length + 2) :
      img'.view.content j = img.view.content j := by
    rw [h₃.other j h₂', h₂.other j h₁, hcont]
  have hmade (j t : Nat) (hj : j < INODES) (hjn : j ≠ files.length + 2) (hm : Made img j t) :
      Made img' j t := ((hm.congr (hold j hjn)).appended hj h₂).appended hj h₃
  have hself : img'.view.content (files.length + 2) = f.data := by
    rw [h₃.self, h₂.other _ hne, hnil, List.nil_append]
  refine ⟨h₃.sound, ?_, ?_, ?_, hmade _ _ (by decide) hne.symm hb.rootMade, fun k hk => ?_,
    fun k hk => ?_, fun g hg => ?_⟩
  · rw [h₃.freeinode, h₂.freeinode, hfree₁, List.length_append]
    rfl
  · rw [h₃.rest 0 (by decide) (by omega), h₂.rest 0 (by decide) (by decide), hold 0 (by omega),
      hb.zero]
  · rw [h₃.other _ hne.symm, h₂.self, hcont, hb.root, rootEntries_concat, List.flatten_append,
      List.flatten_singleton]
  · rw [List.length_append] at hk
    by_cases hlast : k = files.length
    · subst hlast
      rw [hself, List.getElem_concat_length rfl]
    · have hk' : k < files.length := Nat.lt_of_le_of_ne (Nat.lt_succ_iff.mp hk) hlast
      rw [hkeep (k + 2) (by change _ ≠ 1; omega) (by omega), hb.data k hk',
        List.getElem_append_left hk']
  · rw [List.length_append] at hk
    by_cases hlast : k = files.length
    · subst hlast
      refine Made.appended (Made.appended ?_ hn h₂) hn h₃
      rw [Made, hnew]
    · have hk' : k < files.length := Nat.lt_of_le_of_ne (Nat.lt_succ_iff.mp hk) hlast
      exact hmade _ _ (Nat.lt_trans (Nat.add_lt_add_right hk' 2) hn) (by omega) (hb.dataMade k hk')
  · rcases List.mem_append.mp hg with hg | hg
    · exact hb.reach g hg
    obtain rfl := List.mem_singleton.mp hg
    by_cases hd : g.data = []
    · rw [hd]
      exact Nat.zero_le _
    · exact le_trans (Nat.le_add_left _ _) (h₃.reach hd)

/-- **The loop over the files.** -/
theorem addFiles_ok {rest : List HostFile}
    (hn : files.length + rest.length + 2 ≤ INODES) (h : rest.foldlM addFile img = .ok img') :
    Built (files ++ rest) img' := by
  induction rest generalizing files img with
  | nil =>
    cases h
    rwa [List.append_nil]
  | cons f rest ih =>
    rw [List.foldlM_cons] at h
    obtain ⟨img₁, hf, h⟩ := bind_ok.mp h
    rw [List.length_cons] at hn
    have h₁ := addFile_ok hb (by omega) hf
    have := ih h₁ (by rw [List.length_append, List.length_singleton]; omega) h
    rwa [List.append_assoc] at this

theorem addFile_fault {f : HostFile}
    (hn : files.length + 2 < INODES) (h : addFile img f = .error .fault) :
    REACH * BSIZE < f.data.length := by
  rw [addFile] at h
  split at h
  · cases h
  rcases bind_error.mp h with hal | ⟨⟨inum, img₁⟩, hal, h⟩
  · rcases bind_error.mp hal with hw | ⟨_, -, hw⟩
    · exact absurd hw winode_fault
    · cases hw
  obtain ⟨rfl, hs₁, hfree₁, hnew, hold, hnil, hcont⟩ :=
    ialloc_ok hb.sound (hb.freeinode ▸ hn) (by decide) hal
  have hin : img.freeinode < INODES := hb.freeinode ▸ hn
  rcases bind_error.mp h with hroot | ⟨img₂, hroot, hcopy⟩
  · -- the root directory never gets that long
    have := iappend_fault hroot
    rw [size_of_content (by decide), hcont, hb.root, length_rootBytes, length_direntOf] at this
    change 138 * 512 < 16 * (files.length + 2) + 16 at this
    change files.length + 2 < 208 at hn
    omega
  · have h₂ := iappend_ok hs₁ (by decide)
      (by rw [hfree₁, hb.freeinode]; exact Nat.succ_lt_succ (Nat.succ_pos _))
      (direntOf_ne_nil _ _) hroot
    have hlt : img.freeinode < img₂.freeinode := by
      rw [h₂.freeinode, hfree₁]
      exact Nat.lt_succ_self _
    have hne : img.freeinode ≠ ROOTINO := by
      rw [hb.freeinode]
      change _ ≠ 1
      omega
    have := copyLoop_fault h₂.sound hin hlt hcopy
    rwa [size_of_content hin, h₂.other _ hne, hnil, List.length_nil, Nat.zero_add] at this

theorem addFiles_fault {rest : List HostFile}
    (hn : files.length + rest.length + 2 ≤ INODES) (h : rest.foldlM addFile img = .error .fault) :
    ∃ f ∈ rest, REACH * BSIZE < f.data.length := by
  induction rest generalizing files img with
  | nil => cases h
  | cons f rest ih =>
    rw [List.foldlM_cons] at h
    rw [List.length_cons] at hn
    rcases bind_error.mp h with hf | ⟨img₁, hf, h⟩
    · exact ⟨f, List.mem_cons_self, addFile_fault hb (by omega) hf⟩
    · have h₁ := addFile_ok hb (by omega) hf
      obtain ⟨g, hg, hlen⟩ := ih h₁ (by rw [List.length_append, List.length_singleton]; omega) h
      exact ⟨g, List.mem_cons_of_mem f hg, hlen⟩

end

/-! ### The empty image -/

theorem blank_sect {b : Nat} (hb : b ≠ 1) : blank.sect b = fun _ => 0 := by
  have h : blank.sect = Function.update (fun _ _ => 0) 1 (Support.ofWords (superWords.getD · 0)) := rfl
  rw [h, Function.update_of_ne hb]

theorem blank_dinode (i : Nat) : blank.dinode i = zeroDinode := by
  have hne : mkfsSb.iblock i ≠ 1 := by
    change i / 8 + 32 ≠ 1
    omega
  rw [Image.dinode, blank_sect hne]
  simp only [getDinode, Support.getWord_zero]
  rfl

theorem blank_current (i : Nat) : (blank.view.current i).addrs = (fun _ => 0) ∧
    (blank.view.current i).size = 0 := by
  rw [current_view]
  by_cases hi : i < INODES
  · rw [volume_dinode hi, blank_dinode]
    exact ⟨rfl, rfl⟩
  · have : blank.volume.dinode i = ⟨.free, 0, 0, 0, 0, fun _ => 0⟩ := if_neg hi
    rw [this]
    exact ⟨rfl, rfl⟩

theorem blank_get (q : Fs.Place) : blank.view.forest.get q = 0 := by
  obtain ⟨r, p⟩ := q
  induction p with
  | nil =>
    rw [Support.Forest.get_nil]
    exact congrFun (blank_current r.1).1 r.2
  | cons x p ih => rw [Support.Forest.get_cons, if_pos ih]

theorem sound_blank : Sound blank := by
  have hused (b : Nat) (hb : b < FSSIZE) :
      blank.view.used mkfsSb b = decide (b < blank.freeblock) :=
    used_of_shown (show blank.view.disk = blank.shown from rfl) hb
  refine ⟨⟨⟨fun p q _ _ hne _ => absurd (blank_get p) hne, fun q _ hne => absurd (blank_get q) hne,
    fun b hle hlt hu => ?_⟩, fun b hb hlt => ?_, fun i bn hlt => ?_, fun i => ?_⟩,
    ⟨le_rfl, by decide, fun b hb => ?_⟩, fun b hb _ => ?_, fun i _ _ => blank_dinode i,
    fun i bn hmap => ?_⟩
  · rw [hused b hlt] at hu
    exact absurd (of_decide_eq_true hu) (Nat.not_lt.mpr hle)
  · rw [hused b hlt]
    exact decide_eq_true hb
  · rw [(blank_current i).2] at hlt
    exact absurd hlt (Nat.not_lt_zero _)
  · rw [(blank_current i).2]
    decide
  · exact blank_sect (Nat.lt_of_lt_of_le (by decide : 1 < mkfsSb.nmeta) hb).ne'
  · exact blank_sect (Nat.lt_of_lt_of_le (by decide : 1 < mkfsSb.bmapstart) hb).ne'
  · obtain ⟨q, -, -, hne⟩ := hmap
    exact absurd (blank_get q) hne

theorem makeRoot_ok (h : makeRoot blank = .ok img) : Built [] img := by
  obtain ⟨⟨inum, img₁⟩, hal, h⟩ := bind_ok.mp h
  obtain ⟨rfl, hs₁, hfree₁, hnew, hold, hnil, -⟩ :=
    ialloc_ok sound_blank (by decide) (by decide) hal
  dsimp only at h
  rw [if_neg (show ¬ blank.freeinode ≠ ROOTINO from not_not.mpr rfl)] at h
  obtain ⟨img₂, hdot, hdots⟩ := bind_ok.mp h
  have hi : blank.freeinode < INODES := by decide
  have h₁ := iappend_ok hs₁ hi (by rw [hfree₁]; decide) (direntOf_ne_nil _ _) hdot
  have h₂ := iappend_ok h₁.sound hi (by rw [h₁.freeinode, hfree₁]; decide) (direntOf_ne_nil _ _)
    hdots
  refine ⟨h₂.sound, ?_, ?_, ?_, Made.appended (Made.appended ?_ hi h₁) hi h₂,
    fun k hk => absurd hk (Nat.not_lt_zero _), fun k hk => absurd hk (Nat.not_lt_zero _),
    List.forall_mem_nil _⟩
  · rw [h₂.freeinode, h₁.freeinode, hfree₁]
    rfl
  · rw [h₂.rest 0 (by decide) (by decide), h₁.rest 0 (by decide) (by decide), hold 0 (by decide),
      blank_dinode]
  · change img.view.content blank.freeinode = _
    rw [h₂.self, h₁.self, hnil]
    rfl
  · have hroot : img₁.dinode ROOTINO = newDinode T_DIR := hnew
    rw [Made, hroot]

theorem makeRoot_fault : makeRoot blank ≠ .error .fault := by
  intro h
  rcases bind_error.mp h with hal | ⟨⟨inum, img₁⟩, hal, h⟩
  · rcases bind_error.mp hal with hw | ⟨_, -, hw⟩
    · exact absurd hw winode_fault
    · cases hw
  obtain ⟨rfl, hs₁, hfree₁, hnew, -, hnil, -⟩ := ialloc_ok sound_blank (by decide) (by decide) hal
  dsimp only at h
  rw [if_neg (show ¬ blank.freeinode ≠ ROOTINO from not_not.mpr rfl)] at h
  have hi : blank.freeinode < INODES := by decide
  rcases bind_error.mp h with hdot | ⟨img₂, hdot, hdots⟩
  · have := iappend_fault hdot
    rw [size_of_content hi, hnil, length_direntOf] at this
    exact absurd this (by decide)
  have h₁ := iappend_ok hs₁ hi (by rw [hfree₁]; decide) (direntOf_ne_nil _ _) hdot
  have := iappend_fault hdots
  rw [size_of_content hi, h₁.self, hnil, List.nil_append, length_direntOf, length_direntOf] at this
  exact absurd this (by decide)

end

end Xv6.Mkfs
