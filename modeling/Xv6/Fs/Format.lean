import Xv6.Mkfs.Layout
import Xv6.Fs.TableProofs
import Xv6.Fs.Names

/-! File systems laid out block by block.

`blank` is a disk without inodes, `putFile` adds an empty file, and `putData` and `putDir` a file
and a directory that fit in one block. Each adds one inode to what is there and keeps the file system well
formed, so that the disks the examples need are described by what is on them. -/
namespace Xv6.Fs
open Lib Function List

variable {sb : Superblock} {v : View} {i b : Nat} {d : Dinode} {x : Block}

/-! ### A disk without inodes -/

/-- A bitmap block with the first `n` bits set. -/
def bitmap (n : Nat) : Block := Bytes.ofFn fun k => BitVec.ofNat 8 (2 ^ min 8 (n - 8 * k) - 1)

theorem bit_bitmap (hc : c < BPB) : (bitmap n).bit c = decide (c < n) := by
  have hk : c / 8 < BSIZE := by
    simp only [BPB, BSIZE] at hc ⊢
    omega
  have h8 : c % 8 < 8 := Nat.mod_lt _ (by decide)
  rw [Bytes.bit, bitmap, Bytes.get_ofFn, if_pos hk, BitVec.getLsbD_ofNat, Nat.testBit_two_pow_sub_one]
  rw [decide_eq_true h8, Bool.true_and]
  refine decide_eq_decide.mpr ?_
  omega

/-- A disk without inodes: the free map marks the metadata. -/
def blank (sb : Superblock) : Disk := update (fun _ => Bytes.zero) sb.bmapstart (bitmap (nmeta sb))

theorem read_zero (k : Nat) : Dinode.read Bytes.zero k = .zero := by
  have h16 : ∀ n, (Bytes.zero : Block).word16 n = 0 := fun n => by simp [Bytes.word16]
  have h32 : ∀ n, (Bytes.zero : Block).word32 n = 0 := fun n => by simp [Bytes.word32]
  simp only [Dinode.read, h16, h32]
  rfl

theorem view_blank (L : Layout sb) :
    view sb (blank sb) = ⟨fun _ => .zero, fun b => decide (b < nmeta sb), fun _ => Bytes.zero⟩ := by
  ext1
  · funext j
    show (if j < sb.ninodes then _ else _) = Dinode.zero
    split
    case isTrue hj => rw [blank, update_of_ne (L.iblock_ne_bmap hj), read_zero]
    case isFalse => rfl
  · funext c
    show (decide (c < sb.size) && _) = decide (c < nmeta sb)
    by_cases hc : c < sb.size
    · rw [decide_eq_true hc, Bool.true_and, L.bblock hc, L.bit_index hc, blank, update_self]
      refine bit_bitmap ?_
      have := L.size
      simp only [FSSIZE, BPB, BSIZE] at this ⊢
      omega
    · have hm : nmeta sb ≤ sb.size := Nat.sub_le ..
      rw [decide_eq_false hc, Bool.false_and, decide_eq_false (by omega)]
  · funext c
    show (if IsData sb c then _ else _) = Bytes.zero
    split
    case isTrue hc => rw [blank, update_of_ne (Nat.ne_of_gt (L.data.trans_le hc.1))]
    case isFalse => rfl

/-- A view that is well formed: blocks are owned, there are no holes, and no block too many. -/
structure Formed (sb : Superblock) (v : View) : Prop where
  owned : Owned sb v
  solid : Solid v
  trim : Trim v

theorem formed_blank (L : Layout sb) : Formed sb (view sb (blank sb)) := by
  rw [view_blank L]
  have hptr : ∀ x, ptr ⟨fun _ => .zero, fun b => decide (b < nmeta sb), fun _ => Bytes.zero⟩ x = 0 :=
    fun _ => if_pos rfl
  refine ⟨⟨fun c hc => decide_eq_true hc, fun y hy => absurd (hptr y) hy, fun y _ hy => absurd (hptr y) hy,
    fun c hc => ?_⟩, ⟨fun j _ h0 => absurd rfl h0, fun j h0 => absurd rfl h0⟩,
    ⟨fun j k hk => absurd (hptr (j, k)) hk, fun _ _ => ⟨rfl, fun _ => rfl⟩⟩⟩
  refine iff_of_false (fun h => ?_) fun ⟨y, hy⟩ => ?_
  · exact absurd (of_decide_eq_true h) (Nat.not_lt.mpr hc.1)
  · rw [hptr] at hy
    exact not_isData_zero L (hy ▸ hc)

theorem node_blank (L : Layout sb) : node (view sb (blank sb)) = fun _ => .free := by
  funext j
  rw [view_blank L]
  exact if_pos rfl

/-! ### One more inode -/

/-- The disk with inode `i` stored. -/
def putInode (sb : Superblock) (disk : Disk) (i : Nat) (d : Dinode) : Disk :=
  update disk (IBLOCK i sb) (d.write (disk (IBLOCK i sb)) (i % IPB))

/-- An inode without contents. -/
def Dinode.empty (type nlink : BitVec 16) : Dinode := ⟨type, 0, 0, nlink, 0, fun _ => 0⟩

theorem formed_empty (nlink : BitVec 16) (h : Formed sb v) (h0 : (v.tab i).type = 0) (ht : type ≠ 0) :
    Formed sb (v.setTab i (.empty type nlink)) ∧
      node (v.setTab i (.empty type nlink)) = update (node v) i ⟨type, 0, 0, nlink, []⟩ := by
  have hptr : ptr (v.setTab i (.empty type nlink)) = ptr v := ptr_fresh h0 fun _ => rfl
  refine ⟨⟨owned_retab hptr h.owned, solid_retab hptr h.solid fun _ => .inl rfl,
    trim_retab hptr h.trim (fun _ => ?_) fun hz => absurd hz ht⟩, ?_⟩
  · rw [(h.trim.blank i h0).1]
    exact Nat.zero_le _
  · funext j
    by_cases hj : j = i
    · rw [hj, update_self, node, View.setTab_tab, update_self, if_neg (by exact ht),
        content, View.setTab_tab, update_self]
      rfl
    · rw [update_of_ne hj, node_retab_other hptr hj]

/-- An inode with the contents of one block. -/
def Dinode.single (type nlink : BitVec 16) (size b : Nat) : Dinode :=
  ⟨type, 0, 0, nlink, BitVec.ofNat 32 size, fun k => if k = 0 then BitVec.ofNat 32 b else 0⟩

/-- The view with the inode `d` and its block `b` added. -/
def View.install (v : View) (i : Nat) (d : Dinode) (b : Nat) (x : Block) : View :=
  ((v.setTab i d).setUsed b true).setData b x

section Install
variable {type nlink : BitVec 16} {size : Nat}

theorem dptr_single (hb : b < 2 ^ 32) (k : Nat) :
    dptr v (.single type nlink size b) k = if k = 0 then b else 0 := by
  unfold dptr
  by_cases hk : k < NDIRECT + 1
  · rw [dif_pos hk]
    by_cases hk0 : k = 0
    · subst hk0
      rw [if_pos rfl]
      exact (BitVec.toNat_ofNat b 32).trans (Nat.mod_eq_of_lt hb)
    · have hne : (⟨k, hk⟩ : Fin (NDIRECT + 1)) ≠ 0 := fun he => hk0 (congrArg Fin.val he)
      rw [if_neg hk0, Dinode.single]
      simp only [if_neg hne]
      rfl
  · rw [dif_neg hk, if_pos (by rfl), if_neg (by omega)]

theorem claims_install (L : Layout sb) (h : Formed sb v) (h0 : (v.tab i).type = 0) (ht : type ≠ 0)
    (hb : IsData sb b) (hu : v.used b = false) :
    Claims sb v (v.install i (.single type nlink size b) b x) (i, 0) b where
  data_block := hb
  unused := hu
  unset := if_pos h0
  pointers := by
    have hfree := h.owned.owner.unmarked hb hu
    funext ⟨j, k⟩
    by_cases hj : j = i
    · subst hj
      have hptr : ptr (v.install j (.single type nlink size b) b x) (j, k) = if k = 0 then b else 0 := by
        rw [ptr, View.install]
        show (if (update v.tab j _ j).type = 0 then 0 else dptr _ (update v.tab j _ j) k) = _
        rw [update_self, if_neg (by exact ht), dptr_single (hb.lt_word L)]
      rw [hptr]
      by_cases hk : k = 0
      · rw [hk, if_pos rfl, update_self]
      · rw [if_neg hk, update_of_ne fun he => hk (Prod.ext_iff.mp he).2]
        exact (if_pos h0).symm
    · rw [update_of_ne fun he => hj (Prod.ext_iff.mp he).1]
      show (if (update v.tab i _ j).type = 0 then 0 else dptr _ (update v.tab i _ j) k) = _
      rw [update_of_ne hj, ptr]
      by_cases hz : (v.tab j).type = 0
      · rw [if_pos hz, if_pos hz]
      · rw [if_neg hz, if_neg hz]
        refine dptr_congr rfl (fun hind => update_of_ne (fun he => ?_) _ _) k
        refine hfree (j, INDIRECT) ?_
        rw [ptr_of_type hz, dptr_indirect, he]
  used := rfl
  data c hc _ := update_of_ne hc ..

theorem tab_install_self : (v.install i d b x).tab i = d := update_self ..

theorem tab_install_other (hj : j ≠ i) : (v.install i d b x).tab j = v.tab j :=
  update_of_ne hj ..

theorem Claims.fblock_first (h : Claims sb v v' (i, 0) b) (hp : pos < BSIZE) :
    fblock v' i (pos / BSIZE) = b := by
  rw [fblock, Nat.div_eq_of_lt hp, h.pointers]
  exact update_self ..

theorem formed_install (L : Layout sb) (type nlink : BitVec 16) (h : Formed sb v) (h0 : (v.tab i).type = 0) (ht : type ≠ 0)
    (hb : IsData sb b) (hu : v.used b = false) (hpos : 0 < size) (hsize : size ≤ BSIZE) :
    Formed sb (v.install i (.single type nlink size b) b x) ∧
      node (v.install i (.single type nlink size b) b x) =
        update (node v) i ⟨type, 0, 0, nlink, x.slice 0 size⟩ := by
  have hc : Claims sb v (v.install i (.single type nlink size b) b x) (i, 0) b :=
    claims_install L h h0 ht hb hu
  have hput : Put v (v.install i (.single type nlink size b) b x) i 0 [] := hc.put h.owned
  have hb0 : b ≠ 0 := fun he => not_isData_zero L (he ▸ hb)
  have hnat : (Dinode.single type nlink size b).size.toNat = size :=
    (BitVec.toNat_ofNat size 32).trans (Nat.mod_eq_of_lt (by simp only [BSIZE] at hsize; omega))
  have hblock : ∀ pos, pos < size →
      fblock (v.install i (.single type nlink size b) b x) i (pos / BSIZE) = b := fun pos hp =>
    hc.fblock_first (hp.trans_le hsize)
  refine ⟨⟨hc.owned L h.owned, ⟨fun j pos hz hp => ?_, fun j hz => ?_⟩, ⟨fun j k hk => ?_, fun j hz => ?_⟩⟩, ?_⟩
  · by_cases hj : j = i
    · rw [hj, tab_install_self, hnat] at hp
      rw [hj, hblock pos hp]
      exact hb0
    · rw [tab_install_other hj] at hz hp
      have := h.solid.holes j pos hz hp
      rw [hput.keep j _ this]
      exact this
  · by_cases hj : j = i
    · rw [hj, tab_install_self, hnat]
      exact hsize.trans (by decide)
    · rw [tab_install_other hj] at hz ⊢
      exact h.solid.size j hz
  · rw [hc.pointers] at hk
    by_cases hjk : (j, k) = (i, 0)
    · obtain ⟨rfl, rfl⟩ := Prod.mk.inj hjk
      rw [tab_install_self, hnat]
      have hslot : Needs size (slot 0) := needs_slot.mpr (by omega)
      exact hslot
    · rw [update_of_ne hjk] at hk
      have hj : j ≠ i := fun he => hk (by rw [he]; exact if_pos h0)
      rw [tab_install_other hj]
      exact h.trim.needed j k hk
  · by_cases hj : j = i
    · rw [hj, tab_install_self] at hz
      exact absurd hz ht
    · rw [tab_install_other hj] at hz ⊢
      exact h.trim.blank j hz
  · funext j
    by_cases hj : j = i
    · rw [hj, update_self, node, tab_install_self, if_neg (by exact ht), content, tab_install_self, hnat]
      refine Node.ext rfl rfl rfl rfl (map_congr_left fun pos hp => ?_)
      have hp := mem_range.mp hp
      rw [fbyte, hblock pos hp, Nat.mod_eq_of_lt (hp.trans_le hsize), Nat.zero_add]
      exact congrArg (Bytes.get · pos) (update_self ..)
    · rw [update_of_ne hj, node, node, tab_install_other hj]
      by_cases hz : (v.tab j).type = 0
      · rw [if_pos hz, if_pos hz]
      · rw [if_neg hz, if_neg hz, content, content, tab_install_other hj]
        refine Node.ext rfl rfl rfl rfl (map_congr_left fun pos hp => ?_)
        exact hput.outside j pos (h.solid.holes j pos hz (mem_range.mp hp)) fun he => absurd he hj

end Install

/-! ### Disks -/

/-- The contents of a directory. -/
def dirData (es : List (Nat × List Byte)) : List Byte :=
  es.flatMap fun e => dirent (BitVec.ofNat 16 e.1) (strncpy e.2 DIRSIZ)

/-- The disk with an inode added, its contents in block `b`. -/
def putData (sb : Superblock) (disk : Disk) (i b : Nat) (type nlink : BitVec 16) (data : List Byte) : Disk :=
  let disk := putInode sb disk i (.single type nlink data.length b)
  let disk := update disk (BBLOCK b sb) ((disk (BBLOCK b sb)).setBit (b % BPB))
  update disk b (Bytes.zero.blit 0 data)

/-- The disk with a directory added, its entries in block `b`. -/
def putDir (sb : Superblock) (disk : Disk) (i b : Nat) (nlink : BitVec 16) (es : List (Nat × List Byte)) : Disk :=
  let disk := putInode sb disk i (.single T_DIR nlink (DIRENT * es.length) b)
  let disk := update disk (BBLOCK b sb) ((disk (BBLOCK b sb)).setBit (b % BPB))
  update disk b (Bytes.zero.blit 0 (dirData es))

theorem view_putInode (L : Layout sb) (hi : i < sb.ninodes) :
    view sb (putInode sb disk i d) = (view sb disk).setTab i d := view_inode L d hi

theorem view_putData (L : Layout sb) (hi : i < sb.ninodes) (hb : IsData sb b) :
    view sb (putData sb disk i b type nlink data) =
      (view sb disk).install i (.single type nlink data.length b) b (Bytes.zero.blit 0 data) := by
  rw [putData, view_data L _ hb, view_setBit L _ hb.2, view_putInode L hi]
  rfl

theorem length_dirData (es : List (Nat × List Byte)) : (dirData es).length = DIRENT * es.length := by
  induction es with
  | nil => rfl
  | cons e es ih =>
    rw [dirData, flatMap_cons, length_append]
    rw [dirData] at ih
    rw [ih, dirent, length_cons, length_cons, length_cons, length_strncpy]
    simp only [DIRENT, DIRSIZ]
    omega

/-- A well-formed disk with the inodes `N`, whose blocks below `U` are in use. -/
structure Laid (sb : Superblock) (disk : Disk) (N : Nat → Node) (U : Nat) : Prop where
  formed : Formed sb (view sb disk)
  node : node (view sb disk) = N
  used : ∀ b, (view sb disk).used b = decide (b < U)

theorem laid_blank (L : Layout sb) : Laid sb (blank sb) (fun _ => .free) (nmeta sb) :=
  ⟨formed_blank L, node_blank L, fun b => by rw [view_blank L]⟩

section Laid
variable {disk : Disk} {N : Nat → Node} {U : Nat} {nlink : BitVec 16}

theorem Laid.putData (L : Layout sb) (i : Nat) (type nlink : BitVec 16) (data : List Byte) (h : Laid sb disk N U)
    (hi : i < sb.ninodes) (h0 : (N i).type = 0) (ht : type ≠ 0) (hU : IsData sb U) (hpos : 0 < data.length)
    (hsize : data.length ≤ BSIZE) :
    Laid sb (putData sb disk i U type nlink data) (update N i ⟨type, 0, 0, nlink, data⟩) (U + 1) := by
  rw [← h.node] at h0 ⊢
  obtain ⟨hf, hn⟩ := formed_install (x := Bytes.zero.blit 0 data) L type nlink h.formed (node_type_zero.mp h0) ht hU
    (by rw [h.used, decide_eq_false (Nat.lt_irrefl U)]) hpos hsize
  refine ⟨by rw [view_putData L hi hU]; exact hf, ?_, fun b => ?_⟩
  · rw [view_putData L hi hU, hn]
    congr 2
    refine ext_getElem (Bytes.length_slice ..) fun k h1 hk => ?_
    simp only [Bytes.slice, getElem_map, getElem_range, Nat.zero_add]
    rw [Bytes.get_blit _ _ _ _ (by omega), if_pos ⟨Nat.zero_le _, by omega⟩, Nat.sub_zero,
      getD_eq_getElem _ _ hk]
  · rw [view_putData L hi hU]
    show update (view sb disk).used U true b = _
    by_cases hb : b = U
    · rw [hb, update_self, decide_eq_true (Nat.lt_succ_self U)]
    · rw [update_of_ne hb, h.used]
      refine decide_eq_decide.mpr ?_
      omega

theorem Laid.putDir (L : Layout sb) (i : Nat) (nlink : BitVec 16) (es : List (Nat × List Byte))
    (h : Laid sb disk N U) (hi : i < sb.ninodes)
    (h0 : (N i).type = 0) (hU : IsData sb U) (hes : es ≠ []) (hlen : es.length ≤ 32) :
    Laid sb (putDir sb disk i U nlink es) (update N i ⟨T_DIR, 0, 0, nlink, dirData es⟩) (U + 1) := by
  have hpos : 0 < es.length := length_pos_of_ne_nil hes
  have hdata : Fs.putDir sb disk i U nlink es = Fs.putData sb disk i U T_DIR nlink (dirData es) := by
    rw [Fs.putDir, Fs.putData, length_dirData]
  rw [hdata]
  refine h.putData L i T_DIR nlink (dirData es) hi h0 (by decide) hU ?_ ?_ <;>
    rw [length_dirData] <;> simp only [DIRENT, DIRSIZ, BSIZE] <;> omega

theorem Laid.putFile (L : Layout sb) (i : Nat) (type nlink : BitVec 16) (h : Laid sb disk N U) (hi : i < sb.ninodes)
    (h0 : (N i).type = 0) (ht : type ≠ 0) :
    Laid sb (putInode sb disk i (.empty type nlink)) (update N i ⟨type, 0, 0, nlink, []⟩) U := by
  rw [← h.node] at h0 ⊢
  obtain ⟨hf, hn⟩ := formed_empty nlink h.formed (node_type_zero.mp h0) ht
  refine ⟨by rw [view_putInode L hi]; exact hf, by rw [view_putInode L hi]; exact hn, fun b => ?_⟩
  rw [view_putInode L hi]
  exact h.used b

end Laid

/-! ### The disk of `mkfs` -/

theorem layout_mkfs : Layout Mkfs.sb := by
  constructor <;> decide

/-- A disk with one empty file, inode 2, and a kernel that has it in its cache, locked. -/
def lone : State where
  disk := putInode Mkfs.sb (blank Mkfs.sb) 2 (.empty T_FILE 1)
  lh := []
  outstanding := 1
  icache ip := if ip = 0 then ⟨ROOTDEV, 2, 1, true, true, .empty T_FILE 1⟩ else ⟨0, 0, 0, false, false, .zero⟩
  console := []

theorem laid_lone : Laid Mkfs.sb lone.disk (update (fun _ => .free) 2 ⟨T_FILE, 0, 0, 1, []⟩) 59 :=
  (laid_blank layout_mkfs).putFile layout_mkfs 2 T_FILE 1 (by decide) rfl (by decide)

theorem good_lone : Good Mkfs.sb lone where
  owned := laid_lone.formed.owned
  solid := laid_lone.formed.solid
  sync ip hr _ := by
    have hip : ∀ ip, 0 < (lone.icache ip).ref → ip = 0 := by decide
    rw [hip ip hr]
    refine ⟨?_, by decide⟩
    show _ = (view Mkfs.sb (putInode _ _ _ _)).tab 2
    rw [view_putInode layout_mkfs (by decide), View.setTab_tab, update_self]
    rfl
  inum := by decide
  once := by decide +kernel
  idle := by decide

end Xv6.Fs
