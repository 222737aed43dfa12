import Xv6.Mkfs.Build
import Xv6.Fs.Walk

/-! The kernel reads what `mkfs` wrote.

`iappend` and `readi` lay a file out independently of one another; they meet at the view of the disk.
The size of the root directory may be one block too large, so that its last block is a hole: a lookup
of a name that is there ends before it. -/
namespace Xv6.Mkfs
open Lib Fs

variable {args : List Arg} {img : Image} {s t : Fs.State} {dp ip : Ptr} {i k : Nat}

/-! ### Reading an inode -/

/-- The entry `ip` of the inode cache holds inode `i`, as `ilock` has read it. -/
structure Opened (s : Fs.State) (ip : Ptr) (i : Nat) : Prop where
  dev : (s.icache ip).dev = ROOTDEV
  inum : (s.icache ip).inum = i
  d : (s.icache ip).d = (view sb s.disk).tab i

theorem mem_opened (h : Opened s ip i) : mem sb s ip = view sb s.disk := by
  rw [mem, h.inum, h.d]
  simp only [View.setTab, Function.update_eq_self]

/-- The inodes are where they can be read: the type is right, the size is not too small, and the bytes
are those of the file. -/
structure Shows (v : View) (i : Nat) (n : Node) : Prop where
  type : (v.tab i).type = n.type
  size : n.data.length ≤ (v.tab i).size.toNat
  block : ∀ pos, pos < n.data.length → fblock v i (pos / BSIZE) ≠ 0
  bytes : n.data = (List.range n.data.length).map (fbyte v i)

theorem shows_of_formed (hv : Formed sb v) (h0 : (node v i).type ≠ 0) : Shows v i (node v i) := by
  rw [Ne, node_type_zero] at h0
  have hlen : (node v i).data.length = (v.tab i).size.toNat := by rw [node, if_neg h0, length_content]
  refine ⟨by rw [node, if_neg h0], Nat.le_of_eq hlen, fun pos hp => hv.solid.holes i pos h0 (hlen ▸ hp), ?_⟩
  rw [hlen, node, if_neg h0]
  rfl

/-- What is on the disk shows the inodes of the files. -/
theorem Made.shows (h : Made args img) (hcount : args.length ≤ NINODES - 2) (h0 : (inodes args i).type ≠ 0) :
    Owned sb (view sb img.sectors) ∧ Shows (view sb img.sectors) i (inodes args i) := by
  obtain ⟨v, hv, hn, hview⟩ := h
  have hptr := ptr_rounded hn
  have hshow : Shows v i (inodes args i) := by
    rw [← hn] at h0 ⊢
    exact shows_of_formed hv h0
  have hblock : ∀ bn, fblock (rounded v) i bn = fblock v i bn := fun bn => by rw [fblock, hptr]; rfl
  have hbyte : fbyte (rounded v) i = fbyte v i := by
    funext pos
    rw [fbyte, hblock]
    rfl
  rw [hview]
  refine ⟨owned_retab hptr hv.owned, ?_, ?_, fun pos hp => by rw [hblock]; exact hshow.block pos hp,
    by rw [hbyte]; exact hshow.bytes⟩
  · by_cases hi : i = ROOTINO
    · subst hi
      rw [rounded, View.setTab_tab, Function.update_self]
      exact hshow.type
    · rw [tab_rounded_other hi]
      exact hshow.type
  · by_cases hi : i = ROOTINO
    · subst hi
      have hsize := hshow.size
      rw [size_root hn] at hsize
      rw [size_rounded hn hcount]
      simp only [BSIZE] at *
      omega
    · rw [tab_rounded_other hi]
      exact hshow.size

theorem Made.size_file (h : Made args img) (h0 : (inodes args i).type ≠ 0) (hi : i ≠ ROOTINO) :
    ((view sb img.sectors).tab i).size.toNat = (inodes args i).data.length := by
  obtain ⟨v, _, hn, hview⟩ := h
  rw [← hn, Ne, node_type_zero] at h0
  rw [hview, tab_rounded_other hi, ← hn, node, if_neg h0, length_content]

/-- `readi` answers the bytes that are there, when they are all there or the size is right. -/
theorem readi_shows (ho : Owned sb (view sb s.disk))
    (hs : Shows (view sb s.disk) i n) (h0 : n.type ≠ 0) (hdev : n.type ≠ T_DEV) (hip : Opened s ip i) (hi : i < NINODES)
    (hoff : off ≤ n.data.length) (hword : off + len < 2 ^ 32)
    (hlen : off + len ≤ n.data.length ∨ ((view sb s.disk).tab i).size.toNat = n.data.length) :
    Runs (readi sb ip off len) s (fun r t => r = some ((n.data.drop off).take len) ∧ t = s) E := by
  have hmem := mem_opened hip
  have htype : (s.icache ip).d.type = n.type := by rw [hip.d, hs.type]
  have hsize : n.data.length ≤ (s.icache ip).d.size.toNat := by rw [hip.d]; exact hs.size
  have hr : Ready sb s ip := ⟨hip.dev, by rw [hip.inum]; exact hi, by rw [htype]; exact h0⟩
  rw [← hip.d] at hlen
  refine bind_inode ?_
  rw [if_neg (by rw [htype]; exact hdev), if_neg (by omega)]
  -- the length is cut at the end of the file
  have hcut : (if (s.icache ip).d.size.toNat < off + len then (s.icache ip).d.size.toNat - off else len) =
      min len (n.data.length - off) := by
    split <;> omega
  rw [hcut]
  refine Runs.bind (readi_from_runs _ _ layout_mkfs hr (by rw [hmem]; exact ho) (Nat.le_refl _) fun pos h1 h2 => ?_)
    fun r t hr => Runs.pure ⟨?_, hr.2⟩
  · rw [hmem, hip.inum]
    exact hs.block pos (by omega)
  · rw [hr.1, hmem, hip.inum]
    conv_rhs => rw [hs.bytes]
    rw [take_drop_range]

/-! ### Looking a name up -/

/-- The cache has room for inode `i`, or has it. -/
def Room (s : Fs.State) (i : Nat) : Prop :=
  ∃ q, (s.icache q).ref = 0 ∨ ((s.icache q).dev = ROOTDEV ∧ (s.icache q).inum = i)

/-- The kernel runs on the disk: what entries of the cache hold is on disk, and entries that are not in
use are not locked. -/
structure Mounted (disk : Disk) (s : Fs.State) : Prop where
  on : s.disk = disk
  sync : ∀ q, 0 < (s.icache q).ref → (s.icache q).valid = true →
    (s.icache q).d = (view sb disk).tab (s.icache q).inum
  idle : ∀ q, (s.icache q).ref = 0 → (s.icache q).locked = false

/-- The entry `ip` refers to inode `i` and can be locked. -/
structure Refers (s : Fs.State) (ip : Ptr) (i : Nat) : Prop where
  dev : (s.icache ip).dev = ROOTDEV
  inum : (s.icache ip).inum = i
  ref : 0 < (s.icache ip).ref
  unlocked : (s.icache ip).locked = false
  sync : (s.icache ip).valid = true → (s.icache ip).d = (view sb s.disk).tab i

theorem iget_refers (hm : Mounted disk s) (hroom : Room s i)
    (hfree : ∀ q, (s.icache q).inum = i → (s.icache q).locked = false) :
    Runs (iget ROOTDEV i) s (fun ip t => Refers t ip i ∧ t.disk = s.disk) E := by
  refine Runs.bind_get ?_
  split
  · rename_i ip hfind
    have hp := List.find?_some hfind
    simp only [Bool.and_eq_true, decide_eq_true_eq, beq_iff_eq] at hp
    obtain ⟨⟨href, hdev⟩, hinum⟩ := hp
    refine bind_setInode (Runs.pure ⟨?_, rfl⟩)
    refine ⟨?_, ?_, ?_, ?_, fun hv => ?_⟩
    all_goals rw [State.upd_self]
    · exact hdev
    · exact hinum
    · exact Nat.succ_pos _
    · exact hfree ip hinum
    · rw [State.upd_self] at hv
      rw [State.upd_disk, hm.on, ← hinum]
      exact hm.sync ip href hv
  · rename_i hnone
    split
    · rename_i ip hfind
      have h0 : (s.icache ip).ref = 0 := by simpa using List.find?_some hfind
      refine bind_setInode (Runs.pure ⟨?_, rfl⟩)
      refine ⟨?_, ?_, ?_, ?_, fun hv => ?_⟩
      · rw [State.upd_self]
      · rw [State.upd_self]
      · rw [State.upd_self]
        exact Nat.one_pos
      · rw [State.upd_self]
        exact hm.idle ip h0
      · rw [State.upd_self] at hv
        cases hv
    · rename_i hfull
      obtain ⟨q, hq⟩ := hroom
      have h1 := List.find?_eq_none.mp hnone q (List.mem_finRange q)
      have h2 := List.find?_eq_none.mp hfull q (List.mem_finRange q)
      simp only [Bool.and_eq_true, decide_eq_true_eq, beq_iff_eq] at h1 h2
      rcases hq with hq | hq
      · exact absurd hq h2
      · exact absurd ⟨⟨Nat.pos_of_ne_zero h2, hq.1⟩, hq.2⟩ h1

theorem ilock_opened (h : Refers s ip i) (hi : i < NINODES) (h0 : ((view sb s.disk).tab i).type ≠ 0) :
    Runs (ilock sb ip) s (fun _ t => Opened t ip i ∧ t.disk = s.disk) E := by
  have htab : Dinode.read (s.disk (IBLOCK i sb)) (i % IPB) = (view sb s.disk).tab i := read_eq_tab hi s.disk
  have hlock : acquiresleep ip s = .ok ((), s.upd ip fun i => {i with locked := true}) := by
    rw [acquiresleep, bind_of_ok (rfl : inode ip s = .ok (s.icache ip, s)), h.unlocked]
    rfl
  have hread : bread ROOTDEV (IBLOCK i sb) (s.upd ip fun i => {i with locked := true}) = .ok (s.disk (IBLOCK i sb), _) :=
    bread_ok _ (layout_mkfs.iblock_lt_fssize hi)
  refine bind_inode ?_
  rw [if_neg (Nat.not_lt.mpr h.ref)]
  refine Runs.bind_ok hlock (Runs.ite (fun _ => ?_) fun hv => ?_)
  · rw [h.dev, h.inum]
    refine Runs.bind_ok hread (bind_setInode ?_)
    rw [htab, if_neg h0]
    refine Runs.pure ⟨⟨?_, ?_, ?_⟩, rfl⟩
    all_goals rw [State.upd_self, State.upd_self]
    · exact h.dev
    · exact h.inum
    · show Dinode.read _ ((s.icache ip).inum % IPB) = _
      rw [h.inum, htab]
      rfl
  · refine Runs.pure ⟨⟨?_, ?_, ?_⟩, rfl⟩
    all_goals rw [State.upd_self]
    · exact h.dev
    · exact h.inum
    · exact h.sync (Bool.eq_true_of_not_eq_false hv)

theorem entries_file (h : args[k]? = some a) : (entries args)[k + 2]? = some (k + 2, a.stored) := by
  rw [entries, List.getElem?_cons_succ, List.getElem?_cons_succ, List.getElem?_mapIdx, h]
  rfl

section Lookup
variable (hm : Made args img) (hcount : args.length ≤ NINODES - 2) (hdisk : s.disk = img.sectors)
include hm hcount hdisk

/-- The entries of the root directory are read as they were written. -/
theorem readDirent_made (hdp : Opened s dp ROOTINO) (he : (entries args)[k]? = some e) :
    Runs (readDirent sb dp (DIRENT * k) p) s
      (fun de t => (deInum de).toNat = e.1 % 2 ^ 16 ∧ name (deName de) = name e.2 ∧ t = s) E := by
  have hroot : inodes args ROOTINO = ⟨T_DIR, 0, 0, 1, dirData (entries args)⟩ := if_pos rfl
  have hdir : T_DIR ≠ 0 ∧ T_DIR ≠ T_DEV := by decide
  obtain ⟨ho, hs⟩ := hm.shows hcount (by rw [hroot]; exact hdir.1)
  rw [← hdisk, hroot] at hs
  rw [← hdisk] at ho
  have hlen : (dirData (entries args)).length = DIRENT * (args.length + 2) := by rw [length_dirData, length_entries]
  have hk : k < nentries (dirData (entries args)) := lt_of_dirent? (by rw [dirent?_dirData, he]; rfl)
  have hent := dirent?_of_lt hk
  rw [dirent?_dirData, he, Option.map_some, Option.some.injEq] at hent
  have hle : DIRENT * k + DIRENT ≤ (dirData (entries args)).length := by
    rw [nentries] at hk
    simp only [DIRENT, DIRSIZ] at hk ⊢
    omega
  have hword : DIRENT * k + DIRENT < 2 ^ 32 := by
    simp only [DIRENT, DIRSIZ, NINODES] at *
    omega
  refine Runs.bind (readi_shows ho hs hdir.1 hdir.2 hdp (by decide) (by exact Nat.le_of_add_right_le hle) hword
    (.inl hle)) fun r t hr => ?_
  rw [hr.1, hr.2]
  refine Runs.ite (fun hne => absurd (length_deAt hk) hne) fun _ => Runs.pure ⟨?_, ?_, rfl⟩
  · exact (congrArg Entry.inum hent).symm
  · exact (congrArg Entry.name hent).symm

/-- `dirlookup` gets to the entry of a name that no entry before it has. -/
theorem dirlookup_from_made (hdp : Opened s dp ROOTINO)
    (hmount : Mounted img.sectors s) (hroom : Room s j)
    (hfree : ∀ q, (s.icache q).inum = j → (s.icache q).locked = false) (hlast : (entries args)[last]? = some (j, nm))
    (hj : 0 < j ∧ j < 2 ^ 16)
    (hbefore : ∀ l e, l < last → (entries args)[l]? = some e → 0 < e.1 ∧ e.1 < 2 ^ 16 ∧ name e.2 ≠ name nm)
    (hk : k ≤ last) (hf : last - k < fuel) :
    Runs (dirlookup_from sb dp nm fuel (DIRENT * k)) s
      (fun r t => ∃ ip, r = some (ip, DIRENT * last) ∧ Refers t ip j ∧ t.disk = s.disk) E := by
  have hroot : inodes args ROOTINO = ⟨T_DIR, 0, 0, 1, dirData (entries args)⟩ := if_pos rfl
  obtain ⟨_, hs⟩ := hm.shows hcount (by rw [hroot]; exact (by decide : T_DIR ≠ 0))
  rw [← hdisk, hroot] at hs
  have hlen : last < (entries args).length := (List.getElem?_eq_some_iff.mp hlast).1
  have hsize := hs.size
  rw [length_dirData, ← hdp.d] at hsize
  induction fuel generalizing k with
  | zero => exact absurd hf (Nat.not_lt_zero _)
  | succ fuel ih =>
    have hin : ¬ (s.icache dp).d.size.toNat ≤ DIRENT * k := by
      simp only [DIRENT, DIRSIZ] at hsize ⊢
      omega
    refine bind_inode ?_
    rw [if_neg hin]
    by_cases he : k = last
    · subst he
      refine Runs.bind (readDirent_made hm hcount hdisk hdp hlast) fun de t hde => ?_
      obtain ⟨hnum, hname, rfl⟩ := hde
      rw [Nat.mod_eq_of_lt hj.2] at hnum
      have hz : deInum de ≠ 0 := toNat_ne_zero.mp (by rw [hnum]; exact Nat.ne_of_gt hj.1)
      rw [if_neg hz, if_pos ((namecmp_eq_zero _ _).mpr hname.symm), hdp.dev, hnum]
      exact Runs.bind (iget_refers hmount hroom hfree) fun ip u hu => Runs.pure ⟨ip, rfl, hu.1, hu.2⟩
    · have hlt : k < last := by omega
      obtain ⟨e, hget⟩ : ∃ e, (entries args)[k]? = some e := ⟨_, List.getElem?_eq_getElem (by omega)⟩
      obtain ⟨hpos, hword, hne⟩ := hbefore k e hlt hget
      refine Runs.bind (readDirent_made hm hcount hdisk hdp hget) fun de t hde => ?_
      obtain ⟨hnum, hname, rfl⟩ := hde
      rw [Nat.mod_eq_of_lt hword] at hnum
      have hz : deInum de ≠ 0 := toNat_ne_zero.mp (by rw [hnum]; exact Nat.ne_of_gt hpos)
      have hcmp : namecmp nm (deName de) ≠ 0 := fun h => hne (by rw [← hname]; exact ((namecmp_eq_zero _ _).mp h).symm)
      rw [if_neg hz, if_neg hcmp, ← Nat.mul_succ]
      exact ih hlt (by omega)

end Lookup

/-- The entries before that of a file have other names. -/
theorem entry_before (hcount : args.length ≤ NINODES - 2)
    (hnames : (args.map fun a => name a.stored).Nodup)
    (hdots : ∀ a ∈ args, name a.stored ≠ [46] ∧ name a.stored ≠ [46, 46]) (ha : args[k]? = some a) (hl : l < k + 2)
    (he : (entries args)[l]? = some e) : 0 < e.1 ∧ e.1 < 2 ^ 16 ∧ name e.2 ≠ name a.stored := by
  have hdot := hdots a (List.mem_of_getElem? ha)
  obtain _ | _ | l := l
  · cases he
    exact ⟨by decide, by decide, fun h => hdot.1 h.symm⟩
  · cases he
    exact ⟨by decide, by decide, fun h => hdot.2 h.symm⟩
  · have hk : k < args.length := (List.getElem?_eq_some_iff.mp ha).1
    have hl : l < args.length := by omega
    have hget := List.getElem?_eq_getElem hl
    rw [entries_file hget, Option.some.injEq] at he
    subst he
    refine ⟨Nat.succ_pos _, ?_, fun h => ?_⟩
    · simp only [NINODES] at hcount ⊢
      omega
    · have heq : l = k := (List.getElem?_inj (by rw [List.length_map]; exact hl) hnames).mp (by
        rw [List.getElem?_map, List.getElem?_map, hget, ha, Option.map_some, Option.map_some, h])
      omega

/-- What the kernel finds in an image of `mkfs`: the stored name of a file leads to its inode, and the
inode holds the bytes of the file. Files that fit are put into an image. -/
theorem image_read (args : List Arg) (hcount : args.length ≤ NINODES - 2)
    (hnames : (args.map fun a => name a.stored).Nodup)
    (hdots : ∀ a ∈ args, name a.stored ≠ [46] ∧ name a.stored ≠ [46, 46]) :
    (Fits args → ∃ img, main args start = .ok ((), img)) ∧
    ∀ img, main args start = .ok ((), img) → ∀ k a, args[k]? = some a → ∀ s dp, Mounted img.sectors s →
      Opened s dp ROOTINO → Room s (k + 2) → (∀ q, (s.icache q).inum = k + 2 → (s.icache q).locked = false) →
      ∃ ip off t, dirlookup sb dp a.stored s = .ok (some (ip, off), t) ∧ (t.icache ip).inum = k + 2 ∧
        ∀ n, a.bytes.length ≤ n → n < 2 ^ 32 →
          ∃ u, (do ilock sb ip; readi sb ip 0 n) t = .ok (some a.bytes, u) := by
  refine ⟨fun h => ?_, fun img hrun k a ha s dp hmount hdp hroom hfree => ?_⟩
  · obtain ⟨img, himg, _⟩ := main_of_fits h
    exact ⟨img, himg⟩
  have hm := (main_runs hcount).of_ok hrun
  have hfile : inodes args (k + 2) = ⟨T_FILE, 0, 0, 1, a.bytes⟩ := by rw [inodes_file, ha]
  have htype : T_FILE ≠ 0 ∧ T_FILE ≠ T_DEV := by decide
  have hk : k < args.length := (List.getElem?_eq_some_iff.mp ha).1
  have hi : k + 2 < NINODES := by
    simp only [NINODES] at hcount ⊢
    omega
  -- the root directory is one, and long enough
  have hroot : inodes args ROOTINO = ⟨T_DIR, 0, 0, 1, dirData (entries args)⟩ := if_pos rfl
  obtain ⟨_, hdir⟩ := hm.shows hcount (by rw [hroot]; exact (by decide : T_DIR ≠ 0))
  rw [hroot, ← hmount.on] at hdir
  have hsize := hdir.size
  rw [length_dirData, length_entries, ← hdp.d] at hsize
  have hlook : Runs (dirlookup sb dp a.stored) s
      (fun r t => ∃ ip, r = some (ip, DIRENT * (k + 2)) ∧ Refers t ip (k + 2) ∧ t.disk = s.disk) fun _ => False := by
    refine bind_inode ?_
    rw [if_neg (by rw [hdp.d, hdir.type]; exact not_not.mpr rfl)]
    refine dirlookup_from_made (k := 0) hm hcount hmount.on hdp hmount hroom hfree (entries_file ha) ?_ ?_
      (Nat.zero_le _) ?_
    · simp only [NINODES] at hi
      omega
    · intro l e hl he
      exact entry_before hcount hnames hdots ha hl he
    · simp only [DIRENT, DIRSIZ] at hsize ⊢
      omega
  obtain ⟨r, t, hrt, ip, hr, href, ht⟩ := hlook.answers
  refine ⟨ip, DIRENT * (k + 2), t, by rw [hrt, hr], href.inum, fun n hn hword => ?_⟩
  obtain ⟨ho, hs⟩ := hm.shows hcount (i := k + 2) (by rw [hfile]; exact htype.1)
  have hexact := hm.size_file (i := k + 2) (by rw [hfile]; exact htype.1) (by simp only [ROOTINO]; omega)
  rw [hfile, ← hmount.on, ← ht] at hs hexact
  rw [← hmount.on, ← ht] at ho
  have hread : Runs (do ilock sb ip; readi sb ip 0 n) t (fun r _ => r = some a.bytes) fun _ => False := by
    refine Runs.bind (ilock_opened href hi (by rw [hs.type]; exact htype.1)) fun _ u hu => ?_
    rw [← hu.2] at ho hs hexact
    refine (readi_shows ho hs htype.1 htype.2 hu.1 hi (Nat.zero_le _) (by omega) (.inr hexact)).post fun r w hr => ?_
    rw [hr.1, List.drop_zero, List.take_of_length_le hn]
  obtain ⟨r, u, hru, hr⟩ := hread.answers
  exact ⟨u, by rw [hru, hr]⟩

/-- The kernel when it has opened the root directory, and nothing else. -/
def booted (disk : Disk) : Fs.State where
  disk := disk
  lh := []
  outstanding := 1
  icache ip := if ip = 0 then ⟨ROOTDEV, ROOTINO, 1, true, true, (view sb disk).tab ROOTINO⟩ else ⟨0, 0, 0, false, false, .zero⟩
  console := []

/-- A file with a leading underscore, delivered in two pieces. -/
def greeting : Arg := ⟨[95, 97], some ⟨[[104], [105]], by decide⟩⟩

theorem image_read_greeting :
    ∃ img, main [greeting] start = .ok ((), img) ∧ ∃ ip off t,
      dirlookup sb 0 [97] (booted img.sectors) = .ok (some (ip, off), t) ∧ (t.icache ip).inum = 2 ∧
        ∃ u, (do ilock sb ip; readi sb ip 0 512) t = .ok (some [104, 105], u) := by
  have hread := image_read [greeting] (by decide) (by decide) (by decide)
  obtain ⟨img, himg⟩ := hread.1 (by constructor <;> decide)
  have hzero : ∀ q, q ≠ 0 → (booted img.sectors).icache q = ⟨0, 0, 0, false, false, .zero⟩ := fun q hq => if_neg hq
  have hmount : Mounted img.sectors (booted img.sectors) := by
    refine ⟨rfl, fun q hq hv => ?_, fun q hq => ?_⟩
    · by_cases h : q = 0
      · rw [h]
        rfl
      · rw [hzero q h] at hv
        cases hv
    · by_cases h : q = 0
      · rw [h] at hq
        cases hq
      · rw [hzero q h]
  have hfree : ∀ q, ((booted img.sectors).icache q).inum = 2 → ((booted img.sectors).icache q).locked = false := by
    intro q hq
    by_cases h : q = 0
    · rw [h] at hq
      cases hq
    · rw [hzero q h]
  obtain ⟨ip, off, t, hlook, hinum, hfile⟩ := hread.2 img himg 0 greeting rfl (booted img.sectors) 0 hmount
    ⟨rfl, rfl, rfl⟩ ⟨1, .inl rfl⟩ hfree
  exact ⟨img, himg, ip, off, t, hlook, hinum, hfile 512 (by decide) (by decide)⟩

end Xv6.Mkfs
