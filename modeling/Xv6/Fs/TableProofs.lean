import Xv6.Fs.CacheProofs

/-! What the functions that allocate, change and free inodes do: `ialloc`, `iput` of a
last reference, and stores of an inode's fields. -/
namespace Xv6.Fs
open Lib Function

variable {sb : Superblock} {s s' s'' : State} {ip : Ptr} {i j k : Nat}

/-! ### A new inode in the table

An inode may be exchanged for one with the same pointers, and as many bytes or none. -/

section Retab
variable {v : View} {d : Dinode} (hptr : ptr (v.setTab i d) = ptr v)
include hptr

theorem owned_retab (ho : Owned sb v) : Owned sb (v.setTab i d) :=
  ⟨ho.metadata, by rw [hptr]; exact ho.owner⟩

theorem content_retab (hsize : (v.setTab i d).tab j = v.tab j ∨ (j = i ∧ d.size = (v.tab i).size)) :
    content (v.setTab i d) j = content v j := by
  have hs : ((v.setTab i d).tab j).size = (v.tab j).size := by
    rcases hsize with h | ⟨rfl, h⟩
    · rw [h]
    · rw [View.setTab_tab, update_self, h]
  rw [content, content, hs]
  refine List.map_congr_left fun pos _ => ?_
  rw [fbyte, fbyte, fblock, fblock, hptr]
  rfl

theorem node_retab_other (hj : j ≠ i) : node (v.setTab i d) j = node v j := by
  have ht : (v.setTab i d).tab j = v.tab j := by rw [View.setTab_tab, update_of_ne hj]
  rw [node, node, content_retab hptr (.inl ht), ht]

theorem solid_retab (hs : Solid v)
    (hsize : d.type ≠ 0 → d.size = 0 ∨ ((v.tab i).type ≠ 0 ∧ d.size = (v.tab i).size)) :
    Solid (v.setTab i d) := by
  refine ⟨fun j pos hz hpos => ?_, fun j hz => ?_⟩
  · rw [fblock, hptr]
    by_cases hj : j = i
    · rw [hj, View.setTab_tab, update_self] at hz hpos
      rcases hsize hz with h0 | ⟨h, he⟩
      · rw [h0] at hpos
        exact absurd hpos (Nat.not_lt_zero _)
      · rw [hj]
        rw [he] at hpos
        exact hs.holes i pos h hpos
    · rw [View.setTab_tab, update_of_ne hj] at hz hpos
      exact hs.holes j pos hz hpos
  · by_cases hj : j = i
    · rw [hj, View.setTab_tab, update_self] at hz ⊢
      rcases hsize hz with h0 | ⟨h, he⟩
      · rw [h0]
        exact Nat.zero_le _
      · rw [he]
        exact hs.size i h
    · rw [View.setTab_tab, update_of_ne hj] at hz ⊢
      exact hs.size j hz

theorem trim_retab (h : Trim v) (hsize : d.type ≠ 0 → (v.tab i).size.toNat ≤ d.size.toNat)
    (hblank : d.type = 0 → d.size = 0 ∧ ∀ a, d.addrs a = 0) : Trim (v.setTab i d) := by
  refine h.of (fun j k hk => .inr ?_) fun j hz => ?_
  · have hk' := hk
    rw [hptr] at hk'
    refine ⟨hk', ?_⟩
    by_cases hj : j = i
    · rw [hj, View.setTab_tab, update_self]
      rw [hj, ptr, View.setTab_tab, update_self] at hk
      exact hsize fun hz => hk (if_pos hz)
    · rw [View.setTab_tab, update_of_ne hj]
  · by_cases hj : j = i
    · rw [hj, View.setTab_tab, update_self] at hz ⊢
      exact .inr (hblank hz)
    · rw [View.setTab_tab, update_of_ne hj]
      exact .inl rfl

end Retab

/-! ### Stores of an inode's fields -/

/-- A store into the device numbers and the link count. -/
def Dinode.setFields (a b c : BitVec 16 → BitVec 16) (d : Dinode) : Dinode :=
  {d with major := a d.major, minor := b d.minor, nlink := c d.nlink}

def Node.setFields (a b c : BitVec 16 → BitVec 16) (n : Node) : Node :=
  {n with major := a n.major, minor := b n.minor, nlink := c n.nlink}

theorem setFields_runs (L : Layout sb) (hg : Good sb s) (hp : Points s ip i)
    (hv : (refs s i).valid = true) (a b c : BitVec 16 → BitVec 16) :
    Runs (do setDinode ip (Dinode.setFields a b c); iupdate sb ip) s
      (fun _ s' => Good sb s' ∧ Same 1 s s' ∧
        nodes sb s' = update (nodes sb s) i ((nodes sb s i).setFields a b c) ∧ Trims sb s s')
      (LogStop sb s 0) := by
  let f := Dinode.setFields a b c
  rw [← hg.valid_eq hp] at hv
  obtain ⟨hsync, h0⟩ := hg.sync ip hp.1 hv
  obtain ⟨hdev, hin⟩ := hg.inum ip hp.1
  have hnode := hg.node_eq hp hv
  rw [hp.2] at hsync
  refine bind_setDinode ?_
  refine (iupdate_runs L _ (by rw [State.upd_self]; exact hdev) (by rw [State.upd_self]; exact hin)).post
    fun _ t ⟨ht, htv⟩ => ?_
  rw [State.upd_self, State.upd_disk, hp.2] at htv
  have htype : (f (s.icache ip).d).type = (s.icache ip).d.type := rfl
  have hptr : ptr ((view sb s.disk).setTab i (f (s.icache ip).d)) = ptr (view sb s.disk) :=
    ptr_setTab_fields (by rw [← hsync]; exact h0) (by rw [htype]; exact h0) (by rw [← hsync]; rfl)
  have hsize : (f (s.icache ip).d).size = ((view sb s.disk).tab i).size := by
    rw [← hsync]
    rfl
  have hic : ∀ q, t.icache q = (s.upd ip fun i => {i with d := f i.d}).icache q := fun q => by
    rw [ht.icache]
  have hsame : Same 1 s t := by
    refine ⟨fun q => ?_, ht.console, ht.outstanding, ht.lh⟩
    rw [hic]
    by_cases hq : q = ip
    · rw [hq, State.upd_self]
    · rw [State.upd_other _ _ _ hq]
  refine ⟨hg.rebuild hsame ?_ ?_ fun q hq hvq => ?_, hsame, ?_, fun htrim => ?_⟩
  · rw [htv]
    exact owned_retab hptr hg.owned
  · rw [htv]
    exact solid_retab hptr hg.solid fun _ => .inr ⟨by rw [← hsync]; exact h0, hsize⟩
  · rw [hic, htv]
    by_cases hqp : q = ip
    · rw [hqp, State.upd_self, hp.2, View.setTab_tab, update_self]
      exact ⟨rfl, by rw [htype]; exact h0⟩
    · have hne : (s.icache q).inum ≠ i := fun he => hqp (hg.points_unique ⟨hq, he⟩ hp)
      rw [State.upd_other _ _ _ hqp, View.setTab_tab, update_of_ne hne]
      exact hg.sync q hq hvq
  · rw [nodes, htv]
    funext j
    by_cases hj : j = i
    · rw [hj, update_self, node, content_retab hptr (.inr ⟨rfl, hsize⟩), View.setTab_tab,
        update_self, htype, if_neg h0, hnode]
      rfl
    · rw [update_of_ne hj, node_retab_other hptr hj]
      rfl
  · rw [htv]
    exact trim_retab hptr htrim (fun _ => by rw [hsize]) fun hz => absurd (htype ▸ hz) h0

/-! ### Freeing an inode -/

/-- At most `k` more blocks are in the log. -/
structure Logged (k : Nat) (s s' : State) : Prop where
  console : s'.console = s.console
  outstanding : s'.outstanding = s.outstanding
  lh : s'.lh.length ≤ s.lh.length + k

theorem Same.logged (h : Same k s s') : Logged k s s' := ⟨h.console, h.outstanding, h.lh⟩

theorem Quiet.logged (h : Quiet s s') : Logged 0 s s' :=
  ⟨h.console, h.outstanding, Nat.le_of_eq (congrArg List.length h.lh)⟩

theorem Logged.trans (h : Logged j s s') (h' : Logged k s' s'') : Logged (j + k) s s'' :=
  ⟨h'.console.trans h.console, h'.outstanding.trans h.outstanding, by
    have := h.lh
    have := h'.lh
    omega⟩

theorem Logged.mono (h : Logged j s s') (hjk : j ≤ k) : Logged k s s' :=
  ⟨h.console, h.outstanding, h.lh.trans (Nat.add_le_add_left hjk _)⟩

theorem Logged.logStop (h : Logged j s s') (he : LogStop sb s' k e) :
    LogStop sb s (j + k) e := he.before h.lh h.outstanding

/-- An inode that is dropped from the cache may have any contents. -/
theorem Good.drop (hg : Good sb s) (hp : Points s ip i) (ho : Owned sb (view sb s'.disk))
    (hso : Solid (view sb s'.disk)) (htab : ∀ j, j ≠ i → (view sb s'.disk).tab j = (view sb s.disk).tab j)
    (hother : ∀ q, q ≠ ip → s'.icache q = s.icache q) (href : (s'.icache ip).ref = 0)
    (hlock : (s'.icache ip).locked = false) : Good sb s' := by
  have hne : ∀ q, 0 < (s'.icache q).ref → q ≠ ip := fun q hq he => by
    rw [he, href] at hq
    exact Nat.lt_irrefl 0 hq
  have hpos : ∀ q, 0 < (s'.icache q).ref → 0 < (s.icache q).ref := fun q hq => by
    rwa [hother q (hne q hq)] at hq
  refine ⟨ho, hso, fun q hq hv => ?_, fun q hq => ?_, fun p q hp' hq he => ?_, fun q hq => ?_⟩
  · have hi : (s.icache q).inum ≠ i := fun he => hne q hq (hg.points_unique ⟨hpos q hq, he⟩ hp)
    rw [hother q (hne q hq)] at hv ⊢
    rw [htab _ hi]
    exact hg.sync q (hpos q hq) hv
  · rw [hother q (hne q hq)]
    exact hg.inum q (hpos q hq)
  · rw [hother p (hne p hp'), hother q (hne q hq)] at he
    exact hg.once p q (hpos p hp') (hpos q hq) he
  · by_cases he : q = ip
    · rw [he]
      exact hlock
    · rw [hother q he] at hq ⊢
      exact hg.idle q hq

theorem refs_drop (hg : Good sb s) (hp : Points s ip i)
    (hother : ∀ q, q ≠ ip → s'.icache q = s.icache q) (href : (s'.icache ip).ref = 0) :
    refs s' = update (refs s) i .none := by
  have hip : ∀ j, ¬ Points s' ip j := fun j h => by
    rw [Points, href] at h
    exact Nat.lt_irrefl 0 h.1
  funext j
  by_cases hj : j = i
  · rw [hj, update_self]
    refine refs_eq_none fun q hq => ?_
    by_cases he : q = ip
    · exact hip i (he ▸ hq)
    · rw [Points, hother q he] at hq
      exact he (hg.points_unique hq hp)
  · rw [update_of_ne hj]
    have hne : ∀ q, Points s q j → q ≠ ip := fun q hq he => hj (by rw [← hq.2, he, hp.2])
    refine refs_congr (fun q => ?_) fun q hq => by rw [hother q (hne q hq)]
    by_cases he : q = ip
    · exact iff_of_false (fun h => hip j (he ▸ h)) fun h => hne q h he
    · rw [Points, Points, hother q he]

theorem ptr_free (hz : z.type = 0) (hp : ∀ k, ptr v (i, k) = 0) :
    ptr (v.setTab i z) = ptr v := by
  funext ⟨l, k⟩
  by_cases hl : l = i
  · rw [hl, hp]
    exact if_pos (by rw [View.setTab_tab, update_self]; exact hz)
  · exact ptr_setTab_other hl

/-- The inode is emptied and marked free, on disk and in its entry. -/
structure Erased (sb : Superblock) (ip : Ptr) (i : Nat) (t u : State) : Prop where
  owned : Owned sb (view sb u.disk)
  solid : Solid (view sb u.disk)
  tab : ∀ j, j ≠ i → (view sb u.disk).tab j = (view sb t.disk).tab j
  nodes : nodes sb u = update (nodes sb t) i .free
  other : ∀ q, q ≠ ip → u.icache q = t.icache q
  ref : (u.icache ip).ref = (t.icache ip).ref
  logged : Logged 1 t u
  trims : Trims sb t u

/-- The type of an empty file is cleared, and the entry is not valid any more. -/
theorem erase_runs (L : Layout sb) (hg : Good sb s) (hp : Points s ip i)
    (hz : ∀ k, ptr (view sb s.disk) (i, k) = 0)
    (hd : (s.icache ip).d.size = 0 ∧ ∀ a, (s.icache ip).d.addrs a = 0) :
    Runs (do
      setDinode ip fun d => {d with type := 0}
      iupdate sb ip
      setInode ip fun i => {i with valid := false}) s
      (fun _ => Erased sb ip i s) (LogStop sb s 0) := by
  obtain ⟨hdev, hin⟩ := hg.inum ip hp.1
  refine bind_setDinode ?_
  refine Runs.bind (iupdate_runs L _ (by rw [State.upd_self]; exact hdev)
    (by rw [State.upd_self]; exact hin)) fun _ t ⟨ht, htv⟩ => Runs.modify ?_
  rw [State.upd_self, State.upd_disk, hp.2] at htv
  have hptr : ptr (view sb t.disk) = ptr (view sb s.disk) := by
    rw [htv]
    exact ptr_free rfl hz
  rw [htv] at hptr
  refine ⟨?_, ?_, fun j hj => ?_, ?_, fun q hq => ?_, ?_, ⟨ht.console, ht.outstanding, ht.lh⟩,
    fun htrim => ?_⟩
  · rw [State.upd_disk, htv]
    exact owned_retab hptr hg.owned
  · rw [State.upd_disk, htv]
    exact solid_retab hptr hg.solid fun h => absurd rfl h
  · rw [State.upd_disk, htv, View.setTab_tab, update_of_ne hj]
  · funext j
    rw [Fs.nodes, State.upd_disk, htv]
    by_cases hj : j = i
    · rw [hj, update_self, node, View.setTab_tab, update_self, if_pos rfl]
    · rw [update_of_ne hj, node_retab_other hptr hj]
      rfl
  · rw [State.upd_other _ _ _ hq, ht.icache, State.upd_other _ _ _ hq]
  · rw [State.upd_self, ht.icache, State.upd_self]
  · rw [State.upd_disk, htv]
    exact trim_retab hptr htrim (fun h => absurd rfl h) fun _ => hd

/-- `iput` of the last reference to an inode without links frees the inode and its blocks. -/
theorem iput_free_runs (L : Layout sb) (hg : Good sb s) (hp : Points s ip i)
    (hl : (refs s i).locked = false) (hk : Doomed sb s i) :
    Runs (iput sb ip) s
      (fun _ s' => Good sb s' ∧ Logged (NDIRECT + NINDIRECT + 3) s s' ∧ KeepsBut i s s' ∧
        nodes sb s' = update (nodes sb s) i .free ∧
        refs s' = update (refs s) i .none ∧ Trims sb s s')
      (LogStop sb s (NDIRECT + NINDIRECT + 2)) := by
  have hk' := (doomed_iff hg hp).mp hk
  refine Runs.bind (acquiresleep_runs hg hp hl) fun _ t ht => ?_
  have hti : t.icache ip = {s.icache ip with locked := true} := by rw [ht, State.upd_self]
  have hgt : Good sb t := by
    rw [ht]
    exact hg.upd rfl rfl hp.1 (fun _ hv => hg.sync ip hp.1 hv) fun h => absurd h (Nat.ne_of_gt hp.1)
  have hpt : Points t ip i := by
    rw [Points, hti]
    exact hp
  have hrt : refs t = update (refs s) i {refs s i with locked := true} := by
    rw [ht, refs_upd hg hp rfl, if_pos (by exact hp.1), hg.refs_eq hp]
    rfl
  have hlog : Logged 0 s t := by rw [ht]; exact (Quiet.upd s ip _).logged
  refine bind_inode ?_
  rw [if_pos (by rw [hti]; exact hk')]
  refine Runs.bind (R := fun _ w => ∃ u, Good sb u ∧ Same (NDIRECT + NINDIRECT + 2) t u ∧
    nodes sb u = update (nodes sb s) i {nodes sb s i with data := []} ∧
    Trims sb s u ∧ Erased sb ip i u w) ?_ fun _ w herased => ?_
  · refine Runs.bind ((itrunc_runs L hgt hpt (by rw [hti]; exact hk'.1)).stops fun e he =>
      (hlog.logStop he).mono (by omega)) fun _ u htrunc => ?_
    obtain ⟨hgu, hsu, hnu, hdu, htu⟩ := htrunc
    have hpu : Points u ip i := hsu.points.mpr hpt
    have hvu : (u.icache ip).valid = true := by rw [hsu.entry ip, hti]; exact hk'.1
    have hsync := (hgu.sync ip hpu.1 hvu).1
    rw [hpu.2, hdu] at hsync
    have hnt : nodes sb t = nodes sb s := by rw [ht]; rfl
    have htrims : Trims sb s u := by
      rw [ht] at htu
      exact htu
    refine (erase_runs L hgu hpu (fun k => ?_) (by rw [hdu]; exact ⟨rfl, fun _ => rfl⟩)).mono
      (fun _ w hw => ⟨u, hgu, hsu, by rw [hnu, hnt], htrims, hw⟩) fun e he =>
        (hlog.trans hsu.logged).logStop he |>.mono (by omega)
    rw [ptr, ← hsync]
    split
    · rfl
    · exact dptr_emptied _ k
  · obtain ⟨u, hgu, hsu, hnu, htu, hw⟩ := herased
    have hpu : Points u ip i := hsu.points.mpr hpt
    have href : (w.icache ip).ref = 1 := by
      rw [hw.ref, hsu.entry ip, hti]
      exact hk'.2.2
    refine bind_setInode (Runs.modify ?_)
    have hfinal : (w.upd ip fun i => {i with locked := false}).upd ip
        (fun i => {i with ref := i.ref - 1}) =
        w.upd ip fun i => {i with locked := false, ref := i.ref - 1} := by
      simp only [State.upd, update_self, update_idem]
    rw [hfinal]
    have hother : ∀ q, q ≠ ip →
        (w.upd ip fun i => {i with locked := false, ref := i.ref - 1}).icache q = u.icache q :=
      fun q hq => by rw [State.upd_other _ _ _ hq, hw.other q hq]
    have hzero : ((w.upd ip fun i => {i with locked := false, ref := i.ref - 1}).icache ip).ref = 0 := by
      rw [State.upd_self, href]
    have hsw : Logged (NDIRECT + NINDIRECT + 3) s w :=
      ((hlog.trans hsu.logged).trans hw.logged).mono (by omega)
    refine ⟨hgu.drop hpu hw.owned hw.solid hw.tab hother hzero (by rw [State.upd_self]),
      ⟨hsw.console, hsw.outstanding, hsw.lh⟩, fun q j hq hj => ?_, ?_, ?_,
      fun htrim => hw.trims (htu htrim)⟩
    · have hqp : q ≠ ip := fun he => by
        have := hj (by rw [← hq.2, he, hp.2])
        rw [hk.2.2] at this
        exact absurd this (Nat.lt_irrefl 1)
      have hqt : Points t q j := by
        rw [Points, ht, State.upd_other _ _ _ hqp]
        exact hq
      rw [Points, hother q hqp]
      exact hsu.points.mpr hqt
    · show nodes sb w = _
      rw [hw.nodes, hnu, update_idem]
    · rw [refs_drop hgu hpu hother hzero, hsu.refs_eq, hrt, update_idem]

/-! ### Allocating an inode -/

theorem dptr_zero (h : ∀ a, d.addrs a = 0) (k : Nat) : dptr v d k = 0 := by
  unfold dptr
  split
  · rw [h]
    rfl
  · rw [if_pos (h _)]

theorem ptr_fresh (h0 : (v.tab i).type = 0) (hd : ∀ a, d.addrs a = 0) :
    ptr (v.setTab i d) = ptr v := by
  funext ⟨l, k⟩
  by_cases hl : l = i
  · rw [hl]
    have hz : ptr v (i, k) = 0 := if_pos h0
    rw [hz, ptr]
    split
    · rfl
    · rw [View.setTab_tab, update_self, dptr_zero hd]
  · exact ptr_setTab_other hl

/-- A fresh inode. -/
def Node.fresh (type : BitVec 16) : Node := ⟨type, 0, 0, 0, []⟩

theorem Good.fresh (hg : Good sb s) (hs : Stored k s s') (ht : type ≠ 0)
    (h0 : ((view sb s.disk).tab i).type = 0)
    (hv : view sb s'.disk = (view sb s.disk).setTab i {Dinode.zero with type := type}) :
    Good sb s' ∧ nodes sb s' = update (nodes sb s) i (.fresh type) ∧ Trims sb s s' := by
  have hptr : ptr ((view sb s.disk).setTab i {Dinode.zero with type := type}) =
      ptr (view sb s.disk) := ptr_fresh h0 fun _ => rfl
  refine ⟨hg.rebuild (Same.of_stored hs) ?_ ?_ fun q hq hvq => ?_, ?_, fun htrim => ?_⟩
  · rw [hv]
    exact owned_retab hptr hg.owned
  · rw [hv]
    exact solid_retab hptr hg.solid fun _ => .inl rfl
  · obtain ⟨hsync, hne⟩ := hg.sync q hq hvq
    have hqi : (s.icache q).inum ≠ i := fun he => hne (by rw [hsync, he]; exact h0)
    rw [hs.icache, hv, View.setTab_tab, update_of_ne hqi]
    exact ⟨hsync, hne⟩
  · funext j
    rw [nodes, hv]
    by_cases hj : j = i
    · rw [hj, update_self, node, View.setTab_tab, update_self, if_neg (by exact ht),
        content, View.setTab_tab, update_self]
      rfl
    · rw [update_of_ne hj, node_retab_other hptr hj]
      rfl
  · rw [hv]
    refine trim_retab hptr htrim (fun _ => ?_) fun hz => absurd hz ht
    rw [(htrim.blank i h0).1]
    exact Nat.zero_le _

/-- Why `ialloc` stops: no free inode, no room in the log, or no room in the cache. -/
def IallocStop (sb : Superblock) (s : State) (e : Halt) : Prop :=
  LogStop sb s 0 e ∨ e = .panic .ialloc ∨ e = .panic .iget

theorem ialloc_from_runs (L : Layout sb) (hg : Good sb s) (ht : type ≠ 0)
    (l : List Nat) (hl : ∀ i ∈ l, i < sb.ninodes) :
    Runs (ialloc_from sb ROOTDEV type l) s
      (fun ip s' => ∃ i ∈ l, (nodes sb s i).type = 0 ∧ Good sb s' ∧ Logged 1 s s' ∧ Keeps s s' ∧
        Points s' ip i ∧ nodes sb s' = update (nodes sb s) i (.fresh type) ∧
        refs s' = update (refs s) i (refs s i).inc ∧ Trims sb s s')
      (IallocStop sb s) := by
  induction l with
  | nil => exact Runs.throw (.inr (.inl rfl))
  | cons i rest ih =>
    have hi := hl i (List.mem_cons_self ..)
    refine Runs.bind_ok (bread_ok s (L.iblock_lt_fssize hi)) ?_
    rw [read_eq_tab hi]
    refine Runs.ite (fun h0 => ?_) fun _ => ?_
    · refine Runs.bind_ok rfl (Runs.bind ((log_write_runs sb _ _).stops fun _ he => .inl he)
        fun _ t ⟨hst, htd, _⟩ => ?_)
      have hst : Stored 1 s t := ⟨hst.icache, hst.console, hst.outstanding, hst.lh⟩
      obtain ⟨hgt, hnt, htt⟩ := hg.fresh (i := i) hst ht h0 (by rw [htd, view_inode L _ hi])
      have hsame := Same.of_stored hst
      refine (iget_runs hgt hi).mono (fun ip u ⟨hgu, hqu, hku, hpu, _, hru⟩ => ?_) fun e he =>
        .inr (.inr he.1)
      refine ⟨i, List.mem_cons_self .., node_type_zero.mpr h0, hgu, hsame.logged.trans hqu.logged,
        hsame.keeps.trans hku, hpu, by rw [hqu.nodes, hnt], by rw [hru, hsame.refs_eq],
        fun h => by rw [hqu.disk]; exact htt h⟩
    · refine (ih fun j hj => hl j (List.mem_cons_of_mem _ hj)).post fun ip t ⟨j, hj, h⟩ => ?_
      exact ⟨j, List.mem_cons_of_mem _ hj, h⟩

/-- `ialloc` gives a free inode the type, and a reference to it. -/
theorem ialloc_runs (L : Layout sb) (hg : Good sb s) (ht : type ≠ 0) :
    Runs (ialloc sb ROOTDEV type) s
      (fun ip s' => ∃ i, 1 ≤ i ∧ i < sb.ninodes ∧ (nodes sb s i).type = 0 ∧ Good sb s' ∧
        Logged 1 s s' ∧ Keeps s s' ∧ Points s' ip i ∧
        nodes sb s' = update (nodes sb s) i (.fresh type) ∧
        refs s' = update (refs s) i (refs s i).inc ∧ Trims sb s s')
      (IallocStop sb s) := by
  have hmem : ∀ i ∈ List.range' 1 (sb.ninodes - 1), 1 ≤ i ∧ i < sb.ninodes := fun i hi => by
    rw [List.mem_range'_1] at hi
    omega
  refine (ialloc_from_runs L hg ht _ fun i hi => (hmem i hi).2).post fun ip t ⟨i, hi, h⟩ => ?_
  exact ⟨i, (hmem i hi).1, (hmem i hi).2, h⟩

end Xv6.Fs
