import Xv6.Fs.Abstract

/-! What the inode functions do to `nodes` and `refs`: `iupdate` and `writei`. -/
namespace Xv6.Fs
open Lib Function List

variable {sb : Superblock} {s s' : State} {ip : Ptr} {i k : Nat}

/-! ### Contents after a write -/

theorem length_splice (h : off ≤ data.length) :
    (splice data off src).length = max data.length (off + src.length) := by
  simp only [splice, length_append, length_take, length_drop]
  omega

theorem getD_splice (h : off ≤ data.length) (pos : Nat) :
    (splice data off src).getD pos 0 =
      if off ≤ pos ∧ pos < off + src.length then src.getD (pos - off) 0 else data.getD pos 0 := by
  have htake : (data.take off).length = off := by rw [length_take]; omega
  rw [splice, append_assoc]
  by_cases h1 : pos < off
  · rw [getD_append _ _ _ _ (by omega), if_neg (by omega)]
    simp only [getD_eq_getElem?_getD, List.getElem?_take_of_lt h1]
  · rw [getD_append_right _ _ _ _ (by omega), htake]
    by_cases h2 : pos < off + src.length
    · rw [getD_append _ _ _ _ (by omega), if_pos (by omega)]
    · rw [getD_append_right _ _ _ _ (by omega), if_neg (by omega)]
      simp only [getD_eq_getElem?_getD, List.getElem?_drop]
      congr 2
      omega

theorem list_ext_getD {a b : List Byte} (hl : a.length = b.length)
    (h : ∀ k, k < a.length → a.getD k 0 = b.getD k 0) : a = b := by
  refine ext_getElem hl fun k h1 h2 => ?_
  have := h k h1
  rwa [getD_eq_getElem _ _ h1, getD_eq_getElem _ _ h2] at this

theorem length_content (v : View) (i : Nat) : (content v i).length = (v.tab i).size.toNat := by
  simp [content]

theorem getD_content (v : View) (i : Nat) (h : pos < (v.tab i).size.toNat) :
    (content v i).getD pos 0 = fbyte v i pos := by
  simp [content, h]

/-- A file's contents after bytes are put into it. -/
theorem content_put {v w : View} {off : Nat} {src : List Byte} (hp : Put v w i off src)
    (hs : Solid v) (h0 : (v.tab i).type ≠ 0) (hoff : off ≤ (v.tab i).size.toNat)
    (hsize : (w.tab i).size.toNat = max (v.tab i).size.toNat (off + src.length)) :
    content w i = splice (content v i) off src := by
  have hlen := length_content v i
  refine list_ext_getD ?_ fun pos hpos => ?_
  · rw [length_content, hsize, length_splice (by rw [hlen]; exact hoff), hlen]
  · rw [length_content] at hpos
    rw [getD_content w i hpos, getD_splice (by rw [hlen]; exact hoff)]
    by_cases hin : off ≤ pos ∧ pos < off + src.length
    · rw [if_pos hin, hp.inside pos hin.1 hin.2]
    · have hlt : pos < (v.tab i).size.toNat := by omega
      rw [if_neg hin, hp.outside i pos (hs.holes i pos h0 hlt) fun _ => by omega,
        getD_content v i hlt]

theorem content_put_other (hp : Put v w i off src)
    (hs : Solid v) (h0 : (v.tab j).type ≠ 0) (hj : j ≠ i) (htab : w.tab j = v.tab j) :
    content w j = content v j := by
  rw [content, content, htab]
  refine map_congr_left fun pos hpos => ?_
  exact hp.outside j pos (hs.holes j pos h0 (mem_range.mp hpos)) fun he => absurd he hj

theorem ptr_setTab_fields (h0 : (v.tab i).type ≠ 0) (h0' : d.type ≠ 0)
    (ha : d.addrs = (v.tab i).addrs) : ptr (v.setTab i d) = ptr v := by
  refine ptr_congr (fun j => ?_) (fun j _ => ?_) fun _ _ => rfl
  · by_cases hj : j = i
    · rw [hj, View.setTab_tab, update_self]
      exact iff_of_false h0' h0
    · rw [View.setTab_tab, update_of_ne hj]
  · by_cases hj : j = i
    · rw [hj, View.setTab_tab, update_self, ha]
    · rw [View.setTab_tab, update_of_ne hj]

/-! ### Storing an inode -/

theorem iupdate_runs (L : Layout sb) (s : State) (hdev : (s.icache ip).dev = ROOTDEV)
    (hin : (s.icache ip).inum < sb.ninodes) :
    Runs (iupdate sb ip) s
      (fun _ s' => Stored 1 s s' ∧
        view sb s'.disk = (view sb s.disk).setTab (s.icache ip).inum (s.icache ip).d)
      (LogStop sb s 0) := by
  refine bind_inode ?_
  rw [hdev]
  exact Runs.bind_ok (bread_ok s (L.iblock_lt_fssize hin))
    ((store_log_runs sb s _ _).post fun _ _ ⟨h, hd, _⟩ => ⟨h, by rw [hd, view_inode L _ hin]⟩)

theorem Good.rebuild (hg : Good sb s) (hs : Same k s s') (ho : Owned sb (view sb s'.disk))
    (hso : Solid (view sb s'.disk))
    (hsync : ∀ q, 0 < (s.icache q).ref → (s.icache q).valid = true →
      (s'.icache q).d = (view sb s'.disk).tab (s.icache q).inum ∧ (s'.icache q).d.type ≠ 0) :
    Good sb s' where
  owned := ho
  solid := hso
  sync q hq hv := by
    rw [hs.entry q] at hq hv ⊢
    exact hsync q hq hv
  inum q hq := by
    rw [hs.entry q] at hq ⊢
    exact hg.inum q hq
  once p q hp hq h := by
    rw [hs.entry p] at hp h
    rw [hs.entry q] at hq h
    exact hg.once p q hp hq h
  idle q hq := by
    rw [hs.entry q] at hq ⊢
    exact hg.idle q hq

/-! ### `writei` -/

/-- The inode after bytes are put into its file. -/
structure PutTab (v w : View) (i off n : Nat) : Prop where
  other : ∀ j, j ≠ i → w.tab j = v.tab j
  fields : w.tab i = {v.tab i with addrs := (w.tab i).addrs, size := (w.tab i).size}
  size : (w.tab i).size.toNat = max (v.tab i).size.toNat (off + n)

section Put
variable {v w : View} {off : Nat} {src : List Byte}

theorem node_put (hp : Put v w i off src) (ht : PutTab v w i off src.length) (hs : Solid v)
    (h0 : (v.tab i).type ≠ 0) (hoff : off ≤ (v.tab i).size.toNat) :
    node w = update (node v) i ((node v i).write off src) := by
  funext j
  by_cases hj : j = i
  · subst hj
    have h0' : (w.tab j).type ≠ 0 := by rw [ht.fields]; exact h0
    rw [update_self, node, if_neg h0', node, if_neg h0, Node.write,
      content_put hp hs h0 hoff ht.size, ht.fields]
  · rw [update_of_ne hj, node, node, ht.other j hj]
    by_cases hz : (v.tab j).type = 0
    · rw [if_pos hz, if_pos hz]
    · rw [if_neg hz, if_neg hz, content_put_other hp hs hz hj (ht.other j hj)]

theorem solid_put (hp : Put v w i off src) (ht : PutTab v w i off src.length) (hs : Solid v)
    (hmax : off + src.length ≤ MAXFILE * BSIZE) (h0 : (v.tab i).type ≠ 0)
    (hoff : off ≤ (v.tab i).size.toNat) : Solid w := by
  have hkeep : ∀ j bn, fblock v j bn ≠ 0 → fblock w j bn ≠ 0 := fun j bn h => by
    rw [hp.keep j bn h]
    exact h
  refine ⟨fun j pos hz hpos => ?_, fun j hz => ?_⟩
  · by_cases hj : j = i
    · subst hj
      rw [ht.size] at hpos
      by_cases hlt : pos < (v.tab j).size.toNat
      · exact hkeep j _ (hs.holes j pos h0 hlt)
      · exact hp.room pos (by omega) (by omega)
    · rw [ht.other j hj] at hz hpos
      exact hkeep j _ (hs.holes j pos hz hpos)
  · by_cases hj : j = i
    · subst hj
      have := hs.size j h0
      rw [ht.size]
      omega
    · rw [ht.other j hj] at hz ⊢
      exact hs.size j hz

theorem Put.congr (hp : Put v w i off src) (hptr : ptr w' = ptr w)
    (hdata : w'.data = w.data) : Put v w' i off src := by
  have hf : fblock w' = fblock w := by
    funext j bn
    rw [fblock, hptr]
    rfl
  have hb : fbyte w' = fbyte w := by
    funext j pos
    rw [fbyte, hf, hdata]
    rfl
  refine ⟨?_, ?_, ?_, ?_⟩
  · rw [hf]
    exact hp.keep
  · rw [hf]
    exact hp.room
  · rw [hb]
    exact hp.inside
  · rw [hb]
    exact hp.outside

end Put

/-- The pointers through which the bytes `[off, off + n)` of a file are reached. -/
def pointers (off n : Nat) : Finset Nat :=
  ((Finset.range n).image fun k => slot ((off + k) / BSIZE)) ∪
    (if NDIRECT ≤ (off + n - 1) / BSIZE ∧ 0 < n then {INDIRECT} else ∅)

theorem covers_pointers (off n : Nat) : Covers (pointers off n) off n := by
  intro pos h1 h2
  refine ⟨Finset.mem_union_left _ (Finset.mem_image.mpr ⟨pos - off, ?_, ?_⟩), fun hd => ?_⟩
  · rw [Finset.mem_range]
    omega
  · rw [Nat.add_sub_cancel' h1]
  · have hle : pos / BSIZE ≤ (off + n - 1) / BSIZE := Nat.div_le_div_right (by omega)
    refine Finset.mem_union_right _ ?_
    rw [if_pos ⟨hd.trans hle, by omega⟩]
    exact Finset.mem_singleton_self _

/-- The arguments that `writei` accepts. -/
def WriteRange (size off n : Nat) : Prop :=
  off ≤ size ∧ off + n < 2 ^ 32 ∧ off + n ≤ MAXFILE * BSIZE

/-- What a write has done once it has reached the disk: `ip` is as on disk again, the rest of
the cache as before. -/
structure Written (sb : Superblock) (ip : Ptr) (off : Nat) (src : List Byte) (s s' : State) : Prop where
  same : Same (blocks off src.length + 3) s s'
  put : Put (view sb s.disk) (view sb s'.disk) (s.icache ip).inum off src
  tab : PutTab (view sb s.disk) (view sb s'.disk) (s.icache ip).inum off src.length
  owned : Owned sb (view sb s'.disk)
  self : (s'.icache ip).d = (view sb s'.disk).tab (s.icache ip).inum
  other : ∀ q, q ≠ ip → (s'.icache q).d = (s.icache q).d
  only : ∀ j k, ptr (view sb s'.disk) (j, k) ≠ ptr (view sb s.disk) (j, k) →
    j = (s.icache ip).inum ∧ k ∈ pointers off src.length

/-- The new pointers are needed for the bytes written. -/
theorem needs_pointers (h : off + n ≤ size) (hk : k ∈ pointers off n) :
    Needs size k := by
  rcases Finset.mem_union.mp hk with hk | hk
  · obtain ⟨x, hx, rfl⟩ := Finset.mem_image.mp hk
    have hx := Finset.mem_range.mp hx
    have := Nat.div_mul_le_self (off + x) BSIZE
    rw [needs_slot]
    omega
  · split at hk
    · rename_i hd
      have := Nat.div_mul_le_self (off + n - 1) BSIZE
      have hle : NDIRECT * BSIZE ≤ (off + n - 1) / BSIZE * BSIZE := Nat.mul_le_mul_right _ hd.1
      rw [Finset.mem_singleton.mp hk, Needs, if_pos rfl]
      omega
    · exact absurd hk (Finset.notMem_empty k)

/-- The file grows with its pointers, and the others keep what they have. -/
theorem trim_put (ht : PutTab v w i off n) (h0 : (v.tab i).type ≠ 0)
    (honly : ∀ j k, ptr w (j, k) ≠ ptr v (j, k) → j = i ∧ k ∈ pointers off n) (h : Trim v) : Trim w := by
  refine h.of (fun j k hk => ?_) fun j hz => .inl ?_
  · by_cases he : ptr w (j, k) = ptr v (j, k)
    · refine .inr ⟨he ▸ hk, ?_⟩
      by_cases hj : j = i
      · rw [hj, ht.size]
        omega
      · rw [ht.other j hj]
    · obtain ⟨hj, hkp⟩ := honly j k he
      refine .inl (needs_pointers ?_ hkp)
      rw [hj, ht.size]
      omega
  · refine ht.other j fun hj => h0 ?_
    rw [hj, ht.fields] at hz
    exact hz

namespace Written
variable {off : Nat} {src : List Byte} (hw : Written sb ip off src s s')
include hw

theorem trims (h0 : ((view sb s.disk).tab (s.icache ip).inum).type ≠ 0) : Trims sb s s' :=
  trim_put hw.tab h0 hw.only

theorem good (hg : Good sb s) (href : 0 < (s.icache ip).ref) (hv : (s.icache ip).valid = true)
    (hoff : off ≤ ((view sb s.disk).tab (s.icache ip).inum).size.toNat)
    (hmax : off + src.length ≤ MAXFILE * BSIZE) :
    Good sb s' ∧ nodes sb s' = update (nodes sb s) (s.icache ip).inum
      ((nodes sb s (s.icache ip).inum).write off src) := by
  obtain ⟨hsync, h0⟩ := hg.sync ip href hv
  rw [hsync] at h0
  refine ⟨hg.rebuild hw.same hw.owned (solid_put hw.put hw.tab hg.solid hmax h0 hoff)
    fun q hq hvq => ?_, node_put hw.put hw.tab hg.solid h0 hoff⟩
  by_cases hqp : q = ip
  · subst hqp
    rw [hw.self]
    exact ⟨rfl, by rw [hw.tab.fields]; exact h0⟩
  · have hne : (s.icache q).inum ≠ (s.icache ip).inum := fun he => hqp (hg.once q ip hq href he)
    rw [hw.other q hqp, hw.tab.other _ hne]
    exact hg.sync q hq hvq

end Written

section Writing
variable {off : Nat} {src : List Byte} {t : State} (hg : Good sb s) (href : 0 < (s.icache ip).ref)
  (hv : (s.icache ip).valid = true) (he : Edits sb ip (blocks off src.length) s t)
  (hgt : Grows sb (s.icache ip).inum off src (pointers off src.length) (view sb s.disk) (mem sb t ip))
include hg href hv he hgt

theorem grown_runs (L : Layout sb) (hlen : off + src.length < 2 ^ 32)
    (hgrow : (s.icache ip).d.size.toNat < off + src.length) :
    Runs (do
      setDinode ip fun d => {d with size := BitVec.ofNat 32 (off + src.length)}
      iupdate sb ip) t (fun _ u => Written sb ip off src s u)
      (LogStop sb s (blocks off src.length + 2)) := by
  have hsync := (hg.sync ip href hv).1
  have hr := hg.ready href hv
  have hdt : (t.icache ip).d = {(s.icache ip).d with addrs := (t.icache ip).d.addrs} := he.fields
  refine bind_setDinode ?_
  generalize hu : (t.upd ip fun i => {i with d := {i.d with
    size := BitVec.ofNat 32 (off + src.length)}}) = u
  have hui : u.icache ip = {t.icache ip with d := {(t.icache ip).d with
      size := BitVec.ofNat 32 (off + src.length)}} := by rw [← hu, State.upd_self]
  have huo : ∀ q, q ≠ ip → u.icache q = t.icache q := fun q hq => by
    rw [← hu, State.upd_other _ _ _ hq]
  have hmu : mem sb u ip = (mem sb t ip).setTab (s.icache ip).inum
      {(t.icache ip).d with size := BitVec.ofNat 32 (off + src.length)} := by
    rw [mem, hui, ← hu, mem, he.inum, setTab_setTab, State.upd_disk]
  have hinum : (u.icache ip).inum = (s.icache ip).inum := by rw [hui]; exact he.inum
  have hsu : Same (blocks off src.length + 2) s u := by
    have hst := Same.of_edits he
    refine ⟨fun q => ?_, by rw [← hu]; exact hst.console, by rw [← hu]; exact hst.outstanding,
      by rw [← hu]; exact hst.lh⟩
    by_cases hq : q = ip
    · rw [hq, hui, hst.entry ip]
    · rw [huo q hq, hst.entry q]
  refine (iupdate_runs L u (by rw [hui]; exact (he.ready hr).dev)
    (by rw [hinum]; exact hr.inum)).mono (fun _ w hstored => ?_) fun e hstop => hsu.logStop hstop
  obtain ⟨hw, hwm⟩ : _ ∧ view sb w.disk = mem sb u ip := hstored
  have htt : (mem sb t ip).tab (s.icache ip).inum = (t.icache ip).d := by
    rw [← he.inum]
    exact mem_tab sb t ip
  have h0t : (t.icache ip).d.type ≠ 0 := (he.ready hr).type
  have hptr : ptr (view sb w.disk) = ptr (mem sb t ip) := by
    rw [hwm, hmu]
    exact ptr_setTab_fields (by rw [htt]; exact h0t) h0t (by rw [htt])
  have hti : (view sb w.disk).tab (s.icache ip).inum =
      {(t.icache ip).d with size := BitVec.ofNat 32 (off + src.length)} := by
    rw [hwm, hmu]
    exact update_self ..
  refine ⟨hsu.trans (Same.of_stored hw), hgt.put.congr hptr (by rw [hwm, hmu]; rfl), ?_, ?_, ?_, ?_,
    by rw [hptr]; exact hgt.only⟩
  · refine ⟨fun j hj => ?_, by rw [hti, ← hsync, hdt], ?_⟩
    · rw [hwm, hmu, View.setTab_tab, update_of_ne hj, mem, View.setTab_tab, he.inum,
        update_of_ne hj, he.tab]
    · rw [hti, ← hsync, BitVec.toNat_ofNat, Nat.mod_eq_of_lt hlen]
      omega
  · refine ⟨?_, ?_⟩
    · rw [hwm, hmu]
      exact hgt.owned.metadata
    · rw [hptr, hwm, hmu]
      exact hgt.owned.owner
  · rw [hw.icache, hui, hti]
  · intro q hq
    rw [hw.icache, huo q hq, he.entry, update_of_ne hq]

/-- The bytes are all inside the file: no block was missing, and the inode is as before. -/
theorem written_inside (hic : (∀ pos, off ≤ pos → pos < off + src.length →
      fblock (view sb s.disk) (s.icache ip).inum (pos / BSIZE) ≠ 0) → t.icache = s.icache)
    (hin : src.length = 0 ∨ off + src.length ≤ (s.icache ip).d.size.toNat)
    (hoff : off ≤ (s.icache ip).d.size.toNat) : Written sb ip off src s t := by
  obtain ⟨hsync, h0⟩ := hg.sync ip href hv
  have hic' : t.icache = s.icache := hic fun pos h1 h2 => by
    refine hg.solid.holes _ pos (by rw [← hsync]; exact h0) ?_
    rw [← hsync]
    omega
  have hmt : mem sb t ip = view sb t.disk := by
    rw [mem, hic', hsync, ← he.tab]
    simp only [View.setTab, update_eq_self]
  rw [hmt] at hgt
  refine ⟨(Same.of_edits he).mono (Nat.le_succ _), hgt.put,
    ⟨fun j _ => by rw [he.tab], by rw [he.tab], ?_⟩, hgt.owned, by rw [hic', he.tab]; exact hsync,
    fun q _ => by rw [hic'], hgt.only⟩
  rw [he.tab, ← hsync]
  omega

end Writing

/-- `writei` writes `src` over the contents at `off`; or, on bad arguments, it answers
`-1` and changes nothing. -/
theorem writei_runs (L : Layout sb) (hg : Good sb s) (hp : Points s ip i)
    (hv : (s.icache ip).valid = true) (ht : (nodes sb s i).type ≠ T_DEV)
    (hoff : off < 2 ^ 32) (hn : src.length < 2 ^ 32) :
    Runs (writei sb ip src off) s
      (fun r s' =>
        (WriteRange (nodes sb s i).data.length off src.length → r = some src.length ∧ Good sb s' ∧
          Same (blocks off src.length + 3) s s' ∧
          nodes sb s' = update (nodes sb s) i ((nodes sb s i).write off src) ∧
          Trims sb s s') ∧
        (¬ WriteRange (nodes sb s i).data.length off src.length → r = none ∧ s' = s))
      (fun e => (WriteRange (nodes sb s i).data.length off src.length ∧ 0 < src.length) ∧
        (LogStop sb s (blocks off src.length + 2) e ∨
          (e = .panic .balloc ∧ Short sb s ip (pointers off src.length)))) := by
  obtain ⟨href, rfl⟩ := hp
  obtain ⟨hsync, h0⟩ := hg.sync ip href hv
  have hmem := hg.mem_eq href hv
  have hr := hg.ready href hv
  have h0v : ((view sb s.disk).tab (s.icache ip).inum).type ≠ 0 := by rw [← hsync]; exact h0
  have hnode : nodes sb s (s.icache ip).inum = ⟨(s.icache ip).d.type, (s.icache ip).d.major,
      (s.icache ip).d.minor, (s.icache ip).d.nlink, content (view sb s.disk) (s.icache ip).inum⟩ := by
    rw [nodes, node, if_neg h0v, ← hsync]
  have hsize : (nodes sb s (s.icache ip).inum).data.length = (s.icache ip).d.size.toNat := by
    rw [hnode, length_content, ← hsync]
  rw [hsize]
  rw [hnode] at ht
  refine bind_inode ?_
  rw [if_neg ht]
  refine Runs.ite (fun hbad => Runs.pure ⟨fun ⟨h1, h2, _⟩ => ?_, fun _ => ⟨rfl, rfl⟩⟩) fun h1 => ?_
  · exact absurd hbad (by omega)
  refine Runs.ite (fun hbad => Runs.pure ⟨fun ⟨_, _, h3⟩ => ?_, fun _ => ⟨rfl, rfl⟩⟩) fun h2 => ?_
  · exact absurd hbad (by omega)
  have hrange : WriteRange (s.icache ip).d.size.toNat off src.length := ⟨by omega, by omega, by omega⟩
  refine (?run : Runs _ s (fun r s' => r = some src.length ∧ Written sb ip off src s s') _).post
    fun r s' ⟨hres, hw⟩ => ⟨fun _ => ?post, fun h => absurd hrange h⟩
  case post =>
    obtain ⟨hg', hn'⟩ := hw.good hg href hv (by rw [← hsync]; exact hrange.1) hrange.2.2
    exact ⟨hres, hg', hw.same, hn', hw.trims h0v⟩
  refine Runs.bind ((writei_from_runs _ _ L hr (by rw [hmem]; exact hg.owned) (Nat.le_refl _)
    hrange.2.2 (covers_pointers off src.length)).stops fun e ⟨hpos, he⟩ =>
      ⟨⟨hrange, hpos⟩, he.imp_left fun h => h.mono ?few⟩) fun r t ⟨hrt, het, hgt, hic⟩ => bind_inode ?_
  case few =>
    have := owes_le sb s.lh (indirect s ip)
    omega
  rw [hmem] at hgt hic
  rw [show (t.icache ip).d.size = (s.icache ip).d.size by rw [het.fields], hrt]
  by_cases hgrow : 0 < src.length ∧ (s.icache ip).d.size.toNat < off + src.length
  · rw [if_pos hgrow]
    exact Runs.bind ((grown_runs hg href hv het hgt L hrange.2.1 hgrow.2).stops fun e he =>
      ⟨⟨hrange, hgrow.1⟩, .inl he⟩) fun _ u hu => Runs.pure ⟨rfl, hu⟩
  · rw [if_neg hgrow]
    exact Runs.bind_ok rfl (Runs.pure ⟨rfl, written_inside hg href hv het hgt hic (by omega) hrange.1⟩)

end Xv6.Fs
