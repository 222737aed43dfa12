import Xv6.Bio.References

/-! What the cached data is.

A buffer that is valid and not being changed holds what was last stored in its block. A dirty
buffer is the only place that holds it, and stays where it is; a block without a dirty buffer has
it on the disk, so its buffer may be recycled and read again. -/
namespace Xv6.Bio
open Lib Function

variable {P : Type}

structure Data (s : Sys P) : Prop where
  current : ∀ b, (s.buf b).dev = ROOTDEV → (s.buf b).valid = true → s.changed b = false →
    (s.buf b).data = s.latest (s.buf b).blockno
  dirty : ∀ b, (s.buf b).dirty = true → (s.buf b).valid = true ∧ (s.buf b).dev = ROOTDEV
  clean : ∀ n, (∀ b, (s.buf b).dev = ROOTDEV → (s.buf b).blockno = n → (s.buf b).dirty = false) →
    s.disk n = s.latest n
  changed : ∀ b, s.changed b = true → ∃ p, b ∈ s.hand p
  valid : ∀ p b, b ∈ s.hand p → (s.buf b).valid = true

/-- What a buffer holds, and for which block. -/
structure SameData (q r : Buf P) : Prop where
  valid : r.valid = q.valid
  dirty : r.dirty = q.dirty
  dev : r.dev = q.dev
  blockno : r.blockno = q.blockno
  data : r.data = q.data

theorem SameData.of_upd {s t : Sys P} {b : Ptr} {f : Buf P → Buf P} (ht : t.buf = (s.upd b f).buf)
    (hf : SameData (s.buf b) (f (s.buf b))) (c : Ptr) : SameData (s.buf c) (t.buf c) := by
  rw [ht]
  by_cases hc : c = b
  · rw [hc, Sys.upd_self]
    exact hf
  · rw [Sys.upd_of_ne _ _ hc]
    exact ⟨rfl, rfl, rfl, rfl, rfl⟩

namespace Data
variable {s t : Sys P} {p : P} {b : Ptr} {n : Nat}

theorem boot (disk : Disk) : Data (Sys.boot disk : Sys P) where
  current b hd := by cases hd
  dirty b hd := by cases hd
  clean _ _ := rfl
  changed b hb := by cases hb
  valid p b hb := by cases hb

/-- Nothing is stored, loaded or changed. -/
theorem keep (h : Data s) (hbuf : ∀ c, SameData (s.buf c) (t.buf c)) (hdisk : t.disk = s.disk)
    (hchanged : t.changed = s.changed) (hlatest : t.latest = s.latest)
    (hhand : ∀ q c, c ∈ t.hand q → c ∈ s.hand q ∨ (s.buf c).valid = true)
    (hstill : ∀ c, s.changed c = true → ∃ q, c ∈ t.hand q) : Data t where
  current c hd hv hc := by
    rw [(hbuf c).dev] at hd
    rw [(hbuf c).valid] at hv
    rw [hchanged] at hc
    rw [(hbuf c).data, (hbuf c).blockno, hlatest]
    exact h.current c hd hv hc
  dirty c hd := by
    rw [(hbuf c).dirty] at hd
    rw [(hbuf c).valid, (hbuf c).dev]
    exact h.dirty c hd
  clean m hm := by
    rw [hdisk, hlatest]
    refine h.clean m fun c hd hc => ?_
    rw [← (hbuf c).dev] at hd
    rw [← (hbuf c).blockno] at hc
    rw [← (hbuf c).dirty]
    exact hm c hd hc
  changed c hc := by
    rw [hchanged] at hc
    exact hstill c hc
  valid q c hc := by
    rw [(hbuf c).valid]
    exact (hhand q c hc).elim (h.valid q c) id

theorem keep_hand (h : Data s) (hbuf : ∀ c, SameData (s.buf c) (t.buf c)) (hdisk : t.disk = s.disk)
    (hchanged : t.changed = s.changed) (hlatest : t.latest = s.latest) (hhand : t.hand = s.hand) : Data t :=
  h.keep hbuf hdisk hchanged hlatest (fun q c hc => .inl (hhand ▸ hc)) fun c hc => by
    rw [hhand]
    exact h.changed c hc

/-! ### Loading and storing -/

theorem one (h : Data s) (hbuf : ∀ c, c ≠ b → t.buf c = s.buf c) (hhand : t.hand = s.hand)
    (hchanged : ∀ c, c ≠ b → t.changed c = s.changed c)
    (hlatest : ∀ c, c ≠ b → (s.buf c).dev = ROOTDEV → t.latest (s.buf c).blockno = s.latest (s.buf c).blockno)
    (current : (t.buf b).dev = ROOTDEV → (t.buf b).valid = true → t.changed b = false →
      (t.buf b).data = t.latest (t.buf b).blockno)
    (dirty : (t.buf b).dirty = true → (t.buf b).valid = true ∧ (t.buf b).dev = ROOTDEV)
    (clean : ∀ n, (∀ c, (t.buf c).dev = ROOTDEV → (t.buf c).blockno = n → (t.buf c).dirty = false) →
      t.disk n = t.latest n)
    (changed : t.changed b = true → ∃ p, b ∈ s.hand p)
    (valid : ∀ p, b ∈ s.hand p → (t.buf b).valid = true) : Data t where
  current c hd hv hc := by
    by_cases hcb : c = b
    · rw [hcb] at hd hv hc ⊢
      exact current hd hv hc
    · rw [hbuf c hcb] at hd hv ⊢
      rw [hchanged c hcb] at hc
      rw [hlatest c hcb hd]
      exact h.current c hd hv hc
  dirty c hd := by
    by_cases hcb : c = b
    · rw [hcb] at hd ⊢
      exact dirty hd
    · rw [hbuf c hcb] at hd ⊢
      exact h.dirty c hd
  clean := clean
  changed c hc := by
    rw [hhand]
    by_cases hcb : c = b
    · rw [hcb] at hc ⊢
      exact changed hc
    · rw [hchanged c hcb] at hc
      exact h.changed c hc
  valid q c hc := by
    rw [hhand] at hc
    by_cases hcb : c = b
    · rw [hcb] at hc ⊢
      exact valid q hc
    · rw [hbuf c hcb]
      exact h.valid q c hc

theorem modify (h : Data s) (hb : b ∈ s.hand p) (data : Block) : Data (s.modify b data) := by
  have hbuf : (s.modify b data).buf b = {s.buf b with data := data} := by
    rw [Sys.modify_buf, Sys.upd_self]
  have hother : ∀ c, c ≠ b → (s.modify b data).buf c = s.buf c := fun c hc => by
    rw [Sys.modify_buf, Sys.upd_of_ne _ _ hc]
  refine h.one (b := b) hother rfl (fun c hc => update_of_ne hc ..) (fun _ _ _ => rfl) (fun _ _ hc => ?_)
    (fun hd => ?_) (fun m hm => h.clean m fun c hd hc => ?_) (fun _ => ⟨p, hb⟩) fun q hq => ?_
  · have : update s.changed b true b = false := hc
    rw [update_self] at this
    cases this
  · rw [hbuf] at hd ⊢
    exact h.dirty b hd
  · have hc' := hm c
    by_cases hcb : c = b
    · rw [hcb, hbuf] at hc'
      rw [hcb] at hd hc ⊢
      exact hc' hd hc
    · rw [hother c hcb] at hc'
      exact hc' hd hc
  · rw [hbuf]
    exact h.valid q b hq

/-- A buffer stores its data, in the log (`dirty`) or on the disk. -/
theorem store (h : Data s) (hroot : (s.buf b).dev = ROOTDEV)
    (hone : ∀ c, (s.buf c).dev = ROOTDEV → (s.buf c).blockno = (s.buf b).blockno → c = b)
    (hother : ∀ c, c ≠ b → t.buf c = s.buf c) (hhand : t.hand = s.hand)
    (hchanged : t.changed = update s.changed b false)
    (hlatest : t.latest = update s.latest (s.buf b).blockno (s.buf b).data)
    (hdev : (t.buf b).dev = (s.buf b).dev) (hblock : (t.buf b).blockno = (s.buf b).blockno)
    (hdata : (t.buf b).data = (s.buf b).data) (hvalid : (t.buf b).valid = true)
    (hdisk : ((t.buf b).dirty = true ∧ t.disk = s.disk) ∨
      t.disk = update s.disk (s.buf b).blockno (s.buf b).data) : Data t := by
  refine h.one (b := b) hother hhand (fun c hc => by rw [hchanged, update_of_ne hc]) (fun c hc hd => ?_)
    (fun _ _ _ => ?_) (fun _ => ⟨hvalid, hdev.trans hroot⟩) (fun m hm => ?_) (fun hc => ?_) fun _ _ => hvalid
  · rw [hlatest, update_of_ne fun he => hc (hone c hd he)]
  · rw [hdata, hblock, hlatest, update_self]
  · by_cases hmb : m = (s.buf b).blockno
    · obtain ⟨hd, _⟩ | hd := hdisk
      · have := hm b (hdev.trans hroot) (hblock.trans hmb.symm)
        rw [hd] at this
        cases this
      · rw [hd, hlatest, hmb, update_self, update_self]
    · have hsame : t.disk m = s.disk m := by
        obtain ⟨_, hd⟩ | hd := hdisk
        · rw [hd]
        · rw [hd, update_of_ne hmb]
      rw [hsame, hlatest, update_of_ne hmb]
      refine h.clean m fun c hd hc => ?_
      have hcb : c ≠ b := fun he => hmb (by rw [← hc, he])
      have := hm c
      rw [hother c hcb] at this
      exact this hd hc
  · rw [hchanged, update_self] at hc
    cases hc

/-- A buffer that is not valid is read from the disk. -/
theorem load (h : Data s) (hd : (s.buf b).dirty = false)
    (hone : ∀ c, (s.buf c).dev = ROOTDEV → (s.buf c).blockno = (s.buf b).blockno → c = b) : Data (s.load b) := by
  have hbuf : (s.load b).buf b = {s.buf b with data := s.disk (s.buf b).blockno, valid := true} := Sys.upd_self s b _
  have hother : ∀ c, c ≠ b → (s.load b).buf c = s.buf c := fun c hc => Sys.upd_of_ne s _ hc
  refine h.one (b := b) hother rfl (fun _ _ => rfl) (fun _ _ _ => rfl) (fun hr _ _ => ?_) (fun hd' => ?_)
    (fun m hm => h.clean m fun c hdc hc => ?_) (fun hc => h.changed b hc) fun _ _ => by rw [hbuf]
  · rw [hbuf] at hr ⊢
    refine h.clean _ fun c hdc hc => ?_
    rw [hone c hdc hc]
    exact hd
  · rw [hbuf] at hd'
    rw [hd] at hd'
    cases hd'
  · by_cases hcb : c = b
    · rw [hcb]
      exact hd
    · have := hm c
      rw [hother c hcb] at this
      exact this hdc hc

/-- A buffer that nobody has and the log does not pin becomes another block's. -/
theorem recycle [DecidableEq P] (h : Data s) (hfree : ∀ q, b ∉ s.hand q) (hd : (s.buf b).dirty = false) :
    Data (s.recycle p ROOTDEV n b) := by
  have hbuf : (s.recycle p ROOTDEV n b).buf b =
      {s.buf b with dev := ROOTDEV, blockno := n, valid := false, dirty := false, refcnt := 1} := by
    rw [Sys.recycle_buf, Sys.upd_self]
  have hother : ∀ c, c ≠ b → (s.recycle p ROOTDEV n b).buf c = s.buf c := fun c hc => by
    rw [Sys.recycle_buf, Sys.upd_of_ne _ _ hc]
  refine h.one (b := b) hother rfl (fun _ _ => rfl) (fun _ _ _ => rfl) (fun _ hv => ?_) (fun hd' => ?_)
    (fun m hm => h.clean m fun c hdc hc => ?_) (fun hc => h.changed b hc) fun q hq => absurd hq (hfree q)
  · rw [hbuf] at hv
    cases hv
  · rw [hbuf] at hd'
    cases hd'
  · by_cases hcb : c = b
    · rw [hcb]
      exact hd
    · have := hm c
      rw [hother c hcb] at this
      exact this hdc hc

end Data

/-! ### Every step keeps it -/

variable [Fintype P] {disksize : Nat} {s s' : Sys P} {p : P} {b : Ptr} {n : Nat}

/-- A process that has just locked a buffer finds its data as it was last stored. -/
theorem Data.unchanged (hr : Refs s) (h : Data s) (hp : s.pc p = .locked n b) : s.changed b = false := by
  rw [Bool.eq_false_iff]
  intro hc
  obtain ⟨q, hq⟩ := h.changed b hc
  have hholds : s.holds p = b :: s.hand p := by rw [Sys.holds, hp]; rfl
  have hlp := hr.lock p b (by rw [hholds]; exact List.mem_cons_self ..)
  have hlq := hr.lock q b (List.mem_append_right _ hq)
  rw [hlp] at hlq
  obtain rfl := Option.some.inj hlq
  have := hr.once p
  rw [hholds] at this
  exact (List.nodup_cons.mp this).1 hq

variable [DecidableEq P]

theorem Data.loaded (hr : Refs s) (h : Data s)
    (hv : (s.buf b).valid = false) (ht : s.iderw disksize p b = some t) : t = s.load b ∧ Data t := by
  obtain ⟨hroot, ⟨hd, _⟩ | ⟨hd, _, rfl⟩⟩ := of_iderw ht
  · rw [(h.dirty b hd).1] at hv
    cases hv
  · exact ⟨rfl, h.load hd fun c hc hcb => hr.unique c b hc hroot hcb⟩

theorem Data.step {a : Action P} (hr : Refs s) (h : Data s) (hs : Bio.step disksize s a = some s') : Data s' := by
  have hone : ∀ {p b}, s.Has p b → (s.buf b).dev = ROOTDEV ∧
      ∀ c, (s.buf c).dev = ROOTDEV → (s.buf c).blockno = (s.buf b).blockno → c = b := by
    intro p b hb
    have hroot := hr.root p b (List.mem_append_right _ hb.2)
    exact ⟨hroot, fun c hc hcb => hr.unique c b hc hroot hcb⟩
  have hgive : ∀ {t : Sys P} {p b}, Data t → (t.buf b).valid = true → Data (t.give p b) := by
    intro t p b ht hv
    refine ht.keep (fun c => ⟨rfl, rfl, rfl, rfl, rfl⟩) rfl rfl rfl (fun q c hc => ?_) fun c hc => ?_
    · have hc : c ∈ update t.hand p (b :: t.hand p) q := hc
      rw [update_apply] at hc
      split at hc
      case isTrue hq =>
        obtain rfl | hc := List.mem_cons.mp hc
        · exact .inr hv
        · exact .inl (hq ▸ hc)
      case isFalse => exact .inl hc
    · obtain ⟨q, hq⟩ := ht.changed c hc
      refine ⟨q, ?_⟩
      show c ∈ update t.hand p (b :: t.hand p) q
      rw [update_apply]
      split
      case isTrue he => exact List.mem_cons_of_mem _ (he ▸ hq)
      case isFalse => exact hq
  cases a with
  | bread p n =>
    obtain ⟨_, ⟨b, _, rfl⟩ | ⟨b, _, hv, rfl⟩⟩ := of_bread hs
    · exact h.keep_hand (.of_upd (Sys.share_buf ..) ⟨rfl, rfl, rfl, rfl, rfl⟩) rfl rfl rfl rfl
    · obtain ⟨h0, hd⟩ := of_victim hv
      exact h.recycle (fun q hq => hr.not_mem_uses h0 q (List.mem_append_right _ hq)) hd
  | acquire p =>
    obtain ⟨n, b, _, _, rfl⟩ := of_acquire hs
    exact h.keep_hand (.of_upd (Sys.acquire_buf ..) ⟨rfl, rfl, rfl, rfl, rfl⟩) rfl rfl rfl rfl
  | fetch p =>
    obtain ⟨n, b, hp, ⟨hv, rfl⟩ | ⟨hv, t, ht, rfl⟩⟩ := of_fetch hs
    · exact hgive h hv
    · obtain ⟨rfl, hl⟩ := Data.loaded hr h hv ht
      exact hgive hl (by rw [Sys.load, Sys.upd_self])
  | modify p b data =>
    obtain ⟨hb, rfl⟩ := of_modify hs
    exact h.modify hb.2 data
  | bwrite p b =>
    obtain ⟨hb, rfl⟩ := of_bwrite hs
    obtain ⟨hroot, huniq⟩ := hone hb
    have hm : (s.mark b).buf b = {s.buf b with dirty := true} := Sys.upd_self s b _
    have hf : ((s.mark b).flush b).buf b = {(s.mark b).buf b with dirty := false, valid := true} := by
      rw [Sys.flush_buf, Sys.upd_self]
    refine h.store hroot huniq (fun c hc => ?_) rfl rfl ?_ ?_ ?_ ?_ ?_ (.inr ?_)
    · rw [Sys.store_buf, Sys.flush_buf, Sys.upd_of_ne _ _ hc, Sys.mark, Sys.upd_of_ne _ _ hc]
    · show update s.latest (((s.mark b).flush b).buf b).blockno (((s.mark b).flush b).buf b).data = _
      rw [hf, hm]
    · rw [Sys.store_buf, hf, hm]
    · rw [Sys.store_buf, hf, hm]
    · rw [Sys.store_buf, hf, hm]
    · rw [Sys.store_buf, hf]
    · show update s.disk ((s.mark b).buf b).blockno ((s.mark b).buf b).data = _
      rw [hm]
  | log_write p b =>
    obtain ⟨hb, rfl⟩ := of_log_write hs
    obtain ⟨hroot, huniq⟩ := hone hb
    have hm : (s.mark b).buf b = {s.buf b with dirty := true} := Sys.upd_self s b _
    have hl : (s.log_write b).buf b = {s.buf b with dirty := true} := hm
    refine h.store hroot huniq (fun c hc => ?_) rfl rfl ?_ ?_ ?_ ?_ ?_ (.inl ⟨?_, rfl⟩)
    · rw [Sys.log_write, Sys.store_buf, Sys.mark, Sys.upd_of_ne _ _ hc]
    · show update s.latest ((s.mark b).buf b).blockno ((s.mark b).buf b).data = _
      rw [hm]
    · rw [hl]
    · rw [hl]
    · rw [hl]
    · rw [hl]
      exact h.valid p b hb.2
    · rw [hl]
  | brelse p b =>
    obtain ⟨_, hcb, rfl⟩ := of_brelse hs
    refine h.keep (.of_upd (Sys.brelse_buf ..) ⟨rfl, rfl, rfl, rfl, rfl⟩) rfl rfl rfl (fun q c hc => .inl ?_)
      fun c hc => ?_
    · have hc : c ∈ update s.hand p ((s.hand p).erase b) q := hc
      rw [update_apply] at hc
      split at hc
      case isTrue hq => exact hq ▸ List.mem_of_mem_erase hc
      case isFalse => exact hc
    · obtain ⟨q, hq⟩ := h.changed c hc
      have hne : c ≠ b := by
        rintro rfl
        rw [hcb] at hc
        cases hc
      refine ⟨q, ?_⟩
      show c ∈ update s.hand p ((s.hand p).erase b) q
      rw [update_apply]
      split
      case isTrue he => exact (List.mem_erase_of_ne hne).mpr (he ▸ hq)
      case isFalse => exact hq
  | put p =>
    obtain ⟨b, _, rfl⟩ := of_put hs
    have hrest : (s.put p b).disk = s.disk ∧ (s.put p b).changed = s.changed ∧ (s.put p b).latest = s.latest ∧
        (s.put p b).hand = s.hand := by
      rw [Sys.put]
      split
      case isTrue => exact ⟨rfl, rfl, rfl, rfl⟩
      case isFalse => exact ⟨rfl, rfl, rfl, rfl⟩
    exact h.keep_hand (.of_upd (Sys.put_buf ..) ⟨rfl, rfl, rfl, rfl, rfl⟩) hrest.1 hrest.2.1 hrest.2.2.1 hrest.2.2.2

/-- What `bread` returns: the block asked for, as it was last stored. -/
theorem bread_returns (hr : Refs s) (h : Data s) (hp : s.pc p = .locked n b)
    (hs : step disksize s (.fetch p) = some s') :
    b ∈ s'.hand p ∧ (s'.buf b).blockno = n ∧ (s'.buf b).data = s.latest n := by
  have hroot := hr.root p b (by rw [Sys.uses, hp]; exact List.mem_cons_self ..)
  have hask := hr.asked p n b (.inr hp)
  have hsame := h.unchanged hr hp
  obtain ⟨m, c, hc, hcase⟩ := of_fetch hs
  rw [hp, Pc.locked.injEq] at hc
  obtain ⟨rfl, rfl⟩ := hc
  have hmem : ∀ t : Sys P, b ∈ (t.give p b).hand p := fun t => by
    show b ∈ update t.hand p (b :: t.hand p) p
    rw [update_self]
    exact List.mem_cons_self ..
  obtain ⟨hv, rfl⟩ | ⟨hv, t, ht, rfl⟩ := hcase
  · refine ⟨hmem s, hask, ?_⟩
    rw [← hask]
    exact h.current b hroot hv hsame
  · obtain ⟨rfl, hl⟩ := Data.loaded hr h hv ht
    have hbuf : (s.load b).buf b = {s.buf b with data := s.disk (s.buf b).blockno, valid := true} := Sys.upd_self s b _
    refine ⟨hmem _, ?_, ?_⟩
    · show ((s.load b).buf b).blockno = n
      rw [hbuf]
      exact hask
    · have hcur := hl.current b (by rw [hbuf]; exact hroot) (by rw [hbuf]) hsame
      rw [hbuf] at hcur
      show ((s.load b).buf b).data = s.latest n
      rw [hbuf, ← hask]
      exact hcur

theorem coherent_run (hrun : run (step disksize) (Sys.boot disk) as = some s) :
    Refs s ∧ Data s :=
  run_invariant (I := fun _ s => Refs s ∧ Data s) ⟨.boot disk, .boot disk⟩
    (fun _ _ _ _ h hs => ⟨h.1.step hs, h.2.step h.1 hs⟩) hrun

/-- **The buffer cache is coherent.** After any run of any number of processes: the list of the cache
has every buffer once, with `prev` and `next` consistent; no block of the root device has two buffers;
no step recycles a buffer that is referred to or dirty; and a call of `bread` that returns gives the
block asked for, with the data last stored in it by `bwrite` or `log_write`, or that of the disk at boot
when there is none. -/
theorem cache_coherent {disk : Disk} {as : List (Action P)} {s : Sys P}
    (hrun : run (step disksize) (Sys.boot disk) as = some s) :
    (∃ l, s.links.Circle l ∧ ∀ b, b ∈ l) ∧
    (∀ b c, (s.buf b).dev = ROOTDEV → (s.buf c).dev = ROOTDEV → (s.buf b).blockno = (s.buf c).blockno → b = c) ∧
    (∀ a s' b, step disksize s a = some s' →
      (s'.buf b).dev ≠ (s.buf b).dev ∨ (s'.buf b).blockno ≠ (s.buf b).blockno →
      (s.buf b).refcnt = 0 ∧ (s.buf b).dirty = false) ∧
    ∀ p n b s', s.pc p = .locked n b → step disksize s (.fetch p) = some s' →
      b ∈ s'.hand p ∧ (s'.buf b).blockno = n ∧ (s'.buf b).data = s.latest n := by
  obtain ⟨hr, hd⟩ := coherent_run hrun
  exact ⟨hr.lru, hr.unique, fun _ _ _ hs hb => recycled_idle hs hb, fun _ _ _ _ hp hs => bread_returns hr hd hp hs⟩

/-- Process 0 asks for block 7 and has locked its buffer; what it will get is the block on the disk. -/
theorem cache_coherent_first : ∃ s, run (step FSSIZE) (Sys.boot fun _ => Bytes.zero)
    [.bread (0 : Fin NPROC) 7, .acquire 0] = some s ∧ s.pc 0 = .locked 7 0 ∧
    ∀ s', step FSSIZE s (.fetch 0) = some s' → (s'.buf 0).data = s.latest 7 := by
  have hany : (run (step FSSIZE) (Sys.boot fun _ => Bytes.zero)
      [.bread (0 : Fin NPROC) 7, .acquire 0]).any (fun s => s.pc 0 = .locked 7 0) = true := by
    decide +kernel
  obtain ⟨s, hr, h⟩ := run_any hany
  have hp := of_decide_eq_true h
  obtain ⟨_, _, _, hread⟩ := cache_coherent hr
  exact ⟨s, hr, hp, fun s' hs => (hread 0 7 0 s' hp hs).2.2⟩

end Xv6.Bio
