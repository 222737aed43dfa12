import Xv6.Fs.TruncProofs

/-! What the cache functions do: `iget`, `idup`, `ilock`, `iunlock`, `iput`, `ialloc`. -/
namespace Xv6.Fs
open Lib Function

variable {sb : Superblock} {s s' s'' : State} {ip : Ptr} {i j k : Nat}

/-- Only the inode cache changes. -/
structure Quiet (s s' : State) : Prop where
  disk : s'.disk = s.disk
  lh : s'.lh = s.lh
  outstanding : s'.outstanding = s.outstanding
  console : s'.console = s.console

/-- Pointers stay pointers. -/
def Keeps (s s' : State) : Prop := ∀ q j, Points s q j → Points s' q j

theorem Quiet.refl (s : State) : Quiet s s := ⟨rfl, rfl, rfl, rfl⟩

theorem Quiet.trans (h : Quiet s s') (h' : Quiet s' s'') : Quiet s s'' :=
  ⟨h'.disk.trans h.disk, h'.lh.trans h.lh, h'.outstanding.trans h.outstanding,
    h'.console.trans h.console⟩

theorem Quiet.upd (s : State) (ip : Ptr) (f : Inode → Inode) : Quiet s (s.upd ip f) :=
  ⟨rfl, rfl, rfl, rfl⟩

theorem Quiet.nodes (h : Quiet s s') : nodes sb s' = nodes sb s := by
  rw [Fs.nodes, Fs.nodes, h.disk]

theorem Keeps.trans (h : Keeps s s') (h' : Keeps s' s'') : Keeps s s'' :=
  fun q j hq => h' q j (h q j hq)

theorem Same.keeps (h : Same k s s') : Keeps s s' := fun _ _ hq => h.points.mpr hq

/-! ### Changing one entry -/

theorem refs_congr (h : ∀ q, Points s' q j ↔ Points s q j)
    (hk : ∀ q, Points s q j → (s'.icache q).known = (s.icache q).known) : refs s' j = refs s j := by
  have hp : ∀ q, decide (Points s' q j) = decide (Points s q j) := fun q =>
    decide_eq_decide.mpr (h q)
  simp only [refs, hp]
  split
  · rename_i q hq
    exact hk q (by simpa using List.find?_some hq)
  · rfl

section Upd
variable {f : Inode → Inode}

/-- A change of one entry that keeps its number shows in the references to that inode only. -/
theorem refs_upd (hg : Good sb s) (hp : Points s ip i)
    (hf : (f (s.icache ip)).inum = (s.icache ip).inum) :
    refs (s.upd ip f) = update (refs s) i
      (if 0 < (f (s.icache ip)).ref then (f (s.icache ip)).known else .none) := by
  have hother : ∀ q, q ≠ ip → (s.upd ip f).icache q = s.icache q := fun q => State.upd_other s ip f
  funext j
  by_cases hj : j = i
  · rw [hj, update_self]
    have hq : ∀ q, Points (s.upd ip f) q i → q = ip := fun q hq => by
      by_contra hne
      rw [Points, hother q hne] at hq
      exact hne (hg.points_unique hq hp)
    by_cases hpos : 0 < (f (s.icache ip)).ref
    · have hpp : Points (s.upd ip f) ip i := by
        rw [Points, State.upd_self, hf]
        exact ⟨hpos, hp.2⟩
      rw [if_pos hpos, refs]
      cases hfind : (List.finRange NINODE).find? fun q => decide (Points (s.upd ip f) q i) with
      | some q =>
        have := hq q (by simpa using List.find?_some hfind)
        show ((s.upd ip f).icache q).known = _
        rw [this, State.upd_self]
      | none =>
        have := List.find?_eq_none.mp hfind ip (List.mem_finRange ip)
        simp [hpp] at this
    · rw [if_neg hpos]
      refine refs_eq_none fun q hq' => hpos ?_
      rw [hq q hq', Points, State.upd_self] at hq'
      exact hq'.1
  · rw [update_of_ne hj]
    have hip : ∀ q, Points s q j → q ≠ ip := fun q hq he => hj (by rw [← hq.2, he, hp.2])
    refine refs_congr (fun q => ?_) fun q hq => by rw [hother q (hip q hq)]
    by_cases hq : q = ip
    · rw [hq, Points, Points, State.upd_self, hf, hp.2]
      exact iff_of_false (fun h => hj h.2.symm) fun h => hj h.2.symm
    · rw [Points, Points, hother q hq]

/-- A change of counts and flags of one entry is harmless when the entry stays as on disk. -/
theorem Good.upd (hg : Good sb s) (hdev : (f (s.icache ip)).dev = (s.icache ip).dev)
    (hinum : (f (s.icache ip)).inum = (s.icache ip).inum) (href : 0 < (s.icache ip).ref)
    (hsync : 0 < (f (s.icache ip)).ref → (f (s.icache ip)).valid = true →
      (f (s.icache ip)).d = (view sb s.disk).tab (s.icache ip).inum ∧ (f (s.icache ip)).d.type ≠ 0)
    (hidle : (f (s.icache ip)).ref = 0 → (f (s.icache ip)).locked = false) :
    Good sb (s.upd ip f) := by
  have hpos : ∀ q, 0 < ((s.upd ip f).icache q).ref → 0 < (s.icache q).ref := fun q hq => by
    by_cases he : q = ip
    · rw [he]
      exact href
    · rwa [State.upd_other _ _ _ he] at hq
  have hin : ∀ q, ((s.upd ip f).icache q).inum = (s.icache q).inum ∧
      ((s.upd ip f).icache q).dev = (s.icache q).dev := fun q => by
    by_cases he : q = ip
    · rw [he, State.upd_self]
      exact ⟨hinum, hdev⟩
    · rw [State.upd_other _ _ _ he]
      exact ⟨rfl, rfl⟩
  refine ⟨hg.owned, hg.solid, fun q hq hv => ?_, fun q hq => ?_, fun p q hp hq he => ?_,
    fun q hq => ?_⟩
  · by_cases he : q = ip
    · rw [he, State.upd_self] at hq hv ⊢
      rw [hinum]
      exact hsync hq hv
    · rw [State.upd_other _ _ _ he] at hq hv ⊢
      exact hg.sync q hq hv
  · rw [(hin q).1, (hin q).2]
    exact hg.inum q (hpos q hq)
  · rw [(hin p).1, (hin q).1] at he
    exact hg.once p q (hpos p hp) (hpos q hq) he
  · by_cases he : q = ip
    · rw [he, State.upd_self] at hq ⊢
      exact hidle hq
    · rw [State.upd_other _ _ _ he] at hq ⊢
      exact hg.idle q hq

theorem keeps_upd (hinum : (f (s.icache ip)).inum = (s.icache ip).inum)
    (href : 0 < (f (s.icache ip)).ref) : Keeps s (s.upd ip f) := fun q j hq => by
  by_cases he : q = ip
  · rw [he, Points, State.upd_self, hinum]
    rw [he] at hq
    exact ⟨href, hq.2⟩
  · rw [Points, State.upd_other _ _ _ he]
    exact hq

end Upd

/-! ### `iget` and `idup` -/

/-- One more reference. -/
def Ref.inc (r : Ref) : Ref := {r with count := r.count + 1}

/-- The entry `iget` recycles for inode `inum`. -/
def recycled (inum : Nat) (i : Inode) : Inode :=
  {i with dev := ROOTDEV, inum := inum, ref := 1, valid := false}

section Recycle
variable (hg : Good sb s) (h0 : (s.icache ip).ref = 0) (hno : ∀ q, ¬ Points s q i)
include h0

theorem recycle_points : Points (s.upd ip (recycled i)) q j ↔ (q = ip ∧ j = i) ∨ Points s q j := by
  by_cases he : q = ip
  · rw [he, Points, State.upd_self, Points, h0]
    constructor
    · rintro ⟨_, h⟩
      exact .inl ⟨rfl, h.symm⟩
    · rintro (⟨_, h⟩ | ⟨h, _⟩)
      · exact ⟨Nat.one_pos, h.symm⟩
      · exact absurd h (Nat.lt_irrefl 0)
  · rw [Points, State.upd_other _ _ _ he]
    exact ⟨.inr, fun h => h.resolve_left fun h => he h.1⟩

include hg hno

theorem recycle_refs : refs (s.upd ip (recycled i)) = update (refs s) i (refs s i).inc := by
  have hnone : refs s i = .none := refs_eq_none hno
  have hlock := hg.idle ip h0
  funext j
  by_cases hj : j = i
  · rw [hj, update_self, hnone, refs]
    cases hfind : (List.finRange NINODE).find? fun q =>
        decide (Points (s.upd ip (recycled i)) q i) with
    | some q =>
      have hq : Points (s.upd ip (recycled i)) q i := by simpa using List.find?_some hfind
      rcases (recycle_points h0).mp hq with ⟨rfl, _⟩ | hq
      · show ((s.upd q (recycled i)).icache q).known = _
        rw [State.upd_self, Inode.known, recycled, hlock]
        rfl
      · exact absurd hq (hno q)
    | none =>
      have hp : Points (s.upd ip (recycled i)) ip i := (recycle_points h0).mpr (.inl ⟨rfl, rfl⟩)
      have := List.find?_eq_none.mp hfind ip (List.mem_finRange ip)
      simp [hp] at this
  · rw [update_of_ne hj]
    refine refs_congr (fun q => ?_) fun q hq => ?_
    · rw [recycle_points h0]
      exact ⟨fun h => h.resolve_left fun h => hj h.2, .inr⟩
    · rw [State.upd_other]
      intro he
      rw [he, Points, h0] at hq
      exact absurd hq.1 (Nat.lt_irrefl 0)

omit h0 in
theorem recycle_good (hi : i < sb.ninodes) : Good sb (s.upd ip (recycled i)) := by
  have hpos : ∀ q, q ≠ ip → (s.upd ip (recycled i)).icache q = s.icache q := fun q =>
    State.upd_other s ip _
  have hself : (s.upd ip (recycled i)).icache ip = recycled i (s.icache ip) := State.upd_self ..
  refine ⟨hg.owned, hg.solid, fun q hq hv => ?_, fun q hq => ?_, fun p q hp hq he => ?_,
    fun q hq => ?_⟩
  · by_cases he : q = ip
    · rw [he, hself] at hv
      cases hv
    · rw [hpos q he] at hq hv ⊢
      exact hg.sync q hq hv
  · by_cases he : q = ip
    · rw [he, hself]
      exact ⟨rfl, hi⟩
    · rw [hpos q he] at hq ⊢
      exact hg.inum q hq
  · by_cases hpe : p = ip <;> by_cases hqe : q = ip
    · rw [hpe, hqe]
    · rw [hpe, hself, hpos q hqe] at he
      rw [hpos q hqe] at hq
      exact absurd ⟨hq, he.symm⟩ (hno q)
    · rw [hqe, hself, hpos p hpe] at he
      rw [hpos p hpe] at hp
      exact absurd ⟨hp, he⟩ (hno p)
    · rw [hpos p hpe, hpos q hqe] at he
      rw [hpos p hpe] at hp
      rw [hpos q hqe] at hq
      exact hg.once p q hp hq he
  · by_cases he : q = ip
    · rw [he, hself] at hq
      cases hq
    · rw [hpos q he] at hq ⊢
      exact hg.idle q hq

end Recycle

theorem dup_spec (hg : Good sb s) (hp : Points s ip i) :
    Good sb (s.upd ip fun i => {i with ref := i.ref + 1}) ∧
    Keeps s (s.upd ip fun i => {i with ref := i.ref + 1}) ∧
    refs (s.upd ip fun i => {i with ref := i.ref + 1}) =
      update (refs s) i (refs s i).inc := by
  refine ⟨hg.upd rfl rfl hp.1 (fun _ hv => hg.sync ip hp.1 hv) fun h => ?_,
    keeps_upd rfl (Nat.succ_pos _), ?_⟩
  · cases h
  · rw [refs_upd hg hp rfl, if_pos (Nat.succ_pos _), hg.refs_eq hp]
    rfl

/-- No entry of the cache is free, and inode `i` is not in it. -/
def CacheFull (s : State) (i : Nat) : Prop :=
  (∀ q, 0 < (s.icache q).ref) ∧ (refs s i).count = 0

theorem iget_runs (hg : Good sb s) (hi : i < sb.ninodes) :
    Runs (iget ROOTDEV i) s
      (fun ip s' => Good sb s' ∧ Quiet s s' ∧ Keeps s s' ∧ Points s' ip i ∧ ¬ CacheFull s i ∧
        refs s' = update (refs s) i (refs s i).inc)
      (fun e => e = .panic .iget ∧ CacheFull s i) := by
  refine Runs.bind_get ?_
  split
  · rename_i ip hfind
    have hp : Points s ip i := by
      have := List.find?_some hfind
      simp only [Bool.and_eq_true, decide_eq_true_eq, beq_iff_eq] at this
      exact ⟨this.1.1, this.2⟩
    obtain ⟨h1, h2, h3⟩ := dup_spec hg hp
    have hroom : ¬ CacheFull s i := fun hf => by
      rw [CacheFull, hg.refs_eq hp] at hf
      exact absurd hf.2 (Nat.ne_of_gt hp.1)
    exact Runs.bind_ok rfl (Runs.pure ⟨h1, Quiet.upd s ip _, h2, h2 ip i hp, hroom, h3⟩)
  · rename_i hfind
    have hno : ∀ q, ¬ Points s q i := fun q hq => by
      have := List.find?_eq_none.mp hfind q (List.mem_finRange q)
      simp [hq.1, hq.2, (hg.inum q hq.1).1] at this
    split
    · rename_i ip hfind
      have h0 : (s.icache ip).ref = 0 := by simpa using List.find?_some hfind
      refine bind_setInode (Runs.pure
        ⟨recycle_good hg hno hi, Quiet.upd s ip _, fun q j hq => ?_, ?_, fun hf => ?_,
          recycle_refs hg h0 hno⟩)
      · exact (recycle_points h0).mpr (.inr hq)
      · exact (recycle_points h0).mpr (.inl ⟨rfl, rfl⟩)
      · exact absurd h0 (Nat.ne_of_gt (hf.1 ip))
    · rename_i hfind
      refine Runs.throw ⟨rfl, fun q => ?_, by rw [refs_eq_none hno]; rfl⟩
      have := List.find?_eq_none.mp hfind q (List.mem_finRange q)
      simp at this
      omega

theorem idup_runs (hg : Good sb s) (hp : Points s ip i) :
    Runs (idup ip) s
      (fun q s' => q = ip ∧ Good sb s' ∧ Quiet s s' ∧ Keeps s s' ∧
        refs s' = update (refs s) i (refs s i).inc) E := by
  obtain ⟨h1, h2, h3⟩ := dup_spec hg hp
  exact Runs.bind_ok rfl (Runs.pure ⟨rfl, h1, Quiet.upd s ip _, h2, h3⟩)

/-! ### `ilock` and `iunlock` -/

/-- Locked, and read in. -/
def Ref.hold (r : Ref) : Ref := {r with locked := true, valid := true}

def Ref.unlock (r : Ref) : Ref := {r with locked := false}

namespace Good

theorem node_eq (hg : Good sb s) (hp : Points s ip i) (hv : (s.icache ip).valid = true) :
    nodes sb s i = ⟨(s.icache ip).d.type, (s.icache ip).d.major, (s.icache ip).d.minor,
      (s.icache ip).d.nlink, content (view sb s.disk) i⟩ := by
  obtain ⟨hsync, h0⟩ := hg.sync ip hp.1 hv
  rw [hp.2] at hsync
  rw [nodes, node, ← hsync, if_neg h0]

theorem valid_eq (hg : Good sb s) (hp : Points s ip i) : (s.icache ip).valid = (refs s i).valid := by
  rw [hg.refs_eq hp]
  rfl

theorem locked_eq (hg : Good sb s) (hp : Points s ip i) :
    (s.icache ip).locked = (refs s i).locked := by
  rw [hg.refs_eq hp]
  rfl

theorem ref_eq (hg : Good sb s) (hp : Points s ip i) : (s.icache ip).ref = (refs s i).count := by
  rw [hg.refs_eq hp]
  rfl

theorem type_ne_zero (hg : Good sb s) (hp : Points s ip i) (hv : (s.icache ip).valid = true) :
    (nodes sb s i).type ≠ 0 := by
  rw [hg.node_eq hp hv]
  exact (hg.sync ip hp.1 hv).2

end Good

theorem read_eq_tab (hi : i < sb.ninodes) (disk : Disk) :
    Dinode.read (disk (IBLOCK i sb)) (i % IPB) = (view sb disk).tab i := (if_pos hi).symm

theorem node_type_zero : (node v i).type = 0 ↔ (v.tab i).type = 0 := by
  rw [node]
  by_cases h : (v.tab i).type = 0
  · rw [if_pos h]
    exact iff_of_true rfl h
  · rw [if_neg h]

theorem ilock_runs (L : Layout sb) (hg : Good sb s) (hp : Points s ip i) :
    Runs (ilock sb ip) s
      (fun _ s' => Good sb s' ∧ Quiet s s' ∧ Keeps s s' ∧ (nodes sb s i).type ≠ 0 ∧
        (refs s i).locked = false ∧ refs s' = update (refs s) i (refs s i).hold)
      (fun e => (e = .deadlock ∧ (refs s i).locked = true) ∨
        (e = .panic .noType ∧ (nodes sb s i).type = 0)) := by
  have hdev := (hg.inum ip hp.1).1
  have hin := (hg.inum ip hp.1).2
  refine bind_inode ?_
  refine Runs.ite (fun h => absurd h (Nat.not_lt.mpr hp.1)) fun _ => ?_
  -- `acquiresleep`
  refine Runs.bind (R := fun _ t => t = (s.upd ip fun i => {i with locked := true}) ∧
    (refs s i).locked = false) ?_ fun _ t ⟨ht, hfree⟩ => ?_
  · refine bind_inode (Runs.ite (fun hl => ?_) fun hl => ?_)
    · exact Runs.throw (.inl ⟨rfl, by rw [← hg.locked_eq hp]; exact hl⟩)
    · exact Runs.modify ⟨rfl, by rw [← hg.locked_eq hp]; simpa using hl⟩
  rw [ht]
  by_cases hv : (s.icache ip).valid = true
  · rw [if_neg (by rw [hv]; decide)]
    refine Runs.pure ⟨hg.upd rfl rfl hp.1 (fun _ hv => hg.sync ip hp.1 hv) fun h => ?_,
      Quiet.upd s ip _, keeps_upd rfl hp.1, hg.type_ne_zero hp hv, hfree, ?_⟩
    · exact absurd h (Nat.ne_of_gt hp.1)
    · rw [refs_upd hg hp rfl, if_pos hp.1, hg.refs_eq hp, Ref.hold, Inode.known, Inode.known, hv]
  · have hv : (s.icache ip).valid = false := by simpa using hv
    rw [if_pos hv, hdev]
    refine Runs.bind_ok (bread_ok _ (L.iblock_lt_fssize hin)) ?_
    rw [State.upd_disk, hp.2, read_eq_tab (by rw [← hp.2]; exact hin)]
    have hread : ((s.upd ip fun x => {x with locked := true}).upd ip fun x =>
        {x with d := Dinode.read (s.disk (IBLOCK i sb)) (x.inum % IPB), valid := true}) =
        s.upd ip fun x => {x with locked := true, d := (view sb s.disk).tab i, valid := true} := by
      simp only [State.upd, update_self, update_idem, hp.2]
      rw [read_eq_tab (by rw [← hp.2]; exact hin)]
    refine Runs.bind_ok (a := ()) (congrArg (fun t => Except.ok ((), t)) hread) ?_
    refine Runs.ite (fun h0 => Runs.throw (.inr ⟨rfl, node_type_zero.mpr h0⟩)) fun h0 => ?_
    refine Runs.pure ⟨hg.upd rfl rfl hp.1 (fun _ _ => ⟨by rw [hp.2], h0⟩) fun h => ?_,
      Quiet.upd s ip _, keeps_upd rfl hp.1, fun h => h0 (node_type_zero.mp h), hfree, ?_⟩
    · exact absurd h (Nat.ne_of_gt hp.1)
    · rw [refs_upd hg hp rfl, if_pos hp.1, hg.refs_eq hp]
      rfl

theorem iunlock_runs (hg : Good sb s) (hp : Points s ip i) (hl : (refs s i).locked = true) :
    Runs (iunlock ip) s
      (fun _ s' => Good sb s' ∧ Quiet s s' ∧ Keeps s s' ∧
        refs s' = update (refs s) i (refs s i).unlock) E := by
  refine bind_inode (Runs.ite (fun h => ?_) fun _ => ?_)
  · rw [hg.locked_eq hp, hl] at h
    exact h.elim (fun h => by cases h) fun h => absurd h (Nat.not_lt.mpr hp.1)
  · refine Runs.modify ⟨hg.upd rfl rfl hp.1 (fun _ hv => hg.sync ip hp.1 hv) fun _ => rfl,
      Quiet.upd s ip _, keeps_upd rfl hp.1, ?_⟩
    rw [refs_upd hg hp rfl, if_pos hp.1, hg.refs_eq hp]
    rfl

/-! ### `iput` -/

/-- One reference less. -/
def Ref.dec (r : Ref) : Ref := if r.count = 1 then .none else {r with count := r.count - 1}

/-- The last reference to an inode without links is being dropped: `iput` frees it. -/
def Doomed (sb : Superblock) (s : State) (i : Nat) : Prop :=
  (refs s i).valid = true ∧ (nodes sb s i).nlink = 0 ∧ (refs s i).count = 1

/-- Pointers stay pointers, but for a last one to inode `i`. -/
def KeepsBut (i : Nat) (s s' : State) : Prop :=
  ∀ q j, Points s q j → (j = i → 1 < (refs s i).count) → Points s' q j

theorem doomed_iff (hg : Good sb s) (hp : Points s ip i) : Doomed sb s i ↔
    (s.icache ip).valid = true ∧ (s.icache ip).d.nlink = 0 ∧ (s.icache ip).ref = 1 := by
  rw [Doomed, ← hg.valid_eq hp, ← hg.ref_eq hp]
  refine and_congr_right fun hv => ?_
  rw [hg.node_eq hp hv]

theorem acquiresleep_runs (hg : Good sb s) (hp : Points s ip i) (hl : (refs s i).locked = false) :
    Runs (acquiresleep ip) s (fun _ s' => s' = s.upd ip fun i => {i with locked := true}) E := by
  refine bind_inode (Runs.ite (fun h => ?_) fun _ => ?_)
  · rw [hg.locked_eq hp, hl] at h
    cases h
  · exact Runs.modify rfl

/-- `iput` that does not free the inode only drops the reference. -/
theorem iput_keep_runs (hg : Good sb s) (hp : Points s ip i)
    (hl : (refs s i).locked = false) (hk : ¬ Doomed sb s i) :
    Runs (iput sb ip) s
      (fun _ s' => Good sb s' ∧ Quiet s s' ∧ KeepsBut i s s' ∧
        refs s' = update (refs s) i (refs s i).dec) E := by
  rw [doomed_iff hg hp] at hk
  refine Runs.bind (acquiresleep_runs hg hp hl) fun _ t ht => ?_
  rw [ht]
  refine bind_inode ?_
  rw [State.upd_self, if_neg hk]
  refine Runs.bind_ok rfl (Runs.bind_ok rfl (Runs.modify ?_))
  -- the lock is released again and the count goes down
  have hlock : (s.icache ip).locked = false := by rw [hg.locked_eq hp, hl]
  have hfinal : (((s.upd ip fun i => {i with locked := true}).upd ip fun i =>
      {i with locked := false}).upd ip fun i => {i with ref := i.ref - 1}) =
      s.upd ip fun i => {i with locked := false, ref := i.ref - 1} := by
    simp only [State.upd, update_self, update_idem]
  rw [hfinal]
  refine ⟨hg.upd rfl rfl hp.1 (fun _ hv => hg.sync ip hp.1 hv) fun _ => rfl, Quiet.upd s ip _,
    fun q j hq hj => ?_, ?_⟩
  · by_cases he : q = ip
    · have hji : j = i := by rw [← hq.2, he, hp.2]
      have := hj hji
      rw [← hg.ref_eq hp] at this
      rw [he, Points, State.upd_self]
      refine ⟨Nat.sub_pos_of_lt this, ?_⟩
      rw [hji]
      exact hp.2
    · rw [Points, State.upd_other _ _ _ he]
      exact hq
  · rw [refs_upd hg hp rfl]
    congr 1
    rw [hg.refs_eq hp, Ref.dec, Inode.known, Inode.known, hlock]
    by_cases h1 : (s.icache ip).ref = 1
    · rw [if_pos h1, h1]
      rfl
    · have := hp.1
      rw [if_neg h1, if_pos (show 0 < (s.icache ip).ref - 1 by omega)]

/-! ### Locks that are not as they should be -/

theorem iput_locked (hl : (s.icache ip).locked = true) : iput sb ip s = .error .deadlock := by
  have : acquiresleep ip s = .error .deadlock := by
    show (if (s.icache ip).locked then throw .deadlock
      else setInode ip fun i => {i with locked := true} : M Unit) s = _
    rw [if_pos hl]
    rfl
  show (acquiresleep ip s >>= _) = _
  rw [this]
  rfl

theorem iunlock_unlocked (hl : (s.icache ip).locked = false) :
    iunlock ip s = .error (.panic .iunlock) := by
  show (if (s.icache ip).locked = false ∨ (s.icache ip).ref < 1 then panic .iunlock
    else releasesleep ip : M Unit) s = _
  rw [if_pos (.inl hl)]
  rfl

end Xv6.Fs
