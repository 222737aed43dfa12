import Xv6.Fs.Walk
import Xv6.Fs.Sysfile

/-! What the functions that change directories do: `dirlink`, `isdirempty`, and the stores
into inodes that calls make. -/
namespace Xv6.Fs
open Lib Function

variable {sb : Superblock} {s₀ s s' : State} {N N' : Nat → Node} {T L : List Nat}
variable {dp ip : Ptr} {d i k : Nat} {nm : List Byte}

/-- A reason to stop that is neither a lock held twice nor an inode found free. -/
def Calm (e : Halt) : Prop := e ≠ .deadlock ∧ e ≠ .panic .noType

theorem calm_panic (h : p ≠ .noType) : Calm (.panic p) :=
  ⟨fun h => (by cases h), fun he => h (Halt.panic.inj he)⟩

theorem LogStop.calm (h : LogStop sb s k e) : Calm e := by
  rcases h with ⟨rfl, _⟩ | ⟨rfl, _⟩ <;> exact calm_panic (by decide)

theorem LookStop.calm (h : LookStop s f e) : Calm e := by
  rw [h.1]
  exact calm_panic (by decide)

namespace During

theorem of_same (h : During sb s₀ s N T L) (hg : Good sb s') (hs : Same k s s')
    (hn : Fs.nodes sb s' = N') : During sb s₀ s' N' T L ∧ Stays s s' := by
  have hr := hs.refs_eq
  refine ⟨⟨hg, hn, fun i => by rw [hr]; exact h.count i, fun i => by rw [hr]; exact h.locked i,
    fun i => by rw [hr]; exact h.valid i, fun i => by rw [hr]; exact h.held i, h.keeps.trans hs.keeps⟩,
    hs.keeps, fun i => by rw [hr]; exact fun h => h, fun i => by rw [hr]⟩

/-- A store into the device numbers and the link count of a locked inode. -/
theorem setFields (Ly : Layout sb) (h : During sb s₀ s N T L) (hp : Points s ip i) (hi : i ∈ L)
    (a b c : BitVec 16 → BitVec 16) :
    Runs (do setDinode ip (Dinode.setFields a b c); iupdate sb ip) s
      (fun _ s' => During sb s₀ s' (update N i ((N i).setFields a b c)) T L ∧ Stays s s')
      (LogStop sb s 0) :=
  (setFields_runs Ly h.good hp (h.held i hi) a b c).post fun _ _ ⟨hg, hs, hn, _⟩ =>
    h.of_same hg hs (by rw [hn, h.nodes])

theorem ialloc (Ly : Layout sb) (h : During sb s₀ s N T L) (ht : type ≠ 0) :
    Runs (Fs.ialloc sb ROOTDEV type) s
      (fun ip s' => ∃ i, 1 ≤ i ∧ i < sb.ninodes ∧ (N i).type = 0 ∧
        During sb s₀ s' (update N i (.fresh type)) (i :: T) L ∧ Stays s s' ∧ Points s' ip i)
      Calm := by
  refine (ialloc_runs Ly h.good ht).mono (fun ip s' ⟨i, h1, hi, h0, hg, _, hk, hp, hn, hr, _⟩ => ?_)
    fun e he => ?_
  · rw [h.nodes] at h0 hn
    refine ⟨i, h1, hi, h0, ?_, .of_update hr hk (Nat.le_succ _) fun h => h, hp⟩
    exact h.of_update hg hn hr (h.keeps.trans hk)
      (by rw [Ref.inc, h.count, List.count_cons_self, Nat.add_assoc])
      (fun _ hj => List.count_cons_of_ne (Ne.symm hj)) (h.locked i) (fun _ _ => Iff.rfl) (h.valid i)
      (h.held i)
  · rcases he with he | rfl | rfl
    · exact he.calm
    all_goals exact calm_panic (by decide)

/-- A write of one entry of a locked directory. -/
theorem writeEntry (Ly : Layout sb) (h : During sb s₀ s N T L) (hd : LockedDir sb s N dp d)
    (hs : src.length = DIRENT) (hk : k ≤ nentries (N d).data) :
    Runs (writei sb dp src (DIRENT * k)) s
      (fun r s' => (r = some DIRENT → ∃ data, PutEntry (N d).data data k (Entry.read src) ∧
        During sb s₀ s' (update N d {N d with data := data}) T L ∧ Stays s s') ∧
        (k < nentries (N d).data → r = some DIRENT))
      Calm := by
  have hv : (s.icache dp).valid = true := by rw [hd.good.valid_eq hd.points, hd.valid]
  have hlen := hd.good.length_le d
  rw [hd.nodes] at hlen
  have hal := hd.aligned
  rw [nentries] at hk
  have hoff : DIRENT * k + DIRENT < 2 ^ 32 := by
    simp only [MAXFILE, NDIRECT, NINDIRECT, BSIZE, DIRENT, DIRSIZ] at *
    omega
  refine (writei_runs Ly hd.good hd.points hv (by rw [hd.nodes, hd.type]; decide) (by omega)
    (by rw [hs]; decide)).mono (fun r s' hwrite => ?_) fun e he => ?_
  · obtain ⟨h1, h2⟩ := hwrite
    rw [hd.nodes, hs] at h1 h2
    refine ⟨fun hr => ?_, fun hlt => ?_⟩
    · by_cases hw : WriteRange (N d).data.length (DIRENT * k) DIRENT
      · obtain ⟨_, hg, hsame, hn, _⟩ := h1 hw
        exact ⟨_, putEntry_splice hal hk hs, h.of_same hg hsame hn⟩
      · rw [(h2 hw).1] at hr
        cases hr
    · refine (h1 ⟨?_, hoff, ?_⟩).1
      all_goals
        rw [nentries] at hlt
        simp only [MAXFILE, NDIRECT, NINDIRECT, BSIZE, DIRENT, DIRSIZ] at *
        omega
  · rcases he.2 with he | ⟨rfl, _⟩
    · exact he.calm
    · exact calm_panic (by decide)

end During

/-! ### `dirlink` -/

theorem emptyDirent_runs (Ly : Layout sb) (hd : LockedDir sb s N dp d)
    (hk : k ≤ nentries (N d).data) (hf : nentries (N d).data - k < fuel) :
    Runs (emptyDirent sb dp fuel (DIRENT * k)) s
      (fun off t => t = s ∧ ∃ k, off = DIRENT * k ∧ Vacant (N d).data k) E := by
  induction fuel generalizing k with
  | zero => exact absurd hf (Nat.not_lt_zero _)
  | succ fuel ih =>
    refine bind_inode (Runs.ite (fun hle => ?_) fun hlt => ?_)
    · rw [hd.size_le_iff] at hle
      refine Runs.pure ⟨rfl, k, rfl, hk, fun e he => ?_⟩
      rw [dirent?_eq_none.mpr hle] at he
      cases he
    · rw [hd.size_le_iff, Nat.not_le] at hlt
      refine Runs.bind (hd.readDirent Ly hlt) fun de t ⟨hde, ht⟩ => ?_
      rw [hde, ht]
      refine Runs.ite (fun hz => Runs.pure ⟨rfl, k, rfl, hk, fun e he => ?_⟩) fun _ => ?_
      · rw [dirent?_of_lt hlt, Option.some.injEq] at he
        rw [← he, Entry.read, hz]
        rfl
      · exact ih (k := k + 1) hlt (by omega)

/-- A new name is entered in the directory. -/
theorem dirlink_runs (Ly : Layout sb) (h : During sb s₀ s N T L) (hd : LockedDir sb s N dp d)
    (hin : ∀ k i nm, Holds (N d).data k i nm → i < sb.ninodes)
    (hnone : find (N d).data (name nm) = none) (hi : i < 2 ^ 16) :
    Runs (dirlink sb dp nm i) s
      (fun r s' => r = 0 ∧ ∃ k data, Vacant (N d).data k ∧ PutEntry (N d).data data k ⟨i, name nm⟩ ∧
        During sb s₀ s' (update N d {N d with data := data}) T L ∧ Stays s s')
      Calm := by
  refine Runs.bind ((dirlookup_runs Ly h hd hin).stops fun _ he => he.calm) fun r t ht => ?_
  rw [hnone] at ht
  obtain ⟨hr, hts⟩ : r = none ∧ t = s := ht
  rw [hr, hts]
  refine bind_inode ?_
  refine Runs.bind (emptyDirent_runs (k := 0) Ly hd (Nat.zero_le _) hd.fuel)
    fun off t hempty => ?_
  obtain ⟨ht, k, hoff, hv⟩ := hempty
  rw [ht, hoff]
  have hlen : (dirent (BitVec.ofNat 16 i) (strncpy nm DIRSIZ)).length = DIRENT := by
    rw [dirent, List.length_cons, List.length_cons, length_strncpy]
    rfl
  have hent : Entry.read (dirent (BitVec.ofNat 16 i) (strncpy nm DIRSIZ)) = ⟨i, name nm⟩ := by
    rw [Entry.read_dirent, name_strncpy, BitVec.toNat_ofNat, Nat.mod_eq_of_lt hi]
  refine Runs.bind (h.writeEntry Ly hd hlen hv.1) fun r t hok => ?_
  refine Runs.ite (fun _ => Runs.throw (calm_panic (by decide))) fun hr => Runs.pure ⟨rfl, ?_⟩
  obtain ⟨data, hput, hdt, hst⟩ := hok.1 (not_not.mp hr)
  exact ⟨k, data, hv, hent ▸ hput, hdt, hst⟩

theorem dirlink_taken_runs (Ly : Layout sb) (h : During sb s₀ s N T L) (hd : LockedDir sb s N dp d)
    (hin : ∀ k i nm, Holds (N d).data k i nm → i < sb.ninodes)
    (hsome : find (N d).data (name nm) = some (k, j)) (hj : j ∉ L)
    (hkept : (N j).type ≠ 0 → (N j).nlink = 0 → 0 < (refs s j).count) :
    Runs (dirlink sb dp nm i) s (fun r s' => r = -1 ∧ During sb s₀ s' N T L ∧ Stays s s') Calm := by
  refine Runs.bind ((dirlookup_runs Ly h.start hd hin).stops fun _ he => he.calm) fun r t ht => ?_
  rw [hsome] at ht
  obtain ⟨ip, hr, hdt, _, _, hp, _⟩ := ht
  rw [hr]
  refine Runs.bind (hdt.iput_keep hp hj fun hv h0 => .inl (hkept ?_ h0)) fun _ u ⟨hu, _, _⟩ =>
    Runs.pure ⟨rfl, ?_, hu.stays⟩
  · have := hdt.good.type_of_valid hv
    rwa [hdt.nodes] at this
  · exact h.trans hu

/-- A name of a locked inode is not: the lock is taken twice. -/
theorem dirlink_deadlock (Ly : Layout sb) (h : During sb s₀ s N T L) (hd : LockedDir sb s N dp d)
    (hin : ∀ k i nm, Holds (N d).data k i nm → i < sb.ninodes)
    (hsome : find (N d).data (name nm) = some (k, j)) (hj : j ∈ L) :
    Runs (dirlink sb dp nm i) s (fun _ _ => False) (fun e => e = .deadlock) := by
  refine Runs.bind ((dirlookup_runs Ly h hd hin).stops fun e ⟨_, x, hx, hf⟩ => ?_) fun r t ht => ?_
  · -- the inode is in the cache, being locked
    rw [hsome, Option.some.injEq] at hx
    rw [← hx] at hf
    have := count_pos_of_valid (h.held j hj)
    exact absurd hf.2 (Nat.ne_of_gt this)
  · rw [hsome] at ht
    obtain ⟨ip, hr, hdt, _, _, hp, _⟩ := ht
    rw [hr]
    have hl : (t.icache ip).locked = true := by
      rw [hdt.good.locked_eq hp]
      exact (hdt.locked j).mpr hj
    exact Runs.bind (R := fun _ _ => False) (Runs.of_eq_error (iput_locked hl) rfl)
      fun _ _ h => h.elim

/-! ### `isdirempty` -/

/-- Nothing but `.` and `..` is in the directory. -/
def Empty (data : List Byte) : Prop := ∀ k i nm, 2 ≤ k → ¬ Holds data k i nm

theorem isdirempty_from_runs (Ly : Layout sb) (hd : LockedDir sb s N dp d)
    (hf : nentries (N d).data - k < fuel) :
    Runs (isdirempty_from sb dp fuel (DIRENT * k)) s
      (fun b t => t = s ∧ (b = true → ∀ l i nm, k ≤ l → ¬ Holds (N d).data l i nm)) E := by
  induction fuel generalizing k with
  | zero => exact absurd hf (Nat.not_lt_zero _)
  | succ fuel ih =>
    refine bind_inode (Runs.ite (fun hle => ?_) fun hlt => ?_)
    · rw [hd.size_le_iff] at hle
      refine Runs.pure ⟨rfl, fun _ l i nm hl hh => ?_⟩
      have := lt_of_dirent? hh.1
      omega
    · rw [hd.size_le_iff, Nat.not_le] at hlt
      refine Runs.bind (hd.readDirent Ly hlt) fun de t ⟨hde, ht⟩ => ?_
      rw [hde, ht]
      refine Runs.ite (fun _ => Runs.pure ⟨rfl, fun h => by cases h⟩) fun hz => ?_
      refine (ih (k := k + 1) (by omega)).post fun b t ⟨ht, hb⟩ => ⟨ht, fun h l i nm hl hh => ?_⟩
      by_cases hlk : l = k
      · have he := hh.1
        rw [hlk, dirent?_of_lt hlt, Option.some.injEq] at he
        have hi : (deInum (deAt (N d).data k)).toNat = i := congrArg Entry.inum he
        rw [not_not.mp hz] at hi
        exact hh.2 hi.symm
      · exact hb h l i nm (by omega) hh

theorem isdirempty_runs (Ly : Layout sb) (hd : LockedDir sb s N dp d) :
    Runs (isdirempty sb dp) s (fun b t => t = s ∧ (b = true → Empty (N d).data)) E := by
  refine bind_inode ?_
  refine (isdirempty_from_runs (k := 2) Ly hd hd.fuel).post fun b t ⟨ht, hb⟩ => ⟨ht, fun h => ?_⟩
  exact fun k i nm hk => hb h k i nm hk

end Xv6.Fs
