import Xv6.Lib.Machine
import Xv6.Fs.Files

/-! Block ownership over whole runs.

The machine's steps are the calls that allocate and free blocks and inodes, and
the locking around them, in any order on any inodes. A call is made as the rest of
the kernel makes it: through a pointer it has, and holding the lock when the
function asks for it. A run ends where the kernel panics or sleeps. -/
namespace Xv6.Fs
open Lib Function

variable {sb : Superblock} {s s' s0 : State} {ip : Ptr} {i : Nat}

/-! ### The console -/

theorem Ref.hold_unlock {r : Ref} (hl : r.locked = true) (hv : r.valid = true) : r.unlock.hold = r := by
  obtain ⟨c, l, v⟩ := r
  simp only at hl hv
  rw [hl, hv]
  rfl

theorem relock_runs (L : Layout sb) (hp : Points t ip i)
    (hl : (refs s i).locked = true) (hv : (refs s i).valid = true) (ht : (nodes sb t i).type ≠ 0)
    (hg : Good sb t) (hr : refs t = update (refs s) i (refs s i).unlock) :
    Runs (ilock sb ip) t (fun _ u => Good sb u ∧ Quiet t u ∧ Keeps t u ∧ refs u = refs s) E := by
  have hri : refs t i = (refs s i).unlock := by rw [hr, update_self]
  refine (ilock_runs L hg hp).mono (fun _ u ⟨hgu, hqu, hku, _, _, hru⟩ => ⟨hgu, hqu, hku, ?_⟩)
    fun e he => ?_
  · rw [hru, hri, Ref.hold_unlock hl hv, hr, update_idem, update_eq_self]
  · rcases he with ⟨_, h⟩ | ⟨_, h⟩
    · rw [hri] at h
      cases h
    · exact absurd h ht

theorem consolewrite_runs (L : Layout sb) (hg : Good sb s)
    (hp : Points s ip i) (hl : (refs s i).locked = true) (hv : (refs s i).valid = true) :
    Runs (consolewrite sb ip src) s
      (fun _ u => Good sb u ∧ Quiet s u ∧ Keeps s u ∧ refs u = refs s) E := by
  refine Runs.bind (iunlock_runs hg hp hl) fun _ t ⟨hgt, hqt, hkt, hrt⟩ => ?_
  have h0 : (nodes sb t i).type ≠ 0 := by
    rw [hqt.nodes]
    exact hg.type_ne_zero hp (by rw [hg.valid_eq hp, hv])
  refine Runs.bind (relock_runs L (hkt ip i hp) hl hv h0 hgt hrt)
    fun _ u ⟨hgu, hqu, hku, hru⟩ => Runs.pure ⟨hgu, hqt.trans hqu, hkt.trans hku, hru⟩

theorem writei_dev_runs (L : Layout sb)
    (hg : Good sb s) (hp : Points s ip i) (hl : (refs s i).locked = true)
    (hv : (refs s i).valid = true) (ht : (nodes sb s i).type = T_DEV) :
    Runs (writei sb ip src off) s
      (fun _ u => Good sb u ∧ Quiet s u ∧ Keeps s u ∧ refs u = refs s) E := by
  rw [hg.node_eq hp (by rw [hg.valid_eq hp, hv])] at ht
  refine bind_inode ?_
  rw [if_pos ht]
  refine Runs.ite (fun _ => consolewrite_runs L hg hp hl hv) fun _ => Runs.pure ?_
  exact ⟨hg, Quiet.refl s, fun _ _ h => h, rfl⟩

/-! ### Calls -/

inductive Call where
  | begin_op
  | end_op
  | iget (inum : Nat)
  | ialloc (type : BitVec 16)
  | idup (ip : Ptr)
  | ilock (ip : Ptr)
  | iunlock (ip : Ptr)
  | iput (ip : Ptr)
  | writei (ip : Ptr) (src : List Byte) (off : Nat)
  | itrunc (ip : Ptr)
  /-- A new link count, written back with `iupdate`. -/
  | setLinks (ip : Ptr) (nlink : BitVec 16)

/-- The caller holds the lock of `ip`, which has been read in when it was locked. -/
def Held (s : State) (ip : Ptr) : Prop :=
  0 < (s.icache ip).ref ∧ (s.icache ip).locked = true ∧ (s.icache ip).valid = true

instance (s : State) (ip : Ptr) : Decidable (Held s ip) := inferInstanceAs (Decidable (_ ∧ _))

namespace Call

/-- The call is one that the kernel may make: see the module's text. -/
def Allowed (sb : Superblock) (s : State) : Call → Prop
  | begin_op | end_op => True
  | iget inum => inum < sb.ninodes
  | ialloc type => type ≠ 0
  | idup ip | ilock ip | iunlock ip | iput ip => 0 < (s.icache ip).ref
  | writei ip src off => Held s ip ∧ off < 2 ^ 32 ∧ src.length < 2 ^ 32
  | itrunc ip | setLinks ip _ => Held s ip

def perform (sb : Superblock) : Call → M Unit
  | begin_op => Fs.begin_op
  | end_op => Fs.end_op
  | iget inum => do let _ ← Fs.iget ROOTDEV inum
  | ialloc type => do let _ ← Fs.ialloc sb ROOTDEV type
  | idup ip => do let _ ← Fs.idup ip
  | ilock ip => Fs.ilock sb ip
  | iunlock ip => Fs.iunlock ip
  | iput ip => Fs.iput sb ip
  | writei ip src off => do let _ ← Fs.writei sb ip src off
  | itrunc ip => Fs.itrunc sb ip
  | setLinks ip nlink => do
    setDinode ip (Dinode.setFields id id fun _ => nlink)
    iupdate sb ip

instance (sb : Superblock) (s : State) (c : Call) : Decidable (c.Allowed sb s) := by
  cases c <;> unfold Allowed <;> infer_instance

def step (sb : Superblock) (s : State) (c : Call) : Option State :=
  if c.Allowed sb s then
    match c.perform sb s with
    | .ok (_, s') => some s'
    | .error _ => none
  else none

end Call

/-! ### What calls keep -/

/-- A reason to stop other than finding a block to free already free. -/
def NotFreeing (e : Halt) : Prop := e ≠ .panic .freeingFree

theorem LogStop.notFreeing (h : LogStop sb s k e) : NotFreeing e := by
  rcases h with ⟨rfl, _⟩ | ⟨rfl, _⟩ <;> exact fun h => by cases h

namespace Good

theorem begin_op (hg : Good sb s) : Runs Fs.begin_op s (fun _ => Good sb) NotFreeing := by
  refine Runs.bind_get (Runs.ite (fun _ => Runs.throw ?_) fun _ => ?_)
  · exact fun h => by cases h
  · exact Runs.modify ⟨hg.owned, hg.solid, hg.sync, hg.inum, hg.once, hg.idle⟩

theorem end_op (hg : Good sb s) : Runs Fs.end_op s (fun _ => Good sb) NotFreeing :=
  Runs.modify ⟨hg.owned, hg.solid, hg.sync, hg.inum, hg.once, hg.idle⟩

theorem iput (L : Layout sb) (hg : Good sb s) (hp : Points s ip i) :
    Runs (Fs.iput sb ip) s (fun _ => Good sb) NotFreeing := by
  cases hl : (refs s i).locked with
  | true =>
    refine Runs.of_eq_error (iput_locked (by rw [hg.locked_eq hp, hl])) fun h => ?_
    cases h
  | false =>
    by_cases hk : Doomed sb s i
    · exact (iput_free_runs L hg hp hl hk).mono (fun _ _ h => h.1) fun _ h => h.notFreeing
    · exact (iput_keep_runs hg hp hl hk).post fun _ _ h => h.1

theorem iunlock (hg : Good sb s) (hp : Points s ip i) :
    Runs (Fs.iunlock ip) s (fun _ => Good sb) NotFreeing := by
  cases hl : (refs s i).locked with
  | true => exact (iunlock_runs hg hp hl).post fun _ _ h => h.1
  | false =>
    refine Runs.of_eq_error (iunlock_unlocked (by rw [hg.locked_eq hp, hl])) fun h => ?_
    cases h

theorem writei (L : Layout sb) (hg : Good sb s) (h : Held s ip)
    (hoff : off < 2 ^ 32) (hn : src.length < 2 ^ 32) :
    Runs (Fs.writei sb ip src off) s (fun _ => Good sb) NotFreeing := by
  obtain ⟨href, hl, hv⟩ := h
  have hp : Points s ip (s.icache ip).inum := ⟨href, rfl⟩
  by_cases ht : (nodes sb s (s.icache ip).inum).type = T_DEV
  · exact (writei_dev_runs L hg hp (by rw [← hg.locked_eq hp, hl])
      (by rw [← hg.valid_eq hp, hv]) ht).post fun _ _ h => h.1
  · refine (writei_runs L hg hp hv ht hoff hn).mono (fun r t ⟨h1, h2⟩ => ?_) fun e ⟨_, he⟩ => ?_
    · by_cases hr : WriteRange (nodes sb s (s.icache ip).inum).data.length off src.length
      · exact (h1 hr).2.1
      · rw [(h2 hr).2]
        exact hg
    · rcases he with he | ⟨rfl, _⟩
      · exact he.notFreeing
      · exact fun h => by cases h

/-- Every call keeps the file system well formed, and none frees a free block. -/
theorem perform (L : Layout sb) (hg : Good sb s) {c : Call} (hc : c.Allowed sb s) :
    Runs (c.perform sb) s (fun _ => Good sb) NotFreeing := by
  cases c with
  | begin_op => exact hg.begin_op
  | end_op => exact hg.end_op
  | iget inum =>
    refine Runs.bind ((iget_runs hg hc).stops fun e he h => ?_) fun _ _ h => Runs.pure h.1
    rw [he.1] at h
    cases h
  | ialloc type =>
    refine Runs.bind ((ialloc_runs L hg hc).stops fun e he => ?_) fun _ _ h => Runs.pure ?_
    · rcases he with he | rfl | rfl
      · exact he.notFreeing
      all_goals exact fun h => by cases h
    · obtain ⟨_, _, _, _, h, _⟩ := h
      exact h
  | idup ip => exact Runs.bind (idup_runs hg ⟨hc, rfl⟩) fun _ _ h => Runs.pure h.2.1
  | ilock ip =>
    refine (ilock_runs L hg ⟨hc, rfl⟩).mono (fun _ _ h => h.1) fun e he h => ?_
    rcases he with ⟨he, _⟩ | ⟨he, _⟩ <;> rw [he] at h <;> cases h
  | iunlock ip => exact hg.iunlock ⟨hc, rfl⟩
  | iput ip => exact hg.iput L ⟨hc, rfl⟩
  | writei ip src off => exact Runs.bind (hg.writei L hc.1 hc.2.1 hc.2.2) fun _ _ h => Runs.pure h
  | itrunc ip =>
    exact (itrunc_runs L hg ⟨hc.1, rfl⟩ hc.2.2).mono (fun _ _ h => h.1) fun _ h => h.notFreeing
  | setLinks ip nlink =>
    have hp : Points s ip (s.icache ip).inum := ⟨hc.1, rfl⟩
    exact (setFields_runs L hg hp (by rw [← hg.valid_eq hp, hc.2.2]) _ _ _).mono
      (fun _ _ h => h.1) fun _ h => h.notFreeing

theorem run (L : Layout sb) (hg : Good sb s) {cs : List Call}
    (hr : Lib.run (Call.step sb) s cs = some s') : Good sb s' := by
  refine run_invariant (I := fun _ => Good sb) hg (fun _ t c u hgt hu => ?_) hr
  rw [Call.step] at hu
  split at hu
  · rename_i hc
    split at hu
    · rename_i hx
      rw [← Option.some.inj hu]
      exact (hgt.perform L hc).of_ok hx
    · cases hu
  · cases hu

end Good

/-- After any run a block is marked in the free map exactly when it is metadata or has
exactly one pointer to it; so `balloc` answers no block in use, no block has two
owners, and `bfree` is never asked to free a free block. -/
theorem blocks_owned (L : Layout sb) (h0 : Good sb s0) {cs : List Call}
    (hr : run (Call.step sb) s0 cs = some s) :
    (∀ b, b < sb.size → ((view sb s.disk).used b = true ↔
      b < nmeta sb ∨ ∃! x, ptr (view sb s.disk) x = b)) ∧
    (∀ x y, ptr (view sb s.disk) x ≠ 0 → ptr (view sb s.disk) x = ptr (view sb s.disk) y → x = y) ∧
    (∀ b t, balloc sb ROOTDEV s = .ok (b, t) →
      (view sb s.disk).used b = false ∧ ∀ x, ptr (view sb s.disk) x ≠ b) ∧
    ∀ c : Call, c.Allowed sb s → c.perform sb s ≠ .error (.panic .freeingFree) := by
  have hg := h0.run L hr
  have ho := hg.owned.owner
  refine ⟨fun b hb => ⟨fun hu => ?_, fun h => ?_⟩, ho.once, fun b t hx => ?_, fun c hc hx => ?_⟩
  · by_cases hm : b < nmeta sb
    · exact .inl hm
    · have hd : IsData sb b := ⟨Nat.not_lt.mp hm, hb⟩
      obtain ⟨x, hx⟩ := (ho.marked b hd).mp hu
      refine .inr ⟨x, hx, fun y hy => (ho.once x y ?_ (by rw [hx, hy])).symm⟩
      exact fun h => not_isData_zero L (by rw [← h, hx]; exact hd)
  · rcases h with h | ⟨x, hx, honly⟩
    · exact hg.owned.metadata b h
    · by_cases hb0 : b = 0
      · have := L.data
        exact hg.owned.metadata b (by omega)
      · have hd := ho.inside x (by rw [hx]; exact hb0)
        rw [hx] at hd
        exact (ho.marked b hd).mpr ⟨x, hx⟩
  · obtain ⟨_, hd, hu, _⟩ := (balloc_runs L s hg.owned.metadata).of_ok hx
    exact ⟨hu, ho.unmarked hd hu⟩
  · exact (hg.perform L hc).of_error hx rfl

set_option maxRecDepth 100000 in
theorem lone_runs : (run (Call.step Mkfs.sb) lone [.writei 0 [104, 105] 0, .iunlock 0, .iput 0]).isSome = true := by
  decide +kernel

/-- Two bytes written to a file, which is then closed. -/
theorem blocks_owned_lone : ∃ s, run (Call.step Mkfs.sb) lone [.writei 0 [104, 105] 0, .iunlock 0, .iput 0] = some s ∧
    ∀ b, b < Mkfs.sb.size → ((view Mkfs.sb s.disk).used b = true ↔
      b < nmeta Mkfs.sb ∨ ∃! x, ptr (view Mkfs.sb s.disk) x = b) := by
  obtain ⟨s, hs⟩ := Option.isSome_iff_exists.mp lone_runs
  exact ⟨s, hs, (blocks_owned layout_mkfs good_lone hs).1⟩

end Xv6.Fs
