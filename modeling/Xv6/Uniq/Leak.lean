import Xv6.Kern.Balance
import Xv6.Uniq.Kernel

/-! The kernel's `uniq` and `head` keep a reference to the file they read.

Both look the file up with `namei` and unlock it at the end, but never put it: the entry of
the inode cache that the lookup took stays taken. Nothing else is left behind, so a call
leaves the kernel as it was exactly when there is no file to read. -/
namespace Xv6.Uniq
open Lib Fs Kern

variable {sb : Superblock}

/-! ### Reading leaves the references alone -/

theorem leaves_readline (ip : Ptr) (buf : List Byte) (start : Nat) : Leaves tags (readline sb ip buf start) := by
  refine (leaves_readi sb ip _ _).bind fun r => ?_
  cases r with
  | none => exact Leaves.pure _
  | some bytes => exact Leaves.pure _

theorem leaves_lineBound (ip : Ptr) : Leaves tags (lineBound ip) := Leaves.bind_get fun _ => Leaves.pure _

theorem leaves_uniq_loop (ip : Ptr) (fl : Flags) (fuel i : Nat) (v : Vars) :
    Leaves tags (uniq_loop sb ip fl fuel i v) := by
  induction fuel generalizing i v with
  | zero => exact Leaves.pure _
  | succ fuel ih =>
    refine (leaves_readline ip v.current_line i).bind fun r => ?_
    obtain ⟨buf, n⟩ := r
    match n with
    | none => exact Leaves.pure _
    | some 0 => exact Leaves.pure _
    | some (n + 1) => exact (ih _ _).bind fun _ => Leaves.pure _

theorem leaves_head_loop (ip : Ptr) (n : Int) (fuel : Nat) (l : Int) (i : Nat) (buf : List Byte) :
    Leaves tags (head_loop sb ip n fuel l i buf) := by
  induction fuel generalizing l i buf with
  | zero => exact Leaves.pure _
  | succ fuel ih =>
    refine Leaves.ite (fun _ => (leaves_readline ip buf i).bind fun r => ?_) fun _ => Leaves.pure _
    obtain ⟨buf, m⟩ := r
    match m with
    | none => exact Leaves.pure _
    | some 0 => exact Leaves.pure _
    | some (m + 1) => exact (ih _ _ _).bind fun _ => Leaves.pure _

/-! ### A lookup whose reference is kept -/

/-- The references, the locks, the transaction, the disk and the file table are the same. -/
structure Unchanged (k k' : Kernel) : Prop where
  ref : ∀ ip, (k'.fs.icache ip).ref = (k.fs.icache ip).ref
  locked : ∀ ip, (k'.fs.icache ip).locked = (k.fs.icache ip).locked
  outstanding : k'.fs.outstanding = k.fs.outstanding
  disk : k'.fs.disk = k.fs.disk
  ftable : k'.ftable = k.ftable

theorem hold_self (hg : Good sb s) : Hold (fun ip => (s.icache ip).ref) s [] :=
  ⟨fun _ => (Nat.add_zero _).symm, fun p q hp hq _ hi => hg.once p q hp hq hi⟩

/-- Between calls nothing is locked. -/
theorem locked_false (hg : Good sb s) (hl : ∀ i, (refs s i).locked = false) (ip : Ptr) :
    (s.icache ip).locked = false := by
  by_cases hr : (s.icache ip).ref = 0
  · exact hg.idle ip hr
  · have := hl (s.icache ip).inum
    rwa [hg.refs_eq ⟨Nat.pos_of_ne_zero hr, rfl⟩] at this

/-- A call that looks a file up, and then does `found` without putting it, leaves the kernel
as it was exactly when there is no file. -/
theorem kept_iff_missing {α : Type} (Ly : Layout sb) {k : Kernel} (h : Sound sb k.fs) {cwd : Ptr} {c : Nat}
    (hc : Points k.fs cwd c) (path : List Byte) (a : α) {found : Ptr → M α}
    (hf : ∀ ip, Leaves tags (found ip)) :
    Runs (Kern.fs do
        begin_op
        let r ← namei sb cwd path
        match r with
        | none => do
          end_op
          pure a
        | some ip => found ip) k
      (fun _ k' => Unchanged k k' ↔
        resolve sb.ninodes (nodes sb k.fs) (counts k.fs) false c path = .missing) fun _ => True := by
  have hpos : 0 < (k.fs.icache cwd).ref := hc.1
  refine (fs_runs (Q := fun _ s' => (∀ k', k'.fs = s' → k'.ftable = k.ftable →
    (Unchanged k k' ↔ _))) ?_).post fun _ k' hk => hk.1 k' rfl (by rw [hk.2])
  refine Runs.bind (((h.begin_op.stops fun _ _ => trivial).and
    ((hold_self h.good).leaves leaves_begin_op)).stops fun _ _ => trivial) fun _ t ⟨ht, hold⟩ => ?_
  obtain ⟨hsound, -, hnodes, hcounts, hkeep, ht⟩ := ht
  have hlook := namei_runs Ly hsound.steady_self (hkeep cwd c hc) (hsound.tree.live_type .root) path
  rw [hnodes, hcounts] at hlook
  refine Runs.bind (((hlook.stops fun _ _ => trivial).and (hold.namei sb hpos path)).stops fun _ _ => trivial)
    fun r u ⟨⟨x, hw, hr⟩, hgain⟩ => ?_
  obtain ⟨hquiet, hw⟩ := hw
  match hres : resolve sb.ninodes (nodes sb k.fs) (counts k.fs) false c path with
  | .found i last =>
    rw [hres] at hw
    obtain ⟨ip, nm, rfl, -⟩ := hw
    rw [hr] at hgain ⊢
    refine ((Hold.leaves hgain (hf ip)).post fun _ s' hs k' hk _ => iff_of_false (fun hu => ?_) (by simp))
    have hcount := hs.ref ip
    rw [← hk, hu.ref ip] at hcount
    simp at hcount
  | .missing =>
    rw [hres] at hw
    obtain ⟨rfl, hd⟩ := hw
    rw [hr] at hgain ⊢
    refine Runs.bind_ok rfl (Runs.pure fun k' hk hft => iff_of_true ⟨fun ip => ?_, fun ip => ?_, ?_, ?_, hft⟩ rfl)
    · have := Hold.ref hgain ip
      rw [hk]
      exact this.trans (Nat.add_zero _)
    · rw [hk, locked_false h.good h.unlocked ip]
      exact locked_false hd.good (fun i => hd.unlocked List.not_mem_nil) ip
    · rw [hk]
      show u.outstanding - 1 = _
      rw [hquiet.outstanding, ht]
      rfl
    · rw [hk]
      show u.disk = _
      rw [hquiet.disk, ht]
  | .broken =>
    rw [hres] at hw
    exact hw.elim
  | .full =>
    rw [hres] at hw
    exact hw.elim

/-! ### The two calls -/

/-- A call of one of the tools, with the arguments it could fetch. -/
inductive Tool where
  | uniq (args : Option (List Byte × List Byte))
  | head (args : Option (List Byte × BitVec 32))
deriving DecidableEq

/-- The path the call is given, if its arguments could be fetched. -/
def Tool.path? : Tool → Option (List Byte)
  | .uniq args => args.map Prod.fst
  | .head args => args.map Prod.fst

def Tool.call (sb : Superblock) (cwd : Ptr) (stack : List Byte) : Tool → M (Int × List Printed)
  | .uniq args => sys_uniq_kernel sb cwd stack args
  | .head args => sys_head_kernel sb cwd stack args

theorem call_runs (Ly : Layout sb) (h : Sound sb k.fs)
    (hc : Points k.fs cwd c) (stack : List Byte) (tool : Tool) :
    Runs (Kern.fs (tool.call sb cwd stack)) k
      (fun _ k' => Unchanged k k' ↔ ∀ path, tool.path? = some path →
        resolve sb.ninodes (nodes sb k.fs) (counts k.fs) false c path = .missing) fun _ => True := by
  have hself : Unchanged k k := ⟨fun _ => rfl, fun _ => rfl, rfl, rfl, rfl⟩
  cases tool with
  | uniq args =>
    cases args with
    | none => exact Runs.of_eq_ok rfl (iff_of_true hself nofun)
    | some a =>
      refine (kept_iff_missing Ly h hc a.1 _ fun ip => ?_).post fun _ _ hk => hk.trans ?_
      · exact (leaves_ilock sb ip).bind fun _ => (leaves_lineBound ip).bind fun _ =>
          (leaves_uniq_loop ip _ _ _ _).bind fun _ => (leaves_iunlock ip).bind fun _ =>
          leaves_end_op.bind fun _ => Leaves.pure _
      · simp [Tool.path?]
  | head args =>
    cases args with
    | none => exact Runs.of_eq_ok rfl (iff_of_true hself nofun)
    | some a =>
      refine (kept_iff_missing Ly h hc a.1 _ fun ip => ?_).post fun _ _ hk => hk.trans ?_
      · exact (leaves_ilock sb ip).bind fun _ => (leaves_lineBound ip).bind fun _ =>
          (leaves_head_loop ip _ _ _ _ _).bind fun _ => (leaves_iunlock ip).bind fun _ =>
          leaves_end_op.bind fun _ => Leaves.pure _
      · simp [Tool.path?]

/-- When `uniq` or `head` returns, the kernel is as it was before exactly if the call had no
file to read: its arguments could not be fetched or its path names nothing. -/
theorem tool_unchanged_iff (Ly : Layout sb) {k k' : Kernel} (h : Sound sb k.fs) {cwd : Ptr} {c : Nat}
    (hc : Points k.fs cwd c) (stack : List Byte) (tool : Tool) {r : Int × List Printed}
    (hx : Kern.fs (tool.call sb cwd stack) k = .ok (r, k')) :
    Unchanged k k' ↔ ∀ path, tool.path? = some path →
      resolve sb.ninodes (nodes sb k.fs) (counts k.fs) false c path = .missing :=
  (call_runs Ly h hc stack tool).of_ok hx

/-- The references to the entry `ip` of the cache after a call, if the call returns. -/
def refAfter (tool : Tool) (ip : Ptr) : Option Nat :=
  match Kern.fs (tool.call Mkfs.sb 0 []) Kern.home with
  | .ok (_, k') => some (k'.fs.icache ip).ref
  | .error _ => none

theorem changes_of_ref (h : refAfter tool ip = some n) (hn : n ≠ (Kern.home.fs.icache ip).ref) :
    ∃ r k', Kern.fs (tool.call Mkfs.sb 0 []) Kern.home = .ok (r, k') ∧ ¬ Unchanged Kern.home k' := by
  rw [refAfter] at h
  match hx : Kern.fs (tool.call Mkfs.sb 0 []) Kern.home with
  | .error e =>
    rw [hx] at h
    cases h
  | .ok (r, k') =>
    rw [hx, Option.some.injEq] at h
    exact ⟨r, k', rfl, fun hu => hn (h.symm.trans (hu.ref ip))⟩

/-- `uniq -c` and `head` of `/f` return with a reference to it in the cache that was not there. -/
theorem tools_keep_reference :
    (∃ r k', Kern.fs ((Tool.uniq (some ([102], text "-c"))).call Mkfs.sb 0 []) Kern.home = .ok (r, k') ∧
      ¬ Unchanged Kern.home k') ∧
    ∃ r k', Kern.fs ((Tool.head (some ([102], 3))).call Mkfs.sb 0 []) Kern.home = .ok (r, k') ∧
      ¬ Unchanged Kern.home k' := by
  have huniq : refAfter (.uniq (some ([102], text "-c"))) 3 = some 1 := by decide +kernel
  have hhead : refAfter (.head (some ([102], 3))) 3 = some 1 := by decide +kernel
  exact ⟨changes_of_ref huniq (by decide), changes_of_ref hhead (by decide)⟩

/-- `uniq /x` of the small file system finds no file and leaves everything as it was. -/
theorem tool_unchanged_nofile : ∃ r k',
    Kern.fs ((Tool.uniq (some ([120], []))).call Mkfs.sb 0 []) Kern.home = .ok (r, k') ∧ Unchanged Kern.home k' := by
  have hok : (match Kern.fs ((Tool.uniq (some ([120], []))).call Mkfs.sb 0 []) Kern.home with
      | .ok _ => true
      | .error _ => false) = true := by decide +kernel
  match hx : Kern.fs ((Tool.uniq (some ([120], []))).call Mkfs.sb 0 []) Kern.home with
  | .error e =>
    rw [hx] at hok
    cases hok
  | .ok (r, k') =>
    refine ⟨r, k', rfl, (tool_unchanged_iff layout_mkfs sound_home points_home [] _ hx).mpr ?_⟩
    rintro path ⟨⟩
    decide +kernel

end Xv6.Uniq
