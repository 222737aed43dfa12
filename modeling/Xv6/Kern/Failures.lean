import Xv6.Kern.Files

/-! System calls on files that fail, and system calls that never return.

A call that fails leaves the name space and the tables of its process as they were, but for
`sys_open`: it makes the file before it looks for a place in the tables. No call waits for a
lock that it holds itself, but for `sys_link`: it looks the new name up with its directory
locked. -/
namespace Xv6.Kern
open Lib Fs

/-- A system call on files, with the arguments it could fetch. -/
inductive FileCall where
  | open (args : Option (List Byte × BitVec 32))
  | mkdir (path : Option (List Byte))
  | mknod (args : Option (List Byte × BitVec 32 × BitVec 32))
  | link (args : Option (List Byte × List Byte))
  | unlink (path : Option (List Byte))
  | chdir (path : Option (List Byte))
  | exec (m : Fs.Memory) (path : Option (List Byte))

/-- The call, and what it returns. -/
def FileCall.call (sb : Superblock) (p : Slot) (cwd : Ptr) : FileCall → K Int
  | .open args => sys_open sb p cwd args
  | .mkdir path => Kern.fs (sys_mkdir sb cwd path)
  | .mknod args => Kern.fs (sys_mknod sb cwd args)
  | .link args => Kern.fs (sys_link sb cwd args)
  | .unlink path => Kern.fs (sys_unlink sb cwd path)
  | .chdir path => sys_chdir sb p cwd path
  | .exec m path => Kern.fs (sys_exec sb cwd m path)

variable {sb : Superblock} {k k' : Kernel} {p : Slot} {cwd : Ptr} {c : Nat}

/-! ### Failures -/

/-- The call makes a new file for which there is no place in the tables. -/
def Exposed (sb : Superblock) (k : Kernel) (p : Slot) (c : Nat) : FileCall → Prop
  | .open (some (path, omode)) => omode &&& O_CREATE ≠ 0 ∧ (∃ d nm, NewName sb k.fs c path d nm) ∧ Full k p
  | _ => False

/-- All inodes, and the current directory and the descriptors of all processes, are the same. -/
def Unaffected (sb : Superblock) (k k' : Kernel) : Prop :=
  nodes sb k'.fs = nodes sb k.fs ∧ ∀ q, (k'.proc q).cwd = (k.proc q).cwd ∧ (k'.proc q).ofile = (k.proc q).ofile

theorem Unaffected.of_eq (hn : nodes sb k'.fs = nodes sb k.fs) (hp : k'.proc = k.proc) :
    Unaffected sb k k' := ⟨hn, fun _ => by rw [hp]; exact ⟨rfl, rfl⟩⟩

theorem fs_fails (h : Runs x k.fs (fun r s' => r = -1 → nodes sb s' = nodes sb k.fs) E) :
    Runs (Kern.fs x) k (fun r k' => r = -1 → Unaffected sb k k') E :=
  (fs_runs h).post fun _ _ ⟨hn, hk⟩ hr => .of_eq (hn hr) (by rw [hk])

theorem sys_open_failed (Ly : Layout sb) (hS : Sound sb k.fs) (hc : Points k.fs cwd c)
    (hclosed : ∀ f, (k.ftable f).ref = 0 → (k.ftable f).type = .FD_NONE)
    (args : Option (List Byte × BitVec 32)) :
    Runs (sys_open sb p cwd args) k
      (fun r k' => r = -1 → (Unaffected sb k k' ↔ ¬ Exposed sb k p c (.open args)))
      (CallStop (nodes sb k.fs)) := by
  match args with
  | none => exact Runs.pure fun _ => iff_of_true (.of_eq rfl rfl) id
  | some (path, omode) =>
    refine (sys_open_post Ly hS hc hclosed path omode).post fun r k' h hr => ?_
    cases h with
    | failed _ hproc old hd =>
      exact iff_of_true (.of_eq hd.nodes hproc) fun ⟨hcr, ⟨d, nm, hn⟩, _⟩ => old hcr d nm hn
    | @made _ _ hfull i N' new hd =>
      obtain ⟨hcr, d, l, nm, hn, hnew⟩ := new
      refine iff_of_false (fun hu => ?_) (not_not.mpr ⟨hcr, ⟨d, nm, hn⟩, hfull⟩)
      have htype := hnew.typed
      rw [← hd.nodes, hu.1, hnew.free] at htype
      exact absurd htype (by decide)
    | opened hr' => omega

theorem call_failed (Ly : Layout sb) (hS : Sound sb k.fs) (hc : Points k.fs cwd c)
    (hclosed : ∀ f, (k.ftable f).ref = 0 → (k.ftable f).type = .FD_NONE) (x : FileCall) :
    Runs (x.call sb p cwd) k (fun r k' => r = -1 → (Unaffected sb k k' ↔ ¬ Exposed sb k p c x))
      fun _ => True := by
  have hmake : ∀ {r : Int} {s' path type}, MakePost sb k.fs c path type r s' → r = -1 →
      nodes sb s' = nodes sb k.fs := fun {r s' path type} h hr => by
    match path with
    | none => exact h.2.nodes
    | some path =>
      obtain ⟨-, hd⟩ | ⟨hr', -⟩ := h
      · exact hd.nodes
      · omega
  have hfs : ∀ {y : M Int} {E : Halt → Prop}, ¬ Exposed sb k p c x →
      Runs y k.fs (fun r s' => r = -1 → nodes sb s' = nodes sb k.fs) E →
      Runs (Kern.fs y) k (fun r k' => r = -1 → (Unaffected sb k k' ↔ ¬ Exposed sb k p c x)) fun _ => True :=
    fun hx hy => (fs_fails hy).mono (fun _ _ h hr => iff_of_true (h hr) hx) fun _ _ => trivial
  cases x with
  | «open» args => exact (sys_open_failed Ly hS hc hclosed args).stops fun _ _ => trivial
  | mkdir path => exact hfs id ((sys_mkdir_runs Ly hS hc path).post fun _ _ h => hmake h)
  | mknod args => exact hfs id ((sys_mknod_runs Ly hS hc args).post fun _ _ h => hmake h)
  | link args =>
    refine hfs id ((sys_link_runs Ly hS hc args).post fun _ _ h hr => ?_)
    obtain ⟨-, hd⟩ | ⟨hr', -⟩ := h
    · exact hd.nodes
    · omega
  | unlink path =>
    refine hfs id ((sys_unlink_runs Ly hS hc path).post fun _ _ h hr => ?_)
    obtain ⟨-, hd⟩ | ⟨hr', -⟩ := h
    · exact hd.nodes
    · omega
  | chdir path =>
    refine (sys_chdir_post Ly hS hc path).mono (fun _ _ h hr => iff_of_true ?_ id) fun _ _ => trivial
    cases h with
    | failed _ hproc hd => exact .of_eq hd.nodes hproc
    | moved hr' => omega
  | exec m path =>
    exact hfs id ((sys_exec_runs Ly hS hc m path).post fun _ _ h _ => h.nodes)

/-- A call that returns `-1` leaves every inode, current directory and descriptor as it was,
exactly when it is not a `sys_open` that makes a new file without a place in the tables. -/
theorem failed_unaffected_iff (Ly : Layout sb) (hS : Sound sb k.fs) (hc : Points k.fs cwd c)
    (hclosed : ∀ f, (k.ftable f).ref = 0 → (k.ftable f).type = .FD_NONE) (x : FileCall)
    (hx : x.call sb p cwd k = .ok (-1, k')) : Unaffected sb k k' ↔ ¬ Exposed sb k p c x :=
  (call_failed Ly hS hc hclosed x).of_ok hx rfl

/-- What the call of process 0 returns, if it returns. -/
def returned (x : FileCall) (k : Kernel) : Option Int :=
  match x.call Mkfs.sb 0 0 k with
  | .ok (r, _) => some r
  | .error _ => none

theorem of_returned (h : returned x k = some r) :
    ∃ k', x.call Mkfs.sb 0 0 k = .ok (r, k') := by
  rw [returned] at h
  match hx : x.call Mkfs.sb 0 0 k with
  | .ok (r', k') =>
    rw [hx, Option.some.injEq] at h
    exact ⟨k', by rw [h]⟩
  | .error e =>
    rw [hx] at h
    cases h

/-- Making `/a`, which is there, fails and leaves everything as it was. -/
theorem failed_unaffected_mkdir : ∃ k', (FileCall.mkdir (some [97])).call Mkfs.sb 0 0 Kern.home = .ok (-1, k') ∧
    Unaffected Mkfs.sb Kern.home k' := by
  obtain ⟨k', hx⟩ := of_returned (show returned (.mkdir (some [97])) Kern.home = some (-1) by decide +kernel)
  exact ⟨k', hx, (failed_unaffected_iff layout_mkfs sound_home points_home (fun _ _ => rfl) _ hx).mpr id⟩

/-- Process 0 takes all its descriptors, for `/`. -/
def occupy : List (Slot × Action) :=
  (0, .open (some ([47], O_RDONLY))) :: List.replicate (NOFILE - 1) (0, .dup (some 0))

/-- The type of an inode before and after a call that follows the actions, and what the call
returned. -/
def typeAround (as : List (Slot × Action)) (x : FileCall) (i : Nat) : Option (Int × BitVec 16 × BitVec 16) :=
  (run (step Mkfs.sb) Kern.home as).bind fun k =>
    match x.call Mkfs.sb 0 0 k with
    | .ok (r, k') => some (r, (nodes Mkfs.sb k.fs i).type, (nodes Mkfs.sb k'.fs i).type)
    | .error _ => none

set_option maxRecDepth 100000 in
/-- With all descriptors taken, `open("x", O_CREATE | O_WRONLY)` fails, and there is a file. -/
theorem open_fails_with_file : ∃ k k', run (step Mkfs.sb) Kern.home occupy = some k ∧
    (FileCall.open (some ([120], O_CREATE ||| O_WRONLY))).call Mkfs.sb 0 0 k = .ok (-1, k') ∧
    ¬ Unaffected Mkfs.sb k k' := by
  have htype : typeAround occupy (.open (some ([120], O_CREATE ||| O_WRONLY))) 2 = some (-1, 0, T_FILE) := by
    decide +kernel
  rw [typeAround, Option.bind_eq_some_iff] at htype
  obtain ⟨k, hk, htype⟩ := htype
  match hx : (FileCall.open (some ([120], O_CREATE ||| O_WRONLY))).call Mkfs.sb 0 0 k with
  | .error e =>
    rw [hx] at htype
    cases htype
  | .ok (r, k') =>
    simp only [hx, Option.some.injEq, Prod.mk.injEq] at htype
    obtain ⟨rfl, h0, h1⟩ := htype
    refine ⟨k, k', hk, hx, fun hu => ?_⟩
    rw [hu.1, h0] at h1
    exact absurd h1 (by decide)

/-! ### Calls that never return -/

theorem call_deadlock (Ly : Layout sb) (hS : Sound sb k.fs) (hc : Points k.fs cwd c)
    (hclosed : ∀ f, (k.ftable f).ref = 0 → (k.ftable f).type = .FD_NONE) (x : FileCall) :
    Runs (x.call sb p cwd) k (fun _ _ => True)
      (fun e => e = .deadlock → ∃ args, x = .link args ∧ LinkLoops sb k.fs c args) := by
  have hfs : ∀ {y : M Int} {Q : Int → State → Prop}, Runs y k.fs Q (CallStop (nodes sb k.fs)) →
      Runs (Kern.fs y) k (fun _ _ => True)
        (fun e => e = .deadlock → ∃ args, x = .link args ∧ LinkLoops sb k.fs c args) :=
    fun hy => (fs_runs hy).mono (fun _ _ _ => trivial) fun e he hd => absurd hd he.1
  cases x with
  | «open» args =>
    match args with
    | none => exact Runs.pure trivial
    | some (path, omode) =>
      exact (sys_open_post Ly hS hc hclosed path omode).mono (fun _ _ _ => trivial) fun e he hd => absurd hd he.1
  | mkdir path => exact hfs (sys_mkdir_runs Ly hS hc path)
  | mknod args => exact hfs (sys_mknod_runs Ly hS hc args)
  | link args =>
    exact (fs_runs (sys_link_runs Ly hS hc args)).mono (fun _ _ _ => trivial) fun e he hd => ⟨args, rfl, he.1 hd⟩
  | unlink path => exact hfs (sys_unlink_runs Ly hS hc path)
  | chdir path =>
    exact (sys_chdir_post Ly hS hc path).mono (fun _ _ _ => trivial) fun e he hd => absurd hd he.1
  | exec m path => exact hfs (sys_exec_runs Ly hS hc m path)

/-- A call made with no other in progress waits for a lock of its own exactly when it is a
`sys_link` of a file whose new name is, in the directory it is to be entered in, a name of that
directory. -/
theorem self_deadlock_iff (Ly : Layout sb) (hS : Sound sb k.fs) (hlh : k.fs.lh = [])
    (ho : k.fs.outstanding = 0) (hc : Points k.fs cwd c)
    (hclosed : ∀ f, (k.ftable f).ref = 0 → (k.ftable f).type = .FD_NONE) (x : FileCall) :
    x.call sb p cwd k = .error .deadlock ↔ ∃ args, x = .link args ∧ LinkLoops sb k.fs c args := by
  constructor
  · intro h
    exact (call_deadlock Ly hS hc hclosed x).of_error h rfl
  · rintro ⟨args, rfl, hl⟩
    have hrun := fs_runs (sys_link_deadlock Ly hS hc hlh ho hl)
    match hx : Kern.fs (sys_link sb cwd args) k with
    | .ok (r, k') => exact ((hrun.of_ok hx).1).elim
    | .error e => exact hrun.of_error hx ▸ hx

/-- Unlinking `/f` waits for nothing. -/
theorem self_deadlock_unlink : (FileCall.unlink (some [102])).call Mkfs.sb 0 0 Kern.home ≠ .error .deadlock := by
  intro h
  obtain ⟨args, he, -⟩ :=
    (self_deadlock_iff layout_mkfs sound_home rfl rfl points_home (fun _ _ => rfl) _).mp h
  cases he

/-- Why the call of process 0 stops. -/
def stopped (x : FileCall) (k : Kernel) : Option Halt :=
  match x.call Mkfs.sb 0 0 k with
  | .ok _ => none
  | .error e => some e

theorem of_stopped (h : stopped x k = some e) : x.call Mkfs.sb 0 0 k = .error e := by
  rw [stopped] at h
  match hx : x.call Mkfs.sb 0 0 k with
  | .ok _ =>
    rw [hx] at h
    cases h
  | .error e' =>
    rw [hx, Option.some.injEq] at h
    rw [h]

/-- `link("f", ".")` and `link("f", "..")` in the root directory wait for the root's lock, which
they hold. -/
theorem link_dots_deadlock : (FileCall.link (some ([102], dot))).call Mkfs.sb 0 0 Kern.home = .error .deadlock ∧
    (FileCall.link (some ([102], dotdot))).call Mkfs.sb 0 0 Kern.home = .error .deadlock := by
  have hdot : stopped (.link (some ([102], dot))) Kern.home = some .deadlock := by decide +kernel
  have hdotdot : stopped (.link (some ([102], dotdot))) Kern.home = some .deadlock := by decide +kernel
  exact ⟨of_stopped hdot, of_stopped hdotdot⟩

end Xv6.Kern
