import Xv6.Kern.Failures

/-! What a system call does to the name space, whatever call it is.

A call enters one name, or removes one, or does neither; after that inodes that are not live
may be freed, because a process gave up its last reference to them. -/
namespace Xv6.Kern
open Lib Fs Function List

variable {sb : Superblock} {k k' : Kernel} {p : Slot} {cwd : Ptr} {c : Nat} {N : Nat → Node}

/-! ### Calls on descriptors and processes -/

theorem lasting_sound (Ly : Layout sb) (N : Nat → Node) : Lasting sb (SoundFrom sb N) :=
  fun _ _ h hp => (h.release Ly hp).stops fun _ _ => trivial

theorem leaves_argfd (fd : Option (BitVec 32)) : Leaves Kernel.fs (argfd p fd) := fun k =>
  argfd_runs.post fun _ _ h => by rw [h.1]

theorem leaves_fdalloc (f : FilePtr) : Leaves Kernel.fs (fdalloc p f) := fun k =>
  fdalloc_runs.post fun r k' h => by
    match r with
    | none => rw [h.1]
    | some fd =>
      rw [h.2]
      rfl

theorem leaves_filedup (f : FilePtr) : Leaves Kernel.fs (filedup f) :=
  Leaves.bind_get fun _ => Leaves.ite (fun _ => Leaves.throw _) fun _ => Leaves.modify fun _ => rfl

theorem leaves_sys_dup (fd : Option (BitVec 32)) : Leaves Kernel.fs (sys_dup p fd) := by
  refine (leaves_argfd fd).bind fun r => ?_
  match r with
  | none => exact Leaves.pure _
  | some (_, f) =>
    refine (leaves_fdalloc f).bind fun r => ?_
    match r with
    | none => exact Leaves.pure _
    | some fd => exact (leaves_filedup f).bind fun _ => Leaves.pure _

theorem leaves_fork_files (np : Slot) : Leaves Kernel.fs (fork_files p np) := by
  refine Leaves.forM fun fd => Leaves.bind_get fun k => ?_
  match (k.proc p).ofile fd with
  | none => exact Leaves.pure _
  | some f => exact (leaves_filedup f).bind fun _ => Leaves.modify fun _ => rfl

theorem leaves_wait : Leaves Kernel.fs (wait p) := by
  refine Leaves.bind_get fun k => ?_
  match (List.finRange NPROC).find? fun q => (k.proc q).parent = some p ∧ (k.proc q).state = .ZOMBIE with
  | none => exact Leaves.pure _
  | some q => exact fun _ => Runs.bind_ok rfl (Runs.pure rfl)

theorem sys_close_sound (Ly : Layout sb) (h : Counted k [] []) (hs : SoundFrom sb N k.fs)
    (fd : Option (BitVec 32)) :
    Runs (sys_close sb p fd) k (fun _ k' => SoundFrom sb N k'.fs) fun _ => True := by
  refine argfd_runs.bind fun r k₁ ⟨hk, hr⟩ => ?_
  subst hk
  match r with
  | none => exact Runs.pure hs
  | some (fd, f) =>
    have htake := (h.take (hr _ rfl)).of_proc (g := (k₁.setFd p fd none).proc)
    exact Runs.bind_ok rfl (Runs.bind (fileclose_lasting sb (lasting_sound Ly N) htake hs) fun _ _ h => Runs.pure h)

/-- The files in `F` are not open on inodes, and the file system is `s`. -/
def Plain (s : State) (F : List FilePtr) (k : Kernel) : Prop :=
  k.fs = s ∧ ∀ f ∈ F, (k.ftable f).type ≠ .FD_INODE

theorem fileclose_plain (h : Plain s F k) (hf : f ∈ F) :
    Runs (fileclose sb f) k (fun _ k' => Plain s F k') fun _ => True := by
  have hset : ∀ g : File → File, (∀ r, r.type ≠ .FD_INODE → (g r).type ≠ .FD_INODE) →
      Plain s F (k.setFile f g) := fun g hg => by
    refine ⟨h.1, fun q hq => ?_⟩
    by_cases hqf : q = f
    · subst hqf
      simp only [Kernel.setFile, update_self]
      exact hg _ (h.2 q hq)
    · simp only [Kernel.setFile, update_of_ne hqf]
      exact h.2 q hq
  refine Runs.bind_get (Runs.ite (fun _ => Runs.throw trivial) fun _ => Runs.ite (fun _ => ?_) fun _ => ?_)
  · exact Runs.modify (hset _ fun _ hr => hr)
  · have hlast := hset (fun r => {r with ref := 0, type := .FD_NONE}) fun _ _ h => by cases h
    refine Runs.bind_ok rfl ?_
    rw [release]
    cases ht : (k.ftable f).type with
    | FD_NONE => exact Runs.pure hlast
    | FD_PIPE =>
      exact Runs.bind_get (Runs.bind_ok rfl (Runs.ite (fun _ => Runs.modify hlast) fun _ => Runs.pure hlast))
    | FD_INODE => exact absurd ht (h.2 f hf)

theorem pipealloc_plain (hclosed : ∀ f, (k.ftable f).ref = 0 → (k.ftable f).type = .FD_NONE) (page : Nat) :
    Runs (pipealloc sb page) k (fun r k' => k'.fs = k.fs ∧ ∀ x ∈ r, Plain k.fs [x.1, x.2] k') fun _ => True := by
  refine filealloc_runs.bind fun r k₁ h₁ => ?_
  cases r with
  | none =>
    rw [h₁.1]
    exact Runs.pure ⟨rfl, fun _ h => by cases h⟩
  | some f0 =>
    obtain ⟨hr0, rfl⟩ := h₁
    have htype : ∀ q, ((k.setFile f0 fun r => {r with ref := 1}).ftable q).type = (k.ftable q).type := fun q => by
      by_cases hq : q = f0
      · subst hq
        simp only [Kernel.setFile, update_self]
      · simp only [Kernel.setFile, update_of_ne hq]
    have hp0 : (k.ftable f0).type ≠ .FD_INODE := by rw [hclosed f0 hr0]; decide
    refine filealloc_runs.bind fun r k₂ h₂ => ?_
    cases r with
    | none =>
      rw [h₂.1]
      refine (fileclose_plain (k := k.setFile f0 fun r => {r with ref := 1}) (s := k.fs) (F := [f0])
        ⟨rfl, fun f hf => ?_⟩ (mem_cons_self ..)).bind
        fun _ _ h => Runs.pure ⟨h.1, fun _ h => by cases h⟩
      rw [htype, mem_singleton.mp hf]
      exact hp0
    | some f1 =>
      obtain ⟨hr1, rfl⟩ := h₂
      have h01 : f1 ≠ f0 := fun he => by
        subst he
        simp [Kernel.setFile, update_self] at hr1
      simp only [Kernel.setFile, update_of_ne h01] at hr1
      have hp1 : (k.ftable f1).type ≠ .FD_INODE := by rw [hclosed f1 hr1]; decide
      refine Runs.ite (fun _ => ?_) fun _ => Runs.bind_ok rfl (Runs.pure ⟨rfl, fun x hx => ⟨rfl, fun f hf => ?_⟩⟩)
      · refine (fileclose_plain (k := (k.setFile f0 fun r => {r with ref := 1}).setFile f1 fun r => {r with ref := 1})
          (s := k.fs) (F := [f0, f1]) ⟨rfl, fun f hf => ?_⟩ (mem_cons_self ..)).bind
          fun _ _ h => (fileclose_plain h (mem_cons_of_mem _ (mem_cons_self ..))).bind
            fun _ _ h => Runs.pure ⟨h.1, fun _ h => by cases h⟩
        by_cases hf1 : f = f1
        · subst hf1
          simp only [Kernel.setFile, update_self, update_of_ne h01]
          exact hp1
        · simp only [mem_cons, hf1, not_mem_nil, or_false] at hf
          subst hf
          simp only [Kernel.setFile, update_self, update_of_ne hf1]
          exact hp0
      · cases hx
        simp only [mem_cons, not_mem_nil, or_false] at hf
        by_cases hf1 : f = f1
        · subst hf1
          simp [pipeEnds, Kernel.setFile, File.piped]
        · obtain rfl := hf.resolve_right hf1
          simp [pipeEnds, Kernel.setFile, File.piped, update_of_ne hf1]

theorem sys_pipe_plain (hclosed : ∀ f, (k.ftable f).ref = 0 → (k.ftable f).type = .FD_NONE) (fds : Bool)
    (page : Nat) : Runs (sys_pipe sb p fds page) k (fun _ k' => k'.fs = k.fs) fun _ => True := by
  refine Runs.ite (fun _ => Runs.pure rfl) fun _ => ?_
  refine (pipealloc_plain hclosed page).bind fun r k₁ h₁ => ?_
  match r with
  | none => exact Runs.pure h₁.1
  | some (rf, wf) =>
    have hclose : ∀ {k₂}, Plain k.fs [rf, wf] k₂ →
        Runs (do fileclose sb rf; fileclose sb wf; pure none : K (Option (Fd × Fd))) k₂
          (fun _ k' => k'.fs = k.fs) fun _ => True := fun h =>
      (fileclose_plain h (mem_cons_self ..)).bind fun _ _ h =>
        (fileclose_plain h (mem_cons_of_mem _ (mem_cons_self ..))).bind fun _ _ h => Runs.pure h.1
    refine fdalloc_runs.bind fun r k₂ h₂ => ?_
    match r with
    | none =>
      rw [h₂.1]
      exact hclose (h₁.2 _ rfl)
    | some fd0 =>
      obtain ⟨-, rfl⟩ := h₂
      refine fdalloc_runs.bind fun r k₃ h₃ => ?_
      match r with
      | none =>
        rw [h₃.1]
        exact Runs.bind_ok rfl (hclose (h₁.2 _ rfl))
      | some fd1 =>
        rw [h₃.2]
        exact Runs.pure h₁.1

theorem fork_sound (hS : Sound sb k.fs) (hc : Points k.fs cwd c) (memory : Bool) :
    Runs (fork p cwd memory) k (fun _ k' => SoundFrom sb (nodes sb k.fs) k'.fs) fun _ => True := by
  refine Runs.bind_get ?_
  match (List.finRange NPROC).find? fun q => (k.proc q).state = .UNUSED with
  | none => exact Runs.pure hS.from_self
  | some np =>
    refine Runs.ite (fun _ => Runs.pure hS.from_self) fun _ => Runs.bind_ok rfl ?_
    refine (leaves_fork_files np _).bind fun _ k₂ h₂ => ?_
    have h₂ : k₂.fs = k.fs := h₂
    rw [← h₂] at hS hc ⊢
    refine fs_bind (Q := fun _ s => SoundFrom sb (nodes sb k₂.fs) s) ((hS.start.idup hc).post
      fun _ s ⟨_, hd, _, _⟩ => ?_) fun _ _ hs => Runs.bind_ok rfl (Runs.pure hs)
    refine (hS.of_during hd fun j hj => ?_).from_eq hd.nodes
    rw [mem_singleton.mp hj]
    exact hS.held c hc.count_pos

/-! ### Calls on files -/

/-- The system call as an action. -/
def FileCall.action : FileCall → Action
  | .open args => .open args
  | .mkdir path => .mkdir path
  | .mknod args => .mknod args
  | .link args => .link args
  | .unlink path => .unlink path
  | .chdir path => .chdir path
  | .exec m path => .exec m path

/-- The action is to enter the new name `nm` in directory `d`. -/
def Enters (sb : Superblock) (s : State) (c : Nat) : Action → Nat → Name → Prop
  | .open (some (path, omode)), d, nm => omode &&& O_CREATE ≠ 0 ∧ NewName sb s c path d nm
  | .mkdir (some path), d, nm => NewName sb s c path d nm
  | .mknod (some (path, _, _)), d, nm => NewName sb s c path d nm
  | .link (some (old, new)), d, nm =>
    (∃ i, LinkNames sb s c old new i d nm) ∧ find (nodes sb s d).data nm = none
  | _, _, _ => False

/-- The action is to remove a name of inode `i`, which is `nm` in directory `d`. -/
def Unlinks (sb : Superblock) (s : State) (c : Nat) (a : Action) (d i : Nat) (nm : Name) : Prop :=
  ∃ path, a = .unlink (some path) ∧ resolve sb.ninodes (nodes sb s) (counts s) true c path = .found d nm ∧
    ∃ l, Names (nodes sb s) d l i nm

/-- What an action does to the inodes. -/
inductive Moves (sb : Superblock) (s : State) (c : Nat) (a : Action) (s' : State) : Prop
  | same (hs : SoundFrom sb (nodes sb s) s')
  | entered {d i : Nat} {nm : Name} (hs : Sound sb s') (ha : Enters sb s c a d nm)
      (he : Entered (nodes sb s) (nodes sb s') d i nm)
  | removed {d l i : Nat} {nm : Name} {N₁ : Nat → Node} (hs : Sound sb s') (ha : Unlinks sb s c a d i nm)
      (hr : Removes (nodes sb s) N₁ d l i nm) (hf : Swept N₁ (nodes sb s'))

/-- What a call on files does to the inodes: one that returns without a failure does what it
is for. -/
inductive CallMoves (sb : Superblock) (s : State) (c : Nat) (x : FileCall) (r : Int) (s' : State) : Prop
  | same (hs : SoundFrom sb (nodes sb s) s')
      (hr : r = -1 ∨ (∀ path, x ≠ .unlink path) ∧ ∀ d nm, ¬ Enters sb s c x.action d nm)
  | entered {d i : Nat} {nm : Name} (hs : Sound sb s') (ha : Enters sb s c x.action d nm)
      (he : Entered (nodes sb s) (nodes sb s') d i nm)
  | removed {d l i : Nat} {nm : Name} {N₁ : Nat → Node} (hs : Sound sb s') (ha : Unlinks sb s c x.action d i nm)
      (hr : Removes (nodes sb s) N₁ d l i nm) (hf : Swept N₁ (nodes sb s'))

theorem CallMoves.moves (h : CallMoves sb s c x r s') :
    Moves sb s c x.action s' := by
  cases h with
  | same hs _ => exact .same hs
  | entered hs ha he => exact .entered hs ha he
  | removed hs ha hr hf => exact .removed hs ha hr hf

section Calls
variable {s s' : State}

theorem CallMoves.kept (hS : Sound sb s) (hd : During sb s s' (nodes sb s) [] [])
    (hr : r = -1 ∨ (∀ path, x ≠ .unlink path) ∧ ∀ d nm, ¬ Enters sb s c x.action d nm) :
    CallMoves sb s c x r s' :=
  .same ((hS.of_during hd nofun).from_eq hd.nodes) hr

theorem CallMoves.created (hS : Sound sb s) (ha : Enters sb s c x.action d nm)
    (hl : Live (nodes sb s) d) (hnew : Created sb (nodes sb s) N' d l i nm type)
    (hd : During sb s s' N' T []) (hT : ∀ j ∈ T, j = i) : CallMoves sb s c x r s' := by
  have he := hnew.entered hl
  have hnodes := hd.nodes
  refine CallMoves.entered (i := i) (hS.enter hd he hnew.inum fun j hj => .inl (hT j hj)) ha ?_
  rw [hnodes]
  exact he

theorem MakePost.moves
    (hS : Sound sb s) (hx : ∀ q, path = some q → ∀ d nm, Enters sb s c x.action d nm ↔ NewName sb s c q d nm)
    (hl : ∀ d nm, Enters sb s c x.action d nm → Live (nodes sb s) d) (h : MakePost sb s c path type r s') :
    CallMoves sb s c x r s' := by
  match path with
  | none => exact .kept hS h.2 (.inl h.1)
  | some q =>
    obtain ⟨hr, hd⟩ | ⟨-, d, l, i, nm, N', hres, hf, hnew, hd⟩ := h
    · exact .kept hS hd (.inl hr)
    · have ha := (hx q rfl d nm).mpr ⟨hres, hf⟩
      exact .created hS ha (hl d nm ha) hnew hd nofun

/-- What each call on files does, if a new name is entered only in a live directory. -/
theorem call_moves (Ly : Layout sb) (hS : Sound sb k.fs) (hc : Points k.fs cwd c)
    (hclosed : ∀ f, (k.ftable f).ref = 0 → (k.ftable f).type = .FD_NONE) (x : FileCall)
    (hl : ∀ d nm, Enters sb k.fs c x.action d nm → Live (nodes sb k.fs) d) :
    Runs (x.call sb p cwd) k (fun r k' => CallMoves sb k.fs c x r k'.fs) fun _ => True := by
  have hfs : ∀ {y : M Int} {Q : Int → State → Prop} {E : Halt → Prop}, Runs y k.fs Q E →
      (∀ r s', Q r s' → CallMoves sb k.fs c x r s') →
      Runs (Kern.fs y) k (fun r k' => CallMoves sb k.fs c x r k'.fs) fun _ => True := fun hy hq =>
    (fs_runs hy).mono (fun r k' h => hq r k'.fs h.1) fun _ _ => trivial
  have hroot : ROOTINO < sb.ninodes := hS.range _ _ _ _ hS.tree.root
  have hcin : c < sb.ninodes := hc.2 ▸ (hS.good.inum cwd hc.1).2
  cases x with
  | «open» args =>
    match args with
    | none => exact Runs.pure (.kept hS hS.start (.inl rfl))
    | some (path, omode) =>
      refine (sys_open_post Ly hS hc hclosed path omode).mono (fun r k' h => ?_) fun _ _ => trivial
      cases h with
      | failed hr _ _ hd => exact .kept hS hd (.inl hr)
      | @made _ _ _ i N' new hd =>
        obtain ⟨hcr, d, l, nm, hn, hnew⟩ := new
        exact .created hS ⟨hcr, hn⟩ (hl d nm ⟨hcr, hn⟩) hnew hd nofun
      | @opened _ i N' h0 inode hd =>
        obtain ⟨rfl, hold⟩ | ⟨hcr, d, l, nm, hn, hnew⟩ := inode
        · refine .same ((hS.of_during hd fun j hj => ?_).from_eq hd.nodes) (.inr ⟨nofun, fun d nm h => ?_⟩)
          · rw [mem_singleton.mp hj]
            exact h0
          · exact hold h.1 d nm h.2
        · exact .created hS ⟨hcr, hn⟩ (hl d nm ⟨hcr, hn⟩) hnew hd fun j hj => mem_singleton.mp hj
  | mkdir path =>
    refine hfs (sys_mkdir_runs Ly hS hc path) fun r s' h => MakePost.moves hS (fun q hq d nm => ?_) hl h
    rw [hq]
    exact Iff.rfl
  | mknod args =>
    refine hfs (sys_mknod_runs Ly hS hc args) fun r s' h => MakePost.moves hS (fun q hq d nm => ?_) hl h
    obtain ⟨y, rfl, rfl⟩ := Option.map_eq_some_iff.mp hq
    exact Iff.rfl
  | link args =>
    refine hfs (sys_link_runs Ly hS hc args) fun r s' h => ?_
    obtain ⟨hr, hd⟩ | ⟨-, old, new, i, d, nm, l, N', rfl, hn, hf, hlink, hd⟩ := h
    · exact .kept hS hd (.inl hr)
    · have ha : Enters sb k.fs c (FileCall.link (some (old, new))).action d nm := ⟨⟨i, hn⟩, hf⟩
      have he := hlink.entered (hl d nm ha)
      obtain ⟨m, hold⟩ := hn.old
      have hi : i < sb.ninodes :=
        resolve_found (P := (· < sb.ninodes)) (fun d l j m _ h => hS.range d l j m h) hroot (fun _ => hcin) hold
      refine CallMoves.entered (i := i) (hS.enter hd he hi nofun) ha ?_
      rw [hd.nodes]
      exact he
  | unlink path =>
    refine hfs (sys_unlink_runs Ly hS hc path) fun r s' h => ?_
    obtain ⟨hr, hd⟩ | ⟨-, q, d, l, i, nm, rfl, hres, hu⟩ := h
    · exact .kept hS hd (.inl hr)
    · obtain ⟨hs, N₁, hr, hf⟩ := hS.remove hu
      exact .removed hs ⟨q, rfl, hres, l, hr.named⟩ hr hf
  | chdir path =>
    refine (sys_chdir_post Ly hS hc path).mono (fun r k' h => ?_) fun _ _ => trivial
    cases h with
    | failed hr _ hd => exact .kept hS hd (.inl hr)
    | moved _ hd => exact .same hd (.inr ⟨nofun, fun _ _ => id⟩)
  | exec m path =>
    exact hfs (sys_exec_runs Ly hS hc m path) fun r s' h => .kept hS h (.inr ⟨nofun, fun _ _ => id⟩)

end Calls

/-! ### Any call -/

theorem Balanced.points (hB : Balanced k) (hcwd : (k.proc p).cwd = some cwd) :
    Points k.fs cwd (k.fs.icache cwd).inum := by
  refine ⟨?_, rfl⟩
  rw [hB.counts.inode.ref]
  exact Nat.add_pos_left (cwd_pos hcwd) _

theorem perform_moves (Ly : Layout sb) (hS : Sound sb k.fs) (hB : Balanced k)
    (hcwd : (k.proc p).cwd = some cwd)
    (hl : ∀ d nm, Enters sb k.fs (k.fs.icache cwd).inum a d nm → Live (nodes sb k.fs) d) :
    Runs (perform sb p cwd a) k (fun _ k' => Moves sb k.fs (k.fs.icache cwd).inum a k'.fs) fun _ => True := by
  have hc := hB.points hcwd
  have hcall : ∀ x : FileCall, x.action = a →
      Runs (do let _ ← x.call sb p cwd : K Unit) k
        (fun _ k' => Moves sb k.fs (k.fs.icache cwd).inum a k'.fs) fun _ => True := by
    rintro x rfl
    exact (call_moves Ly hS hc hB.counts.closed x hl).bind fun _ _ h => Runs.pure h.moves
  have hsame : ∀ {α : Type} {y : K α},
      Runs y k (fun _ k' => SoundFrom sb (nodes sb k.fs) k'.fs) (fun _ => True) →
      Runs (do let _ ← y : K Unit) k
        (fun _ k' => Moves sb k.fs (k.fs.icache cwd).inum a k'.fs) fun _ => True := fun hy =>
    hy.bind fun _ _ h => Runs.pure (.same h)
  have hleave : ∀ {α : Type} {y : K α}, Leaves Kernel.fs y →
      Runs y k (fun _ k' => SoundFrom sb (nodes sb k.fs) k'.fs) (fun _ => True) := fun hy =>
    (hy k).post fun _ _ h => by rw [h]; exact hS.from_self
  cases a with
  | fork memory => exact hsame (fork_sound hS hc memory)
  | exit =>
    exact (exit_runs sb (lasting_sound Ly _) hB hcwd hS.from_self).post fun _ _ h => .same h.2
  | wait => exact hsame (hleave leaves_wait)
  | «open» args => exact hcall (.open args) rfl
  | dup fd => exact hsame (hleave (leaves_sys_dup fd))
  | close fd => exact hsame (sys_close_sound Ly hB.counts hS.from_self fd)
  | pipe fds page =>
    refine hsame ((sys_pipe_plain hB.counts.closed fds page).post fun _ _ h => ?_)
    rw [h]
    exact hS.from_self
  | chdir path => exact hcall (.chdir path) rfl
  | link args => exact hcall (.link args) rfl
  | unlink path => exact hcall (.unlink path) rfl
  | mkdir path => exact hcall (.mkdir path) rfl
  | mknod args => exact hcall (.mknod args) rfl
  | exec m path => exact hcall (.exec m path) rfl

/-- The inode that is the current directory of the process. -/
def Kernel.cwdInum (k : Kernel) (p : Slot) : Nat :=
  match (k.proc p).cwd with
  | some cwd => (k.fs.icache cwd).inum
  | none => 0

/-- A new name is entered only in a directory that has not been removed. -/
def EntersLive (sb : Superblock) (k : Kernel) (a : Slot × Action) : Prop :=
  ∀ d nm, Enters sb k.fs (k.cwdInum a.1) a.2 d nm → Live (nodes sb k.fs) d

theorem step_moves (Ly : Layout sb) (hS : Sound sb k.fs) (hB : Balanced k)
    (hl : EntersLive sb k a) (hs : step sb k a = some k') : Moves sb k.fs (k.cwdInum a.1) a.2 k'.fs := by
  obtain ⟨p, a⟩ := a
  obtain ⟨cwd, hcwd, -, -, hp⟩ := of_step sb hs
  have hi : k.cwdInum p = (k.fs.icache cwd).inum := by rw [Kernel.cwdInum, hcwd]
  rw [EntersLive, hi] at hl
  rw [hi]
  exact (perform_moves Ly hS hB hcwd hl).of_ok hp

theorem Moves.sound (h : Moves sb s c a s') : Sound sb s' := by
  cases h with
  | same hs => exact hs.1
  | entered hs => exact hs
  | removed hs => exact hs

end Xv6.Kern
