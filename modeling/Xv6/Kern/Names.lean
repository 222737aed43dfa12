import Xv6.Fs.Paths
import Xv6.Kern.Steps

/-! The name space over whole runs of system calls.

Processes make system calls one at a time, from any sound state. As long as new names are
entered in live directories only, link counts stay exact and no inode is lost; when besides no
directory is removed that is still the `..` of a removed one, no entry dangles. Calls with
absolute paths edit the tree of names one name at a time. -/
namespace Xv6.Kern
open Lib Fs

variable {sb : Superblock} {k k₀ k' : Kernel} {p : Slot} {cwd : Ptr} {c : Nat} {as : List (Slot × Action)}

/-! ### Link counts -/

theorem sound_step (Ly : Layout sb) (h : Sound sb k.fs ∧ Balanced k)
    (hs : step sb k a = some k') (hl : EntersLive sb k a) : Sound sb k'.fs ∧ Balanced k' :=
  ⟨(step_moves Ly h.1 h.2 hl hs).sound, balanced_step sb h.2 hs⟩

/-- An inode in the cache is open or a current directory. -/
theorem Balanced.handle (hB : Balanced k) (h : 0 < (k.fs.icache ip).ref) :
    (∃ f, (k.ftable f).Names ip) ∨ ∃ p, (k.proc p).cwd = some ip := by
  by_contra hno
  rw [not_or, not_exists, not_exists] at hno
  have hf : files k ip = 0 := Finset.sum_eq_zero fun f _ => if_neg (hno.1 f)
  have hc : cwds k ip = 0 := Finset.sum_eq_zero fun q _ => if_neg (hno.2 q)
  rw [hB.counts.inode.ref, hf, hc] at h
  exact absurd h (Nat.lt_irrefl 0)

/-- **Link counts.** Along every run of system calls that enter new names in live directories
only, an inode has as many links as there are entries that name it, other than `.`, in live
directories, and one that has none is open or a current directory. -/
theorem link_counts_exact (Ly : Layout sb) (hS : Sound sb k₀.fs) (hB : Balanced k₀)
    (hl : Along (step sb) (fun k a _ => EntersLive sb k a) k₀ as) (hr : run (step sb) k₀ as = some k) :
    ∀ i, (nodes sb k.fs i).type ≠ 0 →
      (links (nodes sb k.fs) i).encard = (nodes sb k.fs i).nlink.toNat ∧
      (links (nodes sb k.fs) i = ∅ → ∃ ip, Points k.fs ip i ∧
        ((∃ f, (k.ftable f).Names ip) ∨ ∃ p, (k.proc p).cwd = some ip)) := by
  obtain ⟨hS, hB⟩ := hl.keeps (I := fun k => Sound sb k.fs ∧ Balanced k)
    (fun _ _ _ h hs hl => sound_step Ly h hs hl) ⟨hS, hB⟩ hr
  intro i hi
  refine ⟨hS.tree.links i hi, fun he => ?_⟩
  have hdead : ¬ Live (nodes sb k.fs) i := fun hlive => (hS.tree.links_nonempty hlive).ne_empty he
  obtain ⟨ip, hp⟩ := hS.good.points_iff.mpr (count_pos_of_valid (hS.orphan i hi hdead))
  exact ⟨ip, hp, hB.handle hp.1⟩

/-- Process 0 makes the directory `/c`. -/
def makeDir : List (Slot × Action) := [(0, .mkdir (some [47, 99]))]

theorem makeDir_runs : ∃ k, run (step Mkfs.sb) home makeDir = some k := by
  have : (run (step Mkfs.sb) home makeDir).isSome = true := by decide +kernel
  exact Option.isSome_iff_exists.mp this

theorem makeDir_live
    (h : Enters Mkfs.sb home.fs (home.cwdInum 0) (.mkdir (some [47, 99])) d nm) : Live (nodes Mkfs.sb home.fs) d :=
  resolve_found (fun _ _ _ _ hd hn => sound_home.tree.live_target hd hn) .root (fun hc => absurd rfl hc) h.1

theorem link_counts_exact_makeDir : ∃ k, run (step Mkfs.sb) home makeDir = some k ∧
    ∀ i, (nodes Mkfs.sb k.fs i).type ≠ 0 →
      (links (nodes Mkfs.sb k.fs) i).encard = (nodes Mkfs.sb k.fs i).nlink.toNat := by
  obtain ⟨k, hk⟩ := makeDir_runs
  have hl : Along (step Mkfs.sb) (fun k a _ => EntersLive Mkfs.sb k a) home makeDir :=
    fun _ _ => ⟨fun _ _ h => makeDir_live h, trivial⟩
  exact ⟨k, hk, fun i hi => (link_counts_exact layout_mkfs sound_home balanced_home hl hk i hi).1⟩

/-- Process 0 removes `/a/b`, which is the current directory of process 1, and that makes a file
in it. -/
def orphanFile : List (Slot × Action) :=
  [(0, .unlink (some [97, 47, 98])), (1, .open (some ([120], O_CREATE ||| O_WRONLY)))]

set_option maxRecDepth 100000 in
/-- The new file, inode 2, has a link, but no live directory has an entry for it. -/
theorem orphanFile_miscounts : ∃ k, run (step Mkfs.sb) home orphanFile = some k ∧
    (nodes Mkfs.sb k.fs 2).type ≠ 0 ∧
    (links (nodes Mkfs.sb k.fs) 2).encard ≠ (nodes Mkfs.sb k.fs 2).nlink.toNat := by
  have hrun : ((run (step Mkfs.sb) home orphanFile).any fun k =>
      (nodes Mkfs.sb k.fs 2).type = T_FILE ∧ (nodes Mkfs.sb k.fs 2).nlink = 1 ∧
        avoids (nodes Mkfs.sb k.fs) [1, 8, 24] 2 = true) = true := by decide +kernel
  obtain ⟨k, hk, h⟩ := run_any hrun
  obtain ⟨ht, hn, ha⟩ := of_decide_eq_true h
  refine ⟨k, hk, by rw [ht]; decide, ?_⟩
  rw [links_eq_empty (by decide) ha, hn, Set.encard_empty]
  decide

/-! ### Entries that dangle -/

/-- No directory is removed that is the `..` of a directory removed before. -/
def UnlinksAlone (sb : Superblock) (k : Kernel) (a : Slot × Action) : Prop :=
  ∀ d i nm, Unlinks sb k.fs (k.cwdInum a.1) a.2 d i nm →
    ∀ e, Names (nodes sb k.fs) e 1 i dotdot → Live (nodes sb k.fs) e

theorem rooted_step (Ly : Layout sb) (hS : Sound sb k.fs) (hB : Balanced k)
    (hs : step sb k a = some k') (hl : EntersLive sb k a) (ha : UnlinksAlone sb k a)
    (h : Rooted (nodes sb k.fs)) : Rooted (nodes sb k'.fs) := by
  cases step_moves Ly hS hB hl hs with
  | same hs => exact hs.2.rooted h
  | entered _ _ he => exact he.rooted h
  | removed _ hu hr hf => exact hf.rooted (hr.rooted hS.tree h (ha _ _ _ hu))

/-- Look a path up and lock what it leads to. -/
def lookup (sb : Superblock) (cwd : Ptr) (path : List Byte) : M Unit := do
  let r ← namei sb cwd path
  match r with
  | none => pure ()
  | some ip => ilock sb ip

theorem lookup_runs (Ly : Layout sb) (hS : Sound sb s) (hcl : Closed (nodes sb s))
    (hc : Points s cwd c) (path : List Byte) :
    Runs (lookup sb cwd path) s (fun _ _ => True) fun e => e ≠ .panic .noType := by
  refine Runs.bind ((namei_runs Ly hS.steady_self hc (hS.tree.live_type .root) path).stops
    fun e he hn => (hS.walkStop hc he).2 hn hcl) fun r t ⟨x, ⟨_, ht⟩, hr⟩ => ?_
  cases hw : resolve sb.ninodes (nodes sb s) (counts s) false c path with
  | missing =>
    rw [hw] at ht
    rw [hr, ht.1]
    exact Runs.pure trivial
  | broken | full =>
    rw [hw] at ht
    exact ht.elim
  | found i last =>
    rw [hw] at ht
    obtain ⟨ip, nm, hx, -, hdt, hpt⟩ := ht
    rw [hr, hx]
    refine (hdt.ilock Ly hpt).mono (fun _ _ _ => trivial) fun e he hn => ?_
    have h0 := (resolve_closed hcl (hS.tree.live_type .root) (hS.held c hc.count_pos)).2 i last hw
    obtain ⟨-, hi⟩ | ⟨-, hi⟩ := he
    · cases hi
    · exact h0 hi

/-- **No dangling entries.** Along every run of system calls that enter new names in live
directories only, and remove no directory that is still the `..` of a removed one, every entry
of every directory names an inode that is there, and no lookup ends at a free inode. -/
theorem entries_closed (Ly : Layout sb) (hS : Sound sb k₀.fs) (hB : Balanced k₀)
    (hR : Rooted (nodes sb k₀.fs))
    (hl : Along (step sb) (fun k a _ => EntersLive sb k a ∧ UnlinksAlone sb k a) k₀ as)
    (hr : run (step sb) k₀ as = some k) :
    Closed (nodes sb k.fs) ∧ ∀ p cwd path, (k.proc p).cwd = some cwd →
      lookup sb cwd path k.fs ≠ .error (.panic .noType) := by
  obtain ⟨⟨hS, hB⟩, hR⟩ := hl.keeps
    (I := fun k => (Sound sb k.fs ∧ Balanced k) ∧ Rooted (nodes sb k.fs))
    (fun _ _ _ h hs hl => ⟨sound_step Ly h.1 hs hl.1, rooted_step Ly h.1.1 h.1.2 hs hl.1 hl.2 h.2⟩)
    ⟨⟨hS, hB⟩, hR⟩ hr
  have hcl := hR.closed hS.tree
  exact ⟨hcl, fun p cwd path hcwd he => (lookup_runs Ly hS hcl (hB.points hcwd) path).of_error he rfl⟩

theorem rooted_home : Rooted (nodes Mkfs.sb home.fs) := by
  refine rooted_of_live sound_home.tree fun d hd => ?_
  have hn : nodes Mkfs.sb home.fs = homeNodes := laid_home.node
  rw [hn] at hd ⊢
  have hmem := (isDir_home d).mp hd
  exact (live_home d).mpr (by simp only [List.mem_cons, List.not_mem_nil, or_false] at hmem ⊢; omega)

theorem entries_closed_makeDir : ∃ k, run (step Mkfs.sb) home makeDir = some k ∧
    Closed (nodes Mkfs.sb k.fs) := by
  obtain ⟨k, hk⟩ := makeDir_runs
  have hl : Along (step Mkfs.sb) (fun k a _ => EntersLive Mkfs.sb k a ∧ UnlinksAlone Mkfs.sb k a) home makeDir :=
    fun _ _ => ⟨⟨fun _ _ h => makeDir_live h, fun _ _ _ h => by obtain ⟨_, h, _⟩ := h; cases h⟩, trivial⟩
  exact ⟨k, hk, (entries_closed layout_mkfs sound_home balanced_home rooted_home hl hk).1⟩

/-- Process 0 removes `/a/b`, the current directory of process 1, and `/a`, that of process 2,
which then leaves it. -/
def removeParent : List (Slot × Action) :=
  [(0, .unlink (some [97, 47, 98])), (0, .unlink (some [97])), (2, .chdir (some [47]))]

/-- Why a lookup stops. -/
def lookupStop (cwd : Ptr) (path : List Byte) (s : State) : Option Halt :=
  match lookup Mkfs.sb cwd path s with
  | .ok _ => none
  | .error e => some e

theorem of_lookupStop (h : lookupStop cwd path s = some e) :
    lookup Mkfs.sb cwd path s = .error e := by
  rw [lookupStop] at h
  match hx : lookup Mkfs.sb cwd path s with
  | .ok _ =>
    rw [hx] at h
    cases h
  | .error e' =>
    rw [hx, Option.some.injEq] at h
    rw [h]

set_option maxRecDepth 100000 in
/-- The `..` of the directory process 1 is in names a free inode, and looking it up is a panic. -/
theorem removeParent_dangles : ∃ k, run (step Mkfs.sb) home removeParent = some k ∧
    ¬ Closed (nodes Mkfs.sb k.fs) ∧ (k.proc 1).cwd = some 1 ∧
    lookup Mkfs.sb 1 dotdot k.fs = .error (.panic .noType) := by
  have hrun : ((run (step Mkfs.sb) home removeParent).any fun k =>
      (nodes Mkfs.sb k.fs 16).type = T_DIR ∧ dirent? (nodes Mkfs.sb k.fs 16).data 1 = some ⟨8, dotdot⟩ ∧
        (nodes Mkfs.sb k.fs 8).type = 0 ∧ (k.proc 1).cwd = some (1 : Ptr) ∧
        lookupStop 1 dotdot k.fs = some (.panic .noType)) = true := by decide +kernel
  obtain ⟨k, hk, h⟩ := run_any hrun
  obtain ⟨hd, he, h0, hcwd, hstop⟩ := of_decide_eq_true h
  exact ⟨k, hk, fun hcl => hcl 16 1 8 dotdot ⟨hd, he, by decide⟩ h0, hcwd, of_lookupStop hstop⟩

/-! ### The tree of names -/

/-- New names are given by absolute paths. -/
def Absolute : Action → Prop
  | .open (some (path, omode)) => omode &&& O_CREATE ≠ 0 → char path = slash
  | .mkdir (some path) => char path = slash
  | .mknod (some (path, _, _)) => char path = slash
  | .link (some (_, new)) => char new = slash
  | _ => True

theorem Absolute.live (hS : Sound sb s) (ha : Absolute a)
    (he : Enters sb s c a d nm) : Live (nodes sb s) d := by
  have hlive : ∀ {cs path}, char path = slash → resolve sb.ninodes (nodes sb s) cs true c path = .found d nm →
      Live (nodes sb s) d := fun hp hres =>
    resolve_found (fun _ _ _ _ hd hn => hS.tree.live_target hd hn) .root (fun h => absurd hp h) hres
  match a, ha, he with
  | .open (some (path, omode)), ha, he => exact hlive (ha he.1) he.2.1
  | .mkdir (some path), ha, he => exact hlive ha he.1
  | .mknod (some (path, _, _)), ha, he => exact hlive ha he.1
  | .link (some (_, new)), ha, ⟨⟨_, hn⟩, _⟩ => exact hlive ha hn.new

/-- The live directories form a tree: each has one path, begins with `.` and with a `..` that
names the directory that holds its entry, and has no two entries with equal names. -/
structure NameTree (N : Nat → Node) : Prop where
  self : ∀ d, Live N d → IsDir N d → Names N d 0 d dot
  root : IsDir N ROOTINO ∧ Names N ROOTINO 1 ROOTINO dotdot
  holder : ∀ d k i nm, Live N d → Names N d k i nm → ¬ IsDot nm → IsDir N i →
    i ≠ ROOTINO ∧ Names N i 1 d dotdot
  path : ∀ ps qs d, IsDir N d → Binds N ps d → Binds N qs d → ps = qs
  distinct : ∀ d k l, Live N d → IsDir N d → k < nentries (N d).data → l < nentries (N d).data →
    deInum (deAt (N d).data k) ≠ 0 → deInum (deAt (N d).data l) ≠ 0 →
    namecmp (deName (deAt (N d).data k)) (deName (deAt (N d).data l)) = 0 → k = l

theorem nameTree_of_tree {N : Nat → Node} (t : Tree N) : NameTree N where
  self d _ hd := t.self d hd
  root := ⟨t.root.1, t.root⟩
  holder := t.parent
  path _ _ _ hd hp hq := hp.path_unique t hd hq
  distinct d k l _ hd hk hl hk0 hl0 hcmp := by
    rw [namecmp_eq_zero] at hcmp
    have hname : ∀ {x}, x < nentries (N d).data → deInum (deAt (N d).data x) ≠ 0 →
        Names N d x (deInum (deAt (N d).data x)).toNat (Fs.name (deName (deAt (N d).data x))) :=
      fun hx hx0 => ⟨hd, dirent?_of_lt hx, toNat_ne_zero.mpr hx0⟩
    have hnl := hname hl hl0
    rw [← hcmp] at hnl
    exact t.distinct d k l _ _ _ (hname hk hk0) hnl

/-- What a call that succeeds does to the tree of names. -/
inductive Edits (sb : Superblock) (s : State) (c : Nat) (x : FileCall) (N N' : Nat → Node) : Prop
  /-- A new name binds one path more, to the inode. -/
  | adds {d i : Nat} {nm : Name} {ps : List Name} (ha : Enters sb s c x.action d nm) (hd : Binds N ps d)
      (hb : BindsMore N N' (ps ++ [nm]) i)
  /-- A name removed binds one path less. -/
  | removes {d i : Nat} {nm : Name} {ps : List Name} (ha : Unlinks sb s c x.action d i nm) (hd : Binds N ps d)
      (hb : BindsLess N N' (ps ++ [nm]) i)
  | keeps (hx : (∀ path, x ≠ .unlink path) ∧ ∀ d nm, ¬ Enters sb s c x.action d nm)
      (hb : ∀ qs j, Binds N' qs j ↔ Binds N qs j)

theorem CallMoves.edits (hS : Sound sb s) (h : CallMoves sb s c x r s') (hr : r ≠ -1) :
    Edits sb s c x (nodes sb s) (nodes sb s') ∧ KeepsFiles (nodes sb s) (nodes sb s') := by
  cases h with
  | same hs hx => exact ⟨.keeps (hx.resolve_left hr) hs.2.binds_iff, hs.2.keepsFiles⟩
  | entered _ ha he =>
    obtain ⟨ps, hp⟩ := he.live.binds
    exact ⟨.adds ha hp (he.binds hS.tree hp), he.keepsFiles⟩
  | removed _ ha hr hf =>
    obtain ⟨ps, hp⟩ := hr.live.binds
    obtain ⟨hb, hless⟩ := hr.binds hS.tree hp
    exact ⟨.removes ha hp ⟨hb, fun qs j => (hf.binds_iff qs j).trans (hless qs j)⟩, hr.keepsFiles.swept hf⟩

/-- **The tree of names.** After every run of system calls that give new names by absolute
paths the live directories form a tree, and a call that succeeds then binds one path more if it
enters a new name, one less if it is an unlink, and else the same paths; it leaves the contents of
all files as they were. -/
theorem names_edited (Ly : Layout sb) (hS : Sound sb k₀.fs) (hB : Balanced k₀)
    (ha : ∀ a ∈ as, Absolute a.2) (hr : run (step sb) k₀ as = some k) :
    NameTree (nodes sb k.fs) ∧ ∀ p cwd x r k', (k.proc p).cwd = some cwd → Absolute x.action →
      FileCall.call sb p cwd x k = .ok (r, k') → r ≠ -1 →
      Edits sb k.fs (k.cwdInum p) x (nodes sb k.fs) (nodes sb k'.fs) ∧
        KeepsFiles (nodes sb k.fs) (nodes sb k'.fs) := by
  obtain ⟨hS, hB⟩ := (along_of_forall ha k₀).keeps (I := fun k => Sound sb k.fs ∧ Balanced k)
    (fun _ _ _ h hs ha => sound_step Ly h hs fun _ _ he => ha.live h.1 he) ⟨hS, hB⟩ hr
  refine ⟨nameTree_of_tree hS.tree, fun p cwd x r k' hcwd habs hx hr => ?_⟩
  have hi : k.cwdInum p = (k.fs.icache cwd).inum := by rw [Kernel.cwdInum, hcwd]
  rw [hi]
  have hmoves := call_moves (p := p) Ly hS (hB.points hcwd) hB.counts.closed x fun _ _ he => habs.live hS he
  exact (hmoves.of_ok hx).edits hS hr

theorem names_edited_makeDir : ∃ k, run (step Mkfs.sb) home makeDir = some k ∧
    NameTree (nodes Mkfs.sb k.fs) := by
  obtain ⟨k, hk⟩ := makeDir_runs
  refine ⟨k, hk, (names_edited layout_mkfs sound_home balanced_home (fun a ha => ?_) hk).1⟩
  rw [List.mem_singleton.mp ha]
  exact rfl

end Xv6.Kern
