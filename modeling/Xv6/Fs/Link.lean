import Xv6.Fs.Create

/-! What `sys_link` does: it adds one name to a file, or nothing, or it waits for a lock
that it holds itself.

The last happens when the new name is found in its parent directory and names that
directory: `dirlink` drops the reference the lookup took with `iput`, which takes the
lock. -/
namespace Xv6.Fs
open Lib Function List

variable {sb : Superblock} {s₀ s s' : State} {N N' : Nat → Node} {dp ip cwd : Ptr} {d i k c : Nat}
variable {nm : List Byte}

/-! ### Lookups see types and contents only -/

theorem walk_congr (ht : ∀ j, (N' j).type = (N j).type) (hd : ∀ j, (N' j).data = (N j).data) :
    walk n N' cs parent d last names = walk n N cs parent d last names := by
  induction names generalizing d last with
  | nil => rfl
  | cons m rest ih =>
    rw [walk, walk, ht, hd]
    simp only [ih]

theorem resolve_congr (ht : ∀ j, (N' j).type = (N j).type) (hd : ∀ j, (N' j).data = (N j).data) :
    resolve n N' cs parent c path = resolve n N cs parent c path := by
  simp only [resolve, walk_congr ht hd]

/-! ### The link count -/

/-- The inodes with one more link to inode `i`. -/
def linked (N : Nat → Node) (i : Nat) : Nat → Node :=
  update N i ((N i).setFields id id (· + 1))

theorem linked_self : linked N i i = (N i).setFields id id (· + 1) := update_self ..

theorem linked_other (h : d ≠ i) : linked N i d = N d := update_of_ne h ..

theorem linked_type (j : Nat) : (linked N i j).type = (N j).type := by
  by_cases h : j = i
  · rw [h, linked_self]
    rfl
  · rw [linked_other h]

theorem linked_data (j : Nat) : (linked N i j).data = (N j).data := by
  by_cases h : j = i
  · rw [h, linked_self]
    rfl
  · rw [linked_other h]

theorem linked_undo :
    update (linked N i) i ((linked N i i).setFields id id (· - 1)) = N := by
  have : (linked N i i).setFields id id (· - 1) = N i := by
    rw [linked_self]
    simp only [Node.setFields, id, BitVec.add_sub_cancel]
  rw [this, linked, update_idem, update_eq_self]

theorem link_bad_runs (Ly : Layout sb) (hS : Sound sb s₀) (hN : N = nodes sb s₀)
    (h : During sb s₀ s (linked N i) [i] []) (hp : Points s ip i) (hi : (N i).type ≠ 0) :
    Runs (link_bad sb ip) s (fun r s' => r = -1 ∧ During sb s₀ s' N [] []) Calm := by
  refine Runs.bind ((h.ilock Ly hp).stops fun e he => ?_) fun _ t ⟨hdt, _, hst, _, _⟩ => ?_
  · rcases he with ⟨_, hc⟩ | ⟨_, hc⟩
    · cases hc
    · rw [linked_type] at hc
      exact absurd hc hi
  have hpt := hst.points ip i hp
  refine Runs.assoc (Runs.bind ((hdt.setFields Ly hpt (mem_cons_self ..) id id (· - 1)).stops
    fun _ he => he.calm) fun _ u ⟨hdu, hsu⟩ => ?_)
  rw [linked_undo] at hdu
  refine Runs.bind (hdu.iunlockput (hsu.points ip i hpt) not_mem_nil fun h0 => .inl ?_)
    fun _ w ⟨hw, _, _⟩ => Runs.bind hw.end_op fun _ x ⟨hx, _⟩ => Runs.pure ⟨rfl, hx⟩
  rw [hN] at hi h0
  exact hS.kept hi h0

/-! ### The new name -/

/-- The end of `sys_link`, with the parent directory of the new name locked. -/
def link_tail (sb : Superblock) (dp ip : Ptr) (name : List Byte) : M Int := do
  let d ← inode dp
  let i ← inode ip
  let r ← (if d.dev ≠ i.dev then pure (-1) else dirlink sb dp name i.inum)
  if r < 0 then do
    iunlockput sb dp
    link_bad sb ip
  else do
    iunlockput sb dp
    iput sb ip
    end_op
    pure 0

/-- What `sys_link` leaves when it has entered the name `nm` for inode `i` in directory `d`. -/
structure Linked (N N' : Nat → Node) (d k i : Nat) (nm : Name) : Prop where
  found : (N i).type ≠ 0
  file : ¬ IsDir N i
  fields : N' i = {N i with nlink := (N' i).nlink}
  adds : Live N d → Adds N N' d k i nm

/-- The state of `sys_link` with the parent directory of the new name locked. -/
structure Linking (sb : Superblock) (s₀ s : State) (N : Nat → Node) (dp ip : Ptr) (d i : Nat) :
    Prop where
  during : During sb s₀ s (linked N i) [d, i] [d]
  dp : Points s dp d
  ip : Points s ip i
  dir : IsDir N d
  found : (N i).type ≠ 0
  file : ¬ IsDir N i

namespace Linking
variable (h : Linking sb s₀ s N dp ip d i)
include h

theorem ne : d ≠ i := fun he => h.file (he ▸ h.dir)

theorem dir_eq : linked N i d = N d := linked_other h.ne

theorem lockedDir (t : Tree N) : LockedDir sb s (linked N i) dp d :=
  h.during.lockedDir h.dp (mem_cons_self ..) (by rw [h.dir_eq]; exact h.dir)
    (by rw [h.dir_eq]; exact t.aligned d h.dir)

theorem tail_eq {Q : Int → State → Prop} {E : Halt → Prop}
    (hd : Runs (do
      let r ← dirlink sb dp nm i
      if r < 0 then do
        iunlockput sb dp
        link_bad sb ip
      else do
        iunlockput sb dp
        iput sb ip
        end_op
        pure 0) s Q E) : Runs (link_tail sb dp ip nm) s Q E := by
  refine bind_inode (bind_inode ?_)
  rw [h.during.good.dev_eq h.dp, h.during.good.dev_eq h.ip, if_neg (fun hc => hc rfl), h.ip.2]
  exact hd

end Linking

theorem adds_linked (t : Tree N) (hl : Live N d) (hdir : IsDir N d)
    (hi : (N i).type ≠ 0) (hfile : ¬ IsDir N i) (hnone : find (N d).data nm = none)
    (hv : Vacant (N d).data k) (hput : PutEntry (N d).data data k ⟨i, nm⟩)
    (hle : (N i).nlink.toNat < 2 ^ 16 - 1) :
    Adds N (update (linked N i) d {N d with data := data}) d k i nm := by
  have hne : i ≠ d := fun he => hfile (he ▸ hdir)
  have hself : update (linked N i) d {N d with data := data} i =
      (N i).setFields id id (· + 1) := by
    rw [update_of_ne hne, linked_self]
  have hd : update (linked N i) d {N d with data := data} d = {N d with data := data} :=
    update_self ..
  refine ⟨hl, hdir, fun l j hn => find_eq_none.mp hnone l j hn.2, t.not_isDot hdir hnone, hv,
    fun he => hi (he ▸ t.zero), by rw [hself]; exact hi, by rw [hself]; exact hfile, hfile,
    fun h => absurd h hi, ?_, by rw [hd]; exact hput, by rw [hd], fun j hjd hji => ?_⟩
  · rw [hself]
    exact toNat_add_one hle
  · rw [update_of_ne hjd, linked_other hji]

/-- Why `link_tail` waits for its own lock. -/
def Loops (N : Nat → Node) (d : Nat) (nm : Name) : Prop := ∃ k, find (N d).data nm = some (k, d)

theorem link_tail_runs (Ly : Layout sb) (hS : Sound sb s₀) (hN : N = nodes sb s₀)
    (h : Linking sb s₀ s N dp ip d i) (hloop : ¬ Loops N d (name nm)) :
    Runs (link_tail sb dp ip nm) s
      (fun r s' => (r = -1 ∧ During sb s₀ s' N [] []) ∨
        (r = 0 ∧ find (N d).data (name nm) = none ∧ ∃ k N', Linked N N' d k i (name nm) ∧
          During sb s₀ s' N' [] [])) Calm := by
  have ht : Tree N := hN ▸ hS.tree
  have hld := h.lockedDir ht
  have hrange : ∀ k j m, Holds (linked N i d).data k j m → j < sb.ninodes := fun k j m hh => by
    rw [linked_data, hN] at hh
    exact hS.range d k j m ⟨hN ▸ h.dir, hh⟩
  have hkept : ∀ j, (N j).type ≠ 0 → (N j).nlink = 0 → 0 < (refs s₀ j).count := fun j h0 hl => by
    rw [hN] at h0 hl
    exact hS.kept h0 hl
  have hlen : ∀ j, (N j).nlink.toNat < 2 ^ 16 - 1 := fun j => by
    have := hS.nlink_le Ly j
    rw [← hN] at this
    omega
  have hdlink : (linked N i d).nlink = 0 → 0 < (refs s₀ d).count := fun h0 => by
    rw [h.dir_eq] at h0
    exact hkept d (isDir_ne_zero h.dir) h0
  refine h.tail_eq ?_
  cases hf : find (N d).data (name nm) with
  | none =>
    have hin : i < 2 ^ 16 := by
      have := (h.during.good.inum ip h.ip.1).2
      rw [h.ip.2] at this
      exact this.trans_le Ly.ninodes
    refine Runs.bind (dirlink_runs Ly h.during hld hrange (by rw [linked_data]; exact hf) hin)
      fun r t ⟨hr, k, data, hv, hput, hdt, hst⟩ => ?_
    rw [hr]
    refine Runs.ite (fun h => absurd h (by decide)) fun _ => ?_
    rw [h.dir_eq] at hv hput hdt
    refine Runs.bind (hdt.iunlockput (hst.points dp d h.dp) not_mem_nil fun h0 => .inl ?_)
      fun _ u ⟨hdu, hsu, _⟩ => ?_
    · rw [update_self] at h0
      exact hkept d (isDir_ne_zero h.dir) h0
    have hpu : Points u ip i := hsu.points ip i (hst.points ip i h.ip) fun he => absurd he h.ne.symm
    refine Runs.bind (hdu.iput hpu not_mem_nil fun h0 => ?_) fun _ w ⟨hdw, _, _⟩ =>
      Runs.bind hdw.end_op fun _ x ⟨hdx, _⟩ => Runs.pure (.inr ⟨rfl, rfl, k, _, ?_, hdx⟩)
    · -- the new link is counted
      rw [update_of_ne h.ne.symm, linked_self] at h0
      have h0 : (N i).nlink + 1 = 0 := h0
      have := toNat_add_one (hlen i)
      rw [h0] at this
      exact absurd this (Nat.succ_ne_zero _).symm
    · refine ⟨h.found, h.file, ?_, fun hl => adds_linked ht hl h.dir h.found h.file hf hv hput (hlen i)⟩
      rw [update_of_ne h.ne.symm, linked_self]
      rfl
  | some x =>
    obtain ⟨k, j⟩ := x
    have hj : j ∉ [d] := fun hc => hloop ⟨k, by rw [hf, mem_singleton.mp hc]⟩
    refine Runs.bind (dirlink_taken_runs Ly h.during hld hrange (by rw [linked_data]; exact hf) hj
      fun h0 hl => ?_) fun r t ⟨hr, hdt, hst⟩ => ?_
    · rw [h.during.count]
      by_cases hji : j = i
      · rw [hji, count_cons_of_ne h.ne, count_singleton_self]
        omega
      · rw [linked_other hji] at h0 hl
        have := hkept j h0 hl
        omega
    rw [hr]
    refine Runs.ite (fun _ => ?_) fun h => absurd (by decide) h
    refine Runs.bind (hdt.iunlockput (hst.points dp d h.dp) not_mem_nil fun h0 =>
      .inl (hdlink h0)) fun _ u ⟨hdu, hsu, _⟩ => ?_
    exact (link_bad_runs Ly hS hN hdu (hsu.points ip i (hst.points ip i h.ip)
      fun he => absurd he h.ne.symm) h.found).post fun _ _ h => .inl h

theorem link_tail_deadlock (Ly : Layout sb) (hS : Sound sb s₀) (hN : N = nodes sb s₀)
    (h : Linking sb s₀ s N dp ip d i) (hloop : Loops N d (name nm)) :
    Runs (link_tail sb dp ip nm) s (fun _ _ => False) (fun e => e = .deadlock) := by
  obtain ⟨k, hf⟩ := hloop
  refine h.tail_eq (Runs.bind (dirlink_deadlock Ly h.during (h.lockedDir (hN ▸ hS.tree))
    (fun k j m hh => ?_) (by rw [linked_data]; exact hf) (mem_cons_self ..))
    fun _ _ h => h.elim)
  rw [linked_data, hN] at hh
  exact hS.range d k j m ⟨hN ▸ h.dir, hh⟩

/-! ### The two paths -/

/-- `sys_link` from the lookup of the new name's parent on. -/
def link_rest (sb : Superblock) (cwd ip : Ptr) (new : List Byte) : M Int := do
  let r ← nameiparent sb cwd new
  match r with
  | none => link_bad sb ip
  | some (dp, name) => do
    ilock sb dp
    link_tail sb dp ip name

/-- The state of `sys_link` when it looks up the parent of the new name. -/
structure Counted (sb : Superblock) (s₀ s : State) (N : Nat → Node) (cwd ip : Ptr) (c i : Nat) :
    Prop where
  during : During sb s₀ s (linked N i) [i] []
  ip : Points s ip i
  cwd : Points s cwd c
  found : (N i).type ≠ 0
  file : ¬ IsDir N i

theorem Counted.lookup (Ly : Layout sb) (hS : Sound sb s₀) (hN : N = nodes sb s₀)
    (h : Counted sb s₀ s N cwd ip c i) (new : List Byte) :
    Runs (nameiparent sb cwd new) s
      (Walked sb s (linked N i) (resolve sb.ninodes N (plus (counts s₀) i) true c new))
      (WalkStop (resolve sb.ninodes N (plus (counts s₀) i) true c new)) := by
  have hst : Steady sb s (linked N i) :=
    hS.steady h.during (fun j => by rw [linked_type, hN]) (fun j => by rw [linked_data, hN])
      fun j hj => by rw [linked_other fun he => hj (mem_singleton.mpr he), hN]
  have hroot : (linked N i ROOTINO).type ≠ 0 := by
    rw [linked_type, hN]
    exact hS.tree.live_type .root
  have := namex_runs Ly hst h.cwd hroot new true
  rw [resolve_congr linked_type linked_data, h.during.counts_eq] at this
  exact this

/-- `sys_link` up to `link_tail`, when the parent of the new name is found. -/
theorem Counted.rest (Ly : Layout sb) (hS : Sound sb s₀) (hN : N = nodes sb s₀)
    (h : Counted sb s₀ s N cwd ip c i)
    (hw : resolve sb.ninodes N (plus (counts s₀) i) true c new = .found d last)
    (ht : ∀ t dp nm, name nm = last → Linking sb s₀ t N dp ip d i → Runs (link_tail sb dp ip nm) t Q E) :
    Runs (link_rest sb cwd ip new) s Q E := by
  have hdir : IsDir N d := resolve_parent_isDir hw
  have hne : d ≠ i := fun he => h.file (he ▸ hdir)
  have hlook := h.lookup Ly hS hN new
  rw [hw] at hlook
  refine Runs.bind (hlook.stops fun e he => ?_) fun r t ⟨_, dp, nm, hr, hnm, hdt, hpt⟩ => ?_
  · rcases he with ⟨_, he⟩ | ⟨_, he⟩ <;> cases he
  rw [hr]
  have hall : During sb s₀ t (linked N i) [d, i] [] := h.during.trans hdt
  refine Runs.bind ((hall.ilock Ly hpt).stops fun e he => ?_) fun _ u ⟨hdu, _, hsu, _, _⟩ => ?_
  · rcases he with ⟨_, hc⟩ | ⟨_, hc⟩
    · cases hc
    · rw [linked_type] at hc
      exact absurd hc (isDir_ne_zero hdir)
  exact ht u dp nm hnm ⟨hdu, hsu.points dp d hpt, hsu.points ip i (hdt.keeps ip i h.ip), hdir, h.found,
    h.file⟩

/-- `sys_link` once the old name is found. -/
def link_found (sb : Superblock) (cwd ip : Ptr) (new : List Byte) : M Int := do
  ilock sb ip
  let i ← inode ip
  if i.d.type = T_DIR then do
    iunlockput sb ip
    end_op
    pure (-1)
  else do
    setDinode ip fun d => {d with nlink := d.nlink + 1}
    iupdate sb ip
    iunlock ip
    link_rest sb cwd ip new

/-- `sys_link` up to `link_rest`, when the old name is a file. -/
theorem link_found_runs (Ly : Layout sb) (h : During sb s₀ s N [i] []) (hp : Points s ip i)
    (hc : Points s cwd c) (hi : (N i).type ≠ 0) (hfile : ¬ IsDir N i) (new : List Byte)
    (hlog : ∀ e, LogStop sb s 0 e → E e)
    (hr : ∀ t, Counted sb s₀ t N cwd ip c i → Runs (link_rest sb cwd ip new) t Q E) :
    Runs (link_found sb cwd ip new) s Q E := by
  refine Runs.bind ((h.ilock Ly hp).stops fun e he => ?_) fun _ t ⟨hdt, hqt, hst, _, _⟩ => ?_
  · rcases he with ⟨_, hc⟩ | ⟨_, hc⟩
    · cases hc
    · exact absurd hc hi
  have hpt := hst.points ip i hp
  refine bind_inode ?_
  rw [hdt.good.type_eq hpt (hdt.held i (mem_cons_self ..)), hdt.nodes]
  refine Runs.ite (fun hd => absurd hd hfile) fun _ => ?_
  refine Runs.assoc (Runs.bind ((hdt.setFields Ly hpt (mem_cons_self ..) id id (· + 1)).stops
    fun e he => hlog e ?_) fun _ u ⟨hdu, hsu⟩ => ?_)
  · have := hqt.logged.logStop he
    rwa [Nat.zero_add] at this
  have hpu := hsu.points ip i hpt
  refine Runs.bind (hdu.iunlock hpu not_mem_nil) fun _ w ⟨hdw, _, hsw⟩ => hr w ?_
  have hall := (hst.trans hsu).trans hsw
  exact ⟨hdw, hall.points ip i hp, hall.points cwd c hc, hi, hfile⟩

/-! ### `sys_link` -/

/-- The two names of a call of `sys_link` lead to the file `i` and to `last` in directory `d`. -/
structure LinkNames (sb : Superblock) (s : State) (c : Nat) (old new : List Byte) (i d : Nat)
    (last : Name) : Prop where
  old : ∃ m, resolve sb.ninodes (nodes sb s) (counts s) false c old = .found i m
  found : (nodes sb s i).type ≠ 0
  file : ¬ IsDir (nodes sb s) i
  new : resolve sb.ninodes (nodes sb s) (plus (counts s) i) true c new = .found d last

/-- The call of `sys_link` waits for its own lock. -/
def LinkLoops (sb : Superblock) (s : State) (c : Nat) (args : Option (List Byte × List Byte)) : Prop :=
  ∃ old new i d last, args = some (old, new) ∧ LinkNames sb s c old new i d last ∧
    Loops (nodes sb s) d last

/-- What `sys_link` does: it answers `-1` and leaves all inodes as they were, or it enters
the new name. -/
def LinkPost (sb : Superblock) (s : State) (c : Nat) (args : Option (List Byte × List Byte)) (r : Int)
    (s' : State) : Prop :=
  (r = -1 ∧ During sb s s' (nodes sb s) [] []) ∨
  (r = 0 ∧ ∃ old new i d last k N', args = some (old, new) ∧ LinkNames sb s c old new i d last ∧
    find (nodes sb s d).data last = none ∧ Linked (nodes sb s) N' d k i last ∧
    During sb s s' N' [] [])

/-- Why `sys_link` stops. -/
def LinkStop (sb : Superblock) (s : State) (c : Nat) (args : Option (List Byte × List Byte))
    (e : Halt) : Prop :=
  (e = .deadlock → LinkLoops sb s c args) ∧ (e = .panic .noType → ¬ Closed (nodes sb s))

theorem CallStop.linkStop
    (h : CallStop (nodes sb s) e) : LinkStop sb s c args e := ⟨fun he => absurd he h.1, h.2⟩

theorem sys_link_runs (Ly : Layout sb) (hS : Sound sb s) (hc : Points s cwd c)
    (args : Option (List Byte × List Byte)) :
    Runs (sys_link sb cwd args) s (LinkPost sb s c args) (LinkStop sb s c args) := by
  cases args with
  | none => exact Runs.pure (.inl ⟨rfl, hS.start⟩)
  | some x =>
    obtain ⟨old, new⟩ := x
    refine Runs.bind (hS.begin_op.stops fun e he => CallStop.linkStop ?_)
      fun _ s₁ ⟨hS₁, hd₁, hn₁, hc₁, hk₁, _⟩ => ?_
    · rw [he.1]
      exact ⟨by decide, fun h => by cases h⟩
    have hc' := hk₁ cwd c hc
    have hlook := namei_runs Ly hS₁.steady_self hc' (hS₁.tree.live_type .root) old
    rw [hn₁, hc₁] at hlook
    have hneg : ∀ r u, r = -1 → During sb s₁ u (nodes sb s) [] [] →
        LinkPost sb s c (some (old, new)) r u := fun r u hr hu => .inl ⟨hr, hd₁.rebase hu⟩
    refine Runs.bind (hlook.stops fun e he => (hS.walkStop hc he).linkStop)
      fun r t ⟨x, ⟨_, ht⟩, hr⟩ => ?_
    cases hw : resolve sb.ninodes (nodes sb s) (counts s) false c old with
    | missing =>
      rw [hw] at ht
      rw [hr, ht.1]
      exact Runs.bind ht.2.end_op fun _ u ⟨hu, _⟩ => Runs.pure (hneg _ u rfl hu)
    | broken | full =>
      rw [hw] at ht
      exact ht.elim
    | found i m =>
      rw [hw] at ht
      obtain ⟨ip, nm, hx, _, hdt, hpt⟩ := ht
      rw [hr, hx]
      show Runs (link_found sb cwd ip new) t _ _
      by_cases hi : (nodes sb s i).type = 0
      · -- the inode is free, and `ilock` says so
        refine Runs.bind (R := fun _ _ => False) ((hdt.ilock Ly hpt).mono
          (fun _ _ h => h.2.2.2.2 hi) fun e he => ?_) fun _ _ h => h.elim
        rcases he with ⟨_, he⟩ | ⟨rfl, _⟩
        · cases he
        · refine ⟨fun h => (by cases h), fun _ hcl => ?_⟩
          exact (resolve_closed hcl (hS.tree.live_type .root) (hS.held c hc.count_pos)).2 i m hw hi
      by_cases hdir : IsDir (nodes sb s) i
      · -- a directory is refused
        refine Runs.bind ((hdt.ilock Ly hpt).stops fun e he => ?_) fun _ u ⟨hdu, _, hsu, _, _⟩ => ?_
        · rcases he with ⟨_, he⟩ | ⟨_, he⟩
          · cases he
          · exact absurd he hi
        have hpu := hsu.points ip i hpt
        refine bind_inode ?_
        rw [hdu.good.type_eq hpu (hdu.held i (mem_cons_self ..)), hdu.nodes]
        refine Runs.ite (fun _ => ?_) fun h => absurd hdir h
        refine Runs.bind (hdu.iunlockput hpu not_mem_nil fun h0 => .inl ?_) fun _ w ⟨hw, _, _⟩ =>
          Runs.bind hw.end_op fun _ x ⟨hx, _⟩ => Runs.pure (hneg _ x rfl hx)
        have := hS₁.kept (i := i)
        rw [hn₁] at this
        exact this hi h0
      · refine link_found_runs Ly hdt hpt (hdt.keeps cwd c hc') hi hdir new
          (fun e he => he.calm.callStop.linkStop) fun u hu => ?_
        cases hw' : resolve sb.ninodes (nodes sb s) (plus (counts s₁) i) true c new with
        | found d last =>
          refine hu.rest Ly hS₁ hn₁.symm hw' fun v dp nm hnm hv => ?_
          rw [hc₁] at hw'
          have hnames : LinkNames sb s c old new i d last := ⟨⟨m, hw⟩, hi, hdir, hw'⟩
          by_cases hloop : Loops (nodes sb s) d (name nm)
          · refine (link_tail_deadlock Ly hS₁ hn₁.symm hv hloop).mono (fun _ _ h => h.elim) fun e he => ?_
            rw [hnm] at hloop
            exact ⟨fun _ => ⟨old, new, i, d, last, rfl, hnames, hloop⟩, fun h => by rw [he] at h; cases h⟩
          · refine (link_tail_runs Ly hS₁ hn₁.symm hv hloop).mono (fun r x hx => ?_)
              fun e he => he.callStop.linkStop
            rcases hx with ⟨hr, hx⟩ | ⟨hr, hf, k, N', hl, hx⟩
            · exact hneg r x hr hx
            · rw [hnm] at hf hl
              exact .inr ⟨hr, old, new, i, d, last, k, N', rfl, hnames, hf, hl, hd₁.rebase hx⟩
        | missing | broken | full =>
          have hlook := hu.lookup Ly hS₁ hn₁.symm new
          rw [hw'] at hlook
          refine Runs.bind (hlook.stops fun e he => ?_) fun r v ⟨_, hv⟩ => ?_
          · rw [← hw'] at he
            exact (hS.walkStop hc he).linkStop
          · first
            | exact hv.elim
            | rw [hv.1]
              exact (link_bad_runs Ly hS₁ hn₁.symm (hu.during.trans hv.2) (hv.2.keeps ip i hu.ip) hi).mono
                (fun r x h => hneg r x h.1 h.2) fun e he => he.callStop.linkStop

/-- A call whose new name is a name of its own parent directory never returns. -/
theorem sys_link_deadlock (Ly : Layout sb) (hS : Sound sb s) (hc : Points s cwd c)
    (hlh : s.lh = []) (ho : s.outstanding = 0)
    (h : LinkLoops sb s c args) :
    Runs (sys_link sb cwd args) s (fun _ _ => False) (fun e => e = .deadlock) := by
  obtain ⟨old, new, i, d, last, rfl, ⟨⟨m, hw⟩, hi, hfile, hw'⟩, hloop⟩ := h
  refine Runs.bind (hS.begin_op.stops fun e he => ?_) fun _ s₁ ⟨hS₁, hd₁, hn₁, hc₁, hk₁, hs₁⟩ => ?_
  · rw [hlh, ho] at he
    exact absurd he.2 (by decide)
  have hc' := hk₁ cwd c hc
  have hlook := namei_runs Ly hS₁.steady_self hc' (hS₁.tree.live_type .root) old
  rw [hn₁, hc₁, hw] at hlook
  refine Runs.bind (hlook.stops fun e he => ?_) fun r t ⟨x, ⟨hq, ip, nm, hx, _, hdt, hpt⟩, hr⟩ => ?_
  · rcases he with ⟨_, he⟩ | ⟨_, he⟩ <;> cases he
  rw [hr, hx]
  show Runs (link_found sb cwd ip new) t _ _
  refine link_found_runs Ly hdt hpt (hdt.keeps cwd c hc') hi hfile new (fun e he => ?_) fun u hu => ?_
  · -- the log is empty
    have hl : t.lh = [] := by rw [hq.lh, hs₁]; exact hlh
    have ho' : t.outstanding = 1 := by rw [hq.outstanding, hs₁]; exact congrArg (· + 1) ho
    rcases he with ⟨_, hf⟩ | ⟨_, hf⟩
    · have := Ly.log
      rw [hl] at hf
      rcases hf with hf | hf
      · exact absurd hf (by decide)
      · have hf : sb.nlog - 1 ≤ 0 := hf
        omega
    · omega
  · rw [← hc₁] at hw'
    refine hu.rest Ly hS₁ hn₁.symm hw' fun v dp nm hnm hv => ?_
    exact link_tail_deadlock Ly hS₁ hn₁.symm hv (by rw [hnm]; exact hloop)

end Xv6.Fs
