import Xv6.Fs.ContentProofs

/-! The file system as its users see it: inodes with contents, and references to them.

`nodes` forgets blocks and addresses: an inode is its type, its device numbers, its
link count and its bytes. `refs` forgets which cache entry holds an inode: an inode
is referenced so many times, locked or not, read in or not. `Good` is what makes
the two meaningful, and what every function of `fs.c` keeps. -/
namespace Xv6.Fs
open Lib

@[ext] structure Node where
  type : BitVec 16
  major : BitVec 16
  minor : BitVec 16
  nlink : BitVec 16
  data : List Byte
deriving DecidableEq

/-- A free inode. -/
def Node.free : Node := ⟨0, 0, 0, 0, []⟩

/-- The bytes with `src` written over them at `off`. -/
def splice (data : List Byte) (off : Nat) (src : List Byte) : List Byte :=
  data.take off ++ src ++ data.drop (off + src.length)

def Node.write (n : Node) (off : Nat) (src : List Byte) : Node :=
  {n with data := splice n.data off src}

def node (v : View) (i : Nat) : Node :=
  if (v.tab i).type = 0 then .free
  else ⟨(v.tab i).type, (v.tab i).major, (v.tab i).minor, (v.tab i).nlink, content v i⟩

def nodes (sb : Superblock) (s : State) : Nat → Node := node (view sb s.disk)

/-- What is known in the cache about an inode. -/
structure Ref where
  count : Nat
  locked : Bool
  valid : Bool

def Ref.none : Ref := ⟨0, false, false⟩

/-- `ip` is a pointer to inode `i`. -/
def Points (s : State) (ip : Ptr) (i : Nat) : Prop :=
  0 < (s.icache ip).ref ∧ (s.icache ip).inum = i

instance (s : State) (ip : Ptr) (i : Nat) : Decidable (Points s ip i) :=
  inferInstanceAs (Decidable (_ ∧ _))

def Inode.known (i : Inode) : Ref := ⟨i.ref, i.locked, i.valid⟩

def refs (s : State) (i : Nat) : Ref :=
  match (List.finRange NINODE).find? fun ip => decide (Points s ip i) with
  | some ip => (s.icache ip).known
  | none => .none

structure Good (sb : Superblock) (s : State) : Prop where
  owned : Owned sb (view sb s.disk)
  solid : Solid (view sb s.disk)
  /-- A cache entry that has been read in is as on disk. -/
  sync : ∀ ip, 0 < (s.icache ip).ref → (s.icache ip).valid = true →
    (s.icache ip).d = (view sb s.disk).tab (s.icache ip).inum ∧ (s.icache ip).d.type ≠ 0
  inum : ∀ ip, 0 < (s.icache ip).ref →
    (s.icache ip).dev = ROOTDEV ∧ (s.icache ip).inum < sb.ninodes
  once : ∀ p q, 0 < (s.icache p).ref → 0 < (s.icache q).ref →
    (s.icache p).inum = (s.icache q).inum → p = q
  idle : ∀ ip, (s.icache ip).ref = 0 → (s.icache ip).locked = false

/-- No inode gets more pointers than it needs, if none had. -/
def Trims (sb : Superblock) (s s' : State) : Prop := Trim (view sb s.disk) → Trim (view sb s'.disk)

/-- `s'` has the cache of `s`, but for copies of on-disk inodes, and at most `k` more
blocks in the log. -/
structure Same (k : Nat) (s s' : State) : Prop where
  entry : ∀ ip, s'.icache ip = {s.icache ip with d := (s'.icache ip).d}
  console : s'.console = s.console
  outstanding : s'.outstanding = s.outstanding
  lh : s'.lh.length ≤ s.lh.length + k

variable {sb : Superblock} {s s' s'' : State} {ip : Ptr} {i j k : Nat}

namespace Same

theorem refl (s : State) : Same 0 s s := ⟨fun _ => rfl, rfl, rfl, Nat.le_refl _⟩

theorem trans (h : Same j s s') (h' : Same k s' s'') : Same (j + k) s s'' where
  entry q := by rw [h'.entry q, h.entry q]
  console := h'.console.trans h.console
  outstanding := h'.outstanding.trans h.outstanding
  lh := by
    have := h.lh
    have := h'.lh
    omega

theorem mono (h : Same j s s') (hjk : j ≤ k) : Same k s s' :=
  ⟨h.entry, h.console, h.outstanding, h.lh.trans (Nat.add_le_add_left hjk _)⟩

theorem of_stored (h : Stored k s s') : Same k s s' :=
  ⟨fun ip => by rw [h.icache], h.console, h.outstanding, h.lh⟩

theorem of_edits (h : Edits sb ip k s s') : Same (k + 2) s s' where
  entry q := by
    by_cases hq : q = ip
    · rw [hq]
      exact h.self
    · rw [h.entry, Function.update_of_ne hq]
  console := h.console
  outstanding := h.outstanding
  lh := by
    have := h.lh
    have := owes_le sb s.lh (indirect s ip)
    omega

theorem logStop (h : Same j s s') (he : LogStop sb s' k e) : LogStop sb s (j + k) e :=
  he.before h.lh h.outstanding

theorem points (h : Same k s s') : Points s' ip i ↔ Points s ip i := by
  rw [Points, Points, h.entry ip]

theorem refs_eq (h : Same k s s') : refs s' = refs s := by
  have hp : ∀ ip i, (decide (Points s' ip i)) = decide (Points s ip i) := fun ip i =>
    decide_eq_decide.mpr h.points
  funext i
  simp only [refs, hp]
  split
  · rename_i q _
    rw [h.entry q]
    rfl
  · rfl

end Same

/-! ### References -/

theorem refs_of_points (hg : ∀ p q, 0 < (s.icache p).ref → 0 < (s.icache q).ref →
    (s.icache p).inum = (s.icache q).inum → p = q) (hp : Points s ip i) :
    refs s i = (s.icache ip).known := by
  rw [refs]
  cases hf : (List.finRange NINODE).find? fun ip => decide (Points s ip i) with
  | some q =>
    have hq : Points s q i := by simpa using List.find?_some hf
    rw [hg q ip hq.1 hp.1 (hq.2.trans hp.2.symm)]
  | none =>
    have := List.find?_eq_none.mp hf ip (List.mem_finRange ip)
    simp [hp] at this

theorem refs_eq_none (hn : ∀ ip, ¬ Points s ip i) : refs s i = .none := by
  rw [refs]
  cases hf : (List.finRange NINODE).find? fun ip => decide (Points s ip i) with
  | some q =>
    have hq : Points s q i := by simpa using List.find?_some hf
    exact absurd hq (hn q)
  | none => rfl

namespace Good

theorem refs_eq (hg : Good sb s) (hp : Points s ip i) : refs s i = (s.icache ip).known :=
  refs_of_points hg.once hp

theorem points_unique (hg : Good sb s) (hp : Points s ip i) (hq : Points s q i) : ip = q :=
  hg.once ip q hp.1 hq.1 (hp.2.trans hq.2.symm)

theorem points_iff (hg : Good sb s) : (∃ ip, Points s ip i) ↔ 0 < (refs s i).count := by
  constructor
  · rintro ⟨ip, hp⟩
    rw [hg.refs_eq hp]
    exact hp.1
  · intro h
    by_contra hn
    rw [refs_eq_none fun ip hp => hn ⟨ip, hp⟩] at h
    exact absurd h (Nat.lt_irrefl 0)

/-- The in-memory copy of a valid entry may be put in place of the one on disk. -/
theorem mem_eq (hg : Good sb s) (hp : 0 < (s.icache ip).ref) (hv : (s.icache ip).valid = true) :
    mem sb s ip = view sb s.disk := by
  rw [mem, (hg.sync ip hp hv).1]
  simp only [View.setTab, Function.update_eq_self]

theorem ready (hg : Good sb s) (hp : 0 < (s.icache ip).ref) (hv : (s.icache ip).valid = true) :
    Ready sb s ip :=
  ⟨(hg.inum ip hp).1, (hg.inum ip hp).2, (hg.sync ip hp hv).2⟩

end Good

end Xv6.Fs
