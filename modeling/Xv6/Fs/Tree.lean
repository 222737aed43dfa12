import Xv6.Fs.DirProofs
import Mathlib.Data.Set.Card

/-! The name space: what the entries of directories make of the inodes.

`Live` are the inodes that can be reached from the root through entries other than `.`
and `..`; a directory that is not live has been removed. `Tree` is the invariant of
the name space: the live directories form a tree, every directory begins with `.` and
`..`, names are distinct, removed directories are empty, and link counts are exact.
There are four ways to change the name space: a name is added, a directory is made, a
name is removed, and an inode that is not live is freed. Each keeps the invariant. -/
namespace Xv6.Fs
open Lib

variable {N N' : Nat → Node} {d k i l j : Nat} {nm m : Name}

def IsDir (N : Nat → Node) (d : Nat) : Prop := (N d).type = T_DIR

/-- Entry `k` of directory `d` names inode `i`. -/
def Names (N : Nat → Node) (d k i : Nat) (nm : Name) : Prop := IsDir N d ∧ Holds (N d).data k i nm

/-- The name is `.` or `..`. -/
def IsDot (nm : Name) : Prop := nm = dot ∨ nm = dotdot

inductive Live (N : Nat → Node) : Nat → Prop
  | root : Live N ROOTINO
  | entry {d k i : Nat} {nm : Name} : Live N d → Names N d k i nm → ¬ IsDot nm → Live N i

/-- The entries that count as links to inode `i`: all but `.`, in live directories. -/
def links (N : Nat → Node) (i : Nat) : Set (Nat × Nat) :=
  {x | Live N x.1 ∧ ∃ nm, Names N x.1 x.2 i nm ∧ nm ≠ dot}

structure Tree (N : Nat → Node) : Prop where
  zero : (N 0).type = 0
  root : Names N ROOTINO 1 ROOTINO dotdot
  aligned : ∀ d, IsDir N d → (N d).data.length % DIRENT = 0
  self : ∀ d, IsDir N d → Names N d 0 d dot
  up : ∀ d, IsDir N d → ∃ p, Names N d 1 p dotdot
  distinct : ∀ d k l i j nm, Names N d k i nm → Names N d l j nm → k = l
  target : ∀ d k i nm, Live N d → Names N d k i nm → (N i).type ≠ 0
  parent : ∀ d k i nm, Live N d → Names N d k i nm → ¬ IsDot nm → IsDir N i →
    i ≠ ROOTINO ∧ Names N i 1 d dotdot
  once : ∀ d k l i nm m, Live N d → Names N d k i nm → Names N d l i m → ¬ IsDot nm → ¬ IsDot m →
    IsDir N i → k = l
  removed : ∀ d k i nm, ¬ Live N d → Names N d k i nm → IsDot nm
  links : ∀ i, (N i).type ≠ 0 → (links N i).encard = (N i).nlink.toNat

/-! ### Entries -/

theorem Names.unique (h : Names N d k i nm) (h' : Names N d k j m) : i = j ∧ nm = m := by
  have := h.2.1.symm.trans h'.2.1
  rw [Option.some.injEq, Entry.mk.injEq] at this
  exact this

theorem isDir_ne_zero (h : IsDir N d) : (N d).type ≠ 0 := by
  rw [h]
  decide

namespace Tree
variable (t : Tree N)
include t

theorem eq_dot (h : Names N d k i nm) : nm = dot ↔ k = 0 := by
  have hs := t.self d h.1
  constructor
  · rintro rfl
    exact t.distinct d k 0 i d dot h hs
  · rintro rfl
    exact (h.unique hs).2

theorem eq_dotdot (h : Names N d k i nm) : nm = dotdot ↔ k = 1 := by
  obtain ⟨p, hp⟩ := t.up d h.1
  constructor
  · rintro rfl
    exact t.distinct d k 1 i p dotdot h hp
  · rintro rfl
    exact (h.unique hp).2

theorem isDot_iff (h : Names N d k i nm) : IsDot nm ↔ k < 2 := by
  rw [IsDot, t.eq_dot h, t.eq_dotdot h]
  omega

/-- A live directory other than the root has its entry in the directory `..` names. -/
theorem parent_live (h : Live N d) (hd : IsDir N d) (hr : d ≠ ROOTINO) :
    ∃ p k nm, Live N p ∧ Names N p k d nm ∧ ¬ IsDot nm ∧ Names N d 1 p dotdot := by
  cases h with
  | root => exact absurd rfl hr
  | @entry p k _ nm hp hn hdot =>
    exact ⟨p, k, nm, hp, hn, hdot, (t.parent p k d nm hp hn hdot hd).2⟩

/-- What a live directory names is live. -/
theorem live_target (h : Live N d) (hn : Names N d k i nm) : Live N i := by
  by_cases hdot : IsDot nm
  · rcases hdot with rfl | rfl
    · have hk := (t.eq_dot hn).mp rfl
      subst hk
      rw [(hn.unique (t.self d hn.1)).1]
      exact h
    · have hk := (t.eq_dotdot hn).mp rfl
      subst hk
      by_cases hr : d = ROOTINO
      · subst hr
        rw [(hn.unique t.root).1]
        exact h
      · obtain ⟨p, _, _, hp, _, _, hup⟩ := t.parent_live h hn.1 hr
        rw [(hn.unique hup).1]
        exact hp
  · exact .entry h hn hdot

theorem live_type (h : Live N i) : (N i).type ≠ 0 := by
  cases h with
  | root => exact isDir_ne_zero t.root.1
  | entry hd hn _ => exact t.target _ _ _ _ hd hn

/-- No directory is in itself. -/
theorem not_in_self (h : Live N d) (hn : Names N d k i nm) (hdot : ¬ IsDot nm) : i ≠ d := by
  rintro rfl
  obtain ⟨hr, hup⟩ := t.parent i k i nm h hn hdot hn.1
  -- so `..` names it too, and nothing else leads to it
  have hne : ∀ x, Live N x → x ≠ i := fun x hx => by
    induction hx with
    | root => exact hr.symm
    | @entry p k' x m hp hx hxdot ih =>
      rintro rfl
      exact ih (hup.unique (t.parent p k' x m hp hx hxdot hn.1).2).1.symm
  exact hne i h rfl

theorem links_empty (h : ¬ Live N i) : Fs.links N i = ∅ :=
  Set.eq_empty_of_forall_notMem fun _ ⟨hx, _, hn, _⟩ => h (t.live_target hx hn)

theorem links_nonempty (h : Live N i) : (Fs.links N i).Nonempty := by
  cases h with
  | root => exact ⟨(ROOTINO, 1), .root, dotdot, t.root, by decide⟩
  | @entry d k _ nm hd hn hdot => exact ⟨(d, k), hd, nm, hn, fun he => hdot (.inl he)⟩

/-- The live inodes are those with links. -/
theorem live_iff (h0 : (N i).type ≠ 0) : Live N i ↔ (N i).nlink ≠ 0 := by
  have hl := t.links i h0
  constructor
  · intro h he
    rw [he] at hl
    exact (t.links_nonempty h).ne_empty (Set.encard_eq_zero.mp hl)
  · intro h
    by_contra hn
    rw [t.links_empty hn, Set.encard_empty] at hl
    refine h (BitVec.toNat_inj.mp ?_)
    exact_mod_cast hl.symm

end Tree

/-! ### A name is added -/

/-- Entry `k` of the live directory `d` becomes a new link to inode `i`, which is no
directory; it was free or has one link more. -/
structure Adds (N N' : Nat → Node) (d k i : Nat) (nm : Name) : Prop where
  live : Live N d
  dir : IsDir N d
  new : ∀ l j, ¬ Names N d l j nm
  nodot : ¬ IsDot nm
  vacant : Vacant (N d).data k
  number : i ≠ 0
  type : (N' i).type ≠ 0
  notDir : (N' i).type ≠ T_DIR
  before : ¬ IsDir N i
  unused : (N i).type = 0 → (N i).nlink = 0
  nlink : (N' i).nlink.toNat = (N i).nlink.toNat + 1
  put : PutEntry (N d).data (N' d).data k ⟨i, nm⟩
  dirFields : N' d = {N d with data := (N' d).data}
  other : ∀ j, j ≠ d → j ≠ i → N' j = N j

namespace Adds
variable (t : Tree N) (h : Adds N N' d k i nm)
include h

theorem isDir_iff : IsDir N' j ↔ IsDir N j := by
  by_cases hd : j = d
  · rw [hd, IsDir, h.dirFields]
    exact Iff.rfl
  · by_cases hi : j = i
    · rw [hi]
      exact iff_of_false h.notDir h.before
    · rw [IsDir, h.other j hd hi]
      exact Iff.rfl

theorem names_iff : Names N' x l j m ↔ Names N x l j m ∨ (x = d ∧ l = k ∧ j = i ∧ m = nm) := by
  by_cases hx : x = d
  · subst hx
    rw [Names, Names, and_iff_right (h.isDir_iff.mpr h.dir), and_iff_right h.dir,
      h.put.holds_iff h.vacant h.number, and_iff_right rfl]
  · have hno : ¬ (x = d ∧ l = k ∧ j = i ∧ m = nm) := fun hc => hx hc.1
    rw [or_iff_left hno]
    by_cases hi : x = i
    · subst hi
      exact iff_of_false (fun hh => h.notDir hh.1) fun hh => h.before hh.1
    · rw [Names, Names, IsDir, IsDir, h.other x hx hi]

/-- The new name, or one that was there. -/
theorem live_iff : Live N' j ↔ Live N j ∨ j = i := by
  constructor
  · intro hj
    induction hj with
    | root => exact .inl .root
    | @entry x l j m _ hn hdot ih =>
      rcases h.names_iff.mp hn with hn | ⟨_, _, rfl, _⟩
      · refine .inl (.entry (ih.resolve_right fun he => ?_) hn hdot)
        exact h.before (he ▸ hn.1)
      · exact .inr rfl
  · have hmono : ∀ x, Live N x → Live N' x := fun x hx => by
      induction hx with
      | root => exact .root
      | entry _ hn hdot ih => exact .entry ih (h.names_iff.mpr (.inl hn)) hdot
    rintro (hj | rfl)
    · exact hmono j hj
    · exact .entry (hmono d h.live) (h.names_iff.mpr (.inr ⟨rfl, rfl, rfl, rfl⟩)) h.nodot

theorem live_dir (hd : IsDir N j) : Live N' j ↔ Live N j := by
  rw [h.live_iff]
  exact or_iff_left fun he => h.before (he ▸ hd)

theorem links_other (hj : j ≠ i) : Fs.links N' j = Fs.links N j := by
  ext ⟨x, l⟩
  constructor
  · rintro ⟨hx, m, hn, hm⟩
    rcases h.names_iff.mp hn with hn | ⟨_, _, he, _⟩
    · exact ⟨(h.live_dir hn.1).mp hx, m, hn, hm⟩
    · exact absurd he hj
  · rintro ⟨hx, m, hn, hm⟩
    exact ⟨(h.live_dir hn.1).mpr hx, m, h.names_iff.mpr (.inl hn), hm⟩

theorem links_self : Fs.links N' i = insert (d, k) (Fs.links N i) := by
  ext ⟨x, l⟩
  rw [Set.mem_insert_iff, Prod.mk.injEq]
  constructor
  · rintro ⟨hx, m, hn, hm⟩
    rcases h.names_iff.mp hn with hn | ⟨rfl, rfl, _⟩
    · exact .inr ⟨(h.live_dir hn.1).mp hx, m, hn, hm⟩
    · exact .inl ⟨rfl, rfl⟩
  · rintro (⟨rfl, rfl⟩ | ⟨hx, m, hn, hm⟩)
    · exact ⟨(h.live_dir h.dir).mpr h.live, nm, h.names_iff.mpr (.inr ⟨rfl, rfl, rfl, rfl⟩),
        fun he => h.nodot (.inl he)⟩
    · exact ⟨(h.live_dir hn.1).mpr hx, m, h.names_iff.mpr (.inl hn), hm⟩

theorem new_not_mem : (d, k) ∉ Fs.links N i := by
  rintro ⟨_, m, hn, _⟩
  exact hn.2.2 (h.vacant.2 _ hn.2.1)

theorem type_ne_zero (hj : (N j).type ≠ 0) : (N' j).type ≠ 0 := by
  by_cases hi : j = i
  · rw [hi]
    exact h.type
  · by_cases hd : j = d
    · rw [hd, h.dirFields]
      exact isDir_ne_zero h.dir
    · rw [h.other j hd hi]
      exact hj

include t

theorem links_before : (Fs.links N i).encard = (N i).nlink.toNat := by
  by_cases h0 : (N i).type = 0
  · rw [t.links_empty fun hl => t.live_type hl h0, Set.encard_empty, h.unused h0]
    rfl
  · exact t.links i h0

theorem tree : Tree N' := by
  have hold : ∀ {x l j m}, Names N x l j m → Names N' x l j m := fun hn => h.names_iff.mpr (.inl hn)
  have hd0 : d ≠ 0 := fun he => isDir_ne_zero h.dir (he ▸ t.zero)
  refine ⟨?_, hold t.root, fun x hx => ?_, fun x hx => ?_, fun x hx => ?_,
    fun x l l' j j' m hn hn' => ?_, fun x l j m hx hn => ?_, fun x l j m hx hn hdot hj => ?_,
    fun x l l' j m m' hx hn hn' hdot hdot' hj => ?_, fun x l j m hx hn => ?_, fun j hj => ?_⟩
  · rw [h.other 0 hd0.symm h.number.symm]
    exact t.zero
  · by_cases he : x = d
    · rw [he]
      exact h.put.aligned
    · rw [h.other x he fun hi => h.notDir (hi ▸ hx)]
      exact t.aligned x (h.isDir_iff.mp hx)
  · exact hold (t.self x (h.isDir_iff.mp hx))
  · exact (t.up x (h.isDir_iff.mp hx)).imp fun _ => hold
  · rcases h.names_iff.mp hn with hn | ⟨rfl, rfl, rfl, rfl⟩ <;>
      rcases h.names_iff.mp hn' with hn' | ⟨he, rfl, rfl, he'⟩
    · exact t.distinct x l l' j j' m hn hn'
    · exact absurd (he' ▸ he ▸ hn) (h.new l j)
    · exact absurd hn' (h.new l' j')
    · rfl
  · rcases h.names_iff.mp hn with hn | ⟨_, _, rfl, _⟩
    · exact h.type_ne_zero (t.target x l j m ((h.live_dir hn.1).mp hx) hn)
    · exact h.type
  · rcases h.names_iff.mp hn with hn | ⟨_, _, rfl, _⟩
    · obtain ⟨hr, hup⟩ := t.parent x l j m ((h.live_dir hn.1).mp hx) hn hdot (h.isDir_iff.mp hj)
      exact ⟨hr, hold hup⟩
    · exact absurd hj h.notDir
  · have hne : j ≠ i := fun he => h.notDir (he ▸ hj)
    have hn := (h.names_iff.mp hn).resolve_right fun hc => hne hc.2.2.1
    have hn' := (h.names_iff.mp hn').resolve_right fun hc => hne hc.2.2.1
    exact t.once x l l' j m m' ((h.live_dir hn.1).mp hx) hn hn' hdot hdot' (h.isDir_iff.mp hj)
  · rcases h.names_iff.mp hn with hn | ⟨rfl, _⟩
    · exact t.removed x l j m (fun hl => hx ((h.live_dir hn.1).mpr hl)) hn
    · exact absurd ((h.live_dir h.dir).mpr h.live) hx
  · by_cases hi : j = i
    · rw [hi, h.links_self, Set.encard_insert_of_notMem h.new_not_mem, h.links_before t, h.nlink]
      rfl
    · rw [h.links_other hi]
      by_cases hd : j = d
      · rw [hd, h.dirFields]
        exact t.links d (isDir_ne_zero h.dir)
      · rw [h.other j hd hi] at hj ⊢
        exact t.links j hj

end Adds

/-! ### A directory is made -/

/-- Entry `k` of the live directory `d` becomes the name of a new directory `i`. -/
structure Makes (N N' : Nat → Node) (d k i : Nat) (nm : Name) : Prop where
  live : Live N d
  dir : IsDir N d
  new : ∀ l j, ¬ Names N d l j nm
  nodot : ¬ IsDot nm
  vacant : Vacant (N d).data k
  number : i ≠ 0
  free : (N i).type = 0
  type : IsDir N' i
  one : (N' i).nlink = 1
  aligned : (N' i).data.length % DIRENT = 0
  entries : ∀ l, dirent? (N' i).data l =
    if l = 0 then some ⟨i, dot⟩ else if l = 1 then some ⟨d, dotdot⟩ else none
  put : PutEntry (N d).data (N' d).data k ⟨i, nm⟩
  dirFields : N' d = {N d with nlink := (N' d).nlink, data := (N' d).data}
  nlink : (N' d).nlink.toNat = (N d).nlink.toNat + 1
  other : ∀ j, j ≠ d → j ≠ i → N' j = N j

namespace Makes
variable (t : Tree N) (h : Makes N N' d k i nm)
include h

theorem before : ¬ IsDir N i := fun hi => isDir_ne_zero hi h.free

theorem ne : i ≠ d := fun he => h.before (he ▸ h.dir)

theorem isDir_iff : IsDir N' j ↔ IsDir N j ∨ j = i := by
  by_cases hi : j = i
  · rw [hi]
    exact iff_of_true h.type (.inr rfl)
  · rw [or_iff_left hi]
    by_cases hd : j = d
    · rw [hd, IsDir, h.dirFields]
      exact Iff.rfl
    · rw [IsDir, h.other j hd hi]
      exact Iff.rfl

theorem names_self : Names N' i l j m ↔
    (l = 0 ∧ j = i ∧ m = dot) ∨ (l = 1 ∧ j = d ∧ m = dotdot ∧ d ≠ 0) := by
  rw [Names, Holds, h.entries, and_iff_right h.type]
  by_cases h0 : l = 0
  · rw [if_pos h0, Option.some.injEq, Entry.mk.injEq]
    constructor
    · rintro ⟨⟨rfl, rfl⟩, _⟩
      exact .inl ⟨h0, rfl, rfl⟩
    · rintro (⟨_, rfl, rfl⟩ | ⟨h1, _⟩)
      · exact ⟨⟨rfl, rfl⟩, h.number⟩
      · omega
  · rw [if_neg h0]
    by_cases h1 : l = 1
    · rw [if_pos h1, Option.some.injEq, Entry.mk.injEq]
      constructor
      · rintro ⟨⟨rfl, rfl⟩, hd⟩
        exact .inr ⟨h1, rfl, rfl, hd⟩
      · rintro (⟨h0', _⟩ | ⟨_, rfl, rfl, hd⟩)
        · exact absurd h0' h0
        · exact ⟨⟨rfl, rfl⟩, hd⟩
    · rw [if_neg h1]
      refine iff_of_false (fun hc => by cases hc.1) ?_
      rintro (⟨h0', _⟩ | ⟨h1', _⟩)
      · exact h0 h0'
      · exact h1 h1'

theorem names_other (hx : x ≠ i) : Names N' x l j m ↔
    Names N x l j m ∨ (x = d ∧ l = k ∧ j = i ∧ m = nm) := by
  by_cases hd : x = d
  · subst hd
    rw [Names, Names, and_iff_right (h.isDir_iff.mpr (.inl h.dir)), and_iff_right h.dir,
      h.put.holds_iff h.vacant h.number, and_iff_right rfl]
  · rw [or_iff_left fun hc => hd hc.1, Names, Names, IsDir, IsDir, h.other x hd hx]

theorem old (hn : Names N x l j m) : Names N' x l j m :=
  (h.names_other fun he => h.before (he ▸ hn.1)).mpr (.inl hn)

theorem added : Names N' d k i nm := (h.names_other h.ne.symm).mpr (.inr ⟨rfl, rfl, rfl, rfl⟩)

theorem not_dots (hn : Names N' x l j m) (hdot : ¬ IsDot m) : x ≠ i := by
  rintro rfl
  rcases h.names_self.mp hn with ⟨_, _, rfl⟩ | ⟨_, _, rfl, _⟩
  · exact hdot (.inl rfl)
  · exact hdot (.inr rfl)

theorem live_iff : Live N' j ↔ Live N j ∨ j = i := by
  constructor
  · intro hj
    induction hj with
    | root => exact .inl .root
    | @entry x l j m _ hn hdot ih =>
      have hx := h.not_dots hn hdot
      rcases (h.names_other hx).mp hn with hn | ⟨_, _, rfl, _⟩
      · exact .inl (.entry (ih.resolve_right hx) hn hdot)
      · exact .inr rfl
  · have hmono : ∀ x, Live N x → Live N' x := fun x hx => by
      induction hx with
      | root => exact .root
      | entry _ hn hdot ih => exact .entry ih (h.old hn) hdot
    rintro (hj | rfl)
    · exact hmono j hj
    · exact .entry (hmono d h.live) h.added h.nodot

theorem live_dir (hd : IsDir N j) : Live N' j ↔ Live N j := by
  rw [h.live_iff]
  exact or_iff_left fun he => h.before (he ▸ hd)

theorem d_ne_zero (t : Tree N) : d ≠ 0 := fun he => isDir_ne_zero h.dir (he ▸ t.zero)

include t

theorem not_named (hx : Live N x) : ¬ Names N x l i m := fun hn => t.target x l i m hx hn h.free

theorem links_self : Fs.links N' i = {(d, k)} := by
  ext ⟨x, l⟩
  rw [Set.mem_singleton_iff, Prod.mk.injEq]
  constructor
  · rintro ⟨hx, m, hn, hm⟩
    by_cases he : x = i
    · subst he
      rcases h.names_self.mp hn with ⟨_, _, hdot⟩ | ⟨_, hd, _⟩
      · exact absurd hdot hm
      · exact absurd hd h.ne
    · rcases (h.names_other he).mp hn with hn | ⟨rfl, rfl, _⟩
      · exact absurd hn (h.not_named t ((h.live_dir hn.1).mp hx))
      · exact ⟨rfl, rfl⟩
  · rintro ⟨rfl, rfl⟩
    exact ⟨(h.live_dir h.dir).mpr h.live, nm, h.added, fun he => h.nodot (.inl he)⟩

theorem links_parent : Fs.links N' d = insert (i, 1) (Fs.links N d) := by
  ext ⟨x, l⟩
  rw [Set.mem_insert_iff, Prod.mk.injEq]
  constructor
  · rintro ⟨hx, m, hn, hm⟩
    by_cases he : x = i
    · subst he
      rcases h.names_self.mp hn with ⟨_, _, hdot⟩ | ⟨h1, _⟩
      · exact absurd hdot hm
      · exact .inl ⟨rfl, h1⟩
    · rcases (h.names_other he).mp hn with hn | ⟨_, _, hd, _⟩
      · exact .inr ⟨(h.live_dir hn.1).mp hx, m, hn, hm⟩
      · exact absurd hd.symm h.ne
  · rintro (⟨rfl, rfl⟩ | ⟨hx, m, hn, hm⟩)
    · exact ⟨h.live_iff.mpr (.inr rfl), dotdot, h.names_self.mpr (.inr ⟨rfl, rfl, rfl, h.d_ne_zero t⟩),
        by decide⟩
    · exact ⟨(h.live_dir hn.1).mpr hx, m, h.old hn, hm⟩

omit t in
theorem links_other (hi : j ≠ i) (hd : j ≠ d) : Fs.links N' j = Fs.links N j := by
  ext ⟨x, l⟩
  constructor
  · rintro ⟨hx, m, hn, hm⟩
    by_cases he : x = i
    · subst he
      rcases h.names_self.mp hn with ⟨_, hc, _⟩ | ⟨_, hc, _⟩
      · exact absurd hc hi
      · exact absurd hc hd
    · rcases (h.names_other he).mp hn with hn | ⟨_, _, hc, _⟩
      · exact ⟨(h.live_dir hn.1).mp hx, m, hn, hm⟩
      · exact absurd hc hi
  · rintro ⟨hx, m, hn, hm⟩
    exact ⟨(h.live_dir hn.1).mpr hx, m, h.old hn, hm⟩

theorem tree : Tree N' := by
  have hup : Names N' i 1 d dotdot := h.names_self.mpr (.inr ⟨rfl, rfl, rfl, h.d_ne_zero t⟩)
  refine ⟨?_, h.old t.root, fun x hx => ?_, fun x hx => ?_, fun x hx => ?_,
    fun x l l' j j' m hn hn' => ?_, fun x l j m hx hn => ?_, fun x l j m hx hn hdot hj => ?_,
    fun x l l' j m m' hx hn hn' hdot hdot' hj => ?_, fun x l j m hx hn => ?_, fun j hj => ?_⟩
  · rw [h.other 0 (h.d_ne_zero t).symm h.number.symm]
    exact t.zero
  · by_cases hi : x = i
    · rw [hi]
      exact h.aligned
    · by_cases hd : x = d
      · rw [hd]
        exact h.put.aligned
      · rw [h.other x hd hi]
        exact t.aligned x ((h.isDir_iff.mp hx).resolve_right hi)
  · rcases h.isDir_iff.mp hx with hx | rfl
    · exact h.old (t.self x hx)
    · exact h.names_self.mpr (.inl ⟨rfl, rfl, rfl⟩)
  · rcases h.isDir_iff.mp hx with hx | rfl
    · exact (t.up x hx).imp fun _ => h.old
    · exact ⟨d, hup⟩
  · by_cases hi : x = i
    · subst hi
      rcases h.names_self.mp hn with ⟨rfl, _, rfl⟩ | ⟨rfl, _, rfl, _⟩ <;>
        rcases h.names_self.mp hn' with ⟨rfl, _, hc⟩ | ⟨rfl, _, hc, _⟩
      · rfl
      · exact absurd hc (by decide)
      · exact absurd hc (by decide)
      · rfl
    · rcases (h.names_other hi).mp hn with hn | ⟨rfl, rfl, rfl, rfl⟩ <;>
        rcases (h.names_other hi).mp hn' with hn' | ⟨he, rfl, rfl, he'⟩
      · exact t.distinct x l l' j j' m hn hn'
      · exact absurd (he' ▸ he ▸ hn) (h.new l j)
      · exact absurd hn' (h.new l' j')
      · rfl
  · have hd' : (N' d).type ≠ 0 := isDir_ne_zero (h.isDir_iff.mpr (.inl h.dir))
    by_cases hi : x = i
    · subst hi
      rcases h.names_self.mp hn with ⟨_, rfl, _⟩ | ⟨_, rfl, _⟩
      · exact isDir_ne_zero h.type
      · exact hd'
    · rcases (h.names_other hi).mp hn with hn | ⟨_, _, rfl, _⟩
      · have hj := t.target x l j m ((h.live_dir hn.1).mp hx) hn
        by_cases hd : j = d
        · rw [hd]
          exact hd'
        · rw [h.other j hd fun he => hj (he ▸ h.free)]
          exact hj
      · exact isDir_ne_zero h.type
  · have hx' := h.not_dots hn hdot
    rcases (h.names_other hx').mp hn with hn | ⟨rfl, rfl, rfl, rfl⟩
    · have hlx := (h.live_dir hn.1).mp hx
      have hij : j ≠ i := fun he => h.not_named t hlx (he ▸ hn)
      obtain ⟨hr, hu⟩ := t.parent x l j m hlx hn hdot ((h.isDir_iff.mp hj).resolve_right hij)
      exact ⟨hr, h.old hu⟩
    · exact ⟨fun he => h.before (he ▸ t.root.1), hup⟩
  · have hx' := h.not_dots hn hdot
    by_cases hij : j = i
    · subst hij
      have hlx : ∀ {l m}, ¬ Names N x l j m := fun hc => h.not_named t ((h.live_dir hc.1).mp hx) hc
      have h1 := ((h.names_other hx').mp hn).resolve_left hlx
      have h2 := ((h.names_other hx').mp hn').resolve_left hlx
      rw [h1.2.1, h2.2.1]
    · have hn := ((h.names_other hx').mp hn).resolve_right fun hc => hij hc.2.2.1
      have hn' := ((h.names_other hx').mp hn').resolve_right fun hc => hij hc.2.2.1
      exact t.once x l l' j m m' ((h.live_dir hn.1).mp hx) hn hn' hdot hdot'
        ((h.isDir_iff.mp hj).resolve_right hij)
  · have hi : x ≠ i := fun he => hx (h.live_iff.mpr (.inr he))
    rcases (h.names_other hi).mp hn with hn | ⟨rfl, _⟩
    · exact t.removed x l j m (fun hl => hx ((h.live_dir hn.1).mpr hl)) hn
    · exact absurd ((h.live_dir h.dir).mpr h.live) hx
  · by_cases hi : j = i
    · rw [hi, h.links_self t, Set.encard_singleton, h.one]
      rfl
    · by_cases hd : j = d
      · have hni : (i, 1) ∉ Fs.links N d := fun hc => by
          obtain ⟨_, _, hn, _⟩ := hc
          exact h.before hn.1
        rw [hd, h.links_parent t, Set.encard_insert_of_notMem hni, t.links d (isDir_ne_zero h.dir),
          h.nlink]
        rfl
      · rw [h.links_other hi hd]
        rw [h.other j hd hi] at hj ⊢
        exact t.links j hj

end Makes

/-! ### A name is removed -/

/-- Entry `k` of the live directory `d`, a name of inode `i`, is emptied. A directory
is removed only when it is empty, and then is one link to `d` less. -/
structure Removes (N N' : Nat → Node) (d k i : Nat) (nm : Name) : Prop where
  live : Live N d
  named : Names N d k i nm
  nodot : ¬ IsDot nm
  empty : IsDir N i → Empty (N i).data
  put : PutEntry (N d).data (N' d).data k ⟨0, []⟩
  dirFields : N' d = {N d with nlink := (N' d).nlink, data := (N' d).data}
  dirLinks : IsDir N i → (N d).nlink.toNat = (N' d).nlink.toNat + 1
  fileLinks : ¬ IsDir N i → (N' d).nlink = (N d).nlink
  fields : N' i = {N i with nlink := (N' i).nlink}
  nlink : (N i).nlink.toNat = (N' i).nlink.toNat + 1
  other : ∀ j, j ≠ d → j ≠ i → N' j = N j

namespace Removes
variable (t : Tree N) (h : Removes N N' d k i nm)
include h

theorem type_eq (j : Nat) : (N' j).type = (N j).type := by
  by_cases hd : j = d
  · rw [hd, h.dirFields]
  · by_cases hi : j = i
    · rw [hi, h.fields]
    · rw [h.other j hd hi]

theorem isDir_iff : IsDir N' j ↔ IsDir N j := by
  rw [IsDir, IsDir, h.type_eq]

theorem names_iff : Names N' x l j m ↔ Names N x l j m ∧ ¬ (x = d ∧ l = k) := by
  rw [Names, Names, h.isDir_iff, and_assoc]
  refine and_congr_right fun _ => ?_
  by_cases hd : x = d
  · rw [hd, h.put.holds_iff_empty, and_iff_right rfl]
  · rw [and_iff_left fun hc => hd hc.1]
    by_cases hi : x = i
    · rw [hi, h.fields]
    · rw [h.other x hd hi]

theorem dots_only (hn : Names N i l j m) : l < 2 := by
  by_contra hl
  exact h.empty hn.1 l j m (Nat.not_lt.mp hl) hn.2

theorem live_of (hj : Live N' j) : Live N j := by
  induction hj with
  | root => exact .root
  | entry _ hn hdot ih => exact .entry ih (h.names_iff.mp hn).1 hdot

include t

theorem ne : i ≠ d := t.not_in_self h.live h.named h.nodot

theorem two_le : 2 ≤ k := Nat.not_lt.mp fun hk => h.nodot ((t.isDot_iff h.named).mpr hk)

theorem keep_dots (hn : Names N x l j m) (hl : l < 2) : Names N' x l j m :=
  h.names_iff.mpr ⟨hn, fun hc => by
    have := h.two_le t
    omega⟩

theorem live_keep (hj : Live N j) (hi : j ≠ i) : Live N' j := by
  induction hj with
  | root => exact .root
  | @entry x l j m _ hn hdot ih =>
    have hx : x ≠ i := by
      rintro rfl
      exact hdot ((t.isDot_iff hn).mpr (h.dots_only hn))
    refine .entry (ih hx) (h.names_iff.mpr ⟨hn, ?_⟩) hdot
    rintro ⟨rfl, rfl⟩
    exact hi (hn.unique h.named).1

theorem not_live (hd : IsDir N i) : ¬ Live N' i := fun hl => by
  obtain ⟨hr, hup⟩ := t.parent d k i nm h.live h.named h.nodot hd
  cases hl with
  | root => exact hr rfl
  | @entry x l _ m hx hn hdot =>
    obtain ⟨hn, hne⟩ := h.names_iff.mp hn
    have hxl := h.live_of hx
    have hxd : x = d := ((t.parent x l i m hxl hn hdot hd).2.unique hup).1
    subst hxd
    exact hne ⟨rfl, t.once x l k i m nm h.live hn h.named hdot h.nodot hd⟩

theorem up_self (hn : Names N i l j m) (hm : m ≠ dot) : l = 1 ∧ j = d := by
  have hl := h.dots_only hn
  have hl0 : l ≠ 0 := fun h0 => hm ((t.eq_dot hn).mpr h0)
  have hl1 : l = 1 := by omega
  subst hl1
  exact ⟨rfl, (hn.unique (t.parent d k i nm h.live h.named h.nodot hn.1).2).1⟩

theorem links_self : Fs.links N' i = Fs.links N i \ {(d, k)} := by
  ext ⟨x, l⟩
  rw [Set.mem_sdiff, Set.mem_singleton_iff, Prod.mk.injEq]
  constructor
  · rintro ⟨hx, m, hn, hm⟩
    obtain ⟨hn, hne⟩ := h.names_iff.mp hn
    exact ⟨⟨h.live_of hx, m, hn, hm⟩, hne⟩
  · rintro ⟨⟨hx, m, hn, hm⟩, hne⟩
    refine ⟨h.live_keep t hx ?_, m, h.names_iff.mpr ⟨hn, hne⟩, hm⟩
    rintro rfl
    exact h.ne t (h.up_self t hn hm).2

theorem links_parent (hd : IsDir N i) : Fs.links N' d = Fs.links N d \ {(i, 1)} := by
  ext ⟨x, l⟩
  rw [Set.mem_sdiff, Set.mem_singleton_iff, Prod.mk.injEq]
  constructor
  · rintro ⟨hx, m, hn, hm⟩
    obtain ⟨hn, _⟩ := h.names_iff.mp hn
    refine ⟨⟨h.live_of hx, m, hn, hm⟩, ?_⟩
    rintro ⟨rfl, _⟩
    exact h.not_live t hd hx
  · rintro ⟨⟨hx, m, hn, hm⟩, hne⟩
    refine ⟨h.live_keep t hx ?_, m, h.names_iff.mpr ⟨hn, ?_⟩, hm⟩
    · rintro rfl
      exact hne ⟨rfl, (h.up_self t hn hm).1⟩
    · rintro ⟨rfl, rfl⟩
      exact h.ne t (h.named.unique hn).1

theorem links_other (hi : j ≠ i) (hd : j = d → ¬ IsDir N i) : Fs.links N' j = Fs.links N j := by
  ext ⟨x, l⟩
  constructor
  · rintro ⟨hx, m, hn, hm⟩
    exact ⟨h.live_of hx, m, (h.names_iff.mp hn).1, hm⟩
  · rintro ⟨hx, m, hn, hm⟩
    refine ⟨h.live_keep t hx ?_, m, h.names_iff.mpr ⟨hn, ?_⟩, hm⟩
    · rintro rfl
      exact hd (h.up_self t hn hm).2 hn.1
    · rintro ⟨rfl, rfl⟩
      exact hi (hn.unique h.named).1

theorem tree : Tree N' := by
  have h1 : 1 < 2 := Nat.one_lt_two
  have hd0 : d ≠ 0 := fun he => isDir_ne_zero h.named.1 (he ▸ t.zero)
  have hmem : (d, k) ∈ Fs.links N i := ⟨h.live, nm, h.named, fun he => h.nodot (.inl he)⟩
  refine ⟨?_, h.keep_dots t t.root h1, fun x hx => ?_, fun x hx => ?_, fun x hx => ?_,
    fun x l l' j j' m hn hn' => ?_, fun x l j m hx hn => ?_, fun x l j m hx hn hdot hj => ?_,
    fun x l l' j m m' hx hn hn' hdot hdot' hj => ?_, fun x l j m hx hn => ?_, fun j hj => ?_⟩
  · rw [h.type_eq]
    exact t.zero
  · by_cases hd : x = d
    · rw [hd]
      exact h.put.aligned
    · have := t.aligned x (h.isDir_iff.mp hx)
      by_cases hi : x = i
      · rw [hi] at this ⊢
        rw [h.fields]
        exact this
      · rw [h.other x hd hi]
        exact this
  · exact h.keep_dots t (t.self x (h.isDir_iff.mp hx)) (Nat.zero_lt_two)
  · exact (t.up x (h.isDir_iff.mp hx)).imp fun _ hn => h.keep_dots t hn h1
  · exact t.distinct x l l' j j' m (h.names_iff.mp hn).1 (h.names_iff.mp hn').1
  · rw [h.type_eq]
    exact t.target x l j m (h.live_of hx) (h.names_iff.mp hn).1
  · obtain ⟨hr, hup⟩ := t.parent x l j m (h.live_of hx) (h.names_iff.mp hn).1 hdot
      (h.isDir_iff.mp hj)
    exact ⟨hr, h.keep_dots t hup h1⟩
  · exact t.once x l l' j m m' (h.live_of hx) (h.names_iff.mp hn).1 (h.names_iff.mp hn').1 hdot hdot'
      (h.isDir_iff.mp hj)
  · have hn := (h.names_iff.mp hn).1
    by_cases hl : Live N x
    · have hi : x = i := by
        by_contra hi
        exact hx (h.live_keep t hl hi)
      subst hi
      exact (t.isDot_iff hn).mpr (h.dots_only hn)
    · exact t.removed x l j m hl hn
  · rw [h.type_eq] at hj
    have hlinks := t.links j hj
    by_cases hi : j = i
    · rw [hi] at hlinks ⊢
      rw [h.nlink] at hlinks
      refine ENat.add_left_injective_of_ne_top ENat.one_ne_top ?_
      show _ + 1 = _ + 1
      rw [h.links_self t, Set.encard_sdiff_singleton_add_one hmem, hlinks]
      rfl
    · by_cases hd : j = d ∧ IsDir N i
      · obtain ⟨rfl, hdir⟩ := hd
        have hup := (t.parent j k i nm h.live h.named h.nodot hdir).2
        have hmem' : (i, 1) ∈ Fs.links N j := ⟨.entry h.live h.named h.nodot, dotdot, hup, by decide⟩
        rw [h.dirLinks hdir] at hlinks
        refine ENat.add_left_injective_of_ne_top ENat.one_ne_top ?_
        show _ + 1 = _ + 1
        rw [h.links_parent t hdir, Set.encard_sdiff_singleton_add_one hmem', hlinks]
        rfl
      · rw [h.links_other t hi fun he hdir => hd ⟨he, hdir⟩, hlinks]
        by_cases he : j = d
        · rw [he, h.fileLinks fun hdir => hd ⟨he, hdir⟩]
        · rw [h.other j he hi]

end Removes

/-! ### An inode is freed -/

/-- Inode `i`, which is not live, is freed. -/
structure Frees (N N' : Nat → Node) (i : Nat) : Prop where
  dead : ¬ Live N i
  free : N' i = .free
  other : ∀ j, j ≠ i → N' j = N j

namespace Frees
variable (t : Tree N) (h : Frees N N' i)
include h

theorem isDir_iff : IsDir N' j ↔ IsDir N j ∧ j ≠ i := by
  by_cases hi : j = i
  · rw [hi, IsDir, h.free]
    exact iff_of_false (by decide) fun hc => hc.2 rfl
  · rw [and_iff_left hi, IsDir, h.other j hi]
    exact Iff.rfl

theorem names_iff : Names N' x l j m ↔ Names N x l j m ∧ x ≠ i := by
  by_cases hi : x = i
  · exact iff_of_false (fun hc => (h.isDir_iff.mp hc.1).2 hi) fun hc => hc.2 hi
  · rw [and_iff_left hi, Names, Names, IsDir, IsDir, h.other x hi]

theorem live_iff : Live N' j ↔ Live N j := by
  constructor
  · intro hj
    induction hj with
    | root => exact .root
    | entry _ hn hdot ih => exact .entry ih (h.names_iff.mp hn).1 hdot
  · intro hj
    induction hj with
    | root => exact .root
    | @entry x l j m hx hn hdot ih =>
      exact .entry ih (h.names_iff.mpr ⟨hn, fun he => h.dead (he ▸ hx)⟩) hdot

theorem links_eq : Fs.links N' j = Fs.links N j := by
  ext ⟨x, l⟩
  constructor
  · rintro ⟨hx, m, hn, hm⟩
    exact ⟨h.live_iff.mp hx, m, (h.names_iff.mp hn).1, hm⟩
  · rintro ⟨hx, m, hn, hm⟩
    exact ⟨h.live_iff.mpr hx, m, h.names_iff.mpr ⟨hn, fun he => h.dead (he ▸ hx)⟩, hm⟩

include t

theorem tree : Tree N' := by
  have hlive : ∀ {x}, Live N x → x ≠ i := fun hx he => h.dead (he ▸ hx)
  have hold : ∀ {x l j m}, Live N x → Names N x l j m → Names N' x l j m := fun hx hn =>
    h.names_iff.mpr ⟨hn, hlive hx⟩
  refine ⟨?_, hold .root t.root, fun x hx => ?_, fun x hx => ?_, fun x hx => ?_,
    fun x l l' j j' m hn hn' => ?_, fun x l j m hx hn => ?_, fun x l j m hx hn hdot hj => ?_,
    fun x l l' j m m' hx hn hn' hdot hdot' hj => ?_, fun x l j m hx hn => ?_, fun j hj => ?_⟩
  · by_cases hi : 0 = i
    · rw [hi, h.free]
      rfl
    · rw [h.other 0 hi]
      exact t.zero
  · obtain ⟨hx, hi⟩ := h.isDir_iff.mp hx
    rw [h.other x hi]
    exact t.aligned x hx
  · obtain ⟨hx, hi⟩ := h.isDir_iff.mp hx
    exact h.names_iff.mpr ⟨t.self x hx, hi⟩
  · obtain ⟨hx, hi⟩ := h.isDir_iff.mp hx
    exact (t.up x hx).imp fun _ hn => h.names_iff.mpr ⟨hn, hi⟩
  · exact t.distinct x l l' j j' m (h.names_iff.mp hn).1 (h.names_iff.mp hn').1
  · have hn := (h.names_iff.mp hn).1
    rw [h.other j (hlive (t.live_target (h.live_iff.mp hx) hn))]
    exact t.target x l j m (h.live_iff.mp hx) hn
  · obtain ⟨hr, hup⟩ := t.parent x l j m (h.live_iff.mp hx) (h.names_iff.mp hn).1 hdot
      (h.isDir_iff.mp hj).1
    exact ⟨hr, h.names_iff.mpr ⟨hup, (h.isDir_iff.mp hj).2⟩⟩
  · exact t.once x l l' j m m' (h.live_iff.mp hx) (h.names_iff.mp hn).1 (h.names_iff.mp hn').1 hdot
      hdot' (h.isDir_iff.mp hj).1
  · exact t.removed x l j m (fun hl => hx (h.live_iff.mpr hl)) (h.names_iff.mp hn).1
  · have hi : j ≠ i := fun he => hj (by rw [he, h.free]; rfl)
    rw [h.other j hi] at hj ⊢
    rw [h.links_eq]
    exact t.links j hj

end Frees

/-! ### What is written to files does not show in the name space -/

section Files
variable (ht : ∀ j, (N' j).type = (N j).type ∧ (N' j).nlink = (N j).nlink)
  (hd : ∀ d, IsDir N d → (N' d).data = (N d).data)
include ht hd

theorem names_of_same : Names N' d k i nm ↔ Names N d k i nm := by
  have hdir : IsDir N' d ↔ IsDir N d := by rw [IsDir, IsDir, (ht d).1]
  rw [Names, Names, hdir]
  exact and_congr_right fun h => by rw [hd d h]

theorem live_of_same : Live N' i ↔ Live N i := by
  constructor
  · intro h
    induction h with
    | root => exact .root
    | entry _ hn hdot ih => exact .entry ih ((names_of_same ht hd).mp hn) hdot
  · intro h
    induction h with
    | root => exact .root
    | entry _ hn hdot ih => exact .entry ih ((names_of_same ht hd).mpr hn) hdot

theorem tree_of_same (t : Tree N) : Tree N' := by
  have hdir : ∀ d, IsDir N' d ↔ IsDir N d := fun d => by rw [IsDir, IsDir, (ht d).1]
  have hlinks : ∀ i, links N' i = links N i := fun i => by
    ext x
    simp only [links, Set.mem_ofPred_eq, names_of_same ht hd, live_of_same ht hd]
  have hn : ∀ {d k i nm}, Names N' d k i nm ↔ Names N d k i nm := names_of_same ht hd
  have hl : ∀ {i}, Live N' i ↔ Live N i := live_of_same ht hd
  refine ⟨?_, ?_, ?_, ?_, ?_, ?_, ?_, ?_, ?_, ?_, ?_⟩
  · rw [(ht 0).1]
    exact t.zero
  · exact hn.mpr t.root
  · intro d h
    rw [hd d ((hdir d).mp h)]
    exact t.aligned d ((hdir d).mp h)
  · exact fun d h => hn.mpr (t.self d ((hdir d).mp h))
  · intro d h
    obtain ⟨p, hp⟩ := t.up d ((hdir d).mp h)
    exact ⟨p, hn.mpr hp⟩
  · exact fun d k l i j nm h h' => t.distinct d k l i j nm (hn.mp h) (hn.mp h')
  · intro d k i nm h h'
    rw [(ht i).1]
    exact t.target d k i nm (hl.mp h) (hn.mp h')
  · intro d k i nm h h' hdot hi
    obtain ⟨h1, h2⟩ := t.parent d k i nm (hl.mp h) (hn.mp h') hdot ((hdir i).mp hi)
    exact ⟨h1, hn.mpr h2⟩
  · exact fun d k l i nm m h h1 h2 hdot hdot' hi =>
      t.once d k l i nm m (hl.mp h) (hn.mp h1) (hn.mp h2) hdot hdot' ((hdir i).mp hi)
  · exact fun d k i nm h h' => t.removed d k i nm (mt hl.mpr h) (hn.mp h')
  · intro i h
    rw [hlinks, (ht i).2]
    exact t.links i ((ht i).1 ▸ h)

end Files

end Xv6.Fs
