import Xv6.Fs.Format
import Xv6.Fs.Sound

/-! Name spaces described by a table of their entries.

`Lists N es` says that the entries of the directories are those of the list `es`; whether
the name space is a tree is then a question about `es`, which `tree_of_table` answers with
checks that can be computed. -/
namespace Xv6.Fs
open Lib List

variable {N : Nat → Node}

/-! ### The entries of a directory that was laid out -/

theorem dirent?_append (de rest : List Byte) (k : Nat) (h : de.length = DIRENT) :
    dirent? (de ++ rest) (k + 1) = dirent? rest k := by
  have hdrop : (de ++ rest).drop (DIRENT * (k + 1)) = rest.drop (DIRENT * k) := by
    rw [drop_append, h, drop_eq_nil_of_le (by rw [h]; simp only [DIRENT, DIRSIZ]; omega),
      nil_append]
    rfl
  rw [dirent?, dirent?, deAt, deAt, hdrop]
  refine if_congr ?_ rfl rfl
  rw [length_append, h]
  simp only [DIRENT, DIRSIZ]
  omega

theorem dirent?_dirData (es : List (Nat × List Byte)) (k : Nat) :
    dirent? (dirData es) k = es[k]?.map fun e => ⟨e.1 % 2 ^ 16, name e.2⟩ := by
  induction es generalizing k with
  | nil => rfl
  | cons e es ih =>
    have hlen : (dirent (BitVec.ofNat 16 e.1) (strncpy e.2 DIRSIZ)).length = DIRENT := by
      rw [dirent, length_cons, length_cons, length_strncpy]
      rfl
    rw [dirData, flatMap_cons]
    cases k with
    | zero =>
      rw [dirent?, if_pos (by rw [length_append, hlen]; omega), deAt, Nat.mul_zero, drop_zero,
        take_append_of_le_length (Nat.le_of_eq hlen.symm), take_of_length_le (Nat.le_of_eq hlen),
        Entry.read_dirent, name_strncpy, BitVec.toNat_ofNat]
      rfl
    | succ k => exact (dirent?_append _ _ k hlen).trans (ih k)

/-! ### Tables -/

/-- An entry of a table: the directory, the place in it, the inode it names, and the name. -/
abbrev Row := Nat × Nat × Nat × Name

/-- The entries of the directories are those of the table. -/
def Lists (N : Nat → Node) (es : List Row) : Prop := ∀ d k i nm, Names N d k i nm ↔ (d, k, i, nm) ∈ es

instance (nm : Name) : Decidable (IsDot nm) := inferInstanceAs (Decidable (_ ∨ _))

/-- The checks that make the name space of a table a tree. `live` are the inodes that can be
reached, and `dirs` the directories. -/
structure Checked (N : Nat → Node) (es : List Row) (live dirs : List Nat) : Prop where
  zero : (N 0).type = 0
  root : (ROOTINO, 1, ROOTINO, dotdot) ∈ es
  aligned : ∀ d ∈ dirs, (N d).data.length % DIRENT = 0
  self : ∀ d ∈ dirs, (d, 0, d, dot) ∈ es
  up : ∀ d ∈ dirs, ∃ e ∈ es, e.1 = d ∧ e.2.1 = 1 ∧ e.2.2.2 = dotdot
  distinct : ∀ e ∈ es, ∀ f ∈ es, e.1 = f.1 → e.2.2.2 = f.2.2.2 → e.2.1 = f.2.1
  target : ∀ e ∈ es, e.1 ∈ live → (N e.2.2.1).type ≠ 0
  parent : ∀ e ∈ es, e.1 ∈ live → ¬ IsDot e.2.2.2 → e.2.2.1 ∈ dirs →
    e.2.2.1 ≠ ROOTINO ∧ (e.2.2.1, 1, e.1, dotdot) ∈ es
  once : ∀ e ∈ es, ∀ f ∈ es, e.1 ∈ live → e.1 = f.1 → e.2.2.1 = f.2.2.1 → ¬ IsDot e.2.2.2 →
    ¬ IsDot f.2.2.2 → e.2.2.1 ∈ dirs → e.2.1 = f.2.1
  removed : ∀ e ∈ es, e.1 ∉ live → IsDot e.2.2.2

/-- The entries of a table that count as links to inode `i`. -/
def linkRows (es : List Row) (live : List Nat) (i : Nat) : Finset (Nat × Nat) :=
  ((es.filter fun e => e.1 ∈ live ∧ e.2.2.1 = i ∧ e.2.2.2 ≠ dot).map fun e => (e.1, e.2.1)).toFinset

theorem links_of_table (hn : Lists N es) (hl : ∀ i, Live N i ↔ i ∈ live)
    (i : Nat) : links N i = linkRows es live i := by
  ext ⟨d, k⟩
  simp only [links, linkRows, Set.mem_ofPred_eq, hl, hn _ _ _ _, List.coe_toFinset, mem_map,
    mem_filter, decide_eq_true_eq, Prod.mk.injEq]
  constructor
  · rintro ⟨hd, nm, he, hne⟩
    exact ⟨(d, k, i, nm), ⟨he, hd, rfl, hne⟩, rfl, rfl⟩
  · rintro ⟨⟨d', k', i', nm⟩, ⟨he, hd, rfl, hne⟩, rfl, rfl⟩
    exact ⟨hd, nm, he, hne⟩

theorem tree_of_table (hn : Lists N es) (hl : ∀ i, Live N i ↔ i ∈ live)
    (hd : ∀ d, IsDir N d ↔ d ∈ dirs) (h : Checked N es live dirs)
    (hlinks : ∀ i, (N i).type ≠ 0 → (linkRows es live i).card = (N i).nlink.toNat) : Tree N where
  zero := h.zero
  root := (hn ..).mpr h.root
  aligned d hdir := h.aligned d ((hd d).mp hdir)
  self d hdir := (hn ..).mpr (h.self d ((hd d).mp hdir))
  up d hdir := by
    obtain ⟨⟨d', k, p, nm⟩, he, rfl, rfl, rfl⟩ := h.up d ((hd d).mp hdir)
    exact ⟨p, (hn ..).mpr he⟩
  distinct d k l i j nm hk hl' := h.distinct _ ((hn ..).mp hk) _ ((hn ..).mp hl') rfl rfl
  target d k i nm hlive hk := h.target _ ((hn ..).mp hk) ((hl d).mp hlive)
  parent d k i nm hlive hk hdot hdir := by
    obtain ⟨hne, hup⟩ := h.parent _ ((hn ..).mp hk) ((hl d).mp hlive) hdot ((hd i).mp hdir)
    exact ⟨hne, (hn ..).mpr hup⟩
  once d k l i nm m hlive hk hl' hdot hdot' hdir :=
    h.once _ ((hn ..).mp hk) _ ((hn ..).mp hl') ((hl d).mp hlive) rfl rfl hdot hdot' ((hd i).mp hdir)
  removed d k i nm hlive hk := h.removed _ ((hn ..).mp hk) fun hin => hlive ((hl d).mpr hin)
  links i h0 := by
    rw [links_of_table hn hl, Set.encard_coe_eq_coe_finsetCard, hlinks i h0]

/-- The rows of a directory that was laid out. -/
def rows (d : Nat) (l : List (Nat × List Byte)) : List Row := l.zipIdx.map fun x => (d, x.2, x.1.1, name x.1.2)

theorem mem_rows :
    (d', k, i, nm) ∈ rows d l ↔ d' = d ∧ ∃ s, l[k]? = some (i, s) ∧ name s = nm := by
  simp only [rows, mem_map, mem_zipIdx_iff_getElem?, Prod.exists, Prod.mk.injEq]
  constructor
  · rintro ⟨i', s, k', he, rfl, rfl, rfl, hs⟩
    exact ⟨rfl, s, he, hs⟩
  · rintro ⟨rfl, s, he, hs⟩
    exact ⟨i, s, k, he, rfl, rfl, rfl, hs⟩

theorem names_iff_rows (hdir : IsDir N d)
    (hdata : (N d).data = dirData l) (hl : ∀ e ∈ l, e.1 ≠ 0 ∧ e.1 < 2 ^ 16) :
    Names N d k i nm ↔ (d, k, i, nm) ∈ rows d l := by
  rw [mem_rows, Names, Holds, hdata, dirent?_dirData, Option.map_eq_some_iff]
  constructor
  · rintro ⟨-, ⟨⟨i', s⟩, he, hi⟩, h0⟩
    have hmem := hl _ (mem_of_getElem? he)
    rw [Entry.mk.injEq, Nat.mod_eq_of_lt hmem.2] at hi
    obtain ⟨rfl, hs⟩ := hi
    exact ⟨rfl, s, he, hs⟩
  · rintro ⟨-, s, he, hs⟩
    have hmem := hl _ (mem_of_getElem? he)
    exact ⟨hdir, ⟨(i, s), he, by rw [Nat.mod_eq_of_lt hmem.2, hs]⟩, hmem.1⟩

/-! ### A small file system -/

/-- `/` with the directory `a` and the file `f`, `/a` with the directory `b`, and `/a/b`. -/
def homeDisk : Disk :=
  let disk := putDir Mkfs.sb (blank Mkfs.sb) 1 59 2 [(1, dot), (1, dotdot), (8, [97]), (24, [102])]
  let disk := putDir Mkfs.sb disk 8 60 2 [(8, dot), (1, dotdot), (16, [98])]
  let disk := putDir Mkfs.sb disk 16 61 1 [(16, dot), (8, dotdot)]
  putInode Mkfs.sb disk 24 (.empty T_FILE 1)

/-- The inodes of the small file system. -/
def homeNodes (i : Nat) : Node :=
  if i = 24 then ⟨T_FILE, 0, 0, 1, []⟩
  else if i = 16 then ⟨T_DIR, 0, 0, 1, dirData [(16, dot), (8, dotdot)]⟩
  else if i = 8 then ⟨T_DIR, 0, 0, 2, dirData [(8, dot), (1, dotdot), (16, [98])]⟩
  else if i = 1 then ⟨T_DIR, 0, 0, 2, dirData [(1, dot), (1, dotdot), (8, [97]), (24, [102])]⟩
  else .free

/-- A kernel that has `/`, `/a/b` and `/a` in its inode cache. -/
def home : State where
  disk := homeDisk
  lh := []
  outstanding := 0
  icache ip :=
    if ip = 0 then ⟨ROOTDEV, 1, 1, false, false, .zero⟩
    else if ip = 1 then ⟨ROOTDEV, 16, 1, false, false, .zero⟩
    else if ip = 2 then ⟨ROOTDEV, 8, 1, false, false, .zero⟩
    else ⟨0, 0, 0, false, false, .zero⟩
  console := []

theorem laid_dirs : ∃ N, Laid Mkfs.sb (putDir Mkfs.sb (putDir Mkfs.sb (putDir Mkfs.sb (blank Mkfs.sb) 1 59 2
      [(1, dot), (1, dotdot), (8, [97]), (24, [102])]) 8 60 2 [(8, dot), (1, dotdot), (16, [98])]) 16 61 1
      [(16, dot), (8, dotdot)]) N 62 ∧ (N 24).type = 0 ∧
    ∀ f, Function.update N 24 f = fun i => if i = 24 then f else homeNodes i := by
  have h := (laid_blank layout_mkfs).putDir layout_mkfs 1 2 [(1, dot), (1, dotdot), (8, [97]), (24, [102])]
    (by decide) rfl (by decide) (by decide) (by decide)
  have h := h.putDir layout_mkfs 8 2 [(8, dot), (1, dotdot), (16, [98])]
    (by decide) rfl (by decide) (by decide) (by decide)
  have h := h.putDir layout_mkfs 16 1 [(16, dot), (8, dotdot)] (by decide) rfl (by decide) (by decide) (by decide)
  refine ⟨_, h, rfl, fun f => ?_⟩
  funext i
  simp only [homeNodes, Function.update_apply]
  split <;> rfl

theorem laid_home : Laid Mkfs.sb homeDisk homeNodes 62 := by
  obtain ⟨N, h, h0, hN⟩ := laid_dirs
  have h := h.putFile layout_mkfs 24 T_FILE 1 (by decide) h0 (by decide)
  refine ⟨h.formed, h.node.trans ((hN _).trans ?_), h.used⟩
  funext i
  simp only [homeNodes]
  split <;> rfl

/-- The entries of the small file system. -/
def homeRows : List Row :=
  rows 1 [(1, dot), (1, dotdot), (8, [97]), (24, [102])] ++ rows 8 [(8, dot), (1, dotdot), (16, [98])] ++
    rows 16 [(16, dot), (8, dotdot)]

theorem isDir_home (d : Nat) : IsDir homeNodes d ↔ d ∈ [1, 8, 16] := by
  simp only [IsDir, homeNodes, mem_cons, not_mem_nil, or_false]
  split
  case isTrue h => subst h; decide
  split
  case isTrue h => subst h; decide
  split
  case isTrue h => subst h; decide
  split
  case isTrue h => subst h; decide
  case isFalse h24 h16 h8 h1 => exact iff_of_false (by decide) (by omega)

theorem lists_home : Lists homeNodes homeRows := by
  intro d k i nm
  have hrows : (d, k, i, nm) ∈ homeRows → d ∈ [1, 8, 16] := by
    simp only [homeRows, mem_append, mem_rows, mem_cons, not_mem_nil]
    rintro ((⟨h, -⟩ | ⟨h, -⟩) | ⟨h, -⟩) <;> omega
  by_cases hd : d ∈ [1, 8, 16]
  · have hdir := (isDir_home d).mpr hd
    simp only [mem_cons, not_mem_nil, or_false] at hd
    obtain rfl | rfl | rfl := hd
    all_goals
      rw [names_iff_rows hdir rfl (by decide)]
      simp [homeRows, mem_rows]
  · exact iff_of_false (fun h => hd ((isDir_home d).mp h.1)) fun h => hd (hrows h)

theorem live_home (i : Nat) : Live homeNodes i ↔ i ∈ [1, 8, 16, 24] := by
  have hn := lists_home
  constructor
  · intro h
    induction h with
    | root => decide
    | @entry d k i nm _ hk hdot ih =>
      have hclosed : ∀ e ∈ homeRows, e.1 ∈ [1, 8, 16, 24] → ¬ IsDot e.2.2.2 → e.2.2.1 ∈ [1, 8, 16, 24] := by decide
      exact hclosed _ ((hn ..).mp hk) ih hdot
  · have h8 : Live homeNodes 8 := .entry .root ((hn 1 2 8 [97]).mpr (by decide)) (by decide)
    have h16 : Live homeNodes 16 := .entry h8 ((hn 8 2 16 [98]).mpr (by decide)) (by decide)
    have h24 : Live homeNodes 24 := .entry .root ((hn 1 3 24 [102]).mpr (by decide)) (by decide)
    simp only [mem_cons, not_mem_nil, or_false]
    rintro (rfl | rfl | rfl | rfl)
    · exact .root
    · exact h8
    · exact h16
    · exact h24

theorem type_home (h : (homeNodes i).type ≠ 0) : i ∈ [1, 8, 16, 24] := by
  by_contra hi
  simp only [mem_cons, not_mem_nil, or_false, not_or] at hi
  rw [homeNodes, if_neg hi.2.2.2, if_neg hi.2.2.1, if_neg hi.2.1, if_neg hi.1] at h
  exact h rfl

theorem tree_home : Tree homeNodes := by
  refine tree_of_table lists_home live_home isDir_home ?_ fun i h0 => ?_
  · constructor <;> decide
  · have := type_home h0
    simp only [mem_cons, not_mem_nil, or_false] at this
    obtain rfl | rfl | rfl | rfl := this <;> decide

theorem good_home : Good Mkfs.sb home where
  owned := laid_home.formed.owned
  solid := laid_home.formed.solid
  sync ip _ hv := absurd hv (by revert ip; decide)
  inum := by decide
  once := by decide +kernel
  idle := by decide

theorem sound_home : Sound Mkfs.sb home := by
  have hn : nodes Mkfs.sb home = homeNodes := laid_home.node
  refine ⟨good_home, by rw [hn]; exact tree_home, ?_, fun i => ?_, ?_, ?_⟩
  · rw [hn]
    intro d k i nm h
    have : ∀ e ∈ homeRows, e.2.2.1 < Mkfs.sb.ninodes := by decide
    exact this _ ((lists_home ..).mp h)
  · have hfree : ∀ q, (home.icache q).known.locked = false := by decide
    rcases refs_cases home i with ⟨q, -, hr⟩ | ⟨-, hr⟩
    · rw [hr]
      exact hfree q
    · rw [hr]
      rfl
  · rw [hn]
    exact fun i h0 hl => absurd ((live_home i).mpr (type_home h0)) hl
  · rw [hn]
    intro i hc
    obtain ⟨q, hq, rfl⟩ := good_home.points_iff.mpr hc
    have hcached : ∀ q, 0 < (home.icache q).ref → (homeNodes (home.icache q).inum).type ≠ 0 := by decide
    exact hcached q hq

/-- The small file system, with `data` in the file `f`. -/
def shelf (data : List Byte) : State :=
  {home with disk := putData Mkfs.sb (putDir Mkfs.sb (putDir Mkfs.sb (putDir Mkfs.sb (blank Mkfs.sb) 1 59 2
      [(1, dot), (1, dotdot), (8, [97]), (24, [102])]) 8 60 2 [(8, dot), (1, dotdot), (16, [98])]) 16 61 1
      [(16, dot), (8, dotdot)]) 24 62 T_FILE 1 data}

section Shelf
variable {data : List Byte} (hpos : 0 < data.length) (hsize : data.length ≤ BSIZE)
include hpos hsize

theorem laid_shelf : Laid Mkfs.sb (shelf data).disk
    (fun i => if i = 24 then ⟨T_FILE, 0, 0, 1, data⟩ else homeNodes i) 63 := by
  obtain ⟨N, h, h0, hN⟩ := laid_dirs
  have h := h.putData layout_mkfs 24 T_FILE 1 data (by decide) h0 (by decide) (by decide) hpos hsize
  rw [hN] at h
  exact h

theorem nodes_shelf :
    nodes Mkfs.sb (shelf data) = fun i => if i = 24 then ⟨T_FILE, 0, 0, 1, data⟩ else homeNodes i :=
  (laid_shelf hpos hsize).node

theorem sound_shelf : Sound Mkfs.sb (shelf data) := by
  have hl := laid_shelf hpos hsize
  have hn := nodes_shelf hpos hsize
  have hh : nodes Mkfs.sb home = homeNodes := laid_home.node
  have hv : ∀ ip, ¬ (home.icache ip).valid := by decide
  have hg : Good Mkfs.sb (shelf data) :=
    ⟨hl.formed.owned, hl.formed.solid, fun ip _ h => absurd h (hv ip), good_home.inum, good_home.once,
      good_home.idle⟩
  have ht : ∀ j, (nodes Mkfs.sb (shelf data) j).type = (nodes Mkfs.sb home j).type ∧
      (nodes Mkfs.sb (shelf data) j).nlink = (nodes Mkfs.sb home j).nlink := fun j => by
    rw [hn, hh]
    by_cases hj : j = 24
    · simp only [hj, if_true]
      exact ⟨rfl, rfl⟩
    · simp only [hj, if_false, and_self]
  have hd : ∀ d, IsDir (nodes Mkfs.sb home) d →
      (nodes Mkfs.sb (shelf data) d).data = (nodes Mkfs.sb home d).data := fun d hd => by
    have hne : d ≠ 24 := fun he => by
      rw [hh, he] at hd
      cases hd
    rw [hn, hh]
    simp only [hne, if_false]
  have hr : refs (shelf data) = refs home := rfl
  have hs := sound_home
  refine ⟨hg, tree_of_same ht hd hs.tree, fun d k i nm h => hs.range d k i nm ((names_of_same ht hd).mp h),
    hr ▸ hs.unlocked, fun i h0 hlive => ?_, fun i hc => ?_⟩
  · exact hs.orphan i ((ht i).1 ▸ h0) (mt (live_of_same ht hd).mpr hlive)
  · rw [(ht i).1]
    exact hs.held i hc

theorem resolve_shelf : resolve Mkfs.sb.ninodes (nodes Mkfs.sb (shelf data)) (counts (shelf data)) false
    ROOTINO [102] = .found 24 [102] := by
  have hnames : elems 2 [102] = [[102]] := by decide
  have hfind : find (homeNodes ROOTINO).data [102] = some (3, 24) := by decide +kernel
  have hroom : noRoom Mkfs.sb.ninodes (plus (counts home) ROOTINO) 24 = false := by decide +kernel
  rw [nodes_shelf hpos hsize, resolve, if_neg (by decide)]
  show walk _ _ (counts home) false ROOTINO [] (elems 2 [102]) = _
  rw [hnames, walk, if_neg (by simp [homeNodes, ROOTINO, T_DIR]), if_neg (by simp [homeNodes, ROOTINO]),
    if_neg (by simp)]
  simp only [if_neg (show ROOTINO ≠ 24 by decide), hfind, hroom]
  rfl

end Shelf

theorem points_shelf (data : List Byte) : Points (shelf data) 0 ROOTINO :=
  ⟨show 0 < (home.icache 0).ref by decide, rfl⟩

/-- From `S` entries other than dots lead back to `S`, and none leads to inode `j`. -/
def avoids (N : Nat → Node) (S : List Nat) (j : Nat) : Bool :=
  S.all fun d => (List.range (nentries (N d).data)).all fun k =>
    match dirent? (N d).data k with
    | none => true
    | some e => e.inum = 0 ∨ ((IsDot e.name ∨ e.inum ∈ S) ∧ e.inum ≠ j)

theorem links_eq_empty (hroot : ROOTINO ∈ S) (h : avoids N S j = true) :
    links N j = ∅ := by
  have hstep : ∀ {d k i nm}, d ∈ S → Names N d k i nm → (IsDot nm ∨ i ∈ S) ∧ i ≠ j := by
    intro d k i nm hd hn
    have hk := all_eq_true.mp (all_eq_true.mp h d hd) k (mem_range.mpr (lt_of_dirent? hn.2.1))
    rw [hn.2.1] at hk
    exact (of_decide_eq_true hk).resolve_left hn.2.2
  have hlive : ∀ {d}, Live N d → d ∈ S := by
    intro d hd
    induction hd with
    | root => exact hroot
    | entry _ hn hdot ih => exact (hstep ih hn).1.resolve_left hdot
  refine Set.eq_empty_of_forall_notMem fun x hx => ?_
  obtain ⟨hl, nm, hn, -⟩ := hx
  exact (hstep (hlive hl) hn).2 rfl

end Xv6.Fs
