import Xv6.Fs.Settle

/-! Paths without dots: what the name space binds to them.

In a tree of names a directory has one such path. Entering a name binds one path more, and
removing a name unbinds one; freeing an inode that is not live changes nothing. -/
namespace Xv6.Fs
open Lib

variable {N N' : Nat → Node} {d k l i j : Nat} {nm m : Name} {ps qs : List Name}

/-- The names lead from the root to inode `i`; none of them is a dot. -/
inductive Binds (N : Nat → Node) : List Name → Nat → Prop
  | root : Binds N [] ROOTINO
  | entry {ps : List Name} {d k i : Nat} {nm : Name} : Binds N ps d → Names N d k i nm → ¬ IsDot nm →
    Binds N (ps ++ [nm]) i

theorem Binds.live (h : Binds N ps i) : Live N i := by
  induction h with
  | root => exact .root
  | entry _ hn hdot ih => exact .entry ih hn hdot

theorem Live.binds (h : Live N i) : ∃ ps, Binds N ps i := by
  induction h with
  | root => exact ⟨[], .root⟩
  | entry _ hn hdot ih =>
    obtain ⟨ps, hp⟩ := ih
    exact ⟨_, hp.entry hn hdot⟩

theorem Binds.of_append (h : Binds N (ps ++ [nm]) i) :
    ∃ d k, Binds N ps d ∧ Names N d k i nm ∧ ¬ IsDot nm := by
  generalize hqs : ps ++ [nm] = qs at h
  cases h with
  | root => simp at hqs
  | entry hp hn hdot =>
    obtain ⟨rfl, hm⟩ := List.append_inj' hqs rfl
    cases hm
    exact ⟨_, _, hp, hn, hdot⟩

theorem Binds.mono (h : Binds N ps i) (hN : ∀ d k i nm, Names N d k i nm → Names N' d k i nm) :
    Binds N' ps i := by
  induction h with
  | root => exact .root
  | entry _ hn hdot ih => exact ih.entry (hN _ _ _ _ hn) hdot

/-- A path leads to one inode. -/
theorem Binds.unique (t : Tree N) (h : Binds N ps i) (h' : Binds N ps j) : i = j := by
  induction h generalizing j with
  | root =>
    generalize hqs : ([] : List Name) = qs at h'
    cases h' with
    | root => rfl
    | entry => simp at hqs
  | entry _ hn _ ih =>
    obtain ⟨d', k', hp', hn', -⟩ := h'.of_append
    obtain rfl := ih hp'
    obtain rfl := t.distinct _ _ _ _ _ _ hn hn'
    exact (hn.unique hn').1

/-- A directory has one path. -/
theorem Binds.path_unique (t : Tree N) (hd : IsDir N i) (h : Binds N ps i) (h' : Binds N qs i) : ps = qs := by
  induction h generalizing qs with
  | root =>
    generalize hi : ROOTINO = i at h' hd
    cases h' with
    | root => rfl
    | entry hq hn hdot => exact absurd hi.symm (t.parent _ _ _ _ hq.live hn hdot hd).1
  | @entry ps d k i nm hp hn hdot ih =>
    obtain ⟨hroot, hup⟩ := t.parent _ _ _ _ hp.live hn hdot hd
    cases h' with
    | root => exact absurd rfl hroot
    | entry hq hn' hdot' =>
      obtain ⟨-, hup'⟩ := t.parent _ _ _ _ hq.live hn' hdot' hd
      obtain ⟨rfl, -⟩ := hup.unique hup'
      obtain rfl := ih hn.1 hq
      obtain rfl := t.once _ _ _ _ _ _ hp.live hn hn' hdot hdot' hd
      rw [(hn.unique hn').2]

/-! ### Changes of the name space -/

/-- The paths bound after a change are those bound before, and one more. -/
def BindsMore (N N' : Nat → Node) (ps : List Name) (i : Nat) : Prop :=
  (∀ j, ¬ Binds N ps j) ∧ ∀ qs j, Binds N' qs j ↔ Binds N qs j ∨ (qs = ps ∧ j = i)

/-- The paths bound after a change are those bound before, but for one. -/
def BindsLess (N N' : Nat → Node) (ps : List Name) (i : Nat) : Prop :=
  Binds N ps i ∧ ∀ qs j, Binds N' qs j ↔ Binds N qs j ∧ ¬ (qs = ps ∧ j = i)

theorem Entered.binds (t : Tree N) (h : Entered N N' d i nm) (hp : Binds N ps d) :
    BindsMore N N' (ps ++ [nm]) i := by
  have hdir := h.dir
  obtain ⟨k, h⟩ := h.edit
  have hnew : ∀ l j, ¬ Names N d l j nm := h.elim (fun h => h.new) fun h => h.new
  have hdot : ¬ IsDot nm := h.elim (fun h => h.nodot) fun h => h.nodot
  have hold : ∀ x l j m, Names N x l j m → Names N' x l j m := fun x l j m hn =>
    h.elim (fun h => h.names_iff.mpr (.inl hn)) fun h => h.old hn
  have hadded : Names N' d k i nm := h.elim (fun h => h.names_iff.mpr (.inr ⟨rfl, rfl, rfl, rfl⟩)) fun h => h.added
  -- a name other than a dot is old or the one that was entered
  have hcases : ∀ {x l j m}, Names N' x l j m → ¬ IsDot m → x ≠ i ∧
      (Names N x l j m ∨ (x = d ∧ l = k ∧ j = i ∧ m = nm)) := fun {x l j m} hn hm =>
    h.elim (fun h => ⟨fun he => h.notDir (he ▸ hn.1), h.names_iff.mp hn⟩) fun h =>
      ⟨h.not_dots hn hm, (h.names_other (h.not_dots hn hm)).mp hn⟩
  refine ⟨fun j hj => ?_, fun qs j => ⟨fun hq => ?_, ?_⟩⟩
  · obtain ⟨d', l, hp', hn, -⟩ := hj.of_append
    obtain rfl := hp.unique t hp'
    exact hnew l j hn
  · induction hq with
    | root => exact .inl .root
    | @entry qs x l j m _ hn hm ih =>
      obtain ⟨hx, hn⟩ := hcases hn hm
      have hq : Binds N qs x := ih.resolve_right fun hc => hx hc.2
      obtain hn | ⟨rfl, -, rfl, rfl⟩ := hn
      · exact .inl (hq.entry hn hm)
      · exact .inr ⟨by rw [hq.path_unique t hdir hp], rfl⟩
  · rintro (hq | ⟨rfl, rfl⟩)
    · exact hq.mono hold
    · exact (hp.mono hold).entry hadded hdot

theorem Removes.binds (t : Tree N) (h : Removes N N' d k i nm) (hp : Binds N ps d) :
    BindsLess N N' (ps ++ [nm]) i := by
  have hold : ∀ x l j m, Names N' x l j m → Names N x l j m := fun x l j m hn => (h.names_iff.mp hn).1
  refine ⟨hp.entry h.named h.nodot, fun qs j => ⟨fun hq => ⟨hq.mono hold, ?_⟩, fun hq => ?_⟩⟩
  · rintro ⟨rfl, rfl⟩
    obtain ⟨d', l, hp', hn, -⟩ := hq.of_append
    obtain rfl := hp.unique t (hp'.mono hold)
    obtain ⟨hn, hl⟩ := h.names_iff.mp hn
    exact hl ⟨rfl, t.distinct _ _ _ _ _ _ hn h.named⟩
  · obtain ⟨hq, hne⟩ := hq
    induction hq with
    | root => exact .root
    | @entry qs x l j m hq hn hm ih =>
      have hx : ¬ (qs = ps ++ [nm] ∧ x = i) := by
        rintro ⟨-, rfl⟩
        exact hm ((t.isDot_iff hn).mpr (h.dots_only hn))
      refine (ih hx).entry (h.names_iff.mpr ⟨hn, ?_⟩) hm
      rintro ⟨rfl, rfl⟩
      obtain ⟨rfl, rfl⟩ := hn.unique h.named
      exact hne ⟨by rw [hq.path_unique t hn.1 hp], rfl⟩

theorem Swept.binds_iff (h : Swept N N') (qs : List Name) (j : Nat) : Binds N' qs j ↔ Binds N qs j := by
  refine h.keeps (P := fun M => Binds M qs j ↔ Binds N qs j) Iff.rfl fun M M' i hf ih => Iff.trans ?_ ih
  refine ⟨fun hb => hb.mono fun x l j m hn => (hf.names_iff.mp hn).1, fun hb => ?_⟩
  clear ih
  induction hb with
  | root => exact .root
  | entry hp hn hdot ih =>
    exact ih.entry (hf.names_iff.mpr ⟨hn, fun he => hf.dead (he ▸ hp.live)⟩) hdot

/-! ### The contents of files -/

/-- What is no directory, and is there before and after, has the same contents. -/
def KeepsFiles (N N' : Nat → Node) : Prop :=
  ∀ j, (N j).type ≠ 0 → ¬ IsDir N j → (N' j).type ≠ 0 → (N' j).type = (N j).type ∧ (N' j).data = (N j).data

theorem Entered.keepsFiles (h : Entered N N' d i nm) : KeepsFiles N N' := by
  intro j hj hdir _
  have hd : j ≠ d := fun he => hdir (he ▸ h.dir)
  by_cases hi : j = i
  · subst hi
    rw [h.fields hj]
    exact ⟨rfl, rfl⟩
  · obtain ⟨k, h | h⟩ := h.edit
    · rw [h.other j hd hi]
      exact ⟨rfl, rfl⟩
    · rw [h.other j hd hi]
      exact ⟨rfl, rfl⟩

theorem Removes.keepsFiles (h : Removes N N' d k i nm) : KeepsFiles N N' := by
  intro j hj hdir _
  have hd : j ≠ d := fun he => hdir (he ▸ h.named.1)
  by_cases hi : j = i
  · rw [hi, h.fields]
    exact ⟨rfl, rfl⟩
  · rw [h.other j hd hi]
    exact ⟨rfl, rfl⟩

theorem KeepsFiles.swept {M : Nat → Node} (h : KeepsFiles N M) (hs : Swept M N') : KeepsFiles N N' := by
  intro j hj hdir h0
  have he := hs.eq_of_type h0
  rw [he] at h0 ⊢
  exact h j hj hdir h0

theorem Swept.keepsFiles (h : Swept N N') : KeepsFiles N N' :=
  KeepsFiles.swept (fun _ _ _ _ => ⟨rfl, rfl⟩) h

/-! ### Parents -/

/-- The `..` of every directory, removed or not, names a live directory. -/
def Rooted (N : Nat → Node) : Prop := ∀ e q, Names N e 1 q dotdot → Live N q ∧ IsDir N q

/-- If no directory has been removed, then so it is. -/
theorem rooted_of_live (t : Tree N) (h : ∀ d, IsDir N d → Live N d) : Rooted N := by
  intro e q hn
  have he := h e hn.1
  by_cases hr : e = ROOTINO
  · subst hr
    obtain ⟨rfl, -⟩ := hn.unique t.root
    exact ⟨.root, hn.1⟩
  · obtain ⟨x, l, m, hx, hxe, -, hup⟩ := t.parent_live he hn.1 hr
    obtain ⟨rfl, -⟩ := hn.unique hup
    exact ⟨hx, hxe.1⟩

theorem Swept.rooted (h : Swept N N') (hr : Rooted N) : Rooted N' := by
  refine h.keeps (P := Rooted) hr fun M M' i hf ih e q hn => ?_
  obtain ⟨hl, hd⟩ := ih e q (hf.names_iff.mp hn).1
  exact ⟨hf.live_iff.mpr hl, hf.isDir_iff.mpr ⟨hd, fun he => hf.dead (he ▸ hl)⟩⟩

theorem Entered.rooted (h : Entered N N' d i nm) (hr : Rooted N) : Rooted N' := by
  have hlive : ∀ {q}, Live N q → Live N' q := fun hl => h.live_iff.mpr (.inl hl)
  intro e q hn
  obtain ⟨k, h⟩ := h.edit
  obtain h | h := h
  · obtain hn | ⟨-, -, -, he⟩ := h.names_iff.mp hn
    · exact ⟨hlive (hr e q hn).1, h.isDir_iff.mpr (hr e q hn).2⟩
    · exact absurd (.inr he.symm) h.nodot
  · by_cases he : e = i
    · subst he
      obtain ⟨h0, -⟩ | ⟨-, rfl, -⟩ := h.names_self.mp hn
      · cases h0
      · exact ⟨hlive h.live, h.isDir_iff.mpr (.inl h.dir)⟩
    · obtain hn | ⟨-, -, -, he⟩ := (h.names_other he).mp hn
      · exact ⟨hlive (hr e q hn).1, h.isDir_iff.mpr (.inl (hr e q hn).2)⟩
      · exact absurd (.inr he.symm) h.nodot

/-- A directory is removed that is not the `..` of one that has been removed before. -/
theorem Removes.rooted (t : Tree N) (h : Removes N N' d k i nm) (hr : Rooted N)
    (halone : ∀ e, Names N e 1 i dotdot → Live N e) : Rooted N' := by
  intro e q hn
  have hn := (h.names_iff.mp hn).1
  obtain ⟨hl, hd⟩ := hr e q hn
  refine ⟨h.live_keep t hl ?_, h.isDir_iff.mpr hd⟩
  rintro rfl
  -- a live directory with this parent is an entry of it, but it is empty
  have hlive := halone e hn
  have hroot := (t.parent _ _ _ _ h.live h.named h.nodot hd).1
  by_cases he : e = ROOTINO
  · subst he
    exact hroot (hn.unique t.root).1
  · obtain ⟨x, l, m, hx, hxe, hdot, hup⟩ := t.parent_live hlive hn.1 he
    obtain ⟨rfl, -⟩ := hn.unique hup
    exact hdot ((t.isDot_iff hxe).mpr (h.dots_only hxe))

/-- Then every entry of every directory names an inode that is there. -/
theorem Rooted.closed (t : Tree N) (h : Rooted N) : Closed N := by
  intro d k i nm hn
  by_cases hl : Live N d
  · exact t.target d k i nm hl hn
  · obtain rfl | rfl := t.removed d k i nm hl hn
    · obtain rfl := t.distinct _ _ _ _ _ _ hn (t.self d hn.1)
      rw [(hn.unique (t.self d hn.1)).1]
      exact isDir_ne_zero hn.1
    · rw [(t.eq_dotdot hn).mp rfl] at hn
      exact t.live_type (h d i hn).1

end Xv6.Fs
