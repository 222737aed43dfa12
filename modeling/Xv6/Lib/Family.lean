import Mathlib.Logic.Function.Basic

/-! Families of processes.

Members of a family are created in two steps by other members, run, leave, and are taken
out of the family by their parent. A member that leaves passes its children on to the
root, which never leaves. So every member that has started has a parent that is alive. -/
namespace Xv6.Lib
open Function

inductive Life where
  /-- There is no such member. -/
  | free
  /-- It has not started yet. -/
  | embryo
  | alive
  /-- It has left, and has not been taken out. -/
  | zombie
deriving DecidableEq

/-- What a member does to its family at the moment. -/
inductive Work (ι : Type) where
  | none
  /-- It makes a member that has no parent yet. -/
  | making (n : ι)
  /-- It makes a member, and is its parent. -/
  | raising (n : ι)
  | leaving
  | waiting
deriving DecidableEq

/-- The member that is being made. -/
def Work.new {ι : Type} : Work ι → Option ι
  | .making n | .raising n => some n
  | _ => .none

@[ext] structure Family (ι : Type) where
  life : ι → Life
  parent : ι → Option ι
  work : ι → Work ι
  root : ι

namespace Family
variable {ι : Type} [DecidableEq ι] (F : Family ι) (p n : ι)

/-! ### What members do -/

def goto (w : Work ι) : Family ι := {F with work := update F.work p w}

/-- `n` gets the life `l`. -/
def live (l : Life) : Family ι := {F with life := update F.life n l}

/-- `p` becomes the parent of `n`. -/
def adopt : Family ι := {F with parent := update F.parent n (some p)}

/-- The children of `p` go to the root. -/
def passOn : Family ι :=
  {F with parent := fun q => if F.parent q = some p then some F.root else F.parent q}

/-- `n` is taken out. -/
def remove : Family ι :=
  {F with life := update F.life n .free, parent := update F.parent n .none}

variable {F p n}

theorem live_self {l : Life} (h : F.life n = l) : F.live n l = F := by
  subst h
  exact congrArg (fun f => {F with life := f}) (update_eq_self n F.life)

theorem goto_self {w : Work ι} (h : F.work p = w) : F.goto p w = F := by
  subst h
  exact congrArg (fun f => {F with work := f}) (update_eq_self p F.work)

/-! ### What holds of a family -/

variable (F)

structure Kin : Prop where
  root_alive : F.life F.root = .alive
  root_parent : F.parent F.root = none
  root_stays : F.work F.root ≠ .leaving
  parent : ∀ q, F.life q = .alive ∨ F.life q = .zombie → q ≠ F.root →
    ∃ p, F.parent q = some p ∧ F.life p = .alive
  free : ∀ q, F.life q = .free → F.parent q = none
  self : ∀ q, F.parent q ≠ some q
  alive : ∀ p, F.work p ≠ .none → F.life p = .alive
  embryo : ∀ p n, (F.work p).new = some n → F.life n = .embryo
  making : ∀ p n, F.work p = .making n → F.parent n = none
  raising : ∀ p n, F.work p = .raising n → F.parent n = some p
  alone : ∀ p p' n, (F.work p).new = some n → (F.work p').new = some n → p = p'

namespace Kin
variable {F} (h : F.Kin)
include h

/-- A member that is alive turns to something else, and makes no new member. -/
theorem goto {w : Work ι} (hp : F.life p = .alive) (hw : w.new = none)
    (hr : w = .leaving → p ≠ F.root) : (F.goto p w).Kin := by
  have hwork : ∀ q, (F.goto p w).work q = if q = p then w else F.work q := fun q =>
    update_apply F.work p w q
  have hnew : ∀ q m, ((F.goto p w).work q).new = some m → (F.work q).new = some m := by
    intro q m hq
    rw [hwork] at hq
    split at hq
    · rw [hw] at hq
      cases hq
    · exact hq
  refine ⟨h.root_alive, h.root_parent, ?_, h.parent, h.free, h.self, ?_, ?_, ?_, ?_, ?_⟩
  · rw [hwork]
    split
    · rename_i he
      exact fun hl => hr hl he.symm
    · exact h.root_stays
  · intro q hq
    rw [hwork] at hq
    split at hq
    · rename_i he
      rw [he]
      exact hp
    · exact h.alive q hq
  · exact fun q m hq => h.embryo q m (hnew q m hq)
  · intro q m hq
    refine h.making q m ?_
    rw [hwork] at hq
    split at hq
    · rw [hq] at hw
      cases hw
    · exact hq
  · intro q m hq
    refine h.raising q m ?_
    rw [hwork] at hq
    split at hq
    · rw [hq] at hw
      cases hw
    · exact hq
  · exact fun q q' m hq hq' => h.alone q q' m (hnew q m hq) (hnew q' m hq')

omit [DecidableEq ι] in
/-- A member that is being made is none of those that are alive. -/
theorem new_ne {m : ι} (hp : (F.work p).new = some n) (hm : F.life m = .alive) : n ≠ m := by
  rintro rfl
  have := h.embryo p n hp
  rw [hm] at this
  cases this

/-- A new member is made in a free place, which is nobody's child. -/
theorem make (hp : F.life p = .alive) (hn : F.life n = .free) :
    ((F.live n .embryo).goto p (.making n)).Kin := by
  have hparent : F.parent n = none := h.free n hn
  have hunused : ∀ q, (F.work q).new ≠ some n := fun q hq => by
    have := h.embryo q n hq
    rw [hn] at this
    cases this
  obtain ⟨hroot, hnone, hstays, hpar, hfree, hself, halive, hembryo, hmaking, hraising, halone⟩ := h
  refine ⟨?_, hnone, ?_, ?_, ?_, hself, ?_, ?_, ?_, ?_, ?_⟩ <;>
    simp only [Family.goto, Family.live, update_apply] <;> grind [Work.new]

/-- The member that is being made is given up; it is still nobody's child. -/
theorem abandon (hp : F.work p = .making n) : ((F.live n .free).goto p .none).Kin := by
  have hnew : (F.work p).new = some n := by rw [hp, Work.new]
  have hparent : F.parent n = none := h.making p n hp
  have hembryo' : F.life n = .embryo := h.embryo p n hnew
  obtain ⟨hroot, hnone, hstays, hpar, hfree, hself, halive, hembryo, hmaking, hraising, halone⟩ := h
  refine ⟨?_, hnone, ?_, ?_, ?_, hself, ?_, ?_, ?_, ?_, ?_⟩ <;>
    simp only [Family.goto, Family.live, update_apply] <;> grind [Work.new]

theorem raise (hp : F.work p = .making n) : ((F.adopt p n).goto p (.raising n)).Kin := by
  have hnew : (F.work p).new = some n := by rw [hp, Work.new]
  have halive' : F.life p = .alive := h.alive p (by rw [hp]; exact nofun)
  have hne : n ≠ p := h.new_ne hnew halive'
  have hroot' : n ≠ F.root := h.new_ne hnew h.root_alive
  obtain ⟨hroot, hnone, hstays, hpar, hfree, hself, halive, hembryo, hmaking, hraising, halone⟩ := h
  refine ⟨hroot, ?_, ?_, ?_, ?_, ?_, ?_, ?_, ?_, ?_, ?_⟩ <;>
    simp only [Family.goto, Family.adopt, update_apply] <;> grind [Work.new]

/-- The new member starts: its parent is the one that made it. -/
theorem start (hp : F.work p = .raising n) : ((F.live n .alive).goto p .none).Kin := by
  have hnew : (F.work p).new = some n := by rw [hp, Work.new]
  have halive' : F.life p = .alive := h.alive p (by rw [hp]; exact nofun)
  have hparent : F.parent n = some p := h.raising p n hp
  obtain ⟨hroot, hnone, hstays, hpar, hfree, hself, halive, hembryo, hmaking, hraising, halone⟩ := h
  refine ⟨?_, hnone, ?_, ?_, ?_, hself, ?_, ?_, ?_, ?_, ?_⟩ <;>
    simp only [Family.goto, Family.live, update_apply] <;> grind [Work.new]

/-- A member leaves. Its children have the root for a parent, and its own parent is another
member. -/
theorem leave (hp : F.work p = .leaving) : (((F.passOn p).live p .zombie).goto p .none).Kin := by
  have hroot' : p ≠ F.root := fun he => h.root_stays (he ▸ hp)
  have halive' : F.life p = .alive := h.alive p (by rw [hp]; exact nofun)
  obtain ⟨hroot, hnone, hstays, hpar, hfree, hself, halive, hembryo, hmaking, hraising, halone⟩ := h
  refine ⟨?_, ?_, ?_, ?_, ?_, ?_, ?_, ?_, ?_, ?_, ?_⟩ <;>
    simp only [Family.goto, Family.live, Family.passOn, update_apply] <;> grind [Work.new]

/-- A zombie is taken out; it is nobody's parent. -/
theorem remove (hn : F.life n = .zombie) : (F.remove n).Kin := by
  obtain ⟨hroot, hnone, hstays, hpar, hfree, hself, halive, hembryo, hmaking, hraising, halone⟩ := h
  refine ⟨?_, ?_, hstays, ?_, ?_, ?_, ?_, ?_, ?_, ?_, halone⟩ <;>
    simp only [Family.remove, update_apply] <;> grind [Work.new]

end Kin
end Family

end Xv6.Lib
