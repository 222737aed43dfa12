import Xv6.Kern.State

/-! The pages of pipes.

A file open on a pipe is one end of it: the page, and whether it is the write end. `Pipes`
says that each end is one file, that a pipe knows which of its ends are open, and that a
page is out of the allocator exactly while one of its ends is open. -/
namespace Xv6.Kern
open Lib Function

/-- The end of a pipe that the file is. -/
def File.pipeEnd (r : File) : Option (Nat × Bool) :=
  if r.type = .FD_PIPE then some (r.pipe, r.writable) else none

/-- The ends of pipes, file by file. -/
def Kernel.ends (k : Kernel) (f : FilePtr) : Option (Nat × Bool) := (k.ftable f).pipeEnd

/-- Some file is open on the pipe in page `a`. -/
def Open (E : FilePtr → Option (Nat × Bool)) (a : Nat) : Prop := ∃ f w, E f = some (a, w)

instance (E : FilePtr → Option (Nat × Bool)) (a : Nat) : Decidable (Open E a) := by
  unfold Open
  infer_instance

structure Pipes (E : FilePtr → Option (Nat × Bool)) (pipe : Nat → Pipe) (pages : List Page) : Prop where
  one : ∀ f g e, E f = some e → E g = some e → f = g
  read : ∀ a, Open E a → ((pipe a).readopen = true ↔ ∃ f, E f = some (a, false))
  write : ∀ a, Open E a → ((pipe a).writeopen = true ↔ ∃ f, E f = some (a, true))
  page : ∀ a, pages.count (.kalloc a) = pages.count (.kfree a) + if Open E a then 1 else 0

variable {E : FilePtr → Option (Nat × Bool)} {pipe : Nat → Pipe} {pages : List Page}

theorem Pipes.fresh (h : Pipes E pipe pages)
    (ha : pages.count (.kalloc a) = pages.count (.kfree a)) : ¬ Open E a := by
  intro ho
  have := h.page a
  rw [if_pos ho] at this
  omega

section Close
variable {f : FilePtr} {a : Nat} {w : Bool}

private theorem update_end (hf : E f = some (a, w)) (g : FilePtr) (e : Nat × Bool) :
    update E f none g = some e ↔ E g = some e ∧ g ≠ f := by
  by_cases hg : g = f
  · subst hg
    simp
  · simp [hg]

private theorem open_other (hf : E f = some (a, w)) (hc : c ≠ a) :
    Open (update E f none) c ↔ Open E c := by
  refine exists_congr fun g => exists_congr fun v => ?_
  rw [update_end hf]
  refine and_iff_left_of_imp fun hg hgf => hc ?_
  rw [hgf, hf, Option.some.injEq, Prod.mk.injEq] at hg
  exact hg.1.symm

/-- What is left open of the pipe is its other end. -/
private theorem Pipes.open_self (h : Pipes E pipe pages) (hf : E f = some (a, w)) :
    Open (update E f none) a ↔ ∃ g, E g = some (a, !w) := by
  constructor
  · rintro ⟨g, v, hg⟩
    rw [update_end hf] at hg
    by_cases hv : v = w
    · exact absurd (h.one g f (a, w) (hv ▸ hg.1) hf) hg.2
    · exact ⟨g, by rw [← Bool.eq_not_of_ne hv]; exact hg.1⟩
  · rintro ⟨g, hg⟩
    refine ⟨g, !w, (update_end hf g _).mpr ⟨hg, fun hgf => ?_⟩⟩
    rw [hgf, hf, Option.some.injEq, Prod.mk.injEq] at hg
    exact Bool.not_ne_self w hg.2.symm

private theorem Pipes.both_closed (h : Pipes E pipe pages) (hf : E f = some (a, w)) :
    (((pipe a).close w).readopen = false ∧ ((pipe a).close w).writeopen = false) ↔
      ¬ Open (update E f none) a := by
  have hr := h.read a ⟨f, w, hf⟩
  have hw := h.write a ⟨f, w, hf⟩
  rw [h.open_self hf]
  cases w with
  | false => simp [Pipe.close, ← hw]
  | true => simp [Pipe.close, ← hr]

/-- A flag of the pipe agrees with the ends that are left, when it did before and `v` tells
which end it is for. -/
private theorem Pipes.flag (h : Pipes E pipe pages) (hf : E f = some (a, w)) (v : Bool)
    (hb : b = true ↔ ∃ g, E g = some (a, v)) :
    ((b = true ∧ v ≠ w) ↔ ∃ g, update E f none g = some (a, v)) := by
  rw [hb]
  constructor
  · rintro ⟨⟨g, hg⟩, hv⟩
    refine ⟨g, (update_end hf g _).mpr ⟨hg, fun hgf => hv ?_⟩⟩
    rw [hgf, hf, Option.some.injEq, Prod.mk.injEq] at hg
    exact hg.2.symm
  · rintro ⟨g, hg⟩
    rw [update_end hf] at hg
    exact ⟨⟨g, hg.1⟩, fun hv => hg.2 (h.one g f (a, w) (hv ▸ hg.1) hf)⟩

private theorem end_other (hf : E f = some (a, w)) (hc : c ≠ a) (v : Bool) :
    (∃ g, update E f none g = some (c, v)) ↔ ∃ g, E g = some (c, v) := by
  refine exists_congr fun g => ?_
  rw [update_end hf]
  refine and_iff_left_of_imp fun hg hgf => hc ?_
  rw [hgf, hf, Option.some.injEq, Prod.mk.injEq] at hg
  exact hg.1.symm

/-- One end is closed, and with the second one the page is given back. -/
theorem Pipes.close (h : Pipes E pipe pages) (hf : E f = some (a, w)) :
    Pipes (update E f none) (update pipe a ((pipe a).close w))
      (if ((pipe a).close w).readopen = false ∧ ((pipe a).close w).writeopen = false
        then .kfree a :: pages else pages) where
  one g g' e hg hg' := by
    rw [update_end hf] at hg hg'
    exact h.one g g' e hg.1 hg'.1
  read c hc := by
    by_cases hca : c = a
    · subst hca
      rw [update_self, ← h.flag hf false (h.read c ⟨f, w, hf⟩)]
      cases w <;> simp [Pipe.close]
    · rw [update_of_ne hca, end_other hf hca]
      exact h.read c ((open_other hf hca).mp hc)
  write c hc := by
    by_cases hca : c = a
    · subst hca
      rw [update_self, ← h.flag hf true (h.write c ⟨f, w, hf⟩)]
      cases w <;> simp [Pipe.close]
    · rw [update_of_ne hca, end_other hf hca]
      exact h.write c ((open_other hf hca).mp hc)
  page c := by
    have hpage := h.page c
    by_cases hca : c = a
    · subst hca
      rw [if_pos ⟨f, w, hf⟩] at hpage
      by_cases hb : Open (update E f none) c
      · rw [if_neg fun hcl => (h.both_closed hf).mp hcl hb, if_pos hb]
        exact hpage
      · rw [if_pos ((h.both_closed hf).mpr hb), if_neg hb, List.count_cons_self,
          List.count_cons_of_ne (by simp)]
        exact hpage
    · have hk : ∀ P : Prop, [Decidable P] → (if P then Page.kfree a :: pages else pages).count (.kfree c) =
          pages.count (.kfree c) ∧ (if P then Page.kfree a :: pages else pages).count (.kalloc c) =
          pages.count (.kalloc c) := by
        intro P _
        split
        · exact ⟨List.count_cons_of_ne fun e => hca (Page.kfree.inj e).symm, List.count_cons_of_ne (by simp)⟩
        · exact ⟨rfl, rfl⟩
      rw [(hk _).1, (hk _).2, hpage]
      simp only [open_other hf hca]

end Close

section Open
variable {f0 f1 : FilePtr} {a : Nat}

/-- A new pipe: two files that were not open on one, and a page that was not out. -/
theorem Pipes.make (h : Pipes E pipe pages) (h01 : f0 ≠ f1) (hf0 : E f0 = none) (hf1 : E f1 = none)
    (ha : ¬ Open E a) :
    Pipes (update (update E f0 (some (a, false))) f1 (some (a, true)))
      (update pipe a ⟨true, true⟩) (.kalloc a :: pages) := by
  have hend : ∀ g c v, update (update E f0 (some (a, false))) f1 (some (a, true)) g =
      some (c, v) ↔ (g = f0 ∧ c = a ∧ v = false) ∨ (g = f1 ∧ c = a ∧ v = true) ∨ E g = some (c, v) := by
    intro g c v
    by_cases hg1 : g = f1
    · subst hg1
      simp [hf1, Ne.symm h01, eq_comm]
    · by_cases hg0 : g = f0
      · subst hg0
        simp [hf0, hg1, eq_comm]
      · simp [hg0, hg1]
  have hopen : ∀ c, c ≠ a →
      (Open (update (update E f0 (some (a, false))) f1 (some (a, true))) c ↔ Open E c) := by
    intro c hc
    simp only [Open, hend, hc, false_and, and_false, false_or]
  refine ⟨fun g g' e hg hg' => ?_, fun c hc => ?_, fun c hc => ?_, fun c => ?_⟩
  · obtain ⟨c, v⟩ := e
    rw [hend] at hg hg'
    obtain ⟨rfl, rfl, rfl⟩ | ⟨rfl, rfl, rfl⟩ | hg := hg
    · obtain ⟨rfl, -⟩ | ⟨-, -, hv⟩ | hg' := hg'
      · rfl
      · cases hv
      · exact absurd ⟨g', _, hg'⟩ ha
    · obtain ⟨-, -, hv⟩ | ⟨rfl, -⟩ | hg' := hg'
      · cases hv
      · rfl
      · exact absurd ⟨g', _, hg'⟩ ha
    · obtain ⟨-, rfl, -⟩ | ⟨-, rfl, -⟩ | hg' := hg'
      · exact absurd ⟨g, _, hg⟩ ha
      · exact absurd ⟨g, _, hg⟩ ha
      · exact h.one g g' _ hg hg'
  · by_cases hca : c = a
    · subst hca
      rw [update_self]
      exact iff_of_true rfl ⟨f0, (hend ..).mpr (.inl ⟨rfl, rfl, rfl⟩)⟩
    · rw [update_of_ne hca, h.read c ((hopen c hca).mp hc)]
      simp only [hend, hca, false_and, and_false, false_or]
  · by_cases hca : c = a
    · subst hca
      rw [update_self]
      exact iff_of_true rfl ⟨f1, (hend ..).mpr (.inr (.inl ⟨rfl, rfl, rfl⟩))⟩
    · rw [update_of_ne hca, h.write c ((hopen c hca).mp hc)]
      simp only [hend, hca, false_and, and_false, false_or]
  · have hpage := h.page c
    rw [List.count_cons_of_ne (b := Page.kalloc a) (a := Page.kfree c) (by simp)]
    by_cases hca : c = a
    · subst hca
      rw [if_neg ha] at hpage
      rw [List.count_cons_self, hpage, if_pos ⟨f0, false, (hend ..).mpr (.inl ⟨rfl, rfl, rfl⟩)⟩]
    · rw [List.count_cons_of_ne fun e => hca (Page.kalloc.inj e).symm, hpage]
      simp only [hopen c hca]

end Open

end Xv6.Kern
