import Xv6.Vm.Boot

/-! Ownership of pages over whole runs.

From a successful start on, every page stays in one place until the kernel stops. -/
namespace Xv6.Vm
open Lib Function

variable {K : Kernel} {W : World K} {s t : State} {x y : System} {P B : Space} {A : Option Nat → Space} {E : Halt → Prop}
  {i : Nat}

/-- The system after a successful start. -/
def Boots (K : Kernel) (x : System) : Prop :=
  ∃ ncpu init s t, s.freelist = [] ∧ main K ncpu init s = .ok (x, t) ∧ x.Present

/-- Every page that was handed to `freerange` is in one place, the kernel part of no process is for the user, and what
`allocuvm` gives to a process is zero. -/
structure Isolated (K : Kernel) (x : System) : Prop where
  nodup : x.mem.freelist.Nodup
  one : ∀ pa, K.Pool pa → x.InOnePlace pa
  kernel : ∀ i, (x.procs i).life ≠ .unused → ∀ v, USERPAGES ≤ v → v < PAGES →
    has (pteOf x.mem (x.procs i).proc.pgdir v) PTE_U = false
  zero : ∀ i, (x.procs i).life ≠ .unused → ∀ newsz r t,
    allocuvm K (x.procs i).proc.pgdir (x.procs i).proc.sz newsz x.mem = .ok (r, t) → ∀ v, v < USERPAGES →
      has (pteOf x.mem (x.procs i).proc.pgdir v) PTE_P = false → has (pteOf t (x.procs i).proc.pgdir v) PTE_P = true →
      t.page (PTE_ADDR (pteOf t (x.procs i).proc.pgdir v)) = Bytes.zero

theorem Keeps.isolated (h : Keeps K x A) : Isolated K x where
  nodup := h.places.nodup
  one _ hpa := h.inOnePlace hpa
  kernel i hi v hlo hhi := by
    have hgood := h.good (dir_ne_none hi)
    rw [← (h.suits hi).dir, hgood.shows.pteOf_eq hhi]
    exact h.kernel hi hlo
  zero i hi newsz r t hok v hv hold hnew := by
    have hgood := h.good (dir_ne_none hi)
    have hlt : v < PAGES := Nat.lt_trans hv (by decide)
    obtain ⟨B, ht, hB, -, hzero, -⟩ := (allocuvm_suits (E := fun _ => True) hgood (h.suits hi) newsz).of_ok hok
    have hdir : B.dir = (x.procs i).proc.pgdir := hB.elim (fun hB => hB.2.dir) fun hB => hB.2.dir
    rw [← (h.suits hi).dir, hgood.shows.pteOf_eq hlt] at hold
    rw [← hdir, ht.shows.pteOf_eq hlt] at hnew ⊢
    exact hzero v _ (Space.user_of_not hold) (Space.user_of_has hv hnew)

theorem Boots.keeps (h : Boots K x) : ∃ A, Keeps K x A := by
  obtain ⟨ncpu, init, s, t, hs, hmain, hpres⟩ := h
  rcases (main_runs (E := fun _ => True) _ _ hs (.inr fun _ => trivial)).of_ok hmain with ⟨hno, -⟩ | ⟨A, hA, -⟩
  · exact absurd hpres hno
  · exact ⟨A, hA⟩

theorem Boots.keeps_run (h : Boots K x) {calls : List (Nat × Call)} (hrun : run (step K) x calls = some y) :
    ∃ A, Keeps K y A := by
  refine run_invariant (I := fun _ z => ∃ A, Keeps K z A) h.keeps (fun _ z a z' hz hstep => ?_) hrun
  obtain ⟨A, hA⟩ := hz
  exact hA.step hstep

/-- Every page is in one place after every run. -/
theorem isolated_of_run (hboot : Boots K x) {calls : List (Nat × Call)} (hrun : run (step K) x calls = some y) :
    Isolated K y := by
  obtain ⟨A, hA⟩ := hboot.keeps_run hrun
  exact hA.isolated

/-! ### A start -/

/-- A machine with all its memory. -/
theorem boots_tiny : ∃ x A, Boots Kernel.tiny x ∧ Keeps Kernel.tiny x A ∧ (x.procs x.initproc).life = .live ∧
    (x.procs x.initproc).proc.sz = PGSIZE ∧ x.mem.denied = [] ∧ 55000 < x.mem.freelist.length := by
  have hmain := main_runs (K := Kernel.tiny) (s := ⟨fun _ => Bytes.zero, [], []⟩)
    (E := fun _ => False) 0 [] rfl (.inl ⟨rfl, rfl, by decide, by decide⟩)
  obtain ⟨x, t, hok, hx⟩ := hmain.answers
  rcases hx with ⟨-, hno⟩ | ⟨A, hA, hlive, hsz, hpres, hcalm, hfree⟩
  · exact (hno .fault).elim
  · exact ⟨x, A, ⟨0, [], _, t, rfl, hok, hpres⟩, hA, hlive, hsz, hcalm rfl, hfree⟩

theorem after_ok {α : Type} {m : M α} {k : α → System → System} {Q : α → State → Prop} (h : Runs m x.mem Q fun _ => False) :
    ∃ a t, Q a t ∧ x.after m k = some (k a {x with mem := t}) := by
  obtain ⟨a, t, hok, hQ⟩ := h.answers
  refine ⟨a, t, hQ, ?_⟩
  rw [System.after, hok]

/-- With enough free pages the process grows. -/
theorem growproc_grows (h : Good W s P) (hp : Suits P P p) (hn : 0 < n.toInt)
    (hlt : p.sz + n.toNat < KERNBASE) (hroom : ¬ W.Short (npages (p.sz + n.toNat) + 1026)) :
    Runs (growproc K p n) s (fun r _ => r.2 = {p with sz := p.sz + n.toNat}) E := by
  have hpos : p.sz + n.toNat ≠ 0 := by
    have := toInt_of_pos hn
    omega
  rw [growproc, if_pos hn, Nat.mod_eq_of_lt (Nat.lt_trans hlt (by decide))]
  refine (allocuvm_suits h hp _).bind fun r t hr => ?_
  obtain ⟨B, -, -, -, -, hr⟩ := hr
  obtain rfl : r = p.sz + n.toNat := (hr (Nat.le_add_right ..) hlt).resolve_right hroom
  rw [if_neg hpos]
  exact Runs.pure rfl

theorem run_sbrk_tiny : ∃ x y, Boots Kernel.tiny x ∧ run (step Kernel.tiny) x [(x.initproc, .sbrk 4096)] = some y ∧
    (y.procs x.initproc).life = .live ∧ (y.procs x.initproc).proc.sz = 2 * PGSIZE := by
  obtain ⟨x, A, hboot, hA, hlive, hsz, hcalm, hfree⟩ := boots_tiny
  have hi : (x.procs x.initproc).life ≠ .unused := by
    rw [hlive]
    exact fun hc => by cases hc
  have hroom : ¬ (hA.world (dir_ne_none hi)).Short
      (npages ((x.procs x.initproc).proc.sz + (4096 : BitVec 32).toNat) + 1026) := by
    intro hshort
    have hle := hshort.length_le hcalm hA.places.nodup fun _ hpa => .inl hpa
    rw [hsz, show npages (PGSIZE + (4096 : BitVec 32).toNat) = 2 from rfl] at hle
    omega
  obtain ⟨r, t, hr, hstep⟩ := after_ok (k := fun r => System.setProc x.initproc r.2)
    (growproc_grows (hA.good (dir_ne_none hi)) (hA.suits hi) (n := 4096) (by decide) (by rw [hsz]; decide) hroom)
  have hproc : (System.setProc x.initproc r.2 {x with mem := t}).procs x.initproc =
      {x.procs x.initproc with proc := r.2} :=
    update_self ..
  refine ⟨x, _, hboot, ?_, by rw [hproc]; exact hlive, ?_⟩
  · rw [run_singleton, step, if_pos hlive]
    exact hstep
  · rw [hproc, hr, hsz]
    rfl

/-- The first process grows by a page. -/
theorem isolated_sbrk_tiny : ∃ x y, Boots Kernel.tiny x ∧ run (step Kernel.tiny) x [(x.initproc, .sbrk 4096)] = some y ∧
    (y.procs x.initproc).proc.sz = 2 * PGSIZE ∧ Isolated Kernel.tiny y := by
  obtain ⟨x, y, hboot, hrun, -, hsz⟩ := run_sbrk_tiny
  exact ⟨x, y, hboot, hrun, hsz, isolated_of_run hboot hrun⟩

end Xv6.Vm
