import Xv6.Vm.Stack
import Xv6.Vm.System

/-! Every page is in one place.

`Keeps` gives each page directory of the system a space, and says that the pages of all spaces, the
kernel stacks, the pipes and the free pages are together the pages that were handed to `freerange`,
each of them once. An operation of one process works on its own pages and the free ones. -/
namespace Xv6.Vm
open Lib Function List

/-! ### Places -/

/-- Where a page may be. The directory `none` is that of the kernel. -/
inductive Place where
  | kstack (i : Nat)
  | space (d : Option Nat) (q : Slot)
  | pipe (j : Nat)
  | cpu (j : Nat)

/-- The pages of a page directory, as memory has them. -/
def slot (s : State) (pgdir : Nat) : Slot → Option Nat
  | .dir => some pgdir
  | .table i =>
    let pde := (s.page pgdir).word32 (4 * i)
    if i < NPDENTRIES ∧ has pde PTE_P then some (PTE_ADDR pde) else none
  | .page v => if v < USERPAGES ∧ has (pteOf s pgdir v) PTE_P then some (PTE_ADDR (pteOf s pgdir v)) else none
  | .hand => none

/-- The page directories. -/
def System.dir (x : System) : Option Nat → Option Nat
  | none => some x.kpgdir
  | some i => if (x.procs i).life = .unused then none else some (x.procs i).proc.pgdir

/-- The pages in use. -/
def System.places (x : System) : Place → Option Nat
  | .kstack i => if (x.procs i).life = .unused then none else some (x.procs i).kstack
  | .space d q => (x.dir d).bind fun pgdir => slot x.mem pgdir q
  | .pipe j => (x.pipes j).map Pipe.page
  | .cpu j => x.cpus[j]?

/-- The page is free, or in one place. -/
def System.InOnePlace (x : System) (pa : Nat) : Prop :=
  (pa ∈ x.mem.freelist ∧ ∀ q, x.places q ≠ some pa) ∨
  (pa ∉ x.mem.freelist ∧ ∃ q, x.places q = some pa ∧ ∀ r, x.places r = some pa → r = q)

variable {K : Kernel} {W : World K} {s t : State} {x y : System} {P B : Space} {A : Option Nat → Space} {E : Halt → Prop}
  {i : Nat} {d : Option Nat}

theorem slot_eq (h : Shows s.page P) (hh : P.hand = none) : slot s P.dir = P.held := by
  funext q
  cases q with
  | dir => rfl
  | hand => rw [Space.held, hh]; rfl
  | table i =>
    rw [slot, Space.held, Space.table]
    by_cases hi : i < NPDENTRIES
    · rw [h.pde hi]
    · rw [if_neg fun hc => hi hc.1, if_neg fun hc => hi hc.1]
  | page v =>
    rw [slot, Space.held, Space.user]
    by_cases hv : v < USERPAGES
    · rw [h.pteOf_eq (Nat.lt_trans hv (by decide))]
    · rw [if_neg fun hc => hv hc.1, if_neg fun hc => hv hc.1]

/-! ### The invariant -/

/-- The pages in use, by the spaces. -/
def System.holds (x : System) (A : Option Nat → Space) : Place → Option Nat
  | .kstack i => if (x.procs i).life = .unused then none else some (x.procs i).kstack
  | .space d q => (x.dir d).bind fun _ => (A d).held q
  | .pipe j => (x.pipes j).map Pipe.page
  | .cpu j => x.cpus[j]?

/-- The space of a page directory. -/
structure Fine (s : State) (pgdir : Nat) (A : Space) : Prop where
  dir : A.dir = pgdir
  hand : A.hand = none
  shows : Shows s.page A
  clean : A.Clean
  kernel : ∀ {v}, USERPAGES ≤ v → has (A.pte v) PTE_U = false

structure Keeps (K : Kernel) (x : System) (A : Option Nat → Space) : Prop where
  space : ∀ {d pgdir}, x.dir d = some pgdir → Fine x.mem pgdir (A d)
  size : ∀ {i}, (x.procs i).life ≠ .unused → (x.procs i).proc.sz < KERNBASE
  low : ∀ {i}, (x.procs i).life ≠ .unused → ∀ v, npages (x.procs i).proc.sz ≤ v → (A (some i)).user v = none
  places : Places (x.holds A) x.mem.freelist
  all : ∀ pa, Has (x.holds A) x.mem.freelist pa ↔ K.Pool pa

namespace Keeps

theorem places_eq (h : Keeps K x A) : x.places = x.holds A := by
  funext q
  cases q with
  | kstack i => rfl
  | pipe j => rfl
  | cpu j => rfl
  | space d q =>
    rw [System.places, System.holds]
    cases hd : x.dir d with
    | none => rfl
    | some pgdir =>
      have hfine := h.space hd
      show slot x.mem pgdir q = (A d).held q
      rw [← slot_eq hfine.shows hfine.hand, hfine.dir]

theorem inOnePlace (h : Keeps K x A) (hpa : K.Pool pa) : x.InOnePlace pa := by
  rw [System.InOnePlace, h.places_eq]
  rcases (h.all pa).mpr hpa with hfree | ⟨q, hq⟩
  · exact .inl ⟨hfree, fun q hq => h.places.apart hq hfree⟩
  · exact .inr ⟨h.places.apart hq, q, hq, fun r hr => h.places.once hr hq⟩

/-! ### The pages of one directory -/

theorem holds_space (hd : x.dir d ≠ none) (q : Slot) : x.holds A (.space d q) = (A d).held q := by
  rw [System.holds]
  cases hx : x.dir d with
  | none => exact absurd hx hd
  | some pgdir => rfl

/-- The pages of a directory and the free pages. -/
def world (h : Keeps K x A) (hd : x.dir d ≠ none) : World K where
  all := Has (A d).held x.mem.freelist
  base := x.mem.page
  calm := x.mem.denied = []
  pool {pa} hpa := by
    refine (h.all pa).mp ?_
    rcases hpa with hpa | ⟨q, hq⟩
    · exact .inl hpa
    · exact .inr ⟨.space d q, by rw [holds_space hd]; exact hq⟩

theorem good (h : Keeps K x A) (hd : x.dir d ≠ none) : Good (h.world hd) x.mem (A d) := by
  have hheld : ∀ {q pa}, (A d).held q = some pa → x.holds A (.space d q) = some pa := fun {q pa} hq => by
    rw [holds_space hd]
    exact hq
  obtain ⟨pgdir, hpgdir⟩ := Option.ne_none_iff_exists'.mp hd
  refine ⟨(h.space hpgdir).shows, ⟨fun hp hq => ?_, h.places.nodup, fun hp => h.places.apart (hheld hp)⟩, fun _ => Iff.rfl,
    fun _ => rfl, (h.space hpgdir).clean, id⟩
  have heq := h.places.once (hheld hp) (hheld hq)
  injection heq

end Keeps

/-! ### Operations -/

/-- What the operation has placed anew are the pages of the places in `S` and the free ones; nothing else was
written to. -/
theorem Keeps.change (h : Keeps K x A) (S : Place → Prop)
    (hsame : ∀ q, ¬ S q → y.holds C q = x.holds A q)
    (honce : ∀ {p q pa}, S p → S q → y.holds C p = some pa → y.holds C q = some pa → p = q)
    (hnodup : y.mem.freelist.Nodup) (hapart : ∀ {p pa}, S p → y.holds C p = some pa → pa ∉ y.mem.freelist)
    (hall : ∀ pa, (pa ∈ y.mem.freelist ∨ ∃ p, S p ∧ y.holds C p = some pa) ↔
      pa ∈ x.mem.freelist ∨ ∃ p, S p ∧ x.holds A p = some pa)
    (hpage : ∀ pa, ¬ (pa ∈ x.mem.freelist ∨ ∃ p, S p ∧ x.holds A p = some pa) → y.mem.page pa = x.mem.page pa)
    (hspace : ∀ {d pgdir}, y.dir d = some pgdir →
      (x.dir d = some pgdir ∧ C d = A d ∧ ∀ q, ¬ S (.space d q)) ∨ Fine y.mem pgdir (C d))
    (hlow : ∀ {i}, (y.procs i).life ≠ .unused → (y.procs i).proc.sz < KERNBASE ∧
      ∀ v, npages (y.procs i).proc.sz ≤ v → (C (some i)).user v = none) : Keeps K y C where
  space {d pgdir} hd := by
    rcases hspace hd with ⟨hx, hC, hS⟩ | hfine
    · have hfine := h.space hx
      rw [hC]
      refine ⟨hfine.dir, hfine.hand, hfine.shows.congr fun q pa hq => hpage pa ?_, hfine.clean, hfine.kernel⟩
      have hheld : x.holds A (.space d q) = some pa := by
        rw [holds_space (by rw [hx]; exact Option.some_ne_none _)]
        exact hq
      rintro (hfree | ⟨p, hp, hpa⟩)
      · exact h.places.apart hheld hfree
      · exact hS q (h.places.once hheld hpa ▸ hp)
    · exact hfine
  size hi := (hlow hi).1
  low hi := (hlow hi).2
  places := h.places.change hsame honce hnodup hapart fun pa => (hall pa).mp
  all pa := (has_change hsame hall).trans (h.all pa)

/-! ### One process -/

/-- The pages of a process: its kernel stack and those of its space. -/
def Task.held (p : Task) (B : Space) : Option Slot → Option Nat
  | none => if p.life = .unused then none else some p.kstack
  | some q => if p.life = .unused then none else B.held q

/-- Where they are. -/
def Place.ofTask (i : Nat) : Option Slot → Place
  | none => .kstack i
  | some q => .space (some i) q

theorem holds_ofTask (q : Option Slot) : x.holds A (.ofTask i q) = (x.procs i).held (A (some i)) q := by
  cases q with
  | none => rfl
  | some q =>
    show (x.dir (some i)).bind _ = _
    rw [System.dir, Task.held]
    split
    · rfl
    · rfl

/-- The entry `i` of the process table, with what belongs to it, is changed. -/
theorem Keeps.setTask (h : Keeps K x A) (hplaces : Places (p.held B) t.freelist)
    (hall : ∀ pa, Has (p.held B) t.freelist pa ↔ Has ((x.procs i).held (A (some i))) x.mem.freelist pa)
    (hpage : ∀ pa, ¬ Has ((x.procs i).held (A (some i))) x.mem.freelist pa → t.page pa = x.mem.page pa)
    (hfine : p.life ≠ .unused → Fine t p.proc.pgdir B ∧ p.proc.sz < KERNBASE ∧
      ∀ v, npages p.proc.sz ≤ v → B.user v = none) :
    Keeps K {x with mem := t, procs := update x.procs i p} (update A (some i) B) := by
  generalize hy : ({x with mem := t, procs := update x.procs i p} : System) = y
  have hmem : y.mem = t := by rw [← hy]
  have hself : y.procs i = p := by rw [← hy]; exact update_self ..
  have hproc : ∀ {j}, j ≠ i → y.procs j = x.procs j := fun hj => by rw [← hy]; exact update_of_ne hj ..
  have hdir : ∀ {d}, d ≠ some i → y.dir d = x.dir d := fun {d} hd => by
    cases d with
    | none => rw [← hy]; rfl
    | some j => rw [System.dir, System.dir, hproc fun he => hd (by rw [he])]
  have hnew : ∀ q, y.holds (update A (some i) B) (.ofTask i q) = p.held B q := fun q => by
    rw [holds_ofTask, hself, update_self]
  have hin : ∀ (f : Place → Option Nat) (g : Option Slot → Option Nat) (l : List Nat) (pa : Nat), (∀ q, f (.ofTask i q) = g q) →
      ((pa ∈ l ∨ ∃ a, (∃ q, a = .ofTask i q) ∧ f a = some pa) ↔ Has g l pa) := fun f g l pa hfg => by
    refine or_congr Iff.rfl ⟨?_, ?_⟩
    · rintro ⟨_, ⟨q, rfl⟩, hq⟩
      exact ⟨q, by rw [← hfg]; exact hq⟩
    · rintro ⟨q, hq⟩
      exact ⟨_, ⟨q, rfl⟩, by rw [hfg]; exact hq⟩
  refine h.change (fun a => ∃ q, a = .ofTask i q) (fun a ha => ?_) ?_ (hmem ▸ hplaces.nodup) ?_ (fun pa => ?_)
    (fun pa hpa => ?_) ?_ ?_
  · cases a with
    | kstack j =>
      have hj : j ≠ i := fun he => ha ⟨none, by rw [he]; rfl⟩
      rw [System.holds, System.holds, hproc hj]
    | pipe j => rw [← hy]; rfl
    | cpu j => rw [← hy]; rfl
    | space d q =>
      have hd : d ≠ some i := fun he => ha ⟨some q, by rw [he]; rfl⟩
      rw [System.holds, System.holds, hdir hd, update_of_ne hd]
  · rintro _ _ pa ⟨q, rfl⟩ ⟨r, rfl⟩ hq hr
    rw [hnew] at hq hr
    rw [hplaces.once hq hr]
  · rintro _ pa ⟨q, rfl⟩ hq
    rw [hnew] at hq
    rw [hmem]
    exact hplaces.apart hq
  · rw [hin _ _ _ pa hnew, hin _ _ _ pa holds_ofTask, hmem]
    exact hall pa
  · rw [hin _ _ _ pa holds_ofTask] at hpa
    rw [hmem]
    exact hpage pa hpa
  · intro d pgdir hd
    by_cases he : d = some i
    · rw [he, System.dir, hself] at hd
      split at hd
      · cases hd
      · rename_i hlife
        rw [he, update_self, hmem, ← Option.some.inj hd]
        exact .inr (hfine hlife).1
    · rw [update_of_ne he]
      refine .inl ⟨by rw [← hdir he]; exact hd, rfl, ?_⟩
      rintro q ⟨r, hr⟩
      cases r with
      | none => cases hr
      | some r =>
        injection hr with hr
        exact he hr
  · intro j hj
    by_cases he : j = i
    · rw [he, hself] at hj ⊢
      rw [update_self]
      exact (hfine hj).2
    · rw [hproc he] at hj ⊢
      rw [update_of_ne fun hc => he (Option.some.inj hc)]
      exact ⟨h.size hj, h.low hj⟩

theorem Task.held_unused {p : Task} (hp : p.life = .unused) (B : Space) : p.held B = fun _ => none := by
  funext q
  cases q with
  | none => rw [held, if_pos hp]
  | some q => rw [held, if_pos hp]

theorem Task.held_some {p : Task} (hp : p.life ≠ .unused) (q : Slot) : p.held B (some q) = B.held q := by
  rw [held, if_neg hp]

theorem Task.held_none {p : Task} (hp : p.life ≠ .unused) : p.held B none = some p.kstack := by
  rw [held, if_neg hp]

/-- A kernel stack beside the pages of a space. -/
theorem Task.has_held {p : Task} (hp : p.life ≠ .unused) {l : List Nat} {pa : Nat} :
    Has (p.held B) l pa ↔ pa = p.kstack ∨ Has B.held l pa := by
  constructor
  · rintro (hl | ⟨q, hq⟩)
    · exact .inr (.inl hl)
    · cases q with
      | none =>
        rw [held_none hp] at hq
        exact .inl (Option.some.inj hq).symm
      | some q =>
        rw [held_some hp] at hq
        exact .inr (.inr ⟨q, hq⟩)
  · rintro (rfl | hl | ⟨q, hq⟩)
    · exact .inr ⟨none, held_none hp⟩
    · exact .inl hl
    · exact .inr ⟨some q, by rw [held_some hp]; exact hq⟩

theorem Task.places {p : Task} (hp : p.life ≠ .unused) {l : List Nat} (h : Places B.held l) (hk : ¬ Has B.held l p.kstack) :
    Places (p.held B) l := by
  have hne : ∀ {q pa}, p.held B none = some pa → p.held B (some q) ≠ some pa := fun {q pa} hn hq => by
    rw [held_none hp] at hn
    rw [held_some hp, ← Option.some.inj hn] at hq
    exact hk (.inr ⟨q, hq⟩)
  refine ⟨fun {q r pa} hq hr => ?_, h.nodup, fun {q pa} hq => ?_⟩
  · cases q with
    | none =>
      cases r with
      | none => rfl
      | some r => exact absurd hr (hne hq)
    | some q =>
      cases r with
      | none => exact absurd hq (hne hr)
      | some r =>
        rw [held_some hp] at hq hr
        rw [h.once hq hr]
  · cases q with
    | none =>
      rw [held_none hp] at hq
      rw [← Option.some.inj hq]
      exact fun hl => hk (.inl hl)
    | some q =>
      rw [held_some hp] at hq
      exact h.apart hq

theorem dir_ne_none (hi : (x.procs i).life ≠ .unused) : x.dir (some i) ≠ none := by
  rw [System.dir, if_neg hi]
  exact Option.some_ne_none _

/-- The kernel stack of a process is none of its pages, and not free. -/
theorem Keeps.kstack (h : Keeps K x A) (hi : (x.procs i).life ≠ .unused) :
    ¬ Has (A (some i)).held x.mem.freelist (x.procs i).kstack := by
  have hk : x.holds A (.kstack i) = some (x.procs i).kstack := if_neg hi
  rintro (hl | ⟨q, hq⟩)
  · exact h.places.apart hk hl
  · have heq := h.places.once hk (q := .space (some i) q) (by rw [holds_space (dir_ne_none hi)]; exact hq)
    cases heq

theorem Keeps.setSpace (h : Keeps K x A) (hi : (x.procs i).life ≠ .unused)
    (ht : Good (h.world (dir_ne_none hi)) t B) {p : Proc} (hdir : B.dir = p.pgdir) (hhand : B.hand = none)
    (hkernel : ∀ {v}, USERPAGES ≤ v → has (B.pte v) PTE_U = false) (hsz : p.sz < KERNBASE)
    (hlow : ∀ v, npages p.sz ≤ v → B.user v = none) :
    Keeps K (System.setProc i p {x with mem := t}) (update A (some i) B) := by
  have hp : ({x.procs i with proc := p} : Task).life ≠ .unused := hi
  have hk : ¬ Has B.held t.freelist (x.procs i).kstack := fun hc => h.kstack hi ((ht.all _).mp hc)
  refine h.setTask (p := {x.procs i with proc := p}) (Task.places hp ht.places hk) (fun pa => ?_) (fun pa hpa => ht.same ?_)
    fun _ => ⟨⟨hdir, hhand, ht.shows, ht.clean, hkernel⟩, hsz, hlow⟩
  · rw [Task.has_held hp, Task.has_held hi]
    exact or_congr Iff.rfl (ht.all pa)
  · rw [Task.has_held hi] at hpa
    exact fun hc => hpa (.inr hc)

/-! ### `growproc` -/

/-- `B` is a space for the process `p`, with the kernel part of `P`. -/
structure Suits (P B : Space) (p : Proc) : Prop where
  dir : B.dir = p.pgdir
  hand : B.hand = none
  kernel : ∀ {v}, USERPAGES ≤ v → B.pte v = P.pte v
  sz : p.sz < KERNBASE
  low : ∀ v, npages p.sz ≤ v → B.user v = none

theorem Space.user_congr (h : B.pte v = P.pte v) : B.user v = P.user v := by rw [user, user, h]

theorem Suits.of_undone (h : Suits P P p) (hB : Undone P B lo hi) : Suits P B p where
  dir := hB.spread.dir.trans h.dir
  hand := hB.hand
  kernel _ := congrFun hB.pte _
  sz := h.sz
  low v hv := (Space.user_congr (congrFun hB.pte v)).trans (h.low v hv)

/-- `allocuvm` for a process: the pages that are new are zero. -/
theorem allocuvm_suits (h : Good W s P) (hp : Suits P P p) (newsz : Nat) :
    Runs (allocuvm K p.pgdir p.sz newsz) s (fun r t => ∃ B, Good W t B ∧
      (r = 0 ∧ Suits P B p ∨ r ≠ 0 ∧ Suits P B {p with sz := r}) ∧
      (∀ v, v < npages p.sz → B.pte v = P.pte v) ∧
      (∀ v pa, P.user v = none → B.user v = some pa → t.page pa = Bytes.zero) ∧
      (p.sz ≤ newsz → newsz < KERNBASE → r = newsz ∨ W.Short (npages newsz + 1026))) E := by
  have hnone : ∀ v pa, P.user v = none → P.user v = some pa → s.page pa = Bytes.zero := fun v pa hv hpa => by
    rw [hv] at hpa
    cases hpa
  by_cases hmax : KERNBASE ≤ newsz
  · rw [allocuvm, if_pos hmax]
    exact Runs.pure ⟨P, h, .inl ⟨rfl, hp⟩, fun _ _ => rfl, hnone, fun _ hlt => absurd hmax (Nat.not_le.mpr hlt)⟩
  by_cases hle : newsz < p.sz
  · rw [allocuvm, if_neg hmax, if_pos hle]
    exact Runs.pure ⟨P, h, .inr ⟨by omega, hp⟩, fun _ _ => rfl, hnone, fun hge => absurd hge (Nat.not_le.mpr hle)⟩
  have hnew : ∀ v, npages p.sz ≤ v → v < npages newsz → P.pte v = 0 := fun v hlo hhi => by
    refine h.clean _ (Bool.eq_false_iff.mpr fun hpres => ?_)
    have huser := Space.user_of_has (Nat.lt_of_lt_of_le hhi (npages_le (Nat.le_of_not_le hmax))) hpres
    rw [hp.low v hlo] at huser
    cases huser
  have halloc := allocuvm_runs (E := E) h hp.hand (Nat.lt_of_not_le hmax) (Nat.le_of_not_lt hle) hnew
  rw [hp.dir] at halloc
  refine halloc.post fun r t hr => ?_
  rcases hr with ⟨rfl, ⟨B, ht, hB⟩, hshort⟩ | ⟨rfl, B, ht, hB⟩
  · refine ⟨B, ht, .inl ⟨rfl, hp.of_undone hB⟩, fun v _ => congrFun hB.pte v, fun v pa hv hpa => ?_, fun hge _ => .inr (hshort ?_)⟩
    · rw [Space.user_congr (congrFun hB.pte v), hv] at hpa
      cases hpa
    · exact fun v hv => hp.low v (Nat.le_trans (npages_mono hge) hv)
  · have hsuits : Suits P B {p with sz := r} := by
      refine ⟨hB.spread.dir.trans hp.dir, hB.hand, fun {v} hv => hB.pte_other (.inr ?_), Nat.lt_of_not_le hmax, fun v hv => ?_⟩
      · exact Nat.le_trans (npages_le (Nat.le_of_not_le hmax)) hv
      · rw [Space.user_congr (hB.pte_other (.inr hv))]
        exact hp.low v (Nat.le_trans (npages_mono (Nat.le_of_not_lt hle)) hv)
    refine ⟨B, ht, ?_, fun v hv => hB.pte_other (.inl hv), fun v pa hv hpa => ?_, fun _ _ => .inl rfl⟩
    · by_cases h0 : r = 0
      · have hsz : p.sz = r := by omega
        exact .inl ⟨h0, by rw [← hsz] at hsuits; exact hsuits⟩
      · exact .inr ⟨h0, hsuits⟩
    · by_cases hin : npages p.sz ≤ v ∧ v < npages r
      · rw [ht.shows.mem hpa, hB.mem hin.1 hin.2]
      · rw [Space.user_congr (hB.pte_other (by omega)), hv] at hpa
        cases hpa

theorem growproc_suits (h : Good W s P) (hp : Suits P P p) (n : BitVec 32) :
    Runs (growproc K p n) s (fun r t => ∃ B, Good W t B ∧ Suits P B r.2) E := by
  rw [growproc]
  refine Runs.ite (fun hn => ?_) fun _ => Runs.ite (fun hn => ?_) fun _ => Runs.pure ⟨P, h, hp⟩
  · refine (allocuvm_suits h hp _).bind fun r t hr => ?_
    obtain ⟨B, ht, ⟨rfl, hB⟩ | ⟨h0, hB⟩, -⟩ := hr
    · exact Runs.pure ⟨B, ht, hB⟩
    · rw [if_neg h0]
      exact Runs.pure ⟨B, ht, hB⟩
  · generalize (p.sz + n.toNat) % 2 ^ 32 = newsz
    by_cases hle : p.sz ≤ newsz
    · rw [deallocuvm, if_pos hle]
      exact Runs.bind_ok rfl (Runs.ite (fun _ => Runs.pure ⟨P, h, hp⟩) fun _ => Runs.pure ⟨P, h, hp⟩)
    have hlt : newsz < p.sz := Nat.lt_of_not_le hle
    have hdealloc := deallocuvm_runs (E := E) h (Nat.le_of_lt hp.sz) hlt
    rw [hp.dir] at hdealloc
    refine hdealloc.bind fun r t hr => ?_
    obtain ⟨rfl, ht⟩ := hr
    have hpages := npages_le (Nat.le_of_lt hp.sz)
    have hpte : ∀ v, (P.cut (npages r) (npages p.sz)).pte v = if npages r ≤ v ∧ v < npages p.sz then 0 else P.pte v :=
      fun _ => rfl
    have hcut : ∀ v, npages r ≤ v → (P.cut (npages r) (npages p.sz)).user v = none := fun v hv => by
      by_cases hin : v < npages p.sz
      · exact Space.user_of_not (by rw [hpte, if_pos ⟨hv, hin⟩, has_zero])
      · have hsame : (P.cut (npages r) (npages p.sz)).pte v = P.pte v := by rw [hpte, if_neg fun hc => hin hc.2]
        exact (Space.user_congr hsame).trans (hp.low v (Nat.le_of_not_lt hin))
    have hsuits : ∀ {q : Proc}, q.pgdir = p.pgdir → q.sz < KERNBASE → npages r ≤ npages q.sz →
        Suits P (P.cut (npages r) (npages p.sz)) q := fun hq hsz hle =>
      ⟨hp.dir.trans hq.symm, hp.hand, fun {v} hv => by rw [hpte, if_neg (by omega)], hsz,
        fun v hv => hcut v (Nat.le_trans hle hv)⟩
    refine Runs.ite (fun _ => Runs.pure ⟨_, ht, hsuits rfl hp.sz (npages_mono (Nat.le_of_lt hlt))⟩) fun _ => ?_
    exact Runs.pure ⟨_, ht, hsuits rfl (Nat.lt_trans hlt hp.sz) (Nat.le_refl _)⟩

/-! ### The system calls -/

theorem setPipe_self : (x.setPipe j p).pipes j = p := update_self ..

theorem setPipe_of_ne (hk : k ≠ j) : (x.setPipe j p).pipes k = x.pipes k :=
  update_of_ne hk ..

theorem after_eq {α : Type} {m : M α} {k : α → System → System} {Q : α → State → Prop} (h : x.after m k = some y)
    (hm : Runs m x.mem Q E) : ∃ a t, Q a t ∧ y = k a {x with mem := t} := by
  rw [System.after] at h
  cases hx : m x.mem with
  | error e =>
    rw [hx] at h
    cases h
  | ok r =>
    rw [hx] at h
    exact ⟨r.1, r.2, hm.of_ok hx, (Option.some.inj h).symm⟩

theorem writeUser_runs (h : Good W s P) (hdir : P.dir = pgdir)
    (hv : (v < USERPAGES ∧ has (P.pte v) PTE_P = true) ∨ E .fault) :
    Runs (writeUser pgdir v b) s (fun _ t => Good W t (P.setMem v b) ∧ t.freelist = s.freelist) E := by
  refine Runs.bind_get ?_
  by_cases hlt : v < USERPAGES
  · have hpte := h.shows.pteOf_eq (Nat.lt_trans hlt (show USERPAGES < PAGES by decide))
    rw [← hdir, hpte]
    refine Runs.ite (fun hp => ⟨h.setMem_page (Space.user_of_has hp.1 hp.2) b, rfl⟩) fun hp => Runs.throw ?_
    exact hv.resolve_left fun hc => hp hc
  · rw [if_neg fun hc => hlt hc.1]
    exact Runs.throw (hv.resolve_left fun hc => hlt hc.1)

namespace Keeps

theorem suits (h : Keeps K x A) (hi : (x.procs i).life ≠ .unused) :
    Suits (A (some i)) (A (some i)) (x.procs i).proc := by
  have hfine := h.space (d := some i) (by rw [System.dir, if_neg hi])
  exact ⟨hfine.dir, hfine.hand, fun _ => rfl, h.size hi, h.low hi⟩

theorem kernel (h : Keeps K x A) (hi : (x.procs i).life ≠ .unused) (hv : USERPAGES ≤ v) :
    has ((A (some i)).pte v) PTE_U = false :=
  (h.space (d := some i) (by rw [System.dir, if_neg hi])).kernel hv

theorem growproc (h : Keeps K x A) (hi : (x.procs i).life ≠ .unused)
    (hy : x.after (growproc K (x.procs i).proc n) (fun r => System.setProc i r.2) = some y) : ∃ C, Keeps K y C := by
  obtain ⟨r, t, ⟨B, ht, hB⟩, rfl⟩ := after_eq (E := fun _ => True) hy (growproc_suits (h.good (dir_ne_none hi)) (h.suits hi) n)
  exact ⟨_, h.setSpace hi ht hB.dir hB.hand (fun hv => by rw [hB.kernel hv]; exact h.kernel hi hv) hB.sz hB.low⟩

theorem exec (h : Keeps K x A) (hi : (x.procs i).life ≠ .unused) {P : Program}
    (hargv : ∀ arg ∈ P.argv, arg.length < (x.procs i).proc.sz)
    (hy : x.after (exec K (x.procs i).proc P.path P.file P.argv) (fun r => System.setProc i r.2) = some y) :
    ∃ C, Keeps K y C := by
  have hsuits := h.suits hi
  have hshort : ∀ arg ∈ P.argv, arg.length < 2 ^ 31 := fun arg harg => Nat.lt_trans (hargv arg harg) hsuits.sz
  obtain ⟨r, t, hr, rfl⟩ := after_eq hy
    (exec_runs _ (h.good (dir_ne_none hi)) hsuits.dir hsuits.hand P.size rfl P.count hshort)
  rcases hr with ⟨rfl, ht, -⟩ | ⟨-, hsz, -, -, -, B, ht, hdir, hready⟩
  · exact ⟨_, h.setSpace hi ht hsuits.dir hsuits.hand (h.kernel hi) hsuits.sz hsuits.low⟩
  · refine ⟨_, h.setSpace hi ht hdir.symm hready.hand hready.kernel.user (hsz ▸ hready.lt) fun v hv => ?_⟩
    rw [hsz, npages_mul] at hv
    by_cases hlt : v < USERPAGES
    · exact Space.user_of_not (by rw [hready.rest hv hlt, has_zero])
    · exact if_neg fun hc => hlt hc.1

theorem write (h : Keeps K x A) (hi : (x.procs i).life ≠ .unused)
    (hy : x.after (writeUser (x.procs i).proc.pgdir v b) (fun _ z => z) = some y) : ∃ C, Keeps K y C := by
  have hsuits := h.suits hi
  obtain ⟨_, t, ⟨ht, -⟩, rfl⟩ := after_eq (E := fun _ => True) hy
    (writeUser_runs (h.good (dir_ne_none hi)) hsuits.dir (.inr trivial))
  have hset := h.setSpace hi ht hsuits.dir hsuits.hand (h.kernel hi) hsuits.sz hsuits.low
  rw [System.setProc, show ({x.procs i with proc := (x.procs i).proc} : Task) = x.procs i from rfl, update_eq_self] at hset
  exact ⟨_, hset⟩

theorem free (h : Keeps K x A) (hnodup : t.freelist.Nodup) (hfree : ∀ pa, pa ∈ t.freelist ↔ pa ∈ x.mem.freelist)
    (hpage : ∀ pa, pa ∉ x.mem.freelist → t.page pa = x.mem.page pa) : Keeps K {x with mem := t} A := by
  refine h.change (fun _ => False) (fun a _ => ?_) (fun hp => hp.elim) hnodup (fun hp => hp.elim) (fun pa => ?_) (fun pa hpa => ?_)
    (fun {d pgdir} hd => .inl ⟨?_, rfl, fun _ hf => hf⟩) fun hj => ⟨h.size hj, h.low hj⟩
  · cases a with
    | kstack j => rfl
    | pipe j => rfl
    | cpu j => rfl
    | space d q => cases d <;> rfl
  · exact or_congr (hfree pa) ⟨fun ⟨_, hf, _⟩ => hf.elim, fun ⟨_, hf, _⟩ => hf.elim⟩
  · exact hpage pa fun hf => hpa (.inl hf)
  · cases d <;> exact hd

theorem pool (h : Keeps K x A) (hpa : pa ∈ x.mem.freelist) : K.Pool pa := (h.all pa).mp (.inl hpa)

/-- A page was taken from the free list. -/
theorem fork_alloc (h : Keeps K x A) {kstack : Nat} {freelist : List Nat} (hf : x.mem.freelist = kstack :: freelist)
    {denied : List Bool} {cur : Nat} (hcur : (x.procs cur).life ≠ .unused) (hi : (x.procs i).life = .unused) :
    Runs (do
      let r ← copyuvm K (x.procs cur).proc.pgdir (x.procs cur).proc.sz
      match r with
      | none => do
        kfree K kstack
        pure (none, x.procs)
      | some pgdir => pure (some i, update x.procs i
          ⟨.live, kstack, {(x.procs cur).proc with pgdir := pgdir}, some cur⟩) : M (Option Nat × Table))
      {x.mem with freelist := freelist, denied := denied}
      (fun r t => ∃ C, Keeps K {x with mem := t, procs := r.2} C) fun _ => True := by
  have hsuits := h.suits hcur
  have hnodup := h.places.nodup
  rw [hf] at hnodup
  obtain ⟨hnot, hnodup⟩ := nodup_cons.mp hnodup
  have hmem : ∀ {pa}, pa ∈ freelist → pa ∈ x.mem.freelist := fun hpa => hf ▸ mem_cons_of_mem _ hpa
  have hpool : ∀ pa ∈ freelist, K.Pool pa := fun pa hpa => h.pool (hmem hpa)
  have hbare : Bare (State.freeWorld {x.mem with freelist := freelist, denied := denied} hpool)
      {x.mem with freelist := freelist, denied := denied} := State.bare hnodup hpool
  have hbeside : Beside (State.freeWorld {x.mem with freelist := freelist, denied := denied} hpool) (A (some cur)) :=
    ⟨(h.good (dir_ne_none hcur)).shows, fun hq hpa => (h.good (dir_ne_none hcur)).places.apart hq (hmem hpa)⟩
  have hunused := Task.held_unused hi (A (some i))
  rw [← hsuits.dir]
  refine (copyuvm_runs hbare hbeside (Nat.le_of_lt hsuits.sz) (.inr ⟨trivial, trivial⟩)).bind fun r u hr => ?_
  rcases hr with ⟨rfl, hu, -⟩ | ⟨D, B, rfl, hu, hcopies, hkernel, hclear⟩
  · refine (kfree_runs (h.pool (hf ▸ mem_cons_self ..)) u).bind fun _ v hv => Runs.pure ⟨A, ?_⟩
    subst hv
    refine h.free (nodup_cons.mpr ⟨fun hc => hnot ((hu.all _).mp hc), hu.nodup⟩) (fun pa => ?_) fun pa hpa => ?_
    · rw [hf, State.freed, mem_cons, mem_cons]
      exact or_congr Iff.rfl (hu.all pa)
    · have hne : pa ≠ kstack := fun he => hpa (by rw [he, hf]; exact mem_cons_self ..)
      exact (State.put_page_of_ne hne).trans (hu.same fun hc => hpa (hmem hc))
  · have hlife : (⟨.live, kstack, {(x.procs cur).proc with pgdir := B.dir}, some cur⟩ : Task).life ≠ .unused :=
      fun hc => by cases hc
    have hk : ¬ Has B.held u.freelist kstack := fun hc => hnot ((hu.all _).mp hc)
    refine Runs.pure ⟨_, h.setTask (Task.places hlife hu.places hk) (fun pa => ?_) (fun pa hpa => ?_) fun _ => ⟨?_, hsuits.sz, ?_⟩⟩
    · rw [Task.has_held hlife, hunused, hu.all pa]
      show pa = kstack ∨ pa ∈ freelist ↔ Has _ x.mem.freelist pa
      rw [hf, has_none, mem_cons]
    · exact hu.same fun hc => hpa (.inl (hmem hc))
    · refine ⟨rfl, hcopies.hand, hu.shows, hu.clean, fun {v} hv => ?_⟩
      rw [hcopies.pte_other (.inr (Nat.le_trans (npages_le (Nat.le_of_lt hsuits.sz)) hv))]
      exact hkernel.user hv
    · intro v hv
      by_cases hlt : v < USERPAGES
      · exact Space.user_of_not (by rw [hcopies.pte_other (.inr hv), hclear v hlt, has_zero])
      · exact if_neg fun hc => hlt hc.1

theorem fork (h : Keeps K x A) (hi : (x.procs i).life ≠ .unused)
    (hy : x.after (fork K x.procs i) (fun r z => {z with procs := r.2}) = some y) : ∃ C, Keeps K y C := by
  have hfork : Runs (Vm.fork K x.procs i) x.mem (fun r t => ∃ C, Keeps K {x with mem := t, procs := r.2} C) fun _ => True := by
    rw [Vm.fork, allocproc]
    cases hfind : (List.range NPROC).find? fun j => (x.procs j).life = .unused with
    | none => exact Runs.pure ⟨A, h⟩
    | some np =>
      have hfound := List.find?_some hfind
      have hnp : (x.procs np).life = .unused := of_decide_eq_true hfound
      dsimp only
      rw [bind_assoc]
      refine (kalloc_runs x.mem).bind fun r t hr => ?_
      rcases hr with ⟨rfl, denied, rfl, -⟩ | ⟨kstack, freelist, denied, rfl, hf, rfl, -⟩
      · exact Runs.pure ⟨A, h.free h.places.nodup (fun _ => Iff.rfl) fun _ _ => rfl⟩
      · exact h.fork_alloc hf hi hnp
  obtain ⟨r, t, hC, rfl⟩ := after_eq hy hfork
  exact hC

/-- The kernel stack of a process is freed first. -/
theorem good_freed (h : Keeps K x A) (hi : (x.procs i).life ≠ .unused) :
    ∃ W : World K, Good W (x.mem.freed (x.procs i).kstack) (A (some i)) ∧ W.base = (x.mem.freed (x.procs i).kstack).page ∧
      ∀ pa, W.all pa ↔ pa = (x.procs i).kstack ∨ Has (A (some i)).held x.mem.freelist pa := by
  have hgood := h.good (dir_ne_none hi)
  have hk := h.kstack hi
  have hpool : K.Pool (x.procs i).kstack := (h.all _).mp (.inr ⟨.kstack i, if_neg hi⟩)
  refine ⟨⟨fun pa => pa = (x.procs i).kstack ∨ Has (A (some i)).held x.mem.freelist pa, (x.mem.freed (x.procs i).kstack).page,
    False, fun {pa} hpa => ?_⟩, ⟨?_, ?_, fun pa => ?_, fun _ => rfl, hgood.clean, False.elim⟩, rfl, fun _ => Iff.rfl⟩
  · rcases hpa with rfl | hpa
    · exact hpool
    · exact (h.world (dir_ne_none hi)).pool hpa
  · exact hgood.shows.put (fun q hq => hk (.inr ⟨q, hq⟩)) _
  · refine ⟨hgood.places.once, nodup_cons.mpr ⟨fun hc => hk (.inl hc), hgood.places.nodup⟩, fun {q pa} hq hpa => ?_⟩
    rcases mem_cons.mp hpa with rfl | hpa
    · exact hk (.inr ⟨q, hq⟩)
    · exact hgood.places.apart hq hpa
  · show pa ∈ (x.procs i).kstack :: x.mem.freelist ∨ _ ↔ _
    rw [mem_cons, or_assoc]
    rfl

theorem wait (h : Keeps K x A) (hy : x.after (wait K x.procs i) (fun r z => {z with procs := r.2}) = some y) :
    ∃ C, Keeps K y C := by
  have hwait : Runs (Vm.wait K x.procs i) x.mem (fun r t => ∃ C, Keeps K {x with mem := t, procs := r.2} C) fun _ => True := by
    rw [Vm.wait]
    cases hfind : zombie x.procs i with
    | none => exact Runs.pure ⟨A, h⟩
    | some j =>
      have hfound := List.find?_some hfind
      have hj : (x.procs j).life ≠ .unused := by
        rw [(of_decide_eq_true hfound).2]
        exact fun hc => by cases hc
      have hpool : K.Pool (x.procs j).kstack := (h.all _).mp (.inr ⟨.kstack j, if_neg hj⟩)
      obtain ⟨W, hW, hbase, hall⟩ := h.good_freed hj
      refine (kfree_runs hpool x.mem).bind fun _ t ht => ?_
      subst ht
      rw [← (h.suits hj).dir]
      refine (freevm_runs hW (h.suits hj).hand).bind fun _ u hu => Runs.pure ⟨update A (some j) (A (some j)), ?_⟩
      have hnone := Task.held_unused (p := {x.procs j with life := .unused, parent := none}) rfl (A (some j))
      refine h.setTask ?_ (fun pa => ?_) (fun pa hpa => ?_) fun hc => absurd rfl hc
      · rw [hnone]
        exact ⟨fun hq => (by cases hq), hu.nodup, fun hq => (by cases hq)⟩
      · rw [hnone, Task.has_held hj, ← hall pa, ← hu.all pa]
        exact ⟨fun hpa => hpa.elim id fun ⟨_, hq⟩ => (by cases hq), .inl⟩
      · rw [Task.has_held hj, ← hall pa] at hpa
        have hne : pa ≠ (x.procs j).kstack := fun he => hpa ((hall pa).mpr (.inl he))
        rw [hu.same hpa, hbase]
        exact State.put_page_of_ne hne
  obtain ⟨r, t, hC, rfl⟩ := after_eq hy hwait
  exact hC

/-- Which entries are in use and what belongs to them is the same. -/
theorem congr (h : Keeps K x A) (hlife : ∀ j, (procs j).life = .unused ↔ (x.procs j).life = .unused)
    (hkstack : ∀ j, (procs j).kstack = (x.procs j).kstack) (hproc : ∀ j, (procs j).proc = (x.procs j).proc) :
    Keeps K {x with procs := procs} A := by
  have hdir : System.dir {x with procs := procs} = x.dir := funext fun d => by
    cases d with
    | none => rfl
    | some j =>
      rw [System.dir, System.dir]
      exact if_congr (hlife j) rfl (by rw [hproc])
  have hholds : System.holds {x with procs := procs} A = x.holds A := funext fun a => by
    cases a with
    | kstack j =>
      rw [System.holds, System.holds]
      exact if_congr (hlife j) rfl (by rw [hkstack])
    | pipe j => rfl
    | cpu j => rfl
    | space d q => rw [System.holds, System.holds, hdir]
  refine ⟨fun hd => h.space (by rw [← hdir]; exact hd), fun {j} hj => ?_, fun {j} hj => ?_, by rw [hholds]; exact h.places,
    by rw [hholds]; exact h.all⟩
  · show (procs j).proc.sz < KERNBASE
    rw [hproc]
    exact h.size (mt (hlife j).mpr hj)
  · show ∀ v, npages (procs j).proc.sz ≤ v → _
    rw [hproc]
    exact h.low (mt (hlife j).mpr hj)

theorem exit (h : Keeps K x A) (hi : (x.procs i).life ≠ .unused)
    (hy : x.after (exit x.procs x.initproc i) (fun r z => {z with procs := r}) = some y) : ∃ C, Keeps K y C := by
  have hexit : Runs (Vm.exit x.procs x.initproc i) x.mem (fun r t => t = x.mem ∧ Keeps K {x with procs := r} A) fun _ => True := by
    rw [Vm.exit]
    refine Runs.ite (fun _ => trivial) fun _ => Runs.pure ⟨rfl, ?_⟩
    have hsame : ∀ j, (if (x.procs j).parent = some i then {x.procs j with parent := some x.initproc} else x.procs j).life =
        (x.procs j).life ∧
      (if (x.procs j).parent = some i then {x.procs j with parent := some x.initproc} else x.procs j).kstack =
        (x.procs j).kstack ∧
      (if (x.procs j).parent = some i then {x.procs j with parent := some x.initproc} else x.procs j).proc =
        (x.procs j).proc := fun j => by
      split
      · exact ⟨rfl, rfl, rfl⟩
      · exact ⟨rfl, rfl, rfl⟩
    refine h.congr (fun j => ?_) (fun j => ?_) fun j => ?_
    · by_cases hj : j = i
      · rw [hj, update_self]
        exact iff_of_false (fun hc => by cases hc) hi
      · rw [update_of_ne hj, (hsame j).1]
    · by_cases hj : j = i
      · rw [hj, update_self]
        exact (hsame i).2.1
      · rw [update_of_ne hj]
        exact (hsame j).2.1
    · by_cases hj : j = i
      · rw [hj, update_self]
        exact (hsame i).2.2
      · rw [update_of_ne hj]
        exact (hsame j).2.2
  obtain ⟨r, t, ⟨rfl, hC⟩, rfl⟩ := after_eq hy hexit
  exact ⟨A, hC⟩

/-- A pipe is made or changed or freed. -/
theorem setPipe (h : Keeps K x A) (hnodup : t.freelist.Nodup)
    (hapart : ∀ {pa}, p.map Pipe.page = some pa → pa ∉ t.freelist)
    (hall : ∀ pa, (pa ∈ t.freelist ∨ p.map Pipe.page = some pa) ↔ pa ∈ x.mem.freelist ∨ (x.pipes j).map Pipe.page = some pa)
    (hpage : ∀ pa, ¬ (pa ∈ x.mem.freelist ∨ (x.pipes j).map Pipe.page = some pa) → t.page pa = x.mem.page pa) :
    Keeps K (System.setPipe j p {x with mem := t}) A := by
  have hself : (System.setPipe j p {x with mem := t}).holds A (.pipe j) = p.map Pipe.page := by
    rw [System.holds, setPipe_self]
  have hin : ∀ (f : Place → Option Nat) (l : List Nat) (pa : Nat),
      (pa ∈ l ∨ ∃ a, a = .pipe j ∧ f a = some pa) ↔ pa ∈ l ∨ f (.pipe j) = some pa := fun f l pa =>
    or_congr Iff.rfl ⟨fun ⟨_, ha, hp⟩ => ha ▸ hp, fun hp => ⟨_, rfl, hp⟩⟩
  refine h.change (fun a => a = .pipe j) (fun a ha => ?_) (fun hp hq _ _ => hp.trans hq.symm) hnodup ?_ (fun pa => ?_)
    (fun pa hpa => ?_) (fun {d pgdir} hd => .inl ⟨?_, rfl, fun _ hc => by cases hc⟩) fun hk => ⟨h.size hk, h.low hk⟩
  · cases a with
    | kstack k => rfl
    | cpu k => rfl
    | space d q => cases d <;> rfl
    | pipe k =>
      have hk : k ≠ j := fun he => ha (by rw [he])
      rw [System.holds, setPipe_of_ne hk]
      rfl
  · rintro _ pa rfl hp
    rw [hself] at hp
    exact hapart hp
  · rw [hin, hin, hself]
    exact hall pa
  · rw [hin] at hpa
    exact hpage pa hpa
  · cases d <;> exact hd

theorem pipe (h : Keeps K x A) (hj : x.pipes j = none)
    (hy : x.after (pipealloc files) (System.setPipe j) = some y) : ∃ C, Keeps K y C := by
  have hsame : ∀ {t : State}, t.freelist = x.mem.freelist → t.page = x.mem.page →
      Keeps K (System.setPipe j none {x with mem := t}) A := fun hf hp =>
    h.setPipe (hf ▸ h.places.nodup) (fun hc => by cases hc) (fun pa => by rw [hf, hj]) fun pa _ => by rw [hp]
  have hpipe : Runs (pipealloc files) x.mem (fun r t => Keeps K (System.setPipe j r {x with mem := t}) A) fun _ => True := by
    rw [pipealloc]
    refine Runs.ite (fun _ => ?_) fun _ => Runs.pure (hsame rfl rfl)
    refine (kalloc_runs x.mem).bind fun r t hr => ?_
    rcases hr with ⟨rfl, denied, rfl, -⟩ | ⟨page, freelist, denied, rfl, hf, rfl, -⟩
    · exact Runs.pure (hsame rfl rfl)
    · have hnodup := h.places.nodup
      rw [hf] at hnodup
      refine Runs.pure (h.setPipe (nodup_cons.mp hnodup).2 (fun hp => ?_) (fun pa => ?_) fun _ _ => rfl)
      · rw [← Option.some.inj hp]
        exact (nodup_cons.mp hnodup).1
      · rw [hf, hj, mem_cons]
        show pa ∈ freelist ∨ some page = some pa ↔ (pa = page ∨ pa ∈ freelist) ∨ none = some pa
        rw [Option.some.injEq, eq_comm (a := page), or_comm]
        exact ⟨.inl, fun hc => hc.elim id fun hc => by cases hc⟩
  obtain ⟨r, t, hC, rfl⟩ := after_eq hy hpipe
  exact ⟨A, hC⟩

theorem pipeclose (h : Keeps K x A) {j : Nat} {p : Pipe} (hj : x.pipes j = some p) {writable : Bool}
    (hy : x.after (pipeclose K p writable) (System.setPipe j) = some y) : ∃ C, Keeps K y C := by
  have hheld : x.holds A (.pipe j) = some p.page := by rw [System.holds, hj]; rfl
  have hapart := h.places.apart hheld
  have hpool : K.Pool p.page := (h.all _).mp (.inr ⟨_, hheld⟩)
  have hclose : Runs (Vm.pipeclose K p writable) x.mem (fun r t => Keeps K (System.setPipe j r {x with mem := t}) A) fun _ => True := by
    rw [Vm.pipeclose]
    have hpage : (if writable then {p with writeopen := false} else {p with readopen := false}).page = p.page := by
      split <;> rfl
    generalize (if writable then {p with writeopen := false} else {p with readopen := false} : Pipe) = q at hpage
    refine Runs.ite (fun _ => ?_) fun _ => Runs.pure ?_
    · rw [hpage]
      refine (kfree_runs hpool x.mem).bind fun _ t ht => Runs.pure ?_
      subst ht
      refine h.setPipe (nodup_cons.mpr ⟨hapart, h.places.nodup⟩) (fun hc => by cases hc) (fun pa => ?_) fun pa hpa => ?_
      · rw [hj, State.freed, mem_cons]
        show (pa = p.page ∨ pa ∈ x.mem.freelist) ∨ none = some pa ↔ pa ∈ x.mem.freelist ∨ some p.page = some pa
        rw [Option.some.injEq, eq_comm (a := p.page), or_comm (b := pa = p.page)]
        exact ⟨fun hc => hc.elim id fun hc => (by cases hc), .inl⟩
      · rw [hj] at hpa
        exact State.put_page_of_ne fun he => hpa (.inr (by rw [he]; rfl))
    · refine h.setPipe h.places.nodup (fun hq => ?_) (fun pa => ?_) fun _ _ => rfl
      · rw [Option.map_some, hpage] at hq
        rw [← Option.some.inj hq]
        exact hapart
      · rw [hj, Option.map_some, Option.map_some, hpage]
  obtain ⟨r, t, hC, rfl⟩ := after_eq hy hclose
  exact ⟨A, hC⟩

/-- The invariant is kept by every step. -/
theorem step (h : Keeps K x A) {a : Nat × Call} (hy : step K x a = some y) : ∃ C, Keeps K y C := by
  obtain ⟨i, c⟩ := a
  rw [Vm.step] at hy
  by_cases hlive : (x.procs i).life = .live
  · rw [if_pos hlive] at hy
    have hi : (x.procs i).life ≠ .unused := by
      rw [hlive]
      exact fun hc => by cases hc
    cases c with
    | fork => exact h.fork hi hy
    | exec P =>
      dsimp only at hy
      split at hy
      · rename_i hargv
        exact h.exec hi hargv hy
      · cases hy
    | sbrk n => exact h.growproc hi hy
    | exit => exact h.exit hi hy
    | wait => exact h.wait hy
    | pipe files j =>
      dsimp only at hy
      split at hy
      · rename_i hj
        exact h.pipe (Option.isNone_iff_eq_none.mp hj) hy
      · cases hy
    | pipeclose j writable =>
      dsimp only at hy
      split at hy
      · cases hy
      · rename_i q hj
        exact h.pipeclose hj hy
    | write v b => exact h.write hi hy
  · rw [if_neg hlive] at hy
    cases hy

end Keeps

end Xv6.Vm
