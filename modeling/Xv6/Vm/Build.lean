import Xv6.Vm.Uvm

/-! Whole page tables: `freevm` and `setupkvm`. -/
namespace Xv6.Vm
open Lib Function

variable {K : Kernel} {W : World K} {s t : State} {A B : Space} {E : Halt → Prop}

/-! ### `freevm` -/

/-- There is no space: all pages are free. -/
structure Bare (W : World K) (s : State) : Prop where
  nodup : s.freelist.Nodup
  all : ∀ pa, pa ∈ s.freelist ↔ W.all pa
  same : ∀ {pa}, ¬ W.all pa → s.page pa = W.base pa
  calm : W.calm → s.denied = []

/-- The pages of a space without user pages, when the page tables below entry `k` have been freed. -/
def Space.left (A : Space) (k : Nat) : Slot → Option Nat
  | .dir => some A.dir
  | .table i => if k ≤ i then A.table i else none
  | .page _ => none
  | .hand => none

theorem Space.left_succ : A.left (k + 1) = update (A.left k) (.table k) none := by
  funext q
  by_cases hq : q = .table k
  · rw [hq, update_self]
    exact if_neg (Nat.not_succ_le_self k)
  · rw [update_of_ne hq]
    cases q with
    | dir => rfl
    | page v => rfl
    | hand => rfl
    | table i =>
      have hi : i ≠ k := fun he => hq (by rw [he])
      show (if k + 1 ≤ i then A.table i else none) = if k ≤ i then A.table i else none
      by_cases hki : k ≤ i
      · rw [if_pos hki, if_pos (by omega)]
      · rw [if_neg hki, if_neg (by omega)]

/-- The page tables below entry `k` have been freed. -/
structure Freeing (W : World K) (s : State) (A : Space) (k : Nat) : Prop where
  pde : ∀ {i}, k ≤ i → i < NPDENTRIES → (s.page A.dir).word32 (4 * i) = A.pde i
  places : Places (A.left k) s.freelist
  all : ∀ pa, Has (A.left k) s.freelist pa ↔ W.all pa
  same : ∀ {pa}, ¬ W.all pa → s.page pa = W.base pa
  calm : W.calm → s.denied = []

theorem freevm_from_runs (hn : k + n = NPDENTRIES) (h : Freeing W s A k) :
    Runs (freevm_from K A.dir n k) s (fun _ t => Freeing W t A NPDENTRIES) E := by
  induction n generalizing k s with
  | zero =>
    rw [Nat.add_zero] at hn
    rw [hn] at h
    exact Runs.pure h
  | succ n ih =>
    have hk : k < NPDENTRIES := by omega
    rw [freevm_from]
    refine (getWord_runs A.dir k s).bind fun w u hw => ?_
    obtain ⟨rfl, rfl⟩ := hw
    rw [h.pde (Nat.le_refl k) hk]
    by_cases hp : has (A.pde k) PTE_P
    · have htable : A.left k (.table k) = some (PTE_ADDR (A.pde k)) :=
        (if_pos (Nat.le_refl k)).trans (Space.table_of_has hk hp)
      have hall : W.all (PTE_ADDR (A.pde k)) := (h.all _).mp (.inr ⟨_, htable⟩)
      have hdir : A.dir ≠ PTE_ADDR (A.pde k) := fun he => by
        have := h.places.once (p := .dir) (q := .table k) (x := A.dir) rfl (by rw [htable, he])
        cases this
      rw [if_pos hp]
      refine (kfree_runs (W.pool hall) u).bind fun _ x hx => ?_
      subst hx
      refine ih (by omega) ⟨fun hi hlt => ?_, ?_, fun x => ?_, fun {x} hx => ?_, h.calm⟩
      · rw [show (u.freed (PTE_ADDR (A.pde k))).page A.dir = u.page A.dir from State.put_page_of_ne hdir]
        exact h.pde (Nat.le_of_succ_le hi) hlt
      · rw [Space.left_succ]
        exact h.places.release htable
      · rw [Space.left_succ]
        exact (has_release htable).trans (h.all x)
      · exact (State.put_page_of_ne fun he => hx (by rw [he]; exact hall)).trans (h.same hx)
    · have hnone : A.left k (.table k) = none :=
        (if_pos (Nat.le_refl k)).trans (Space.table_of_not (Bool.eq_false_iff.mpr hp))
      have hleft : A.left (k + 1) = A.left k := by rw [Space.left_succ, ← hnone, update_eq_self]
      rw [if_neg hp]
      refine Runs.bind_ok rfl (ih (by omega) ⟨fun hi hlt => h.pde (Nat.le_of_succ_le hi) hlt, ?_, ?_, h.same, h.calm⟩)
      · rw [hleft]
        exact h.places
      · rw [hleft]
        exact h.all

/-- `freevm` frees all pages of the space. -/
theorem freevm_runs (h : Good W s A) (hh : A.hand = none) :
    Runs (freevm K A.dir) s (fun _ t => Bare W t) E := by
  rw [freevm]
  refine (deallocuvm_runs h (Nat.le_refl KERNBASE) (show 0 < KERNBASE by decide)).bind fun _ t ht => ?_
  have hgood := ht.2
  have hleft : (A.cut (npages 0) (npages KERNBASE)).held = (A.cut (npages 0) (npages KERNBASE)).left 0 := by
    funext q
    cases q with
    | dir => rfl
    | table i => rfl
    | hand => exact congrArg (Option.map Prod.fst) hh
    | page v =>
      refine Option.eq_none_iff_forall_ne_some.mpr fun pa hpa => ?_
      obtain ⟨hv, hp, -⟩ := Space.user_eq_some hpa
      rw [show (A.cut (npages 0) (npages KERNBASE)).pte v = 0 from if_pos ⟨Nat.zero_le v, hv⟩, has_zero] at hp
      cases hp
  have hfreeing : Freeing W t (A.cut (npages 0) (npages KERNBASE)) 0 :=
    ⟨fun _ hi => hgood.shows.pde hi, hleft ▸ hgood.places, hleft ▸ hgood.all, hgood.same, hgood.calm⟩
  refine (freevm_from_runs (Nat.zero_add _) hfreeing).bind fun _ u hu => ?_
  have hdir : W.all A.dir := (hu.all _).mp (.inr ⟨.dir, rfl⟩)
  have hempty : ∀ q, update ((A.cut (npages 0) (npages KERNBASE)).left NPDENTRIES) .dir none q = none := by
    intro q
    cases q with
    | dir => exact update_self ..
    | page v => rfl
    | hand => rfl
    | table i =>
      show (if NPDENTRIES ≤ i then Space.table _ i else none) = none
      split
      · exact if_neg fun hi => by omega
      · rfl
  have hplaces := hu.places.release (p := .dir) (x := A.dir) rfl
  refine (kfree_runs (W.pool hdir) u).post fun _ x hx => ?_
  subst hx
  refine ⟨hplaces.nodup, fun x => ?_, fun {x} hx => ?_, hu.calm⟩
  · rw [← hu.all x, ← has_release (p := .dir) (x := A.dir) rfl]
    refine ⟨.inl, fun hx => hx.elim id fun hq => ?_⟩
    obtain ⟨q, hq⟩ := hq
    rw [hempty q] at hq
    cases hq
  · exact (State.put_page_of_ne fun he => hx (by rw [he]; exact hdir)).trans (hu.same hx)

/-! ### The kernel part -/

/-- The virtual pages from `v` to `v + n` are mapped to the physical pages from `f` on. -/
structure Painted (A B : Space) (v n f : Nat) (perm : BitVec 32) : Prop where
  dir : B.dir = A.dir
  hand : B.hand = A.hand
  pte : ∀ u, B.pte u = if v ≤ u ∧ u ≤ v + n then entry (f + (u - v)) (perm ||| PTE_P) else A.pte u
  pde : ∀ i, has (B.pde i) PTE_P = true ↔
    has (A.pde i) PTE_P = true ∨ (v / NPTENTRIES ≤ i ∧ i ≤ (v + n) / NPTENTRIES)

theorem Painted.user_eq (h : Painted A B v n f perm) (hv : USERPAGES ≤ v) :
    B.user = A.user := by
  funext u
  by_cases hu : u < USERPAGES
  · have hout : ¬ (v ≤ u ∧ u ≤ v + n) := by omega
    rw [Space.user, Space.user, h.pte u, if_neg hout]
  · rw [Space.user, Space.user, if_neg fun hc => hu hc.1, if_neg fun hc => hu hc.1]

/-- A space with nothing below `KERNBASE`. -/
structure Space.Upper (A : Space) : Prop where
  user : ∀ v, A.user v = none
  table : ∀ i, i < USERPAGES / NPTENTRIES → A.table i = none

theorem Painted.upper (h : Painted A B v n f perm) (hv : USERPAGES ≤ v) (hA : A.Upper) :
    B.Upper where
  user u := by rw [h.user_eq hv, hA.user]
  table i hi := by
    refine Space.table_of_not (Bool.eq_false_iff.mpr fun hp => ?_)
    rcases (h.pde i).mp hp with hp | hp
    · have htable := Space.table_of_has (Nat.lt_trans hi (by decide)) hp
      rw [hA.table i hi] at htable
      cases htable
    · exact Nat.not_le.mpr hi (Nat.le_trans (Nat.div_le_div_right hv) hp.1)

theorem Painted.cons (h : Painted A C v 0 f perm)
    (h' : Painted C B (v + 1) n (f + 1) perm) : Painted A B v (n + 1) f perm where
  dir := h'.dir.trans h.dir
  hand := h'.hand.trans h.hand
  pte u := by
    rw [h'.pte u, h.pte u]
    by_cases hu : u = v
    · subst hu
      rw [if_neg (by omega), if_pos (by omega), if_pos (by omega)]
    · by_cases hin : v + 1 ≤ u ∧ u ≤ v + 1 + n
      · rw [if_pos hin, if_pos (by omega), show f + 1 + (u - (v + 1)) = f + (u - v) by omega]
      · rw [if_neg hin, if_neg (by omega), if_neg (by omega)]
  pde i := by
    have hstep : (v + 1) / NPTENTRIES ≤ v / NPTENTRIES + 1 := by simp only [NPTENTRIES]; omega
    have hmono : v / NPTENTRIES ≤ (v + 1) / NPTENTRIES := Nat.div_le_div_right (Nat.le_succ v)
    have hmono' : (v + 1) / NPTENTRIES ≤ (v + 1 + n) / NPTENTRIES := Nat.div_le_div_right (Nat.le_add_right ..)
    rw [h'.pde i, h.pde i, or_assoc, Nat.add_zero, show v + (n + 1) = v + 1 + n by omega]
    refine or_congr_right ⟨fun hi => ?_, fun hi => ?_⟩ <;> omega

theorem mapKernel_step (h : Good W s A)
    (hperm : perm.toNat < PGSIZE) (hv : USERPAGES ≤ v) (hlt : v < PAGES) (hf : f < 2 ^ 20)
    (hno : has (A.pte v) PTE_P = false) (hfail : ∀ t, Good W t A → (W.calm → t.freelist = []) → Q (-1) t)
    (hok : ∀ C t, Good W t C → Painted A C v 0 f perm →
      Runs (if v * PGSIZE = last then pure 0
        else mappages_from A.dir last perm fuel ((v * PGSIZE + PGSIZE) % 2 ^ 32) ((f * PGSIZE + PGSIZE) % 2 ^ 32))
        t Q E) :
    Runs (mappages_from A.dir last perm (fuel + 1) (v * PGSIZE) (f * PGSIZE)) s Q E := by
  refine mappages_step h hlt hno hfail fun B pgtab t ht hgrown htable => ?_
  have hflags : (perm ||| PTE_P).toNat < PGSIZE := by
    rw [BitVec.toNat_or]
    exact Nat.or_lt_two_pow (n := 12) hperm (by decide)
  have hw : has (entry f (perm ||| PTE_P)) PTE_P = true := by
    rw [has_entry hf hflags (by decide)]
    exact has_or_self (by decide)
  have hi : v / NPTENTRIES < NPDENTRIES := by simp only [PAGES, NPTENTRIES, NPDENTRIES] at *; omega
  have hpresent : has (B.pde (v / NPTENTRIES)) PTE_P = true := by
    by_contra hp
    rw [Space.table_of_not (Bool.eq_false_iff.mpr hp)] at htable
    cases htable
  rw [BitVec.or_assoc, show BitVec.ofNat 32 (f * PGSIZE) ||| (perm ||| PTE_P) = entry f (perm ||| PTE_P) from rfl]
  refine hok _ _ (ht.mapKernel hv htable hw) ⟨hgrown.dir, hgrown.hand, fun u => ?_, fun i => ?_⟩
  · by_cases hu : u = v
    · subst hu
      rw [if_pos (by omega), Nat.sub_self, Nat.add_zero, Space.setPte_pte_self]
    · rw [if_neg (by omega), Space.setPte_pte_of_ne hu, hgrown.pte]
  · rw [Space.setPte_pde, Nat.add_zero]
    by_cases hiv : i = v / NPTENTRIES
    · rw [hiv]
      exact iff_of_true hpresent (.inr ⟨Nat.le_refl _, Nat.le_refl _⟩)
    · rw [hgrown.pde hiv, or_iff_left (by omega)]

theorem mapKernel_from_runs (hperm : perm.toNat < PGSIZE)
    (hv : USERPAGES ≤ v) (hn : v + n < PAGES) (hf : f + n < 2 ^ 20) (hfuel : n < fuel) (h : Good W s A)
    (hno : ∀ u, v ≤ u → u ≤ v + n → has (A.pte u) PTE_P = false) :
    Runs (mappages_from A.dir ((v + n) * PGSIZE) perm fuel (v * PGSIZE) (f * PGSIZE)) s (fun r t =>
      (r = -1 ∧ ∃ B, Good W t B ∧ B.dir = A.dir ∧ B.hand = A.hand ∧ (A.Upper → B.Upper) ∧ (W.calm → t.freelist = [])) ∨
      (r = 0 ∧ ∃ B, Good W t B ∧ Painted A B v n f perm)) E := by
  induction n generalizing v f fuel s A with
  | zero =>
    obtain ⟨fuel, rfl⟩ : ∃ k, fuel = k + 1 := ⟨fuel - 1, by omega⟩
    refine mapKernel_step h hperm hv hn hf (hno v (Nat.le_refl _) (Nat.le_add_right ..))
      (fun t ht hfree => .inl ⟨rfl, A, ht, rfl, rfl, id, hfree⟩) fun C t ht hC => ?_
    rw [if_pos (by rw [Nat.add_zero])]
    exact Runs.pure (.inr ⟨rfl, C, ht, hC⟩)
  | succ n ih =>
    obtain ⟨fuel, rfl⟩ : ∃ k, fuel = k + 1 := ⟨fuel - 1, by omega⟩
    refine mapKernel_step h hperm hv (by omega) (by omega) (hno v (Nat.le_refl _) (by omega))
      (fun t ht hfree => .inl ⟨rfl, A, ht, rfl, rfl, id, hfree⟩) fun C t ht hC => ?_
    have hnext : (v * PGSIZE + PGSIZE) % 2 ^ 32 = (v + 1) * PGSIZE :=
      page_succ (Nat.lt_of_le_of_lt (Nat.add_le_add_left (Nat.le_add_left 1 n) v) hn)
    have hnextf : (f * PGSIZE + PGSIZE) % 2 ^ 32 = (f + 1) * PGSIZE :=
      page_succ (Nat.lt_of_le_of_lt (Nat.add_le_add_left (Nat.le_add_left 1 n) f) hf)
    have hrest := ih (A := C) (v := v + 1) (f := f + 1) (by omega) (by omega) (by omega) (show n < fuel by omega) ht
      (fun u hlo hhi => by rw [hC.pte u, if_neg (by omega)]; exact hno u (by omega) (by omega))
    rw [if_neg (by simp only [PGSIZE]; omega), hnext, hnextf, ← hC.dir, show v + (n + 1) = v + 1 + n by omega]
    refine hrest.post fun r u hr => ?_
    rcases hr with ⟨hr, B, hB, hdir, hhand, hupper, hfree⟩ | ⟨hr, B, hB, hpaint⟩
    · exact .inl ⟨hr, B, hB, hdir, hhand.trans hC.hand, fun hA => hupper (hC.upper hv hA), hfree⟩
    · exact .inr ⟨hr, B, hB, hC.cons hpaint⟩

theorem mapKernel_runs (hperm : perm.toNat < PGSIZE)
    (hv : USERPAGES ≤ v) (hn : v + n < PAGES) (hf : f + n < 2 ^ 20) (h : Good W s A)
    (hno : ∀ u, v ≤ u → u ≤ v + n → has (A.pte u) PTE_P = false) :
    Runs (mappages A.dir (v * PGSIZE) ((n + 1) * PGSIZE) (f * PGSIZE) perm) s (fun r t =>
      (r = -1 ∧ ∃ B, Good W t B ∧ B.dir = A.dir ∧ B.hand = A.hand ∧ (A.Upper → B.Upper) ∧ (W.calm → t.freelist = [])) ∨
      (r = 0 ∧ ∃ B, Good W t B ∧ Painted A B v n f perm)) E := by
  have hlast : PGROUNDDOWN ((v * PGSIZE + (n + 1) * PGSIZE + (2 ^ 32 - 1)) % 2 ^ 32) = (v + n) * PGSIZE := by
    simp only [PGROUNDDOWN, PGSIZE, PAGES, NPDENTRIES, NPTENTRIES] at hn ⊢
    omega
  have hfirst : PGROUNDDOWN (v * PGSIZE) = v * PGSIZE := by simp only [PGROUNDDOWN, PGSIZE]; omega
  rw [mappages, hlast, hfirst]
  refine mapKernel_from_runs hperm hv hn hf ?_ h hno
  simp only [PAGES, NPDENTRIES, NPTENTRIES] at hn
  omega

/-- The kernel pages below `hi` are mapped. -/
structure Rising (A : Space) (hi : Nat) : Prop where
  hand : A.hand = none
  none : ∀ {v}, v < USERPAGES ∨ hi ≤ v → A.pte v = 0
  user : ∀ v, has (A.pte v) PTE_U = false
  pde : ∀ i, has (A.pde i) PTE_P = true ↔ USERPAGES / NPTENTRIES ≤ i ∧ i * NPTENTRIES < hi

theorem Painted.user (hp : Painted A B v n f perm)
    (h : ∀ u, has (A.pte u) PTE_U = false) (hf : f + n < 2 ^ 20) (hperm : (perm ||| PTE_P).toNat < PGSIZE)
    (hno : has (perm ||| PTE_P) PTE_U = false) (u : Nat) : has (B.pte u) PTE_U = false := by
  rw [hp.pte u]
  split
  · rw [has_entry (by omega) hperm (by decide), hno]
  · exact h u

theorem Rising.paint (h : Rising A hi) (hp : Painted A B hi n f perm)
    (hhi : USERPAGES ≤ hi) (hf : f + n < 2 ^ 20) (hperm : (perm ||| PTE_P).toNat < PGSIZE)
    (hno : has (perm ||| PTE_P) PTE_U = false) : Rising B (hi + n + 1) where
  hand := hp.hand.trans h.hand
  none {v} hv := by
    rw [hp.pte v, if_neg (by omega)]
    exact h.none (by omega)
  user := hp.user h.user hf hperm hno
  pde i := by
    rw [hp.pde i, h.pde i]
    simp only [USERPAGES, KERNBASE, PGSIZE, NPTENTRIES] at hhi ⊢
    omega

/-- The kernel part of a page table: nothing of it is for the user, and there are page tables for
the memory up to `PHYSTOP` and for the devices. -/
structure KernelPart (A : Space) : Prop where
  user : ∀ {v}, USERPAGES ≤ v → has (A.pte v) PTE_U = false
  pde : ∀ {i}, USERPAGES / NPTENTRIES ≤ i → i < NPDENTRIES →
    (has (A.pde i) PTE_P = true ↔ i < (KERNBASE + PHYSTOP) / 2 ^ 22 ∨ DEVSPACE / 2 ^ 22 ≤ i)

theorem Rising.upper {hi : Nat} (h : Rising A hi) : A.Upper where
  user u := by
    by_cases hu : u < USERPAGES
    · exact Space.user_of_not (by rw [h.none (.inl hu), has_zero])
    · exact if_neg fun hc => hu hc.1
  table i hi := by
    refine Space.table_of_not (Bool.eq_false_iff.mpr fun hp => ?_)
    exact Nat.not_le.mpr hi ((h.pde i).mp hp).1

theorem setupkvm_step (v n f : Nat)
    (perm : BitVec 32) (h : Good W s A) (hh : A.hand = none) (hk : k.perm = perm) (hvirt : k.virt = v * PGSIZE)
    (hphys : k.phys_start = f * PGSIZE) (hperm : perm.toNat < PGSIZE)
    (hsize : (k.phys_end + (2 ^ 32 - k.phys_start)) % 2 ^ 32 = (n + 1) * PGSIZE)
    (hv : USERPAGES ≤ v) (hn : v + n < PAGES) (hf : f + n < 2 ^ 20)
    (hno : ∀ u, v ≤ u → u ≤ v + n → has (A.pte u) PTE_P = false) (hupper : A.Upper)
    (hfail : ∀ t, Bare W t → W.Short 514 → Q none t)
    (hok : ∀ B t, Good W t B → Painted A B v n f perm → Runs (setupkvm_from K B.dir rest) t Q E) :
    Runs (setupkvm_from K A.dir (k :: rest)) s Q E := by
  rw [setupkvm_from, hsize, hvirt, hphys, hk]
  refine (mapKernel_runs hperm hv hn hf h hno).bind fun r t hr => ?_
  rcases hr with ⟨rfl, B, hB, hdir, hhand, hkeep, hfree⟩ | ⟨rfl, B, hB, hpaint⟩
  · have hshort := hB.short_of_listed hfree (Space.listed (n := 0) (hkeep hupper).table fun v _ => (hkeep hupper).user v)
    rw [if_pos (by decide), ← hdir]
    exact (freevm_runs hB (hhand.trans hh)).bind fun _ u hu => Runs.pure (hfail u hu hshort)
  · rw [if_neg (by decide), ← hpaint.dir]
    exact hok B t hB hpaint

/-- What `setupkvm` returns: a page table with the kernel part only in `dir`, or nothing, with no page in
use. -/
def Kvm (W : World K) (dir : Option Nat) (r : Option Nat) (t : State) : Prop :=
  (r = none ∧ Bare W t ∧ W.Short 514) ∨
  ∃ A : Space, r = some A.dir ∧ dir = some A.dir ∧ Good W t A ∧ A.hand = none ∧ KernelPart A ∧
    ∀ v, v < USERPAGES → A.pte v = 0

theorem setupkvm_from_runs (h : Good W s A) (hA : Rising A USERPAGES) :
    Runs (setupkvm_from K A.dir (kmap K)) s (Kvm W (some A.dir)) E := by
  obtain ⟨d, hd⟩ : ∃ d, K.data = (0x80100 + d + 1) * PGSIZE := by
    have htext := K.text
    have haligned := K.aligned
    simp only [KERNLINK, KERNBASE, EXTMEM, PGSIZE] at htext haligned ⊢
    exact ⟨K.data / 4096 - 0x80100 - 1, by omega⟩
  obtain ⟨e, he⟩ : ∃ e, 0x80100 + d + 1 + e + 1 = 0x8E000 := by
    have horder := K.order
    have hlow := K.low
    simp only [KERNBASE, PGSIZE] at horder hlow hd
    exact ⟨0x8E000 - (0x80100 + d + 1) - 1, by omega⟩
  have hfail : ∀ t, Bare W t → W.Short 514 → Kvm W (some A.dir) none t := fun t ht hs => .inl ⟨rfl, ht, hs⟩
  have hclear : ∀ {A : Space} {hi : Nat}, Rising A hi → ∀ n u, hi ≤ u → u ≤ hi + n → has (A.pte u) PTE_P = false :=
    fun hA n u hlo _ => by rw [hA.none (.inr hlo), has_zero]
  refine setupkvm_step USERPAGES 0xFF 0 PTE_W h hA.hand rfl rfl rfl (by decide) rfl (Nat.le_refl _)
    (by decide) (by decide) (hclear hA _) hA.upper hfail fun B t hB hp₁ => ?_
  have hB' : Rising B 0x80100 := hA.paint hp₁ (Nat.le_refl _) (by decide) (by decide) (by decide)
  refine setupkvm_step 0x80100 d 0x100 0 hB hB'.hand rfl rfl rfl (by decide) ?_ (by decide)
    ?_ (by omega) (hclear hB' _) hB'.upper hfail fun C u hC hp₂ => ?_
  · rw [hd]
    simp only [KERNLINK, KERNBASE, EXTMEM, PGSIZE]
    omega
  · simp only [PAGES, NPDENTRIES, NPTENTRIES]
    omega
  have hC' := hB'.paint hp₂ (by decide) (by omega) (by decide) (by decide)
  refine setupkvm_step (0x80100 + d + 1) e (0x100 + d + 1) PTE_W hC hC'.hand rfl hd ?_ (by decide) ?_ ?_
    ?_ (by omega) (hclear hC' _) hC'.upper hfail fun D x hD hp₃ => ?_
  · rw [hd]
    simp only [KERNBASE, PGSIZE]
    omega
  · rw [hd]
    simp only [KERNBASE, PGSIZE, PHYSTOP]
    omega
  · simp only [USERPAGES, KERNBASE, PGSIZE]
    omega
  · simp only [PAGES, NPDENTRIES, NPTENTRIES]
    omega
  have hD' := hC'.paint hp₃ (by simp only [USERPAGES, KERNBASE, PGSIZE]; omega) (by omega) (by decide) (by decide)
  rw [he] at hD'
  refine setupkvm_step 0xFE000 0x1FFF 0xFE000 PTE_W hD hD'.hand rfl rfl rfl (by decide) rfl (by decide)
    (by decide) (by decide) (fun u hlo _ => by rw [hD'.none (.inr (by omega)), has_zero]) hD'.upper hfail
    fun F y hF hpaint => ?_
  have hdir : F.dir = A.dir := hpaint.dir.trans (hp₃.dir.trans (hp₂.dir.trans hp₁.dir))
  refine Runs.pure (.inr ⟨F, rfl, congrArg some hdir.symm, hF, hpaint.hand.trans hD'.hand, ⟨fun _ => ?_, fun {i} hlo hhi => ?_⟩, fun v hv => ?_⟩)
  · exact hpaint.user hD'.user (by decide) (by decide) (by decide) _
  · rw [hpaint.pde i, hD'.pde i]
    simp only [USERPAGES, KERNBASE, PGSIZE, NPTENTRIES, NPDENTRIES, PHYSTOP, DEVSPACE] at hlo hhi ⊢
    omega
  · rw [hpaint.pte v, if_neg, hD'.none (.inl hv)]
    simp only [USERPAGES, KERNBASE, PGSIZE] at hv
    omega

/-- A page for the page directory of a new space. -/
def Space.bare (dir : Nat) : Space := ⟨dir, fun _ => 0, fun _ => 0, fun _ => Bytes.zero, none⟩

theorem Space.held_bare (dir : Nat) : (Space.bare dir).held = update (fun _ => none) .dir (some dir) := by
  funext q
  cases q with
  | dir => rfl
  | table i => exact Space.table_of_not (has_zero _)
  | page v => exact Space.user_of_not (has_zero _)
  | hand => rfl

theorem Bare.dir {dir : Nat} {freelist : List Nat} (h : Bare W s) (hf : s.freelist = dir :: freelist)
    {denied : List Bool} (hd : s.denied = [] → denied = []) :
    Good W (State.put {s with freelist := freelist, denied := denied} dir Bytes.zero) (.bare dir) := by
  have hplaces : Places (fun _ : Slot => none) (dir :: freelist) :=
    ⟨fun hq => (by cases hq), hf ▸ h.nodup, fun hq => (by cases hq)⟩
  have hdir : W.all dir := (h.all dir).mp (hf ▸ List.mem_cons_self ..)
  refine ⟨⟨fun _ => ?_, fun ht => ?_, fun _ _ _ => rfl, fun hu => ?_, fun hh => by cases hh⟩,
    by rw [Space.held_bare]; exact hplaces.place, fun x => ?_, fun {x} hx => ?_, fun _ _ => rfl,
    fun hc => hd (h.calm hc)⟩
  · exact (congrArg (Bytes.word32 · _) State.put_page_self).trans (Bytes.word32_zero _)
  · rw [Space.table_of_not (has_zero _)] at ht
    cases ht
  · rw [Space.user_of_not (has_zero _)] at hu
    cases hu
  · rw [Space.held_bare, has_place rfl, ← h.all x, hf]
    refine ⟨fun hx => hx.elim id fun hq => ?_, .inl⟩
    obtain ⟨q, hq⟩ := hq
    cases hq
  · rw [State.put_page_of_ne fun he => hx (by rw [he]; exact hdir)]
    exact h.same hx

/-- `setupkvm` makes the kernel part, or fails and leaves no page behind. -/
theorem setupkvm_runs (h : Bare W s) : Runs (setupkvm K) s (Kvm W s.freelist.head?) E := by
  rw [setupkvm]
  refine (kalloc_runs s).bind fun r t hr => ?_
  rcases hr with ⟨rfl, denied, rfl, hd⟩ | ⟨dir, freelist, denied, rfl, hf, rfl, hd⟩
  · refine Runs.pure (.inl ⟨rfl, ⟨h.nodup, h.all, h.same, fun hc => (hd (h.calm hc)).1⟩, fun hc => ?_⟩)
    refine ⟨s.freelist, fun pa hpa => (h.all pa).mpr hpa, ?_⟩
    rw [(hd (h.calm hc)).2]
    exact Nat.zero_le _
  refine Runs.bind_ok rfl ?_
  rw [if_neg (show ¬ DEVSPACE < KERNBASE + PHYSTOP by decide)]
  have hrising : Rising (Space.bare dir) USERPAGES := by
    refine ⟨rfl, fun _ => rfl, fun _ => has_zero _, fun i => ?_⟩
    rw [show (Space.bare dir).pde i = 0 from rfl, has_zero]
    simp only [USERPAGES, KERNBASE, PGSIZE, NPTENTRIES, Bool.false_eq_true, false_iff]
    omega
  have hrun : Runs (setupkvm_from K (Space.bare dir).dir (kmap K)) _ (Kvm W (some dir)) E :=
    setupkvm_from_runs (h.dir hf hd) hrising
  rw [hf]
  exact hrun

end Xv6.Vm
