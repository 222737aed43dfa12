import Xv6.Lib.Layout
import Xv6.Vm.Load

/-! The arguments of `exec`.

`sp` is lowered by the length of each string without a check. While the strings fit in the stack page
all goes well, and a string that ends in the page below or in the program stops `copyout` at the page
that is not accessible. A string longer than `sp` takes it around, to a kernel address; where `kmap`
has nothing there is no page table, and the null pointer that `uva2ka` follows stops the kernel. -/
namespace Xv6.Vm
open Lib List

variable {K : Kernel} {W : World K} {s t : State} {A B : Space} {E : Halt → Prop} {f g : Nat → Byte} {n v : Nat}

/-! ### Writing to pages -/

theorem P2V_eq (hlt : pa < PHYSTOP / PGSIZE) : P2V pa = pa * PGSIZE + KERNBASE := by
  simp only [PHYSTOP, PGSIZE, KERNBASE, P2V] at hlt ⊢
  omega

theorem P2V_lt (hlt : pa < PHYSTOP / PGSIZE) : P2V pa < KERNBASE + PHYSTOP := by
  rw [P2V_eq hlt]
  simp only [PHYSTOP, PGSIZE, KERNBASE] at hlt ⊢
  omega

/-- Kernel addresses of pages are mapped. -/
theorem writable_eq (hpa : K.Pool pa) (cr3 : Nat) (s : State) :
    writable K cr3 (P2V pa) s = .ok (pa, s) := by
  have hge : ¬ P2V pa < KERNBASE := by
    rw [P2V_eq hpa.2]
    exact Nat.not_lt.mpr (Nat.le_add_left ..)
  have hmapped : P2V pa < KERNLINK ∨ K.data ≤ P2V pa ∧ P2V pa < KERNBASE + PHYSTOP :=
    .inr ⟨by rw [P2V_eq hpa.2]; exact Nat.le_trans K.order hpa.1, P2V_lt hpa.2⟩
  have hpage : (P2V pa - KERNBASE) / PGSIZE = pa := by
    rw [P2V_eq hpa.2, Nat.add_sub_cancel]
    exact Nat.mul_div_cancel _ (by decide)
  rw [writable, if_neg hge, if_pos hmapped, hpage]
  rfl

theorem store_runs (hpa : K.Pool pa) :
    Runs (store K cr3 pa off bytes) s (fun _ t => t = s.put pa ((s.page pa).blit off bytes)) E := by
  rw [store]
  refine Runs.bind_ok (writable_eq hpa cr3 s) (Runs.bind_ok rfl ?_)
  exact rfl

theorem Ready.user (h : Ready A n f) (hv : v < n) (hg : v ≠ n - 2) : has (A.pte v) PTE_U = true := by
  obtain ⟨pa, hpa, hpte⟩ := h.pte hv hg
  rw [hpte, has_entry hpa (by decide) (by decide)]
  decide

theorem Ready.guard_user (h : Ready A n f) : has (A.pte (n - 2)) PTE_U = false := by
  obtain ⟨pa, hpa, hpte⟩ := h.guard
  rw [hpte, has_entry hpa (by decide) (by decide)]
  decide

theorem Ready.lt_32 (h : Ready A n f) (hv : v < n) : v * PGSIZE < 2 ^ 32 :=
  Nat.lt_trans (Nat.mul_lt_mul_of_pos_right hv (by decide)) (Nat.lt_trans h.lt (by decide))

/-- Pages of the program are for the user, but for the one below the stack. -/
theorem uva2ka_runs (h : Good W s A) (hr : Ready A n f) (hv : v < n) :
    Runs (uva2ka A.dir (v * PGSIZE)) s (fun r t => t = s ∧ r = if v = n - 2 then none else A.user v) E := by
  have hdiv : v * PGSIZE / PGSIZE = v := Nat.mul_div_cancel _ (by decide)
  have hp := hr.present hv
  have huser := Space.user_of_has (hr.lt_user hv) hp
  rw [uva2ka]
  refine (walk_runs h.shows (hr.lt_32 hv) (by rw [hdiv]; exact hp)).bind fun r t hrt => ?_
  obtain ⟨rfl, pgtab, rfl, -, hword⟩ := hrt
  refine (getWord_runs pgtab _ t).bind fun w u hw => ?_
  obtain ⟨rfl, rfl⟩ := hw
  rw [hword, hdiv, if_neg (by rw [hp]; decide)]
  by_cases hg : v = n - 2
  · rw [hg, if_pos hr.guard_user, if_pos rfl]
    exact Runs.pure ⟨rfl, rfl⟩
  · have hpool := W.pool (h.all_held (q := .page v) huser)
    have hne : P2V (PTE_ADDR (A.pte v)) ≠ 0 := by
      rw [P2V_eq hpool.2]
      exact Nat.ne_of_gt (Nat.lt_of_lt_of_le (show 0 < KERNBASE by decide) (Nat.le_add_left ..))
    rw [if_neg (by rw [hr.user hv hg]; decide), if_neg hne, if_neg hg, huser]
    exact Runs.pure ⟨rfl, rfl⟩

/-- Whatever the address, `uva2ka` finds a user page or none; without a page table the kernel stops. -/
theorem uva2ka_user (h : Good W s A) (hk : KernelPart A) (uva : Nat) :
    Runs (uva2ka A.dir uva) s
      (fun r t => t = s ∧ A.table (PDX uva) ≠ none ∧
        ∀ pa, r = some pa → A.user (NPTENTRIES * PDX uva + PTX uva) = some pa)
      fun e => e = .uva2ka ∧ A.table (PDX uva) = none := by
  rw [uva2ka]
  refine (walkpgdir_runs h.shows uva).bind fun r t hr => ?_
  obtain ⟨rfl, rfl⟩ := hr
  cases htable : A.table (PDX uva) with
  | none => exact Runs.throw ⟨rfl, rfl⟩
  | some pgtab =>
    refine (getWord_runs pgtab _ t).bind fun w u hw => ?_
    obtain ⟨rfl, rfl⟩ := hw
    rw [h.shows.pte htable (PTX_lt uva)]
    refine Runs.ite (fun _ => Runs.pure ⟨rfl, Option.some_ne_none _, fun _ hr => by cases hr⟩) fun hp => ?_
    refine Runs.ite (fun _ => Runs.pure ⟨rfl, Option.some_ne_none _, fun _ hr => by cases hr⟩) fun hu => ?_
    have huser := Space.user_of_has (Nat.lt_of_not_le fun hge => hu (hk.user hge)) (Bool.not_eq_false _ ▸ hp)
    generalize P2V (PTE_ADDR (A.pte (NPTENTRIES * PDX uva + PTX uva))) = va
    refine Runs.ite (fun _ => Runs.pure ⟨rfl, Option.some_ne_none _, fun _ hr => by cases hr⟩) fun _ => ?_
    exact Runs.pure ⟨rfl, Option.some_ne_none _, fun pa hr => huser.trans hr⟩

theorem KernelPart.setMem (h : KernelPart A) (v : Nat) (b : Bytes PGSIZE) : KernelPart (A.setMem v b) := ⟨h.user, h.pde⟩

theorem Ready.setMem (h : Ready A n f)
    (hpage : ∀ va, va / PGSIZE = v → b.get (va % PGSIZE) = g va) (hother : ∀ va, va / PGSIZE ≠ v → g va = f va) :
    Ready (A.setMem v b) n g where
  hand := h.hand
  kernel := h.kernel.setMem v b
  two := h.two
  lt := h.lt
  guard := h.guard
  pte := h.pte
  rest := h.rest
  byte {va} hva := by
    by_cases he : va / PGSIZE = v
    · rw [he, Space.setMem_mem_self, hpage va he]
    · rw [Space.setMem_mem_of_ne he, hother va he]
      exact h.byte hva

theorem Ready.blit (h : Ready A n f) (hv : v < n) (hroom : off + bytes.length ≤ PGSIZE) :
    Ready (A.setMem v ((A.mem v).blit off bytes)) n (overlay (v * PGSIZE + off) bytes f) := by
  refine h.setMem (fun va hva => ?_) fun va hva => overlay_of_not ?_
  · have hold := h.byte (div_lt_iff.mp (hva ▸ hv))
    rw [hva] at hold
    have hsplit : va = v * PGSIZE + va % PGSIZE := by
      have := Nat.div_add_mod va PGSIZE
      rw [hva, Nat.mul_comm] at this
      exact this.symm
    rw [Bytes.get_blit _ _ _ _ hroom, hold, overlay]
    have hsub : va - (v * PGSIZE + off) = va % PGSIZE - off := by omega
    rw [hsub]
    refine if_congr ?_ rfl rfl
    omega
  · simp only [PGSIZE] at hva hroom ⊢
    omega

/-! ### `copyout` -/

section Copyout
variable {cr3 va fuel : Nat} {buf : List Byte}

theorem sub_PGROUNDDOWN (va : Nat) : va - PGROUNDDOWN va = va % PGSIZE := by
  have := Nat.div_add_mod va PGSIZE
  rw [PGROUNDDOWN, Nat.mul_comm]
  omega

theorem copyout_page (hpa : K.Pool pa) (hpos : 0 < buf.length)
    (huva : Runs (uva2ka dir (PGROUNDDOWN va)) s (fun r u => r = some pa ∧ u = t) E)
    (hrest : Runs (copyout_from K cr3 dir fuel ((PGROUNDDOWN va + PGSIZE) % 2 ^ 32)
      (buf.drop (min (PGSIZE - va % PGSIZE) buf.length)))
      (t.put pa ((t.page pa).blit (va % PGSIZE) (buf.take (min (PGSIZE - va % PGSIZE) buf.length)))) Q E) :
    Runs (copyout_from K cr3 dir (fuel + 1) va buf) s Q E := by
  rw [copyout_from, if_pos hpos]
  dsimp only
  rw [sub_PGROUNDDOWN]
  refine huva.bind fun r u hu => ?_
  obtain ⟨rfl, rfl⟩ := hu
  refine (store_runs hpa).bind fun _ x hx => ?_
  subst hx
  exact hrest

theorem copyout_turn (h : Good W s A) (hr : Ready A n f) (hv : va / PGSIZE < n)
    (hg : va / PGSIZE ≠ n - 2) (hpos : 0 < buf.length)
    (hrest : ∀ B t, Good W t B → B.dir = A.dir →
      Ready B n (overlay va (buf.take (min (PGSIZE - va % PGSIZE) buf.length)) f) →
      Runs (copyout_from K cr3 A.dir fuel ((va / PGSIZE + 1) * PGSIZE)
        (buf.drop (min (PGSIZE - va % PGSIZE) buf.length))) t Q E) :
    Runs (copyout_from K cr3 A.dir (fuel + 1) va buf) s Q E := by
  have hnext : (va / PGSIZE * PGSIZE + PGSIZE) % 2 ^ 32 = (va / PGSIZE + 1) * PGSIZE :=
    page_succ (Nat.lt_of_le_of_lt (Nat.succ_le_of_lt (hr.lt_user hv)) (by decide))
  have huser := Space.user_of_has (hr.lt_user hv) (hr.present hv)
  have hpool := W.pool (h.all_held (q := .page _) huser)
  refine copyout_page (t := s) hpool hpos ((uva2ka_runs h hr hv).post fun r t hrt => ?_) ?_
  · rw [hrt.1, hrt.2, if_neg hg]
    exact ⟨huser, rfl⟩
  rw [PGROUNDDOWN, hnext]
  have hroom : va % PGSIZE + (buf.take (min (PGSIZE - va % PGSIZE) buf.length)).length ≤ PGSIZE := by
    have hmod : va % PGSIZE < PGSIZE := Nat.mod_lt va (by decide)
    rw [length_take]
    omega
  have hready := hr.blit hv hroom
  have hsplit : va / PGSIZE * PGSIZE + va % PGSIZE = va := by
    rw [Nat.mul_comm]
    exact Nat.div_add_mod va PGSIZE
  rw [hsplit] at hready
  rw [h.shows.mem huser]
  exact hrest _ _ (h.setMem_page huser _) rfl hready

/-- The page below the stack stops `copyout`. -/
theorem copyout_guard (h : Good W s A) (hr : Ready A n f) (hva : va / PGSIZE = n - 2) (hpos : 0 < buf.length) :
    Runs (copyout_from K cr3 A.dir (fuel + 1) va buf) s (fun r t => r = -1 ∧ t = s) E := by
  have hv : va / PGSIZE < n := by
    have := hr.two
    omega
  rw [copyout_from, if_pos hpos]
  dsimp only
  rw [PGROUNDDOWN]
  refine (uva2ka_runs h hr hv).bind fun r t hrt => ?_
  obtain ⟨rfl, rfl⟩ := hrt
  rw [if_pos hva]
  exact Runs.pure ⟨rfl, rfl⟩

/-- Bytes that reach into the page below the stack from below are not copied. -/
theorem copyout_from_guard (h : Good W s A) (hr : Ready A n f) (hfuel : buf.length < fuel) (hpos : 0 < buf.length)
    (hva : va < (n - 1) * PGSIZE) (hend : (n - 2) * PGSIZE < va + buf.length) :
    Runs (copyout_from K cr3 A.dir fuel va buf) s (fun r t =>
      r = -1 ∧ ∃ B, Good W t B ∧ B.dir = A.dir ∧ B.hand = none) E := by
  induction fuel generalizing va buf s A f with
  | zero => omega
  | succ fuel ih =>
    have hpages : va / PGSIZE < n - 1 := div_lt_iff.mpr hva
    by_cases hg : va / PGSIZE = n - 2
    · refine (copyout_guard h hr hg hpos).post fun r t hrt => ?_
      obtain ⟨rfl, rfl⟩ := hrt
      exact ⟨rfl, A, h, rfl, hr.hand⟩
    · refine copyout_turn h hr (by omega) hg hpos fun B t hB hdir hready => ?_
      -- The bytes go on past the end of the page.
      have hmore : PGSIZE - va % PGSIZE < buf.length ∧
          (n - 2) * PGSIZE < (va / PGSIZE + 1) * PGSIZE + (buf.length - (PGSIZE - va % PGSIZE)) ∧
          (va / PGSIZE + 1) * PGSIZE < (n - 1) * PGSIZE ∧ 0 < PGSIZE - va % PGSIZE := by
        simp only [PGSIZE] at hpages hg hend ⊢
        omega
      rw [Nat.min_eq_left (Nat.le_of_lt hmore.1), ← hdir]
      have hlen : (buf.drop (PGSIZE - va % PGSIZE)).length = buf.length - (PGSIZE - va % PGSIZE) := length_drop
      rw [Nat.min_eq_left (Nat.le_of_lt hmore.1)] at hready
      refine ih hB hready ?_ ?_ hmore.2.2.1 ?_
      · omega
      · omega
      · rw [hlen]
        exact hmore.2.1

/-- Bytes within the stack page are copied. -/
theorem copyout_from_stack (h : Good W s A) (hr : Ready A n f) (hfuel : buf.length < fuel)
    (hva : (n - 1) * PGSIZE ≤ va) (hend : va + buf.length ≤ n * PGSIZE) (hpos : 0 < buf.length) :
    Runs (copyout_from K cr3 A.dir fuel va buf) s (fun r t =>
      r = 0 ∧ ∃ B, Good W t B ∧ B.dir = A.dir ∧ Ready B n (overlay va buf f)) E := by
  obtain ⟨fuel, rfl⟩ : ∃ k, fuel = k + 2 := ⟨fuel - 2, by omega⟩
  have htwo := hr.two
  have hpage : va / PGSIZE = n - 1 ∧ buf.length ≤ PGSIZE - va % PGSIZE := by
    simp only [PGSIZE] at hva hend ⊢
    omega
  refine copyout_turn h hr (by omega) (by omega) hpos fun B t hB hdir hready => ?_
  rw [Nat.min_eq_right hpage.2] at hready ⊢
  rw [take_length] at hready
  rw [drop_length, copyout_from, if_neg (by decide)]
  exact Runs.pure ⟨rfl, B, hB, hdir, hready⟩

/-- A push: `bytes` end at most 3 bytes below `sp`. -/
theorem push_runs (h : Good W s A) (hr : Ready A n f) (hlo : (n - 1) * PGSIZE ≤ sp) (hhi : sp ≤ n * PGSIZE)
    (hpos : 0 < buf.length) (hva : va + buf.length ≤ sp) (hround : sp < va + buf.length + 4) :
    Runs (copyout K cr3 A.dir va buf) s (fun r t =>
      (r = -1 ∧ va < (n - 1) * PGSIZE ∧ ∃ B, Good W t B ∧ B.dir = A.dir ∧ B.hand = none) ∨
      (r = 0 ∧ (n - 1) * PGSIZE ≤ va ∧ ∃ B, Good W t B ∧ B.dir = A.dir ∧ Ready B n (overlay va buf f))) E := by
  have htwo := hr.two
  rw [copyout]
  by_cases hin : (n - 1) * PGSIZE ≤ va
  · refine (copyout_from_stack h hr (Nat.lt_succ_self _) hin (Nat.le_trans hva hhi) hpos).post fun r t hrt => ?_
    exact .inr ⟨hrt.1, hin, hrt.2⟩
  · have hend : (n - 2) * PGSIZE < va + buf.length := by
      simp only [PGSIZE] at hlo hround ⊢
      omega
    refine (copyout_from_guard h hr (Nat.lt_succ_self _) hpos (Nat.not_le.mp hin) hend).post fun r t hrt => ?_
    exact .inl ⟨hrt.1, Nat.not_le.mp hin, hrt.2⟩

end Copyout

/-! ### Kernel addresses -/

/-- There is nothing from `PHYSTOP` to the devices. -/
def Hole (va : Nat) : Prop := KERNBASE + PHYSTOP ≤ va ∧ va < DEVSPACE

instance (va : Nat) : Decidable (Hole va) := inferInstanceAs (Decidable (_ ∧ _))

section Kernel
variable {cr3 va fuel : Nat} {buf : List Byte}

theorem PDX_PGROUNDDOWN (hva : va < 2 ^ 32) : PDX (PGROUNDDOWN va) = va / 2 ^ 22 := by
  simp only [PDX, PGROUNDDOWN, PGSIZE]
  omega

theorem table_kernel (hk : KernelPart A) (hlo : KERNBASE ≤ va) (hva : va < 2 ^ 32) :
    A.table (va / 2 ^ 22) = if Hole va then none else some (PTE_ADDR (A.pde (va / 2 ^ 22))) := by
  have hi : USERPAGES / NPTENTRIES ≤ va / 2 ^ 22 ∧ va / 2 ^ 22 < NPDENTRIES := by
    simp only [USERPAGES, KERNBASE, PGSIZE, NPTENTRIES, NPDENTRIES] at hlo ⊢
    omega
  have hpde := hk.pde hi.1 hi.2
  have hhole : (va / 2 ^ 22 < (KERNBASE + PHYSTOP) / 2 ^ 22 ∨ DEVSPACE / 2 ^ 22 ≤ va / 2 ^ 22) ↔ ¬ Hole va := by
    rw [Hole]
    simp only [KERNBASE, PHYSTOP, DEVSPACE]
    omega
  rw [hhole] at hpde
  by_cases h : Hole va
  · rw [if_pos h]
    exact Space.table_of_not (Bool.eq_false_iff.mpr (mt hpde.mp (not_not.mpr h)))
  · rw [if_neg h]
    exact Space.table_of_has hi.2 (hpde.mpr h)

theorem copyout_kernel (h : Good W s A) (hk : KernelPart A) (hlo : KERNBASE ≤ va) (hva : va < 2 ^ 32) (hhole : ¬ Hole va)
    (hpos : 0 < buf.length) : Runs (copyout_from K cr3 A.dir (fuel + 1) va buf) s (fun r t => r = -1 ∧ t = s) E := by
  have htable := table_kernel hk hlo hva
  rw [if_neg hhole, ← PDX_PGROUNDDOWN hva] at htable
  have hpage : USERPAGES ≤ NPTENTRIES * PDX (PGROUNDDOWN va) + PTX (PGROUNDDOWN va) := by
    rw [PDX_PGROUNDDOWN hva]
    simp only [USERPAGES, KERNBASE, PGSIZE, NPTENTRIES] at hlo ⊢
    omega
  have hnone : Runs (uva2ka A.dir (PGROUNDDOWN va)) s (fun r t => r = none ∧ t = s) E := by
    refine (uva2ka_user h hk _).mono (fun r t hr => ⟨Option.eq_none_iff_forall_ne_some.mpr fun pa hpa => ?_, hr.1⟩)
      fun e he => ?_
    · exact absurd (Space.user_eq_some (hr.2.2 pa hpa)).1 (Nat.not_lt.mpr hpage)
    · rw [htable] at he
      cases he.2
  rw [copyout_from, if_pos hpos]
  refine hnone.bind fun r t hr => ?_
  obtain ⟨rfl, rfl⟩ := hr
  exact Runs.pure ⟨rfl, rfl⟩

/-- Where there is no page table the kernel stops. -/
theorem copyout_hole (h : Good W s A) (hk : KernelPart A) (hhole : Hole va) (hpos : 0 < buf.length) :
    Runs (copyout K cr3 A.dir va buf) s Q (· = .uva2ka) := by
  have hlo : KERNBASE ≤ va := Nat.le_trans (Nat.le_add_right ..) hhole.1
  have hva : va < 2 ^ 32 := Nat.lt_trans hhole.2 (by decide)
  have htable := table_kernel hk hlo hva
  rw [if_pos hhole, ← PDX_PGROUNDDOWN hva] at htable
  rw [copyout, copyout_from, if_pos hpos]
  refine Runs.bind ((uva2ka_user h hk _).stops fun _ he => he.1) fun r t hr => ?_
  exact absurd htable hr.2.1

end Kernel

/-! ### What the pushes leave alone -/

section Keep
variable {cr3 fuel va sp sz : Nat} {buf : List Byte} {argv : List (List Byte)} {ustack : List Nat}

/-- The same page directory, with other bytes in user pages. -/
def Rewritten (W : World K) (A : Space) (t : State) : Prop :=
  ∃ B, Good W t B ∧ B.dir = A.dir ∧ B.hand = A.hand ∧ KernelPart B

theorem Rewritten.trans (hdir : B.dir = A.dir) (hhand : B.hand = A.hand) (h : Rewritten W B t) : Rewritten W A t := by
  obtain ⟨C, hC, hdir', hhand', hk⟩ := h
  exact ⟨C, hC, hdir'.trans hdir, hhand'.trans hhand, hk⟩

/-- Whatever it is to copy and to whichever address, `copyout` writes to user pages only. -/
theorem copyout_from_keeps (h : Good W s A) (hk : KernelPart A) :
    Runs (copyout_from K cr3 A.dir fuel va buf) s (fun _ t => Rewritten W A t) (· = .uva2ka) := by
  induction fuel generalizing va buf s A with
  | zero => exact Runs.pure ⟨A, h, rfl, rfl, hk⟩
  | succ fuel ih =>
    rw [copyout_from]
    refine Runs.ite (fun _ => ?_) fun _ => Runs.pure ⟨A, h, rfl, rfl, hk⟩
    refine Runs.bind ((uva2ka_user h hk _).stops fun _ he => he.1) fun r t hr => ?_
    obtain ⟨rfl, -, huser⟩ := hr
    cases r with
    | none => exact Runs.pure ⟨A, h, rfl, rfl, hk⟩
    | some pa =>
      have hv := huser pa rfl
      refine (store_runs (W.pool (h.all_held (q := .page _) hv))).bind fun _ u hu => ?_
      subst hu
      exact ih (A := A.setMem _ _) (h.setMem_page hv _) (hk.setMem _ _)

theorem exec_push_keeps (h : Good W s A) (hk : KernelPart A) :
    Runs (exec_push K cr3 A.dir argv sp ustack) s (fun _ t => Rewritten W A t) (· = .uva2ka) := by
  induction argv generalizing sp ustack s A with
  | nil => exact Runs.pure ⟨A, h, rfl, rfl, hk⟩
  | cons arg argv ih =>
    rw [exec_push]
    refine Runs.ite (fun _ => Runs.pure ⟨A, h, rfl, rfl, hk⟩) fun _ => ?_
    refine (copyout_from_keeps h hk).bind fun r t hr => ?_
    refine Runs.ite (fun _ => Runs.pure hr) fun _ => ?_
    obtain ⟨B, hB, hdir, hhand, hkB⟩ := hr
    rw [← hdir]
    exact (ih hB hkB).post fun _ _ hu => hu.trans hdir hhand

theorem exec_args_keeps (h : Good W s A) (hk : KernelPart A) :
    Runs (exec_args K cr3 A.dir sz argv) s (fun _ t => Rewritten W A t) (· = .uva2ka) := by
  rw [exec_args]
  refine (exec_push_keeps h hk).bind fun r t hr => ?_
  cases r with
  | none => exact Runs.pure hr
  | some x =>
    obtain ⟨B, hB, hdir, hhand, hkB⟩ := hr
    rw [← hdir]
    refine (copyout_from_keeps hB hkB).bind fun _ u hu => ?_
    exact Runs.ite (fun _ => Runs.pure (hu.trans hdir hhand)) fun _ => Runs.pure (hu.trans hdir hhand)

end Keep

/-! ### Pushing the arguments -/

/-- A string is pushed to an address without page table, after others that fit in the stack page. -/
def Strays (bottom : Nat) : Nat → List (List Byte) → Prop
  | _, [] => False
  | sp, arg :: argv =>
    Hole (pushed sp arg) ∨ bottom ≤ pushed sp arg ∧ pushed sp arg < KERNBASE ∧ Strays bottom (pushed sp arg) argv

def decStrays (bottom : Nat) : (sp : Nat) → (argv : List (List Byte)) → Decidable (Strays bottom sp argv)
  | _, [] => inferInstanceAs (Decidable False)
  | sp, arg :: argv =>
    let _ := decStrays bottom (pushed sp arg) argv
    inferInstanceAs (Decidable (Hole (pushed sp arg) ∨ _ ≤ _ ∧ _ < _ ∧ Strays bottom (pushed sp arg) argv))

instance (bottom sp : Nat) (argv : List (List Byte)) : Decidable (Strays bottom sp argv) := decStrays bottom sp argv

/-- The strings fit in the stack page. -/
def Fits (bottom : Nat) : Nat → List (List Byte) → Prop
  | _, [] => True
  | sp, arg :: argv => bottom ≤ pushed sp arg ∧ pushed sp arg < KERNBASE ∧ Fits bottom (pushed sp arg) argv

/-- The strings on the stack. -/
def strings : Nat → List (List Byte) → List (Nat × List Byte)
  | _, [] => []
  | sp, arg :: argv => (pushed sp arg, arg ++ [0]) :: strings (pushed sp arg) argv

section Push
variable {cr3 sp : Nat} {arg : List Byte} {argv : List (List Byte)} {ustack : List Nat}

theorem length_strings : (strings sp argv).length = argv.length := by
  induction argv generalizing sp with
  | nil => rfl
  | cons arg argv ih => rw [strings, length_cons, length_cons, ih]

theorem pushed_fits (hsp : sp < KERNBASE) (hlen : arg.length + 1 ≤ sp) :
    pushed sp arg + (arg ++ [0]).length ≤ sp ∧ sp < pushed sp arg + (arg ++ [0]).length + 4 := by
  rw [pushed, length_append, length_singleton]
  simp only [KERNBASE] at hsp
  omega

theorem pushed_wraps (hsp : sp < KERNBASE) (hlen : sp < arg.length + 1) (harg : arg.length < 2 ^ 31) :
    KERNBASE ≤ pushed sp arg ∧ pushed sp arg < 2 ^ 32 := by
  rw [pushed]
  simp only [KERNBASE] at hsp ⊢
  omega

/-- The arguments are on the stack, or `exec` fails, or a string strays and the kernel stops. -/
theorem exec_push_runs (h : Good W s A) (hr : Ready A n f) (hlo : (n - 1) * PGSIZE ≤ sp) (hhi : sp ≤ n * PGSIZE)
    (hcount : ustack.length + argv.length < MAXARG) (hlen : ∀ arg ∈ argv, arg.length < 2 ^ 31) :
    Runs (exec_push K cr3 A.dir argv sp ustack) s (fun r t => ¬ Strays ((n - 1) * PGSIZE) sp argv ∧
      ((r = none ∧ ¬ Fits ((n - 1) * PGSIZE) sp argv ∧ ∃ B, Good W t B ∧ B.dir = A.dir ∧ B.hand = none) ∨
      (r = some (foot sp (strings sp argv), ustack ++ (strings sp argv).map Prod.fst) ∧
        Descends sp (strings sp argv) ∧ (n - 1) * PGSIZE ≤ foot sp (strings sp argv) ∧
        ∃ B, Good W t B ∧ B.dir = A.dir ∧ Ready B n (lay (strings sp argv) f))))
      fun e => e = .uva2ka ∧ Strays ((n - 1) * PGSIZE) sp argv := by
  induction argv generalizing sp ustack s A f with
  | nil => exact Runs.pure ⟨id, .inr ⟨by rw [strings, map_nil, append_nil]; rfl, trivial, hlo, A, h, rfl, hr⟩⟩
  | cons arg argv ih =>
    have hsp : sp < KERNBASE := Nat.lt_of_le_of_lt hhi hr.lt
    have hpos : 0 < (arg ++ [0]).length := by rw [length_append]; exact Nat.succ_pos _
    rw [length_cons] at hcount
    rw [exec_push, if_neg (by omega)]
    by_cases hhole : Hole (pushed sp arg)
    · refine Runs.bind (R := fun _ _ => False) ?_ fun _ _ hf => hf.elim
      exact (copyout_hole h hr.kernel hhole hpos).stops fun _ he => ⟨he, .inl hhole⟩
    by_cases hfit : arg.length + 1 ≤ sp
    · obtain ⟨hend, hround⟩ := pushed_fits hsp hfit
      refine (push_runs h hr hlo hhi hpos hend hround).bind fun r t hrt => ?_
      rcases hrt with ⟨rfl, hout, hB⟩ | ⟨rfl, hin, B, hB, hdir, hready⟩
      · have hno : ¬ (n - 1) * PGSIZE ≤ pushed sp arg := Nat.not_le.mpr hout
        rw [if_pos (by decide)]
        exact Runs.pure ⟨not_or.mpr ⟨hhole, fun hc => hno hc.1⟩, .inl ⟨rfl, fun hc => hno hc.1, hB⟩⟩
      rw [if_neg (by decide), ← hdir]
      have hle : pushed sp arg ≤ sp := Nat.le_trans (Nat.le_add_right ..) hend
      refine (ih hB hready hin (Nat.le_trans hle hhi) ?_ (fun a ha => hlen a (mem_cons_of_mem _ ha))).mono
        (fun r u hu => ?_) fun _ he => ⟨he.1, .inr ⟨hin, Nat.lt_of_le_of_lt hle hsp, he.2⟩⟩
      · rw [length_append, length_singleton]
        omega
      · refine ⟨not_or.mpr ⟨hhole, fun hc => hu.1 hc.2.2⟩, ?_⟩
        rcases hu.2 with ⟨rfl, hout, hC⟩ | ⟨rfl, hdesc, hfoot, hC⟩
        · exact .inl ⟨rfl, fun hc => hout hc.2.2, hC⟩
        · refine .inr ⟨?_, ⟨hend, hdesc⟩, hfoot, hC⟩
          rw [strings, map_cons, append_assoc]
          rfl
    · obtain ⟨hge, hlt⟩ := pushed_wraps hsp (Nat.not_le.mp hfit) (hlen arg (mem_cons_self ..))
      refine (copyout_kernel h hr.kernel hge hlt hhole hpos).bind fun r t hrt => ?_
      obtain ⟨rfl, rfl⟩ := hrt
      have hno : ¬ pushed sp arg < KERNBASE := Nat.not_lt.mpr hge
      rw [if_pos (by decide)]
      exact Runs.pure ⟨not_or.mpr ⟨hhole, fun hc => hno hc.2.1⟩, .inl ⟨rfl, fun hc => hno hc.2.1, A, h, rfl, hr.hand⟩⟩

end Push

/-! ### The words of the stack -/

/-- The words that `exec` pushes last. -/
def stackWords (sz : Nat) (argv : List (List Byte)) : List Nat :=
  [0xffffffff, argv.length, foot sz (strings sz argv) - (argv.length + 1) * 4] ++ (strings sz argv).map Prod.fst ++ [0]

/-- Where it pushes them. -/
def stackTop (sz : Nat) (argv : List (List Byte)) : Nat := foot sz (strings sz argv) - (3 + argv.length + 1) * 4

/-- All that is on the stack. -/
def stackBlocks (sz : Nat) (argv : List (List Byte)) : List (Nat × List Byte) :=
  strings sz argv ++ [(stackTop sz argv, wordBytes (stackWords sz argv))]

theorem length_wordBytes (ws : List Nat) : (wordBytes ws).length = 4 * ws.length := by
  induction ws with
  | nil => rfl
  | cons w ws ih =>
    rw [wordBytes, flatMap_cons, length_append, length_map, length_range, ← wordBytes, ih,
      length_cons]
    omega

theorem length_stackWords (sz : Nat) (argv : List (List Byte)) : (stackWords sz argv).length = 3 + argv.length + 1 := by
  rw [stackWords, length_append, length_append, length_map, length_strings]
  rfl

theorem words_below (hsp : PGSIZE ≤ sp) (hlt : sp < KERNBASE) (hk : k ≤ 3 + MAXARG + 1) :
    (sp + (2 ^ 32 - k * 4)) % 2 ^ 32 = sp - k * 4 ∧ sp - k * 4 + 4 * k = sp := by
  simp only [PGSIZE, KERNBASE, MAXARG] at hsp hlt hk
  omega

/-- The arguments and the words are on the stack, or `exec` fails, or a string strays and the kernel stops. -/
theorem exec_args_runs (cr3 : Nat) (h : Good W s A) (hr : Ready A n f)
    (hcount : argv.length < MAXARG) (hlen : ∀ arg ∈ argv, arg.length < 2 ^ 31) :
    Runs (exec_args K cr3 A.dir (n * PGSIZE) argv) s (fun r t => ¬ Strays ((n - 1) * PGSIZE) (n * PGSIZE) argv ∧
      ((r = none ∧ ¬ (Fits ((n - 1) * PGSIZE) (n * PGSIZE) argv ∧ (n - 1) * PGSIZE ≤ stackTop (n * PGSIZE) argv) ∧
        ∃ B, Good W t B ∧ B.dir = A.dir ∧ B.hand = none) ∨
      (r = some (stackTop (n * PGSIZE) argv) ∧ Descends (n * PGSIZE) (stackBlocks (n * PGSIZE) argv) ∧
        (n - 1) * PGSIZE ≤ stackTop (n * PGSIZE) argv ∧
        ∃ B, Good W t B ∧ B.dir = A.dir ∧ Ready B n (lay (stackBlocks (n * PGSIZE) argv) f))))
      fun e => e = .uva2ka ∧ Strays ((n - 1) * PGSIZE) (n * PGSIZE) argv := by
  have htwo := hr.two
  have hsz : (n - 1) * PGSIZE ≤ n * PGSIZE := Nat.mul_le_mul_right _ (Nat.sub_le n 1)
  rw [exec_args]
  refine (exec_push_runs h hr hsz (Nat.le_refl _) (by rw [length_nil, Nat.zero_add]; exact hcount) hlen).bind
    fun r t hrt => ?_
  obtain ⟨hstray, hrt⟩ := hrt
  rcases hrt with ⟨rfl, hout, hB⟩ | ⟨rfl, hdesc, hfoot, B, hB, hdir, hready⟩
  · exact Runs.pure ⟨hstray, .inl ⟨rfl, fun hc => hout hc.1, hB⟩⟩
  have hfoot_le := hdesc.foot_le
  have hpage : PGSIZE ≤ foot (n * PGSIZE) (strings (n * PGSIZE) argv) :=
    Nat.le_trans (Nat.le_mul_of_pos_left _ (by omega)) hfoot
  have hbelow := words_below (k := 3 + argv.length + 1) hpage (Nat.lt_of_le_of_lt hfoot_le hr.lt) (by omega)
  have hargv := (words_below (k := argv.length + 1) hpage (Nat.lt_of_le_of_lt hfoot_le hr.lt) (by omega)).1
  have htop : (foot (n * PGSIZE) (strings (n * PGSIZE) argv) + (2 ^ 32 - (3 + argv.length + 1) * 4)) % 2 ^ 32 =
      stackTop (n * PGSIZE) argv := hbelow.1
  have hwords : stackTop (n * PGSIZE) argv + (wordBytes (stackWords (n * PGSIZE) argv)).length =
      foot (n * PGSIZE) (strings (n * PGSIZE) argv) := by
    rw [length_wordBytes, length_stackWords]
    exact hbelow.2
  dsimp only
  rw [nil_append, length_map, length_strings]
  rw [hargv, htop, ← hdir, show [4294967295, argv.length,
    foot (n * PGSIZE) (strings (n * PGSIZE) argv) - (argv.length + 1) * 4] ++
      (strings (n * PGSIZE) argv).map Prod.fst ++ [0] = stackWords (n * PGSIZE) argv from rfl]
  refine (push_runs hB hready hfoot hfoot_le ?_ ?_ ?_).bind fun r u hu => ?_
  · rw [length_wordBytes, length_stackWords]
    omega
  · exact Nat.le_of_eq hwords
  · omega
  rcases hu with ⟨rfl, hout, hC⟩ | ⟨rfl, hin, C, hC, hdir', hready'⟩
  · rw [if_pos (by decide)]
    exact Runs.pure ⟨hstray, .inl ⟨rfl, fun hc => Nat.not_le.mpr hout hc.2, hC⟩⟩
  · rw [if_neg (by decide)]
    refine Runs.pure ⟨hstray, .inr ⟨rfl, hdesc.append (Nat.le_of_eq hwords), hin, C, hC, hdir', ?_⟩⟩
    rw [stackBlocks, lay_append]
    exact hready'

/-- The pushes of `exec` return unless a string strays, to an address without page table: that alone stops the kernel,
at the null pointer that `uva2ka` follows. -/
theorem exec_args_present_iff (hnodup : s.freelist.Nodup) (hpool : ∀ pa ∈ s.freelist, K.Pool pa) {file : List Byte}
    (hfile : file.length ≤ MAXFILE * BSIZE) {im : Image} (hload : exec_load K file s = .ok (some im, t)) (cr3 : Nat)
    {argv : List (List Byte)} (hcount : argv.length < MAXARG) (hlen : ∀ arg ∈ argv, arg.length < 2 ^ 31) :
    ((∃ r u, exec_args K cr3 im.pgdir im.sz argv t = .ok (r, u)) ↔ ¬ Strays (im.sz - PGSIZE) im.sz argv) ∧
      (exec_args K cr3 im.pgdir im.sz argv t = .error .uva2ka ↔ Strays (im.sz - PGSIZE) im.sz argv) := by
  have hloaded := (exec_load_runs (E := fun _ => False) (Nat.le_trans hfile (by decide))
    (State.bare hnodup hpool)).of_ok hload
  rcases hloaded with ⟨hnone, -⟩ | ⟨im', him, B, hB, rfl, -, hready⟩
  · cases hnone
  obtain rfl := Option.some.inj him
  have hbottom : (npages (progSize file) + 2) * PGSIZE - PGSIZE = (npages (progSize file) + 2 - 1) * PGSIZE := by
    rw [Nat.sub_mul, Nat.one_mul]
  dsimp only
  rw [hbottom]
  have hruns := exec_args_runs cr3 hB hready hcount hlen
  cases hx : exec_args K cr3 B.dir ((npages (progSize file) + 2) * PGSIZE) argv t with
  | ok x =>
    obtain ⟨r, u⟩ := x
    have hno := (hruns.of_ok hx).1
    exact ⟨⟨fun _ => hno, fun _ => ⟨r, u, rfl⟩⟩, fun hc => (by cases hc), fun hc => absurd hc hno⟩
  | error e =>
    obtain ⟨rfl, hstray⟩ := hruns.of_error hx
    refine ⟨⟨fun hc => ?_, fun hc => absurd hstray hc⟩, fun _ => hstray, fun _ => rfl⟩
    obtain ⟨r, u, hok⟩ := hc
    cases hok

/-- The arguments `ls` and `-l`, of a program without segments. -/
theorem exec_args_present_elf :
    ∃ t, exec_load Kernel.tiny elf (State.tiny Bytes.zero) = .ok (some ⟨4113, 0, 2 * PGSIZE⟩, t) ∧
      ∃ r u, exec_args Kernel.tiny 1024 4113 (2 * PGSIZE) [[108, 115], [45, 108]] t = .ok (r, u) := by
  obtain ⟨t, B, hload, -, -, -⟩ := exec_load_elf Bytes.zero
  have hlen : ∀ arg ∈ ([[108, 115], [45, 108]] : List (List Byte)), arg.length < 2 ^ 31 := by decide
  have hiff := exec_args_present_iff (bare_tiny Bytes.zero).nodup (tiny_pool Bytes.zero) (by decide) hload 1024
    (by decide) hlen
  exact ⟨t, hload, hiff.1.mpr (by decide)⟩

/-- A string of 32 megabytes and three pages is pushed just below the devices, where there is no page table. -/
theorem exec_args_strays_elf :
    ∃ t, exec_load Kernel.tiny elf (State.tiny Bytes.zero) = .ok (some ⟨4113, 0, 2 * PGSIZE⟩, t) ∧
      exec_args Kernel.tiny 1024 4113 (2 * PGSIZE) [List.replicate 0x2002003 97] t = .error .uva2ka := by
  obtain ⟨t, B, hload, hB, hdir, hready⟩ := exec_load_elf Bytes.zero
  refine ⟨t, hload, ?_⟩
  have hlen : (List.replicate 0x2002003 (97 : Byte)).length = 0x2002003 := length_replicate
  generalize List.replicate 0x2002003 (97 : Byte) = arg at hlen
  have hpush : pushed (2 * PGSIZE) arg = 0xFDFFFFFC := by
    rw [pushed, hlen]
    decide
  have hstray : Strays ((2 - 1) * PGSIZE) (2 * PGSIZE) [arg] := .inl (by rw [hpush]; decide)
  have hruns := exec_args_runs 1024 hB hready (show [arg].length < MAXARG from (by decide : 1 < MAXARG))
    fun a ha => by
      rw [mem_singleton.mp ha, hlen]
      decide
  rw [hdir] at hruns
  cases hx : exec_args Kernel.tiny 1024 4113 (2 * PGSIZE) [arg] t with
  | ok x =>
    obtain ⟨r, u⟩ := x
    exact absurd hstray (hruns.of_ok hx).1
  | error e => rw [(hruns.of_error hx).1]

end Xv6.Vm
