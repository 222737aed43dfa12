import Xv6.Vm.Table

/-! User memory: `mappages` of one page, `deallocuvm` and `allocuvm`. -/
namespace Xv6.Vm
open Lib

variable {K : Kernel} {W : World K} {s t : State} {A B : Space} {E : Halt → Prop}

/-! ### `mappages` -/

theorem mappages_step (h : Good W s A) (hv : v < PAGES) (hno : has (A.pte v) PTE_P = false)
    (hfail : ∀ t, Good W t A → (W.calm → t.freelist = []) → Q (-1) t)
    (hok : ∀ B pgtab t, Good W t B → Grown A B (v / NPTENTRIES) → B.table (v / NPTENTRIES) = some pgtab →
      Runs (if v * PGSIZE = last then pure 0
        else mappages_from A.dir last perm fuel ((v * PGSIZE + PGSIZE) % 2 ^ 32) ((pa + PGSIZE) % 2 ^ 32))
        (t.setPte pgtab v (BitVec.ofNat 32 pa ||| perm ||| PTE_P)) Q E) :
    Runs (mappages_from A.dir last perm (fuel + 1) (v * PGSIZE) pa) s Q E := by
  have hpdx : PDX (v * PGSIZE) = v / NPTENTRIES := PDX_page v hv
  have hptx : PTX (v * PGSIZE) = v % NPTENTRIES := by simp only [PTX, PGSIZE, NPTENTRIES]; omega
  rw [mappages_from]
  refine (walkpgdir_alloc_runs h (v * PGSIZE)).bind fun r t hr => ?_
  rw [hpdx, hptx] at hr
  rcases hr with ⟨rfl, ht, hfree⟩ | ⟨B, pgtab, rfl, ht, htable, hgrown⟩
  · exact Runs.pure (hfail t ht hfree)
  refine (getWord_runs pgtab (v % NPTENTRIES) t).bind fun w u hw => ?_
  obtain ⟨rfl, rfl⟩ := hw
  rw [ht.shows.pte htable (Nat.mod_lt v (by decide)), div_add_mod_page, hgrown.pte,
    if_neg (by rw [hno]; decide)]
  refine (setWord_runs pgtab _ _ u).bind fun _ x hx => ?_
  subst hx
  exact hok B pgtab u ht hgrown htable

theorem mapPage_runs (perm : BitVec 32) (h : Good W s A) (hv : v < USERPAGES)
    (hno : has (A.pte v) PTE_P = false) (hb : A.hand = some (pa, b))
    (hperm : perm.toNat < PGSIZE) :
    Runs (mappages A.dir (v * PGSIZE) PGSIZE (pa * PGSIZE) perm) s (fun r t =>
      (r = -1 ∧ Good W t A ∧ (W.calm → t.freelist = [])) ∨
      (r = 0 ∧ ∃ B, Grown A B (v / NPTENTRIES) ∧ Good W t (B.map v (entry pa (perm ||| PTE_P)) b))) E := by
  have hv' : v < PAGES := Nat.lt_trans hv (by decide)
  have hlast : PGROUNDDOWN ((v * PGSIZE + PGSIZE + (2 ^ 32 - 1)) % 2 ^ 32) = v * PGSIZE := by
    simp only [PGROUNDDOWN, PGSIZE, USERPAGES, KERNBASE] at hv ⊢
    omega
  have hfirst : PGROUNDDOWN (v * PGSIZE) = v * PGSIZE := by simp only [PGROUNDDOWN, PGSIZE]; omega
  have hlt := (W.pool (h.all_held (Good.held_hand hb))).lt
  have hflags : (perm ||| PTE_P).toNat < PGSIZE := by
    rw [BitVec.toNat_or]
    exact Nat.or_lt_two_pow (n := 12) hperm (by decide)
  rw [mappages, hlast, hfirst, show 2 ^ 20 = (2 ^ 20 - 1) + 1 from rfl]
  refine mappages_step h hv' hno (fun t ht hfree => .inl ⟨rfl, ht, hfree⟩) fun B pgtab t ht hgrown htable => ?_
  rw [if_pos rfl, BitVec.or_assoc, show BitVec.ofNat 32 (pa * PGSIZE) ||| (perm ||| PTE_P) =
    entry pa (perm ||| PTE_P) from rfl]
  refine Runs.pure (.inr ⟨rfl, B, hgrown, ?_⟩)
  refine ht.map hv (by rw [hgrown.pte]; exact hno) htable (by rw [hgrown.hand]; exact hb) ?_ (PTE_ADDR_entry hlt hflags)
  rw [has_entry hlt hflags (by decide)]
  exact has_or_self (by decide)

/-! ### `deallocuvm` -/

/-- The space without the virtual pages from `lo` to `hi`. -/
def Space.cut (A : Space) (lo hi : Nat) : Space :=
  {A with pte := fun v => if lo ≤ v ∧ v < hi then 0 else A.pte v}

theorem Space.cut_of_le (h : hi ≤ lo) : A.cut lo hi = A := by
  have hpte : (fun v => if lo ≤ v ∧ v < hi then 0 else A.pte v) = A.pte :=
    funext fun v => if_neg (by omega)
  rw [Space.cut, hpte]

/-- Pages that are not there need not be cut. -/
theorem Space.cut_skip (h : ∀ v, lo ≤ v → v < mid → A.pte v = 0) (hle : lo ≤ mid) :
    A.cut lo hi = A.cut mid hi := by
  have hpte : (fun v => if lo ≤ v ∧ v < hi then 0 else A.pte v) =
      fun v => if mid ≤ v ∧ v < hi then 0 else A.pte v := funext fun v => by
    by_cases hlo : lo ≤ v ∧ v < hi
    · rw [if_pos hlo]
      split
      · rfl
      · exact (h v hlo.1 (by omega)).symm
    · rw [if_neg hlo, if_neg (by omega)]
  rw [Space.cut, Space.cut, hpte]

theorem Space.cut_setPte (h : lo < hi) : (A.setPte lo 0).cut (lo + 1) hi = A.cut lo hi := by
  have hpte : (fun v => if lo + 1 ≤ v ∧ v < hi then 0 else (A.setPte lo 0).pte v) =
      fun v => if lo ≤ v ∧ v < hi then 0 else A.pte v := funext fun v => by
    by_cases hv : v = lo
    · rw [hv, if_neg (by omega), if_pos ⟨Nat.le_refl _, h⟩, Space.setPte_pte_self]
    · rw [Space.setPte_pte_of_ne hv]
      by_cases hlo : lo ≤ v ∧ v < hi
      · rw [if_pos hlo, if_pos (by omega)]
      · rw [if_neg hlo, if_neg (by omega)]
  rw [Space.cut, Space.cut, hpte]
  rfl

/-- A user page is freed, and its word cleared. -/
theorem Good.unmap (h : Good W s A) (hu : A.user v = some pa)
    (ht : A.table (v / NPTENTRIES) = some pgtab) :
    Good W ((s.freed pa).setPte pgtab v 0) (A.setPte v 0) := by
  obtain ⟨hv, -, -⟩ := Space.user_eq_some hu
  have hall := h.all_held (q := .page v) hu
  have hne : pgtab ≠ pa := fun he => by
    have := h.places.once (p := .table (v / NPTENTRIES)) (q := .page v) (x := pa) (he ▸ ht) hu
    cases this
  have hheld : (A.setPte v 0).held = Function.update A.held (.page v) none := by
    rw [Space.held_setPte hv, has_zero]
    rfl
  have hcut : Good W {s.setPte pgtab v 0 with freelist := pa :: s.freelist} (A.setPte v 0) := by
    refine ⟨?_, ?_, fun x => ?_, h.same_put (h.all_held (q := .table _) ht) _, h.clean.setPte fun _ => rfl, h.calm⟩
    · have hset := h.shows.setPte h.places ht (Nat.mod_lt v (by decide)) (w := 0) (fun {x} hx => by
        rw [div_add_mod_page] at hx
        obtain ⟨-, hx, -⟩ := Space.user_eq_some hx
        rw [Space.setPte_pte_self, has_zero] at hx
        cases hx)
      rw [div_add_mod_page] at hset
      exact hset
    · rw [hheld]
      exact h.places.release hu
    · have hrelease : Has (Function.update A.held (.page v) none) (pa :: s.freelist) x ↔ Has A.held s.freelist x :=
        has_release hu
      rw [hheld, hrelease]
      exact h.all x
  have hswap : (s.freed pa).setPte pgtab v 0 =
      State.put {s.setPte pgtab v 0 with freelist := pa :: s.freelist} pa (Bytes.ofFn fun _ => 1) := by
    have hpage : (s.freed pa).page pgtab = s.page pgtab := State.put_page_of_ne hne
    rw [State.setPte, hpage, State.setPte, State.put, State.put, State.put, State.freed, State.put]
    simp only
    rw [Function.update_comm hne]
  rw [hswap]
  exact ⟨hcut.shows.put (fun q hq => hcut.places.apart hq (List.mem_cons_self ..)) _, hcut.places, hcut.all,
    hcut.same_put hall _, hcut.clean, h.calm⟩

/-- The number of pages for `sz` bytes. -/
def npages (sz : Nat) : Nat := (sz + PGSIZE - 1) / PGSIZE

theorem PGROUNDUP_eq (sz : Nat) : PGROUNDUP sz = npages sz * PGSIZE := rfl

theorem lt_npages : v < npages sz ↔ v * PGSIZE < sz := by
  simp only [npages, PGSIZE]
  omega

theorem npages_le (h : sz ≤ KERNBASE) : npages sz ≤ USERPAGES := by
  simp only [npages, PGSIZE, KERNBASE, USERPAGES] at *
  omega

theorem deallocuvm_from_runs (h : Good W s A) (hold : oldsz ≤ KERNBASE)
    (hfuel : npages oldsz ≤ v + fuel) :
    Runs (deallocuvm_from K A.dir oldsz fuel (v * PGSIZE)) s
      (fun _ t => Good W t (A.cut v (npages oldsz))) E := by
  induction fuel generalizing v s A with
  | zero =>
    rw [Space.cut_of_le (show npages oldsz ≤ v from hfuel)]
    exact Runs.pure h
  | succ fuel ih =>
    rw [deallocuvm_from]
    by_cases hlt : v < npages oldsz
    · have hv : v < USERPAGES := Nat.lt_of_lt_of_le hlt (npages_le hold)
      have hpdx : PDX (v * PGSIZE) = v / NPTENTRIES := PDX_page v (Nat.lt_trans hv (by decide))
      have hptx : PTX (v * PGSIZE) = v % NPTENTRIES := by simp only [PTX, PGSIZE, NPTENTRIES]; omega
      have hnext : (v * PGSIZE + PGSIZE) % 2 ^ 32 = (v + 1) * PGSIZE :=
        page_succ (Nat.lt_of_le_of_lt (Nat.succ_le_of_lt hv) (by decide))
      rw [if_pos (lt_npages.mp hlt), hnext]
      refine (walkpgdir_runs h.shows (v * PGSIZE)).bind fun r t hr => ?_
      rw [hpdx, hptx] at hr
      obtain ⟨rfl, rfl⟩ := hr
      cases htable : A.table (v / NPTENTRIES) with
      | none =>
        -- No page table: the loop goes on at the next directory entry.
        have hjump : (PDX (v * PGSIZE) + 1) * 2 ^ 22 % 2 ^ 32 = (v / NPTENTRIES + 1) * NPTENTRIES * PGSIZE := by
          rw [hpdx]
          simp only [PGSIZE, USERPAGES, KERNBASE, NPTENTRIES] at hv ⊢
          omega
        have hno : has (A.pde (v / NPTENTRIES)) PTE_P = false := by
          by_contra hp
          rw [Space.table_of_has (by simp only [USERPAGES, KERNBASE, PGSIZE, NPTENTRIES, NPDENTRIES] at *; omega)
            (Bool.eq_true_of_not_eq_false hp)] at htable
          cases htable
        have hskip : ∀ u, v ≤ u → u < (v / NPTENTRIES + 1) * NPTENTRIES → A.pte u = 0 := fun u hvu hu => by
          have hdiv : u / NPTENTRIES = v / NPTENTRIES := by
            simp only [NPTENTRIES] at hu ⊢
            omega
          have := h.shows.rest (i := v / NPTENTRIES) (j := u % NPTENTRIES)
            (by simp only [USERPAGES, KERNBASE, PGSIZE, NPTENTRIES, NPDENTRIES] at *; omega) hno (Nat.mod_lt u (by decide))
          rw [← hdiv, div_add_mod_page] at this
          exact this
        rw [Space.cut_skip hskip (by simp only [NPTENTRIES]; omega)]
        simp only [Option.map_none, hjump]
        exact ih h (by simp only [NPTENTRIES] at *; omega)
      | some pgtab =>
        refine (getWord_runs pgtab (v % NPTENTRIES) t).bind fun w u hw => ?_
        obtain ⟨rfl, rfl⟩ := hw
        rw [h.shows.pte htable (Nat.mod_lt v (by decide)), div_add_mod_page]
        refine Runs.ite (fun hp => ?_) fun hp => ?_
        · have huser := Space.user_of_has hv hp
          have hpool := W.pool (h.all_held (q := .page v) huser)
          have hzero : PTE_ADDR (A.pte v) ≠ 0 := fun h0 => by
            have hk := K.order
            have ht := K.text
            obtain ⟨hends, -⟩ := hpool
            simp only [h0, KERNLINK, EXTMEM, KERNBASE] at hends ht
            omega
          rw [if_neg hzero]
          refine (kfree_runs hpool u).bind fun _ x hx => ?_
          subst hx
          refine (setWord_runs pgtab _ _ _).bind fun _ x hx => ?_
          subst hx
          have hcut := ih (h.unmap huser htable) (v := v + 1) (by omega)
          rw [Space.cut_setPte hlt] at hcut
          exact hcut
        · have hskip : ∀ u, v ≤ u → u < v + 1 → A.pte u = 0 := fun u hvu hu => by
            obtain rfl : u = v := by omega
            exact h.clean _ (Bool.eq_false_iff.mpr hp)
          rw [Space.cut_skip hskip (Nat.le_succ v)]
          exact ih h (by omega)
    · rw [if_neg (mt lt_npages.mpr hlt), Space.cut_of_le (Nat.not_lt.mp hlt)]
      exact Runs.pure h

/-- `deallocuvm` frees the pages from `newsz` to `oldsz`. -/
theorem deallocuvm_runs (h : Good W s A) (hold : oldsz ≤ KERNBASE) (hlt : newsz < oldsz) :
    Runs (deallocuvm K A.dir oldsz newsz) s
      (fun r t => r = newsz ∧ Good W t (A.cut (npages newsz) (npages oldsz))) E := by
  rw [deallocuvm, if_neg (Nat.not_le.mpr hlt), PGROUNDUP_eq]
  have hfuel : npages oldsz ≤ npages newsz + 2 ^ 20 :=
    Nat.le_trans (npages_le hold) (Nat.le_trans (by decide) (Nat.le_add_left ..))
  exact (deallocuvm_from_runs h hold hfuel).bind fun _ t ht => Runs.pure ⟨rfl, ht⟩

/-! ### `allocuvm` -/

/-- Page tables for user pages may have been added. -/
structure Spread (A B : Space) : Prop where
  dir : B.dir = A.dir
  kernel : ∀ {k}, USERPAGES / NPTENTRIES ≤ k → B.pde k = A.pde k
  kept : ∀ {k}, has (A.pde k) PTE_P = true → B.pde k = A.pde k

theorem Spread.refl (A : Space) : Spread A A := ⟨rfl, fun _ => rfl, fun _ => rfl⟩

theorem Spread.trans {C : Space} (h : Spread A B) (h' : Spread B C) : Spread A C where
  dir := h'.dir.trans h.dir
  kernel hk := (h'.kernel hk).trans (h.kernel hk)
  kept hk := (h'.kept (by rw [h.kept hk]; exact hk)).trans (h.kept hk)

theorem Grown.spread (h : Grown A B (v / NPTENTRIES)) (hv : v < USERPAGES) : Spread A B where
  dir := h.dir
  kernel {k} hk := h.pde (by simp only [USERPAGES, KERNBASE, PGSIZE, NPTENTRIES] at *; omega)
  kept {k} hk := by
    by_cases hkv : k = v / NPTENTRIES
    · subst hkv
      exact h.kept hk
    · exact h.pde hkv

/-- The virtual pages from `lo` to `hi` are new, with `flags`, and hold the bytes of `mem`; all
others are as they were. -/
structure Filled (A B : Space) (lo hi : Nat) (flags : Nat → BitVec 32) (mem : Nat → Bytes PGSIZE) : Prop where
  spread : Spread A B
  hand : B.hand = none
  pte : ∀ {v}, lo ≤ v → v < hi → ∃ pa, pa < 2 ^ 20 ∧ B.pte v = entry pa (flags v ||| PTE_P)
  mem : ∀ {v}, lo ≤ v → v < hi → B.mem v = mem v
  pte_other : ∀ {v}, v < lo ∨ hi ≤ v → B.pte v = A.pte v
  mem_other : ∀ {v}, v < lo ∨ hi ≤ v → B.mem v = A.mem v

theorem Filled.refl {lo : Nat} {flags : Nat → BitVec 32} {mem : Nat → Bytes PGSIZE} (h : A.hand = none) :
    Filled A A lo lo flags mem :=
  ⟨.refl A, h, fun h1 h2 => by omega, fun h1 h2 => by omega, fun _ => rfl, fun _ => rfl⟩

theorem Filled.snoc {C : Space} {lo hi pa : Nat} {flags : Nat → BitVec 32} {mem : Nat → Bytes PGSIZE}
    (h : Filled A B lo hi flags mem) (hle : lo ≤ hi) (hhi : hi < USERPAGES) (hpa : pa < 2 ^ 20) {b : Bytes PGSIZE}
    (hg : Grown (B.setHand (some (pa, b))) C (hi / NPTENTRIES)) (hb : b = mem hi) :
    Filled A (C.map hi (entry pa (flags hi ||| PTE_P)) b) lo (hi + 1) flags mem where
  spread := by
    have hs := hg.spread hhi
    exact h.spread.trans ⟨hs.dir, hs.kernel, hs.kept⟩
  hand := rfl
  pte {v} hlo hlt := by
    by_cases hv : v = hi
    · subst hv
      exact ⟨pa, hpa, Space.setPte_pte_self⟩
    · obtain ⟨x, hx, hpte⟩ := h.pte hlo (by omega)
      refine ⟨x, hx, ?_⟩
      rw [← hpte]
      exact (Space.setPte_pte_of_ne hv).trans (congrFun hg.pte v)
  mem {v} hlo hlt := by
    by_cases hv : v = hi
    · subst hv
      rw [← hb]
      exact Space.setMem_mem_self
    · rw [← h.mem hlo (by omega)]
      exact (Space.setMem_mem_of_ne hv).trans (congrFun hg.mem v)
  pte_other {v} hv := by
    rw [← h.pte_other (v := v) (by omega)]
    exact (Space.setPte_pte_of_ne (by omega)).trans (congrFun hg.pte v)
  mem_other {v} hv := by
    rw [← h.mem_other (v := v) (by omega)]
    exact (Space.setMem_mem_of_ne (by omega)).trans (congrFun hg.mem v)

/-- No page is new. -/
structure Undone (A B : Space) (lo hi : Nat) : Prop where
  spread : Spread A B
  hand : B.hand = none
  pte : B.pte = A.pte
  mem : ∀ {v}, v < lo ∨ hi ≤ v → B.mem v = A.mem v

theorem Filled.undone {C : Space} {lo mid hi : Nat} {flags : Nat → BitVec 32} {mem : Nat → Bytes PGSIZE}
    (h : Filled A B lo mid flags mem) (hmid : mid ≤ hi) (hnew : ∀ v, lo ≤ v → v < hi → A.pte v = 0)
    (hC : C.setHand none = B.cut lo hi) : Undone A (C.setHand none) lo hi where
  spread := by
    rw [hC]
    exact ⟨h.spread.dir, h.spread.kernel, h.spread.kept⟩
  hand := rfl
  pte := by
    rw [hC]
    funext v
    show (if lo ≤ v ∧ v < hi then 0 else B.pte v) = A.pte v
    by_cases hv : lo ≤ v ∧ v < hi
    · rw [if_pos hv, hnew v hv.1 hv.2]
    · rw [if_neg hv, h.pte_other (by omega)]
  mem {v} hv := by
    rw [hC]
    exact h.mem_other (by omega)

theorem Space.cut_setHand (h : B.hand = none) :
    ((B.setHand x).cut lo hi).setHand none = B.cut lo hi := by
  cases B
  cases h
  rfl

theorem Filled.user_none {lo mid hi : Nat} {flags : Nat → BitVec 32} {mem : Nat → Bytes PGSIZE}
    (h : Filled A B lo mid flags mem) (hmid : mid ≤ hi) (hA : ∀ v, hi ≤ v → A.user v = none) :
    ∀ v, hi ≤ v → B.user v = none := by
  intro v hv
  rw [← hA v hv, Space.user, Space.user, h.pte_other (.inr (Nat.le_trans hmid hv))]

theorem allocuvm_from_runs {oldsz newsz : Nat} (hnewsz : newsz < KERNBASE)
    (hnew : ∀ v, npages oldsz ≤ v → v < npages newsz → A.pte v = 0) {fuel v : Nat}
    (hlo : npages oldsz ≤ v) (hhi : v ≤ npages newsz) (hfuel : npages newsz ≤ v + fuel)
    (h : Good W s B) (hfilled : Filled A B (npages oldsz) v (fun _ => PTE_W ||| PTE_U) fun _ => Bytes.zero) :
    Runs (allocuvm_from K A.dir oldsz newsz fuel (v * PGSIZE)) s (fun r t =>
      (r = 0 ∧ (∃ C, Good W t C ∧ Undone A C (npages oldsz) (npages newsz)) ∧
        ((∀ v, npages newsz ≤ v → A.user v = none) → W.Short (npages newsz + 1026))) ∨
      (r = newsz ∧ ∃ C, Good W t C ∧
        Filled A C (npages oldsz) (npages newsz) (fun _ => PTE_W ||| PTE_U) fun _ => Bytes.zero)) E := by
  induction fuel generalizing v s B with
  | zero =>
    obtain rfl : v = npages newsz := by omega
    exact Runs.pure (.inr ⟨rfl, B, h, hfilled⟩)
  | succ fuel ih =>
    rw [allocuvm_from]
    by_cases hlt : v < npages newsz
    · have hv : v < USERPAGES := Nat.lt_of_lt_of_le hlt (npages_le (Nat.le_of_lt hnewsz))
      have hsz : oldsz < newsz := by
        simp only [npages, PGSIZE] at hlo hlt
        omega
      rw [if_pos (lt_npages.mp hlt)]
      refine (kalloc_hand_runs h hfilled.hand).bind fun r t hr => ?_
      rcases hr with ⟨rfl, ht, hfree⟩ | ⟨pa, b, rfl, hall, ht⟩
      · have hdealloc := deallocuvm_runs (E := E) ht (Nat.le_of_lt hnewsz) hsz
        rw [hfilled.spread.dir] at hdealloc
        refine hdealloc.bind fun _ u hu => Runs.pure
          (.inl ⟨rfl, ⟨B.cut (npages oldsz) (npages newsz), hu.2, ?_⟩, fun hA => ht.short hfree (hfilled.user_none hhi hA)⟩)
        have hC : (B.cut (npages oldsz) (npages newsz)).setHand none = B.cut (npages oldsz) (npages newsz) := by
          cases B
          cases hfilled.hand
          rfl
        have hundone := hfilled.undone hhi hnew hC
        rw [hC] at hundone
        exact hundone
      · refine Runs.bind_ok rfl ?_
        have hzero := ht.setHand_page (A := B.setHand (some (pa, b))) rfl Bytes.zero
        have hno : has (B.pte v) PTE_P = false := by
          rw [hfilled.pte_other (.inr (Nat.le_refl v)), hnew v hlo hlt]
          exact has_zero _
        have hmap := mapPage_runs (E := E) (PTE_W ||| PTE_U) hzero hv hno rfl (by decide)
        rw [show (Space.setHand (B.setHand (some (pa, b))) (some (pa, Bytes.zero))).dir = A.dir from
          hfilled.spread.dir] at hmap
        refine hmap.bind fun r u hr => ?_
        rcases hr with ⟨rfl, hu, hfree⟩ | ⟨rfl, C, hgrown, hu⟩
        · rw [if_pos (by decide)]
          have hdealloc := deallocuvm_runs (E := E) hu (Nat.le_of_lt hnewsz) hsz
          rw [show (Space.setHand (B.setHand (some (pa, b))) (some (pa, Bytes.zero))).dir = A.dir from
            hfilled.spread.dir] at hdealloc
          refine hdealloc.bind fun _ x hx => ?_
          refine (kfree_hand_runs hx.2 rfl).bind fun _ y hy => Runs.pure
            (.inl ⟨rfl, ⟨_, hy, ?_⟩, fun hA => hu.short hfree (hfilled.user_none hhi hA)⟩)
          exact hfilled.undone hhi hnew (Space.cut_setHand hfilled.hand)
        · rw [if_neg (by decide), ← Nat.succ_mul]
          exact ih (Nat.le_succ_of_le hlo) hlt (by omega) hu
            (hfilled.snoc hlo hv (W.pool hall).lt hgrown rfl)
    · obtain rfl : v = npages newsz := by omega
      rw [if_neg (mt lt_npages.mpr hlt)]
      exact Runs.pure (.inr ⟨rfl, B, h, hfilled⟩)

/-- `allocuvm` adds the pages from `oldsz` to `newsz`, or fails and adds none. -/
theorem allocuvm_runs (h : Good W s A) (hh : A.hand = none) (hnewsz : newsz < KERNBASE)
    (hle : oldsz ≤ newsz) (hnew : ∀ v, npages oldsz ≤ v → v < npages newsz → A.pte v = 0) :
    Runs (allocuvm K A.dir oldsz newsz) s (fun r t =>
      (r = 0 ∧ (∃ B, Good W t B ∧ Undone A B (npages oldsz) (npages newsz)) ∧
        ((∀ v, npages newsz ≤ v → A.user v = none) → W.Short (npages newsz + 1026))) ∨
      (r = newsz ∧ ∃ B, Good W t B ∧
        Filled A B (npages oldsz) (npages newsz) (fun _ => PTE_W ||| PTE_U) fun _ => Bytes.zero)) E := by
  rw [allocuvm, if_neg (Nat.not_le.mpr hnewsz), if_neg (Nat.not_lt.mpr hle), PGROUNDUP_eq]
  have hfuel : npages newsz ≤ npages oldsz + 2 ^ 20 :=
    Nat.le_trans (npages_le (Nat.le_of_lt hnewsz)) (Nat.le_trans (by decide) (Nat.le_add_left ..))
  refine allocuvm_from_runs hnewsz hnew (Nat.le_refl _) ?_ hfuel h (.refl hh)
  simp only [npages, PGSIZE]
  omega

end Xv6.Vm
