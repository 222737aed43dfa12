import Xv6.Vm.Space

/-! What the operations on pages and page tables do to a space. -/
namespace Xv6.Vm
open Lib Function List

/-! ### Good states -/

/-- A page that `kfree` takes. -/
def Kernel.Pool (K : Kernel) (pa : Nat) : Prop := K.ends ≤ pa * PGSIZE + KERNBASE ∧ pa < PHYSTOP / PGSIZE

/-- What stays the same: which pages there are, free or in the space, and everything else. In a calm
world `kalloc` fails only when no page is free. -/
structure World (K : Kernel) where
  all : Nat → Prop
  base : Nat → Bytes PGSIZE
  calm : Prop
  pool : ∀ {pa}, all pa → K.Pool pa

variable {K : Kernel} {W : World K} {s t : State} {A : Space}

structure Good (W : World K) (s : State) (A : Space) : Prop where
  shows : Shows s.page A
  places : Places A.held s.freelist
  all : ∀ pa, Has A.held s.freelist pa ↔ W.all pa
  same : ∀ {pa}, ¬ W.all pa → s.page pa = W.base pa
  clean : A.Clean
  calm : W.calm → s.denied = []

theorem Kernel.Pool.lt (h : K.Pool pa) : pa < 2 ^ 20 := Nat.lt_trans h.2 (by decide)

namespace Good

theorem all_held (h : Good W s A) (hq : A.held q = some pa) : W.all pa :=
  (h.all pa).mp (.inr ⟨q, hq⟩)

theorem all_free (h : Good W s A) (hf : pa ∈ s.freelist) : W.all pa := (h.all pa).mp (.inl hf)

theorem denied (h : Good W s A) {denied : List Bool} (hd : s.denied = [] → denied = []) :
    Good W {s with denied := denied} A :=
  ⟨h.shows, h.places, h.all, h.same, h.clean, fun hc => hd (h.calm hc)⟩

theorem held_hand (hb : A.hand = some (pa, b)) : A.held .hand = some pa := by
  rw [Space.held, hb]
  rfl

end Good

/-! ### `kalloc` and `kfree` -/

/-- `kalloc` takes the first page of the free list or fails. -/
theorem kalloc_runs (s : State) :
    Runs kalloc s (fun r t =>
      (r = none ∧ ∃ denied, t = {s with denied := denied} ∧ (s.denied = [] → denied = [] ∧ s.freelist = [])) ∨
      ∃ pa freelist denied, r = some pa ∧ s.freelist = pa :: freelist ∧
        t = {s with freelist := freelist, denied := denied} ∧ (s.denied = [] → denied = [])) E := by
  refine Runs.bind_get ?_
  cases hd : s.denied with
  | nil =>
    cases hf : s.freelist with
    | nil => exact .inl ⟨rfl, _, rfl, fun _ => ⟨rfl, rfl⟩⟩
    | cons pa freelist => exact .inr ⟨pa, freelist, _, rfl, rfl, rfl, fun _ => rfl⟩
  | cons d denied =>
    have hno : ∀ {P : Prop}, d :: denied = [] → P := fun h => by cases h
    cases d with
    | true => exact .inl ⟨rfl, _, rfl, hno⟩
    | false =>
      cases hf : s.freelist with
      | nil => exact .inl ⟨rfl, _, rfl, hno⟩
      | cons pa freelist => exact .inr ⟨pa, freelist, _, rfl, rfl, rfl, hno⟩

theorem kalloc_hand_runs {E : Halt → Prop} (h : Good W s A) (hh : A.hand = none) :
    Runs kalloc s (fun r t =>
      (r = none ∧ Good W t A ∧ (W.calm → t.freelist = [])) ∨
      ∃ pa b, r = some pa ∧ W.all pa ∧ Good W t (A.setHand (some (pa, b)))) E := by
  refine (kalloc_runs s).post fun r t hr => ?_
  rcases hr with ⟨rfl, denied, rfl, hd⟩ | ⟨pa, freelist, denied, rfl, hf, rfl, hd⟩
  · exact .inl ⟨rfl, h.denied fun hs => (hd hs).1, fun hc => (hd (h.calm hc)).2⟩
  · have hnone : A.held .hand = none := by rw [Space.held, hh]; rfl
    have hheld : (A.setHand (some (pa, s.page pa))).held = update A.held .hand (some pa) :=
      Space.held_setHand _
    refine .inr ⟨pa, s.page pa, rfl, h.all_free (by rw [hf]; exact mem_cons_self ..), ?_⟩
    refine ⟨h.shows.setHand fun he => ?_, ?_, fun x => ?_, h.same, h.clean, fun hc => hd (h.calm hc)⟩
    · obtain ⟨rfl, rfl⟩ := Prod.mk.inj (Option.some.inj he)
      rfl
    · rw [hheld]
      exact Places.place (hf ▸ h.places)
    · rw [hheld, has_place hnone, ← hf]
      exact h.all x

theorem Shows.put (h : Shows s.page A) (hpa : ∀ q, A.held q ≠ some pa) (b : Bytes PGSIZE) :
    Shows (s.put pa b).page A :=
  h.congr fun q x hq => State.put_page_of_ne fun he => hpa q (by rw [← he]; exact hq)

theorem Good.same_put (h : Good W s A) (hpa : W.all pa) (b : Bytes PGSIZE)
    (hx : ¬ W.all x) : (s.put pa b).page x = W.base x := by
  have hne : x ≠ pa := fun he => hx (by rw [he]; exact hpa)
  rw [State.put_page_of_ne hne, h.same hx]

theorem Good.setHand_page (h : Good W s A) (hb : A.hand = some (pa, b))
    (c : Bytes PGSIZE) : Good W (s.put pa c) (A.setHand (some (pa, c))) := by
  have hhand := Good.held_hand hb
  have hheld : (A.setHand (some (pa, c))).held = A.held := by
    rw [Space.held_setHand, show Option.map Prod.fst (some (pa, c)) = A.held .hand from hhand.symm,
      update_eq_self]
  have hempty : Shows s.page (A.setHand none) := h.shows.setHand fun he => by cases he
  have hno : ∀ q, (A.setHand none).held q ≠ some pa := fun q hq => by
    rw [Space.held_setHand] at hq
    exact (h.places.release hhand).apart hq (mem_cons_self ..)
  refine ⟨(hempty.put hno c).setHand fun he => ?_, by rw [hheld]; exact h.places, by rw [hheld]; exact h.all,
    h.same_put (h.all_held hhand) c, h.clean, h.calm⟩
  obtain ⟨rfl, rfl⟩ := Prod.mk.inj (Option.some.inj he)
  exact State.put_page_self

/-- What `kfree` does to a page of the pool. -/
def State.freed (s : State) (pa : Nat) : State :=
  {s.put pa (Bytes.ofFn fun _ => 1) with freelist := pa :: s.freelist}

theorem kfree_runs (hpa : K.Pool pa) (s : State) :
    Runs (kfree K pa) s (fun _ t => t = s.freed pa) E := by
  have hk := K.order
  have ht := K.text
  obtain ⟨hends, hlt⟩ := hpa
  simp only [PHYSTOP, PGSIZE, KERNBASE, KERNLINK, EXTMEM] at hends hlt hk ht
  rw [kfree, if_neg]
  · exact Runs.bind_ok rfl rfl
  · simp only [P2V, PHYSTOP, PGSIZE, KERNBASE]
    omega

theorem kfree_hand_runs (h : Good W s A)
    (hb : A.hand = some (pa, b)) : Runs (kfree K pa) s (fun _ t => Good W t (A.setHand none)) E := by
  have hhand := Good.held_hand hb
  refine (kfree_runs (W.pool (h.all_held hhand)) s).post fun _ t ht => ?_
  subst ht
  have hheld : (A.setHand none).held = update A.held .hand none := Space.held_setHand none
  have hcut : Good W {s with freelist := pa :: s.freelist} (A.setHand none) := by
    refine ⟨h.shows.setHand fun he => (by cases he), ?_, fun x => ?_, h.same, h.clean, h.calm⟩
    · rw [hheld]
      exact h.places.release hhand
    · rw [hheld, has_release hhand]
      exact h.all x
  exact ⟨hcut.shows.put (fun q hq => hcut.places.apart hq (mem_cons_self ..)) _, hcut.places, hcut.all,
    h.same_put (h.all_held hhand) _, h.clean, h.calm⟩

/-! ### Page tables -/

theorem PDX_lt (va : Nat) : PDX va < NPDENTRIES := Nat.mod_lt _ (by decide)

theorem PTX_lt (va : Nat) : PTX va < NPTENTRIES := Nat.mod_lt _ (by decide)

theorem page_eq (h : va < 2 ^ 32) : NPTENTRIES * PDX va + PTX va = va / PGSIZE := by
  simp only [NPTENTRIES, PDX, PTX, PGSIZE]
  omega

theorem PDX_page (v : Nat) (hv : v < PAGES) : PDX (v * PGSIZE) = v / NPTENTRIES := by
  simp only [NPTENTRIES, PDX, PGSIZE, PAGES, NPDENTRIES] at *
  omega

theorem page_succ (hv : v + 1 < PAGES) : (v * PGSIZE + PGSIZE) % 2 ^ 32 = (v + 1) * PGSIZE := by
  simp only [PGSIZE, PAGES, NPDENTRIES, NPTENTRIES] at hv ⊢
  omega

theorem getWord_runs (pa i : Nat) (s : State) :
    Runs (getWord pa i) s (fun w t => w = (s.page pa).word32 (4 * i) ∧ t = s) E := ⟨rfl, rfl⟩

theorem setWord_runs (pa i : Nat) (w : BitVec 32) (s : State) :
    Runs (setWord pa i w) s (fun _ t => t = s.put pa ((s.page pa).putWord32 (4 * i) w)) E := rfl

/-- Without `alloc`, `walkpgdir` finds the page table if there is one. -/
theorem walkpgdir_runs (h : Shows s.page A) (va : Nat) :
    Runs (walkpgdir A.dir va false) s (fun r t => r = (A.table (PDX va)).map (·, PTX va) ∧ t = s) E := by
  refine (getWord_runs A.dir (PDX va) s).bind fun w t hw => ?_
  obtain ⟨rfl, rfl⟩ := hw
  rw [h.pde (PDX_lt va)]
  refine Runs.ite (fun hp => Runs.pure ⟨?_, rfl⟩) fun hp => Runs.pure ⟨?_, rfl⟩
  · rw [Space.table_of_has (PDX_lt va) hp]
    rfl
  · rw [Space.table_of_not (Bool.eq_false_iff.mpr hp)]
    rfl

/-- The page table for directory entry `i` may have been added. -/
structure Grown (A B : Space) (i : Nat) : Prop where
  dir : B.dir = A.dir
  pte : B.pte = A.pte
  mem : B.mem = A.mem
  hand : B.hand = A.hand
  pde : ∀ {k}, k ≠ i → B.pde k = A.pde k
  kept : has (A.pde i) PTE_P = true → B.pde i = A.pde i

/-- With `alloc`, `walkpgdir` adds the page table, or fails and leaves everything as it was. -/
theorem walkpgdir_alloc_runs {E : Halt → Prop} (h : Good W s A) (va : Nat) :
    Runs (walkpgdir A.dir va true) s (fun r t =>
      (r = none ∧ Good W t A ∧ (W.calm → t.freelist = [])) ∨
      ∃ B pgtab, r = some (pgtab, PTX va) ∧ Good W t B ∧ B.table (PDX va) = some pgtab ∧ Grown A B (PDX va)) E := by
  refine (getWord_runs A.dir (PDX va) s).bind fun w t hw => ?_
  obtain ⟨rfl, rfl⟩ := hw
  rw [h.shows.pde (PDX_lt va)]
  refine Runs.ite (fun hp => Runs.pure (.inr ⟨A, _, rfl, h, Space.table_of_has (PDX_lt va) hp, ?_⟩)) fun hp => ?_
  · exact ⟨rfl, rfl, rfl, rfl, fun _ => rfl, fun _ => rfl⟩
  have hno := Bool.eq_false_iff.mpr hp
  rw [if_neg Bool.noConfusion]
  refine (kalloc_runs t).bind fun r u hr => ?_
  rcases hr with ⟨rfl, denied, rfl, hd⟩ | ⟨pgtab, freelist, denied, rfl, hf, rfl, hd⟩
  · exact Runs.pure (.inl ⟨rfl, h.denied fun hs => (hd hs).1, fun hc => (hd (h.calm hc)).2⟩)
  have hfree : pgtab ∈ t.freelist := hf ▸ mem_cons_self ..
  have hall := h.all_free hfree
  have hw : entry pgtab (PTE_P ||| PTE_W ||| PTE_U) =
      BitVec.ofNat 32 (pgtab * PGSIZE) ||| PTE_P ||| PTE_W ||| PTE_U := by
    rw [entry, BitVec.or_assoc, BitVec.or_assoc, BitVec.or_assoc]
  have hlt := (W.pool hall).lt
  have hpres : has (entry pgtab (PTE_P ||| PTE_W ||| PTE_U)) PTE_P = true := by
    rw [has_entry hlt (by decide) (by decide)]
    decide
  have haddr : PTE_ADDR (entry pgtab (PTE_P ||| PTE_W ||| PTE_U)) = pgtab := PTE_ADDR_entry hlt (by decide)
  dsimp only
  rw [← hw]
  generalize entry pgtab (PTE_P ||| PTE_W ||| PTE_U) = w at hpres haddr
  have hheld : (A.setPde (PDX va) w).held = update A.held (.table (PDX va)) (some pgtab) := by
    rw [Space.held_setPde (PDX_lt va) hpres, haddr]
  have hnone : A.held (.table (PDX va)) = none := Space.table_of_not hno
  have hdir : A.dir ≠ pgtab := fun he => h.places.apart (p := .dir) rfl (he ▸ hfree)
  refine Runs.bind_ok rfl (Runs.bind_ok rfl (Runs.pure (.inr ⟨A.setPde (PDX va) w, pgtab, rfl, ?_, ?_, ?_⟩)))
  · have hword : ((t.put pgtab Bytes.zero).page A.dir) = t.page A.dir := State.put_page_of_ne hdir
    refine ⟨?_, ?_, fun x => ?_, fun {x} hx => ?_, h.clean, fun hc => hd (h.calm hc)⟩
    · have := h.shows.setPde h.places hfree (PDX_lt va) hno hpres haddr
      rw [← hword] at this
      exact this
    · rw [hheld]
      exact Places.place (hf ▸ h.places)
    · have hx := h.all x
      rw [hf] at hx
      rw [hheld, has_place hnone]
      exact hx
    · have hxd : x ≠ A.dir := fun he => hx (by rw [he]; exact h.all_held (q := .dir) rfl)
      have hxt : x ≠ pgtab := fun he => hx (by rw [he]; exact hall)
      exact (update_of_ne hxd ..).trans ((update_of_ne hxt ..).trans (h.same hx))
  · rw [Space.table_of_has (PDX_lt va) (by rw [Space.setPde_pde_self]; exact hpres), Space.setPde_pde_self, haddr]
  · exact ⟨rfl, rfl, rfl, rfl, fun hk => Space.setPde_pde_of_ne hk, fun hp => absurd hp (by rw [hno]; decide)⟩

/-! ### Mapping a page -/

/-- The page in hand is mapped at virtual page `v`. -/
def Space.map (A : Space) (v : Nat) (w : BitVec 32) (b : Bytes PGSIZE) : Space :=
  ((A.setMem v b).setPte v w).setHand none

@[simp] theorem Space.map_pte_self : (A.map v w b).pte v = w :=
  update_self ..

@[simp] theorem Space.map_pte_of_ne (h : u ≠ v) :
    (A.map v w b).pte u = A.pte u := update_of_ne h ..

theorem held_map (hv : v < USERPAGES) (hw : has w PTE_P) (hpa : PTE_ADDR w = pa) :
    (A.map v w b).held = update (update A.held .hand none) (.page v) (some pa) := by
  rw [Space.map, Space.held_setHand, Space.held_setPte hv, if_pos hw, hpa,
    update_comm (fun he => by cases he)]
  rfl

/-- The word for virtual page `v` is written. -/
def State.setPte (s : State) (pgtab v : Nat) (w : BitVec 32) : State :=
  s.put pgtab ((s.page pgtab).putWord32 (4 * (v % NPTENTRIES)) w)

theorem div_add_mod_page (v : Nat) : NPTENTRIES * (v / NPTENTRIES) + v % NPTENTRIES = v := Nat.div_add_mod ..

/-- A page that is present has a page table. -/
theorem Shows.table_of_page (h : Shows page A) (hv : v < PAGES)
    (hp : has (A.pte v) PTE_P = true) : ∃ pgtab, A.table (v / NPTENTRIES) = some pgtab := by
  have hi : v / NPTENTRIES < NPDENTRIES := by simp only [PAGES, NPTENTRIES, NPDENTRIES] at *; omega
  cases hpde : has (A.pde (v / NPTENTRIES)) PTE_P with
  | true => exact ⟨_, Space.table_of_has hi hpde⟩
  | false =>
    have hrest := h.rest hi hpde (Nat.mod_lt v (by decide : 0 < NPTENTRIES))
    rw [div_add_mod_page] at hrest
    rw [hrest, has_zero] at hp
    cases hp

namespace Good
variable {v pa pgtab : Nat} {w : BitVec 32} {b : Bytes PGSIZE}

theorem map (h : Good W s A) (hv : v < USERPAGES) (hno : has (A.pte v) PTE_P = false)
    (ht : A.table (v / NPTENTRIES) = some pgtab) (hb : A.hand = some (pa, b)) (hw : has w PTE_P)
    (hpa : PTE_ADDR w = pa) : Good W (s.setPte pgtab v w) (A.map v w b) := by
  have hhand := held_hand hb
  have hne : pa ≠ pgtab := fun he => by
    have := h.places.once (p := .hand) (q := .table (v / NPTENTRIES)) (x := pgtab) (he ▸ hhand) ht
    cases this
  have hheld := held_map (A := A) (b := b) hv hw hpa
  have hplaces := h.places.release hhand
  have hfree : update A.held .hand none (.page v) = none := by
    rw [update_of_ne fun he => by cases he]
    exact Space.user_of_not hno
  refine ⟨?_, ?_, fun x => ?_, h.same_put (h.all_held (q := .table _) ht) _,
    h.clean.setPte fun h => absurd hw (by rw [h]; decide), h.calm⟩
  · have hset := (h.shows.setMem (Space.user_of_not hno) b).setPte (A := A.setMem v b) h.places ht
      (Nat.mod_lt v (by decide)) (w := w) (fun {x} hx => by
        rw [div_add_mod_page] at hx ⊢
        obtain ⟨-, -, hx⟩ := Space.user_eq_some hx
        rw [Space.setPte_pte_self, hpa] at hx
        subst hx
        exact ⟨hne, by rw [Space.setMem_mem_self]; exact h.shows.hand hb⟩)
    rw [div_add_mod_page] at hset
    exact hset.setHand fun he => by cases he
  · rw [hheld]
    exact hplaces.place
  · rw [hheld, has_place hfree]
    exact (has_release hhand).trans (h.all x)

theorem mapKernel (h : Good W s A) (hv : USERPAGES ≤ v) (ht : A.table (v / NPTENTRIES) = some pgtab)
    (hw : has w PTE_P) : Good W (s.setPte pgtab v w) (A.setPte v w) := by
  refine ⟨?_, by rw [Space.held_setPte_kernel hv]; exact h.places, by rw [Space.held_setPte_kernel hv]; exact h.all,
    h.same_put (h.all_held (q := .table _) ht) _, h.clean.setPte fun h => absurd hw (by rw [h]; decide), h.calm⟩
  have hset := h.shows.setPte h.places ht (Nat.mod_lt v (by decide)) (w := w)
    (fun {x} hx => by
      rw [div_add_mod_page] at hx
      exact absurd (Space.user_eq_some hx).1 (by omega))
  rw [div_add_mod_page] at hset
  exact hset

end Good

/-! ### Running out of pages -/

/-- The world has at most `n` pages. -/
def World.Short (W : World K) (n : Nat) : Prop :=
  W.calm → ∃ l : List Nat, (∀ pa, W.all pa → pa ∈ l) ∧ l.length ≤ n

theorem World.Short.mono (h : W.Short m) (hle : m ≤ n) : W.Short n := fun hc => by
  obtain ⟨l, hl, hlen⟩ := h hc
  exact ⟨l, hl, Nat.le_trans hlen hle⟩

theorem World.Short.length_le (h : W.Short n) (hcalm : W.calm) {l : List Nat} (hnodup : l.Nodup)
    (hall : ∀ pa ∈ l, W.all pa) : l.length ≤ n := by
  obtain ⟨m, hm, hlen⟩ := h hcalm
  have hsub := (List.subperm_of_subset hnodup fun pa hpa => hm pa (hall pa hpa)).length_le
  omega

/-- A list of the pages of a space that has no page tables below entry `m` and `n` user pages. -/
theorem Space.listed (hm : ∀ i, i < m → A.table i = none) (hn : ∀ v, n ≤ v → A.user v = none) :
    ∃ l : List Nat, (∀ q pa, A.held q = some pa → pa ∈ l) ∧ l.length ≤ n + 2 + (1024 - m) := by
  refine ⟨A.dir :: ((A.hand.map Prod.fst).toList ++ (List.range' m (1024 - m)).filterMap A.table ++
    (List.range n).filterMap A.user), fun q pa hq => ?_, ?_⟩
  · cases q with
    | dir => exact mem_cons.mpr (.inl (Option.some.inj hq).symm)
    | hand =>
      refine mem_cons_of_mem _ (mem_append_left _ (mem_append_left _ ?_))
      exact Option.mem_toList.mpr hq
    | table i =>
      have hq : A.table i = some pa := hq
      have hlo : m ≤ i := by
        by_contra hi
        rw [hm i (Nat.not_le.mp hi)] at hq
        cases hq
      have hhi : i < 1024 := by
        by_contra hi
        rw [show A.table i = none from if_neg fun hc => hi hc.1] at hq
        cases hq
      refine mem_cons_of_mem _ (mem_append_left _ (mem_append_right _ ?_))
      exact mem_filterMap.mpr ⟨i, mem_range'_1.mpr ⟨hlo, by omega⟩, hq⟩
    | page v =>
      have hq : A.user v = some pa := hq
      have hv : v < n := by
        by_contra hv
        rw [hn v (Nat.not_lt.mp hv)] at hq
        cases hq
      exact mem_cons_of_mem _ (mem_append_right _ (mem_filterMap.mpr ⟨v, mem_range.mpr hv, hq⟩))
  · have hhand : (A.hand.map Prod.fst).toList.length ≤ 1 := Option.length_toList_le
    have htables := length_filterMap_le A.table (List.range' m (1024 - m))
    have hpages := length_filterMap_le A.user (List.range n)
    rw [length_range'] at htables
    rw [length_range] at hpages
    rw [length_cons, length_append, length_append]
    omega

theorem Good.length_le (h : Good W s A) {n : Nat} (hn : ∀ v, n ≤ v → A.user v = none) {l : List Nat} (hnodup : l.Nodup)
    (hl : ∀ pa ∈ l, W.all pa) : l.length ≤ s.freelist.length + (n + 1026) := by
  obtain ⟨m, hm, hlen⟩ := Space.listed (A := A) (m := 0) (fun _ hi => absurd hi (Nat.not_lt_zero _)) hn
  have hsub : l ⊆ s.freelist ++ m := fun pa hpa => by
    rcases (h.all pa).mpr (hl pa hpa) with hf | ⟨q, hq⟩
    · exact mem_append_left _ hf
    · exact mem_append_right _ (hm q pa hq)
  have hle := (List.subperm_of_subset hnodup hsub).length_le
  rw [length_append] at hle
  omega

/-- When no page is free, the pages are those of the space. -/
theorem Good.short_of_listed (h : Good W s A) (hfree : W.calm → s.freelist = [])
    (hl : ∃ l : List Nat, (∀ q pa, A.held q = some pa → pa ∈ l) ∧ l.length ≤ n) : W.Short n := by
  intro hcalm
  obtain ⟨l, hl, hlen⟩ := hl
  refine ⟨l, fun pa hpa => ?_, hlen⟩
  rcases (h.all pa).mpr hpa with hmem | ⟨q, hq⟩
  · rw [hfree hcalm] at hmem
    cases hmem
  · exact hl q pa hq

theorem Good.short (h : Good W s A) (hfree : W.calm → s.freelist = []) (hn : ∀ v, n ≤ v → A.user v = none) :
    W.Short (n + 1026) :=
  h.short_of_listed hfree (Space.listed (m := 0) (fun _ hi => absurd hi (Nat.not_lt_zero _)) hn)

end Xv6.Vm
