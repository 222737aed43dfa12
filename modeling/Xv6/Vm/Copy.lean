import Xv6.Vm.Build
import Xv6.Vm.Grow

/-! `copyuvm` copies an address space: the child has the bytes and the flags of the parent in pages
of its own, and a copy that fails half way leaves no page behind. -/
namespace Xv6.Vm
open Lib

variable {K : Kernel} {W : World K} {s t : State} {A B P : Space} {E : Halt → Prop}

/-! ### The parent -/

/-- A space in memory, none of whose pages is a page of the world. -/
structure Beside (W : World K) (P : Space) : Prop where
  shows : Shows W.base P
  apart : ∀ {q pa}, P.held q = some pa → ¬ W.all pa

theorem Good.beside (h : Good W s A) (hP : Beside W P) : Shows s.page P :=
  hP.shows.congr fun _ _ hq => h.same (hP.apart hq)

theorem Bare.beside (h : Bare W s) (hP : Beside W P) : Shows s.page P :=
  hP.shows.congr fun _ _ hq => h.same (hP.apart hq)

theorem PTE_FLAGS_lt (w : BitVec 32) : (PTE_FLAGS w).toNat < PGSIZE := by
  rw [PTE_FLAGS, BitVec.toNat_and]
  exact Nat.lt_of_le_of_lt Nat.and_le_right (by decide)

theorem PTE_FLAGS_or_P (h : has w PTE_P = true) : PTE_FLAGS w ||| PTE_P = PTE_FLAGS w := by
  have hone : w &&& PTE_P = PTE_P := by
    refine BitVec.eq_of_toNat_eq ?_
    have hne : w &&& PTE_P ≠ 0 := of_decide_eq_true h
    have hmod : (w &&& PTE_P).toNat = w.toNat % 2 := (BitVec.toNat_and ..).trans (Nat.and_one_is_mod _)
    have hnz : (w &&& PTE_P).toNat ≠ 0 := fun h0 => hne (BitVec.eq_of_toNat_eq h0)
    rw [show PTE_P.toNat = 1 from rfl]
    omega
  calc PTE_FLAGS w ||| PTE_P = (w &&& 0xFFF) ||| (w &&& PTE_P) := by rw [hone, PTE_FLAGS]
    _ = w &&& (0xFFF ||| PTE_P) := (BitVec.and_or_distrib_left ..).symm
    _ = PTE_FLAGS w := rfl

/-! ### The loop -/

/-- The pages below `n` are those of the parent. -/
def Copies (P A B : Space) (n : Nat) : Prop := Filled A B 0 n (fun v => PTE_FLAGS (P.pte v)) P.mem

theorem copyuvm_from_runs (hP : Beside W P) (hsz : sz ≤ KERNBASE)
    (hpages : (∀ v, v < npages sz → has (P.pte v) PTE_P = true) ∨ E .copyuvmExists ∧ E .copyuvmPresent)
    (hclear : ∀ v, v < USERPAGES → A.pte v = 0) (fuel : Nat) (hle : v ≤ npages sz)
    (hfuel : npages sz ≤ v + fuel) (h : Good W s B) (hcopies : Copies P A B v) :
    Runs (copyuvm_from K P.dir A.dir sz fuel (v * PGSIZE)) s (fun r t =>
      ∃ C, Good W t C ∧ C.dir = A.dir ∧ C.hand = none ∧ (r = true → Copies P A C (npages sz)) ∧
        (r = false → W.Short (npages sz + 1026))) E := by
  induction fuel generalizing v s B with
  | zero =>
    obtain rfl : v = npages sz := by omega
    exact Runs.pure ⟨B, h, hcopies.spread.dir, hcopies.hand, fun _ => hcopies, fun h => by cases h⟩
  | succ fuel ih =>
    rw [copyuvm_from]
    by_cases hlt : v < npages sz
    · have hv : v < USERPAGES := Nat.lt_of_lt_of_le hlt (npages_le hsz)
      have hpdx : PDX (v * PGSIZE) = v / NPTENTRIES := PDX_page v (Nat.lt_trans hv (by decide))
      have hptx : PTX (v * PGSIZE) = v % NPTENTRIES := by simp only [PTX, PGSIZE, NPTENTRIES]; omega
      have hnext : (v * PGSIZE + PGSIZE) % 2 ^ 32 = (v + 1) * PGSIZE :=
        page_succ (Nat.lt_of_le_of_lt (Nat.succ_le_of_lt hv) (by decide))
      rw [if_pos (lt_npages.mp hlt), hnext]
      refine (walkpgdir_runs (h.beside hP) (v * PGSIZE)).bind fun r t hr => ?_
      rw [hpdx, hptx] at hr
      obtain ⟨rfl, rfl⟩ := hr
      cases hp : has (P.pte v) PTE_P with
      | false =>
        -- The page is missing: one of the two calls of `panic`.
        obtain ⟨hexists, hpresent⟩ := hpages.resolve_left fun hall => by rw [hall v hlt] at hp; cases hp
        cases htable : P.table (v / NPTENTRIES) with
        | none => exact Runs.throw hexists
        | some pgtab =>
          refine (getWord_runs pgtab (v % NPTENTRIES) t).bind fun w u hw => ?_
          obtain ⟨rfl, rfl⟩ := hw
          rw [(h.beside hP).pte htable (Nat.mod_lt v (by decide)), div_add_mod_page, if_neg (by rw [hp]; decide)]
          exact Runs.throw hpresent
      | true =>
      obtain ⟨pgtab, htable⟩ := (h.beside hP).table_of_page (Nat.lt_trans hv (by decide)) hp
      rw [htable]
      refine (getWord_runs pgtab (v % NPTENTRIES) t).bind fun w u hw => ?_
      obtain ⟨rfl, rfl⟩ := hw
      rw [(h.beside hP).pte htable (Nat.mod_lt v (by decide)), div_add_mod_page, if_pos hp]
      refine (kalloc_hand_runs h hcopies.hand).bind fun r t hr => ?_
      have huser : ∀ u, npages sz ≤ u → B.user u = none := hcopies.user_none hle fun u hu => by
        by_cases hlt : u < USERPAGES
        · exact Space.user_of_not (by rw [hclear u hlt, has_zero])
        · exact if_neg fun hc => hlt hc.1
      rcases hr with ⟨rfl, ht, hfree⟩ | ⟨pa, b, rfl, hall, ht⟩
      · exact Runs.pure ⟨B, ht, hcopies.spread.dir, hcopies.hand, fun h => (by cases h), fun _ => ht.short hfree huser⟩
      have hmem : t.page (PTE_ADDR (P.pte v)) = P.mem v := (ht.beside hP).mem (Space.user_of_has hv hp)
      refine Runs.bind_ok rfl (Runs.bind_ok rfl ?_)
      rw [hmem]
      have hput := ht.setHand_page (A := B.setHand (some (pa, b))) rfl (P.mem v)
      have hno : has (B.pte v) PTE_P = false := by
        rw [hcopies.pte_other (.inr (Nat.le_refl v)), hclear v hv]
        exact has_zero _
      have hmap := mapPage_runs (E := E) (PTE_FLAGS (P.pte v)) hput hv hno rfl (PTE_FLAGS_lt (P.pte v))
      rw [show (Space.setHand (B.setHand (some (pa, b))) (some (pa, P.mem v))).dir = A.dir from
        hcopies.spread.dir] at hmap
      refine hmap.bind fun r x hr => ?_
      rcases hr with ⟨rfl, hx, hfree⟩ | ⟨rfl, C, hgrown, hx⟩
      · rw [if_pos (by decide)]
        refine (kfree_hand_runs hx rfl).bind fun _ y hy => Runs.pure
          ⟨_, hy, hcopies.spread.dir, rfl, fun h => ?_, fun _ => hx.short hfree huser⟩
        cases h
      · rw [if_neg (by decide)]
        exact ih hlt (by omega) hx (hcopies.snoc (Nat.zero_le v) hv (W.pool hall).lt hgrown rfl)
    · obtain rfl : v = npages sz := by omega
      rw [if_neg (mt lt_npages.mpr hlt)]
      exact Runs.pure ⟨B, h, hcopies.spread.dir, hcopies.hand, fun _ => hcopies, fun h => by cases h⟩

/-- `copyuvm` makes a copy, or fails and leaves no page behind. -/
theorem copyuvm_runs (h : Bare W s) (hP : Beside W P) (hsz : sz ≤ KERNBASE)
    (hpages : (∀ v, v < npages sz → has (P.pte v) PTE_P = true) ∨ E .copyuvmExists ∧ E .copyuvmPresent) :
    Runs (copyuvm K P.dir sz) s (fun r t =>
      (r = none ∧ Bare W t ∧ W.Short (npages sz + 1026)) ∨
      ∃ A B, r = some B.dir ∧ Good W t B ∧ Copies P A B (npages sz) ∧ KernelPart A ∧
        ∀ v, v < USERPAGES → A.pte v = 0) E := by
  rw [copyuvm]
  refine (setupkvm_runs h).bind fun r t hr => ?_
  rcases hr with ⟨rfl, ht, hshort⟩ | ⟨A, rfl, -, ht, hhand, hkernel, hclear⟩
  · exact Runs.pure (.inl ⟨rfl, ht, hshort.mono (Nat.le_trans (by decide) (Nat.le_add_left ..))⟩)
  have hloop := copyuvm_from_runs hP hsz hpages hclear (2 ^ 20) (v := 0) (Nat.zero_le _)
    (Nat.le_trans (npages_le hsz) (by decide)) ht (.refl hhand)
  rw [Nat.zero_mul] at hloop
  refine hloop.bind fun r u hr => ?_
  obtain ⟨C, hC, hdir, hhand, hcopies, hshort⟩ := hr
  cases r with
  | true =>
    rw [if_pos rfl, ← hdir]
    exact Runs.pure (.inr ⟨A, C, rfl, hC, hcopies rfl, hkernel, hclear⟩)
  | false =>
    rw [if_neg Bool.false_ne_true, ← hdir]
    exact (freevm_runs hC hhand).bind fun _ x hx => Runs.pure (.inl ⟨rfl, hx, hshort rfl⟩)

/-! ### The copy in memory -/

/-- The page table `d` is a copy of that of `P`, up to `sz`, in pages of its own. -/
structure Copied (s t : State) (P : Space) (d sz : Nat) : Prop where
  byte : ∀ va, va < PGROUNDUP sz → byteAt t d va = byteAt s P.dir va
  present : ∀ v, v < npages sz → has (pteOf t d v) PTE_P = true
  flags : ∀ v, v < npages sz → PTE_FLAGS (pteOf t d v) = PTE_FLAGS (pteOf s P.dir v)
  apart : ∀ v, v < npages sz → ∀ q, P.held q ≠ some (PTE_ADDR (pteOf t d v))
  once : ∀ u v, u < npages sz → v < npages sz → PTE_ADDR (pteOf t d u) = PTE_ADDR (pteOf t d v) → u = v
  rest : ∀ v, npages sz ≤ v → v < USERPAGES → pteOf t d v = 0
  kernel : ∀ v, USERPAGES ≤ v → v < PAGES → has (pteOf t d v) PTE_U = false

theorem copied (hP : Beside W P) (hs : Shows s.page P) (hsz : sz ≤ KERNBASE)
    (hpages : ∀ v, v < npages sz → has (P.pte v) PTE_P = true) (ht : Good W t B)
    (hcopies : Copies P A B (npages sz)) (hkernel : KernelPart A) (hclear : ∀ v, v < USERPAGES → A.pte v = 0) :
    Copied s t P B.dir sz := by
  have huser : ∀ {v}, v < npages sz → v < USERPAGES := fun hv => Nat.lt_of_lt_of_le hv (npages_le hsz)
  have hlt : ∀ {v}, v < USERPAGES → v < PAGES := fun hv => Nat.lt_trans hv (by decide)
  have hentry : ∀ {v}, v < npages sz → ∃ pa, pa < 2 ^ 20 ∧ pteOf t B.dir v = entry pa (PTE_FLAGS (P.pte v)) := by
    intro v hv
    obtain ⟨pa, hpa, hpte⟩ := hcopies.pte (Nat.zero_le v) hv
    refine ⟨pa, hpa, ?_⟩
    rw [ht.shows.pteOf_eq (hlt (huser hv)), hpte, PTE_FLAGS_or_P (hpages v hv)]
  have hpresent : ∀ {v}, v < npages sz → has (pteOf t B.dir v) PTE_P = true := by
    intro v hv
    obtain ⟨pa, hpa, hpte⟩ := hentry hv
    rw [hpte, has_entry hpa (PTE_FLAGS_lt _) (by decide), ← has_PTE_FLAGS (by decide), hpages v hv]
  have hheld : ∀ {v}, v < npages sz → B.held (.page v) = some (PTE_ADDR (pteOf t B.dir v)) := by
    intro v hv
    have hp := hpresent hv
    rw [ht.shows.pteOf_eq (hlt (huser hv))] at hp ⊢
    exact Space.user_of_has (huser hv) hp
  refine ⟨fun va hva => ?_, fun v hv => hpresent hv, fun v hv => ?_, fun v hv q hq => ?_, fun u v hu hv he => ?_,
    fun v hv hlt' => ?_, fun v hv hlt' => ?_⟩
  · have hv : va / PGSIZE < npages sz := by
      rw [PGROUNDUP_eq] at hva
      exact Nat.div_lt_of_lt_mul (Nat.mul_comm .. ▸ hva)
    have hp := hpresent hv
    rw [ht.shows.pteOf_eq (hlt (huser hv))] at hp
    rw [ht.shows.byteAt_eq (huser hv) hp, hs.byteAt_eq (huser hv) (hpages _ hv), hcopies.mem (Nat.zero_le _) hv]
  · obtain ⟨pa, hpa, hpte⟩ := hentry hv
    rw [hpte, PTE_FLAGS_entry hpa (PTE_FLAGS_lt _), hs.pteOf_eq (hlt (huser hv))]
  · exact hP.apart hq (ht.all_held (hheld hv))
  · have := ht.places.once (hheld hu) (by rw [he]; exact hheld hv)
    injection this
  · rw [ht.shows.pteOf_eq (hlt hlt'), hcopies.pte_other (.inr hv), hclear v hlt']
  · have hle : npages sz ≤ v := Nat.le_trans (npages_le hsz) hv
    rw [ht.shows.pteOf_eq hlt', hcopies.pte_other (.inr hle)]
    exact hkernel.user hv

/-- The world of the free pages. -/
def State.freeWorld (s : State) (hpool : ∀ pa ∈ s.freelist, K.Pool pa) : World K where
  all pa := pa ∈ s.freelist
  base := s.page
  calm := s.denied = []
  pool {pa} hpa := hpool pa hpa

theorem State.bare {s : State} (hnodup : s.freelist.Nodup) (hpool : ∀ pa ∈ s.freelist, K.Pool pa) :
    Bare (s.freeWorld hpool) s :=
  ⟨hnodup, fun _ => Iff.rfl, fun _ => rfl, id⟩

theorem State.short {s : State} {hpool : ∀ pa ∈ s.freelist, K.Pool pa} (h : (s.freeWorld hpool).Short n)
    (hcalm : s.denied = []) (hnodup : s.freelist.Nodup) : s.freelist.length ≤ n :=
  h.length_le hcalm hnodup fun _ hpa => hpa

/-- `copyuvm` copies the pages below `sz` into free pages, or gives back every page it took, and that only when `kalloc`
fails or there are not enough pages. The pages that were not free stay as they are. -/
theorem copyuvm_copied (hP : Shows s.page P) (hapart : ∀ q pa, P.held q = some pa → pa ∉ s.freelist)
    (hnodup : s.freelist.Nodup) (hpool : ∀ pa ∈ s.freelist, K.Pool pa) {sz : Nat} (hsz : sz ≤ KERNBASE)
    (hpages : ∀ v, v < npages sz → has (pteOf s P.dir v) PTE_P = true) :
    ∃ r t, copyuvm K P.dir sz s = .ok (r, t) ∧
      (∀ pa, pa ∉ s.freelist → t.page pa = s.page pa) ∧
      ((r = none ∧ t.freelist.Perm s.freelist ∧ (s.denied = [] → s.freelist.length ≤ npages sz + 1026)) ∨
        ∃ d, r = some d ∧ Copied s t P d sz) := by
  have hbeside : Beside (s.freeWorld hpool) P := ⟨hP, fun {q pa} hq => hapart q pa hq⟩
  have hpages' : ∀ v, v < npages sz → has (P.pte v) PTE_P = true := fun v hv => by
    rw [← hP.pteOf_eq (Nat.lt_trans (Nat.lt_of_lt_of_le hv (npages_le hsz)) (by decide))]
    exact hpages v hv
  have hruns := copyuvm_runs (E := fun _ => False) (State.bare hnodup hpool) hbeside hsz (.inl hpages')
  obtain ⟨r, t, hok, hr⟩ := hruns.answers
  refine ⟨r, t, hok, ?_⟩
  rcases hr with ⟨rfl, ht, hshort⟩ | ⟨A, B, rfl, ht, hcopies, hkernel, hclear⟩
  · refine ⟨fun pa hpa => ht.same hpa, .inl ⟨rfl, ?_, fun hcalm => hshort.length_le hcalm hnodup fun _ hpa => hpa⟩⟩
    exact (List.perm_ext_iff_of_nodup ht.nodup hnodup).mpr ht.all
  · exact ⟨fun pa hpa => ht.same hpa, .inr ⟨_, rfl, copied hbeside hP hsz hpages' ht hcopies hkernel hclear⟩⟩

/-- A process of one page is copied. -/
theorem copyuvm_tiny : ∃ d t, copyuvm Kernel.tiny 1024 PGSIZE (State.tiny Bytes.zero) = .ok (some d, t) ∧
    (∀ pa, pa ∉ (State.tiny Bytes.zero).freelist → t.page pa = (State.tiny Bytes.zero).page pa) ∧
    Copied (State.tiny Bytes.zero) t (Space.tiny Bytes.zero) d PGSIZE := by
  have hgood := good_tiny Bytes.zero
  have hsz : PGSIZE ≤ KERNBASE := by decide
  have hpages : ∀ v, v < npages PGSIZE →
      has (pteOf (State.tiny Bytes.zero) (Space.tiny Bytes.zero).dir v) PTE_P = true := by
    intro v hv
    have hv' : v < USERPAGES := Nat.lt_of_lt_of_le hv (npages_le hsz)
    rw [hgood.shows.pteOf_eq (Nat.lt_trans hv' (by decide))]
    exact ((owns_tiny Bytes.zero).pages hv').mpr hv
  obtain ⟨r, t, hok, hsame, hr⟩ := copyuvm_copied (P := Space.tiny Bytes.zero) hgood.shows
    (fun q pa hq => hgood.places.apart hq) hgood.places.nodup
    (fun pa hpa => World.tiny.pool (hgood.all_free hpa)) hsz hpages
  rcases hr with ⟨-, -, hshort⟩ | ⟨d, rfl, hcopied⟩
  · exact absurd (hshort rfl) (by rw [State.tiny, List.length_range']; decide)
  · exact ⟨d, t, hok, hsame, hcopied⟩

end Xv6.Vm
