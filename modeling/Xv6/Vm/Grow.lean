import Xv6.Vm.Uvm

/-! `growproc`: `proc.c`.

To grow is all or nothing. To shrink is not: `allocuvm` and `deallocuvm` answer 0 for failure, and a
size that wraps around is larger than the old one. -/
namespace Xv6.Vm
open Lib

/-- The fields of `struct proc` about its memory, and `eip` and `esp` of its trap frame. -/
structure Proc where
  pgdir : Nat
  sz : Nat
  name : List Byte
  eip : BitVec 32
  esp : Nat

def growproc (K : Kernel) (curproc : Proc) (n : BitVec 32) : M (Int × Proc) :=
  if 0 < n.toInt then do
    let sz ← allocuvm K curproc.pgdir curproc.sz ((curproc.sz + n.toNat) % 2 ^ 32)
    if sz = 0 then pure (-1, curproc) else pure (0, {curproc with sz := sz})
  else if n.toInt < 0 then do
    let sz ← deallocuvm K curproc.pgdir curproc.sz ((curproc.sz + n.toNat) % 2 ^ 32)
    if sz = 0 then pure (-1, curproc) else pure (0, {curproc with sz := sz})
  else pure (0, curproc)

/-! ### What a page directory says -/

/-- The word for a virtual page, zero if it has no page table. -/
def pteOf (s : State) (pgdir v : Nat) : BitVec 32 :=
  let pde := (s.page pgdir).word32 (4 * (v / NPTENTRIES))
  if has pde PTE_P then (s.page (PTE_ADDR pde)).word32 (4 * (v % NPTENTRIES)) else 0

/-- The byte at a virtual address. -/
def byteAt (s : State) (pgdir va : Nat) : Byte :=
  (s.page (PTE_ADDR (pteOf s pgdir (va / PGSIZE)))).get (va % PGSIZE)

variable {K : Kernel} {W : World K} {s t : State} {A B : Space} {p : Proc}

theorem Shows.pteOf_eq (h : Shows s.page A) (hv : v < PAGES) : pteOf s A.dir v = A.pte v := by
  have hi : v / NPTENTRIES < NPDENTRIES := by simp only [PAGES, NPTENTRIES, NPDENTRIES] at *; omega
  rw [pteOf, h.pde hi]
  by_cases hp : has (A.pde (v / NPTENTRIES)) PTE_P
  · simp only [if_pos hp]
    rw [h.pte (Space.table_of_has hi hp) (Nat.mod_lt v (by decide)), div_add_mod_page]
  · have hrest := h.rest hi (Bool.eq_false_iff.mpr hp) (Nat.mod_lt v (by decide : 0 < NPTENTRIES))
    simp only [if_neg hp]
    rw [← hrest, div_add_mod_page]

theorem Shows.byteAt_eq (h : Shows s.page A) (hva : va / PGSIZE < USERPAGES)
    (hp : has (A.pte (va / PGSIZE)) PTE_P) :
    byteAt s A.dir va = (A.mem (va / PGSIZE)).get (va % PGSIZE) := by
  rw [byteAt, h.pteOf_eq (Nat.lt_trans hva (by decide)), h.mem (Space.user_of_has hva hp)]

/-- The process has the space `A`: its pages are those below its size. -/
structure Owns (p : Proc) (A : Space) : Prop where
  dir : A.dir = p.pgdir
  hand : A.hand = none
  sz : p.sz < KERNBASE
  pages : ∀ {v}, v < USERPAGES → (has (A.pte v) PTE_P = true ↔ v < npages p.sz)

/-! ### All or nothing -/

/-- `growproc(n)` has gone from `s` and `p` to `t` and `q`, and answered `r`. -/
def AllOrNothing (s : State) (p : Proc) (n : Int) (r : Int) (q : Proc) (t : State) : Prop :=
  (r = 0 ∧ (q.sz : Int) = p.sz + n ∧ q.pgdir = p.pgdir ∧
    (∀ v < USERPAGES, has (pteOf t q.pgdir v) PTE_P = true ↔ v < npages q.sz) ∧
    ∀ va, va < p.sz → va < q.sz → byteAt t q.pgdir va = byteAt s p.pgdir va) ∨
  (r = -1 ∧ q = p ∧ ∀ v < PAGES, pteOf t p.pgdir v = pteOf s p.pgdir v)

theorem lt_npages_of_lt (h : va < sz) : va / PGSIZE < npages sz := by
  simp only [npages, PGSIZE]
  omega

theorem npages_mono (h : a ≤ b) : npages a ≤ npages b := by
  simp only [npages, PGSIZE]
  omega

theorem allOrNothing_ok (h : Good W s A) (ho : Owns p A) (ht : Good W t B) (hdir : B.dir = A.dir) {sz : Nat}
    {n : Int} (hn : (sz : Int) = p.sz + n)
    (hpages : ∀ v < USERPAGES, has (B.pte v) PTE_P = true ↔ v < npages sz)
    (hmem : ∀ v, v < npages p.sz → v < npages sz → B.mem v = A.mem v) :
    AllOrNothing s p n 0 {p with sz := sz} t := by
  refine .inl ⟨rfl, hn, rfl, fun v hv => ?_, fun va hva hva' => ?_⟩
  · show has (pteOf t p.pgdir v) PTE_P = true ↔ v < npages sz
    rw [← ho.dir, ← hdir, ht.shows.pteOf_eq (Nat.lt_trans hv (by decide))]
    exact hpages v hv
  · have hlt := lt_npages_of_lt hva
    have hlt' := lt_npages_of_lt hva'
    have huser : va / PGSIZE < USERPAGES := Nat.lt_of_lt_of_le hlt (npages_le (Nat.le_of_lt ho.sz))
    show byteAt t p.pgdir va = byteAt s p.pgdir va
    rw [← ho.dir, h.shows.byteAt_eq huser ((ho.pages huser).mpr hlt), ← hdir,
      ht.shows.byteAt_eq huser ((hpages _ huser).mpr hlt'), hmem _ hlt hlt']

theorem allOrNothing_fail (h : Good W s A) (ho : Owns p A) (ht : Good W t B) (hdir : B.dir = A.dir)
    (hpte : B.pte = A.pte) : AllOrNothing s p n (-1) p t := by
  refine .inr ⟨rfl, rfl, fun v hv => ?_⟩
  rw [← ho.dir, h.shows.pteOf_eq hv, ← hdir, ht.shows.pteOf_eq hv, hpte]

variable {n : BitVec 32}

theorem toInt_of_pos (hn : 0 < n.toInt) : n.toInt = n.toNat := by
  rw [BitVec.toInt_eq_toNat_cond] at hn ⊢
  split
  · rfl
  · rename_i hge
    rw [if_neg hge] at hn
    have := n.isLt
    omega

theorem toInt_of_neg (hn : n.toInt < 0) : n.toInt = n.toNat - 2 ^ 32 := by
  rw [BitVec.toInt_eq_toNat_cond] at hn ⊢
  split
  · rename_i hge
    rw [if_pos hge] at hn
    omega
  · rfl

theorem grow_runs (h : Good W s A) (ho : Owns p A) (hn : 0 < n.toInt) :
    Runs (growproc K p n) s (fun x t => AllOrNothing s p n.toInt x.1 x.2 t) fun _ => False := by
  have hsz := ho.sz
  have hlt := BitVec.toInt_lt (x := n)
  have hnat := toInt_of_pos hn
  simp only [KERNBASE] at hsz
  rw [growproc, if_pos hn, Nat.mod_eq_of_lt (by omega)]
  by_cases hmax : KERNBASE ≤ p.sz + n.toNat
  · rw [allocuvm, if_pos hmax]
    exact Runs.bind_ok rfl (Runs.pure (allOrNothing_fail h ho h rfl rfl))
  have hnew : ∀ v, npages p.sz ≤ v → v < npages (p.sz + n.toNat) → A.pte v = 0 := fun v hlo hhi => by
    have hv := Nat.lt_of_lt_of_le hhi (npages_le (Nat.le_of_not_le hmax))
    refine h.clean _ (Bool.eq_false_iff.mpr fun hp => ?_)
    have := (ho.pages hv).mp hp
    omega
  have halloc := allocuvm_runs (E := fun _ => False) h ho.hand (Nat.lt_of_not_le hmax) (Nat.le_add_right ..) hnew
  rw [ho.dir] at halloc
  refine halloc.bind fun r t hr => ?_
  rcases hr with ⟨rfl, ⟨B, ht, hundone⟩, -⟩ | ⟨rfl, B, ht, hfilled⟩
  · exact Runs.pure (allOrNothing_fail h ho ht hundone.spread.dir hundone.pte)
  · rw [if_neg (by omega)]
    refine Runs.pure (allOrNothing_ok h ho ht hfilled.spread.dir (by omega) (fun v hv => ?_) fun v hv _ => ?_)
    · by_cases hlo : v < npages p.sz
      · rw [hfilled.pte_other (.inl hlo), ho.pages hv]
        exact iff_of_true hlo (Nat.lt_of_lt_of_le hlo (npages_mono (Nat.le_add_right ..)))
      · by_cases hhi : v < npages (p.sz + n.toNat)
        · obtain ⟨pa, hpa, hpte⟩ := hfilled.pte (Nat.le_of_not_lt hlo) hhi
          rw [hpte, has_entry hpa (by decide) (by decide)]
          exact iff_of_true (by decide) hhi
        · rw [hfilled.pte_other (.inr (Nat.le_of_not_lt hhi)), ho.pages hv]
          exact iff_of_false hlo hhi
    · exact hfilled.mem_other (.inl hv)

theorem shrink_runs (h : Good W s A) (ho : Owns p A) (hn : n.toInt < 0) :
    Runs (growproc K p n) s (fun x t => AllOrNothing s p n.toInt x.1 x.2 t ↔
      p.sz = 0 ∨ 0 < (p.sz : Int) + n.toInt) fun _ => False := by
  have hsz := ho.sz
  have hle := BitVec.le_toInt n
  have hnat := toInt_of_neg hn
  have hisLt := n.isLt
  simp only [KERNBASE] at hsz
  rw [growproc, if_neg (by omega), if_pos hn]
  by_cases hneg : (p.sz : Int) + n.toInt < 0
  · -- The new size wraps around, and is not below the old one.
    rw [deallocuvm, if_pos (by omega)]
    refine Runs.bind_ok rfl ?_
    by_cases h0 : p.sz = 0
    · rw [if_pos h0]
      exact Runs.pure (iff_of_true (allOrNothing_fail h ho h rfl rfl) (.inl h0))
    · rw [if_neg h0]
      refine Runs.pure (iff_of_false ?_ (by omega))
      rintro (⟨-, hq, -⟩ | ⟨hr, -⟩)
      · simp only at hq
        omega
      · cases hr
  · obtain ⟨sz, hszn⟩ : ∃ sz : Nat, (sz : Int) = p.sz + n.toInt := ⟨((p.sz : Int) + n.toInt).toNat, by omega⟩
    rw [show (p.sz + n.toNat) % 2 ^ 32 = sz by omega]
    have hdealloc := deallocuvm_runs (E := fun _ => False) h (Nat.le_of_lt ho.sz) (show sz < p.sz by omega)
    rw [ho.dir] at hdealloc
    refine hdealloc.bind fun r t hr => ?_
    obtain ⟨rfl, ht⟩ := hr
    by_cases h0 : r = 0
    · -- The process has lost all its pages, and is told that nothing has happened.
      rw [if_pos h0]
      refine Runs.pure (iff_of_false ?_ (by omega))
      rintro (⟨hr, -⟩ | ⟨-, -, hall⟩)
      · cases hr
      · have hfirst : (0 : Nat) < npages p.sz := lt_npages.mpr (by rw [Nat.zero_mul]; omega)
        have hbefore : has (pteOf s p.pgdir 0) PTE_P = true := by
          rw [← ho.dir, h.shows.pteOf_eq (by decide)]
          exact (ho.pages (by decide)).mpr hfirst
        have hafter : pteOf t p.pgdir 0 = 0 := by
          rw [← ho.dir, show A.dir = (A.cut (npages r) (npages p.sz)).dir from rfl, ht.shows.pteOf_eq (by decide)]
          exact if_pos ⟨by rw [h0]; decide, hfirst⟩
        rw [← hall 0 (by decide), hafter, has_zero] at hbefore
        cases hbefore
    · rw [if_neg h0]
      refine Runs.pure (iff_of_true (allOrNothing_ok h ho ht rfl hszn (fun v hv => ?_) fun v _ _ => rfl) (by omega))
      show has (if npages r ≤ v ∧ v < npages p.sz then 0 else A.pte v) PTE_P = true ↔ v < npages r
      by_cases hcut : npages r ≤ v ∧ v < npages p.sz
      · rw [if_pos hcut, has_zero]
        exact iff_of_false (by decide) (by omega)
      · have hmono := npages_mono (a := r) (b := p.sz) (by omega)
        rw [if_neg hcut, ho.pages hv]
        omega

/-- `growproc(n)` is all or nothing unless the process shrinks to nothing or below. -/
theorem growproc_allOrNothing_iff (h : Good W s A) (ho : Owns p A) (n : BitVec 32) :
    ∃ r q t, growproc K p n s = .ok ((r, q), t) ∧
      (AllOrNothing s p n.toInt r q t ↔ 0 ≤ n.toInt ∨ p.sz = 0 ∨ 0 < (p.sz : Int) + n.toInt) := by
  have hruns : Runs (growproc K p n) s (fun x t => AllOrNothing s p n.toInt x.1 x.2 t ↔
      0 ≤ n.toInt ∨ p.sz = 0 ∨ 0 < (p.sz : Int) + n.toInt) fun _ => False := by
    rcases Int.lt_trichotomy n.toInt 0 with hn | hn | hn
    · refine (shrink_runs h ho hn).post fun x t hx => hx.trans ?_
      rw [or_iff_right (Int.not_le.mpr hn)]
    · rw [growproc, if_neg (by omega), if_neg (by omega)]
      refine Runs.pure (iff_of_true ?_ (.inl (Int.le_of_eq hn.symm)))
      rw [hn]
      exact allOrNothing_ok h ho h rfl (by omega) (fun v hv => ho.pages hv) fun v _ _ => rfl
    · exact (grow_runs h ho hn).post fun x t hx => iff_of_true hx (.inl (Int.le_of_lt hn))
  obtain ⟨⟨r, q⟩, t, hok, hall⟩ := hruns.answers
  exact ⟨r, q, t, hok, hall⟩

/-! ### A small process -/

/-- A kernel of two pages. -/
def Kernel.tiny : Kernel where
  data := KERNLINK + PGSIZE
  ends := KERNLINK + 2 * PGSIZE
  aligned := by decide
  text := by decide
  order := by decide
  low := by decide

/-- A page directory with one page table, and a user page at address 0. -/
def Space.tiny (b : Bytes PGSIZE) : Space where
  dir := 1024
  pde i := if i = 0 then entry 1025 (PTE_P ||| PTE_W ||| PTE_U) else 0
  pte v := if v = 0 then entry 1026 (PTE_P ||| PTE_W ||| PTE_U) else 0
  mem _ := b
  hand := none

/-- The memory with it, and 16 megabytes of free pages. -/
def State.tiny (b : Bytes PGSIZE) : State where
  page pa :=
    if pa = 1024 then Bytes.zero.putWord32 0 (entry 1025 (PTE_P ||| PTE_W ||| PTE_U))
    else if pa = 1025 then Bytes.zero.putWord32 0 (entry 1026 (PTE_P ||| PTE_W ||| PTE_U))
    else if pa = 1026 then b
    else Bytes.zero
  freelist := List.range' 4113 4096
  denied := []

def World.tiny : World Kernel.tiny where
  all pa := pa = 1024 ∨ pa = 1025 ∨ pa = 1026 ∨ 4113 ≤ pa ∧ pa < 4113 + 4096
  base _ := Bytes.zero
  calm := True
  pool {pa} h := by
    rw [Kernel.Pool]
    simp only [Kernel.tiny, KERNLINK, EXTMEM, KERNBASE, PGSIZE, PHYSTOP]
    omega

theorem word32_putWord32_zero (w : BitVec 32) (i : Nat) :
    (Bytes.zero.putWord32 0 w : Bytes PGSIZE).word32 (4 * i) = if i = 0 then w else 0 := by
  by_cases hi : i = 0
  · rw [hi, if_pos rfl]
    exact Bytes.word32_putWord32 _ 0 _ (by decide)
  · rw [if_neg hi]
    exact (word32_putWord32_ne (i := 0) (Ne.symm hi) w).trans (Bytes.word32_zero _)

theorem has_tiny (pa : Fin (2 ^ 20)) : has (entry pa (PTE_P ||| PTE_W ||| PTE_U)) PTE_P = true := by
  rw [has_entry pa.isLt (by decide) (by decide)]
  decide

/-- The pages of the space. -/
def tinyHeld : Slot → Option Nat
  | .dir => some 1024
  | .table 0 => some 1025
  | .page 0 => some 1026
  | _ => none

theorem held_tiny (b : Bytes PGSIZE) : (Space.tiny b).held = tinyHeld := by
  funext q
  cases q with
  | dir => rfl
  | hand => rfl
  | table i =>
    cases i with
    | zero =>
      exact (Space.table_of_has (by decide) (has_tiny 1025)).trans
        (congrArg some (PTE_ADDR_entry (by decide) (by decide)))
    | succ i => exact Space.table_of_not (has_zero _)
  | page v =>
    cases v with
    | zero =>
      exact (Space.user_of_has (by decide) (has_tiny 1026)).trans
        (congrArg some (PTE_ADDR_entry (by decide) (by decide)))
    | succ v => exact Space.user_of_not (has_zero _)

theorem tinyHeld_cases (h : tinyHeld q = some x) :
    (q = .dir ∧ x = 1024) ∨ (q = .table 0 ∧ x = 1025) ∨ (q = .page 0 ∧ x = 1026) := by
  cases q with
  | dir => exact .inl ⟨rfl, (Option.some.inj h).symm⟩
  | hand => cases h
  | table i =>
    cases i with
    | zero => exact .inr (.inl ⟨rfl, (Option.some.inj h).symm⟩)
    | succ i => cases h
  | page v =>
    cases v with
    | zero => exact .inr (.inr ⟨rfl, (Option.some.inj h).symm⟩)
    | succ v => cases h

theorem good_tiny (b : Bytes PGSIZE) : Good World.tiny (State.tiny b) (Space.tiny b) := by
  have hheld : ∀ {q x}, (Space.tiny b).held q = some x →
      (q = .dir ∧ x = 1024) ∨ (q = .table 0 ∧ x = 1025) ∨ (q = .page 0 ∧ x = 1026) := fun {q x} h =>
    tinyHeld_cases (by rw [← held_tiny b]; exact h)
  refine ⟨⟨?_, ?_, ?_, ?_, ?_⟩, ⟨?_, List.nodup_range', ?_⟩, ?_, ?_, ?_, fun _ => rfl⟩
  · intro i hi
    exact word32_putWord32_zero _ i
  · intro i j t ht hj
    rcases hheld (q := .table i) ht with ⟨h, -⟩ | ⟨h, rfl⟩ | ⟨h, -⟩
    · cases h
    · obtain rfl : i = 0 := by injection h
      refine (word32_putWord32_zero _ j).trans ?_
      show _ = if 1024 * 0 + j = 0 then _ else _
      rw [Nat.mul_zero, Nat.zero_add]
    · cases h
  · intro i j hi hno hj
    have hi0 : i ≠ 0 := fun he => by
      subst he
      exact Bool.false_ne_true (hno.symm.trans (has_tiny 1025))
    exact if_neg (by simp only [NPTENTRIES] at *; omega)
  · intro v pa hv
    rcases hheld (q := .page v) hv with ⟨h, -⟩ | ⟨h, -⟩ | ⟨h, rfl⟩
    · cases h
    · cases h
    · rfl
  · intro pa c hc
    cases hc
  · intro q r x hq hr
    rcases hheld hq with ⟨rfl, rfl⟩ | ⟨rfl, rfl⟩ | ⟨rfl, rfl⟩ <;>
      rcases hheld hr with ⟨rfl, h⟩ | ⟨rfl, h⟩ | ⟨rfl, h⟩ <;> first | rfl | cases h
  · intro q x hq hx
    have hx := (List.mem_range'_1.mp hx).1
    rcases hheld hq with ⟨-, h⟩ | ⟨-, h⟩ | ⟨-, h⟩ <;> omega
  · intro x
    constructor
    · rintro (hx | ⟨q, hq⟩)
      · exact .inr (.inr (.inr (List.mem_range'_1.mp hx)))
      · rcases hheld hq with ⟨-, h⟩ | ⟨-, h⟩ | ⟨-, h⟩
        · exact .inl h
        · exact .inr (.inl h)
        · exact .inr (.inr (.inl h))
    · rw [held_tiny b]
      rintro (rfl | rfl | rfl | hx)
      · exact .inr ⟨.dir, rfl⟩
      · exact .inr ⟨.table 0, rfl⟩
      · exact .inr ⟨.page 0, rfl⟩
      · exact .inl (List.mem_range'_1.mpr hx)
  · intro x hx
    obtain ⟨h1, hx⟩ := not_or.mp hx
    obtain ⟨h2, hx⟩ := not_or.mp hx
    obtain ⟨h3, -⟩ := not_or.mp hx
    show (if x = 1024 then _ else if x = 1025 then _ else if x = 1026 then _ else _) = _
    rw [if_neg h1, if_neg h2, if_neg h3]
    rfl
  · intro v hv
    by_cases hv0 : v = 0
    · subst hv0
      exact absurd (hv.symm.trans (has_tiny 1026)) Bool.false_ne_true
    · exact if_neg hv0

def Proc.tiny : Proc := ⟨1024, PGSIZE, [], 0, PGSIZE⟩

theorem owns_tiny (b : Bytes PGSIZE) : Owns Proc.tiny (Space.tiny b) where
  dir := rfl
  hand := rfl
  sz := by decide
  pages {v} hv := by
    by_cases hv0 : v = 0
    · subst hv0
      exact iff_of_true (has_tiny 1026) (by decide)
    · refine iff_of_false ?_ ?_
      · rw [show (Space.tiny b).pte v = 0 from if_neg hv0, has_zero]
        decide
      · show ¬ v < 1
        omega

/-- The process grows by a byte. -/
theorem growproc_tiny_grows : ∃ r q t, growproc Kernel.tiny Proc.tiny 1 (State.tiny Bytes.zero) = .ok ((r, q), t) ∧
    AllOrNothing (State.tiny Bytes.zero) Proc.tiny (1 : BitVec 32).toInt r q t := by
  obtain ⟨r, q, t, hok, hiff⟩ := growproc_allOrNothing_iff (good_tiny Bytes.zero) (owns_tiny Bytes.zero) 1
  exact ⟨r, q, t, hok, hiff.mpr (.inl (by decide))⟩

/-- Of a process of one page, `growproc(-4096)` frees the page and answers -1, and `growproc(-4097)`
does nothing and answers 0. -/
theorem growproc_tiny_shrinks :
    (∃ r q t, growproc Kernel.tiny Proc.tiny (-4096) (State.tiny Bytes.zero) = .ok ((r, q), t) ∧
      ¬ AllOrNothing (State.tiny Bytes.zero) Proc.tiny (-4096) r q t) ∧
    ∃ r q t, growproc Kernel.tiny Proc.tiny (-4097) (State.tiny Bytes.zero) = .ok ((r, q), t) ∧
      ¬ AllOrNothing (State.tiny Bytes.zero) Proc.tiny (-4097) r q t := by
  have hz := shrink_runs (n := -4096) (good_tiny Bytes.zero) (owns_tiny Bytes.zero) (by decide)
  have hw := shrink_runs (n := -4097) (good_tiny Bytes.zero) (owns_tiny Bytes.zero) (by decide)
  obtain ⟨⟨r, q⟩, t, hok, hiff⟩ := hz.answers
  obtain ⟨⟨r', q'⟩, t', hok', hiff'⟩ := hw.answers
  exact ⟨⟨r, q, t, hok, fun h => absurd (hiff.mp h) (by decide)⟩,
    ⟨r', q', t', hok', fun h => absurd (hiff'.mp h) (by decide)⟩⟩

end Xv6.Vm
