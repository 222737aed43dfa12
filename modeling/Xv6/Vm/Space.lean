import Xv6.Vm.Memory
import Xv6.Lib.Places

/-! Address spaces.

A `Space` is what a page directory and its page tables say, a word for each directory entry and one
for each virtual page, and what is in the user pages. `Shows` says that all this is in memory. A
space holds the page of its directory, those of its page tables and its user pages, and the kernel
may have one more page in hand. `Good` says that each of these pages is held once and is not free,
and that nothing else has changed. -/
namespace Xv6.Vm
open Lib Function

/-! ### Entries -/

/-- A word for the page `pa`. -/
def entry (pa : Nat) (flags : BitVec 32) : BitVec 32 := BitVec.ofNat 32 (pa * PGSIZE) ||| flags

theorem toNat_entry (hpa : pa < 2 ^ 20) (hf : flags.toNat < PGSIZE) :
    (entry pa flags).toNat = pa * PGSIZE + flags.toNat := by
  have hlt : pa * PGSIZE < 2 ^ 32 := by simp only [PGSIZE]; omega
  rw [entry, BitVec.toNat_or, BitVec.toNat_ofNat, Nat.mod_eq_of_lt hlt]
  have h := Nat.two_pow_add_eq_or_of_lt (i := 12) hf pa
  rw [Nat.mul_comm pa, ← h]

theorem PTE_ADDR_entry (hpa : pa < 2 ^ 20) (hf : flags.toNat < PGSIZE) :
    PTE_ADDR (entry pa flags) = pa := by
  rw [PTE_ADDR, toNat_entry hpa hf]
  simp only [PGSIZE] at hf ⊢
  omega

theorem PTE_FLAGS_entry (hpa : pa < 2 ^ 20) (hf : flags.toNat < PGSIZE) :
    PTE_FLAGS (entry pa flags) = flags := by
  apply BitVec.eq_of_toNat_eq
  rw [PTE_FLAGS, BitVec.toNat_and, toNat_entry hpa hf]
  have := Nat.and_two_pow_sub_one_eq_mod (pa * PGSIZE + flags.toNat) 12
  simp only [PGSIZE] at this hf ⊢
  rw [show (0xFFF : BitVec 32).toNat = 2 ^ 12 - 1 from rfl, this]
  omega

theorem has_PTE_FLAGS (h : 0xFFF &&& flag = flag) : has w flag = has (PTE_FLAGS w) flag := by
  rw [has, has, PTE_FLAGS, BitVec.and_assoc, h]

theorem has_entry (hpa : pa < 2 ^ 20) (hf : flags.toNat < PGSIZE)
    (h : 0xFFF &&& flag = flag) : has (entry pa flags) flag = has flags flag := by
  rw [has_PTE_FLAGS h, PTE_FLAGS_entry hpa hf]

theorem has_or_self (h : flag ≠ 0) : has (w ||| flag) flag = true := by
  have hand : (w ||| flag) &&& flag = flag := by
    rw [BitVec.and_comm]
    exact BitVec.eq_of_getLsbD_eq fun i _ => by
      rw [BitVec.getLsbD_and, BitVec.getLsbD_or]
      cases flag.getLsbD i <;> simp
  rw [has, hand]
  exact decide_eq_true h

@[simp] theorem has_zero (flag : BitVec 32) : has 0 flag = false := by
  have h : (0 : BitVec 32) &&& flag = 0 := BitVec.zero_and
  rw [has, h]
  rfl

/-! ### Spaces -/

structure Space where
  /-- The page of the page directory. -/
  dir : Nat
  /-- The entries of the page directory. -/
  pde : Nat → BitVec 32
  /-- The page table entries by virtual page; zero where there is no page table. -/
  pte : Nat → BitVec 32
  /-- What is in the user pages, by virtual page. -/
  mem : Nat → Bytes PGSIZE
  /-- A page that is allocated and not yet mapped, and what is in it. -/
  hand : Option (Nat × Bytes PGSIZE)

/-- Virtual pages below `KERNBASE`. -/
abbrev USERPAGES : Nat := KERNBASE / PGSIZE

/-- Virtual pages. -/
abbrev PAGES : Nat := NPDENTRIES * NPTENTRIES

/-- What there is a page for. -/
inductive Slot where
  | dir
  | table (i : Nat)
  | page (v : Nat)
  | hand
deriving DecidableEq

namespace Space
variable (A : Space)

/-- The page of a page table. -/
def table (i : Nat) : Option Nat :=
  if i < NPDENTRIES ∧ has (A.pde i) PTE_P then some (PTE_ADDR (A.pde i)) else none

/-- The page for a user page. -/
def user (v : Nat) : Option Nat :=
  if v < USERPAGES ∧ has (A.pte v) PTE_P then some (PTE_ADDR (A.pte v)) else none

/-- The pages that belong to the space. -/
def held : Slot → Option Nat
  | .dir => some A.dir
  | .table i => A.table i
  | .page v => A.user v
  | .hand => A.hand.map Prod.fst

def setPde (i : Nat) (w : BitVec 32) : Space := {A with pde := update A.pde i w}

def setPte (v : Nat) (w : BitVec 32) : Space := {A with pte := update A.pte v w}

def setMem (v : Nat) (b : Bytes PGSIZE) : Space := {A with mem := update A.mem v b}

def setHand (h : Option (Nat × Bytes PGSIZE)) : Space := {A with hand := h}

variable {A} {i j u v : Nat} {w : BitVec 32}

@[simp] theorem setPde_dir : (A.setPde i w).dir = A.dir := rfl
@[simp] theorem setPde_pte : (A.setPde i w).pte = A.pte := rfl
@[simp] theorem setPde_mem : (A.setPde i w).mem = A.mem := rfl
@[simp] theorem setPde_hand : (A.setPde i w).hand = A.hand := rfl
@[simp] theorem setPde_user : (A.setPde i w).user = A.user := rfl
@[simp] theorem setPde_pde_self : (A.setPde i w).pde i = w := update_self ..
@[simp] theorem setPde_pde_of_ne (h : j ≠ i) : (A.setPde i w).pde j = A.pde j := update_of_ne h ..
@[simp] theorem setPte_dir : (A.setPte v w).dir = A.dir := rfl
@[simp] theorem setPte_pde : (A.setPte v w).pde = A.pde := rfl
@[simp] theorem setPte_mem : (A.setPte v w).mem = A.mem := rfl
@[simp] theorem setPte_hand : (A.setPte v w).hand = A.hand := rfl
@[simp] theorem setPte_table : (A.setPte v w).table = A.table := rfl
@[simp] theorem setPte_pte_self : (A.setPte v w).pte v = w := update_self ..
@[simp] theorem setPte_pte_of_ne (h : u ≠ v) : (A.setPte v w).pte u = A.pte u := update_of_ne h ..

@[simp] theorem setMem_mem_self : (A.setMem v b).mem v = b := update_self ..
@[simp] theorem setMem_mem_of_ne (h : u ≠ v) : (A.setMem v b).mem u = A.mem u :=
  update_of_ne h ..

theorem table_of_has (hi : i < NPDENTRIES) (h : has (A.pde i) PTE_P) :
    A.table i = some (PTE_ADDR (A.pde i)) := if_pos ⟨hi, h⟩

theorem table_of_not (h : has (A.pde i) PTE_P = false) : A.table i = none :=
  if_neg fun hi => by rw [h] at hi; exact Bool.false_ne_true hi.2

theorem user_of_has (hv : v < USERPAGES) (h : has (A.pte v) PTE_P) :
    A.user v = some (PTE_ADDR (A.pte v)) := if_pos ⟨hv, h⟩

theorem user_of_not (h : has (A.pte v) PTE_P = false) : A.user v = none :=
  if_neg fun hv => by rw [h] at hv; exact Bool.false_ne_true hv.2

theorem user_eq_some (h : A.user v = some pa) :
    v < USERPAGES ∧ has (A.pte v) PTE_P = true ∧ PTE_ADDR (A.pte v) = pa := by
  rw [user] at h
  split at h
  · rename_i hv
    exact ⟨hv.1, hv.2, Option.some.inj h⟩
  · cases h

theorem held_setPde (hi : i < NPDENTRIES) (hw : has w PTE_P) :
    (A.setPde i w).held = update A.held (.table i) (some (PTE_ADDR w)) := by
  funext q
  by_cases hq : q = .table i
  · rw [hq, update_self, held, table_of_has hi (by rw [setPde_pde_self]; exact hw), setPde_pde_self]
  · rw [update_of_ne hq]
    cases q with
    | dir => rfl
    | page v => rfl
    | hand => rfl
    | table j =>
      have hj : j ≠ i := fun h => hq (by rw [h])
      rw [held, held, table, table, setPde_pde_of_ne hj]

theorem held_setPte (hv : v < USERPAGES) :
    (A.setPte v w).held = update A.held (.page v) (if has w PTE_P then some (PTE_ADDR w) else none) := by
  funext q
  by_cases hq : q = .page v
  · rw [hq, update_self, held, user, setPte_pte_self]
    by_cases hw : has w PTE_P
    · rw [if_pos ⟨hv, hw⟩, if_pos hw]
    · rw [if_neg fun h => hw h.2, if_neg hw]
  · rw [update_of_ne hq]
    cases q with
    | dir => rfl
    | table i => rfl
    | hand => rfl
    | page u =>
      have hu : u ≠ v := fun h => hq (by rw [h])
      rw [held, held, user, user, setPte_pte_of_ne hu]

/-- The kernel part holds no pages. -/
theorem user_setPte_kernel (hv : USERPAGES ≤ v) : (A.setPte v w).user = A.user := by
  funext u
  rw [user, user]
  by_cases hu : u < USERPAGES
  · rw [setPte_pte_of_ne (by omega)]
  · rw [if_neg fun h => hu h.1, if_neg fun h => hu h.1]

theorem held_setPte_kernel (hv : USERPAGES ≤ v) : (A.setPte v w).held = A.held := by
  funext q
  cases q with
  | dir => rfl
  | table i => rfl
  | hand => rfl
  | page u => exact congrFun (user_setPte_kernel hv) u

theorem held_setHand (h : Option (Nat × Bytes PGSIZE)) :
    (A.setHand h).held = update A.held .hand (h.map Prod.fst) := by
  funext q
  cases q with
  | hand => rw [update_self]; rfl
  | dir => rfl
  | table i => rfl
  | page v => rfl

/-- What is not present is zero. -/
def Clean (A : Space) : Prop := ∀ v, has (A.pte v) PTE_P = false → A.pte v = 0

theorem Clean.setPte (h : A.Clean) (hw : has w PTE_P = false → w = 0) : (A.setPte v w).Clean := fun u hu => by
  by_cases huv : u = v
  · rw [huv, setPte_pte_self] at hu ⊢
    exact hw hu
  · rw [setPte_pte_of_ne huv] at hu ⊢
    exact h u hu

end Space

/-! ### Spaces in memory -/

/-- The space is in memory. -/
structure Shows (page : Nat → Bytes PGSIZE) (A : Space) : Prop where
  pde : ∀ {i}, i < NPDENTRIES → (page A.dir).word32 (4 * i) = A.pde i
  pte : ∀ {i j t}, A.table i = some t → j < NPTENTRIES → (page t).word32 (4 * j) = A.pte (NPTENTRIES * i + j)
  rest : ∀ {i j}, i < NPDENTRIES → has (A.pde i) PTE_P = false → j < NPTENTRIES →
    A.pte (NPTENTRIES * i + j) = 0
  mem : ∀ {v pa}, A.user v = some pa → page pa = A.mem v
  hand : ∀ {pa b}, A.hand = some (pa, b) → page pa = b

variable {page page' : Nat → Bytes PGSIZE} {A : Space}

theorem Shows.congr (h : Shows page A) (hp : ∀ q pa, A.held q = some pa → page' pa = page pa) :
    Shows page' A where
  pde hi := by rw [hp .dir A.dir rfl, h.pde hi]
  pte {i j t} ht hj := by rw [hp (.table i) t ht, h.pte ht hj]
  rest := h.rest
  mem {v pa} hv := by rw [hp (.page v) pa hv, h.mem hv]
  hand {pa b} hb := by
    have hheld : A.held .hand = some pa := by rw [Space.held, hb]; rfl
    rw [hp .hand pa hheld, h.hand hb]

theorem word32_putWord32_ne {b : Bytes PGSIZE} {i j : Nat} (h : i ≠ j) (w : BitVec 32) :
    (b.putWord32 (4 * i) w).word32 (4 * j) = b.word32 (4 * j) :=
  Bytes.word32_put_other _ _ _ _ _ (by omega)

theorem Shows.setMem (h : Shows page A) (hv : A.user v = none) (b : Bytes PGSIZE) :
    Shows page (A.setMem v b) where
  pde := h.pde
  pte := h.pte
  rest := h.rest
  mem {u pa} hu := by
    have hu : A.user u = some pa := hu
    have huv : u ≠ v := fun he => by rw [he, hv] at hu; cases hu
    rw [Space.setMem_mem_of_ne huv]
    exact h.mem hu
  hand := h.hand

theorem Shows.setHand (h : Shows page A)
    (hx : ∀ {pa b}, x = some (pa, b) → page pa = b) : Shows page (A.setHand x) where
  pde := h.pde
  pte := h.pte
  rest := h.rest
  mem := h.mem
  hand := hx

theorem Shows.setPte (h : Shows page A) {stock : List Nat} (hplaces : Places A.held stock) {i j t : Nat}
    (ht : A.table i = some t) (hj : j < NPTENTRIES) {w : BitVec 32}
    (hmem : ∀ {pa}, (A.setPte (NPTENTRIES * i + j) w).user (NPTENTRIES * i + j) = some pa →
      pa ≠ t ∧ page pa = A.mem (NPTENTRIES * i + j)) :
    Shows (update page t ((page t).putWord32 (4 * j) w)) (A.setPte (NPTENTRIES * i + j) w) where
  pde {k} hk := by
    have hdir : A.dir ≠ t := fun he => by
      have := hplaces.once (p := .dir) (q := .table i) (x := t) (by rw [← he]; rfl) ht
      cases this
    rw [Space.setPte_dir, update_of_ne hdir]
    exact h.pde hk
  pte {k l u} hu hl := by
    rw [Space.setPte_table] at hu
    by_cases hut : u = t
    · subst hut
      obtain rfl : k = i := by
        have := hplaces.once (p := .table k) (q := .table i) hu ht
        injection this
      rw [update_self]
      by_cases hlj : l = j
      · rw [hlj, Space.setPte_pte_self, Bytes.word32_putWord32 _ _ _ (by simp only [PGSIZE, NPTENTRIES] at *; omega)]
      · rw [Space.setPte_pte_of_ne (by omega), word32_putWord32_ne (Ne.symm hlj)]
        exact h.pte hu hl
    · have hki : k ≠ i := fun hki => hut (Option.some.inj (by rw [← hu, hki, ht]))
      rw [update_of_ne hut, Space.setPte_pte_of_ne (by simp only [NPTENTRIES] at *; omega)]
      exact h.pte hu hl
  rest {k l} hk hno hl := by
    have hki : k ≠ i := fun hki => by
      have hnone : A.table i = none := hki ▸ Space.table_of_not hno
      rw [ht] at hnone
      cases hnone
    rw [Space.setPte_pte_of_ne (by simp only [NPTENTRIES] at *; omega)]
    exact h.rest hk hno hl
  mem {u pa} hu := by
    by_cases huv : u = NPTENTRIES * i + j
    · rw [huv] at hu ⊢
      rw [update_of_ne (hmem hu).1, (hmem hu).2, Space.setPte_mem]
    · have hu : A.user u = some pa := by
        rw [← hu, Space.user, Space.user, Space.setPte_pte_of_ne huv]
      have hne : pa ≠ t := fun he => by
        have := hplaces.once (p := .page u) (q := .table i) (x := t) (he ▸ hu) ht
        cases this
      rw [update_of_ne hne]
      exact h.mem hu
  hand {pa b} hb := by
    have hheld : A.held .hand = some pa := by
      have hb : A.hand = some (pa, b) := hb
      rw [Space.held, hb]
      rfl
    have hne : pa ≠ t := fun he => by
      have := hplaces.once (p := .hand) (q := .table i) (x := t) (he ▸ hheld) ht
      cases this
    rw [update_of_ne hne]
    exact h.hand hb

/-- A page table of zeros is entered in the directory. -/
theorem Shows.setPde (h : Shows page A) {stock : List Nat} {t : Nat} (hplaces : Places A.held stock)
    (hfree : t ∈ stock) {i : Nat} (hi : i < NPDENTRIES) (hno : has (A.pde i) PTE_P = false) {w : BitVec 32}
    (hw : has w PTE_P) (hwt : PTE_ADDR w = t) :
    Shows (update (update page t Bytes.zero) A.dir
      ((page A.dir).putWord32 (4 * i) w)) (A.setPde i w) := by
  have hfresh : ∀ q pa, A.held q = some pa → pa ≠ t := fun q pa hq he => hplaces.apart hq (he ▸ hfree)
  have hother : ∀ q pa, q ≠ .dir → A.held q = some pa →
      update (update page t Bytes.zero) A.dir ((page A.dir).putWord32 (4 * i) w) pa = page pa := by
    intro q pa hq hpa
    have hdir : pa ≠ A.dir := fun he => hq (hplaces.once hpa (by rw [he]; rfl))
    rw [update_of_ne hdir, update_of_ne (hfresh q pa hpa)]
  refine ⟨fun {k} hk => ?_, fun {k l u} hu hl => ?_, fun {k l} hk hkno hl => ?_, fun {v pa} hv => ?_,
    fun {pa b} hb => ?_⟩
  · rw [Space.setPde_dir, update_self]
    by_cases hki : k = i
    · rw [hki, Space.setPde_pde_self, Bytes.word32_putWord32 _ _ _ (by simp only [PGSIZE, NPDENTRIES] at *; omega)]
    · rw [Space.setPde_pde_of_ne hki, word32_putWord32_ne (Ne.symm hki)]
      exact h.pde hk
  · rw [Space.setPde_pte]
    by_cases hki : k = i
    · rw [hki, Space.table_of_has hi (by rw [Space.setPde_pde_self]; exact hw), Space.setPde_pde_self, hwt] at hu
      have hut := Option.some.inj hu
      have hdir : u ≠ A.dir := fun he => hfresh .dir A.dir rfl (by rw [hut, he])
      rw [update_of_ne hdir, ← hut, update_self, Bytes.word32_zero, hki, h.rest hi hno hl]
    · have hu : A.table k = some u := by
        rw [← hu, Space.table, Space.table, Space.setPde_pde_of_ne hki]
      rw [hother (.table k) u (fun he => by cases he) hu]
      exact h.pte hu hl
  · have hki : k ≠ i := fun hki => by
      rw [hki, Space.setPde_pde_self, hw] at hkno
      cases hkno
    rw [Space.setPde_pde_of_ne hki] at hkno
    exact h.rest hk hkno hl
  · rw [hother (.page v) pa (fun he => by cases he) hv]
    exact h.mem hv
  · have hb : A.hand = some (pa, b) := hb
    have hheld : A.held .hand = some pa := by rw [Space.held, hb]; rfl
    rw [hother .hand pa (fun he => by cases he) hheld]
    exact h.hand hb

end Xv6.Vm
