import Xv6.Lib.Circle
import Xv6.Umalloc.Blocks
import Xv6.Umalloc.Sizes

/-! The free list, and what `free` does to it.

The free blocks are a circle through `base`, in the order of their addresses, and no two of them touch. `free` finds
the last block below the one that it gets, whatever block it starts from, and joins the new block with the
neighbours that it touches. -/
namespace Xv6.Umalloc
open Lib Function List

variable {env : Env} {s : State} {bp : Nat} {b : Block} {free L R : List Block}

/-! ### The search -/

/-- The test of the search: `bp` belongs after `p`. -/
def Place (s : State) (bp p : Nat) : Prop := p < bp ∧ bp < s.ptr p ∨ s.ptr p ≤ p ∧ (p < bp ∨ bp < s.ptr p)

/-- The search ends at the one node that passes the test. -/
theorem free_search_finds (h : Leads s.ptr x l y) (hp : p ∈ x :: l)
    (hplace : ∀ z ∈ x :: l, Place s bp z ↔ z = p) (hfuel : l.length < fuel) : free_search bp fuel x s = .ok
      (p, s) := by
  induction l generalizing x fuel with
  | nil =>
    obtain ⟨fuel, rfl⟩ : ∃ k, fuel = k + 1 := ⟨fuel - 1, by omega⟩
    obtain rfl := mem_singleton.mp hp
    have hx := (hplace p (mem_singleton_self _)).mpr rfl
    refine (bind_of_ok rfl).trans ?_
    by_cases h1 : p < bp ∧ bp < s.ptr p
    · rw [if_pos h1]
      rfl
    · rw [if_neg h1, if_pos (hx.resolve_left h1)]
      rfl
  | cons a l ih =>
    obtain ⟨fuel, rfl⟩ : ∃ k, fuel = k + 1 := ⟨fuel - 1, by omega⟩
    have hx := hplace x (mem_cons_self ..)
    refine (bind_of_ok rfl).trans ?_
    by_cases h1 : x < bp ∧ bp < s.ptr x
    · rw [if_pos h1, hx.mp (.inl h1)]
      rfl
    by_cases h2 : s.ptr x ≤ x ∧ (x < bp ∨ bp < s.ptr x)
    · rw [if_neg h1, if_pos h2, hx.mp (.inr h2)]
      rfl
    have hne : p ≠ x := fun he => (hx.mpr he.symm).elim h1 h2
    rw [if_neg h1, if_neg h2, h.1]
    exact ih h.2 ((mem_cons.mp hp).resolve_left hne) (fun z hz => hplace z (mem_cons_of_mem _ hz))
      (Nat.lt_of_succ_lt_succ hfuel)

/-- On an ordered circle the test is passed by the last node below `bp` only. -/
theorem place_iff (h : Leads s.ptr base (l₁ ++ l₂) base)
    (hsorted : (base :: (l₁ ++ l₂)).Pairwise (· < ·)) (hlt : ∀ z ∈ base :: l₁, z < bp) (hgt : ∀ z ∈ l₂, bp < z)
    (hz : z ∈ base :: (l₁ ++ l₂)) : Place s bp z ↔ z = l₁.getLastD base := by
  obtain ⟨hfront, hback⟩ := leads_split.mp h
  rw [← cons_append] at hsorted hz
  obtain ⟨hsorted₁, hsorted₂, hacross⟩ := pairwise_append.mp hsorted
  have hlast : l₁.getLastD base ∈ base :: l₁ := getLastD_mem_cons ..
  have hbase := hlt base (mem_cons_self ..)
  have hhead := hback.head
  constructor
  · intro hplace
    by_contra hne
    rcases mem_append.mp hz with hz | hz
    · -- The next node is larger, but still below `bp`.
      obtain ⟨hnext, hless⟩ := (hfront.ascends hsorted₁ hz).resolve_left hne
      have := hlt _ (mem_cons_of_mem _ hnext)
      rcases hplace with hplace | hplace <;> omega
    · -- The node is above `bp`; the next one is larger, or it is `base`.
      have := hgt z hz
      have hsorted' : (l₁.getLastD base :: l₂).Pairwise (· < ·) :=
        pairwise_cons.mpr ⟨hacross _ hlast, hsorted₂⟩
      rcases hback.ascends hsorted' (mem_cons_of_mem _ hz) with rfl | ⟨-, hless⟩
      · have hend := hback.last
        rcases hplace with hplace | hplace <;> omega
      · rcases hplace with hplace | hplace <;> omega
  · rintro rfl
    have hbelow := hlt _ hlast
    cases l₂ with
    | nil =>
      rw [Place, hhead]
      have hle : base ≤ l₁.getLastD base := by
        rcases mem_cons.mp hlast with he | hmem
        · omega
        · exact Nat.le_of_lt ((pairwise_cons.mp hsorted₁).1 _ hmem)
      exact .inr ⟨hle, .inl hbelow⟩
    | cons c l₂ =>
      rw [Place, hhead]
      exact .inl ⟨hbelow, hgt c (mem_cons_self ..)⟩

/-! ### The list -/

def addrs (bs : List Block) : List Nat := bs.map Block.addr

/-- Blocks in the order of their addresses, none next to another. -/
def Ordered (bs : List Block) : Prop := bs.Pairwise fun b c => b.stop < c.addr

/-- The block is above `base`, has units, and ends below the last address. -/
structure Block.Within (env : Env) (b : Block) : Prop where
  above : env.base < b.addr
  pos : 0 < b.size
  stop : b.stop < 2 ^ 32

/-- The free list of the state. -/
structure Listed (env : Env) (s : State) (free : List Block) : Prop where
  circle : Leads s.ptr env.base (addrs free) env.base
  rover : s.freep ∈ env.base :: addrs free
  ordered : Ordered free
  within : ∀ b ∈ free, b.Within env
  size : ∀ b ∈ free, s.size b.addr = b.size
  base : s.size env.base = 0

theorem addr_lt_stop (h : b.Within env) : b.addr < b.stop := by
  have := h.pos
  simp only [Block.stop, HEADER]
  omega

theorem sorted_addrs (hordered : Ordered free) (hwithin : ∀ b ∈ free, b.Within env) :
    (env.base :: addrs free).Pairwise (· < ·) := by
  refine pairwise_cons.mpr ⟨fun x hx => ?_, pairwise_map.mpr ?_⟩
  · obtain ⟨b, hb, rfl⟩ := mem_map.mp hx
    exact (hwithin b hb).above
  · exact hordered.imp_of_mem fun hb _ hbc => Nat.lt_trans (addr_lt_stop (hwithin _ hb)) hbc

theorem Listed.nodup (h : Listed env s free) : (env.base :: addrs free).Nodup :=
  (sorted_addrs h.ordered h.within).imp Nat.ne_of_lt

theorem length_le_of_ordered (lo hi : Nat) (hordered : Ordered free) (hpos : ∀ b ∈ free, 0 < b.size)
    (hlo : ∀ b ∈ free, lo ≤ b.addr) (hhi : ∀ b ∈ free, b.stop ≤ hi) (hle : lo ≤ hi) :
    lo + free.length * HEADER ≤ hi := by
  induction free generalizing lo with
  | nil => simpa using hle
  | cons b free ih =>
    obtain ⟨hb, hordered⟩ := pairwise_cons.mp hordered
    obtain ⟨hpos', hpos⟩ := forall_mem_cons.mp hpos
    obtain ⟨hstop, hhi⟩ := forall_mem_cons.mp hhi
    have hrest := ih b.stop hordered hpos (fun c hc => Nat.le_of_lt (hb c hc)) hhi hstop
    have hlo := hlo b (mem_cons_self ..)
    rw [length_cons]
    simp only [Block.stop, HEADER] at hrest ⊢
    omega

/-- There are fewer than 2^29 free blocks. -/
theorem length_free_lt (hordered : Ordered free) (hwithin : ∀ b ∈ free, b.Within env) : free.length < 2 ^ 29 := by
  have h := length_le_of_ordered 0 (2 ^ 32 - 1) hordered (fun b hb => (hwithin b hb).pos)
    (fun _ _ => Nat.zero_le _) (fun b hb => Nat.le_sub_one_of_lt (hwithin b hb).stop) (Nat.zero_le _)
  simp only [HEADER] at h
  omega

/-! ### Joining neighbours -/

/-- The block with the one that follows it, if they touch; the blocks after it. -/
def absorb (b : Block) : List Block → Block × List Block
  | [] => (b, [])
  | c :: R => if b.stop = c.addr then (b.join c, R) else (b, c :: R)

/-- The block between those below it and those above it. -/
def settle (L : List Block) (b : Block) (R : List Block) : List Block :=
  match L.getLast? with
  | none => (absorb b R).1 :: (absorb b R).2
  | some a =>
    if a.stop = b.addr then L.dropLast ++ a.join (absorb b R).1 :: (absorb b R).2
    else L ++ (absorb b R).1 :: (absorb b R).2

theorem absorb_cases (b : Block) (R : List Block) : absorb b R = (b, R) ∧ (∀ c R', R = c :: R' → b.stop ≠ c.addr) ∨
    ∃ c R', R = c :: R' ∧ b.stop = c.addr ∧ absorb b R = (b.join c, R') := by
  cases R with
  | nil => exact .inl ⟨rfl, fun _ _ h => by cases h⟩
  | cons c R =>
    by_cases h : b.stop = c.addr
    · exact .inr ⟨c, R, rfl, h, if_pos h⟩
    · refine .inl ⟨if_neg h, fun c' R' he => ?_⟩
      obtain ⟨rfl, rfl⟩ := List.cons.inj he
      exact h

theorem addr_absorb (b : Block) (R : List Block) : (absorb b R).1.addr = b.addr := by
  obtain ⟨h, -⟩ | ⟨c, R', -, -, h⟩ := absorb_cases b R <;> rw [h]
  rfl

theorem units_absorb (b : Block) (R : List Block) : units ((absorb b R).1 :: (absorb b R).2) = units (b :: R) := by
  obtain ⟨h, -⟩ | ⟨c, R', rfl, htouch, h⟩ := absorb_cases b R
  · rw [h]
  · rw [h, units_cons, units_cons, units_cons, Block.units_join htouch, append_assoc]

/-- The block and those above it are in order once it is joined. -/
theorem ordered_absorb (hR : Ordered R) (hb : ∀ c ∈ R, b.stop ≤ c.addr) :
    Ordered ((absorb b R).1 :: (absorb b R).2) := by
  obtain ⟨h, hne⟩ | ⟨c, R', rfl, htouch, h⟩ := absorb_cases b R
  · rw [h]
    refine pairwise_cons.mpr ⟨fun c hc => ?_, hR⟩
    cases R with
    | nil => cases hc
    | cons d R =>
      have hlt : b.stop < d.addr := Nat.lt_of_le_of_ne (hb d (mem_cons_self ..)) (hne d R rfl)
      rcases mem_cons.mp hc with rfl | hc
      · exact hlt
      · exact Nat.lt_of_lt_of_le hlt (Nat.le_trans d.addr_le_stop (Nat.le_of_lt ((pairwise_cons.mp hR).1 c hc)))
  · rw [h]
    obtain ⟨hc, hR'⟩ := pairwise_cons.mp hR
    refine pairwise_cons.mpr ⟨fun d hd => ?_, hR'⟩
    rw [Block.stop_join htouch]
    exact hc d hd

theorem absorb_subset (b : Block) (R : List Block) : ∀ c ∈ (absorb b R).2, c ∈ R := by
  obtain ⟨h, -⟩ | ⟨d, R', rfl, -, h⟩ := absorb_cases b R
  · rw [h]
    exact fun c hc => hc
  · rw [h]
    exact fun c hc => mem_cons_of_mem _ hc

theorem size_absorb (b : Block) (R : List Block) : b.size ≤ (absorb b R).1.size := by
  obtain ⟨h, -⟩ | ⟨d, R', -, -, h⟩ := absorb_cases b R
  · exact Nat.le_of_eq (by rw [h])
  · rw [h]
    exact Nat.le_add_right ..

theorem settle_cases (L : List Block) (b : Block) (R : List Block) :
    settle L b R = L ++ (absorb b R).1 :: (absorb b R).2 ∧ (∀ L' a, L = L' ++ [a] → a.stop ≠ b.addr) ∨
    ∃ L' a, L = L' ++ [a] ∧ a.stop = b.addr ∧ settle L b R = L' ++ a.join (absorb b R).1 :: (absorb b R).2 := by
  rcases eq_nil_or_concat L with rfl | ⟨L', a, rfl⟩
  · exact .inl ⟨rfl, fun L' a h => absurd h.symm (append_ne_nil_of_right_ne_nil _ (cons_ne_nil a []))⟩
  · rw [List.concat_eq_append, settle, List.getLast?_concat, dropLast_concat]
    by_cases h : a.stop = b.addr
    · exact .inr ⟨L', a, rfl, h, if_pos h⟩
    · refine .inl ⟨if_neg h, fun L₂ a₂ he => ?_⟩
      obtain ⟨-, he⟩ := append_inj' he rfl
      rw [← (List.cons.inj he).1]
      exact h

theorem units_settle (L : List Block) (b : Block) (R : List Block) : units (settle L b R) = units (L ++ b :: R) := by
  obtain ⟨h, -⟩ | ⟨L', a, rfl, htouch, h⟩ := settle_cases L b R
  · rw [h, units_append, units_absorb, units_append]
  · have htouch' : a.stop = (absorb b R).1.addr := htouch.trans (addr_absorb b R).symm
    have hsplit := units_absorb b R
    rw [units_cons] at hsplit
    rw [h, units_append, units_cons, Block.units_join htouch', append_assoc, hsplit, append_assoc,
      singleton_append, units_append, units_cons a]

theorem exists_size_le (L : List Block) (b : Block) (R : List Block) : ∃ c ∈ settle L b R, b.size ≤ c.size := by
  have hsize := size_absorb b R
  obtain ⟨h, -⟩ | ⟨L', a, -, -, h⟩ := settle_cases L b R
  · exact ⟨_, h ▸ mem_append_right _ (mem_cons_self ..), hsize⟩
  · exact ⟨_, h ▸ mem_append_right _ (mem_cons_self ..), Nat.le_trans hsize (Nat.le_add_left ..)⟩

theorem pos_settle (hL : ∀ a ∈ L, 0 < a.size) (hb : 0 < b.size) (hR : ∀ c ∈ R, 0 < c.size) :
    ∀ c ∈ settle L b R, 0 < c.size := by
  have hsize := size_absorb b R
  have hrest : ∀ c ∈ (absorb b R).2, 0 < c.size := fun c hc => hR c (absorb_subset b R c hc)
  obtain ⟨h, -⟩ | ⟨L', a, rfl, -, h⟩ := settle_cases L b R
  · rw [h]
    exact forall_mem_append.mpr ⟨hL, forall_mem_cons.mpr ⟨Nat.lt_of_lt_of_le hb hsize, hrest⟩⟩
  · rw [h]
    refine forall_mem_append.mpr ⟨(forall_mem_append.mp hL).1, forall_mem_cons.mpr ⟨?_, hrest⟩⟩
    exact Nat.lt_of_lt_of_le hb (Nat.le_trans hsize (Nat.le_add_left ..))

/-- When the last block does not touch an address, none does. -/
theorem stop_lt_of_last (hordered : Ordered L) (hle : ∀ a ∈ L, a.stop ≤ x)
    (hne : ∀ L' a, L = L' ++ [a] → a.stop ≠ x) : ∀ a ∈ L, a.stop < x := by
  intro a ha
  rcases eq_nil_or_concat L with rfl | ⟨L', d, rfl⟩
  · cases ha
  rw [List.concat_eq_append] at hordered hle hne ha
  have hd := Nat.lt_of_le_of_ne (hle d (mem_append_right _ (mem_singleton_self d))) (hne L' d rfl)
  rcases mem_append.mp ha with ha | ha
  · have hstop := (pairwise_append.mp hordered).2.2 a ha d (mem_singleton_self d)
    exact Nat.lt_trans hstop (Nat.lt_of_le_of_lt d.addr_le_stop hd)
  · rw [mem_singleton.mp ha]
    exact hd

/-- The list is in order again. -/
theorem ordered_settle (hordered : Ordered (L ++ R)) (hL : ∀ a ∈ L, a.stop ≤ b.addr)
    (hR : ∀ c ∈ R, b.stop ≤ c.addr) : Ordered (settle L b R) := by
  obtain ⟨hoL, hoR, hacross⟩ := pairwise_append.mp hordered
  obtain ⟨hfirst, hrest⟩ := pairwise_cons.mp (ordered_absorb hoR hR)
  have haddr := addr_absorb b R
  have hsub := absorb_subset b R
  obtain ⟨h, hne⟩ | ⟨L', a, rfl, htouch, h⟩ := settle_cases L b R
  · rw [h]
    refine pairwise_append.mpr ⟨hoL, pairwise_cons.mpr ⟨hfirst, hrest⟩, fun a ha c hc => ?_⟩
    rcases mem_cons.mp hc with rfl | hc
    · rw [haddr]
      exact stop_lt_of_last hoL hL hne a ha
    · exact hacross a ha c (hsub c hc)
  · rw [h]
    obtain ⟨hoL', -, hlast⟩ := pairwise_append.mp hoL
    refine pairwise_append.mpr ⟨hoL', pairwise_cons.mpr ⟨fun c hc => ?_, hrest⟩, fun x hx c hc => ?_⟩
    · rw [Block.stop_join (htouch.trans haddr.symm)]
      exact hfirst c hc
    · rcases mem_cons.mp hc with rfl | hc
      · exact hlast x hx a (mem_singleton_self a)
      · exact hacross x (mem_append_left _ hx) c (hsub c hc)

theorem within_of_tiles (h : Tiles bs cs) (hcs : ∀ c ∈ cs, c.Within env)
    (hpos : ∀ c ∈ bs, 0 < c.size) : ∀ c ∈ bs, c.Within env := by
  intro c hc
  obtain ⟨habove, hstop⟩ := h.bounds
    (fun c hc => (⟨(hcs c hc).above, Nat.le_sub_one_of_lt (hcs c hc).stop⟩ : env.base + 1 ≤ c.addr ∧
      c.stop ≤ 2 ^ 32 - 1)) hc (hpos c hc)
  exact ⟨habove, hpos c hc, by omega⟩

/-! ### `free` -/

/-- The last node below the block. -/
def Env.last (env : Env) (L : List Block) : Nat := (addrs L).getLastD env.base

/-- The node after the last one below the block. -/
def Env.next (env : Env) (R : List Block) : Nat := (addrs R).headD env.base

/-- `b` is not in the list; its place is between `L` and `R`. -/
structure Slot (env : Env) (s : State) (L : List Block) (b : Block) (R : List Block) : Prop where
  listed : Listed env s (L ++ R)
  within : b.Within env
  size : s.size b.addr = b.size
  below : ∀ a ∈ L, a.stop ≤ b.addr
  above : ∀ c ∈ R, b.stop ≤ c.addr

theorem last_mem (env : Env) (L : List Block) : env.last L ∈ env.base :: addrs L := getLastD_mem_cons ..

theorem plus_eq (h : b.Within env) : plus b.addr b.size = b.stop := Nat.mod_eq_of_lt h.stop

/-- There is a place for a block that is disjoint from the list. -/
theorem exists_slot (hordered : Ordered free) (hdisj : ∀ c ∈ free, b.Disjoint c) :
    ∃ L R, free = L ++ R ∧ (∀ a ∈ L, a.stop ≤ b.addr) ∧ ∀ c ∈ R, b.stop ≤ c.addr := by
  induction free with
  | nil => exact ⟨[], [], rfl, by simp, by simp⟩
  | cons c free ih =>
    obtain ⟨hc, hordered⟩ := pairwise_cons.mp hordered
    obtain ⟨hdisj', hdisj⟩ := forall_mem_cons.mp hdisj
    rcases hdisj' with habove | hbelow
    · refine ⟨[], c :: free, rfl, by simp, forall_mem_cons.mpr ⟨habove, fun d hd => ?_⟩⟩
      exact Nat.le_trans habove (Nat.le_trans c.addr_le_stop (Nat.le_of_lt (hc d hd)))
    · obtain ⟨L, R, rfl, hL, hR⟩ := ih hordered hdisj
      exact ⟨c :: L, R, rfl, forall_mem_cons.mpr ⟨hbelow, hL⟩, hR⟩

namespace Slot

variable (h : Slot env s L b R)
include h

theorem lt_addr : ∀ z ∈ env.base :: addrs L, z < b.addr := by
  refine forall_mem_cons.mpr ⟨h.within.above, fun z hz => ?_⟩
  obtain ⟨a, ha, rfl⟩ := mem_map.mp hz
  exact Nat.lt_of_lt_of_le (addr_lt_stop (h.listed.within a (mem_append_left _ ha))) (h.below a ha)

theorem addr_lt : ∀ z ∈ addrs R, b.addr < z := by
  intro z hz
  obtain ⟨c, hc, rfl⟩ := mem_map.mp hz
  exact Nat.lt_of_lt_of_le (addr_lt_stop h.within) (h.above c hc)

theorem circle : Leads s.ptr env.base (addrs L ++ addrs R) env.base := by
  have hcircle := h.listed.circle
  rwa [addrs, map_append] at hcircle

theorem sorted : (env.base :: (addrs L ++ addrs R)).Pairwise (· < ·) := by
  have hsorted := sorted_addrs h.listed.ordered h.listed.within
  rwa [addrs, map_append] at hsorted

/-- The search ends at the last node below the block. -/
theorem search : free_search b.addr LOOP s.freep s = .ok (env.last L, s) := by
  have hrover := h.listed.rover
  rw [addrs, map_append] at hrover
  obtain ⟨l, hl, hperm⟩ := h.circle.rotate hrover
  refine free_search_finds hl (hperm.mem_iff.mpr ?_) (fun z hz => ?_) ?_
  · exact mem_append_left (addrs R) (last_mem env L)
  · exact place_iff h.circle h.sorted h.lt_addr h.addr_lt (hperm.mem_iff.mp hz)
  · have hlength := hperm.length_eq
    have hfree := length_free_lt h.listed.ordered h.listed.within
    simp only [length_cons, length_append, addrs, length_map] at hlength hfree
    unfold LOOP
    omega

theorem last_lt : env.last L < b.addr := h.lt_addr _ (last_mem env L)

theorem back : Leads s.ptr (env.last L) (addrs R) env.base := (leads_split.mp h.circle).2

/-- The block with the one that follows. -/
theorem joinNext_eq : s.joinNext b.addr (env.last L) =
    (s.setSize b.addr (absorb b R).1.size).setPtr b.addr (env.next (absorb b R).2) := by
  have hnext : s.ptr (env.last L) = env.next R := h.back.head
  have hstop : env.base < b.stop := Nat.lt_of_lt_of_le h.within.above b.addr_le_stop
  unfold State.joinNext
  rw [h.size, plus_eq h.within, hnext]
  obtain ⟨habsorb, hne⟩ | ⟨c, R', rfl, htouch, habsorb⟩ := absorb_cases b R
  · have hsame : s.setSize b.addr b.size = s := by
      rw [State.setSize, ← h.size, update_eq_self]
    rw [habsorb, hsame, if_neg]
    cases R with
    | nil => exact Nat.ne_of_gt hstop
    | cons c R => exact hne c R rfl
  · have hc := mem_append_right L (mem_cons_self (a := c) (l := R'))
    have hsize : uint (b.size + c.size) = b.size + c.size := by
      have hlt := (h.listed.within c hc).stop
      rw [← Block.stop_join htouch] at hlt
      simp only [Block.stop, Block.join, HEADER] at hlt
      exact Nat.mod_eq_of_lt (by omega)
    have hptr : s.ptr c.addr = env.next R' := h.back.2.head
    rw [habsorb]
    refine (if_pos htouch).trans ?_
    show (s.setSize b.addr (uint (b.size + s.size c.addr))).setPtr b.addr (s.ptr c.addr) = _
    rw [h.listed.size c hc, hsize, hptr]
    rfl

theorem within_settle : ∀ c ∈ settle L b R, c.Within env := by
  obtain ⟨hL, hR⟩ := forall_mem_append.mp h.listed.within
  refine within_of_tiles (List.Perm.of_eq (units_settle L b R)) ?_ ?_
  · exact forall_mem_append.mpr ⟨hL, forall_mem_cons.mpr ⟨h.within, hR⟩⟩
  · exact pos_settle (fun a ha => (hL a ha).pos) h.within.pos fun c hc => (hR c hc).pos

theorem insert_apart (hne : ∀ L' a, L = L' ++ [a] → a.stop ≠ b.addr) : s.insert b.addr (env.last L) =
    {((s.setSize b.addr (absorb b R).1.size).setPtr b.addr (env.next (absorb b R).2)).setPtr (env.last L) b.addr with
      freep := env.last L} := by
  unfold State.insert State.joinPrev
  rw [h.joinNext_eq, State.size_setPtr, State.size_setSize, update_of_ne (Nat.ne_of_lt h.last_lt), if_neg]
  rcases eq_nil_or_concat L with rfl | ⟨L', a, rfl⟩
  · show plus env.base (s.size env.base) ≠ b.addr
    have habove := h.within.above
    have hstop := Nat.lt_of_le_of_lt b.addr_le_stop h.within.stop
    rw [h.listed.base, plus, uint, Nat.zero_mul, Nat.add_zero, Nat.mod_eq_of_lt (Nat.lt_trans habove hstop)]
    exact Nat.ne_of_lt habove
  · rw [List.concat_eq_append] at h hne ⊢
    have ha : a ∈ (L' ++ [a]) ++ R := mem_append_left _ (mem_append_right _ (mem_singleton_self a))
    have hlast : env.last (L' ++ [a]) = a.addr := by simp [Env.last, addrs]
    rw [hlast, h.listed.size a ha, plus_eq (h.listed.within a ha)]
    exact hne L' a rfl

theorem insert_joined (hL : L = L' ++ [a]) (htouch : a.stop = b.addr)
    (hjoin : (a.join (absorb b R).1).Within env) :
    s.insert b.addr (env.last L) =
      {(((s.setSize b.addr (absorb b R).1.size).setPtr b.addr (env.next (absorb b R).2)).setSize a.addr
        (a.join (absorb b R).1).size).setPtr a.addr (env.next (absorb b R).2) with freep := a.addr} := by
  have ha : a ∈ L ++ R := hL ▸ mem_append_left _ (mem_append_right _ (mem_singleton_self a))
  have hlast : env.last L = a.addr := by simp [hL, Env.last, addrs]
  have hsize : uint (a.size + (absorb b R).1.size) = a.size + (absorb b R).1.size := by
    have hlt := hjoin.stop
    simp only [Block.stop, Block.join, HEADER] at hlt
    exact Nat.mod_eq_of_lt (by omega)
  unfold State.insert State.joinPrev
  rw [h.joinNext_eq, State.size_setPtr, State.size_setSize, update_of_ne (Nat.ne_of_lt h.last_lt), hlast,
    h.listed.size a ha, plus_eq (h.listed.within a ha), if_pos htouch, update_self, State.ptr_setPtr,
    update_self, hsize]
  rfl

/-- Links that change at the block and at the last node below it only. -/
theorem leads (hptr : ∀ z, z ≠ env.last L → z ≠ b.addr → ptr z = s.ptr z)
    (hy : ptr y = env.next (absorb b R).2) :
    Leads ptr env.base (addrs L) (ptr (env.last L)) ∧ Leads ptr y (addrs (absorb b R).2) env.base := by
  have hnodup : (env.base :: addrs L).Nodup :=
    ((pairwise_append.mp (cons_append ▸ h.sorted)).1).imp Nat.ne_of_lt
  refine ⟨h.circle.front hnodup fun z hz hne => hptr z hne (Nat.ne_of_lt (h.lt_addr z hz)), ?_⟩
  obtain ⟨x, hx⟩ : ∃ x, Leads s.ptr x (addrs (absorb b R).2) env.base := by
    obtain ⟨habsorb, -⟩ | ⟨c, R', rfl, -, habsorb⟩ := absorb_cases b R
    · rw [habsorb]
      exact ⟨_, h.back⟩
    · rw [habsorb]
      exact ⟨_, h.back.2⟩
  refine hx.relay (hy.trans hx.head.symm) fun z hz => ?_
  obtain ⟨c, hc, rfl⟩ := mem_map.mp hz
  have hlt := h.addr_lt c.addr (mem_map_of_mem (absorb_subset b R c hc))
  exact hptr _ (Nat.ne_of_gt (Nat.lt_trans h.last_lt hlt)) (Nat.ne_of_gt hlt)

theorem listed_apart (hne : ∀ L' a, L = L' ++ [a] → a.stop ≠ b.addr)
    (hsettle : settle L b R = L ++ (absorb b R).1 :: (absorb b R).2) :
    Listed env (s.insert b.addr (env.last L)) (settle L b R) ∧
      ∀ z ≠ b.addr, (s.insert b.addr (env.last L)).size z = s.size z := by
  have hordered := ordered_settle h.listed.ordered h.below h.above
  have hwithin := h.within_settle
  have hlast := Nat.ne_of_lt h.last_lt
  have haddr := addr_absorb b R
  obtain ⟨hL, hR⟩ := forall_mem_append.mp h.listed.size
  have hsize : ∀ z ≠ b.addr, update s.size b.addr (absorb b R).1.size z = s.size z := fun z hz =>
    update_of_ne hz ..
  have hptr : ∀ z, z ≠ env.last L → z ≠ b.addr → update (update s.ptr b.addr
      (env.next (absorb b R).2)) (env.last L) b.addr z = s.ptr z := fun z hz hz' =>
    (update_of_ne hz ..).trans (update_of_ne hz' ..)
  obtain ⟨hfront, hback⟩ := h.leads hptr ((update_of_ne hlast.symm ..).trans (update_self ..))
  rw [update_self] at hfront
  rw [h.insert_apart hne]
  rw [hsettle] at hordered hwithin ⊢
  refine ⟨⟨?_, ?_, hordered, hwithin, ?_, (hsize _ (Nat.ne_of_lt h.within.above)).trans h.listed.base⟩, hsize⟩
  · rw [addrs, map_append, map_cons, haddr]
    exact leads_append.mpr ⟨hfront, hback⟩
  · rw [addrs, map_append]
    exact mem_append_left _ (last_mem env L)
  · refine forall_mem_append.mpr ⟨fun a ha => ?_, forall_mem_cons.mpr ⟨?_, fun c hc => ?_⟩⟩
    · have hlt := h.lt_addr _ (mem_cons_of_mem _ (mem_map_of_mem ha))
      exact (hsize _ (Nat.ne_of_lt hlt)).trans (hL a ha)
    · rw [haddr]
      exact update_self ..
    · have hlt := h.addr_lt _ (mem_map_of_mem (absorb_subset b R c hc))
      exact (hsize _ (Nat.ne_of_gt hlt)).trans (hR c (absorb_subset b R c hc))

theorem listed_joined (hLa : L = L' ++ [a]) (htouch : a.stop = b.addr)
    (hsettle : settle L b R = L' ++ a.join (absorb b R).1 :: (absorb b R).2) :
    Listed env (s.insert b.addr (env.last L)) (settle L b R) ∧
      ∀ z, z ≠ b.addr → z ≠ a.addr → (s.insert b.addr (env.last L)).size z = s.size z := by
  have hordered := ordered_settle h.listed.ordered h.below h.above
  have hwithin := h.within_settle
  have ha : a ∈ L := hLa ▸ mem_append_right _ (mem_singleton_self a)
  have hlast : env.last L = a.addr := by simp [hLa, Env.last, addrs]
  have hlt : a.addr < b.addr := hlast ▸ h.last_lt
  obtain ⟨hL, hR⟩ := forall_mem_append.mp h.listed.size
  have hsize : ∀ z, z ≠ b.addr → z ≠ a.addr → update (update s.size b.addr (absorb b R).1.size)
      a.addr (a.join (absorb b R).1).size z = s.size z := fun z hz hz' =>
    (update_of_ne hz' ..).trans (update_of_ne hz ..)
  have hbase := (h.listed.within a (mem_append_left _ ha)).above
  have hptr : ∀ z, z ≠ env.last L → z ≠ b.addr → update (update s.ptr b.addr
      (env.next (absorb b R).2)) (env.last L) (env.next (absorb b R).2) z = s.ptr z := fun z hz hz' =>
    (update_of_ne hz ..).trans (update_of_ne hz' ..)
  obtain ⟨hfront, hback⟩ := h.leads hptr (update_self ..)
  rw [h.insert_joined hLa htouch (hwithin _ (hsettle ▸ mem_append_right _ (mem_cons_self ..)))]
  have haddrs : addrs (settle L b R) = addrs L ++ addrs (absorb b R).2 := by
    rw [hsettle, hLa]
    simp [addrs, Block.join]
  refine ⟨⟨?_, ?_, hordered, hwithin, ?_, ?_⟩, hsize⟩
  · rw [haddrs, ← hlast]
    exact leads_split.mpr ⟨hfront, hback⟩
  · rw [haddrs, ← hlast]
    exact mem_append_left _ (last_mem env L)
  · rw [hsettle] at hordered ⊢
    obtain ⟨-, -, hbelow⟩ := pairwise_append.mp hordered
    refine forall_mem_append.mpr ⟨fun x hx => ?_, forall_mem_cons.mpr
      ⟨update_self .., fun c hc => ?_⟩⟩
    · have hx' : x ∈ L := hLa ▸ mem_append_left _ hx
      have hstop := hbelow x hx (a.join (absorb b R).1) (mem_cons_self ..)
      have hlt' : x.addr < a.addr := Nat.lt_of_le_of_lt x.addr_le_stop hstop
      exact (hsize _ (Nat.ne_of_lt (Nat.lt_trans hlt' hlt)) (Nat.ne_of_lt hlt')).trans (hL x hx')
    · have hc' := absorb_subset b R c hc
      have hlt' := h.addr_lt _ (mem_map_of_mem hc')
      exact (hsize _ (Nat.ne_of_gt hlt') (Nat.ne_of_gt (Nat.lt_trans hlt hlt'))).trans (hR c hc')
  · exact (hsize _ (Nat.ne_of_lt h.within.above) (Nat.ne_of_lt hbase)).trans h.listed.base

/-- The list after `free`: only the headers of the block and of one below it change their sizes. -/
theorem listed_insert : Listed env (s.insert b.addr (env.last L)) (settle L b R) ∧
    ∀ z ∉ b.addr :: addrs L, (s.insert b.addr (env.last L)).size z = s.size z := by
  obtain ⟨hsettle, hne⟩ | ⟨L', a, hLa, htouch, hsettle⟩ := settle_cases L b R
  · obtain ⟨hlisted, hsize⟩ := h.listed_apart hne hsettle
    exact ⟨hlisted, fun z hz => hsize z (ne_of_not_mem_cons hz)⟩
  · obtain ⟨hlisted, hsize⟩ := h.listed_joined hLa htouch hsettle
    refine ⟨hlisted, fun z hz => hsize z (ne_of_not_mem_cons hz) fun hza => ?_⟩
    have ha : a ∈ L := hLa ▸ mem_append_right _ (mem_singleton_self a)
    exact hz (mem_cons_of_mem _ (hza ▸ mem_map_of_mem ha))

end Slot

/-- The address is in none of the blocks. -/
def Outside (bs : List Block) (z : Nat) : Prop := ∀ c ∈ bs, z < c.addr ∨ c.stop ≤ z

theorem Outside.addrs (h : Outside bs z) (hpos : ∀ c ∈ bs, c.Within env) :
    z ∉ addrs bs := by
  intro hz
  obtain ⟨c, hc, rfl⟩ := mem_map.mp hz
  have := addr_lt_stop (hpos c hc)
  rcases h c hc with hlt | hle <;> omega

/-- **`free` puts a block back**: the list is made of its units and those of the block, and no header elsewhere
changes its size. -/
theorem free_runs (h : Listed env s free) (hb : b.Within env) (hsize : s.size b.addr = b.size)
    (hdisj : ∀ c ∈ free, b.Disjoint c) :
    ∃ t free', Umalloc.free (plus b.addr 1) s = .ok ((), t) ∧ Listed env t free' ∧
      (units free').Perm (units (b :: free)) ∧ t.calls = s.calls ∧
      (∀ z, Outside (b :: free) z → t.size z = s.size z) ∧ ∃ c ∈ free', b.size ≤ c.size := by
  obtain ⟨L, R, rfl, hbelow, habove⟩ := exists_slot h.ordered hdisj
  have hslot : Slot env s L b R := ⟨h, hb, hsize, hbelow, habove⟩
  obtain ⟨hlisted, hframe⟩ := hslot.listed_insert
  have hheader : header (plus b.addr 1) = b.addr :=
    header_plus (Nat.lt_of_le_of_lt b.addr_le_stop hb.stop)
  refine ⟨s.insert b.addr (env.last L), settle L b R, ?_, hlisted, ?_, s.calls_insert .., fun z hz => ?_,
    exists_size_le L b R⟩
  · refine (bind_of_ok rfl).trans ?_
    rw [hheader]
    exact bind_of_ok hslot.search
  · rw [units_settle]
    exact perm_middle.flatMap_right _
  · refine hframe z fun hmem => ?_
    have hwithin : ∀ c ∈ b :: (L ++ R), c.Within env := forall_mem_cons.mpr ⟨hb, h.within⟩
    refine hz.addrs hwithin ?_
    rw [Umalloc.addrs, map_cons, map_append]
    exact mem_append_left (addrs R) hmem

end Xv6.Umalloc
