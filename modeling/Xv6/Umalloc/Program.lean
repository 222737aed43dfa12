import Mathlib.Data.List.Forall2
import Xv6.Lib.Machine
import Xv6.Umalloc.Integrity

/-! A program on its heap.

The program calls `malloc` with small requests, calls `free` on pointers that it holds, and writes into the blocks
behind them. Every call returns, and leaves the heap as it should be. -/
namespace Xv6.Umalloc
open Lib List

/-- A pointer that `malloc` has returned, and what it was asked for. -/
structure Request where
  ptr : Nat
  nbytes : Nat

structure System where
  heap : State
  /-- The pointers that have not been freed. -/
  live : List Request

inductive Action where
  | malloc (nbytes : Nat)
  | free (ap : Nat)
  /-- Anything is written into the blocks that are live; what the words there would be as headers. -/
  | write (ptr size : Nat → Nat)

def Action.isCall : Action → Bool
  | .malloc _ => true
  | .free _ => true
  | .write .. => false

/-- A request is small enough for no size to wrap; a pointer that is freed is live. -/
def System.allows (sys : System) : Action → Bool
  | .malloc nbytes => nbytes + 16 ≤ 2 ^ 31
  | .free ap => sys.live.any fun r => r.ptr = ap
  | .write .. => true

/-- The address is behind the header of a live block, in the block. -/
def System.inside (sys : System) (z : Nat) : Bool := sys.live.any fun r =>
  header r.ptr < z ∧ z < header r.ptr + sys.heap.size (header r.ptr) * HEADER

def System.act (env : Env) (sys : System) : Action → Except Hangs System
  | .malloc nbytes => do
    let (r, heap) ← malloc env nbytes sys.heap
    pure ⟨heap, if r = 0 then sys.live else ⟨r, nbytes⟩ :: sys.live⟩
  | .free ap => do
    let (_, heap) ← free ap sys.heap
    pure ⟨heap, sys.live.eraseP fun r => r.ptr = ap⟩
  | .write ptr size => pure ⟨{sys.heap with
      ptr := fun z => if sys.inside z then ptr z else sys.heap.ptr z
      size := fun z => if sys.inside z then size z else sys.heap.size z}, sys.live⟩

/-- An allowed action that ends. -/
def step (env : Env) (sys : System) (a : Action) : Option System :=
  if sys.allows a then (sys.act env a).toOption else none

variable {env : Env} {s : State} {sys : System} {b c : Block} {free held : List Block}

/-! ### What is promised -/

/-- The block behind a live pointer. -/
def Serves (r : Request) (b : Block) : Prop := r.ptr = b.addr + HEADER ∧ r.nbytes ≤ (b.size - 1) * HEADER

/-- The heap is as it should be: `free` are the free blocks, `held` are those of the live pointers. -/
structure Integrity (env : Env) (sys : System) (free held : List Block) : Prop where
  /-- The free list is one cycle through `base`, -/
  cycle : Leads sys.heap.ptr env.base (addrs free) env.base
  rover : sys.heap.freep ∈ env.base :: addrs free
  /-- increasing but for the way back to `base`, -/
  increasing : (env.base :: addrs free).Pairwise (· < ·)
  /-- and none of its blocks overlaps or touches another. -/
  apart : free.Pairwise fun b c => b.stop < c.addr
  sizes : ∀ b ∈ free ++ held, 0 < b.size ∧ sys.heap.size b.addr = b.size
  /-- Every live pointer has a block that is large enough. -/
  live : List.Forall₂ Serves sys.live held
  disjoint : held.Pairwise Block.Disjoint
  disjoint_free : ∀ b ∈ held, ∀ c ∈ free, b.Disjoint c
  /-- Every unit from `sbrk` belongs to exactly one block. -/
  units : Tiles (free ++ held) (regions sys.heap.calls)
  nodup : (Umalloc.units (regions sys.heap.calls)).Nodup

theorem Integrity.of_intact (h : Intact env sys.heap free held) (hlive : List.Forall₂ Serves sys.live held) :
    Integrity env sys free held := by
  obtain ⟨-, hheld, hacross⟩ := pairwise_append.mp h.disjoint
  refine ⟨h.listed.circle, h.listed.rover, sorted_addrs h.listed.ordered h.listed.within, h.listed.ordered, ?_, hlive,
    hheld, fun b hb c hc => (hacross c hc b hb).symm, h.tiles, (away_of_above h.above).imp ?_⟩
  · exact forall_mem_append.mpr ⟨fun b hb => ⟨(h.listed.within b hb).pos, h.listed.size b hb⟩,
      fun b hb => ⟨h.pos b hb, h.size b hb⟩⟩
  · intro x y hxy
    simp only [Away, HEADER] at hxy
    omega

/-! ### One action -/

/-- The heap is intact once `malloc` has initialised it. -/
structure Ready (env : Env) (sys : System) (free held : List Block) : Prop where
  intact : Intact env (sys.heap.init env) free held
  live : List.Forall₂ Serves sys.live held

theorem ptr_eq (h : b.Within env) : plus b.addr 1 = b.addr + HEADER := by
  have hstop := h.stop
  have hpos := h.pos
  simp only [Block.stop, HEADER] at hstop
  exact Nat.mod_eq_of_lt (by simp only [HEADER]; omega)

theorem header_ptr (h : b.Within env) : header (b.addr + HEADER) = b.addr := by
  rw [← ptr_eq h]
  exact header_plus (Nat.lt_of_le_of_lt b.addr_le_stop h.stop)

theorem init_of_intact (hfresh : env.Fresh) (h : Intact env s free held) : s.init env = s :=
  if_neg (rover_ne_zero hfresh h)

theorem malloc_integrity (hfresh : env.Fresh) (h : Ready env sys free held)
    (hsmall : nbytes + 16 ≤ 2 ^ 31) : ∃ sys' free' held', sys.act env (.malloc nbytes) = .ok sys' ∧
      Intact env sys'.heap free' held' ∧ List.Forall₂ Serves sys'.live held' := by
  obtain ⟨r, t, hrun, ⟨rfl, free', ht⟩ | ⟨d, free', rfl, hd, ht⟩⟩ := malloc_runs hfresh h.intact hsmall
  · refine ⟨⟨t, sys.live⟩, free', held, ?_, ht, h.live⟩
    simp only [System.act, hrun]
    rfl
  · have hwithin := ht.within_all d (mem_append_right _ (mem_cons_self ..))
    have hptr := ptr_eq hwithin
    have hne : d.addr + HEADER ≠ 0 := Nat.succ_ne_zero _
    have hwrap : nbytes + HEADER ≤ 2 ^ 32 := by
      rw [HEADER]
      omega
    refine ⟨⟨t, ⟨d.addr + HEADER, nbytes⟩ :: sys.live⟩, free', d :: held, ?_, ht, .cons ⟨rfl, ?_⟩ h.live⟩
    · simp only [System.act, hrun, hptr]
      rfl
    · have hlt : nbytes < 2 ^ 32 := by omega
      rw [hd]
      exact (le_nunits_iff hlt).mpr hwrap

theorem exists_served (h : List.Forall₂ Serves live held)
    (hap : live.any fun r => r.ptr = ap) : ∃ b held', held.Perm (b :: held') ∧ ap = b.addr + HEADER ∧
      List.Forall₂ Serves (live.eraseP fun r => r.ptr = ap) held' := by
  induction h with
  | nil => cases hap
  | @cons r b live held hserves h ih =>
    by_cases hr : r.ptr = ap
    · refine ⟨b, held, List.Perm.refl _, hr ▸ hserves.1, ?_⟩
      rw [eraseP_cons_of_pos (by simpa using hr)]
      exact h
    · rw [any_cons, decide_eq_false hr, Bool.false_or] at hap
      obtain ⟨c, held', hperm, hc, hrest⟩ := ih hap
      refine ⟨c, b :: held', (hperm.cons b).trans (List.Perm.swap ..), hc, ?_⟩
      rw [eraseP_cons_of_neg (by simpa using hr)]
      exact .cons hserves hrest

theorem free_integrity (h : Intact env sys.heap free held) (hlive : List.Forall₂ Serves sys.live held)
    (hap : sys.live.any fun r => r.ptr = ap) : ∃ sys' free' held', sys.act env (.free ap) = .ok sys' ∧
      Intact env sys'.heap free' held' ∧ List.Forall₂ Serves sys'.live held' := by
  obtain ⟨b, held', hperm, rfl, hrest⟩ := exists_served hlive hap
  have h' := h.perm hperm.symm
  obtain ⟨t, free', hrun, ht⟩ := free_held h'
  rw [ptr_eq (h'.within_all b (mem_append_right _ (mem_cons_self ..)))] at hrun
  refine ⟨⟨t, sys.live.eraseP fun r => r.ptr = b.addr + HEADER⟩, free', held', ?_, ht, hrest⟩
  simp only [System.act, hrun]
  rfl

/-- No block starts behind the header of one that is held. -/
theorem Intact.addr_outside (h : Intact env s free held) (hb : b ∈ free ++ held) (hc : c ∈ held) :
    b.addr ≤ c.addr ∨ c.stop ≤ b.addr := by
  have hsymm : Std.Symm Block.Disjoint := ⟨fun _ _ hbc => hbc.symm⟩
  by_cases he : b = c
  · exact .inl (Nat.le_of_eq (congrArg Block.addr he))
  · rcases h.disjoint.forall hb (mem_append_right _ hc) he with hle | hle
    · exact .inl (Nat.le_trans b.addr_le_stop hle)
    · exact .inr hle

theorem not_inside (h : Intact env sys.heap free held) (hlive : List.Forall₂ Serves sys.live held)
    (hz : ∀ c ∈ held, z ≤ c.addr ∨ c.stop ≤ z) : sys.inside z = false := by
  rw [System.inside, any_eq_false]
  intro r hr
  obtain ⟨c, hc, hserves⟩ : ∃ c ∈ held, Serves r c := by
    obtain ⟨hlength, hall⟩ := List.forall₂_iff_get.mp hlive
    obtain ⟨i, rfl⟩ := get_of_mem hr
    exact ⟨held.get ⟨i, hlength ▸ i.isLt⟩, get_mem .., hall i i.isLt (hlength ▸ i.isLt)⟩
  have hwithin := h.within_all c (mem_append_right _ hc)
  rw [hserves.1, header_ptr hwithin, h.size c hc, decide_eq_true_eq]
  have := hz c hc
  simp only [Block.stop] at this
  omega

/-- What is written into live blocks does not reach a header. -/
theorem write_integrity (ptr size : Nat → Nat) (h : Intact env sys.heap free held)
    (hlive : List.Forall₂ Serves sys.live held) : ∃ sys', sys.act env (.write ptr size) = .ok sys' ∧
      Intact env sys'.heap free held ∧ sys'.live = sys.live := by
  have hkeep : ∀ b ∈ free ++ held, sys.inside b.addr = false := fun b hb =>
    not_inside h hlive fun c hc => h.addr_outside hb hc
  have hbase : sys.inside env.base = false := not_inside h hlive fun c hc =>
    .inl (Nat.le_of_lt (h.within_all c (mem_append_right _ hc)).above)
  obtain ⟨hfree, hheld⟩ := forall_mem_append.mp hkeep
  refine ⟨_, rfl, ⟨⟨?_, h.listed.rover, h.listed.ordered, h.listed.within, fun b hb => ?_, ?_⟩, fun b hb => ?_, h.pos,
    h.tiles, h.above, h.within⟩, rfl⟩
  · refine h.listed.circle.relay (if_neg (by rw [hbase]; decide)) fun z hz => if_neg ?_
    obtain ⟨b, hb, rfl⟩ := mem_map.mp hz
    rw [hfree b hb]
    decide
  · exact (if_neg (by rw [hfree b hb]; decide)).trans (h.listed.size b hb)
  · exact (if_neg (by rw [hbase]; decide)).trans h.listed.base
  · exact (if_neg (by rw [hheld b hb]; decide)).trans (h.size b hb)

/-! ### Every run -/

/-- Before the first call, or after it. -/
def Good (env : Env) (sys : System) : Prop :=
  sys.heap.freep = 0 ∧ sys.heap.calls = [] ∧ sys.live = [] ∨
    ∃ free held, Intact env sys.heap free held ∧ List.Forall₂ Serves sys.live held

/-- Every action that is allowed ends, and a call leaves the heap as it should be. -/
theorem act_good (hfresh : env.Fresh) (h : Good env sys) (ha : sys.allows a) :
    ∃ sys', sys.act env a = .ok sys' ∧ Good env sys' ∧ (a.isCall → ∃ free held, Integrity env sys' free held) := by
  have hready : ∃ free held, Ready env sys free held := by
    obtain ⟨hfreep, hcalls, hlive⟩ | ⟨free, held, hintact, hlive⟩ := h
    · exact ⟨[], [], intact_init hfreep hcalls, hlive ▸ .nil⟩
    · exact ⟨free, held, (init_of_intact hfresh hintact).symm ▸ hintact, hlive⟩
  have hdone : ∀ {sys' : System} {free held : List Block}, Intact env sys'.heap free held →
      List.Forall₂ Serves sys'.live held →
      Good env sys' ∧ (a.isCall → ∃ free held, Integrity env sys' free held) := fun hintact hlive =>
    ⟨.inr ⟨_, _, hintact, hlive⟩, fun _ => ⟨_, _, .of_intact hintact hlive⟩⟩
  cases a with
  | malloc nbytes =>
    obtain ⟨free, held, hready⟩ := hready
    obtain ⟨sys', free', held', hact, hintact, hlive⟩ := malloc_integrity hfresh hready (of_decide_eq_true ha)
    exact ⟨sys', hact, hdone hintact hlive⟩
  | free ap =>
    obtain ⟨-, -, hlive⟩ | ⟨free, held, hintact, hlive⟩ := h
    · rw [System.allows, hlive] at ha
      cases ha
    · obtain ⟨sys', free', held', hact, hintact, hlive⟩ := free_integrity hintact hlive ha
      exact ⟨sys', hact, hdone hintact hlive⟩
  | write ptr size =>
    obtain ⟨hfreep, hcalls, hlive⟩ | ⟨free, held, hintact, hlive⟩ := h
    · exact ⟨_, rfl, .inl ⟨hfreep, hcalls, hlive⟩, fun hc => by cases hc⟩
    · obtain ⟨sys', hact, hintact, hlive'⟩ := write_integrity ptr size hintact hlive
      exact ⟨sys', hact, hdone hintact (hlive'.symm ▸ hlive)⟩

theorem step_eq (ha : sys.allows a) (hact : sys.act env a = .ok sys') :
    step env sys a = some sys' := by
  rw [step, if_pos ha, hact]
  rfl

theorem run_good (hfresh : env.Fresh) (h : Good env sys)
    (hrun : run (step env) sys acts = some sys') : Good env sys' := by
  refine run_invariant (I := fun _ sys => Good env sys) h (fun _ sys a sys' hsys hstep => ?_) hrun
  by_cases ha : sys.allows a
  · obtain ⟨sys₂, hact, hgood, -⟩ := act_good hfresh hsys ha
    rw [step_eq ha hact] at hstep
    exact Option.some.inj hstep ▸ hgood
  · rw [step, if_neg ha] at hstep
    cases hstep

/-- **Every call returns, and leaves the heap as it should be**, whatever the program has done before. -/
theorem heap_integrity (hfresh : env.Fresh) (hfreep : s.freep = 0) (hcalls : s.calls = []) {acts : List Action}
    (hrun : run (step env) ⟨s, []⟩ acts = some sys) {a : Action} (ha : sys.allows a) :
    ∃ sys', sys.act env a = .ok sys' ∧ (a.isCall → ∃ free held, Integrity env sys' free held) := by
  obtain ⟨sys', hact, -, hcall⟩ := act_good hfresh (run_good hfresh (.inl ⟨hfreep, hcalls, rfl⟩) hrun) ha
  exact ⟨sys', hact, hcall⟩

/-- Memory is given once. -/
def once : Env := ⟨8, fun calls n => if calls.isEmpty ∧ n < 2 ^ 31 then some 16 else none⟩

theorem fresh_once : once.Fresh := by
  refine ⟨by decide, fun calls n a hn h => ?_⟩
  rw [once] at h
  dsimp only at h
  split at h
  · rename_i hc
    obtain rfl := Option.some.inj h
    rw [List.isEmpty_iff.mp hc.1]
    refine ⟨by decide, by simp [regions], ?_⟩
    omega
  · cases h

/-- Two requests, one after the other. -/
theorem heap_integrity_once : ∃ sys, run (step once) ⟨fresh, []⟩ [.malloc 100, .malloc 200] = some sys ∧
    ∃ free held, Integrity once sys free held := by
  have hstart : run (step once) ⟨fresh, []⟩ [] = some ⟨fresh, []⟩ := rfl
  have hallows : ∀ sys : System, sys.allows (.malloc 100) ∧ sys.allows (.malloc 200) := fun _ => ⟨rfl, rfl⟩
  obtain ⟨sys₁, hact₁, -⟩ := heap_integrity fresh_once rfl rfl hstart (hallows _).1
  have hstep₁ := step_eq (hallows _).1 hact₁
  obtain ⟨sys₂, hact₂, hheap⟩ := heap_integrity fresh_once rfl rfl (run_singleton.mpr hstep₁) (hallows _).2
  exact ⟨sys₂, run_cons.mpr ⟨sys₁, hstep₁, run_singleton.mpr (step_eq (hallows _).2 hact₂)⟩, hheap rfl⟩

end Xv6.Umalloc
