import Xv6.Lib.Machine
import Xv6.Umalloc.Allocate

/-! The heap of a program that calls `malloc` and `free`.

The units that `sbrk` has given are those of the free blocks and of the blocks that the program holds, each in one of
them. The program may call `malloc` with small requests, free what it holds, and write into it. -/
namespace Xv6.Umalloc
open Lib Function List

/-- The memory that `sbrk` has given, the last first. -/
def regions (calls : List Call) : List Block := calls.filterMap fun c => c.answer.map fun a => ⟨a, c.units⟩

theorem regions_some (h : c.answer = some a) (calls : List Call) :
    regions (c :: calls) = ⟨a, c.units⟩ :: regions calls := by
  simp [regions, h]

theorem regions_none (h : c.answer = none) (calls : List Call) : regions (c :: calls) = regions calls := by
  simp [regions, h]

/-- `sbrk` fails, or returns a new region above all earlier ones, which are above `base`. -/
structure Env.Fresh (env : Env) : Prop where
  base : 0 < env.base
  region : ∀ calls n a, 0 < n → env.sbrk calls n = some a →
    env.base + HEADER ≤ a ∧ (∀ b ∈ regions calls, b.stop ≤ a) ∧ (a : Int) + n < 2 ^ 32

variable {env : Env} {s t : State} {n : Nat} {b c d : Block} {free held : List Block}

/-! ### The invariant -/

structure Intact (env : Env) (s : State) (free held : List Block) : Prop where
  listed : Listed env s free
  size : ∀ b ∈ held, s.size b.addr = b.size
  pos : ∀ b ∈ held, 0 < b.size
  tiles : Tiles (free ++ held) (regions s.calls)
  above : (regions s.calls).Pairwise fun b c => c.stop ≤ b.addr
  within : ∀ c ∈ regions s.calls, c.Within env

namespace Intact

variable (h : Intact env s free held)
include h

theorem within_all : ∀ b ∈ free ++ held, b.Within env :=
  within_of_tiles h.tiles h.within
    (forall_mem_append.mpr ⟨fun b hb => (h.listed.within b hb).pos, h.pos⟩)

theorem disjoint : (free ++ held).Pairwise Block.Disjoint :=
  disjoint_of_away (h.tiles.away (away_of_above h.above)) fun b hb => (h.within_all b hb).pos

/-- A block that is held is outside of the list. -/
theorem outside (hb : b ∈ held) : Outside free b.addr := by
  intro c hc
  have hlt := addr_lt_stop (h.within_all b (mem_append_right _ hb))
  rcases (pairwise_append.mp h.disjoint).2.2 c hc b hb with hle | hle
  · exact .inr hle
  · exact .inl (Nat.lt_of_lt_of_le hlt hle)

end Intact

theorem Intact.perm (h : Intact env s free held) (hp : held'.Perm held) : Intact env s free held' :=
  ⟨h.listed, fun b hb => h.size b (hp.mem_iff.mp hb), fun b hb => h.pos b (hp.mem_iff.mp hb),
    h.tiles.perm (hp.append_left free), h.above, h.within⟩

/-- The list is empty before the first call. -/
theorem intact_init (hfreep : s.freep = 0) (hcalls : s.calls = []) : Intact env (s.init env) [] [] := by
  have hinit : s.init env = ({s.setPtr env.base env.base with freep := env.base} : State).setSize env.base 0 :=
    if_pos hfreep
  have hregions : regions (s.init env).calls = [] := by
    rw [hinit]
    show regions s.calls = []
    rw [hcalls]
    rfl
  refine ⟨⟨?_, ?_, List.Pairwise.nil, by simp, by simp, ?_⟩, by simp, by simp, ?_, ?_, ?_⟩
  · rw [hinit]
    exact update_self ..
  · rw [hinit]
    exact mem_cons_self ..
  · rw [hinit]
    exact update_self ..
  · rw [hregions]
    exact List.Perm.refl _
  · rw [hregions]
    exact List.Pairwise.nil
  · rw [hregions]
    simp

theorem Intact.take (h : Intact env s free held) (ht : Taken env s t free d free')
    (hpos : 0 < d.size) : Intact env t free' (d :: held) := by
  have htiles : Tiles (free' ++ d :: held) (regions t.calls) := by
    have hperm : (free' ++ d :: held).Perm ((d :: free') ++ held) := perm_middle
    rw [ht.calls]
    refine ((hperm.flatMap_right _).trans ?_).trans h.tiles
    show (units ((d :: free') ++ held)).Perm (units (free ++ held))
    rw [units_append, units_append]
    exact ht.units.append_right _
  refine ⟨ht.listed, ?_, forall_mem_cons.mpr ⟨hpos, h.pos⟩, htiles, ?_, ?_⟩
  · exact forall_mem_cons.mpr ⟨ht.size, fun b hb => (ht.frame _ (h.outside hb)).trans (h.size b hb)⟩
  · rw [ht.calls]
    exact h.above
  · rw [ht.calls]
    exact h.within

/-! ### `free` -/

theorem free_held (h : Intact env s free (b :: held)) :
    ∃ t free', Umalloc.free (plus b.addr 1) s = .ok ((), t) ∧ Intact env t free' held := by
  have hb := h.within_all b (mem_append_right _ (mem_cons_self ..))
  obtain ⟨-, hheld, hdisj⟩ := pairwise_append.mp h.disjoint
  obtain ⟨t, free', hrun, hlisted, hunits, hcalls, hframe, -⟩ := free_runs h.listed hb
    (h.size b (mem_cons_self ..)) fun c hc => (hdisj c hc b (mem_cons_self ..)).symm
  refine ⟨t, free', hrun, hlisted, fun c hc => ?_, fun c hc => h.pos c (mem_cons_of_mem _ hc), ?_, ?_, ?_⟩
  · have hc' : c ∈ b :: held := mem_cons_of_mem _ hc
    refine (hframe c.addr (forall_mem_cons.mpr ⟨?_, h.outside hc'⟩)).trans (h.size c hc')
    have hlt := addr_lt_stop (h.within_all c (mem_append_right _ hc'))
    rcases (pairwise_cons.mp hheld).1 c hc with hle | hle
    · exact .inr hle
    · exact .inl (Nat.lt_of_lt_of_le hlt hle)
  · rw [hcalls]
    refine List.Perm.trans ?_ h.tiles
    have hperm : ((b :: free) ++ held).Perm (free ++ b :: held) := perm_middle.symm
    refine List.Perm.trans ?_ (hperm.flatMap_right _)
    show (units (free' ++ held)).Perm (units ((b :: free) ++ held))
    rw [units_append, units_append]
    exact hunits.append_right _
  · rw [hcalls]
    exact h.above
  · rw [hcalls]
    exact h.within

/-! ### `malloc` -/

/-- `morecore` puts the new region into the list. -/
theorem morecore_some (hfresh : env.Fresh) (h : Intact env s free held)
    (hright : (env.call s (recorded n)).Right) (hanswer : (env.call s (recorded n)).answer = some hp) :
    ∃ t free', morecore env n s = .ok (t.freep, t) ∧ Intact env t free' held ∧ ∃ c ∈ free', n ≤ c.size := by
  obtain ⟨hbase, htop, hstop⟩ := hfresh.region _ _ hp hright.1 hanswer
  have hregion : Block.Within env ⟨hp, recorded n⟩ := by
    obtain ⟨hpos, hamount⟩ := hright
    rw [hamount] at hpos hstop
    refine ⟨Nat.lt_of_lt_of_le (Nat.lt_add_of_pos_right (by decide)) hbase, ?_, ?_⟩
    · simp only [Env.call, HEADER] at hpos ⊢
      omega
    · simp only [Block.stop, HEADER, Env.call] at hstop ⊢
      omega
  have hbelow : ∀ b ∈ free ++ held, b.stop ≤ hp := fun b hb =>
    (h.tiles.bounds (fun c hc => ⟨Nat.zero_le _, htop c hc⟩) hb (h.within_all b hb).pos).2
  have hne : ∀ b ∈ free ++ held, b.addr ≠ hp := fun b hb =>
    Nat.ne_of_lt (Nat.lt_of_lt_of_le (addr_lt_stop (h.within_all b hb)) (hbelow b hb))
  have hsize : ∀ z ≠ hp, update s.size hp (recorded n) z = s.size z := fun z hz =>
    update_of_ne hz ..
  obtain ⟨hbelow_free, hbelow_held⟩ := forall_mem_append.mp hbelow
  obtain ⟨hne_free, hne_held⟩ := forall_mem_append.mp hne
  -- The free list once the size of the new block is recorded.
  have hlisted : Listed env ({s with calls := env.call s (recorded n) :: s.calls}.setSize hp (recorded n)) free :=
    ⟨h.listed.circle, h.listed.rover, h.listed.ordered, h.listed.within,
      fun b hb => (hsize _ (hne_free b hb)).trans (h.listed.size b hb),
      (hsize _ (Nat.ne_of_lt hregion.above)).trans h.listed.base⟩
  obtain ⟨t, free', hrun, hlisted', hunits, hcalls, hframe, c, hc, hle⟩ := free_runs hlisted hregion
    (update_self ..) fun b hb => .inr (hbelow_free b hb)
  have hregions : regions t.calls = ⟨hp, recorded n⟩ :: regions s.calls := by
    rw [hcalls]
    exact regions_some hanswer s.calls
  have hn : n ≤ recorded n := by
    unfold recorded
    split <;> omega
  refine ⟨t, free', ?_, ⟨hlisted', fun b hb => ?_, h.pos, ?_, ?_, ?_⟩, c, hc, Nat.le_trans hn hle⟩
  · refine (bind_of_ok rfl).trans ((bind_of_ok rfl).trans ?_)
    rw [hanswer]
    exact (bind_of_ok rfl).trans ((bind_of_ok hrun).trans rfl)
  · have houtside : Outside (⟨hp, recorded n⟩ :: free) b.addr := by
      refine forall_mem_cons.mpr ⟨.inl ?_, h.outside hb⟩
      exact Nat.lt_of_lt_of_le (addr_lt_stop (h.within_all b (mem_append_right _ hb))) (hbelow_held b hb)
    exact (hframe _ houtside).trans ((hsize _ (hne_held b hb)).trans (h.size b hb))
  · rw [hregions, Tiles, units_append, units_cons]
    refine (hunits.append_right _).trans ?_
    rw [units_cons, append_assoc, ← units_append]
    exact h.tiles.append_left _
  · rw [hregions]
    exact pairwise_cons.mpr ⟨fun c hc => htop c hc, h.above⟩
  · rw [hregions]
    exact forall_mem_cons.mpr ⟨hregion, h.within⟩

/-- `morecore` gets no memory, or a block that is large enough. -/
theorem morecore_runs (hfresh : env.Fresh) (h : Intact env s free held) (hright : (env.call s (recorded n)).Right) :
    (∃ t, morecore env n s = .ok (0, t) ∧ Intact env t free held) ∨
      ∃ t free', morecore env n s = .ok (t.freep, t) ∧ Intact env t free' held ∧ ∃ c ∈ free', n ≤ c.size := by
  cases hanswer : (env.call s (recorded n)).answer with
  | none =>
    have hregions := regions_none hanswer s.calls
    refine .inl ⟨{s with calls := env.call s (recorded n) :: s.calls}, ?_, ⟨h.listed.circle, h.listed.rover,
      h.listed.ordered, h.listed.within, h.listed.size, h.listed.base⟩, h.size, h.pos, ?_, ?_, ?_⟩
    · refine (bind_of_ok rfl).trans ((bind_of_ok rfl).trans ?_)
      rw [hanswer]
      rfl
    · exact hregions ▸ h.tiles
    · exact hregions ▸ h.above
    · exact hregions ▸ h.within
  | some hp => exact .inr (morecore_some hfresh h hright hanswer)

/-- What `malloc` leaves: nothing is served, or a block of `n` units is held. -/
def Served (env : Env) (n : Nat) (held : List Block) (r : Nat) (t : State) : Prop :=
  (r = 0 ∧ ∃ free, Intact env t free held) ∨ ∃ d free, r = plus d.addr 1 ∧ d.size = n ∧ Intact env t free (d :: held)

theorem rover_ne_zero (hfresh : env.Fresh) (h : Intact env s free held) : s.freep ≠ 0 := by
  rcases mem_cons.mp h.listed.rover with he | hmem
  · rw [he]
    exact Nat.ne_of_gt hfresh.base
  · obtain ⟨b, hb, he⟩ := mem_map.mp hmem
    have := (h.listed.within b hb).above
    omega

/-- **The loop of `malloc` ends**, after at most two rounds. -/
theorem malloc_loop_runs (hfresh : env.Fresh) (h : Intact env s free held) (hpos : 0 < n)
    (hright : (env.call s (recorded n)).Right) :
    ∃ r t, malloc_loop env n LOOP s.freep (s.ptr s.freep) s = .ok (r, t) ∧ Served env n held r t := by
  have hserved : ∀ {s t : State} {free free' : List Block} {d : Block}, Intact env s free held →
      Taken env s t free d free' → d.size = n → Served env n held (plus d.addr 1) t :=
    fun h ht hd => .inr ⟨_, _, rfl, hd, h.take ht (hd ▸ hpos)⟩
  obtain ⟨k, hk, hround⟩ : ∃ k, LOOP = k + (free.length + 1) ∧ 2 ^ 29 < k := by
    have := length_free_lt h.listed.ordered h.listed.within
    refine ⟨2 ^ 32 - (free.length + 1), ?_, by omega⟩
    unfold LOOP
    omega
  rw [hk]
  obtain ⟨t, d, free', hloop, hd, htaken⟩ | ⟨-, hloop⟩ := malloc_loop_pass h.listed hpos k
  · exact ⟨_, t, hloop, hserved h htaken hd⟩
  rw [hloop]
  obtain ⟨t, hmore, ht⟩ | ⟨t, free', hmore, ht, c, hc, hle⟩ := morecore_runs hfresh h hright
  · exact ⟨0, t, bind_of_ok hmore, .inl ⟨rfl, free, ht⟩⟩
  obtain ⟨k', rfl⟩ : ∃ k', k = k' + (free'.length + 1) := by
    have := length_free_lt ht.listed.ordered ht.listed.within
    exact ⟨k - (free'.length + 1), by omega⟩
  rw [bind_of_ok hmore, if_neg (rover_ne_zero hfresh ht)]
  obtain ⟨u, d, free'', hloop', hd, htaken⟩ | ⟨hsmall, -⟩ := malloc_loop_pass ht.listed hpos k'
  · exact ⟨_, u, (bind_of_ok rfl).trans hloop', hserved ht htaken hd⟩
  · exact absurd hle (Nat.not_le.mpr (hsmall c hc))

/-- **`malloc` returns**, and keeps the heap intact. -/
theorem malloc_runs (hfresh : env.Fresh) (h : Intact env (s.init env) free held)
    (hsmall : nbytes + 16 ≤ 2 ^ 31) :
    ∃ r t, malloc env nbytes s = .ok (r, t) ∧ Served env (nunits nbytes) held r t := by
  have hwrap : nbytes + HEADER ≤ 2 ^ 32 := by
    rw [HEADER]
    omega
  rw [malloc_eq]
  exact malloc_loop_runs hfresh h (nunits_le nbytes).1 ((call_right_iff hwrap _).mpr hsmall)

end Xv6.Umalloc
