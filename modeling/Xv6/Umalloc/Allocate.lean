import Xv6.Umalloc.FreeList

/-! What `malloc` does to the free list.

The loop goes once around the circle. It stops at the first block that is large enough and takes it, or its end, out
of the list; when there is none, it has come back to where it started, and asks for more memory. -/
namespace Xv6.Umalloc
open Lib Function List

variable {env : Env} {s t : State} {n : Nat} {c d : Block} {free free' L R : List Block}

/-! ### Taking a block -/

/-- `d` has been taken out of the list. -/
structure Taken (env : Env) (s t : State) (free : List Block) (d : Block) (free' : List Block) : Prop where
  listed : Listed env t free'
  size : t.size d.addr = d.size
  units : (units (d :: free')).Perm (units free)
  frame : ∀ z, Outside free z → t.size z = s.size z
  calls : t.calls = s.calls

theorem take_exact (h : Listed env s (L ++ c :: R)) :
    s.take c.size (env.last L) c.addr = (c.addr, {s.setPtr (env.last L) (s.ptr c.addr) with freep := env.last L}) ∧
      Taken env s {s.setPtr (env.last L) (s.ptr c.addr) with freep := env.last L} (L ++ c :: R) c (L ++ R) := by
  have hsize := h.size c (mem_append_right _ (mem_cons_self ..))
  have hsorted := sorted_addrs h.ordered h.within
  have hcircle := h.circle
  have hsub : (L ++ R).Sublist (L ++ c :: R) := (sublist_cons_self ..).append_left L
  rw [addrs, map_append, map_cons] at hcircle hsorted
  obtain ⟨-, hback⟩ := leads_append.mp hcircle
  rw [← cons_append] at hsorted
  obtain ⟨hsorted₁, hsorted₂, hacross⟩ := pairwise_append.mp hsorted
  have hlast := last_mem env L
  have hptr : ∀ z, z ≠ env.last L → update s.ptr (env.last L) (s.ptr c.addr) z = s.ptr z := fun z hz =>
    update_of_ne hz ..
  have hfront := hcircle.front (hsorted₁.imp Nat.ne_of_lt) fun z _ hz => hptr z hz
  refine ⟨if_pos hsize, ⟨?_, ?_, h.ordered.sublist hsub, fun b hb => h.within b (hsub.subset hb),
    fun b hb => h.size b (hsub.subset hb), h.base⟩, hsize, ?_, fun _ _ => rfl, rfl⟩
  · rw [addrs, map_append]
    refine leads_split.mpr ⟨hfront, hback.relay (update_self ..) fun z hz => hptr z (Nat.ne_of_gt ?_)⟩
    exact hacross _ hlast z (mem_cons_of_mem _ hz)
  · rw [addrs, map_append]
    exact mem_append_left _ hlast
  · exact (perm_middle.symm).flatMap_right _

/-- The end of a larger block. -/
def Block.tail (c : Block) (n : Nat) : Block := ⟨c.addr + (c.size - n) * HEADER, n⟩

/-- What is left of it. -/
def Block.rest (c : Block) (n : Nat) : Block := ⟨c.addr, c.size - n⟩

theorem units_rest (h : n ≤ c.size) : (c.rest n).units ++ (c.tail n).units = c.units := by
  have hjoin : (c.rest n).join (c.tail n) = c := by
    simp only [Block.join, Block.rest, Block.tail, Nat.sub_add_cancel h]
  rw [← Block.units_join rfl, hjoin]

theorem units_split (h : n ≤ c.size) : (units (c.tail n :: (L ++ c.rest n :: R))).Perm (units (L ++ c :: R)) := by
  have hmiddle : (c.tail n :: (L ++ c.rest n :: R)).Perm (L ++ c.rest n :: c.tail n :: R) :=
    (perm_middle.symm.trans ((List.Perm.swap ..).append_left L))
  refine (hmiddle.flatMap_right _).trans (List.Perm.of_eq ?_)
  show units (L ++ c.rest n :: c.tail n :: R) = units (L ++ c :: R)
  rw [units_append, units_append, units_cons, units_cons, ← append_assoc (c.rest n).units, units_rest h,
    units_cons]

theorem ordered_rest (h : Ordered (L ++ c :: R)) : Ordered (L ++ c.rest n :: R) := by
  obtain ⟨hL, hcR, hacross⟩ := pairwise_append.mp h
  obtain ⟨hc, hR⟩ := pairwise_cons.mp hcR
  have hstop : (c.rest n).stop ≤ c.stop := by
    simp only [Block.stop, Block.rest, HEADER]
    omega
  refine pairwise_append.mpr ⟨hL, pairwise_cons.mpr ⟨fun b hb => ?_, hR⟩, fun a ha b hb => ?_⟩
  · exact Nat.lt_of_le_of_lt hstop (hc b hb)
  · rcases mem_cons.mp hb with rfl | hb
    · exact hacross a ha c (mem_cons_self ..)
    · exact hacross a ha b (mem_cons_of_mem _ hb)

theorem take_tail (h : Listed env s (L ++ c :: R)) (hn : n < c.size) (hpos : 0 < n) :
    s.take n (env.last L) c.addr = ((c.tail n).addr,
      {(s.setSize c.addr (c.size - n)).setSize (c.tail n).addr n with freep := env.last L}) ∧
      Taken env s {(s.setSize c.addr (c.size - n)).setSize (c.tail n).addr n with freep := env.last L} (L ++ c :: R)
        (c.tail n) (L ++ c.rest n :: R) := by
  have hc : c ∈ L ++ c :: R := mem_append_right _ (mem_cons_self ..)
  have hunits : (units (c.tail n :: (L ++ c.rest n :: R))).Perm (units (L ++ c :: R)) := units_split (Nat.le_of_lt hn)
  obtain ⟨hwithinL, hwithinR⟩ := forall_mem_append.mp h.within
  obtain ⟨hwithin, hwithinR⟩ := forall_mem_cons.mp hwithinR
  have hparts := within_of_tiles hunits h.within (forall_mem_cons.mpr ⟨hpos, forall_mem_append.mpr
    ⟨fun b hb => (hwithinL b hb).pos, forall_mem_cons.mpr
      ⟨Nat.sub_pos_of_lt hn, fun b hb => (hwithinR b hb).pos⟩⟩⟩)
  obtain ⟨htail, hrest⟩ := forall_mem_cons.mp hparts
  have haddrs : addrs (L ++ c.rest n :: R) = addrs (L ++ c :: R) := by simp [addrs, Block.rest]
  have hlt : c.addr < (c.tail n).addr := addr_lt_stop (hrest (c.rest n)
      (mem_append_right _ (mem_cons_self ..)))
  have hstop : (c.tail n).stop = c.stop := by
    simp only [Block.stop, Block.tail, HEADER]
    omega
  have hplus : plus c.addr (c.size - n) = (c.tail n).addr :=
    Nat.mod_eq_of_lt (Nat.lt_of_le_of_lt (c.tail n).addr_le_stop htail.stop)
  have hframe : ∀ z, z < c.addr ∨ c.stop ≤ z →
      update (update s.size c.addr (c.size - n)) (c.tail n).addr n z = s.size z := by
    intro z hz
    have := addr_lt_stop htail
    rw [update_of_ne (by omega), update_of_ne (by omega)]
  obtain ⟨-, hcR, hacross⟩ := pairwise_append.mp h.ordered
  obtain ⟨hsizeL, hsizeR⟩ := forall_mem_append.mp h.size
  obtain ⟨hsize, hsizeR⟩ := forall_mem_cons.mp hsizeR
  refine ⟨?_, ⟨?_, ?_, ordered_rest h.ordered, hrest, ?_, ?_⟩, update_self .., hunits, ?_, rfl⟩
  · unfold State.take
    rw [if_neg (by omega)]
    simp only [State.size_setSize, update_self, hsize, hplus]
  · rw [haddrs]
    exact h.circle
  · rw [haddrs, addrs, map_append]
    exact mem_append_left _ (last_mem env L)
  · refine forall_mem_append.mpr ⟨fun b hb => ?_, forall_mem_cons.mpr ⟨?_, fun b hb => ?_⟩⟩
    · have hb' := hacross b hb c (mem_cons_self ..)
      exact (hframe _ (.inl (Nat.lt_of_le_of_lt b.addr_le_stop hb'))).trans (hsizeL b hb)
    · exact (update_of_ne (Nat.ne_of_lt hlt) ..).trans (update_self ..)
    · exact (hframe _ (.inr (Nat.le_of_lt ((pairwise_cons.mp hcR).1 b hb)))).trans (hsizeR b hb)
  · have hbase := hwithin.above
    exact (hframe _ (.inl hbase)).trans h.base
  · exact fun z hz => hframe z (hz c hc)

/-- **A block that is large enough is taken**, or its end. -/
theorem take_runs (h : Listed env s free) (hc : c ∈ free) (hpos : 0 < n) (hn : n ≤ c.size)
    (hp : p ∈ env.base :: addrs free) (hptr : s.ptr p = c.addr) :
    ∃ t d free', s.take n p c.addr = (d.addr, t) ∧ d.size = n ∧ Taken env s t free d free' := by
  obtain ⟨L, R, rfl⟩ := append_of_mem hc
  have hlast : env.last L ∈ env.base :: addrs (L ++ c :: R) := by
    rw [addrs, map_append]
    exact mem_append_left _ (last_mem env L)
  have hcircle := h.circle
  rw [addrs, map_append, map_cons] at hcircle
  obtain rfl : p = env.last L := h.circle.inj h.nodup hp hlast (hptr.trans (leads_append.mp hcircle).1.last.symm)
  rcases Nat.lt_or_eq_of_le hn with hn | rfl
  · obtain ⟨htake, htaken⟩ := take_tail h hn hpos
    exact ⟨_, _, _, htake, rfl, htaken⟩
  · obtain ⟨htake, htaken⟩ := take_exact h
    exact ⟨_, _, _, htake, rfl, htaken⟩

/-! ### The loop -/

theorem malloc_loop_walk (h : Leads s.ptr x l y)
    (hskip : ∀ z ∈ l, s.size z < n ∧ z ≠ s.freep) (fuel : Nat) :
    malloc_loop env n (fuel + l.length) x (s.ptr x) s = malloc_loop env n fuel (l.getLastD x) y s := by
  induction l generalizing x with
  | nil =>
    have hy : s.ptr x = y := h
    rw [hy]
    rfl
  | cons a l ih =>
    obtain ⟨⟨hsize, hne⟩, hskip⟩ := forall_mem_cons.mp hskip
    rw [getLastD_cons, h.1, ← ih h.2 hskip]
    refine (bind_of_ok rfl).trans ?_
    rw [if_neg (Nat.not_le.mpr hsize), if_neg hne]
    rfl

/-- The first node that is large enough is taken, after the nodes `l`. -/
theorem malloc_loop_found (h : Listed env s free) (hpos : 0 < n)
    (hleads : Leads s.ptr s.freep l z) (hl : ∀ y ∈ l, y ∈ env.base :: addrs free)
    (hskip : ∀ y ∈ l, s.size y < n ∧ y ≠ s.freep) (hz : z ∈ env.base :: addrs free) (hn : n ≤ s.size z) (fuel : Nat) :
    ∃ t d free', malloc_loop env n (fuel + 1 + l.length) s.freep (s.ptr s.freep) s = .ok (plus d.addr 1, t) ∧
      d.size = n ∧ Taken env s t free d free' := by
  have hz' : z ≠ env.base := fun he => absurd (he ▸ hn) (by rw [h.base]; omega)
  obtain ⟨c, hc, rfl⟩ := mem_map.mp ((mem_cons.mp hz).resolve_left hz')
  have hlast : l.getLastD s.freep ∈ env.base :: addrs free := by
    rcases mem_cons.mp (getLastD_mem_cons (l := l) (a := s.freep)) with he | hmem
    · rw [he]
      exact h.rover
    · exact hl _ hmem
  obtain ⟨t, d, free', htake, hd, htaken⟩ := take_runs h hc hpos (h.size c hc ▸ hn) hlast hleads.last
  refine ⟨t, d, free', ?_, hd, htaken⟩
  rw [malloc_loop_walk hleads hskip, malloc_loop_take hn, htake]

/-- **Once around the circle**: a block is taken, or none is large enough and there is a call of `morecore`. -/
theorem malloc_loop_pass (h : Listed env s free) (hpos : 0 < n) (fuel : Nat) :
    (∃ t d free', malloc_loop env n (fuel + (free.length + 1)) s.freep (s.ptr s.freep) s = .ok (plus d.addr 1, t) ∧
      d.size = n ∧ Taken env s t free d free') ∨
    (∀ c ∈ free, c.size < n) ∧ malloc_loop env n (fuel + (free.length + 1)) s.freep (s.ptr s.freep) s =
      (do
        let p ← morecore env n
        if p = 0 then pure 0
        else do
          let s ← get
          malloc_loop env n fuel p (s.ptr p)) s := by
  obtain ⟨l, hl, hperm⟩ := h.circle.rotate h.rover
  have hnodup := hperm.nodup_iff.mpr h.nodup
  have hmem : ∀ z ∈ l, z ∈ env.base :: addrs free := fun z hz => hperm.mem_iff.mp (mem_cons_of_mem _ hz)
  have hne : ∀ z ∈ l, z ≠ s.freep := fun z hz he => (nodup_cons.mp hnodup).1 (he ▸ hz)
  have hlength : l.length = free.length := by
    have hlength := hperm.length_eq
    simp only [length_cons, addrs, length_map] at hlength
    omega
  cases hfind : l.find? fun z => decide (n ≤ s.size z) with
  | some z =>
    obtain ⟨hz, l₁, l₂, rfl, hl₁⟩ := List.find?_eq_some_iff_append.mp hfind
    have hsub : ∀ y ∈ l₁, y ∈ l₁ ++ z :: l₂ := fun y hy => mem_append_left _ hy
    have hsmall : ∀ y ∈ l₁, s.size y < n := fun y hy => by simpa using hl₁ y hy
    have hfuel : fuel + (free.length + 1) = fuel + l₂.length + 1 + 1 + l₁.length := by
      rw [length_append, length_cons] at hlength
      omega
    rw [hfuel]
    exact .inl (malloc_loop_found h hpos (leads_append.mp hl).1 (fun y hy => hmem y (hsub y hy))
      (fun y hy => ⟨hsmall y hy, hne y (hsub y hy)⟩) (hmem z (mem_append_right _ (mem_cons_self ..)))
      (of_decide_eq_true hz) _)
  | none =>
    have hsmall : ∀ z ∈ l, s.size z < n := fun z hz => by simpa using List.find?_eq_none.mp hfind z hz
    have hskip : ∀ z ∈ l, s.size z < n ∧ z ≠ s.freep := fun z hz => ⟨hsmall z hz, hne z hz⟩
    have hfuel : fuel + (free.length + 1) = fuel + 1 + l.length := by omega
    rw [hfuel]
    by_cases hn : n ≤ s.size s.freep
    · exact .inl (malloc_loop_found h hpos hl hmem hskip h.rover hn _)
    refine .inr ⟨fun c hc => ?_, ?_⟩
    · rw [← h.size c hc]
      rcases mem_cons.mp (hperm.mem_iff.mpr (mem_cons_of_mem _ (mem_map_of_mem hc))) with he | hc'
      · rw [he]
        exact Nat.not_le.mp hn
      · exact hsmall _ hc'
    · rw [malloc_loop_walk hl hskip]
      refine (bind_of_ok rfl).trans ?_
      rw [if_neg hn, if_pos rfl]

end Xv6.Umalloc
