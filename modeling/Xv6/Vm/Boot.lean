import Xv6.Vm.Owned

/-! When the kernel has started every page is in one place: `main.c`.

The pages from the end of the kernel to `PHYSTOP` are handed to `freerange` in two parts. From the
first come the kernel's page directory and the stacks of the other processors. -/
namespace Xv6.Vm
open Lib Function List

variable {K : Kernel} {W : World K} {s t : State} {x : System} {P B : Space} {A : Option Nat → Space} {E : Halt → Prop}

/-! ### `freerange` -/

/-- The pages from `lo` to `hi` were freed. -/
structure Freed (s t : State) (lo hi : Nat) : Prop where
  freelist : t.freelist = (List.range' lo (hi - lo)).reverse ++ s.freelist
  page : ∀ {pa}, ¬ (lo ≤ pa ∧ pa < hi) → t.page pa = s.page pa
  denied : t.denied = s.denied

/-- The first page that is handed to `freerange`. -/
def Kernel.first (K : Kernel) : Nat := npages K.ends - USERPAGES

theorem Kernel.ends_bounds (K : Kernel) : 0x80100000 < K.ends ∧ K.ends ≤ 0x80400000 := by
  have htext := K.text
  have horder := K.order
  have hlow := K.low
  simp only [KERNBASE, KERNLINK, EXTMEM] at htext hlow
  omega

theorem first_bounds (h : 0x80100000 < e ∧ e ≤ 0x80400000) :
    npages e - USERPAGES ≤ 1024 ∧ USERPAGES + (npages e - USERPAGES) = npages e := by
  rw [npages]
  simp only [PGSIZE, USERPAGES, KERNBASE]
  omega

theorem first_le_iff (h : 0x80100000 < e ∧ e ≤ 0x80400000) :
    npages e - USERPAGES ≤ pa ↔ e ≤ pa * PGSIZE + KERNBASE := by
  rw [npages]
  simp only [PGSIZE, USERPAGES, KERNBASE]
  omega

theorem Kernel.first_le (K : Kernel) : K.first ≤ 1024 := (first_bounds K.ends_bounds).1

theorem Kernel.add_first (K : Kernel) : USERPAGES + K.first = npages K.ends := (first_bounds K.ends_bounds).2

theorem Kernel.pool_iff : K.Pool pa ↔ K.first ≤ pa ∧ pa < PHYSTOP / PGSIZE :=
  and_congr (first_le_iff K.ends_bounds).symm Iff.rfl

theorem freerange_from_runs (hlo : K.first ≤ lo) (hle : lo ≤ hi) (hhi : hi ≤ PHYSTOP / PGSIZE)
    (hfuel : hi ≤ lo + fuel) (s : State) :
    Runs (freerange_from K ((USERPAGES + hi) * PGSIZE) fuel ((USERPAGES + lo) * PGSIZE)) s
      (fun _ t => Freed s t lo hi) E := by
  induction fuel generalizing lo s with
  | zero =>
    obtain rfl : lo = hi := by omega
    exact Runs.pure ⟨by rw [Nat.sub_self]; rfl, fun _ => rfl, rfl⟩
  | succ fuel ih =>
    rw [freerange_from]
    by_cases hlt : lo < hi
    · have hnext : (USERPAGES + lo) * PGSIZE + PGSIZE = (USERPAGES + (lo + 1)) * PGSIZE := (Nat.succ_mul ..).symm
      have hpage : ((USERPAGES + lo) * PGSIZE - KERNBASE) / PGSIZE = lo := by
        simp only [USERPAGES, KERNBASE, PGSIZE]
        omega
      rw [hnext, if_pos (Nat.mul_le_mul_right _ (by omega)), hpage]
      refine (kfree_runs (Kernel.pool_iff.mpr ⟨hlo, by omega⟩) s).bind fun _ t ht => ?_
      subst ht
      refine (ih (by omega) hlt (by omega) _).post fun _ u hu => ⟨?_, fun {pa} hpa => ?_, hu.denied⟩
      · rw [hu.freelist, show hi - lo = hi - (lo + 1) + 1 by omega, List.range'_succ, reverse_cons, append_assoc]
        rfl
      · rw [hu.page (by omega)]
        exact State.put_page_of_ne (by omega)
    · obtain rfl : lo = hi := by omega
      rw [if_neg]
      · exact Runs.pure ⟨by rw [Nat.sub_self]; rfl, fun _ => rfl, rfl⟩
      · simp only [PGSIZE]
        omega

theorem freerange_runs (lo hi : Nat) (hstart : PGROUNDUP vstart = (USERPAGES + lo) * PGSIZE)
    (hend : vend = (USERPAGES + hi) * PGSIZE) (hlo : K.first ≤ lo) (hle : lo ≤ hi) (hhi : hi ≤ PHYSTOP / PGSIZE) (s : State) :
    Runs (freerange K vstart vend) s (fun _ t => Freed s t lo hi) E := by
  rw [freerange, hstart, hend]
  exact freerange_from_runs hlo hle hhi (Nat.le_trans hhi (Nat.le_trans (by decide) (Nat.le_add_left ..))) s

/-! ### The other processors -/

theorem startothers_runs (n : Nat) (s : State) (hfail : n = 0 ∨ E .fault) :
    Runs (startothers n) s (fun cpus t => ∃ denied, s.freelist = cpus ++ t.freelist ∧
      t = {s with freelist := t.freelist, denied := denied} ∧ (s.denied = [] → denied = [])) E := by
  induction n generalizing s with
  | zero => exact Runs.pure ⟨s.denied, rfl, rfl, id⟩
  | succ n ih =>
    have hfault : E .fault := hfail.resolve_left (Nat.succ_ne_zero n)
    rw [startothers]
    refine (kalloc_runs s).bind fun r t hr => ?_
    rcases hr with ⟨rfl, -, -, -⟩ | ⟨stack, freelist, denied, rfl, hf, rfl, hd⟩
    · exact Runs.throw hfault
    · refine (ih _ (.inr hfault)).bind fun cpus u hu => ?_
      obtain ⟨denied', hfree, hu, hd'⟩ := hu
      refine Runs.pure ⟨denied', ?_, ?_, fun hs => hd' (hd hs)⟩
      · rw [hf, cons_append, ← hfree]
      · rw [hu]

/-! ### The first process -/

/-- The first program is at address 0, or it could not be mapped. -/
theorem inituvm_runs (h : Good W s P) (hhand : P.hand = none) (hclear : ∀ v, v < USERPAGES → P.pte v = 0)
    (hE : (init.length < PGSIZE ∧ ¬ W.Short 1026) ∨ ∀ e, E e) :
    Runs (inituvm P.dir init) s (fun _ t =>
      (has (pteOf t P.dir 0) PTE_P = false ∧ W.Short 1026) ∨
      ∃ B, Good W t B ∧ B.dir = P.dir ∧ B.hand = none ∧ has (B.pte 0) PTE_P = true ∧
        (∀ v, USERPAGES ≤ v → B.pte v = P.pte v) ∧ ∀ v, 1 ≤ v → B.user v = none) E := by
  have huser : ∀ v, 0 ≤ v → P.user v = none := fun v _ => by
    by_cases hv : v < USERPAGES
    · exact Space.user_of_not (by rw [hclear v hv, has_zero])
    · exact if_neg fun hc => hv hc.1
  rw [inituvm]
  refine Runs.ite (fun hlen => Runs.throw ?_) fun _ => ?_
  · exact hE.elim (fun hr => absurd hlen (Nat.not_le.mpr hr.1)) fun hE => hE _
  refine (kalloc_hand_runs h hhand).bind fun r t hr => ?_
  rcases hr with ⟨rfl, ht, hfree⟩ | ⟨mem, b, rfl, hall, ht⟩
  · exact Runs.throw (hE.elim (fun hr => absurd (ht.short (n := 0) hfree huser) hr.2) fun hE => hE _)
  have hzero := ht.setHand_page (A := P.setHand (some (mem, b))) rfl Bytes.zero
  have hno : has (P.pte 0) PTE_P = false := by rw [hclear 0 (by decide), has_zero]
  have hmap := mapPage_runs (E := E) (PTE_W ||| PTE_U) (v := 0) hzero (by decide) hno rfl (by decide)
  rw [Nat.zero_mul] at hmap
  refine Runs.bind_ok rfl (hmap.bind fun r u hr => ?_)
  refine Runs.bind_ok rfl ?_
  rcases hr with ⟨-, hu, hfree⟩ | ⟨-, C, hgrown, hu⟩
  · have hset := hu.setHand_page (A := (P.setHand (some (mem, b))).setHand (some (mem, Bytes.zero))) rfl ((u.page mem).blit 0 init)
    refine .inl ⟨?_, hu.short (n := 0) hfree huser⟩
    have hpte := hset.shows.pteOf_eq (v := 0) (by decide)
    exact (congrArg (has · PTE_P) hpte).trans hno
  · have hlt := (W.pool hall).lt
    have hflags : has (entry mem (PTE_W ||| PTE_U ||| PTE_P)) PTE_P = true := by
      rw [has_entry hlt (by decide) (by decide)]
      decide
    have hpte : ∀ v, (C.map 0 (entry mem (PTE_W ||| PTE_U ||| PTE_P)) Bytes.zero).pte v =
        if v = 0 then entry mem (PTE_W ||| PTE_U ||| PTE_P) else P.pte v := fun v => by
      by_cases hv : v = 0
      · rw [hv, if_pos rfl, Space.map_pte_self]
      · rw [if_neg hv, Space.map_pte_of_ne hv]
        exact congrFun hgrown.pte v
    have hfirst : (C.map 0 (entry mem (PTE_W ||| PTE_U ||| PTE_P)) Bytes.zero).user 0 = some mem := by
      rw [Space.user, hpte, if_pos rfl, if_pos ⟨by decide, hflags⟩, PTE_ADDR_entry hlt (by decide)]
    refine .inr ⟨_, hu.setMem_page hfirst ((u.page mem).blit 0 init), hgrown.dir, rfl, ?_, fun v hv => ?_, fun v hv => ?_⟩
    · show has ((C.map 0 (entry mem (PTE_W ||| PTE_U ||| PTE_P)) Bytes.zero).pte 0) PTE_P = true
      rw [hpte, if_pos rfl]
      exact hflags
    · exact (hpte v).trans (if_neg (Nat.ne_of_gt (Nat.lt_of_lt_of_le (by decide) hv)))
    · have hsame : (C.map 0 (entry mem (PTE_W ||| PTE_U ||| PTE_P)) Bytes.zero).pte v = P.pte v :=
        (hpte v).trans (if_neg (Nat.ne_of_gt hv))
      exact (Space.user_congr hsame).trans (huser v (Nat.zero_le v))

/-- There is a page at address 0 of the first process. -/
def System.Present (x : System) : Prop := has (pteOf x.mem (x.procs x.initproc).proc.pgdir 0) PTE_P = true

theorem Keeps.userinit {init : List Byte} (h : Keeps K x A) (hprocs : ∀ i, (x.procs i).life = .unused)
    (hE : (init.length < PGSIZE ∧ x.mem.denied = [] ∧ 1027 < x.mem.freelist.length) ∨ ∀ e, E e) :
    Runs (userinit K x.procs init) x.mem (fun r t =>
      (¬ System.Present {x with mem := t, procs := r.2, initproc := r.1} ∧ ∀ e, E e) ∨
      ∃ C, Keeps K {x with mem := t, procs := r.2, initproc := r.1} C ∧ (r.2 r.1).life = .live ∧ (r.2 r.1).proc.sz = PGSIZE ∧
        System.Present {x with mem := t, procs := r.2, initproc := r.1} ∧ (x.mem.denied = [] → t.denied = []) ∧
        x.mem.freelist.length ≤ t.freelist.length + 1028) E := by
  have hfind : ((List.range NPROC).find? fun i => (x.procs i).life = .unused) = some 0 := by
    rw [show List.range NPROC = 0 :: List.range' 1 63 from rfl]
    exact List.find?_cons_of_pos (p := fun i => decide ((x.procs i).life = .unused)) (decide_eq_true (hprocs 0))
  rw [Vm.userinit, allocproc, hfind]
  dsimp only
  rw [bind_assoc]
  refine (kalloc_runs x.mem).bind fun r t hr => ?_
  rcases hr with ⟨rfl, denied, rfl, hd⟩ | ⟨kstack, freelist, denied, rfl, hf, rfl, hd⟩
  · refine Runs.throw (hE.elim (fun hr => ?_) fun hE => hE _)
    rw [(hd hr.2.1).2] at hr
    exact absurd hr.2.2 (Nat.not_lt_zero _)
  have hnodup := h.places.nodup
  rw [hf] at hnodup
  obtain ⟨hnot, hnodup⟩ := nodup_cons.mp hnodup
  have hmem : ∀ {pa}, pa ∈ freelist → pa ∈ x.mem.freelist := fun hpa => hf ▸ mem_cons_of_mem _ hpa
  have hpool : ∀ pa ∈ freelist, K.Pool pa := fun pa hpa => h.pool (hmem hpa)
  have hbare : Bare (State.freeWorld {x.mem with freelist := freelist, denied := denied} hpool)
      {x.mem with freelist := freelist, denied := denied} := State.bare hnodup hpool
  have hroom : (init.length < PGSIZE ∧
      ¬ (State.freeWorld {x.mem with freelist := freelist, denied := denied} hpool).Short 1026) ∨ ∀ e, E e := by
    refine hE.imp (fun hr => ⟨hr.1, fun hs => ?_⟩) id
    have hle : freelist.length ≤ 1026 := State.short hs (hd hr.2.1) hnodup
    have hlen := hr.2.2
    rw [hf, length_cons] at hlen
    omega
  refine Runs.bind_ok rfl ((setupkvm_runs hbare).bind fun r u hr => ?_)
  rcases hr with ⟨rfl, -, hshort⟩ | ⟨P, rfl, -, hu, hhand, hkernel, hclear⟩
  · exact Runs.throw (hroom.elim (fun hr => absurd (hshort.mono (by decide)) hr.2) fun hE => hE _)
  refine (inituvm_runs hu hhand hclear hroom).bind fun _ v hv => Runs.pure ?_
  have hself : update x.procs 0 ⟨.live, kstack, ⟨P.dir, PGSIZE, initcode, 0, PGSIZE⟩, none⟩ 0 =
      ⟨.live, kstack, ⟨P.dir, PGSIZE, initcode, 0, PGSIZE⟩, none⟩ := update_self ..
  rcases hv with ⟨hpte, hshort⟩ | ⟨B, hB, hdir, hhandB, hpres, hkernelB, hlow⟩
  · refine .inl ⟨fun hc => ?_, hroom.resolve_left fun hr => hr.2 hshort⟩
    rw [System.Present] at hc
    dsimp only at hc
    rw [hself, hpte] at hc
    cases hc
  · have hlife : (⟨.live, kstack, ⟨P.dir, PGSIZE, initcode, 0, PGSIZE⟩, none⟩ : Task).life ≠ .unused := fun hc => by cases hc
    have hk : ¬ Has B.held v.freelist kstack := fun hc => hnot ((hB.all _).mp hc)
    have hunused := Task.held_unused (hprocs 0) (A (some 0))
    have hsz : PGSIZE < KERNBASE := by decide
    have hone : 1 ≤ npages PGSIZE := by decide
    have hset : Keeps K {x with
        mem := v
        procs := update x.procs 0 ⟨.live, kstack, ⟨P.dir, PGSIZE, initcode, 0, PGSIZE⟩, none⟩}
        (update A (some 0) B) := by
      refine h.setTask (Task.places hlife hB.places hk) (fun pa => ?_) (fun pa hpa => ?_) fun _ => ⟨?_, hsz, fun w hw => hlow w (Nat.le_trans hone hw)⟩
      · rw [Task.has_held hlife, hunused, hB.all pa]
        show pa = kstack ∨ pa ∈ freelist ↔ Has _ x.mem.freelist pa
        rw [hf, has_none, mem_cons]
      · exact hB.same fun hc => hpa (.inl (hmem hc))
      · refine ⟨hdir, hhandB, hB.shows, hB.clean, fun {w} hw => ?_⟩
        rw [hkernelB w hw]
        exact hkernel.user hw
    refine .inr ⟨_, ⟨hset.space, hset.size, hset.low, hset.places, hset.all⟩, congrArg Task.life hself,
      congrArg (·.proc.sz) hself, ?_, fun hs => hB.calm (hd hs), ?_⟩
    · rw [System.Present]
      dsimp only
      rw [hself, ← hdir, hB.shows.pteOf_eq (by decide)]
      exact hpres
    · have hle := hB.length_le (n := 1) hlow hnodup fun _ hpa => hpa
      rw [hf, length_cons]
      omega

/-! ### `main` -/

/-- The system before the first process. -/
def System.early (s : State) (kpgdir : Nat) (cpus : List Nat) : System :=
  ⟨s, fun _ => ⟨.unused, 0, ⟨0, 0, [], 0, 0⟩, none⟩, 0, fun _ => none, kpgdir, cpus⟩

theorem holds_early (h : (System.early s kpgdir cpus).holds (fun _ => P) a = some pa) :
    (∃ q, a = .space none q ∧ P.held q = some pa) ∨ ∃ j, a = .cpu j ∧ cpus[j]? = some pa := by
  cases a with
  | kstack i => cases h
  | pipe j => cases h
  | cpu j => exact .inr ⟨j, rfl, h⟩
  | space d q =>
    cases d with
    | none => exact .inl ⟨q, rfl, h⟩
    | some i => cases h

/-- The kernel's page directory and the stacks of the processors are from the first part. -/
theorem keeps_early (h : Good W s₂ P) (hhand : P.hand = none)
    (hkernel : KernelPart P) (hW : ∀ pa, W.all pa ↔ K.first ≤ pa ∧ pa < 1024) (hcpus : s₂.freelist = cpus ++ s₃.freelist)
    (hpage : s₃.page = s₂.page) (hfreed : Freed s₃ s₄ 1024 (PHYSTOP / PGSIZE)) :
    Keeps K (.early s₄ P.dir cpus) fun _ => P := by
  have hnodup := h.places.nodup
  rw [hcpus] at hnodup
  obtain ⟨hnodup₁, hnodup₂, hdisjoint⟩ := nodup_append'.mp hnodup
  have hheld : ∀ {q pa}, P.held q = some pa → pa < 1024 ∧ pa ∉ cpus ∧ pa ∉ s₃.freelist := fun {q pa} hq => by
    have hnot := h.places.apart hq
    rw [hcpus, mem_append, not_or] at hnot
    exact ⟨((hW pa).mp (h.all_held hq)).2, hnot⟩
  have hcpu : ∀ {j pa}, cpus[j]? = some pa → pa ∈ cpus ∧ pa < 1024 := fun {j pa} hj => by
    have hmem := mem_of_getElem? hj
    exact ⟨hmem, ((hW pa).mp (h.all_free (by rw [hcpus]; exact mem_append_left _ hmem))).2⟩
  have hlow : ∀ {pa}, pa ∈ s₃.freelist → pa < 1024 := fun {pa} hpa =>
    ((hW pa).mp (h.all_free (by rw [hcpus]; exact mem_append_right _ hpa))).2
  have hmem : ∀ {pa}, pa ∈ s₄.freelist ↔ (1024 ≤ pa ∧ pa < PHYSTOP / PGSIZE) ∨ pa ∈ s₃.freelist := fun {pa} => by
    rw [hfreed.freelist, mem_append, mem_reverse, mem_range'_1]
    refine or_congr (and_congr_right fun hlo => ?_) Iff.rfl
    rw [Nat.add_sub_cancel' (by decide : 1024 ≤ PHYSTOP / PGSIZE)]
  refine ⟨fun {d pgdir} hd => ?_, fun hi => absurd rfl hi, fun hi => absurd rfl hi, ⟨fun {a b pa} ha hb => ?_, ?_, fun {a pa} ha => ?_⟩,
    fun pa => ?_⟩
  · cases d with
    | some i => cases hd
    | none =>
      refine ⟨Option.some.inj hd, hhand, h.shows.congr fun q pa hq => ?_, h.clean, hkernel.user⟩
      exact (hfreed.page fun hc => Nat.not_le.mpr (hheld hq).1 hc.1).trans (congrFun hpage pa)
  · rcases holds_early ha with ⟨q, rfl, hq⟩ | ⟨j, rfl, hj⟩ <;> rcases holds_early hb with ⟨r, rfl, hr⟩ | ⟨k, rfl, hk⟩
    · rw [h.places.once hq hr]
    · exact absurd (hcpu hk).1 (hheld hq).2.1
    · exact absurd (hcpu hj).1 (hheld hr).2.1
    · rw [List.getElem?_inj (List.getElem?_eq_some_iff.mp hj).1 hnodup₁ |>.mp (hj.trans hk.symm)]
  · show s₄.freelist.Nodup
    rw [hfreed.freelist]
    refine nodup_append'.mpr ⟨nodup_reverse.mpr nodup_range', hnodup₂, fun pa hpa hpa' => ?_⟩
    rw [mem_reverse, mem_range'_1] at hpa
    exact Nat.not_le.mpr (hlow hpa') hpa.1
  · show pa ∉ s₄.freelist
    rw [hmem]
    rintro (hc | hc)
    · rcases holds_early ha with ⟨q, rfl, hq⟩ | ⟨j, rfl, hj⟩
      · exact Nat.not_le.mpr (hheld hq).1 hc.1
      · exact Nat.not_le.mpr (hcpu hj).2 hc.1
    · rcases holds_early ha with ⟨q, rfl, hq⟩ | ⟨j, rfl, hj⟩
      · exact (hheld hq).2.2 hc
      · exact hdisjoint (hcpu hj).1 hc
  · have hfirst := K.first_le
    rw [Kernel.pool_iff]
    constructor
    · rintro (hc | ⟨a, ha⟩)
      · rcases hmem.mp hc with hc | hc
        · exact ⟨Nat.le_trans hfirst hc.1, hc.2⟩
        · have hpa := (hW pa).mp (h.all_free (by rw [hcpus]; exact mem_append_right _ hc))
          exact ⟨hpa.1, Nat.lt_trans hpa.2 (by decide)⟩
      · have hpa : W.all pa := by
          rcases holds_early ha with ⟨q, rfl, hq⟩ | ⟨j, rfl, hj⟩
          · exact h.all_held hq
          · exact h.all_free (by rw [hcpus]; exact mem_append_left _ (hcpu hj).1)
        exact ⟨((hW pa).mp hpa).1, Nat.lt_trans ((hW pa).mp hpa).2 (by decide)⟩
    · intro hpa
      by_cases hlt : pa < 1024
      · rcases (h.all pa).mpr ((hW pa).mpr ⟨hpa.1, hlt⟩) with hf | ⟨q, hq⟩
        · rw [hcpus, mem_append] at hf
          rcases hf with hf | hf
          · obtain ⟨j, hj⟩ := mem_iff_getElem?.mp hf
            exact .inr ⟨.cpu j, hj⟩
          · exact .inl (hmem.mpr (.inr hf))
        · exact .inr ⟨.space none q, hq⟩
      · exact .inl (hmem.mpr (.inl ⟨Nat.le_of_not_lt hlt, hpa.2⟩))

/-- The kernel starts, with every page in one place, or there is no page for the first program. -/
theorem main_runs (ncpu : Nat) (init : List Byte) (hs : s.freelist = [])
    (hE : (s.denied = [] ∧ ncpu = 0 ∧ init.length < PGSIZE ∧ K.first + 514 < 1024) ∨ ∀ e, E e) :
    Runs (main K ncpu init) s (fun x _ => (¬ x.Present ∧ ∀ e, E e) ∨
      ∃ A, Keeps K x A ∧ (x.procs x.initproc).life = .live ∧ (x.procs x.initproc).proc.sz = PGSIZE ∧ x.Present ∧
        (s.denied = [] → x.mem.denied = []) ∧ 55000 < x.mem.freelist.length) E := by
  have hstart : PGROUNDUP K.ends = (USERPAGES + K.first) * PGSIZE := by rw [PGROUNDUP_eq, K.add_first]
  rw [main]
  refine (freerange_runs K.first 1024 hstart (by decide) (Nat.le_refl _) K.first_le (by decide) s).bind fun _ s₁ h₁ => ?_
  -- The pages of the first part are free.
  have hfree₁ : s₁.freelist = (List.range' K.first (1024 - K.first)).reverse := by
    rw [h₁.freelist, hs, append_nil]
  have hmem₁ : ∀ pa, pa ∈ s₁.freelist ↔ K.first ≤ pa ∧ pa < 1024 := fun pa => by
    rw [hfree₁, mem_reverse, mem_range'_1, Nat.add_sub_cancel' K.first_le]
  have hpool₁ : ∀ pa ∈ s₁.freelist, K.Pool pa := fun pa hpa => by
    rw [hmem₁] at hpa
    exact Kernel.pool_iff.mpr ⟨hpa.1, Nat.lt_trans hpa.2 (by decide)⟩
  have hnodup₁ : s₁.freelist.Nodup := by
    rw [hfree₁]
    exact nodup_reverse.mpr nodup_range'
  refine (setupkvm_runs (State.bare hnodup₁ hpool₁)).bind fun r s₂ hr => ?_
  rcases hr with ⟨rfl, -, hshort⟩ | ⟨P, rfl, -, h₂, hhand, hkernel, -⟩
  · refine Runs.throw (hE.elim (fun hr => absurd hshort ?_) fun hE => hE _)
    refine fun hs => Nat.not_lt.mpr (State.short hs (h₁.denied.trans hr.1) hnodup₁) ?_
    rw [hfree₁, length_reverse, length_range']
    omega
  have hcpu : ncpu = 0 ∨ E .fault := hE.imp (fun hr => hr.2.1) fun hE => hE _
  refine (startothers_runs ncpu s₂ hcpu).bind fun cpus s₃ h₃ => ?_
  obtain ⟨denied, hcpus, h₃, hd₃⟩ := h₃
  refine (freerange_runs 1024 (PHYSTOP / PGSIZE) (by decide) (by decide) K.first_le (by decide) (Nat.le_refl _) s₃).bind
    fun _ s₄ h₄ => ?_
  have hkeeps := keeps_early h₂ hhand hkernel hmem₁ hcpus (by rw [h₃]) h₄
  have hcalm : s.denied = [] → s₄.denied = [] := fun hs => by
    rw [h₄.denied, h₃]
    exact hd₃ (h₂.calm (show s₁.denied = [] from h₁.denied.trans hs))
  have hlen : 55000 + 1028 < s₄.freelist.length := by
    rw [h₄.freelist, length_append, length_reverse, length_range']
    exact Nat.lt_of_lt_of_le (show 55000 + 1028 < PHYSTOP / PGSIZE - 1024 by decide) (Nat.le_add_right ..)
  have hroom : 1027 < s₄.freelist.length := Nat.lt_trans (by decide) hlen
  refine (hkeeps.userinit (fun _ => rfl) (hE.imp (fun hr => ⟨hr.2.2.1, hcalm hr.1, hroom⟩) id)).bind fun r s₅ h₅ => ?_
  refine Runs.bind_get (Runs.pure (h₅.imp id ?_))
  rintro ⟨C, hC, hlive, hsz, hpres, hd, hfree⟩
  exact ⟨C, hC, hlive, hsz, hpres, fun hs => hd (hcalm hs), Nat.lt_of_add_lt_add_right (Nat.lt_of_lt_of_le hlen hfree)⟩

end Xv6.Vm
