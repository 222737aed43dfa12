import Xv6.Vm.Args

/-! `exec` as a whole.

When it succeeds its arguments are on the stack page in good order, and the program is below. When it
fails the process and all pages in use are as they were. -/
namespace Xv6.Vm
open Lib List

variable {K : Kernel} {W : World K} {s t : State} {A B P : Space} {E : Halt → Prop} {f : Nat → Byte} {n : Nat}

/-! ### A stack in good order -/

/-- The word at a virtual address. -/
def wordAt (s : State) (pgdir va : Nat) : BitVec 32 :=
  (Bytes.ofFn fun k => byteAt s pgdir (va + k) : Bytes 4).word32 0

/-- Where the arguments and the words are, and how long. -/
def stackRanges (argv : List (List Byte)) (q : Proc) : List (Nat × Nat) :=
  (strings q.sz argv).map (fun b => (b.1, b.2.length)) ++ [(q.esp, 4 * (argv.length + 4))]

/-- The stack of the process `q`: at `esp` the words of `main`'s frame, the pointers to the strings, and the
strings, all of it in the stack page. Below it is the program. -/
structure WellFormed (file : List Byte) (argv : List (List Byte)) (q : Proc) (t : State) : Prop where
  words : ∀ i w : Nat, ([0xffffffff, argv.length, q.esp + 12] ++ (strings q.sz argv).map Prod.fst ++ [0])[i]? = some w →
    wordAt t q.pgdir (q.esp + 4 * i) = BitVec.ofNat 32 w
  copies : ∀ i p : Nat, ((strings q.sz argv).map Prod.fst)[i]? = some p → ∃ arg, argv[i]? = some arg ∧
    ∀ j, j ≤ arg.length → byteAt t q.pgdir (p + j) = (arg ++ [0]).getD j 0
  apart : (stackRanges argv q).Pairwise fun a b => b.1 + b.2 ≤ a.1 ∨ a.1 + a.2 ≤ b.1
  within : ∀ r ∈ stackRanges argv q, q.sz - PGSIZE ≤ r.1 ∧ r.1 + r.2 ≤ q.sz
  kept : ∀ va, va < q.sz - PGSIZE → byteAt t q.pgdir va = progByte file va

/-! ### Words in bytes -/

theorem getD_wordBytes (hi : ws[i]? = some w) (hk : k < 4) :
    (wordBytes ws).getD (4 * i + k) 0 = (BitVec.ofNat 32 w).extractLsb' (8 * k) 8 := by
  induction ws generalizing i with
  | nil => cases hi
  | cons x ws ih =>
    have hlen : ((List.range 4).map fun k => (BitVec.ofNat 32 x).extractLsb' (8 * k) 8).length = 4 := rfl
    rw [wordBytes, flatMap_cons, getD_eq_getElem?_getD]
    cases i with
    | zero =>
      obtain rfl := Option.some.inj hi
      rw [Nat.mul_zero, Nat.zero_add, List.getElem?_append_left (by rw [hlen]; exact hk), List.getElem?_map,
        List.getElem?_range hk]
      rfl
    | succ i =>
      have hsub : 4 * (i + 1) + k - 4 = 4 * i + k := by omega
      rw [List.getElem?_append_right (by rw [hlen]; omega), hlen, hsub, ← getD_eq_getElem?_getD]
      exact ih hi

theorem wordAt_eq (h : ∀ k, k < 4 → byteAt s pgdir (va + k) = w.extractLsb' (8 * k) 8) :
    wordAt s pgdir va = w := by
  rw [wordAt]
  refine Bytes.word32_of_get fun k hk => ?_
  rw [Bytes.get_ofFn, if_pos (by omega), Nat.zero_add]
  exact h k hk

/-! ### The strings -/

theorem strings_getElem? {sp i p : Nat} {argv : List (List Byte)} (hi : ((strings sp argv).map Prod.fst)[i]? = some p) :
    ∃ arg, argv[i]? = some arg ∧ (p, arg ++ [0]) ∈ strings sp argv := by
  induction argv generalizing sp i with
  | nil => cases hi
  | cons arg argv ih =>
    cases i with
    | zero =>
      obtain rfl := Option.some.inj hi
      exact ⟨arg, rfl, mem_cons_self ..⟩
    | succ i =>
      obtain ⟨a, ha, hmem⟩ := ih hi
      exact ⟨a, ha, mem_cons_of_mem _ hmem⟩

/-- The stack is in good order when everything is in its place. -/
theorem wellFormed {file : List Byte} {argv : List (List Byte)} {q : Proc} (hready : Ready B n
    (lay (stackBlocks (n * PGSIZE) argv) (progByte file))) (hdesc : Descends (n * PGSIZE) (stackBlocks (n * PGSIZE) argv))
    (hbottom : (n - 1) * PGSIZE ≤ stackTop (n * PGSIZE) argv) (ht : Shows t.page B) (hdir : q.pgdir = B.dir)
    (hsz : q.sz = n * PGSIZE) (hesp : q.esp = stackTop (n * PGSIZE) argv) : WellFormed file argv q t := by
  have hbyte : ∀ va, va < n * PGSIZE → byteAt t q.pgdir va = lay (stackBlocks (n * PGSIZE) argv) (progByte file) va :=
    fun va hva => by rw [hdir]; exact hready.byteAt_eq ht hva
  have hlow : q.sz - PGSIZE = (n - 1) * PGSIZE := by rw [hsz, Nat.sub_mul, Nat.one_mul]
  have hfoot : foot (n * PGSIZE) (stackBlocks (n * PGSIZE) argv) = stackTop (n * PGSIZE) argv := foot_append
  have hblock : ∀ {p block}, (p, block) ∈ stackBlocks (n * PGSIZE) argv → ∀ j, j < block.length →
      byteAt t q.pgdir (p + j) = block.getD j 0 := fun hb j hj => by
    have hin := (hdesc.within hb).2
    rw [hbyte _ (by omega)]
    exact hdesc.lay_mem hb hj
  have hranges : stackRanges argv q = (stackBlocks (n * PGSIZE) argv).map fun b => (b.1, b.2.length) := by
    rw [stackRanges, stackBlocks, map_append, hsz, hesp, map_singleton, length_wordBytes, length_stackWords,
      show 4 * (3 + argv.length + 1) = 4 * (argv.length + 4) by omega]
  have htop : 0 < stackTop (n * PGSIZE) argv :=
    Nat.lt_of_lt_of_le (Nat.mul_pos (Nat.sub_pos_of_lt hready.two) (by decide)) hbottom
  have hwords : [0xffffffff, argv.length, q.esp + 12] ++ (strings q.sz argv).map Prod.fst ++ [0] =
      stackWords (n * PGSIZE) argv := by
    rw [stackWords, hsz, hesp, stackTop]
    rw [stackTop] at htop
    rw [show foot (n * PGSIZE) (strings (n * PGSIZE) argv) - (3 + argv.length + 1) * 4 + 12 =
      foot (n * PGSIZE) (strings (n * PGSIZE) argv) - (argv.length + 1) * 4 by omega]
  refine ⟨fun i w hi => ?_, fun i p hi => ?_, ?_, fun r hr => ?_, fun va hva => ?_⟩
  · rw [hwords] at hi
    have hlt : i < (stackWords (n * PGSIZE) argv).length := (List.getElem?_eq_some_iff.mp hi).1
    refine wordAt_eq fun k hk => ?_
    rw [Nat.add_assoc, hesp, hblock (mem_append_right _ (mem_singleton_self _)) _
      (by rw [length_wordBytes]; omega), getD_wordBytes hi hk]
  · rw [hsz] at hi
    obtain ⟨arg, harg, hmem⟩ := strings_getElem? hi
    refine ⟨arg, harg, fun j hj => hblock (mem_append_left _ hmem) j ?_⟩
    rw [length_append, length_singleton]
    omega
  · rw [hranges]
    exact pairwise_map.mpr (hdesc.pairwise.imp fun hab => .inl hab)
  · rw [hranges] at hr
    obtain ⟨b, hb, rfl⟩ := mem_map.mp hr
    obtain ⟨hlo, hhi⟩ := hdesc.within (p := b.1) hb
    rw [hlow, hsz]
    exact ⟨Nat.le_trans hbottom (hfoot ▸ hlo), hhi⟩
  · rw [hlow] at hva
    rw [hbyte va (Nat.lt_of_lt_of_le hva (Nat.mul_le_mul_right _ (Nat.sub_le n 1)))]
    exact hdesc.lay_below (hfoot ▸ Nat.lt_of_lt_of_le hva hbottom)

/-! ### Two spaces -/

theorem Good.free_pool (h : Good W s P) : ∀ pa ∈ s.freelist, K.Pool pa := fun _ hpa => W.pool (h.all_free hpa)

theorem Good.bare (h : Good W s P) : Bare (s.freeWorld h.free_pool) s :=
  State.bare h.places.nodup h.free_pool

theorem Good.beside_free (h : Good W s P) : Beside (s.freeWorld h.free_pool) P :=
  ⟨h.shows, fun hq => h.places.apart hq⟩

theorem Good.restore (h : Good W s P) (ht : Bare (s.freeWorld h.free_pool) t) : Good W t P where
  shows := ht.beside h.beside_free
  places := ⟨h.places.once, ht.nodup, fun hq hx => h.places.apart hq ((ht.all _).mp hx)⟩
  all pa := by
    rw [← h.all pa]
    exact or_congr (ht.all pa) Iff.rfl
  same {pa} hpa := by
    rw [ht.same fun hf => hpa (h.all_free hf), ← h.same hpa]
    rfl
  clean := h.clean
  calm hc := ht.calm (h.calm hc)

/-- The world of the pages of `P` and the free pages, beside another space. -/
def Good.oldWorld (h : Good W s P) (ht : Good (s.freeWorld h.free_pool) t A) : World K where
  all := Has P.held t.freelist
  base := t.page
  calm := t.denied = []
  pool {pa} hpa := by
    rcases hpa with hpa | ⟨q, hq⟩
    · exact W.pool (h.all_free (ht.all_free hpa))
    · exact W.pool (h.all_held hq)

theorem Good.old (h : Good W s P) (ht : Good (s.freeWorld h.free_pool) t A) : Good (h.oldWorld ht) t P where
  shows := ht.beside h.beside_free
  places := ⟨h.places.once, ht.places.nodup, fun hq hx => h.places.apart hq (ht.all_free hx)⟩
  all _ := Iff.rfl
  same _ := rfl
  clean := h.clean
  calm := id

/-- A second space was made from free pages, and then the first was freed. -/
theorem Good.exchange (h : Good W s P) (ht : Good (s.freeWorld h.free_pool) t A)
    (hu : Bare (h.oldWorld ht) u) : Good W u A := by
  have hout : ∀ {q pa}, A.held q = some pa → ¬ Has P.held t.freelist pa := fun hq hpa => by
    rcases hpa with hpa | ⟨r, hr⟩
    · exact ht.places.apart hq hpa
    · exact h.places.apart hr (ht.all_held hq)
  refine ⟨ht.shows.congr fun q pa hq => hu.same (hout hq), ⟨ht.places.once, hu.nodup, fun hq hx => hout hq ((hu.all _).mp hx)⟩,
    fun pa => ?_, fun {pa} hpa => ?_, ht.clean, fun hc => hu.calm (ht.calm (h.calm hc))⟩
  · have hu := hu.all pa
    have ht := ht.all pa
    rw [← h.all pa]
    constructor
    · rintro (hx | hx)
      · rcases hu.mp hx with hx | hx
        · exact .inl (ht.mp (.inl hx))
        · exact .inr hx
      · exact .inl (ht.mp (.inr hx))
    · rintro (hx | hx)
      · rcases ht.mpr hx with hx | hx
        · exact .inl (hu.mpr (.inl hx))
        · exact .inr hx
      · exact .inl (hu.mpr (.inr hx))
  · have hfree : pa ∉ s.freelist := fun hf => hpa (h.all_free hf)
    have hold : ¬ Has P.held t.freelist pa := fun hx => by
      rcases hx with hx | ⟨q, hq⟩
      · exact hfree (ht.all_free hx)
      · exact hpa (h.all_held hq)
    exact (hu.same hold).trans ((ht.same hfree).trans (h.same hpa))

/-! ### `exec` -/

/-- `exec` replaces the space of the process, or fails and leaves it, or the kernel stops. -/
theorem exec_runs (path : List Byte) (h : Good W s P) (hdir : P.dir = p.pgdir)
    (hhand : P.hand = none) (hfile : file.length ≤ MAXFILE * BSIZE) (hn : n = npages (progSize file) + 2)
    (hcount : argv.length < MAXARG) (hlen : ∀ arg ∈ argv, arg.length < 2 ^ 31) :
    Runs (exec K p path file argv) s (fun x t =>
      (x = (-1, p) ∧ Good W t P ∧ (Loadable file →
        ¬ (Fits ((n - 1) * PGSIZE) (n * PGSIZE) argv ∧ (n - 1) * PGSIZE ≤ stackTop (n * PGSIZE) argv) ∨
          (s.freeWorld h.free_pool).Short (n + 1026))) ∨
      (x.1 = 0 ∧ x.2.sz = n * PGSIZE ∧ x.2.esp = stackTop (n * PGSIZE) argv ∧
        Descends (n * PGSIZE) (stackBlocks (n * PGSIZE) argv) ∧ (n - 1) * PGSIZE ≤ stackTop (n * PGSIZE) argv ∧
        ∃ B, Good W t B ∧ x.2.pgdir = B.dir ∧ Ready B n (lay (stackBlocks (n * PGSIZE) argv) (progByte file))))
      fun e => e = .uva2ka ∧ Strays ((n - 1) * PGSIZE) (n * PGSIZE) argv := by
  subst hn
  rw [exec]
  refine (exec_load_runs (Nat.le_trans hfile (by decide)) h.bare).bind fun r t hr => ?_
  rcases hr with ⟨rfl, ht, hshort⟩ | ⟨im, rfl, A, ht, rfl, -, hready⟩
  · exact Runs.pure (.inl ⟨rfl, h.restore ht, fun hc => .inr (hshort hc)⟩)
  refine (exec_args_runs _ ht hready hcount hlen).bind fun r u hu => ?_
  rcases hu.2 with ⟨rfl, hout, B, hB, hdir', hhand'⟩ | ⟨rfl, hdesc, hbottom, B, hB, hdir', hready'⟩
  · rw [← hdir']
    exact (freevm_runs hB hhand').bind fun _ x hx => Runs.pure (.inl ⟨rfl, h.restore hx, fun _ => .inl hout⟩)
  · rw [← hdir]
    refine (freevm_runs (h.old hB) hhand).bind fun _ x hx => Runs.pure (.inr ⟨rfl, rfl, rfl, hdesc, hbottom, ?_⟩)
    exact ⟨B, h.exchange hB hx, hdir'.symm, hready'⟩

/-- When `exec` succeeds the stack is in good order. -/
theorem exec_wellFormed (h : Good W s P) {p : Proc} (hdir : P.dir = p.pgdir) (hhand : P.hand = none)
    {path file : List Byte} (hfile : file.length ≤ MAXFILE * BSIZE) {argv : List (List Byte)}
    (hcount : argv.length < MAXARG) (hlen : ∀ arg ∈ argv, arg.length < 2 ^ 31) {q : Proc}
    (hexec : exec K p path file argv s = .ok ((0, q), t)) : WellFormed file argv q t := by
  rcases (exec_runs path h hdir hhand hfile rfl hcount hlen).of_ok hexec with
    ⟨hx, -⟩ | ⟨-, hsz, hesp, hdesc, htop, B, hB, hpgdir, hready⟩
  · exact absurd (show (0 : Int) = -1 from congrArg Prod.fst hx) (by decide)
  · exact wellFormed hready hdesc htop hB.shows hpgdir hsz hesp

/-- The stack for the arguments `ls` and `-l`. -/
theorem exec_wellFormed_elf :
    ∃ q t, exec Kernel.tiny Proc.tiny [] elf [[108, 115], [45, 108]] (State.tiny Bytes.zero) = .ok ((0, q), t) ∧
      WellFormed elf [[108, 115], [45, 108]] q t := by
  have hlen : ∀ arg ∈ ([[108, 115], [45, 108]] : List (List Byte)), arg.length < 2 ^ 31 := by decide
  have hruns := (exec_runs (p := Proc.tiny) [] (good_tiny Bytes.zero) rfl rfl (show elf.length ≤ _ by decide) rfl
    (by decide) hlen).stops (F := fun _ => False) fun _ he => absurd he.2 (by decide)
  obtain ⟨⟨r, q⟩, t, hexec, hr⟩ := hruns.answers
  rcases hr with ⟨-, -, hfail⟩ | ⟨rfl, -⟩
  · rcases hfail (by decide) with hout | hshort
    · exact absurd ⟨⟨by decide, by decide, by decide, by decide, trivial⟩, by decide⟩ hout
    · exact absurd (tiny_short hshort) (by decide)
  · exact ⟨q, t, hexec, exec_wellFormed (good_tiny Bytes.zero) rfl rfl (by decide) (by decide) hlen hexec⟩

/-! ### `exec` loads any file -/

/-- When `exec` fails every page that it took is free again, and no other has changed. -/
theorem exec_fails (hbare : Bare W s) (hfile : file.length ≤ 2 ^ 31) (p : Proc) (path : List Byte)
    (argv : List (List Byte)) :
    Runs (exec K p path file argv) s (fun x t => x.1 = -1 → x.2 = p ∧ Bare W t) fun _ => True := by
  rw [exec]
  refine (exec_load_runs hfile hbare).bind fun r t hr => ?_
  rcases hr with ⟨rfl, ht, -⟩ | ⟨im, rfl, A, ht, rfl, -, hready⟩
  · exact Runs.pure fun _ => ⟨rfl, ht⟩
  refine ((exec_args_keeps ht hready.kernel).stops fun _ _ => trivial).bind fun r u hu => ?_
  cases r with
  | none =>
    obtain ⟨B, hB, hdir, hhand, -⟩ := hu
    rw [← hdir]
    exact (freevm_runs hB (hhand.trans hready.hand)).bind fun _ x hx => Runs.pure fun _ => ⟨rfl, hx⟩
  | some sp => exact Runs.always.bind fun _ _ _ => Runs.pure fun hc => absurd (show (0 : Int) = -1 from hc) (by decide)

/-- Whatever is in the file, and whichever calls of `kalloc` fail, `exec` gets to the arguments or gives
back every page, and it gets to them with the program in memory that the program headers describe. If it
returns -1, then or later, the process is as it was, and so are all pages that were not free. -/
theorem exec_loads (hnodup : s.freelist.Nodup) (hpool : ∀ pa ∈ s.freelist, K.Pool pa) (p : Proc)
    (path file : List Byte) (argv : List (List Byte)) (hfile : file.length ≤ MAXFILE * BSIZE) :
    (∃ r t, exec_load K file s = .ok (r, t) ∧
      (∀ pa, pa ∉ s.freelist → t.page pa = s.page pa) ∧
      (r = none → t.freelist.Perm s.freelist) ∧
      ∀ im, r = some im → im.sz = PGROUNDUP (progSize file) + 2 * PGSIZE ∧
        ∀ va, va < progSize file → byteAt t im.pgdir va = progByte file va) ∧
    ∀ r q t, exec K p path file argv s = .ok ((r, q), t) → r = -1 →
      q = p ∧ (∀ pa, pa ∉ s.freelist → t.page pa = s.page pa) ∧ t.freelist.Perm s.freelist := by
  have hbare := State.bare hnodup hpool
  have hle : file.length ≤ 2 ^ 31 := Nat.le_trans hfile (by decide)
  have hperm : ∀ {t}, Bare (s.freeWorld hpool) t → t.freelist.Perm s.freelist := fun ht =>
    (perm_ext_iff_of_nodup ht.nodup hnodup).mpr ht.all
  obtain ⟨r, t, hok, hr⟩ := (exec_load_runs (E := fun _ => False) hle hbare).answers
  refine ⟨⟨r, t, hok, ?_⟩, fun r q t hexec hr => ?_⟩
  · rcases hr with ⟨rfl, ht, -⟩ | ⟨im, rfl, B, ht, rfl, -, hready⟩
    · exact ⟨fun pa hpa => ht.same hpa, fun _ => hperm ht, fun im him => by cases him⟩
    · refine ⟨fun pa hpa => ht.same hpa, fun hr => (by cases hr), fun im him => ?_⟩
      obtain rfl := Option.some.inj him
      refine ⟨by rw [PGROUNDUP_eq, ← Nat.add_mul], fun va hva => hready.byteAt_eq ht.shows ?_⟩
      exact Nat.lt_of_lt_of_le (div_lt_iff.mp (lt_npages_of_lt hva)) (Nat.mul_le_mul_right _ (Nat.le_add_right _ 2))
  · obtain ⟨hq, ht⟩ := (exec_fails hbare hle p path argv).of_ok hexec hr
    exact ⟨hq, fun pa hpa => ht.same hpa, hperm ht⟩

/-- A program of two segments at address 0: the bytes 1, 2, 3, 4 and four zeros, and over them the bytes 5, 6. -/
def overlapping : List Byte :=
  [0x7F, 0x45, 0x4C, 0x46] ++ List.replicate 24 0 ++ [52, 0, 0, 0] ++ List.replicate 12 0 ++ [2, 0] ++
    List.replicate 6 0 ++
  [1, 0, 0, 0, 116, 0, 0, 0, 0, 0, 0, 0, 0, 0, 0, 0, 4, 0, 0, 0, 8, 0, 0, 0] ++ List.replicate 8 0 ++
  [1, 0, 0, 0, 120, 0, 0, 0, 0, 0, 0, 0, 0, 0, 0, 0, 2, 0, 0, 0, 2, 0, 0, 0] ++ List.replicate 8 0 ++
  [1, 2, 3, 4, 5, 6]

/-- It is loaded; with an argument of a page there is no room on the stack, and `exec` returns -1. -/
theorem exec_loads_overlapping :
    ∃ im t, exec_load Kernel.tiny overlapping (State.tiny Bytes.zero) = .ok (some im, t) ∧
      (List.range 8).map (byteAt t im.pgdir) = [5, 6, 3, 4, 0, 0, 0, 0] ∧
      ∃ q u, exec Kernel.tiny Proc.tiny [] overlapping [List.replicate PGSIZE 97] (State.tiny Bytes.zero) =
        .ok ((-1, q), u) ∧
        q = Proc.tiny ∧ (∀ pa, pa ∉ (State.tiny Bytes.zero).freelist → u.page pa = (State.tiny Bytes.zero).page pa) ∧
        u.freelist.Perm (State.tiny Bytes.zero).freelist := by
  have hlen : (List.replicate PGSIZE (97 : Byte)).length = PGSIZE := length_replicate
  generalize List.replicate PGSIZE (97 : Byte) = arg at hlen
  have hfile : overlapping.length ≤ MAXFILE * BSIZE := by decide +kernel
  have hsize : progSize overlapping = 8 := by decide
  have hbytes : (List.range 8).map (progByte overlapping) = [5, 6, 3, 4, 0, 0, 0, 0] := by decide
  obtain ⟨⟨r, t, hok, -, -, him⟩, hfail⟩ := exec_loads (bare_tiny Bytes.zero).nodup (tiny_pool Bytes.zero) Proc.tiny []
    overlapping [arg] hfile
  obtain ⟨t', B, hload, -⟩ := exec_load_tiny Bytes.zero (hfile.trans (by decide)) (by decide +kernel)
    (by rw [hsize]; decide)
  obtain ⟨rfl, rfl⟩ := Prod.mk.inj (Except.ok.inj (hok.symm.trans hload))
  refine ⟨_, t, hload, ?_, ?_⟩
  · rw [← hbytes]
    refine List.map_congr_left fun va hva => (him _ rfl).2 va ?_
    rw [hsize]
    exact mem_range.mp hva
  · have hpush : pushed (3 * PGSIZE) arg = 8188 := by
      rw [pushed, hlen]
      decide
    have hstray : ¬ Strays ((3 - 1) * PGSIZE) (3 * PGSIZE) [arg] := by
      rw [Strays, Strays, hpush]
      decide
    have hruns := (exec_runs (p := Proc.tiny) [] (good_tiny Bytes.zero) rfl rfl hfile
      (show 3 = npages (progSize overlapping) + 2 by rw [hsize]; rfl)
      (show [arg].length < MAXARG from (by decide : 1 < MAXARG))
      fun a ha => by
        rw [mem_singleton.mp ha, hlen]
        decide).stops (F := fun _ => False) fun _ he => absurd he.2 hstray
    obtain ⟨x, u, hexec, hr⟩ := hruns.answers
    rcases hr with ⟨rfl, -⟩ | ⟨-, -, -, -, hbottom, -⟩
    · exact ⟨Proc.tiny, u, hexec, hfail _ _ _ hexec rfl⟩
    · have htop : stackTop (3 * PGSIZE) [arg] = pushed (3 * PGSIZE) arg - 20 := rfl
      rw [htop, hpush] at hbottom
      exact absurd hbottom (by decide)

end Xv6.Vm
