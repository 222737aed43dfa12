import Xv6.Vm.Copy
import Xv6.Vm.Exec

/-! What `exec` loads.

The program in memory is the one the program headers describe: every byte is that of the last
segment that covers it, or zero. Whatever the file says, none of the calls of `panic` on the way is
reached. -/
namespace Xv6.Vm
open Lib List
open Fs (ELF_MAGIC ELF_PROG_LOAD ELFHDR PROGHDR uintAt ushortAt)

variable {K : Kernel} {W : World K} {s t : State} {A B : Space} {E : Halt → Prop}

/-! ### Pages of a space -/

/-- The word for a page that is present is in its page table. -/
theorem walk_runs (h : Shows s.page A) (hva : va < 2 ^ 32) (hp : has (A.pte (va / PGSIZE)) PTE_P = true) :
    Runs (walkpgdir A.dir va false) s (fun r t => t = s ∧ ∃ pgtab, r = some (pgtab, PTX va) ∧
      A.table (PDX va) = some pgtab ∧ (s.page pgtab).word32 (4 * PTX va) = A.pte (va / PGSIZE)) E := by
  have hpage := page_eq hva
  have hdiv : va / PGSIZE / NPTENTRIES = PDX va := by
    simp only [PGSIZE, NPTENTRIES, PDX]
    omega
  have hlt : va / PGSIZE < PAGES := by
    simp only [PGSIZE, PAGES, NPDENTRIES, NPTENTRIES]
    omega
  obtain ⟨pgtab, htable⟩ := h.table_of_page hlt hp
  rw [hdiv] at htable
  refine (walkpgdir_runs h va).post fun r t hr => ?_
  obtain ⟨rfl, rfl⟩ := hr
  refine ⟨rfl, pgtab, by rw [htable]; rfl, htable, ?_⟩
  rw [h.pte htable (PTX_lt va), hpage]

/-- A page of the space is written. -/
theorem Good.setMem_page (h : Good W s A) (hu : A.user v = some pa) (b : Bytes PGSIZE) :
    Good W (s.put pa b) (A.setMem v b) := by
  have hne : ∀ {q x}, A.held q = some x → q ≠ .page v → x ≠ pa := fun hq hqv he =>
    hqv (h.places.once hq (by rw [he]; exact hu))
  refine ⟨⟨fun hi => ?_, fun {i j t} ht hj => ?_, h.shows.rest, fun {u x} hux => ?_, fun {x c} hx => ?_⟩,
    h.places, h.all, h.same_put (h.all_held (q := .page v) hu) b, h.clean, h.calm⟩
  · exact (congrArg (Bytes.word32 · _) (State.put_page_of_ne (hne (q := .dir) rfl fun he => by cases he))).trans
      (h.shows.pde hi)
  · exact (congrArg (Bytes.word32 · _) (State.put_page_of_ne (hne (q := .table i) ht fun he => by cases he))).trans
      (h.shows.pte ht hj)
  · replace hux : A.user u = some x := hux
    by_cases huv : u = v
    · subst huv
      obtain rfl : pa = x := Option.some.inj (hu.symm.trans hux)
      rw [State.put_page_self, Space.setMem_mem_self]
    · rw [State.put_page_of_ne (hne (q := .page u) hux fun he => huv (by injection he)), Space.setMem_mem_of_ne huv]
      exact h.shows.mem hux
  · replace hx : A.hand = some (x, c) := hx
    rw [State.put_page_of_ne (hne (q := .hand) (Good.held_hand hx) fun he => by cases he)]
    exact h.shows.hand hx

theorem KernelPart.spread (h : KernelPart A) (hs : Spread A B) (hpte : ∀ {v}, USERPAGES ≤ v → B.pte v = A.pte v) :
    KernelPart B where
  user hv := by rw [hpte hv]; exact h.user hv
  pde hlo hhi := by rw [hs.kernel hlo]; exact h.pde hlo hhi

/-! ### Programs in memory -/

/-- The space holds a program of `sz` bytes, the bytes of `f`. -/
structure Loaded (A : Space) (sz : Nat) (f : Nat → Byte) : Prop where
  hand : A.hand = none
  kernel : KernelPart A
  lt : sz < KERNBASE
  pte : ∀ {v}, v < npages sz → ∃ pa, pa < 2 ^ 20 ∧ A.pte v = entry pa (PTE_W ||| PTE_U ||| PTE_P)
  rest : ∀ {v}, npages sz ≤ v → v < USERPAGES → A.pte v = 0
  byte : ∀ {va}, va < npages sz * PGSIZE → (A.mem (va / PGSIZE)).get (va % PGSIZE) = f va
  zero : ∀ {va}, npages sz * PGSIZE ≤ va → f va = 0

variable {sz newsz : Nat} {f g : Nat → Byte}

theorem Loaded.present (h : Loaded A sz f) (hv : v < npages sz) : has (A.pte v) PTE_P = true := by
  obtain ⟨pa, hpa, hpte⟩ := h.pte hv
  rw [hpte, has_entry hpa (by decide) (by decide)]
  decide

theorem Loaded.user_none (h : Loaded A sz f) (hv : npages sz ≤ v) : A.user v = none := by
  by_cases hlt : v < USERPAGES
  · exact Space.user_of_not (by rw [h.rest hv hlt, has_zero])
  · exact if_neg fun hc => hlt hc.1

theorem div_lt_iff : va / PGSIZE < n ↔ va < n * PGSIZE := Nat.div_lt_iff_lt_mul (by decide)

theorem Loaded.alloc (h : Loaded A sz f) (hle : sz ≤ newsz) (hlt : newsz < KERNBASE)
    (hf : Filled A B (npages sz) (npages newsz) (fun _ => PTE_W ||| PTE_U) fun _ => Bytes.zero) :
    Loaded B newsz f where
  hand := hf.hand
  kernel := h.kernel.spread hf.spread fun hv =>
    hf.pte_other (.inr (Nat.le_trans (npages_le (Nat.le_of_lt hlt)) hv))
  lt := hlt
  pte {v} hv := by
    by_cases hold : v < npages sz
    · obtain ⟨pa, hpa, hpte⟩ := h.pte hold
      exact ⟨pa, hpa, by rw [hf.pte_other (.inl hold), hpte]⟩
    · exact hf.pte (Nat.not_lt.mp hold) hv
  rest {v} hv hv' := by
    rw [hf.pte_other (.inr hv)]
    exact h.rest (Nat.le_trans (npages_mono hle) hv) hv'
  byte {va} hva := by
    by_cases hold : va / PGSIZE < npages sz
    · rw [hf.mem_other (.inl hold)]
      exact h.byte (div_lt_iff.mp hold)
    · rw [hf.mem (Nat.not_lt.mp hold) (div_lt_iff.mpr hva), Bytes.get_zero,
        h.zero (Nat.not_lt.mp (mt div_lt_iff.mpr hold))]
  zero {va} hva := h.zero (Nat.le_trans (Nat.mul_le_mul_right _ (npages_mono hle)) hva)

theorem Loaded.setMem (h : Loaded A sz f)
    (hpage : ∀ va, va / PGSIZE = v → b.get (va % PGSIZE) = g va) (hother : ∀ va, va / PGSIZE ≠ v → g va = f va)
    (hv : v < npages sz) : Loaded (A.setMem v b) sz g where
  hand := h.hand
  kernel := ⟨h.kernel.user, h.kernel.pde⟩
  lt := h.lt
  pte := h.pte
  rest := h.rest
  byte {va} hva := by
    by_cases he : va / PGSIZE = v
    · rw [he, Space.setMem_mem_self, hpage va he]
    · rw [Space.setMem_mem_of_ne he, hother va he]
      exact h.byte hva
  zero {va} hva := by
    have hne : va / PGSIZE ≠ v := fun he => Nat.not_lt.mpr hva (div_lt_iff.mp (he ▸ hv))
    rw [hother va hne]
    exact h.zero hva

/-! ### `loaduvm` -/

/-- The program with `n` bytes of the file, from `off` on, at `vaddr`. -/
def segment (file : List Byte) (off vaddr n : Nat) (f : Nat → Byte) (va : Nat) : Byte :=
  if vaddr ≤ va ∧ va < vaddr + n then file.getD (off + (va - vaddr)) 0 else f va

section Segment
variable {file : List Byte} {off v₀ k filesz va : Nat}

theorem segment_old (hva : va / PGSIZE = v₀ + k) :
    segment file off (v₀ * PGSIZE) (min (k * PGSIZE) filesz) f va = f va := by
  refine if_neg fun hc => ?_
  simp only [PGSIZE] at hva hc
  omega

/-- The bytes that the turn for page `k` of the segment loads. -/
theorem segment_new (hva : va / PGSIZE = v₀ + k) (hk : k * PGSIZE < filesz) :
    segment file off (v₀ * PGSIZE) (min ((k + 1) * PGSIZE) filesz) f va =
      if va % PGSIZE < min (filesz - k * PGSIZE) PGSIZE then file.getD (off + k * PGSIZE + va % PGSIZE) 0 else f va := by
  have hsplit : va = v₀ * PGSIZE + (k * PGSIZE + va % PGSIZE) := by
    have := Nat.div_add_mod va PGSIZE
    rw [hva] at this
    simp only [PGSIZE] at this ⊢
    omega
  have hmod : va % PGSIZE < PGSIZE := Nat.mod_lt va (by decide)
  have hsub : va - v₀ * PGSIZE = k * PGSIZE + va % PGSIZE := by
    rw [hsplit, Nat.add_sub_cancel_left]
    simp only [PGSIZE]
    omega
  rw [segment, hsub, ← Nat.add_assoc]
  refine if_congr ?_ rfl rfl
  simp only [PGSIZE] at hsplit hk hmod hva ⊢
  omega

theorem segment_other (hva : va / PGSIZE ≠ v₀ + k) :
    segment file off (v₀ * PGSIZE) (min ((k + 1) * PGSIZE) filesz) f va =
      segment file off (v₀ * PGSIZE) (min (k * PGSIZE) filesz) f va := by
  refine if_congr ?_ rfl rfl
  simp only [PGSIZE] at hva ⊢
  omega

end Segment

theorem readi_full (h : readi file off n = some bytes) (hlen : bytes.length = n) :
    off + n ≤ file.length ∧ ∀ j, j < n → bytes.getD j 0 = file.getD (off + j) 0 := by
  rw [readi] at h
  split at h
  · cases h
  · next hc =>
    obtain rfl := Option.some.inj h
    rw [length_take, length_drop] at hlen
    refine ⟨by omega, fun j hj => ?_⟩
    rw [getD_eq_getElem?_getD, getD_eq_getElem?_getD, List.getElem?_take_of_lt hj, List.getElem?_drop]

/-- All bytes within the file are read. -/
theorem readi_within (h : off + n ≤ file.length) (hfile : file.length ≤ 2 ^ 31) :
    ∃ bytes, readi file off n = some bytes ∧ bytes.length = n := by
  refine ⟨(file.drop off).take n, ?_, ?_⟩
  · rw [readi, if_neg (by omega)]
  · rw [length_take, length_drop, Nat.min_eq_left (by omega)]

theorem loaduvm_from_runs (hfit : v₀ * PGSIZE + filesz ≤ sz)
    (hfile : file.length ≤ 2 ^ 31) (hfuel : filesz ≤ (k + fuel) * PGSIZE)
    (hoff : off + k * PGSIZE < 2 ^ 32) (h : Good W s A)
    (hl : Loaded A sz (segment file off (v₀ * PGSIZE) (min (k * PGSIZE) filesz) f)) :
    Runs (loaduvm_from A.dir (v₀ * PGSIZE) file off filesz fuel (k * PGSIZE)) s (fun r t =>
      ∃ B, Good W t B ∧ B.dir = A.dir ∧ B.hand = none ∧
        (r = true → Loaded B sz (segment file off (v₀ * PGSIZE) filesz f)) ∧
        (r = false → file.length < off + filesz)) E := by
  induction fuel generalizing k s A with
  | zero =>
    rw [Nat.min_eq_right (Nat.add_zero k ▸ hfuel)] at hl
    exact Runs.pure ⟨A, h, rfl, hl.hand, fun _ => hl, fun hr => by cases hr⟩
  | succ fuel ih =>
    rw [loaduvm_from]
    by_cases hlt : k * PGSIZE < filesz
    · have hin : (v₀ + k) * PGSIZE < sz := by
        rw [Nat.add_mul]
        exact Nat.lt_of_lt_of_le (Nat.add_lt_add_left hlt _) hfit
      have h32 : (v₀ + k) * PGSIZE < 2 ^ 32 := Nat.lt_trans hin (Nat.lt_trans hl.lt (by decide))
      have hdiv : (v₀ + k) * PGSIZE / PGSIZE = v₀ + k := Nat.mul_div_cancel _ (by decide)
      have hv : v₀ + k < npages sz := lt_npages.mpr hin
      have huser : v₀ + k < USERPAGES := Nat.lt_of_lt_of_le hv (npages_le (Nat.le_of_lt hl.lt))
      have hp := hl.present hv
      have hnext : (k * PGSIZE + PGSIZE) % 2 ^ 32 = (k + 1) * PGSIZE :=
        page_succ (Nat.lt_of_le_of_lt (Nat.succ_le_of_lt (Nat.lt_of_le_of_lt (Nat.le_add_left k v₀) huser)) (by decide))
      rw [if_pos hlt, ← Nat.add_mul, Nat.mod_eq_of_lt h32, hnext, Nat.mod_eq_of_lt hoff]
      refine (walk_runs h.shows h32 (by rw [hdiv]; exact hp)).bind fun r t hr => ?_
      obtain ⟨rfl, pgtab, rfl, -, hword⟩ := hr
      refine (getWord_runs pgtab _ t).bind fun w u hw => ?_
      obtain ⟨rfl, rfl⟩ := hw
      rw [hword, hdiv]
      generalize hn : (if filesz - k * PGSIZE < PGSIZE then filesz - k * PGSIZE else PGSIZE) = n
      have hn' : n = min (filesz - k * PGSIZE) PGSIZE := by rw [← hn]; split <;> omega
      have hshort : ¬ (off + k * PGSIZE + n ≤ file.length) → file.length < off + filesz := by omega
      dsimp only
      cases hread : readi file (off + k * PGSIZE) n with
      | none =>
        refine Runs.pure ⟨A, h, rfl, hl.hand, fun h => (by cases h), fun _ => hshort fun hc => ?_⟩
        obtain ⟨bytes, hsome, -⟩ := readi_within hc hfile
        rw [hread] at hsome
        cases hsome
      | some bytes =>
        have hmem := h.shows.mem (Space.user_of_has huser hp)
        refine Runs.bind_ok rfl (Runs.bind_ok rfl ?_)
        rw [hmem]
        have hgood := h.setMem_page (Space.user_of_has huser hp) ((A.mem (v₀ + k)).blit 0 bytes)
        refine Runs.ite (fun hlen => Runs.pure ⟨_, hgood, rfl, hl.hand, fun h => (by cases h),
          fun _ => hshort fun hc => hlen ?_⟩)
          fun hlen => ?_
        · obtain ⟨bytes', hsome, hfull⟩ := readi_within hc hfile
          rw [hread] at hsome
          rw [Option.some.inj hsome]
          exact hfull
        obtain ⟨hend, hbytes⟩ := readi_full hread (not_not.mp hlen)
        have hroom : 0 + bytes.length ≤ PGSIZE := by
          rw [Nat.zero_add, not_not.mp hlen, hn']
          exact Nat.min_le_right ..
        have hle : off + k * PGSIZE ≤ 2 ^ 31 := Nat.le_trans (Nat.le_trans (Nat.le_add_right _ n) hend) hfile
        have hoff' : off + (k + 1) * PGSIZE < 2 ^ 32 := by
          rw [Nat.succ_mul, ← Nat.add_assoc]
          exact Nat.lt_of_le_of_lt (Nat.add_le_add_right hle PGSIZE) (by decide)
        refine ih (A := A.setMem (v₀ + k) ((A.mem (v₀ + k)).blit 0 bytes)) (by rw [Nat.add_right_comm]; exact hfuel) hoff'
          hgood (hl.setMem (fun va hva => ?_) (fun va hva => segment_other hva) hv)
        have hold := hl.byte (div_lt_iff.mp (hva ▸ hv))
        rw [hva, segment_old hva] at hold
        rw [segment_new hva hlt, Bytes.get_blit _ _ _ _ hroom, hold, Nat.zero_add, Nat.sub_zero, not_not.mp hlen, ← hn']
        by_cases hj : va % PGSIZE < n
        · rw [if_pos ⟨Nat.zero_le _, hj⟩, if_pos hj, hbytes _ hj]
        · rw [if_neg fun hc => hj hc.2, if_neg hj]
    · rw [Nat.min_eq_right (Nat.not_lt.mp hlt)] at hl
      rw [if_neg hlt]
      exact Runs.pure ⟨A, h, rfl, hl.hand, fun _ => hl, fun hr => by cases hr⟩

/-- `loaduvm` loads a segment into pages that are there. -/
theorem loaduvm_runs (haligned : vaddr % PGSIZE = 0)
    (hfit : vaddr + filesz ≤ sz) (hfile : file.length ≤ 2 ^ 31) (hoff : off < 2 ^ 32) (h : Good W s A)
    (hl : Loaded A sz f) :
    Runs (loaduvm A.dir vaddr file off filesz) s (fun r t =>
      ∃ B, Good W t B ∧ B.dir = A.dir ∧ B.hand = none ∧ (r = true → Loaded B sz (segment file off vaddr filesz f)) ∧
        (r = false → file.length < off + filesz)) E := by
  obtain ⟨v₀, rfl⟩ : ∃ v₀, vaddr = v₀ * PGSIZE := ⟨vaddr / PGSIZE, (Nat.div_mul_cancel (Nat.dvd_of_mod_eq_zero haligned)).symm⟩
  have hstart : segment file off (v₀ * PGSIZE) (min (0 * PGSIZE) filesz) f = f := by
    funext va
    refine if_neg fun hc => ?_
    rw [Nat.zero_mul, Nat.zero_min, Nat.add_zero] at hc
    omega
  have hfuel : filesz ≤ (0 + 2 ^ 20) * PGSIZE :=
    Nat.le_trans (Nat.le_trans (Nat.le_add_left ..) hfit) (Nat.le_trans (Nat.le_of_lt hl.lt) (by decide))
  have hloop := loaduvm_from_runs (E := E) hfit hfile hfuel (k := 0) (by rw [Nat.zero_mul]; exact hoff) h
    (f := f) (hstart.symm ▸ hl)
  rw [Nat.zero_mul] at hloop
  rw [loaduvm, if_neg (not_not.mpr haligned)]
  exact hloop

/-! ### The program headers -/

/-- The program headers from `off` on. -/
def headers (file : List Byte) : Nat → Nat → List Proghdr
  | 0, _ => []
  | n + 1, off => .ofBytes ((file.drop off).take PROGHDR) :: headers file n ((off + PROGHDR) % 2 ^ 32)

/-- The size of the program with one more segment. -/
def Proghdr.grow (sz : Nat) (ph : Proghdr) : Nat :=
  if ph.type = ELF_PROG_LOAD then max sz (ph.vaddr + ph.memsz) else sz

/-- The program with one more segment. -/
def Proghdr.load (file : List Byte) (f : Nat → Byte) (ph : Proghdr) : Nat → Byte :=
  if ph.type = ELF_PROG_LOAD then segment file ph.off ph.vaddr ph.filesz f else f

/-- `exec` can load the segment. -/
def Proghdr.Sound (file : List Byte) (ph : Proghdr) : Prop :=
  ph.type = ELF_PROG_LOAD → ph.filesz ≤ ph.memsz ∧ 0 < ph.vaddr + ph.memsz ∧ ph.vaddr + ph.memsz < KERNBASE ∧
    ph.vaddr % PGSIZE = 0 ∧ ph.off + ph.filesz ≤ file.length

theorem le_foldl_grow (phs : List Proghdr) (sz : Nat) : sz ≤ phs.foldl Proghdr.grow sz := by
  induction phs generalizing sz with
  | nil => exact Nat.le_refl sz
  | cons ph phs ih =>
    refine Nat.le_trans ?_ (ih _)
    rw [Proghdr.grow]
    split
    · exact Nat.le_max_left ..
    · exact Nat.le_refl sz

/-- `allocuvm` for a program that may be larger already. -/
theorem Loaded.allocuvm_runs (h : Good W s A) (hl : Loaded A sz f) (newsz : Nat) :
    Runs (allocuvm K A.dir sz newsz) s (fun r t =>
      ∃ B, Good W t B ∧ B.dir = A.dir ∧ B.hand = none ∧ (r ≠ 0 → r = max sz newsz ∧ Loaded B r f) ∧
        (r = 0 → 0 < newsz → newsz < KERNBASE → W.Short (npages newsz + 1026))) E := by
  by_cases hlt : newsz < KERNBASE
  · by_cases hle : sz ≤ newsz
    · have hnew : ∀ v, npages sz ≤ v → v < npages newsz → A.pte v = 0 := fun v hlo hhi =>
        hl.rest hlo (Nat.lt_of_lt_of_le hhi (npages_le (Nat.le_of_lt hlt)))
      refine (Vm.allocuvm_runs h hl.hand hlt hle hnew).post fun r t hr => ?_
      rcases hr with ⟨rfl, ⟨B, ht, hundone⟩, hshort⟩ | ⟨rfl, B, ht, hfilled⟩
      · refine ⟨B, ht, hundone.spread.dir, hundone.hand, fun hr => absurd rfl hr, fun _ _ _ => hshort fun v hv => ?_⟩
        exact hl.user_none (Nat.le_trans (npages_mono hle) hv)
      · refine ⟨B, ht, hfilled.spread.dir, hfilled.hand, fun _ => ⟨(Nat.max_eq_right hle).symm, hl.alloc hle hlt hfilled⟩,
          fun hr hpos => absurd hr (Nat.ne_of_gt hpos)⟩
    · rw [allocuvm, if_neg (Nat.not_le.mpr hlt), if_pos (Nat.not_le.mp hle)]
      refine Runs.pure ⟨A, h, rfl, hl.hand, fun _ => ⟨?_, hl⟩, fun hr => absurd (hr ▸ Nat.zero_le _) hle⟩
      exact (Nat.max_eq_left (Nat.le_of_lt (Nat.not_le.mp hle))).symm
  · rw [allocuvm, if_pos (Nat.not_lt.mp hlt)]
    exact Runs.pure ⟨A, h, rfl, hl.hand, fun hr => absurd rfl hr, fun _ _ hc => absurd hc hlt⟩

/-- The program headers are within the file, and `exec` can load their segments. -/
def SoundFrom (file : List Byte) (n off : Nat) : Prop :=
  off + n * PROGHDR ≤ file.length ∧ ∀ ph ∈ headers file n off, ph.Sound file

theorem SoundFrom.readi (h : SoundFrom file (n + 1) off) (hfile : file.length ≤ 2 ^ 31) :
    ∃ bytes, readi file off PROGHDR = some bytes ∧ bytes.length = PROGHDR := by
  refine readi_within (Nat.le_trans ?_ h.1) hfile
  rw [Nat.succ_mul]
  omega

theorem SoundFrom.tail (h : SoundFrom file (n + 1) off) (hfile : file.length ≤ 2 ^ 31) :
    SoundFrom file n ((off + PROGHDR) % 2 ^ 32) := by
  refine ⟨?_, fun ph hph => h.2 ph (mem_cons_of_mem _ hph)⟩
  have hlen := h.1
  rw [Nat.succ_mul] at hlen
  rw [Nat.mod_eq_of_lt (by simp only [PROGHDR] at hlen ⊢; omega)]
  omega

/-- The loop over the program headers. -/
theorem exec_from_runs (hfile : file.length ≤ 2 ^ 31) (h : Good W s A) (hl : Loaded A sz f) :
    Runs (exec_from K A.dir file n off sz) s (fun r t =>
      ∃ B, Good W t B ∧ B.dir = A.dir ∧ B.hand = none ∧
        (∀ sz', r = some sz' → sz' = (headers file n off).foldl Proghdr.grow sz ∧
          Loaded B sz' ((headers file n off).foldl (Proghdr.load file) f)) ∧
        (r = none → SoundFrom file n off →
          W.Short (npages ((headers file n off).foldl Proghdr.grow sz) + 1026))) E := by
  have hbad : ∀ {s A} {P : Nat → Space → Prop} {Q : Prop}, Good W s A → A.hand = none → Q →
      ∃ B, Good W s B ∧ B.dir = A.dir ∧ B.hand = none ∧ (∀ sz', none = some sz' → P sz' B) ∧
        ((none : Option Nat) = none → Q) :=
    fun h hh hQ => ⟨_, h, rfl, hh, fun _ hc => (by cases hc), fun _ => hQ⟩
  induction n generalizing off s A sz f with
  | zero =>
    refine Runs.pure ⟨A, h, rfl, hl.hand, fun sz' hsz => ?_, fun hr => by cases hr⟩
    obtain rfl := Option.some.inj hsz
    exact ⟨rfl, hl⟩
  | succ n ih =>
    rw [exec_from]
    cases hread : readi file off PROGHDR with
    | none =>
      refine Runs.pure (hbad h hl.hand fun hs => ?_)
      obtain ⟨bytes, hsome, -⟩ := hs.readi hfile
      rw [hread] at hsome
      cases hsome
    | some bytes =>
      have hbytes : bytes = (file.drop off).take PROGHDR := by
        rw [readi] at hread
        split at hread
        · cases hread
        · exact (Option.some.inj hread).symm
      have hsound : SoundFrom file (n + 1) off → (Proghdr.ofBytes bytes).Sound file := fun hs =>
        hs.2 _ (by rw [headers, ← hbytes]; exact mem_cons_self ..)
      rw [headers, foldl_cons, foldl_cons, ← hbytes]
      dsimp only
      generalize hph : Proghdr.ofBytes bytes = ph at hsound
      have hoff : ph.off < 2 ^ 32 := by rw [← hph]; exact BitVec.isLt _
      refine Runs.ite (fun hlen => Runs.pure (hbad h hl.hand fun hs => ?_)) fun _ => ?_
      · obtain ⟨bytes', hsome, hfull⟩ := hs.readi hfile
        rw [hread] at hsome
        exact absurd (by rw [Option.some.inj hsome]; exact hfull) hlen
      refine Runs.ite (fun htype => ?_) fun htype => ?_
      · rw [show ph.grow sz = sz from if_neg htype, show ph.load file f = f from if_neg htype]
        refine (ih h hl).post fun r t hr => ?_
        obtain ⟨B, hB, hdir, hhand, hloaded, hshort⟩ := hr
        exact ⟨B, hB, hdir, hhand, hloaded, fun hr hs => hshort hr (hs.tail hfile)⟩
      replace htype := not_not.mp htype
      rw [show ph.grow sz = _ from if_pos htype, show ph.load file f = _ from if_pos htype]
      refine Runs.ite (fun hmemsz => Runs.pure (hbad h hl.hand fun hs => ?_)) fun hmemsz => ?_
      · exact absurd hmemsz (Nat.not_lt.mpr (hsound hs htype).1)
      have hvaddr : ph.vaddr < 2 ^ 32 := by rw [← hph]; exact BitVec.isLt _
      have hmem : ph.memsz < 2 ^ 32 := by rw [← hph]; exact BitVec.isLt _
      refine Runs.ite (fun hwrap => Runs.pure (hbad h hl.hand fun hs => ?_)) fun hwrap => ?_
      · have hlt := (hsound hs htype).2.2.1
        rw [Nat.mod_eq_of_lt (Nat.lt_trans hlt (by decide))] at hwrap
        omega
      have hsum : (ph.vaddr + ph.memsz) % 2 ^ 32 = ph.vaddr + ph.memsz := by omega
      rw [hsum]
      refine (hl.allocuvm_runs h _).bind fun r t hr => ?_
      obtain ⟨B, hB, hdir, hhand, hloaded, hshort⟩ := hr
      rw [← hdir]
      refine Runs.ite (fun hr0 => Runs.pure (hbad hB hhand fun hs => ?_)) fun hr0 => ?_
      · refine (hshort hr0 (hsound hs htype).2.1 (hsound hs htype).2.2.1).mono (Nat.add_le_add_right (npages_mono ?_) _)
        exact Nat.le_trans (Nat.le_max_right ..) (le_foldl_grow _ _)
      obtain ⟨hmax, hloaded⟩ := hloaded hr0
      have hfit : ph.vaddr + ph.filesz ≤ r := by rw [hmax]; omega
      refine Runs.ite (fun haligned => Runs.pure (hbad hB hhand fun hs => ?_)) fun haligned => ?_
      · exact absurd (hsound hs htype).2.2.2.1 haligned
      refine (loaduvm_runs (not_not.mp haligned) hfit hfile hoff hB hloaded).bind fun b u hu => ?_
      obtain ⟨C, hC, hdir', hhand', hloaded', hlong⟩ := hu
      rw [← hdir']
      cases b with
      | false =>
        refine Runs.pure (hbad hC hhand' fun hs => ?_)
        exact absurd (hsound hs htype).2.2.2.2 (Nat.not_le.mpr (hlong rfl))
      | true =>
        rw [hmax]
        refine (ih hC (hmax ▸ hloaded' rfl)).post fun r x hr => ?_
        obtain ⟨D, hD, hdir'', hhand'', hrest, hshort'⟩ := hr
        exact ⟨D, hD, hdir'', hhand'', hrest, fun hr hs => hshort' hr (hs.tail hfile)⟩

/-! ### The stack -/

theorem entry_clear : entry pa (PTE_W ||| PTE_U ||| PTE_P) &&& ~~~PTE_U = entry pa (PTE_W ||| PTE_P) := by
  have hpage : BitVec.ofNat 32 (pa * PGSIZE) &&& ~~~PTE_U = BitVec.ofNat 32 (pa * PGSIZE) := by
    refine BitVec.eq_of_getLsbD_eq fun i hi => ?_
    rw [BitVec.getLsbD_and, BitVec.getLsbD_ofNat, show PGSIZE = 2 ^ 12 from rfl, Nat.testBit_mul_two_pow]
    by_cases hlow : 12 ≤ i
    · have hbit : PTE_U.getLsbD i = false := by
        rw [BitVec.getLsbD, show PTE_U.toNat = 2 ^ 2 from rfl, Nat.testBit_two_pow]
        exact decide_eq_false (by omega)
      rw [BitVec.getLsbD_not, hbit, decide_eq_true hi]
      simp
    · rw [decide_eq_false hlow]
      simp
  rw [entry, entry, BitVec.and_or_distrib_right, hpage]
  rfl

theorem Good.setFlags (h : Good W s A) (ht : A.table (v / NPTENTRIES) = some pgtab)
    (hw : has w PTE_P = true) (hu : A.user v = some (PTE_ADDR w)) : Good W (s.setPte pgtab v w) (A.setPte v w) := by
  obtain ⟨hv, -, -⟩ := Space.user_eq_some hu
  have hheld : (A.setPte v w).held = A.held := by
    rw [Space.held_setPte hv, if_pos hw, ← hu]
    exact Function.update_eq_self (Slot.page v) A.held
  refine ⟨?_, by rw [hheld]; exact h.places, by rw [hheld]; exact h.all,
    h.same_put (h.all_held (q := .table _) ht) _, h.clean.setPte fun hc => absurd hw (by rw [hc]; decide), h.calm⟩
  have hset := h.shows.setPte h.places ht (Nat.mod_lt v (by decide)) (w := w)
    (fun {x} hx => by
      rw [div_add_mod_page] at hx ⊢
      obtain ⟨-, -, hx⟩ := Space.user_eq_some hx
      rw [Space.setPte_pte_self] at hx
      subst hx
      refine ⟨fun he => ?_, h.shows.mem hu⟩
      have := h.places.once (p := .page v) (q := .table (v / NPTENTRIES)) hu (he ▸ ht)
      cases this)
  rw [div_add_mod_page] at hset
  exact hset

/-- The space when `exec` comes to the arguments: `n` pages, of which the last is the stack and the one
below is not accessible, with the bytes of `f`. -/
structure Ready (A : Space) (n : Nat) (f : Nat → Byte) : Prop where
  hand : A.hand = none
  kernel : KernelPart A
  two : 2 ≤ n
  lt : n * PGSIZE < KERNBASE
  guard : ∃ pa, pa < 2 ^ 20 ∧ A.pte (n - 2) = entry pa (PTE_W ||| PTE_P)
  pte : ∀ {v}, v < n → v ≠ n - 2 → ∃ pa, pa < 2 ^ 20 ∧ A.pte v = entry pa (PTE_W ||| PTE_U ||| PTE_P)
  rest : ∀ {v}, n ≤ v → v < USERPAGES → A.pte v = 0
  byte : ∀ {va}, va < n * PGSIZE → (A.mem (va / PGSIZE)).get (va % PGSIZE) = f va

theorem Ready.present (h : Ready A n f) (hv : v < n) : has (A.pte v) PTE_P = true := by
  by_cases hg : v = n - 2
  · obtain ⟨pa, hpa, hpte⟩ := h.guard
    rw [hg, hpte, has_entry hpa (by decide) (by decide)]
    decide
  · obtain ⟨pa, hpa, hpte⟩ := h.pte hv hg
    rw [hpte, has_entry hpa (by decide) (by decide)]
    decide

theorem Ready.lt_user (h : Ready A n f) (hv : v < n) : v < USERPAGES := by
  have hn : n ≤ USERPAGES := (Nat.le_div_iff_mul_le (by decide)).mpr (Nat.le_of_lt h.lt)
  exact Nat.lt_of_lt_of_le hv hn

theorem Ready.byteAt_eq (h : Ready A n f) (hs : Shows s.page A) (hva : va < n * PGSIZE) :
    byteAt s A.dir va = f va := by
  have hv : va / PGSIZE < n := div_lt_iff.mpr hva
  rw [hs.byteAt_eq (h.lt_user hv) (h.present hv), h.byte hva]

/-- `clearpteu` of the page below the stack. -/
theorem clearpteu_runs (htwo : 2 ≤ n) (h : Good W s A) (hl : Loaded A (n * PGSIZE) f) :
    Runs (clearpteu A.dir (n * PGSIZE - 2 * PGSIZE)) s (fun _ t => ∃ B, Good W t B ∧ B.dir = A.dir ∧ Ready B n f) E := by
  have hpages : npages (n * PGSIZE) = n := by simp only [npages, PGSIZE]; omega
  have hva : n * PGSIZE - 2 * PGSIZE = (n - 2) * PGSIZE := (Nat.sub_mul ..).symm
  have hdiv : (n - 2) * PGSIZE / PGSIZE = n - 2 := Nat.mul_div_cancel _ (by decide)
  have hv : n - 2 < npages (n * PGSIZE) := by rw [hpages]; omega
  have hlt : (n - 2) * PGSIZE < 2 ^ 32 :=
    Nat.lt_of_le_of_lt (Nat.mul_le_mul_right _ (Nat.sub_le n 2)) (Nat.lt_trans hl.lt (by decide))
  have huser : n - 2 < USERPAGES := Nat.lt_of_lt_of_le hv (npages_le (Nat.le_of_lt hl.lt))
  have hpdx : PDX ((n - 2) * PGSIZE) = (n - 2) / NPTENTRIES := PDX_page _ (Nat.lt_trans huser (by decide))
  have hptx : PTX ((n - 2) * PGSIZE) = (n - 2) % NPTENTRIES := by simp only [PTX, PGSIZE, NPTENTRIES]; omega
  obtain ⟨pa, hpa, hpte⟩ := hl.pte hv
  rw [clearpteu, hva]
  refine (walk_runs h.shows hlt (by rw [hdiv]; exact hl.present hv)).bind fun r t hr => ?_
  obtain ⟨rfl, pgtab, rfl, htable, hword⟩ := hr
  refine (getWord_runs pgtab _ t).bind fun w u hw => ?_
  obtain ⟨rfl, rfl⟩ := hw
  rw [hword, hdiv, hpte, entry_clear]
  refine (setWord_runs pgtab _ _ u).post fun _ x hx => ?_
  subst hx
  rw [hpdx] at htable
  have hflags : has (entry pa (PTE_W ||| PTE_P)) PTE_P = true := by
    rw [has_entry hpa (by decide) (by decide)]
    decide
  have hsame : A.user (n - 2) = some (PTE_ADDR (entry pa (PTE_W ||| PTE_P))) := by
    rw [Space.user_of_has huser (hl.present hv), hpte, PTE_ADDR_entry hpa (by decide), PTE_ADDR_entry hpa (by decide)]
  have hgood := h.setFlags htable hflags hsame
  rw [State.setPte, ← hptx] at hgood
  refine ⟨_, hgood, rfl, hl.hand, ⟨fun {v} hv => ?_, hl.kernel.pde⟩, htwo, hl.lt, ⟨pa, hpa, Space.setPte_pte_self⟩,
    fun {v} hv hne => ?_, fun {v} hlo hhi => ?_, fun {va} hva => hl.byte (by rw [hpages]; exact hva)⟩
  · rw [Space.setPte_pte_of_ne (by omega)]
    exact hl.kernel.user hv
  · rw [Space.setPte_pte_of_ne hne]
    exact hl.pte (by rw [hpages]; exact hv)
  · rw [Space.setPte_pte_of_ne (by omega)]
    exact hl.rest (by rw [hpages]; exact hlo) hhi

theorem exec_bad_runs {P : Image → State → Prop} (h : Good W s A) (hh : A.hand = none) {Q : Prop} (hQ : Q) :
    Runs (exec_bad K A.dir) s (fun r t => (r = none ∧ Bare W t ∧ Q) ∨ ∃ im, r = some im ∧ P im t) E :=
  (freevm_runs h hh).bind fun _ _ ht => Runs.pure (.inl ⟨rfl, ht, hQ⟩)

theorem npages_mul (n : Nat) : npages (n * PGSIZE) = n := by
  simp only [npages, PGSIZE]
  omega

theorem Loaded.round (h : Loaded A sz f) (hlt : npages sz * PGSIZE < KERNBASE) : Loaded A (npages sz * PGSIZE) f where
  hand := h.hand
  kernel := h.kernel
  lt := hlt
  pte hv := h.pte (by rw [npages_mul] at hv; exact hv)
  rest hlo hhi := h.rest (by rw [npages_mul] at hlo; exact hlo) hhi
  byte hva := h.byte (by rw [npages_mul] at hva; exact hva)
  zero hva := h.zero (by rw [npages_mul] at hva; exact hva)

theorem exec_stack_runs {entry : BitVec 32} (h : Good W s A) (hl : Loaded A sz f) :
    Runs (exec_stack K A.dir entry sz) s (fun r t =>
      (r = none ∧ Bare W t ∧ (npages sz + 2 < USERPAGES → W.Short (npages sz + 1028))) ∨
      ∃ im, r = some im ∧ ∃ B, Good W t B ∧ im = ⟨B.dir, entry, (npages sz + 2) * PGSIZE⟩ ∧ B.dir = A.dir ∧
        Ready B (npages sz + 2) f) E := by
  have hle := npages_le (Nat.le_of_lt hl.lt)
  have hsum : (npages sz * PGSIZE + 2 * PGSIZE) % 2 ^ 32 = (npages sz + 2) * PGSIZE := by
    rw [← Nat.add_mul, Nat.mod_eq_of_lt]
    exact Nat.lt_of_le_of_lt (Nat.mul_le_mul_right _ (Nat.add_le_add_right hle 2)) (by decide)
  rw [exec_stack, PGROUNDUP_eq, hsum]
  by_cases hlt : (npages sz + 2) * PGSIZE < KERNBASE
  · have hround := hl.round (Nat.lt_of_le_of_lt (Nat.mul_le_mul_right _ (Nat.le_add_right _ 2)) hlt)
    have hpos : 0 < (npages sz + 2) * PGSIZE := Nat.mul_pos (Nat.succ_pos _) (by decide)
    refine (hround.allocuvm_runs h _).bind fun r t hr => ?_
    obtain ⟨B, hB, hdir, hhand, hloaded, hshort⟩ := hr
    rw [npages_mul] at hshort
    rw [← hdir]
    refine Runs.ite (fun hr0 => exec_bad_runs hB hhand fun _ => ?_) fun hr0 => ?_
    · exact hshort hr0 hpos hlt
    obtain ⟨rfl, hloaded⟩ := hloaded hr0
    rw [Nat.max_eq_right (Nat.mul_le_mul_right _ (Nat.le_add_right _ 2))] at hloaded ⊢
    refine (clearpteu_runs (Nat.le_add_left 2 _) hB hloaded).bind fun _ u hu => ?_
    obtain ⟨C, hC, hdir', hready⟩ := hu
    exact Runs.pure (.inr ⟨_, rfl, C, hC, by rw [hdir'], hdir', hready⟩)
  · rw [allocuvm, if_pos (Nat.not_lt.mp hlt)]
    refine Runs.bind_ok rfl ?_
    rw [if_pos rfl]
    refine exec_bad_runs h hl.hand fun hc => absurd ?_ hlt
    exact Nat.lt_of_lt_of_le (Nat.mul_lt_mul_of_pos_right hc (by decide)) (by decide)

/-! ### The file -/

/-- The program headers of a file. -/
def proghdrs (file : List Byte) : List Proghdr := headers file (ushortAt file 44).toNat (uintAt file 28).toNat

/-- The size of the program: the end of its highest segment. -/
def progSize (file : List Byte) : Nat := (proghdrs file).foldl Proghdr.grow 0

/-- The segment is loaded and the file has a byte of it at the address. -/
def Proghdr.covers (va : Nat) (ph : Proghdr) : Bool :=
  ph.type = ELF_PROG_LOAD ∧ ph.vaddr ≤ va ∧ va < ph.vaddr + ph.filesz

/-- The byte at an address: that of the last segment that covers it, or zero. -/
def progByte (file : List Byte) (va : Nat) : Byte :=
  match (proghdrs file).reverse.find? (Proghdr.covers va) with
  | some ph => file.getD (ph.off + (va - ph.vaddr)) 0
  | none => 0

/-- Segment by segment, the last one counts. -/
theorem foldl_load (file : List Byte) (f : Nat → Byte) (va : Nat) (phs : List Proghdr) :
    phs.reverse.foldr (fun ph f => ph.load file f) f va =
      match phs.reverse.find? (Proghdr.covers va) with
      | some ph => file.getD (ph.off + (va - ph.vaddr)) 0
      | none => f va := by
  induction phs.reverse with
  | nil => rfl
  | cons ph phs ih =>
    rw [List.foldr_cons, List.find?_cons, Proghdr.load]
    by_cases hc : ph.type = ELF_PROG_LOAD ∧ ph.vaddr ≤ va ∧ va < ph.vaddr + ph.filesz
    · rw [show ph.covers va = true from decide_eq_true hc, if_pos hc.1]
      exact if_pos hc.2
    · rw [show ph.covers va = false from decide_eq_false hc]
      by_cases htype : ph.type = ELF_PROG_LOAD
      · rw [if_pos htype]
        exact (if_neg fun h => hc ⟨htype, h⟩).trans ih
      · rw [if_neg htype]
        exact ih

theorem progByte_eq (file : List Byte) :
    (proghdrs file).foldl (Proghdr.load file) (fun _ => 0) = progByte file := by
  funext va
  rw [progByte, ← foldl_load file (fun _ => 0) va, List.foldr_reverse]

theorem getD_take {file : List Byte} {n i : Nat} (h : i < n) : (file.take n).getD i 0 = file.getD i 0 := by
  rw [getD_eq_getElem?_getD, getD_eq_getElem?_getD, List.getElem?_take_of_lt h]

theorem uintAt_take {file : List Byte} {n off : Nat} (h : off + 4 ≤ n) : uintAt (file.take n) off = uintAt file off := by
  rw [uintAt, uintAt, getD_take (by omega), getD_take (by omega), getD_take (by omega), getD_take (by omega)]

theorem ushortAt_take {file : List Byte} {n off : Nat} (h : off + 2 ≤ n) :
    ushortAt (file.take n) off = ushortAt file off := by
  rw [ushortAt, ushortAt, getD_take (by omega), getD_take (by omega)]

/-- `exec` can load the file, if there is memory. -/
def Loadable (file : List Byte) : Prop :=
  ELFHDR ≤ file.length ∧ uintAt file 0 = ELF_MAGIC ∧ SoundFrom file (ushortAt file 44).toNat (uintAt file 28).toNat ∧
    npages (progSize file) + 2 < USERPAGES

instance (file : List Byte) (ph : Proghdr) : Decidable (ph.Sound file) :=
  inferInstanceAs (Decidable (_ → _ ∧ _ ∧ _ ∧ _ ∧ _))

instance (file : List Byte) (n off : Nat) : Decidable (SoundFrom file n off) := inferInstanceAs (Decidable (_ ∧ _))

instance (file : List Byte) : Decidable (Loadable file) := inferInstanceAs (Decidable (_ ∧ _ ∧ _ ∧ _))

/-- `exec` up to the arguments: it fails and leaves no page behind, or the program is in memory. -/
theorem exec_load_runs (hfile : file.length ≤ 2 ^ 31) (h : Bare W s) :
    Runs (exec_load K file) s (fun r t =>
      (r = none ∧ Bare W t ∧ (Loadable file → W.Short (npages (progSize file) + 1028))) ∨
      ∃ im, r = some im ∧ ∃ B, Good W t B ∧ im = ⟨B.dir, uintAt file 24, (npages (progSize file) + 2) * PGSIZE⟩ ∧
        s.freelist.head? = some B.dir ∧ Ready B (npages (progSize file) + 2) (progByte file)) E := by
  have hread : readi file 0 ELFHDR = some (file.take ELFHDR) := by
    rw [readi, if_neg (by simp only [ELFHDR]; omega), drop_zero]
  rw [exec_load, hread]
  dsimp only
  rw [uintAt_take (by decide), uintAt_take (by decide), uintAt_take (by decide), ushortAt_take (by decide)]
  refine Runs.ite (fun hlen => Runs.pure (.inl ⟨rfl, h, fun hc => ?_⟩)) fun _ => ?_
  · exact absurd (by rw [length_take, Nat.min_eq_left hc.1]) hlen
  refine Runs.ite (fun hmagic => Runs.pure (.inl ⟨rfl, h, fun hc => absurd hc.2.1 hmagic⟩)) fun _ => ?_
  refine (setupkvm_runs h).bind fun r t hr => ?_
  rcases hr with ⟨rfl, ht, hshort⟩ | ⟨A, rfl, hhead, ht, hhand, hkernel, hclear⟩
  · exact Runs.pure (.inl ⟨rfl, ht, fun _ => hshort.mono (Nat.le_trans (by decide) (Nat.le_add_left 1028 _))⟩)
  have hnone : npages 0 = 0 := rfl
  have hl : Loaded A 0 fun _ => 0 := ⟨hhand, hkernel, by decide, fun hv => absurd hv (by rw [hnone]; omega),
    fun _ hv => hclear _ hv, fun hva => absurd hva (by rw [hnone, Nat.zero_mul]; omega), fun _ => rfl⟩
  refine (exec_from_runs hfile ht hl).bind fun r u hu => ?_
  obtain ⟨B, hB, hdir, hhand', hloaded, hshort⟩ := hu
  rw [← hdir]
  cases r with
  | none => exact exec_bad_runs hB hhand' fun hc => (hshort rfl hc.2.2.1).mono (Nat.add_le_add_left (by decide) _)
  | some sz =>
    obtain ⟨hsz, hloaded⟩ := hloaded sz rfl
    rw [show (headers file (ushortAt file 44).toNat (uintAt file 28).toNat).foldl (Proghdr.load file) (fun _ => 0) =
      progByte file from progByte_eq file] at hloaded
    refine (exec_stack_runs hB hloaded).post fun r x hx => ?_
    rw [show (headers file (ushortAt file 44).toNat (uintAt file 28).toNat).foldl Proghdr.grow 0 = progSize file from rfl]
      at hsz
    rw [hsz] at hx
    rcases hx with ⟨rfl, hbare, hshort⟩ | ⟨im, rfl, C, hC, rfl, hdir', hready⟩
    · exact .inl ⟨rfl, hbare, fun hc => hshort hc.2.2.2⟩
    · refine .inr ⟨_, rfl, C, hC, rfl, ?_, hready⟩
      rw [hhead, hdir', hdir]

/-! ### A program without segments -/

/-- An ELF header. -/
def elf : List Byte := [0x7F, 0x45, 0x4C, 0x46] ++ List.replicate 48 0

theorem tiny_pool (b : Bytes PGSIZE) : ∀ pa ∈ (State.tiny b).freelist, Kernel.tiny.Pool pa :=
  fun _ hpa => World.tiny.pool ((good_tiny b).all_free hpa)

theorem bare_tiny (b : Bytes PGSIZE) : Bare ((State.tiny b).freeWorld (tiny_pool b)) (State.tiny b) :=
  State.bare (good_tiny b).places.nodup (tiny_pool b)

theorem tiny_short {b : Bytes PGSIZE} (h : ((State.tiny b).freeWorld (tiny_pool b)).Short n) : 4096 ≤ n := by
  have hle := State.short h rfl (bare_tiny b).nodup
  rwa [State.tiny, length_range'] at hle

/-- There is memory for a file that `exec` can load. -/
theorem exec_load_tiny (b : Bytes PGSIZE) (hfile : file.length ≤ 2 ^ 31) (hload : Loadable file)
    (hsmall : npages (progSize file) + 1028 < 4096) :
    ∃ t B, exec_load Kernel.tiny file (State.tiny b) =
        .ok (some ⟨4113, uintAt file 24, (npages (progSize file) + 2) * PGSIZE⟩, t) ∧
      Good ((State.tiny b).freeWorld (tiny_pool b)) t B ∧ B.dir = 4113 ∧
      Ready B (npages (progSize file) + 2) (progByte file) := by
  have hruns := exec_load_runs (E := fun _ => False) hfile (bare_tiny b)
  obtain ⟨r, t, hok, hr⟩ := hruns.answers
  rcases hr with ⟨-, -, hshort⟩ | ⟨im, rfl, B, ht, rfl, hhead, hready⟩
  · exact absurd (tiny_short (hshort hload)) (Nat.not_le.mpr hsmall)
  · have hdir : B.dir = 4113 := (Option.some.inj hhead).symm
    refine ⟨t, B, ?_, ht, hdir, hready⟩
    rw [hok, hdir]

theorem exec_load_elf (b : Bytes PGSIZE) :
    ∃ t B, exec_load Kernel.tiny elf (State.tiny b) = .ok (some ⟨4113, 0, 2 * PGSIZE⟩, t) ∧
      Good ((State.tiny b).freeWorld (tiny_pool b)) t B ∧ B.dir = 4113 ∧ Ready B 2 (progByte elf) :=
  exec_load_tiny b (by decide) (by decide) (by decide)

end Xv6.Vm
