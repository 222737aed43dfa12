import Xv6.Vm.Isolation

/-! Arguments of system calls: `syscall.c`.

The checks are sums of 32 bit words, which may wrap around. They are sound because the size of every
process is below `KERNBASE`, whatever is in memory: `exec`, `fork` and `growproc` keep it so. -/
namespace Xv6.Vm
open Lib

/-! ### Reading user memory -/

/-- A byte that the kernel reads at an address below `KERNBASE`. -/
def loadByte (pgdir va : Nat) : M Byte := do
  let r ← walkpgdir pgdir va false
  match r with
  | none => throw .fault
  | some (pgtab, i) => do
    let pte ← getWord pgtab i
    if has pte PTE_P then do
      let b ← getPage (PTE_ADDR pte)
      pure (b.get (va % PGSIZE))
    else throw .fault

def loadWord (pgdir va : Nat) : M (BitVec 32) := do
  let b₀ ← loadByte pgdir va
  let b₁ ← loadByte pgdir (va + 1)
  let b₂ ← loadByte pgdir (va + 2)
  let b₃ ← loadByte pgdir (va + 3)
  pure ((b₃ ++ b₂) ++ (b₁ ++ b₀))

/-! ### `syscall.c` -/

/-- The `int` at `addr`, or `none` for -1. -/
def fetchint (curproc : Proc) (addr : Nat) : M (Option (BitVec 32)) :=
  if curproc.sz ≤ addr ∨ curproc.sz < (addr + 4) % 2 ^ 32 then pure none
  else do
    let w ← loadWord curproc.pgdir addr
    pure (some w)

/-- The loop of `fetchstr`, from `s` on, which is `fuel` bytes or less from `ep`. -/
def fetchstr_from (pgdir pp ep : Nat) : Nat → Nat → M (Option Nat)
  | 0, _ => pure none
  | fuel + 1, s =>
    if s < ep then do
      let c ← loadByte pgdir s
      if c = 0 then pure (some (s - pp)) else fetchstr_from pgdir pp ep fuel (s + 1)
    else pure none

/-- The string at `addr`, as a pointer and a length, or `none` for -1. -/
def fetchstr (curproc : Proc) (addr : Nat) : M (Option (Nat × Nat)) :=
  if curproc.sz ≤ addr then pure none
  else do
    let r ← fetchstr_from curproc.pgdir addr curproc.sz curproc.sz addr
    pure (r.map fun len => (addr, len))

/-- Where the argument `n` is. -/
def argaddr (curproc : Proc) (n : BitVec 32) : Nat := (curproc.esp + 4 + (4 * n).toNat) % 2 ^ 32

def argint (curproc : Proc) (n : BitVec 32) : M (Option (BitVec 32)) := fetchint curproc (argaddr curproc n)

def argptr (curproc : Proc) (n size : BitVec 32) : M (Option Nat) := do
  let r ← argint curproc n
  match r with
  | none => pure none
  | some i =>
    if size.toInt < 0 ∨ curproc.sz ≤ i.toNat ∨ curproc.sz < (i.toNat + size.toNat) % 2 ^ 32 then pure none
    else pure (some i.toNat)

def argstr (curproc : Proc) (n : BitVec 32) : M (Option (Nat × Nat)) := do
  let r ← argint curproc n
  match r with
  | none => pure none
  | some addr => fetchstr curproc addr.toNat

/-! ### What is read -/

variable {K : Kernel} {s : State} {x y : System} {p : Proc}

theorem loadByte_runs (hva : va < 2 ^ 32) (s : State) :
    Runs (loadByte pgdir va) s (fun c t => c = byteAt s pgdir va ∧ t = s) fun _ => True := by
  have hpdx : PDX va = va / PGSIZE / NPTENTRIES := by
    simp only [PDX, PGSIZE, NPTENTRIES]
    omega
  have hptx : PTX va = va / PGSIZE % NPTENTRIES := by
    simp only [PTX, PGSIZE, NPTENTRIES]
    omega
  rw [loadByte, walkpgdir, byteAt, pteOf, ← hpdx, ← hptx]
  rw [bind_assoc]
  refine (getWord_runs pgdir (PDX va) s).bind fun w t hw => ?_
  obtain ⟨rfl, rfl⟩ := hw
  by_cases hp : has ((t.page pgdir).word32 (4 * PDX va)) PTE_P = true
  · simp only [if_pos hp, pure_bind]
    refine (getWord_runs _ (PTX va) t).bind fun w u hw => ?_
    obtain ⟨rfl, rfl⟩ := hw
    exact Runs.ite (fun _ => Runs.bind_ok rfl (Runs.pure ⟨rfl, rfl⟩)) fun _ => Runs.throw trivial
  · simp only [if_neg hp, if_true, pure_bind]
    exact Runs.throw trivial

theorem loadWord_runs (hva : va + 4 ≤ 2 ^ 32) (s : State) :
    Runs (loadWord pgdir va) s (fun w t => w = wordAt s pgdir va ∧ t = s) fun _ => True := by
  refine (loadByte_runs (by omega) s).bind fun b₀ t h => ?_
  obtain ⟨rfl, rfl⟩ := h
  refine (loadByte_runs (by omega) t).bind fun b₁ t h => ?_
  obtain ⟨rfl, rfl⟩ := h
  refine (loadByte_runs (by omega) t).bind fun b₂ t h => ?_
  obtain ⟨rfl, rfl⟩ := h
  refine (loadByte_runs (by omega) t).bind fun b₃ t h => ?_
  obtain ⟨rfl, rfl⟩ := h
  exact Runs.pure ⟨by simp [wordAt, Bytes.word32], rfl⟩

/-- The string at `pp` ends after `len` bytes. -/
def StringAt (s : State) (pgdir pp len : Nat) : Prop :=
  (∀ j, j < len → byteAt s pgdir (pp + j) ≠ 0) ∧ byteAt s pgdir (pp + len) = 0

/-- The loop finds the end of the string that starts at `pp`, or there is none below `ep`. -/
theorem fetchstr_from_runs (hep : ep ≤ KERNBASE) (hq : pp ≤ q) (hfuel : ep ≤ q + fuel)
    (hbefore : ∀ j, j < q - pp → byteAt s pgdir (pp + j) ≠ 0) :
    Runs (fetchstr_from pgdir pp ep fuel q) s (fun r _ =>
      (∃ len, r = some len ∧ pp + len < ep ∧ StringAt s pgdir pp len) ∨
      (r = none ∧ ∀ j, pp + j < ep → byteAt s pgdir (pp + j) ≠ 0)) fun _ => True := by
  induction fuel generalizing q with
  | zero => exact Runs.pure (.inr ⟨rfl, fun j hj => hbefore j (by omega)⟩)
  | succ fuel ih =>
    have hself : pp + (q - pp) = q := Nat.add_sub_cancel' hq
    rw [fetchstr_from]
    refine Runs.ite (fun hlt => ?_) fun hge => Runs.pure (.inr ⟨rfl, fun j hj => hbefore j (by omega)⟩)
    refine (loadByte_runs (Nat.lt_of_lt_of_le hlt (Nat.le_trans hep (by decide))) s).bind fun c t hc => ?_
    obtain ⟨rfl, rfl⟩ := hc
    refine Runs.ite (fun hc => Runs.pure (.inl ⟨_, rfl, ?_, hbefore, ?_⟩)) fun hc =>
      ih (Nat.le_succ_of_le hq) (by omega) fun j hj => ?_
    · rw [hself]
      exact hlt
    · rw [hself]
      exact hc
    · by_cases hj' : j < q - pp
      · exact hbefore j hj'
      · rw [show pp + j = q by omega]
        exact hc

/-! ### Arguments within the process -/

theorem fetchint_runs (hp : p.sz < KERNBASE) (addr : Nat) (s : State) :
    Runs (fetchint p addr) s (fun r t => t = s ∧ ∀ w, r = some w → addr + 4 ≤ p.sz ∧ w = wordAt s p.pgdir addr)
      fun _ => True := by
  rw [fetchint]
  refine Runs.ite (fun _ => Runs.pure ⟨rfl, fun w h => by cases h⟩) fun hin => ?_
  have hlt : addr < p.sz := Nat.not_le.mp fun hc => hin (.inl hc)
  -- The sum does not wrap around, as `addr` is below `KERNBASE`.
  have hmod : (addr + 4) % 2 ^ 32 = addr + 4 := by
    simp only [KERNBASE] at hp
    omega
  have hle : addr + 4 ≤ p.sz := Nat.not_lt.mp fun hc => hin (.inr (by rw [hmod]; exact hc))
  have hva : addr + 4 ≤ 2 ^ 32 := Nat.le_trans hle (Nat.le_trans (Nat.le_of_lt hp) (by decide))
  refine (loadWord_runs hva s).bind fun w _ hw => Runs.pure ⟨hw.2, fun v h => ⟨hle, ?_⟩⟩
  rw [← Option.some.inj h, hw.1]

theorem fetchstr_runs (hp : p.sz < KERNBASE) (addr : Nat) (s : State) :
    Runs (fetchstr p addr) s (fun r _ =>
      (∀ pp len, r = some (pp, len) → pp = addr ∧ pp + len < p.sz ∧ StringAt s p.pgdir pp len) ∧
      (r = none → ∀ j, addr + j < p.sz → byteAt s p.pgdir (addr + j) ≠ 0)) fun _ => True := by
  rw [fetchstr]
  refine Runs.ite (fun hge => Runs.pure ⟨fun _ _ h => (by cases h), fun _ j hj => (by omega)⟩) fun hlt => ?_
  refine (fetchstr_from_runs (Nat.le_of_lt hp) (Nat.le_refl addr) (Nat.le_add_left ..) fun j hj => by omega).bind
    fun r _ hr => Runs.pure ?_
  rcases hr with ⟨len, rfl, hlen, hstring⟩ | ⟨rfl, hnone⟩
  · refine ⟨fun pp l h => ?_, fun h => by cases h⟩
    obtain ⟨rfl, rfl⟩ := Prod.mk.inj (Option.some.inj h)
    exact ⟨rfl, hlen, hstring⟩
  · exact ⟨fun _ _ h => (by cases h), fun _ => hnone⟩

/-- What the argument functions accept is in the memory of the process. -/
structure Confined (p : Proc) (s : State) : Prop where
  fetchint : ∀ addr w t, fetchint p addr s = .ok (some w, t) → addr + 4 ≤ p.sz ∧ w = wordAt s p.pgdir addr
  argint : ∀ n w t, argint p n s = .ok (some w, t) → argaddr p n + 4 ≤ p.sz ∧ w = wordAt s p.pgdir (argaddr p n)
  argptr : ∀ n size pp t, argptr p n size s = .ok (some pp, t) →
    pp < p.sz ∧ 0 ≤ size.toInt ∧ (pp : Int) + size.toInt ≤ p.sz
  fetchstr : ∀ addr pp len t, fetchstr p addr s = .ok (some (pp, len), t) →
    pp = addr ∧ pp + len < p.sz ∧ StringAt s p.pgdir pp len
  argstr : ∀ n pp len t, argstr p n s = .ok (some (pp, len), t) → pp + len < p.sz ∧ StringAt s p.pgdir pp len

/-- The sum of a pointer and a size that is not negative does not wrap around. -/
theorem argptr_runs (hp : p.sz < KERNBASE) (n size : BitVec 32) (s : State) :
    Runs (argptr p n size) s (fun r _ => ∀ pp, r = some pp →
      pp < p.sz ∧ 0 ≤ size.toInt ∧ (pp : Int) + size.toInt ≤ p.sz) fun _ => True := by
  refine (fetchint_runs hp (argaddr p n) s).bind fun r _ _ => ?_
  cases r with
  | none => exact Runs.pure fun _ h => by cases h
  | some i =>
    refine Runs.ite (fun _ => Runs.pure fun _ h => by cases h) fun hin => Runs.pure fun pp h => ?_
    obtain rfl := Option.some.inj h
    have hsize : 0 ≤ size.toInt := Int.not_lt.mp fun hc => hin (.inl hc)
    have hlt : i.toNat < p.sz := Nat.not_le.mp fun hc => hin (.inr (.inl hc))
    have hint : size.toInt = size.toNat ∧ size.toNat < 2 ^ 31 := by
      rw [BitVec.toInt_eq_toNat_cond] at hsize ⊢
      split at hsize <;> omega
    have hmod : (i.toNat + size.toNat) % 2 ^ 32 = i.toNat + size.toNat := by
      simp only [KERNBASE] at hp
      omega
    have hle : i.toNat + size.toNat ≤ p.sz := Nat.not_lt.mp fun hc => hin (.inr (.inr (by rw [hmod]; exact hc)))
    exact ⟨hlt, hsize, by omega⟩

theorem argstr_runs (hp : p.sz < KERNBASE) (n : BitVec 32) (s : State) :
    Runs (argstr p n) s (fun r _ => ∀ pp len, r = some (pp, len) →
      pp + len < p.sz ∧ StringAt s p.pgdir pp len) fun _ => True := by
  refine (fetchint_runs hp (argaddr p n) s).bind fun r t hr => ?_
  obtain ⟨rfl, -⟩ := hr
  cases r with
  | none => exact Runs.pure fun _ _ h => by cases h
  | some addr => exact (fetchstr_runs hp addr.toNat t).post fun _ _ hr pp len h => (hr.1 pp len h).2

theorem confined (hp : p.sz < KERNBASE) (s : State) : Confined p s where
  fetchint addr w _ h := ((fetchint_runs hp addr s).of_ok h).2 w rfl
  argint n w _ h := ((fetchint_runs hp (argaddr p n) s).of_ok h).2 w rfl
  argptr n size pp _ h := (argptr_runs hp n size s).of_ok h pp rfl
  fetchstr addr pp len _ h := ((fetchstr_runs hp addr s).of_ok h).1 pp len rfl
  argstr n pp len _ h := (argstr_runs hp n s).of_ok h pp len rfl

/-! ### Whole runs -/

/-- After every run, whatever is in memory and in `esp`, the arguments of a process are within it. -/
theorem confined_of_run (hboot : Boots K x) {calls : List (Nat × Call)} (hrun : run (step K) x calls = some y) {i : Nat}
    (hi : (y.procs i).life ≠ .unused) :
    (y.procs i).proc.sz < KERNBASE ∧ ∀ esp s, esp < 2 ^ 32 → Confined {(y.procs i).proc with esp := esp} s := by
  obtain ⟨A, hA⟩ := hboot.keeps_run hrun
  refine ⟨hA.size hi, fun esp s _ => ?_⟩
  have hp : {(y.procs i).proc with esp := esp}.sz < KERNBASE := hA.size hi
  exact confined hp s

/-- The first process, after it has grown by a page, with an argument that wraps around. -/
theorem confined_sbrk_tiny : ∃ x y, Boots Kernel.tiny x ∧
    run (step Kernel.tiny) x [(x.initproc, .sbrk 4096)] = some y ∧
    Confined {(y.procs x.initproc).proc with esp := 0xFFFFFFFC} y.mem := by
  obtain ⟨x, y, hboot, hrun, hlive, -⟩ := run_sbrk_tiny
  have hi : (y.procs x.initproc).life ≠ .unused := by
    rw [hlive]
    exact fun hc => by cases hc
  exact ⟨x, y, hboot, hrun, (confined_of_run hboot hrun hi).2 _ _ (by decide)⟩

end Xv6.Vm
