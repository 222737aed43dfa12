import Xv6.Vm.Owned

/-! The memory of a child, from `fork` to `wait`.

In between the child calls `sbrk` as it likes, and some of the calls may fail. At the end the pages that
were free are free again, and no other page has changed. -/
namespace Xv6.Vm
open Lib

variable {K : Kernel} {W : World K} {s : State} {A : Space} {E : Halt → Prop} {p : Proc}

/-- `growproc`, call after call, and `freevm` when the process is reaped. -/
def life (K : Kernel) : Proc → List (BitVec 32) → M Unit
  | p, [] => freevm K p.pgdir
  | p, n :: ns => do
    let r ← growproc K p n
    life K r.2 ns

/-- The memory of a child of `p`; there is none if `copyuvm` fails. -/
def childLife (K : Kernel) (p : Proc) (ns : List (BitVec 32)) : M Unit := do
  let r ← copyuvm K p.pgdir p.sz
  match r with
  | none => pure ()
  | some pgdir => life K {p with pgdir := pgdir} ns

theorem life_runs (h : Good W s A) (hp : Suits A A p) (ns : List (BitVec 32)) :
    Runs (life K p ns) s (fun _ t => Bare W t) E := by
  induction ns generalizing s A p with
  | nil =>
    rw [life, ← hp.dir]
    exact freevm_runs h hp.hand
  | cons n ns ih =>
    refine (growproc_suits h hp n).bind fun r t ⟨B, ht, hB⟩ => ?_
    exact ih ht ⟨hB.dir, hB.hand, fun _ => rfl, hB.sz, hB.low⟩

/-- **Of a child no page is left over**, however it grew and shrank, and its parent's pages are as they were. -/
theorem child_leaves_nothing {K : Kernel} {W : World K} {s : State} {P : Space} (h : Good W s P) {p : Proc}
    (ho : Owns p P) (ns : List (BitVec 32)) : ∃ t, childLife K p ns s = .ok ((), t) ∧
      t.freelist.Perm s.freelist ∧ ∀ pa, pa ∉ s.freelist → t.page pa = s.page pa := by
  have hruns : Runs (childLife K p ns) s (fun _ t => Bare (s.freeWorld h.free_pool) t) fun _ => False := by
    rw [childLife, ← ho.dir]
    have hpages : ∀ v, v < npages p.sz → has (P.pte v) PTE_P = true := fun v hv =>
      (ho.pages (Nat.lt_of_lt_of_le hv (npages_le (Nat.le_of_lt ho.sz)))).mpr hv
    refine (copyuvm_runs h.bare h.beside_free (Nat.le_of_lt ho.sz) (.inl hpages)).bind fun r t hr => ?_
    rcases hr with ⟨rfl, ht, -⟩ | ⟨A, B, rfl, ht, hcopies, -, hclear⟩
    · exact Runs.pure ht
    · refine life_runs (p := {p with pgdir := B.dir}) ht ⟨rfl, hcopies.hand, fun _ => rfl, ho.sz, fun v hv => ?_⟩ ns
      by_cases hlt : v < USERPAGES
      · exact Space.user_of_not (by rw [hcopies.pte_other (.inr hv), hclear v hlt, has_zero])
      · exact if_neg fun hc => hlt hc.1
  obtain ⟨⟨⟩, t, hok, ht⟩ := hruns.answers
  exact ⟨t, hok, (List.perm_ext_iff_of_nodup ht.nodup h.places.nodup).mpr ht.all, fun pa hpa => ht.same hpa⟩

/-- A child grows by a byte, and shrinks by a page. -/
theorem child_leaves_nothing_tiny :
    ∃ t, childLife Kernel.tiny Proc.tiny [1, -4096] (State.tiny Bytes.zero) = .ok ((), t) ∧
      t.freelist.Perm (State.tiny Bytes.zero).freelist ∧
      ∀ pa, pa ∉ (State.tiny Bytes.zero).freelist → t.page pa = (State.tiny Bytes.zero).page pa :=
  child_leaves_nothing (good_tiny Bytes.zero) (owns_tiny Bytes.zero) [1, -4096]

end Xv6.Vm
