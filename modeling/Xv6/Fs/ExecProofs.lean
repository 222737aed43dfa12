import Xv6.Fs.Exec
import Xv6.Fs.Sound
import Xv6.Fs.WriteThrough

/-! `exec` only reads: it leaves every inode and every reference as they were. -/
namespace Xv6.Fs
open Lib

variable {sb : Superblock} {s₀ s s' : State} {N : Nat → Node} {T L : List Nat}
variable {ip cwd : Ptr} {c i off n : Nat}

/-- A read of an inode that the call has locked. A device gives the lock up for a while. -/
theorem During.readi (Ly : Layout sb) (h : During sb s₀ s N T (i :: L)) (hp : Points s ip i) (hi : i ∉ L)
    (hoff : off < 2 ^ 32) (hn : n < 2 ^ 32) :
    Runs (Fs.readi sb ip off n) s (fun _ s' => During sb s₀ s' N T (i :: L) ∧ Stays s s') Calm := by
  have hv := h.held i (List.mem_cons_self ..)
  have hself : Stays s s := ⟨fun _ _ h => h, fun _ h => h, fun _ => Nat.le_refl _⟩
  by_cases ht : (N i).type = T_DEV
  · refine bind_inode ?_
    rw [if_pos (by rw [h.good.type_eq hp hv, h.nodes]; exact ht)]
    refine Runs.ite (fun _ => ?_) fun _ => Runs.pure ⟨h, hself⟩
    refine Runs.bind (h.iunlock hp hi) fun _ t ⟨hdt, _, hst⟩ => ?_
    refine Runs.bind ((conswait_runs n n t).stops fun e he => by rw [he]; exact ⟨nofun, nofun⟩)
      fun r u ⟨hic, hdisk⟩ => ?_
    obtain ⟨hdu, hsu⟩ := hdt.of_icache hdisk hic
    have hpu := hsu.points ip i (hst.points ip i hp)
    refine Runs.bind ((hdu.ilock Ly hpu).stops fun e he => ?_) fun _ w ⟨hdw, _, hsw, _, _⟩ =>
      Runs.pure ⟨hdw, (hst.trans hsu).trans hsw⟩
    obtain ⟨-, he⟩ | ⟨-, he⟩ := he
    · exact absurd he hi
    · rw [ht] at he
      exact absurd he (by decide)
  · refine (readi_node_runs Ly h.good hp (by rw [h.good.valid_eq hp]; exact hv) (by rw [h.nodes]; exact ht)
      hoff hn).post fun _ t hts => ?_
    rw [hts.2]
    exact ⟨h, hself⟩

/-- A call that reads the inode `i`, which it has locked. -/
structure Reading (sb : Superblock) (s₀ s : State) (N : Nat → Node) (T L : List Nat) (ip : Ptr) (i : Nat) :
    Prop where
  during : During sb s₀ s N T (i :: L)
  points : Points s ip i
  fresh : i ∉ L

theorem Reading.readi (Ly : Layout sb) (h : Reading sb s₀ s N T L ip i) (hoff : off < 2 ^ 32)
    (hn : n < 2 ^ 32) : Runs (Fs.readi sb ip off n) s (fun _ s' => Reading sb s₀ s' N T L ip i) Calm :=
  (h.during.readi Ly h.points h.fresh hoff hn).post fun _ _ ⟨hd, hs⟩ => ⟨hd, hs.points ip i h.points, h.fresh⟩

theorem Reading.loaduvm_from (Ly : Layout sb) (h : Reading sb s₀ s N T L ip i) (offset sz fuel k : Nat) :
    Runs (Fs.loaduvm_from sb ip offset sz fuel k) s (fun _ s' => Reading sb s₀ s' N T L ip i) Calm := by
  induction fuel generalizing s k with
  | zero => exact Runs.pure h
  | succ fuel ih =>
    refine Runs.ite (fun hk => ?_) fun _ => Runs.pure h
    refine Runs.bind (h.readi Ly (Nat.mod_lt _ (by decide)) ?_) fun _ t ht =>
      Runs.ite (fun _ => Runs.pure ht) fun _ => ih ht _
    split <;> simp only [PGSIZE] at * <;> omega

theorem Reading.exec_from (Ly : Layout sb) (h : Reading sb s₀ s N T L ip i) (m : Memory) (n k off sz : Nat)
    (hoff : off < 2 ^ 32) :
    Runs (Fs.exec_from sb ip m n k off sz) s (fun _ s' => Reading sb s₀ s' N T L ip i) Calm := by
  induction n generalizing s k off sz with
  | zero => exact Runs.pure h
  | succ n ih =>
    have hnext : (off + PROGHDR) % 2 ^ 32 < 2 ^ 32 := Nat.mod_lt _ (by decide)
    refine Runs.bind (h.readi Ly hoff (by decide)) fun r t ht => ?_
    match r with
    | none => exact Runs.pure ht
    | some ph =>
      refine Runs.ite (fun _ => Runs.pure ht) fun _ => Runs.ite (fun _ => ih ht _ _ _ hnext) fun _ =>
        Runs.ite (fun _ => Runs.pure ht) fun _ => Runs.ite (fun _ => Runs.pure ht) fun _ =>
        Runs.ite (fun _ => Runs.pure ht) fun _ => Runs.ite (fun _ => Runs.pure ht) fun _ => ?_
      exact Runs.bind (ht.loaduvm_from Ly _ _ _ _) fun _ u hu =>
        Runs.ite (fun _ => Runs.pure hu) fun _ => ih hu _ _ _ hnext

theorem Reading.exec_load (Ly : Layout sb) (h : Reading sb s₀ s N [i] [] ip i)
    (hk : (N i).nlink = 0 → 0 < (refs s₀ i).count) (m : Memory) :
    Runs (Fs.exec_load sb ip m) s (fun _ s' => During sb s₀ s' N [] []) Calm := by
  have hput : ∀ {t}, Reading sb s₀ t N [i] [] ip i → Runs (do iunlockput sb ip; Fs.end_op) t
      (fun _ s' => During sb s₀ s' N [] []) Calm := fun ht =>
    Runs.bind (ht.during.iunlockput ht.points ht.fresh fun h0 => .inl (hk h0)) fun _ _ hu =>
      hu.1.end_op.post fun _ _ hw => hw.1
  have hbad : ∀ {t}, Reading sb s₀ t N [i] [] ip i → Runs (exec_bad sb ip) t
      (fun _ s' => During sb s₀ s' N [] []) Calm := fun ht =>
    Runs.assoc (Runs.bind (hput ht) fun _ _ hu => Runs.pure hu)
  refine Runs.bind (h.readi Ly (by decide) (by decide)) fun r t ht => ?_
  match r with
  | none => exact hbad ht
  | some elf =>
    refine Runs.ite (fun _ => hbad ht) fun _ => Runs.ite (fun _ => hbad ht) fun _ =>
      Runs.ite (fun _ => hbad ht) fun _ => ?_
    refine Runs.bind (ht.exec_from Ly m _ _ _ _ (BitVec.isLt _)) fun r u hu => ?_
    match r with
    | none => exact hbad hu
    | some sz =>
      refine Runs.assoc (Runs.bind (hput hu) fun _ _ hw => ?_)
      exact Runs.ite (fun _ => Runs.pure hw) fun _ => Runs.ite (fun _ => Runs.pure hw) fun _ => Runs.pure hw

theorem sys_exec_runs (Ly : Layout sb) (hS : Sound sb s) (hc : Points s cwd c) (m : Memory)
    (path : Option (List Byte)) :
    Runs (sys_exec sb cwd m path) s (fun _ s' => During sb s s' (nodes sb s) [] []) (CallStop (nodes sb s)) := by
  cases path with
  | none => exact Runs.pure hS.start
  | some p =>
    refine Runs.bind (hS.begin_op.stops fun e he => ?_) fun _ s₁ ⟨hS₁, hd₁, hn₁, hc₁, hk₁, _⟩ => ?_
    · rw [he.1]
      exact ⟨by decide, nofun⟩
    have hlook := namei_runs Ly hS₁.steady_self (hk₁ cwd c hc) (hS₁.tree.live_type .root) p
    rw [hn₁, hc₁] at hlook
    refine Runs.bind (hlook.stops fun e he => hS.walkStop hc he) fun r t ⟨x, ⟨_, ht⟩, hr⟩ => ?_
    cases hw : resolve sb.ninodes (nodes sb s) (counts s) false c p with
    | missing =>
      rw [hw] at ht
      rw [hr, ht.1]
      exact Runs.bind ht.2.end_op fun _ u ⟨hu, _⟩ => Runs.pure (hd₁.rebase hu)
    | broken | full =>
      rw [hw] at ht
      exact ht.elim
    | found i last =>
      rw [hw] at ht
      obtain ⟨ip, nm, hx, -, hdt, hpt⟩ := ht
      rw [hr, hx]
      refine Runs.bind ((hdt.ilock Ly hpt).stops fun e he => ?_) fun _ u ⟨hdu, _, hsu, hi, h0⟩ => ?_
      · obtain ⟨-, he⟩ | ⟨rfl, he⟩ := he
        · cases he
        · refine ⟨by decide, fun _ hcl => ?_⟩
          exact (resolve_closed hcl (hS.tree.live_type .root) (hS.held c hc.count_pos)).2 i last hw he
      have hkept : (nodes sb s i).nlink = 0 → 0 < (refs s₁ i).count := fun hl => by
        have := hS₁.kept (i := i)
        rw [hn₁] at this
        exact this h0 hl
      exact (Reading.exec_load Ly ⟨hdu, hsu.points ip i hpt, hi⟩ hkept m).mono
        (fun _ _ hw => hd₁.rebase hw) fun e he => he.callStop

end Xv6.Fs
