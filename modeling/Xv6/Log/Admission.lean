import Xv6.Log.GroupCommit
import Xv6.Mkfs.Layout
import Mathlib.Algebra.BigOperators.Ring.Finset

/-! Log admission.

`begin_op` admits an operation when its reservation of `MAXOPBLOCKS` fits into
`LOGSIZE` beside what is logged and reserved already. `log_write` however stops at
`log.size - 1`, and `mkfs` makes the log `LOGSIZE` blocks long with the header
among them. So three operations that use their whole reservation are admitted
together and the last of them panics.

`tooBig_iff` says exactly when that happens. `Reserve` is the reservation
arithmetic, for operations that keep to a bound, `Reserve.reached` that every run
keeps it, and `nine_blocks` the bound under which the log as `mkfs` makes it is
large enough. -/
namespace Xv6.Log
open Lib

variable {P : Type} [Fintype P] [DecidableEq P]

/-! ### When `log_write` panics -/

omit [DecidableEq P] in
theorem card_logged {tr : List (Action P)} {s : State P} (hl : Lists tr s) (hi : Inv s)
    (hs : s.stop = none) : (logged tr).card = s.lh.length := by
  rw [← List.toFinset_card_of_nodup hi.nodup]
  congr 1
  ext b
  rw [List.mem_toFinset, hl (by rw [hs]; decide)]

/-- A run that ends in the panic ends with the call that finds the log full. -/
theorem tooBig_last {size : Nat} {tr : List (Action P)} {s : State P}
    (hr : run (step size) init tr = some s) : s.stop = some .tooBig →
    ∃ pre p b, tr = pre ++ [.log_write p b] ∧
      (LOGSIZE ≤ (logged pre).card ∨ size - 1 ≤ (logged pre).card) := by
  refine (run_invariant (I := fun tr s => (Inv s ∧ Lists tr s) ∧ (s.stop = some .tooBig →
    ∃ pre p b, tr = pre ++ [.log_write p b] ∧
      (LOGSIZE ≤ (logged pre).card ∨ size - 1 ≤ (logged pre).card))) ?_ ?_ hr).2
  · exact ⟨⟨init_inv, fun _ b => by simp [init, logged]⟩, fun h => by cases h⟩
  · rintro tr s a s' ⟨⟨hi, hl⟩, _⟩ hs
    refine ⟨⟨hi.step hs, hl.step hs⟩, fun hbig => ?_⟩
    obtain ⟨hstop, hs⟩ := step_stepped hs
    have hcard := card_logged hl hi hstop
    cases hs with
    | tooBig p b _ hfull => exact ⟨tr, p, b, rfl, by rw [hcard]; exact hfull⟩
    | outside | overrun | again => cases hbig
    | _ => exact absurd (show s.stop = some .tooBig from hbig) (by rw [hstop]; decide)

omit [Fintype P] in
/-- Nothing follows a stop. -/
theorem run_stopped {size : Nat} {s s' : State P} {as : List (Action P)} (hs : s.stop ≠ none)
    (hr : run (step size) s as = some s') : s' = s := by
  cases as with
  | nil => rw [run, Option.some.injEq] at hr; exact hr.symm
  | cons a as =>
    obtain ⟨t, ht, _⟩ := run_cons.mp hr
    exact absurd (step_stepped ht).1 hs

/-- On a disk made by `mkfs`, a run is free of the panic exactly when every
`log_write`, absorbed or not, is called with fewer than `LOGSIZE - 1` blocks
logged since the last commit. -/
theorem tooBig_iff (tr : List (Action P)) (s : State P)
    (hr : run (step Mkfs.sb.nlog) init tr = some s) :
    s.stop ≠ some .tooBig ↔
      ∀ pre p b post, tr = pre ++ .log_write p b :: post → (logged pre).card < LOGSIZE - 1 := by
  constructor
  · intro hnot pre p b post he
    rw [he] at hr
    obtain ⟨t, ht, hr⟩ := run_append.mp hr
    obtain ⟨u, hu, hr⟩ := run_cons.mp hr
    by_contra hge
    have hcard := card_logged (Lists.reached ht) (Inv.reached ht) (step_stepped hu).1
    have hfull : LOGSIZE ≤ t.lh.length ∨ Mkfs.sb.nlog - 1 ≤ t.lh.length := .inr (by
      rw [← hcard]
      exact Nat.not_lt.mp hge)
    cases (step_stepped hu).2 with
    | tooBig => exact hnot (by rw [run_stopped (fun h => by cases h) hr])
    | outside _ _ hp ho =>
      have := (Inv.reached ht).outstanding_pos (p := p) (by rw [hp]; rfl)
      omega
    | accept _ _ _ h1 h2 => exact hfull.elim (by omega) (by omega)
  · intro hall hbig
    obtain ⟨pre, p, b, he, hfull⟩ := tooBig_last hr hbig
    have hlt := hall pre p b [] he
    have hnlog : Mkfs.sb.nlog = LOGSIZE := rfl
    rw [hnlog] at hfull
    exact hfull.elim (by omega) (by omega)

/-- The first block of an operation that has the log to itself. -/
theorem tooBig_iff_first_block : ∃ s : State (Fin 1),
    run (step Mkfs.sb.nlog) init [.begin_op 0, .log_write 0 5] = some s ∧
    s.stop ≠ some .tooBig ∧ (logged ([.begin_op 0] : List (Action (Fin 1)))).card < LOGSIZE - 1 :=
  ⟨_, rfl, by decide, (tooBig_iff _ _ rfl).mp (by decide) [.begin_op 0] 0 5 [] rfl⟩

/-! ### The reservation -/

/-- What an action does to the set of blocks `p`'s operation has logged. -/
def opNext (p : P) (bs : Finset Nat) : Action P → Finset Nat
  | .begin_op q => if q = p then ∅ else bs
  | .log_write q b => if q = p then insert b bs else bs
  | _ => bs

/-- The distinct blocks that the current, or last, operation of `p` has logged. -/
def opBlocks (p : P) (tr : List (Action P)) : Finset Nat := tr.foldl (opNext p) ∅

/-- Every operation logs at most `k` distinct blocks. -/
def Within (k : Nat) (tr : List (Action P)) : Prop :=
  ∀ pre ∈ tr.inits, ∀ p, (opBlocks p pre).card ≤ k

instance (k : Nat) (tr : List (Action P)) : Decidable (Within k tr) :=
  inferInstanceAs (Decidable (∀ pre ∈ tr.inits, ∀ p, (opBlocks p pre).card ≤ k))

/-- Three operations, each of `MAXOPBLOCKS` blocks of its own. -/
def threeOperations : List (Action (Fin 3)) :=
  [.begin_op 0, .begin_op 1, .begin_op 2] ++
    (List.range 10).flatMap (fun b => [.log_write 0 b, .absorb 0 b]) ++
    (List.range 10).flatMap (fun b => [.log_write 1 (10 + b), .absorb 1 (10 + b)]) ++
    (List.range 9).flatMap (fun b => [.log_write 2 (20 + b), .absorb 2 (20 + b)])

/-- The tenth block of the third operation does not fit, nor does a block already
in the log. -/
theorem three_operations_too_big :
    (Within MAXOPBLOCKS (threeOperations ++ [.log_write 2 29]) ∧
      ∃ s, run (step Mkfs.sb.nlog) init (threeOperations ++ [.log_write 2 29]) = some s ∧
        s.stop = some .tooBig) ∧
    (Within MAXOPBLOCKS (threeOperations ++ [.log_write 2 0]) ∧
      ∃ s, run (step Mkfs.sb.nlog) init (threeOperations ++ [.log_write 2 0]) = some s ∧
        0 ∈ s.lh ∧ s.stop = some .tooBig) := by
  decide +kernel

/-! ### Operations within a bound -/

omit [Fintype P] in
theorem opBlocks_snoc (p : P) (tr : List (Action P)) (a : Action P) :
    opBlocks p (tr ++ [a]) = opNext p (opBlocks p tr) a := by
  rw [opBlocks, List.foldl_append]
  rfl

omit [Fintype P] in
theorem Within.last {k : Nat} {tr : List (Action P)} (h : Within k tr) (p : P) :
    (opBlocks p tr).card ≤ k :=
  h tr ((List.mem_inits _ _).mpr (List.prefix_refl tr)) p

omit [Fintype P] in
theorem Within.init {k : Nat} {tr : List (Action P)} {a : Action P} (h : Within k (tr ++ [a])) :
    Within k tr := fun pre hpre =>
  h pre ((List.mem_inits _ _).mpr (((List.mem_inits _ _).mp hpre).trans (List.prefix_append tr [a])))

/-- What is left of the reservation of `p`'s operation: it pays for the blocks that are in the log. -/
def owed (tr : List (Action P)) (s : State P) (p : P) : Nat :=
  if (s.pc p).inOp then MAXOPBLOCKS - ((opBlocks p tr).filter (· ∈ s.lh)).card else 0

/-- The reservation invariant, for operations of at most `k` blocks. -/
structure Reserve (k : Nat) (tr : List (Action P)) (s : State P) : Prop where
  writes : ∀ p b, s.pc p = .writing b → b ∈ opBlocks p tr
  room : s.lh.length + ∑ p, owed tr s p ≤ LOGSIZE
  -- an operation that ends without its last block leaves that block to the others
  spare : k < MAXOPBLOCKS → s.outstanding ≤ 1 → s.lh.length + ∑ p, owed tr s p < LOGSIZE

section Owed
variable {tr tr' : List (Action P)} {s s' : State P} {p : P}
omit [Fintype P]

theorem owed_le_max (tr : List (Action P)) (s : State P) (p : P) :
    owed tr s p ≤ MAXOPBLOCKS * (s.pc p).inOp.toNat := by
  rw [owed]
  split
  · rename_i hp
    rw [hp, Bool.toNat_true, Nat.mul_one]
    exact Nat.sub_le _ _
  · exact Nat.zero_le _

/-- An operation that can log another block owes it. -/
theorem inOp_le_owed (h : (opBlocks p tr).card < MAXOPBLOCKS) : (s.pc p).inOp.toNat ≤ owed tr s p := by
  have hle := Finset.card_filter_le (opBlocks p tr) (· ∈ s.lh)
  rw [owed]
  split
  · exact (Bool.toNat_le _).trans (by omega)
  · rename_i hp
    simp [hp]

theorem owed_le (hin : (s'.pc p).inOp = true → (s.pc p).inOp = true ∧ opBlocks p tr ⊆ opBlocks p tr')
    (hlh : ∀ b ∈ s.lh, b ∈ s'.lh) : owed tr' s' p ≤ owed tr s p := by
  by_cases hp : (s'.pc p).inOp = true
  · obtain ⟨hq, hops⟩ := hin hp
    rw [owed, owed, if_pos hp, if_pos hq]
    refine Nat.sub_le_sub_left (Finset.card_le_card fun b hb => ?_) _
    obtain ⟨hb, hl⟩ := Finset.mem_filter.mp hb
    exact Finset.mem_filter.mpr ⟨hops hb, hlh b hl⟩
  · rw [owed, if_neg hp]
    exact Nat.zero_le _

end Owed

namespace Reserve
variable {k : Nat} {tr tr' : List (Action P)} {s s' : State P} {a : Action P}

/-- No operation begins and no block is recorded: what is owed does not grow. -/
theorem keep (h : Reserve k tr s) (hlh : s'.lh = s.lh)
    (hin : ∀ q, (s'.pc q).inOp = true → (s.pc q).inOp = true ∧ opBlocks q tr ⊆ opBlocks q tr')
    (hw : ∀ q b, s'.pc q = .writing b → b ∈ opBlocks q tr')
    (hout : k < MAXOPBLOCKS → s'.outstanding ≤ 1 →
      s.outstanding ≤ 1 ∨ ∃ p, 1 ≤ owed tr s p ∧ (s'.pc p).inOp = false) : Reserve k tr' s' := by
  have hle : ∀ q, owed tr' s' q ≤ owed tr s q := fun q => owed_le (hin q) fun b hb => by rw [hlh]; exact hb
  have hsum := Finset.sum_le_sum fun q (_ : q ∈ Finset.univ) => hle q
  refine ⟨hw, ?_, fun hk ho => ?_⟩ <;> rw [hlh]
  · exact (Nat.add_le_add_left hsum _).trans h.room
  · rcases hout hk ho with ho | ⟨p, hp, hp'⟩
    · exact Nat.lt_of_le_of_lt (Nat.add_le_add_left hsum _) (h.spare hk ho)
    · have hchange := sum_le_change _ _ p fun q _ => hle q
      have hroom := h.room
      have hgone : owed tr' s' p = 0 := if_neg (by rw [hp']; decide)
      omega

/-- Processes leave operations, or stay as they are. -/
theorem shrink (h : Reserve k tr s) (hlh : s'.lh = s.lh)
    (hkeep : ∀ q, (s'.pc q).inOp = true → s'.pc q = s.pc q ∧ opBlocks q tr' = opBlocks q tr)
    (hout : k < MAXOPBLOCKS → s'.outstanding ≤ 1 →
      s.outstanding ≤ 1 ∨ ∃ p, 1 ≤ owed tr s p ∧ (s'.pc p).inOp = false) : Reserve k tr' s' := by
  refine h.keep hlh (fun q hq => ?_) (fun q b hq => ?_) hout
  · obtain ⟨hpc, hops⟩ := hkeep q hq
    exact ⟨by rw [← hpc]; exact hq, hops.ge⟩
  · obtain ⟨hpc, hops⟩ := hkeep q (by rw [hq]; rfl)
    rw [hops]
    exact h.writes q b (hpc.symm.trans hq)

theorem enter (h : Reserve k tr s) (hi : Inv s) (p : P) (hp : s.pc p = .out ∨ s.pc p = .woken)
    (hc : s.committing = false) (hf : ¬ s.Full) :
    Reserve k (tr ++ [.begin_op p]) ({s with outstanding := s.outstanding + 1}.goto p .op) := by
  have hsum : ∑ q, owed (tr ++ [.begin_op p]) (s.goto p .op) q ≤ MAXOPBLOCKS * (s.outstanding + 1) := by
    refine (Finset.sum_le_sum fun q _ => owed_le_max _ _ q).trans ?_
    have hcount := (hi.enter p hp hc).count
    rw [← Finset.mul_sum]
    exact Nat.le_of_eq (by rw [show s.outstanding + 1 = _ from hcount]; rfl)
  refine ⟨fun q b hq => ?_, ?_, fun _ ho => ?_⟩
  · rcases goto_elim (· = .writing b) hq with ⟨_, hq⟩ | ⟨hne, hq⟩
    · cases hq
    · rw [opBlocks_snoc, opNext, if_neg (Ne.symm hne)]
      exact h.writes q b hq
  · rw [State.Full] at hf
    show s.lh.length + _ ≤ _
    refine (Nat.add_le_add_left hsum _).trans ?_
    rw [Nat.mul_comm]
    exact Nat.not_lt.mp hf
  · have h0 : s.outstanding = 0 := by
      have : s.outstanding + 1 ≤ 1 := ho
      omega
    have hlen : s.lh.length = 0 := by rw [hi.empty hc h0]; rfl
    show s.lh.length + _ < _
    refine Nat.lt_of_le_of_lt (Nat.add_le_add_left hsum _) ?_
    rw [hlen, h0]
    decide

theorem accept (h : Reserve k tr s) (p : P) (b : Nat) (hp : s.pc p = .op) :
    Reserve k (tr ++ [.log_write p b]) (s.goto p (.writing b)) := by
  have hops : ∀ q, opBlocks q tr ⊆ opBlocks q (tr ++ [.log_write p b]) := fun q => by
    rw [opBlocks_snoc, opNext]
    split
    · exact Finset.subset_insert _ _
    · exact subset_rfl
  refine h.keep rfl (fun q hq => ⟨?_, hops q⟩) (fun q c hq => ?_) fun _ ho => .inl ho
  · rcases goto_elim (fun c => c.inOp = true) hq with ⟨rfl, _⟩ | ⟨_, hq⟩
    · rw [hp]
      rfl
    · exact hq
  · rcases goto_elim (· = .writing c) hq with ⟨rfl, he⟩ | ⟨_, hq⟩
    · cases he
      rw [opBlocks_snoc, opNext, if_pos rfl]
      exact Finset.mem_insert_self _ _
    · exact hops q (h.writes q c hq)

theorem absorb (h : Reserve k tr s) (p : P) (b : Nat) (hp : s.pc p = .writing b)
    (hk : (opBlocks p tr).card ≤ MAXOPBLOCKS) :
    Reserve k (tr ++ [.absorb p b]) ({s with lh := record s.lh b}.goto p .op) := by
  have hops : ∀ q, opBlocks q (tr ++ [.absorb p b]) = opBlocks q tr := fun q => opBlocks_snoc q tr _
  generalize hs' : ({s with lh := record s.lh b} : State P).goto p .op = s'
  have hlh : s'.lh = record s.lh b := by rw [← hs']; rfl
  have hout : s'.outstanding = s.outstanding := by rw [← hs']; rfl
  have hpc : ∀ q, q ≠ p → s'.pc q = s.pc q := fun q hq => by rw [← hs', goto_pc, if_neg hq]
  have hpo : s'.pc p = .op := by rw [← hs', goto_pc, if_pos rfl]
  have hchange := sum_le_change (owed tr s) (owed (tr ++ [.absorb p b]) s') p fun q hq =>
    owed_le (fun hin => ⟨by rw [← hpc q hq]; exact hin, (hops q).ge⟩) fun c hc => by
      rw [hlh, mem_record]
      exact .inr hc
  -- what the log grows by was owed by `p`
  have htotal : s'.lh.length + ∑ q, owed (tr ++ [.absorb p b]) s' q ≤
      s.lh.length + ∑ q, owed tr s q := by
    have hb := h.writes p b hp
    have h1 : owed (tr ++ [.absorb p b]) s' p =
        MAXOPBLOCKS - (insert b ((opBlocks p tr).filter (· ∈ s.lh))).card := by
      rw [owed, hpo, hops, hlh]
      simp only [mem_record, Finset.filter_or, Finset.filter_eq', if_pos hb, Finset.insert_eq]
      rfl
    have h2 : owed tr s p = MAXOPBLOCKS - ((opBlocks p tr).filter (· ∈ s.lh)).card := by
      rw [owed, hp]
      rfl
    have hmem : b ∈ (opBlocks p tr).filter (· ∈ s.lh) ↔ b ∈ s.lh :=
      Finset.mem_filter.trans (and_iff_right hb)
    have hle := Finset.card_le_card (Finset.insert_subset hb (Finset.filter_subset (· ∈ s.lh) _))
    generalize (opBlocks p tr).filter (· ∈ s.lh) = used at h1 h2 hmem hle
    rw [hlh, record_eq]
    by_cases hl : b ∈ s.lh
    · rw [Finset.insert_eq_of_mem (hmem.mpr hl)] at h1
      rw [if_pos hl]
      omega
    · rw [Finset.card_insert_of_notMem (mt hmem.mp hl)] at h1 hle
      rw [if_neg hl, List.length_append, List.length_singleton]
      omega
  refine ⟨fun q c hq => ?_, htotal.trans h.room,
    fun hlt ho => Nat.lt_of_le_of_lt htotal (h.spare hlt (by rw [← hout]; exact ho))⟩
  rw [hops]
  by_cases hqp : q = p
  · rw [hqp, hpo] at hq
    cases hq
  · exact h.writes q c (by rw [← hpc q hqp]; exact hq)

/-- A commit clears the log while there are no operations. -/
theorem clear (hi : Inv s) (p : P) (hp : s.pc p = .written) :
    Reserve k (tr ++ [.clear p]) ({s with lh := []}.goto p .cleared) := by
  have hno : ∀ q, ((State.goto {s with lh := []} p .cleared).pc q).inOp = false := fun q => by
    rw [goto_pc]
    by_cases hq : q = p
    · rw [if_pos hq]
      rfl
    · rw [if_neg hq]
      cases hop : (s.pc q).inOp
      · rfl
      · exact (hi.not_inCommit hop p (by rw [hp]; rfl)).elim
  have hsum : ∑ q, owed (tr ++ [.clear p]) ({s with lh := []}.goto p .cleared) q = 0 :=
    Finset.sum_eq_zero fun q _ => if_neg (by rw [hno q]; decide)
  refine ⟨fun q b hq => ?_, ?_, fun _ _ => ?_⟩
  · have := hno q
    rw [hq] at this
    cases this
  · rw [hsum]
    exact Nat.zero_le _
  · rw [hsum]
    exact Nat.zero_lt_succ _

theorem step {size : Nat} (h : Reserve k tr s) (hi : Inv s) (hkm : k ≤ MAXOPBLOCKS)
    (hk : ∀ p, (opBlocks p tr).card ≤ k) (hs : Log.step size s a = some s') (hgo : s'.stop = none) :
    Reserve k (tr ++ [a]) s' := by
  -- a process that is in an operation afterwards has not moved
  have hmove : ∀ (t : State P) (q r : P) (c : Pc), t.pc = s.pc ∨ t.pc = s.wakeup.pc →
      c.inOp = false → ((t.goto q c).pc r).inOp = true → r ≠ q ∧ (t.goto q c).pc r = s.pc r := by
    intro t q r c ht hc hr
    rw [goto_pc] at hr ⊢
    by_cases hrq : r = q
    · rw [if_pos hrq, hc] at hr
      cases hr
    · rw [if_neg hrq] at hr ⊢
      refine ⟨hrq, ?_⟩
      rcases ht with ht | ht
      · rw [ht]
      · rw [ht, wakeup_pc] at hr ⊢
        by_cases hsl : s.pc r = .sleeping
        · rw [if_pos hsl] at hr
          cases hr
        · rw [if_neg hsl]
  cases (step_stepped hs).2 with
  | sleep p hp =>
    refine h.shrink rfl (fun q hq => ?_) fun _ ho => .inl ho
    obtain ⟨hne, hpc⟩ := hmove s p q _ (.inl rfl) rfl hq
    exact ⟨hpc, by rw [opBlocks_snoc, opNext, if_neg (Ne.symm hne)]⟩
  | enter p hp hc hf => exact h.enter hi p hp hc hf
  | tooBig | outside | overrun | again => cases hgo
  | accept p b hp => exact h.accept p b hp
  | absorb p b hp => exact h.absorb p b hp ((hk p).trans hkm)
  | last p hp hc ho =>
    exact h.shrink rfl (fun q hq => ⟨(hmove _ p q _ (.inl rfl) rfl hq).2, opBlocks_snoc q tr _⟩)
      fun _ _ => .inl (by omega)
  | leave p hp =>
    refine h.shrink rfl (fun q hq => ⟨(hmove _ p q _ (.inr rfl) rfl hq).2, opBlocks_snoc q tr _⟩)
      fun hlt _ => .inr ⟨p, ?_, by rw [goto_pc, if_pos rfl]; rfl⟩
    have hone := inOp_le_owed (s := s) ((hk p).trans_lt hlt)
    rwa [hp] at hone
  | commit p | kill p =>
    exact h.shrink rfl (fun q hq => ⟨(hmove s p q _ (.inl rfl) rfl hq).2, opBlocks_snoc q tr _⟩)
      fun _ ho => .inl ho
  | done p =>
    exact h.shrink rfl (fun q hq => ⟨(hmove _ p q _ (.inr rfl) rfl hq).2, opBlocks_snoc q tr _⟩)
      fun _ ho => .inl ho
  | clear p hp => exact clear hi p hp

/-- The reservations in every state that a run within the bound reaches. -/
theorem reached {size : Nat} (hkm : k ≤ MAXOPBLOCKS) (hw : Within k tr)
    (hr : run (Log.step size) init tr = some s) (hgo : s.stop = none) : Reserve k tr s := by
  refine (run_invariant (I := fun tr s => Inv s ∧ (Within k tr → s.stop = none → Reserve k tr s))
    ⟨init_inv, fun _ _ => ?_⟩ ?_ hr).2 hw hgo
  · refine ⟨fun _ _ h => ?_, ?_, fun _ _ => ?_⟩
    · cases h
    all_goals simp [init, owed, Pc.inOp]
  · rintro tr s a s' ⟨hi, h⟩ hs
    exact ⟨hi.step hs, fun hw hgo =>
      (h hw.init (step_stepped hs).1).step hi hkm hw.init.last hs hgo⟩

end Reserve

/-- Operations of at most nine blocks never find the log of `mkfs` full. -/
theorem nine_blocks {tr : List (Action P)} {s : State P} (hw : Within (MAXOPBLOCKS - 1) tr)
    (hr : run (step Mkfs.sb.nlog) init tr = some s) : s.stop ≠ some .tooBig := by
  intro hbig
  obtain ⟨pre, p, b, rfl, hfull⟩ := tooBig_last hr hbig
  obtain ⟨t, ht, hr⟩ := run_append.mp hr
  obtain ⟨hgo, hs⟩ := step_stepped (run_singleton.mp hr)
  have hi := Inv.reached ht
  have h := Reserve.reached (Nat.sub_le _ _) hw.init ht hgo
  rw [card_logged (Lists.reached ht) hi hgo] at hfull
  have hp : (t.pc p).inOp = true := by
    cases hs with
    | tooBig _ _ hp | outside _ _ hp | accept _ _ hp => rw [hp]; rfl
  -- every operation in progress has a block left
  have hle : t.outstanding ≤ ∑ q, owed pre t q := by
    rw [hi.count]
    exact Finset.sum_le_sum fun q _ => inOp_le_owed ((hw.init.last q).trans_lt (by decide))
  have hpos := hi.outstanding_pos hp
  have hroom := h.room
  have hspare := h.spare (by decide)
  have hnlog : Mkfs.sb.nlog = LOGSIZE := rfl
  rw [hnlog] at hfull
  simp only [LOGSIZE] at hroom hspare hfull
  omega

end Xv6.Log
