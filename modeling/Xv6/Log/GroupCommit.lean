import Xv6.Log.Protocol

/-! Group commit: no operation is split or mixed.

`Inv` holds in every state the log's code reaches. It says that `log.outstanding`
counts the operations in progress, that a commit runs only when there are none,
that `log.lh` lists each block once, and that a process asleep in `begin_op` has a
reason to be. `group_commit` reads the protocol's guarantees off it. -/
namespace Xv6.Log
open Lib List

variable {P : Type} [Fintype P]

/-- How many processes are in an operation. -/
def inOpCount (s : State P) : Nat := ∑ q, (s.pc q).inOp.toNat

structure Inv (s : State P) : Prop where
  count : s.outstanding = inOpCount s
  quiet : s.committing = true → s.outstanding = 0
  owner : ∀ q, (s.pc q).inCommit = true → s.committing = true
  alone : ∀ p q, (s.pc p).inCommit = true → (s.pc q).inCommit = true → p = q
  cleared : ∀ q, s.pc q = .cleared → s.lh = []
  empty : s.committing = false → s.outstanding = 0 → s.lh = []
  nodup : s.lh.Nodup
  asleep : ∀ q, s.pc q = .sleeping → s.committing = true ∨ s.Full

theorem init_inv : Inv (init : State P) where
  count := by simp [init, inOpCount, Pc.inOp]
  quiet := fun h => by cases h
  owner := fun q h => by cases h
  alone := fun p q h => by cases h
  cleared := fun q h => by cases h
  empty := fun _ _ => rfl
  nodup := nodup_nil
  asleep := fun q h => by cases h

theorem inOpCount_wakeup (s : State P) : inOpCount s.wakeup = inOpCount s := by
  unfold inOpCount
  simp only [wakeup_inOp]

namespace Inv
variable {s s' : State P}

theorem stopped (h : Inv s) (e : Option Stop) : Inv {s with stop := e} :=
  ⟨h.count, h.quiet, h.owner, h.alone, h.cleared, h.empty, h.nodup, h.asleep⟩

variable [DecidableEq P]

theorem outstanding_pos (h : Inv s) (hp : (s.pc p).inOp = true) : 0 < s.outstanding := by
  have hle := le_sum (fun q => (s.pc q).inOp.toNat) p
  have hc := h.count
  rw [inOpCount] at hc
  simp only [hp, Bool.toNat_true] at hle
  omega

/-- While an operation is in progress nothing commits. -/
theorem no_commit (h : Inv s) (hp : (s.pc p).inOp = true) : s.committing = false := by
  have hpos := h.outstanding_pos hp
  cases hc : s.committing
  · rfl
  · have := h.quiet hc
    omega

theorem not_inCommit (h : Inv s) (hp : (s.pc p).inOp = true) (q : P)
    (hq : (s.pc q).inCommit = true) : False := by
  have := h.owner q hq
  rw [h.no_commit hp] at this
  cases this

end Inv

/-! ### The steps keep the invariant -/

variable [DecidableEq P]

theorem inOpCount_goto (s : State P) (p : P) (c : Pc) :
    inOpCount (s.goto p c) + (s.pc p).inOp.toNat = inOpCount s + c.inOp.toNat := by
  have h := sum_change (fun q => (s.pc q).inOp.toNat) (fun q => ((s.goto p c).pc q).inOp.toNat) p
    fun q hq => by simp only [goto_pc, if_neg hq]
  simp only [goto_pc, if_true] at h
  simpa only [inOpCount, goto_pc] using h

namespace Inv
variable {s s' : State P} {size : Nat} {a : Action P}

/-- A process that enters or leaves neither an operation nor a commit. -/
theorem move (h : Inv s) (p : P) (c : Pc) (hop : c.inOp = (s.pc p).inOp)
    (hcom : c.inCommit = (s.pc p).inCommit) (hcl : c ≠ .cleared)
    (hsl : c = .sleeping → s.committing = true ∨ s.Full) : Inv (s.goto p c) where
  count := by
    have := inOpCount_goto s p c
    rw [hop] at this
    show s.outstanding = _
    rw [h.count]
    omega
  quiet := h.quiet
  owner := fun q hq => by
    rcases goto_elim (fun c => c.inCommit = true) hq with ⟨rfl, hc⟩ | ⟨_, hq⟩
    · exact h.owner q (by rw [← hcom]; exact hc)
    · exact h.owner q hq
  alone := fun q r hq hr => by
    have hold : ∀ q, ((s.goto p c).pc q).inCommit = true → (s.pc q).inCommit = true := fun q hq => by
      rcases goto_elim (fun c => c.inCommit = true) hq with ⟨rfl, hc⟩ | ⟨_, hq⟩
      · rw [← hcom]
        exact hc
      · exact hq
    exact h.alone q r (hold q hq) (hold r hr)
  cleared := fun q hq => by
    rcases goto_elim (· = .cleared) hq with ⟨_, hc⟩ | ⟨_, hq⟩
    · exact absurd hc hcl
    · exact h.cleared q hq
  empty := h.empty
  nodup := h.nodup
  asleep := fun q hq => by
    rcases goto_elim (· = .sleeping) hq with ⟨_, hc⟩ | ⟨_, hq⟩
    · exact hsl hc
    · exact h.asleep q hq

/-- An operation is admitted: sleepers that waited for space still have to. -/
theorem enter (h : Inv s) (p : P) (hp : s.pc p = .out ∨ s.pc p = .woken)
    (hc : s.committing = false) : Inv ({s with outstanding := s.outstanding + 1}.goto p .op) := by
  have hpc : (s.pc p).inOp = false := by rcases hp with hp | hp <;> rw [hp] <;> rfl
  have hcount := inOpCount_goto s p .op
  rw [hpc] at hcount
  have hcom : ∀ q, ((s.goto p .op).pc q).inCommit = true → False := fun q hq => by
    rcases goto_elim (fun c => c.inCommit = true) hq with ⟨_, hq⟩ | ⟨_, hq⟩
    · cases hq
    · rw [h.owner q hq] at hc
      cases hc
  refine ⟨?_, fun h' => ?_, fun q hq => (hcom q hq).elim, fun q _ hq => (hcom q hq).elim,
    fun q hq => ?_, fun _ h' => ?_, h.nodup, fun q hq => ?_⟩
  · show s.outstanding + 1 = inOpCount (s.goto p .op)
    rw [h.count]
    simpa [Pc.inOp] using hcount.symm
  · exact absurd (show s.committing = true from h') (by rw [hc]; decide)
  · exact (hcom q (by rw [show (s.goto p .op).pc q = .cleared from hq]; rfl)).elim
  · exact absurd (show s.outstanding + 1 = 0 from h') (by omega)
  · rcases goto_elim (s := s) (· = .sleeping) hq with ⟨_, hq⟩ | ⟨_, hq⟩
    · cases hq
    · refine (h.asleep q hq).imp_right fun hf => ?_
      simp only [State.Full, State.goto, LOGSIZE, MAXOPBLOCKS] at hf ⊢
      omega

/-- A block is recorded: space only gets scarcer. -/
theorem absorb (h : Inv s) (p : P) (b : Nat) (hp : s.pc p = .writing b) :
    Inv ({s with lh := record s.lh b}.goto p .op) := by
  have hop : (s.pc p).inOp = true := by rw [hp]; rfl
  have hm := h.move p .op (by rw [hp]; rfl) (by rw [hp]; rfl) (by decide) (fun he => by cases he)
  have hlen := le_length_record s.lh b
  refine ⟨hm.count, hm.quiet, hm.owner, hm.alone, fun q hq => ?_, fun _ h' => ?_,
    nodup_record h.nodup b, fun q hq => ?_⟩
  · have hcom : ((s.goto p .op).pc q).inCommit = true := by
      rw [show (s.goto p .op).pc q = .cleared from hq]
      rfl
    have hself : ((s.goto p .op).pc p).inOp = true := by rw [goto_pc, if_pos rfl]; rfl
    exact (hm.not_inCommit hself q hcom).elim
  · have := h.outstanding_pos hop
    exact absurd (show s.outstanding = 0 from h') (by omega)
  · refine (hm.asleep q hq).imp_right fun hf => ?_
    simp only [State.Full, State.goto, LOGSIZE, MAXOPBLOCKS] at hf ⊢
    omega

/-- The last operation ends: its process takes the commit over, and sleepers now
wait for that. -/
theorem last (h : Inv s) (p : P) (hp : s.pc p = .op) (ho : s.outstanding - 1 = 0) :
    Inv ({s with outstanding := s.outstanding - 1, committing := true}.goto p .committing) := by
  have hop : (s.pc p).inOp = true := by rw [hp]; rfl
  have hcount := inOpCount_goto s p .committing
  rw [hop] at hcount
  have hcom : ∀ q, ((s.goto p .committing).pc q).inCommit = true → q = p := fun q hq => by
    rcases goto_elim (fun c => c.inCommit = true) hq with ⟨rfl, _⟩ | ⟨_, hq⟩
    · rfl
    · exact (h.not_inCommit hop q hq).elim
  refine ⟨?_, fun _ => ho, fun _ _ => rfl, fun q r hq hr => (hcom q hq).trans (hcom r hr).symm,
    fun q hq => ?_, fun h' => ?_, h.nodup, fun _ _ => .inl rfl⟩
  · show s.outstanding - 1 = inOpCount (s.goto p .committing)
    have := h.count
    simp only [Pc.inOp, Bool.toNat_true, Bool.toNat_false] at hcount
    omega
  · rcases goto_elim (s := s) (· = .cleared) hq with ⟨_, hq⟩ | ⟨_, hq⟩
    · cases hq
    · exact h.cleared q hq
  · cases h'

/-- `commit` empties the log before it ends. -/
theorem clear (h : Inv s) (p : P) (hp : s.pc p = .written) :
    Inv ({s with lh := []}.goto p .cleared) := by
  have hcom : s.committing = true := h.owner p (by rw [hp]; rfl)
  have hcount := inOpCount_goto s p .cleared
  rw [hp] at hcount
  refine ⟨?_, h.quiet, fun _ _ => hcom, fun q r hq hr => ?_, fun _ _ => rfl, fun _ _ => rfl,
    nodup_nil, fun _ _ => .inl hcom⟩
  · show s.outstanding = inOpCount (s.goto p .cleared)
    have := h.count
    simp only [Pc.inOp, Bool.toNat_false] at hcount
    omega
  · have hin : ∀ q, ((s.goto p .cleared).pc q).inCommit = true → q = p := fun q hq => by
      rcases goto_elim (fun c => c.inCommit = true) hq with ⟨rfl, _⟩ | ⟨_, hq⟩
      · rfl
      · exact h.alone q p hq (by rw [hp]; rfl)
    exact (hin q hq).trans (hin r hr).symm

/-- An end of `end_op` that wakes everyone: the process is out, no commit is on,
and the log is empty unless operations go on. -/
theorem awake (h : Inv s) (p : P) (out : Nat)
    (hcount : out + (s.pc p).inOp.toNat = s.outstanding)
    (hcom : ∀ q, q ≠ p → (s.pc q).inCommit = false) (hempty : out = 0 → s.lh = []) :
    Inv (({s with outstanding := out, committing := false} : State P).wakeup.goto p .out) := by
  have hsum := inOpCount_goto s.wakeup p .out
  rw [wakeup_inOp, inOpCount_wakeup] at hsum
  have hno : ∀ q, ((s.wakeup.goto p .out).pc q).inCommit = true → False := fun q hq => by
    rcases goto_elim (fun c => c.inCommit = true) hq with ⟨_, hq⟩ | ⟨hne, hq⟩
    · cases hq
    · rw [wakeup_inCommit, hcom q hne] at hq
      cases hq
  refine ⟨?_, fun hc => ?_, fun q hq => (hno q hq).elim, fun q _ hq => (hno q hq).elim,
    fun q hq => ?_, fun _ => hempty, h.nodup, fun q hq => ?_⟩
  · show out = inOpCount (s.wakeup.goto p .out)
    have := h.count
    rw [show Pc.out.inOp.toNat = 0 from rfl] at hsum
    omega
  · cases hc
  · exact (hno q (by rw [show (s.wakeup.goto p .out).pc q = .cleared from hq]; rfl)).elim
  · rcases goto_elim (s := s.wakeup) (· = .sleeping) hq with ⟨_, hq⟩ | ⟨_, hq⟩
    · cases hq
    · exact absurd hq (wakeup_awake _ q)

theorem step (h : Inv s) (hs : Log.step size s a = some s') : Inv s' := by
  cases (step_stepped hs).2 with
  | sleep p hp hw =>
    rcases hp with hp | hp <;>
      exact h.move p .sleeping (by rw [hp]; rfl) (by rw [hp]; rfl) (by decide) fun _ => hw
  | enter p hp hc _ => exact h.enter p hp hc
  | tooBig | outside | overrun | again => exact h.stopped _
  | accept p b hp =>
    exact h.move p (.writing b) (by rw [hp]; rfl) (by rw [hp]; rfl) (fun he => by cases he)
      fun he => by cases he
  | absorb p b hp => exact h.absorb p b hp
  | last p hp _ ho => exact h.last p hp ho
  | leave p hp hc ho =>
    have hop : (s.pc p).inOp = true := by rw [hp]; rfl
    have hpos := h.outstanding_pos hop
    have := h.awake p (s.outstanding - 1) (by rw [hop, Bool.toNat_true]; omega)
      (fun q _ => by simpa using h.not_inCommit hop q) (fun h0 => absurd h0 ho)
    rwa [← hc] at this
  | commit p hp =>
    exact h.move p .written (by rw [hp]; rfl) (by rw [hp]; rfl) (by decide) fun he => by cases he
  | clear p hp => exact h.clear p hp
  | done p hp =>
    refine h.awake p s.outstanding (by rw [hp]; rfl) (fun q hq => ?_) fun _ => h.cleared p hp
    cases hc : (s.pc q).inCommit
    · rfl
    · exact absurd (h.alone q p hc (by rw [hp]; rfl)) hq
  | kill p hp =>
    exact h.move p .woken (by rw [hp]; rfl) (by rw [hp]; rfl) (by decide) fun he => by cases he

theorem reached (hr : run (Log.step size) init tr = some s) : Inv s :=
  run_invariant (I := fun _ s => Inv s) init_inv (fun _ _ _ _ h hs => h.step hs) hr

end Inv

/-! ### Blocks and commits -/

/-- What an action does to the set of blocks logged since the last commit. -/
def loggedNext (g : Finset Nat) : Action P → Finset Nat
  | .absorb _ b => insert b g
  | .clear _ => ∅
  | _ => g

/-- The blocks logged since the last commit, from the actions taken. -/
def logged (tr : List (Action P)) : Finset Nat := tr.foldl loggedNext ∅

omit [Fintype P] [DecidableEq P] in
theorem logged_snoc (tr : List (Action P)) (a : Action P) :
    logged (tr ++ [a]) = loggedNext (logged tr) a := by
  rw [logged, foldl_append]
  rfl

/-- `log.lh` is the set of blocks logged since the last commit. -/
def Lists (tr : List (Action P)) (s : State P) : Prop :=
  s.stop ≠ some .overrun → ∀ b, b ∈ s.lh ↔ b ∈ logged tr

omit [Fintype P] in
theorem Lists.step {size : Nat} {tr : List (Action P)} {s s' : State P} {a : Action P}
    (h : Lists tr s) (hs : Log.step size s a = some s') : Lists (tr ++ [a]) s' := by
  obtain ⟨hstop, hs⟩ := step_stepped hs
  have h := h (by rw [hstop]; decide)
  intro hnot b
  rw [logged_snoc]
  cases hs with
  | overrun => exact absurd rfl hnot
  | absorb p c => exact mem_record.trans (by rw [loggedNext, Finset.mem_insert, h b])
  | clear p => simp [State.goto, loggedNext]
  | _ => exact h b

omit [Fintype P] in
theorem Lists.reached {size : Nat} {tr : List (Action P)} {s : State P}
    (hr : run (Log.step size) init tr = some s) : Lists tr s :=
  run_invariant (fun _ _ => by simp [init, logged]) (fun _ _ _ _ h hs => Lists.step h hs) hr

omit [Fintype P] in
theorem mem_lh_step {size : Nat} {s s' : State P} {a : Action P} {b : Nat} (h : b ∈ s.lh)
    (hs : step size s a = some s') (ha : ∀ q, a ≠ .clear q) : b ∈ s'.lh := by
  cases (step_stepped hs).2 with
  | absorb p c => exact mem_record.mpr (.inr h)
  | clear p => exact absurd rfl (ha p)
  | _ => exact h

omit [Fintype P] in
theorem mem_lh_run {size : Nat} {s s' : State P} {as : List (Action P)} {b : Nat} (h : b ∈ s.lh)
    (hr : run (step size) s as = some s') (ha : ∀ q, .clear q ∉ as) : b ∈ s'.lh := by
  induction as generalizing s with
  | nil =>
    rw [run, Option.some.injEq] at hr
    rw [← hr]
    exact h
  | cons a as ih =>
    obtain ⟨t, ht, hr⟩ := run_cons.mp hr
    exact ih (mem_lh_step h ht fun q he => ha q (by rw [he]; exact mem_cons_self)) hr
      fun q hq => ha q (mem_cons_of_mem a hq)

omit [Fintype P] in
/-- A process stays in its operation until it calls `end_op`. -/
theorem inOp_step {size : Nat} {s s' : State P} {a : Action P} {p : P}
    (hp : (s.pc p).inOp = true) (hs : step size s a = some s') (ha : a ≠ .end_op p) :
    (s'.pc p).inOp = true := by
  have hmove : ∀ q c, (q = p → c.inOp = true) → ((s.goto q c).pc p).inOp = true := by
    intro q c hc
    rw [goto_pc]
    by_cases hqp : p = q
    · rw [if_pos hqp]
      exact hc hqp.symm
    · rw [if_neg hqp]
      exact hp
  have hout : ∀ q, (s.pc q).inOp = false → q = p → False := fun q hq he => by
    rw [he, hp] at hq
    cases hq
  cases (step_stepped hs).2 with
  | sleep q hq | enter q hq =>
    refine hmove q _ fun he => (hout q ?_ he).elim
    rcases hq with hq | hq <;> rw [hq] <;> rfl
  | tooBig | outside | overrun | again => exact hp
  | accept q b | absorb q b => exact hmove q _ fun _ => rfl
  | last q =>
    refine hmove q _ fun he => ?_
    rw [he] at ha
    exact absurd rfl ha
  | leave q =>
    have hqp : p ≠ q := fun he => ha (by rw [he])
    rw [goto_pc, if_neg hqp, wakeup_inOp]
    exact hp
  | commit q hq | clear q hq | kill q hq =>
    exact hmove q _ fun he => (hout q (by rw [hq]; rfl) he).elim
  | done q hq =>
    have hqp : p ≠ q := fun he => hout q (by rw [hq]; rfl) he.symm
    rw [goto_pc, if_neg hqp, wakeup_inOp]
    exact hp

omit [Fintype P] in
/-- Only `commit` brings a process past the writing of the log. -/
theorem not_written_step {size : Nat} {s s' : State P} {a : Action P}
    (h : ∀ q, s.pc q ≠ .written) (hs : step size s a = some s') (ha : ∀ q, a ≠ .commit q) :
    ∀ q, s'.pc q ≠ .written := by
  have hmove : ∀ t : State P, (∀ q, t.pc q ≠ .written) → ∀ p c, c ≠ .written →
      ∀ q, (t.goto p c).pc q ≠ .written := by
    intro t ht p c hc q hq
    rcases goto_elim (· = .written) hq with ⟨_, hq⟩ | ⟨_, hq⟩
    · exact hc hq
    · exact ht q hq
  have hwake : ∀ q, s.wakeup.pc q ≠ .written := by
    intro q hq
    rw [wakeup_pc] at hq
    by_cases hs : s.pc q = .sleeping
    · rw [if_pos hs] at hq
      cases hq
    · rw [if_neg hs] at hq
      exact h q hq
  cases (step_stepped hs).2 with
  | commit p => exact absurd rfl (ha p)
  | tooBig | outside | overrun | again => exact h
  | leave p | done p => exact hmove s.wakeup hwake p .out (by decide)
  | _ => exact hmove s h _ _ fun he => by cases he

/-- While an operation is in progress no commit, and no clearing, is taken. -/
theorem no_commit_run {size : Nat} {s s' : State P} {as : List (Action P)} {p : P} (hi : Inv s)
    (hp : (s.pc p).inOp = true) (hr : run (step size) s as = some s') (ha : .end_op p ∉ as) :
    (∀ q, .commit q ∉ as) ∧ (∀ q, .clear q ∉ as) ∧ (s'.pc p).inOp = true ∧ Inv s' := by
  induction as generalizing s with
  | nil =>
    rw [run, Option.some.injEq] at hr
    rw [← hr]
    exact ⟨by simp, by simp, hp, hi⟩
  | cons a as ih =>
    obtain ⟨t, ht, hr⟩ := run_cons.mp hr
    rw [mem_cons, not_or] at ha
    obtain ⟨h1, h2, h3⟩ := ih (hi.step ht) (inOp_step hp ht (Ne.symm ha.1)) hr ha.2
    refine ⟨fun q hq => ?_, fun q hq => ?_, h3⟩
    · rcases mem_cons.mp hq with rfl | hq
      · cases (step_stepped ht).2 with
        | commit _ hc => exact hi.not_inCommit hp q (by rw [hc]; rfl)
      · exact h1 q hq
    · rcases mem_cons.mp hq with rfl | hq
      · cases (step_stepped ht).2 with
        | clear _ hc => exact hi.not_inCommit hp q (by rw [hc]; rfl)
      · exact h2 q hq

omit [Fintype P] in
/-- Without a commit the log is not cleared. -/
theorem no_clear_run {size : Nat} {s s' : State P} {as : List (Action P)}
    (h : ∀ q, s.pc q ≠ .written) (hr : run (step size) s as = some s')
    (ha : ∀ q, .commit q ∉ as) : ∀ q, .clear q ∉ as := by
  induction as generalizing s with
  | nil => simp
  | cons a as ih =>
    obtain ⟨t, ht, hr⟩ := run_cons.mp hr
    have hrest := ih (not_written_step h ht fun q he => ha q (by rw [he]; exact mem_cons_self))
      hr fun q hq => ha q (mem_cons_of_mem a hq)
    intro q hq
    rcases mem_cons.mp hq with rfl | hq
    · cases (step_stepped ht).2 with
      | clear _ hc => exact h q hc
    · exact hrest q hq

/-- An operation of `p`: admitted in `s₁`, ended in `s₂`, with the actions `mid`
of all processes in between. -/
structure Operation (size : Nat) (p : P) (mid : List (Action P)) (s₁ s₂ s₃ : State P) : Prop where
  admitted : ∃ pre, run (step size) init (pre ++ [.begin_op p]) = some s₁
  inside : s₁.pc p = .op
  during : run (step size) s₁ mid = some s₂
  once : .end_op p ∉ mid
  ended : step size s₂ (.end_op p) = some s₃

/-- All blocks an operation logs are in the log when the first commit after it
starts, and no commit starts before it ends. -/
theorem Operation.one_commit {size : Nat} {p : P} {mid post : List (Action P)}
    {s₁ s₂ s₃ s : State P} (h : Operation size p mid s₁ s₂ s₃)
    (hr : run (step size) s₃ post = some s) (hpost : ∀ q, .commit q ∉ post) :
    (∀ q, .commit q ∉ mid) ∧ ∀ b, .absorb p b ∈ mid → b ∈ s.lh := by
  obtain ⟨pre, hpre⟩ := h.admitted
  have hi := Inv.reached hpre
  have hp : (s₁.pc p).inOp = true := by rw [h.inside]; rfl
  obtain ⟨hcommit, hclear, hp₂, hi₂⟩ := no_commit_run hi hp h.during h.once
  refine ⟨hcommit, fun b hb => ?_⟩
  obtain ⟨m₁, m₂, rfl⟩ := append_of_mem hb
  obtain ⟨t, _, ht⟩ := run_append.mp h.during
  obtain ⟨u, hu, hm₂⟩ := run_cons.mp ht
  -- recorded by its own `log_write`, kept to the end of the operation
  have hbu : b ∈ s₂.lh := by
    cases (step_stepped hu).2 with
    | overrun =>
      cases m₂ with
      | nil =>
        rw [run, Option.some.injEq] at hm₂
        have := (step_stepped h.ended).1
        rw [← hm₂] at this
        cases this
      | cons a m₂ =>
        obtain ⟨v, hv, _⟩ := run_cons.mp hm₂
        cases (step_stepped hv).1
    | absorb =>
      exact mem_lh_run (mem_record.mpr (.inl rfl)) hm₂ fun q hq =>
        hclear q (mem_append_right _ (mem_cons_of_mem _ hq))
  -- kept until the commit
  have hb₃ : b ∈ s₃.lh := mem_lh_step hbu h.ended fun q he => by cases he
  have hnot : ∀ q, s₂.pc q ≠ .written := fun q hq =>
    hi₂.not_inCommit hp₂ q (by rw [hq]; rfl)
  exact mem_lh_run hb₃ hr (no_clear_run
    (not_written_step hnot h.ended fun q he => by cases he) hr hpost)

/-- **Group commit never splits or mixes an operation.** In every state of every
run: a commit runs only with no operation in progress, and no `begin_op` gets
through while it runs; `log.lh` has no duplicates and lists every block logged
since the last commit; a process asleep in `begin_op` waits for a commit or for
space. And no commit starts during an operation, while the first one after it
finds every block the operation logged in the log. -/
theorem group_commit (size : Nat) :
    (∀ (tr : List (Action P)) (s : State P), run (step size) init tr = some s → s.stop = none →
      (∀ p, (s.pc p).inCommit = true → s.outstanding = 0 ∧
        ∀ q s', step size s (.begin_op q) = some s' → s'.pc q = .sleeping) ∧
      s.lh.Nodup ∧ (∀ b, b ∈ s.lh ↔ b ∈ logged tr) ∧
      (∀ p, s.pc p = .sleeping → s.committing = true ∨
        LOGSIZE < s.lh.length + (s.outstanding + 1) * MAXOPBLOCKS)) ∧
    (∀ (p : P) (mid post : List (Action P)) (s₁ s₂ s₃ s : State P),
      Operation size p mid s₁ s₂ s₃ → run (step size) s₃ post = some s →
      (∀ q, .commit q ∉ post) →
      (∀ q, .commit q ∉ mid) ∧ ∀ b, .absorb p b ∈ mid → b ∈ s.lh) := by
  refine ⟨fun tr s hr hstop => ?_, fun p mid post s₁ s₂ s₃ s h hr hpost => h.one_commit hr hpost⟩
  have hi := Inv.reached hr
  refine ⟨fun p hp => ?_, hi.nodup, Lists.reached hr (by rw [hstop]; decide), hi.asleep⟩
  have hc := hi.owner p hp
  refine ⟨hi.quiet hc, fun q s' hs => ?_⟩
  cases (step_stepped hs).2 with
  | sleep => rw [goto_pc, if_pos rfl]
  | enter _ _ hfree =>
    rw [hc] at hfree
    cases hfree

/-- Two operations share a commit, and the first one's block is in it. -/
theorem group_commit_two_operations :
    ∃ s : State (Fin 2), run (step 30) init [.begin_op 0, .begin_op 1, .log_write 0 7, .absorb 0 7,
      .end_op 0, .end_op 1] = some s ∧ s.pc 1 = .committing ∧ 7 ∈ s.lh :=
  ⟨_, rfl, rfl, ((group_commit 30).2 0 [.begin_op 1, .log_write 0 7, .absorb 0 7] [.end_op 1]
    _ _ _ _ ⟨⟨[], rfl⟩, rfl, rfl, by decide, rfl⟩ rfl (by decide)).2 7 (by decide)⟩

end Xv6.Log
