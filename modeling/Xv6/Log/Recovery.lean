import Xv6.Log.Commit

/-! Crash atomicity of the redo log.

`crash_atomic`: cut `commit` after any prefix of its disk writes, then recover,
cutting recovery as often and wherever one likes. The disk ends with an empty
log, every block outside the log and the transaction is as it was, and the
transaction's blocks are all new if the first header write reached the disk and
all old if it did not.

Two kinds of disk occur on the way. A `Clean` disk has an empty header and
agrees with a given disk outside the log. A `Committed` disk has the transaction
in its header and in its log blocks, and its home blocks may hold anything: the
copies are made again from the log. -/
namespace Xv6.Log
open Lib Function

/-- The copies of a transaction's blocks to their homes. -/
def installs (lh : List Nat) (new : Nat → Block) : List (Nat × Block) := lh.map fun b => (b, new b)

theorem map_fst_installs (lh : List Nat) (new : Nat → Block) :
    (installs lh new).map Prod.fst = lh := by
  simp [installs, Function.comp_def]

theorem applyWrites_installs (d : Disk) (lh : List Nat) (new : Nat → Block) (b : Nat)
    (hnd : lh.Nodup) : applyWrites d (installs lh new) b = if b ∈ lh then new b else d b := by
  by_cases h : b ∈ lh
  · rw [if_pos h]
    exact applyWrites_mem d _ b (new b) (by rw [map_fst_installs]; exact hnd)
      (List.mem_map.mpr ⟨b, h, rfl⟩)
  · rw [if_neg h]
    refine applyWrites_other d _ b fun w hw he => h ?_
    obtain ⟨x, hx, rfl⟩ := List.mem_map.mp hw
    rw [← show x = b from he]
    exact hx

theorem mem_logCopies (h : w ∈ logCopies lg view tail blocks) :
    lg.start + tail < w.1 ∧ w.1 ≤ lg.start + tail + blocks.length := by
  induction blocks generalizing tail with
  | nil => cases h
  | cons b rest ih =>
    rw [List.length_cons]
    rcases List.mem_cons.mp h with rfl | h
    · dsimp only
      omega
    · have := ih h
      omega

theorem length_logCopies (lg : Area) (view : Nat → Block) (tail : Nat) (blocks : List Nat) :
    (logCopies lg view tail blocks).length = blocks.length := by
  induction blocks generalizing tail with
  | nil => rfl
  | cons b rest ih => rw [logCopies, List.length_cons, List.length_cons, ih]

/-- After the copies, log slot `i` holds the `i`-th block. -/
theorem applyWrites_logCopies (lg : Area) (d : Disk) (view : Nat → Block) (tail : Nat)
    (blocks : List Nat) (i : Nat) (h : i < blocks.length) :
    applyWrites d (logCopies lg view tail blocks) (lg.start + (tail + i) + 1) =
      view (blocks.getD i 0) := by
  induction blocks generalizing tail i d with
  | nil => simp at h
  | cons b rest ih =>
    rw [logCopies, applyWrites]
    cases i with
    | zero =>
      rw [applyWrites_other _ _ _ fun w hw => by have := mem_logCopies hw; omega]
      exact update_self ..
    | succ i =>
      rw [show tail + (i + 1) = tail + 1 + i by omega]
      exact ih _ (tail + 1) i (by simpa using h)

/-- When the log slots hold the transaction, the copies out of them install it. -/
theorem homeCopies_eq (lg : Area) (v new : Nat → Block) (tail : Nat) (blocks : List Nat)
    (h : ∀ i, i < blocks.length → v (lg.start + (tail + i) + 1) = new (blocks.getD i 0)) :
    homeCopies lg v tail blocks = installs blocks new := by
  induction blocks generalizing tail with
  | nil => rfl
  | cons b rest ih =>
    have h0 := h 0 (by simp)
    rw [homeCopies, installs, List.map_cons, show v (lg.start + tail + 1) = new b from h0,
      ih (tail + 1) fun i hi => ?_]
    · rfl
    · have := h (i + 1) (by simpa using hi)
      rw [show tail + (i + 1) = tail + 1 + i by omega] at this
      exact this

/-! ### Transactions -/

/-- A transaction `log_write` can build: distinct home blocks, none in the log,
no more than the log and its header have room for. -/
structure Transaction (lg : Area) (lh : List Nat) : Prop where
  nodup : lh.Nodup
  outside : ∀ b ∈ lh, ¬ lg.Inside b
  fits : lh.length < lg.size
  header : lh.length ≤ LOGSIZE
  blockno : ∀ b ∈ lh, b < 2 ^ 32

theorem commit_eq (lg : Area) (m : Machine) (hne : m.lh ≠ []) : (commit lg m).2 =
    (write_head lg {(install_trans lg (write_head lg (write_log lg m).2).2).2 with lh := []}).2 := by
  unfold commit
  simp only [bind, StateT.bind, get, getThe, MonadStateOf.get, StateT.get, pure]
  rw [if_pos (List.length_pos_iff.mpr hne)]
  rfl

theorem commit_nil (lg : Area) (m : Machine) (h : m.lh = []) : (commit lg m).2 = m := by
  unfold commit
  simp only [bind, StateT.bind, get, getThe, MonadStateOf.get, StateT.get, pure, h]
  rfl

/-- What a commit of a nonempty transaction writes: the log blocks, the header,
the home blocks, and a header with no entries. -/
theorem commitWrites_eq (lg : Area) (m : Machine) (h : Transaction lg m.lh) (hne : m.lh ≠ []) :
    ∃ head, commitWrites lg m = logCopies lg m.view 0 m.lh ++
      ((lg.start, fillHead (m.view lg.start) m.lh) ::
        (installs m.lh m.view ++ [(lg.start, fillHead head [])])) := by
  have hroom : 0 + m.lh.length < lg.size := by rw [Nat.zero_add]; exact h.fits
  unfold commitWrites
  show ∃ head, (commit lg {m with writes := []}).2.writes = _
  rw [commit_eq lg {m with writes := []} hne]
  have h1 : Wrote {m with writes := []} (write_log lg {m with writes := []}).2
      (logCopies lg m.view 0 m.lh) m.lh := write_log_from_wrote lg 0 m.lh _ hroom h.outside
  generalize (write_log lg {m with writes := []}).2 = m1 at h1 ⊢
  have hstart : m1.view lg.start = m.view lg.start := by
    rw [h1.view]
    exact applyWrites_other _ _ _ fun w hw => by have := mem_logCopies hw; omega
  have h2 := h1.trans (write_head_wrote lg m1)
  rw [h1.lh, hstart] at h2
  generalize (write_head lg m1).2 = m2 at h2 ⊢
  have hslots : homeCopies lg m2.view 0 m.lh = installs m.lh m.view := by
    refine homeCopies_eq lg _ _ 0 m.lh fun i hi => ?_
    rw [h2.view, applyWrites_append, applyWrites_other _ [_] _ fun w hw => ?_]
    · exact applyWrites_logCopies lg _ _ 0 m.lh i hi
    · rw [List.mem_singleton.mp hw]
      dsimp only
      omega
  have h3 := h2.trans (install_trans_from_wrote lg 0 m.lh m2 hroom h.outside)
  rw [hslots, h2.lh] at h3
  have hinst : (install_trans lg m2).2 = (install_trans_from lg 0 m.lh m2).2 := by
    rw [← h2.lh]
    rfl
  rw [hinst]
  generalize (install_trans_from lg 0 m.lh m2).2 = m3 at h3 ⊢
  have h4 := (h3.trans (Wrote.setLh m3 [])).trans (write_head_wrote lg {m3 with lh := []})
  exact ⟨m3.view lg.start, by rw [h4.writes]; simp [Machine.view]⟩

/-- Recovery copies what the header lists and clears the header. -/
theorem recoverWrites_eq (lg : Area) (d : Disk) (hfit : (headBlocks (d lg.start)).length < lg.size)
    (hout : ∀ b ∈ headBlocks (d lg.start), ¬ lg.Inside b) :
    ∃ head, recoverWrites lg d = homeCopies lg d 0 (headBlocks (d lg.start)) ++
      [(lg.start, fillHead head [])] := by
  have h1 : Wrote (boot d) (read_head lg (boot d)).2 [] (headBlocks (d lg.start)) :=
    (bread_wrote lg.start (boot d)).trans (Wrote.setLh _ _)
  show ∃ head, (write_head lg
    {(install_trans_from lg 0 (read_head lg (boot d)).2.lh (read_head lg (boot d)).2).2
      with lh := []}).2.writes = _
  rw [h1.lh]
  generalize (read_head lg (boot d)).2 = m1 at h1 ⊢
  have h2 := h1.trans (install_trans_from_wrote lg 0 (headBlocks (d lg.start)) m1
    (by simpa using hfit) hout)
  rw [h1.view] at h2
  generalize (install_trans_from lg 0 (headBlocks (d lg.start)) m1).2 = m2 at h2 ⊢
  have h3 := (h2.trans (Wrote.setLh m2 [])).trans (write_head_wrote lg {m2 with lh := []})
  refine ⟨m2.view lg.start, ?_⟩
  rw [h3.writes]
  simp only [boot, List.append_nil, List.nil_append]
  rfl

/-! ### Clean and committed disks -/

/-- An empty log, and outside it the disk `ref`. -/
structure Clean (lg : Area) (ref d : Disk) : Prop where
  head : headN (d lg.start) = 0
  rest : ∀ b, ¬ lg.Inside b → d b = ref b

/-- The transaction in the header and in the log; outside the log and the
transaction, the disk `old`. -/
structure Committed (lg : Area) (lh : List Nat) (new : Nat → Block) (old d : Disk) : Prop where
  head : headBlocks (d lg.start) = lh
  slots : ∀ i, i < lh.length → d (lg.start + i + 1) = new (lh.getD i 0)
  rest : ∀ b, ¬ lg.Inside b → b ∉ lh → d b = old b

theorem headBlocks_of_headN (h : headN b = 0) : headBlocks b = [] := by
  rw [headBlocks, h]
  rfl

theorem headN_fillHead_nil (b : Block) : headN (fillHead b []) = 0 :=
  headN_fillHead b [] (Nat.zero_le _)

theorem clear_head (hs : 0 < lg.size) (head : Block) (h : ∀ b, ¬ lg.Inside b → d b = ref b) :
    Clean lg ref (update d lg.start (fillHead head [])) where
  head := by rw [update_self]; exact headN_fillHead_nil head
  rest := fun b hb => by
    rw [update_of_ne (fun he => hb ⟨by omega, by omega⟩)]
    exact h b hb

theorem Clean.recover (hs : 0 < lg.size) (h : Clean lg ref d) (k : Nat) :
    Clean lg ref (applyWrites d ((recoverWrites lg d).take k)) := by
  have hnil := headBlocks_of_headN h.head
  obtain ⟨head, he⟩ := recoverWrites_eq lg d (by rw [hnil]; exact hs) (by rw [hnil]; simp)
  rw [he, hnil]
  cases k with
  | zero => exact h
  | succ k =>
    have : (homeCopies lg d 0 [] ++ [(lg.start, fillHead head [])]).take (k + 1) =
        [(lg.start, fillHead head [])] := by simp [homeCopies]
    rw [this]
    exact clear_head hs head h.rest

section Committed
variable {lg : Area} {lh : List Nat} {new : Nat → Block} {old d : Disk}

theorem Committed.recoverWrites_eq (ht : Transaction lg lh)
    (h : Committed lg lh new old d) :
    ∃ head, recoverWrites lg d = installs lh new ++ [(lg.start, fillHead head [])] := by
  obtain ⟨head, he⟩ := Log.recoverWrites_eq lg d (by rw [h.head]; exact ht.fits)
    (by rw [h.head]; exact ht.outside)
  rw [h.head, homeCopies_eq lg d new 0 lh fun i hi => by rw [Nat.zero_add]; exact h.slots i hi] at he
  exact ⟨head, he⟩

/-- Installing some of the transaction's blocks keeps a disk committed. -/
theorem Committed.install (ht : Transaction lg lh) (h : Committed lg lh new old d)
    (ws : List (Nat × Block)) (hws : ∀ w ∈ ws, w.1 ∈ lh) (hs : 0 < lg.size) :
    Committed lg lh new old (applyWrites d ws) where
  head := by
    rw [applyWrites_other _ _ _ fun w hw he => ht.outside w.1 (hws w hw) ⟨by omega, by omega⟩]
    exact h.head
  slots := fun i hi => by
    have := ht.fits
    rw [applyWrites_other _ _ _ fun w hw he => ht.outside w.1 (hws w hw) ⟨by omega, by omega⟩]
    exact h.slots i hi
  rest := fun b hb hbl => by
    rw [applyWrites_other _ _ _ fun w hw he => hbl (by rw [← he]; exact hws w hw)]
    exact h.rest b hb hbl

/-- The disk a committed transaction is recovered to. -/
def installed (lh : List Nat) (new : Nat → Block) (old : Disk) : Disk :=
  fun b => if b ∈ lh then new b else old b

/-- Installing all of the transaction and clearing the header completes it. -/
theorem Committed.complete (ht : Transaction lg lh) (hs : 0 < lg.size)
    (h : Committed lg lh new old d) (head : Block) :
    Clean lg (installed lh new old)
      (applyWrites d (installs lh new ++ [(lg.start, fillHead head [])])) := by
  rw [applyWrites_append]
  refine clear_head hs head fun b hb => ?_
  rw [applyWrites_installs d lh new b ht.nodup, installed]
  by_cases hbl : b ∈ lh
  · rw [if_pos hbl, if_pos hbl]
  · rw [if_neg hbl, if_neg hbl]
    exact h.rest b hb hbl

/-- A prefix of a recovery leaves a committed disk committed, or completes it. -/
theorem Committed.recover (ht : Transaction lg lh) (h : Committed lg lh new old d) (k : Nat) :
    Committed lg lh new old (applyWrites d ((recoverWrites lg d).take k)) ∨
      Clean lg (installed lh new old) (applyWrites d ((recoverWrites lg d).take k)) := by
  have hs : 0 < lg.size := Nat.zero_lt_of_lt ht.fits
  obtain ⟨head, he⟩ := h.recoverWrites_eq ht
  rw [he]
  by_cases hk : k ≤ (installs lh new).length
  · left
    rw [List.take_append_of_le_length hk]
    refine h.install ht _ (fun w hw => ?_) hs
    obtain ⟨b, hb, rfl⟩ := List.mem_map.mp (List.mem_of_mem_take hw)
    exact hb
  · right
    rw [List.take_of_length_le (by rw [List.length_append, List.length_singleton]; omega)]
    exact h.complete ht hs head

end Committed

/-- Recovery of a clean disk, with any crashes on the way. -/
theorem Clean.recovers (hs : 0 < lg.size) (h : Clean lg ref d)
    (hr : Recovers (recoverWrites lg) d d') : Clean lg ref d' :=
  hr.final (I := Clean lg ref) (fun d k hd => hd.recover hs k)
    (fun d hd => by
      have := hd.recover hs (recoverWrites lg d).length
      rwa [List.take_length] at this) h

/-- Recovery of a committed disk, with any crashes on the way. -/
theorem Committed.recovers (ht : Transaction lg lh) (h : Committed lg lh new old d)
    (hr : Recovers (recoverWrites lg) d d') : Clean lg (installed lh new old) d' := by
  have hs : 0 < lg.size := Nat.zero_lt_of_lt ht.fits
  refine hr.final (I := fun d => Committed lg lh new old d ∨ Clean lg (installed lh new old) d)
    (fun d k hd => ?_) (fun d hd => ?_) (.inl h)
  · rcases hd with hd | hd
    · exact hd.recover ht k
    · exact .inr (hd.recover hs k)
  · rcases hd with hd | hd
    · obtain ⟨head, he⟩ := hd.recoverWrites_eq ht
      rw [he]
      exact hd.complete ht hs head
    · have := hd.recover hs (recoverWrites lg d).length
      rwa [List.take_length] at this

/-! ### Crashes of commit -/

/-- The header write is the commit point: the disk is clean and old before it,
and from it on it is committed, or clean and new. -/
theorem commit_crash (lg : Area) (m : Machine) (ht : Transaction lg m.lh) (hne : m.lh ≠ [])
    (hclean : headN (m.disk lg.start) = 0) (k : Nat) :
    (k ≤ m.lh.length ∧ Clean lg m.disk (applyWrites m.disk ((commitWrites lg m).take k))) ∨
    (m.lh.length < k ∧
      (Committed lg m.lh m.view m.disk (applyWrites m.disk ((commitWrites lg m).take k)) ∨
        Clean lg (installed m.lh m.view m.disk)
          (applyWrites m.disk ((commitWrites lg m).take k)))) := by
  have hroom := ht.fits
  have hlen := length_logCopies lg m.view 0 m.lh
  obtain ⟨head, he⟩ := commitWrites_eq lg m ht hne
  rw [he]
  by_cases hk : k ≤ m.lh.length
  · -- the cut falls in `write_log`: only log blocks have been written
    refine .inl ⟨hk, ?_⟩
    rw [List.take_append_of_le_length (by omega)]
    constructor
    · rw [applyWrites_other _ _ _ fun w hw => by
        have := mem_logCopies (List.mem_of_mem_take hw); omega]
      exact hclean
    · intro b hb
      refine applyWrites_other _ _ _ fun w hw heq => hb ?_
      have := mem_logCopies (List.mem_of_mem_take hw)
      exact ⟨by omega, by omega⟩
  · refine .inr ⟨by omega, ?_⟩
    obtain ⟨j, rfl⟩ : ∃ j, k = (logCopies lg m.view 0 m.lh).length + (j + 1) :=
      ⟨k - m.lh.length - 1, by omega⟩
    rw [List.take_length_add_append, List.take_succ_cons, applyWrites_append, applyWrites]
    -- the disk as the header write leaves it
    have hcom : Committed lg m.lh m.view m.disk (update
        (applyWrites m.disk (logCopies lg m.view 0 m.lh)) lg.start
        (fillHead (m.view lg.start) m.lh)) := by
      constructor
      · rw [update_self]
        exact headBlocks_fillHead _ _ ht.header ht.blockno
      · intro i hi
        rw [update_of_ne (by omega)]
        have := applyWrites_logCopies lg m.disk m.view 0 m.lh i hi
        rwa [Nat.zero_add] at this
      · intro b hb _
        rw [update_of_ne fun h => hb ⟨by omega, by omega⟩]
        refine applyWrites_other _ _ _ fun w hw heq => hb ?_
        have := mem_logCopies hw
        exact ⟨by omega, by omega⟩
    by_cases hj : j ≤ (installs m.lh m.view).length
    · left
      rw [List.take_append_of_le_length hj]
      refine hcom.install ht _ (fun w hw => ?_) (by omega)
      obtain ⟨b, hb, rfl⟩ := List.mem_map.mp (List.mem_of_mem_take hw)
      exact hb
    · right
      rw [List.take_of_length_le (by rw [List.length_append, List.length_singleton]; omega)]
      exact hcom.complete ht (by omega) head

/-- **A crash leaves a transaction whole or leaves it out.** On a disk with an
empty log, cut `commit` after `k` of its writes and recover with any crashes on
the way: the log is empty again, blocks outside it and outside the transaction
are untouched, and the transaction's blocks are all new exactly when the first
header write, number `lh.length + 1`, was among the `k`. -/
theorem crash_atomic (lg : Area) (m : Machine) (ht : Transaction lg m.lh)
    (hclean : headN (m.disk lg.start) = 0) (k : Nat) (d' : Disk)
    (hr : Recovers (recoverWrites lg) (applyWrites m.disk ((commitWrites lg m).take k)) d') :
    headN (d' lg.start) = 0 ∧
      (∀ b, ¬ lg.Inside b → b ∉ m.lh → d' b = m.disk b) ∧
      (m.lh.length < k → ∀ b ∈ m.lh, d' b = m.view b) ∧
      (k ≤ m.lh.length → ∀ b ∈ m.lh, d' b = m.disk b) := by
  have hs : 0 < lg.size := Nat.zero_lt_of_lt ht.fits
  by_cases hne : m.lh = []
  · -- nothing was logged: `commit` writes nothing
    have hnil : commitWrites lg m = [] := by
      show (commit lg {m with writes := []}).2.writes = []
      rw [commit_nil lg {m with writes := []} hne]
    rw [hnil, List.take_nil] at hr
    have hc : Clean lg m.disk d' := Clean.recovers hs ⟨hclean, fun _ _ => rfl⟩ hr
    rw [hne]
    exact ⟨hc.head, fun b hb _ => hc.rest b hb, by simp, by simp⟩
  · rcases commit_crash lg m ht hne hclean k with ⟨hk, hc⟩ | ⟨hk, hc⟩
    · have hc' := hc.recovers hs hr
      exact ⟨hc'.head, fun b hb _ => hc'.rest b hb, fun h => absurd hk (by omega),
        fun _ b hb => hc'.rest b (ht.outside b hb)⟩
    · have hc' : Clean lg (installed m.lh m.view m.disk) d' := by
        rcases hc with hc | hc
        · exact hc.recovers ht hr
        · exact hc.recovers hs hr
      refine ⟨hc'.head, fun b hb hbl => ?_, fun _ b hb => ?_, fun h => absurd hk (by omega)⟩
      · rw [hc'.rest b hb, installed, if_neg hbl]
      · rw [hc'.rest b (ht.outside b hb), installed, if_pos hb]

/-- A one-block transaction cut right after its header write is recovered whole. -/
theorem crash_atomic_one_block :
    let m : Machine := ⟨fun _ => Bytes.zero,
      fun b => if b = 100 then some (Bytes.ofFn fun _ => 7) else none, [100], []⟩
    let d := applyWrites m.disk ((commitWrites ⟨2, 30⟩ m).take 2)
    headN (d 2) = 1 ∧ applyWrites d (recoverWrites ⟨2, 30⟩ d) 100 = Bytes.ofFn fun _ => 7 := by
  intro m d
  have ht : Transaction ⟨2, 30⟩ m.lh :=
    ⟨by decide, by decide, by decide, by decide, by decide⟩
  have h0 : headN (m.disk 2) = 0 := by simp [m, headN]
  exact ⟨by decide, (crash_atomic ⟨2, 30⟩ m ht h0 2 _ (.done d)).2.2.1 (by decide) 100 (by decide)⟩

end Xv6.Log
