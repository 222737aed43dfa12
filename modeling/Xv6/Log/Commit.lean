import Xv6.Param
import Xv6.Lib.Crash

/-! The redo log on the disk (`log.c`): `commit` and `recover_from_log`.

The log area is a header block followed by the log blocks. `commit` copies the
transaction's blocks from the buffer cache into the log blocks, writes the header
(the commit point), installs the log blocks at their home locations and writes
the header again with a count of zero. `recover_from_log` does the second half
from whatever header the disk holds.

The machine records every single-block disk write in issue order, so that a crash
is a prefix of that record. The buffer cache is seen through `view`: what `bread`
returns, which is the cached data of a block if there is any and else the disk's. -/
namespace Xv6.Log
open Lib Function List

/-- Where the log lives: `log.start` and `log.size`, header block included. -/
structure Area where
  start : Nat
  size : Nat

def Area.Inside (lg : Area) (b : Nat) : Prop := lg.start ≤ b ∧ b < lg.start + lg.size

instance (lg : Area) (b : Nat) : Decidable (lg.Inside b) := inferInstanceAs (Decidable (_ ∧ _))

structure Machine where
  disk : Disk
  /-- The data of the buffers in the cache. -/
  cache : Nat → Option Block
  /-- `log.lh.block[0..n)`, in memory. -/
  lh : List Nat
  /-- The disk writes issued so far. -/
  writes : List (Nat × Block)

/-- What `bread` returns for a block. -/
def Machine.view (m : Machine) (b : Nat) : Block := (m.cache b).getD (m.disk b)

/-- A machine that has just booted: nothing cached, nothing logged. -/
def boot (d : Disk) : Machine := ⟨d, fun _ => none, [], []⟩

/-! ### The code -/

def bread (b : Nat) : StateM Machine Block := fun m =>
  match m.cache b with
  | some data => (data, m)
  | none => (m.disk b, {m with cache := update m.cache b (some (m.disk b))})

def bwrite (b : Nat) (data : Block) : StateM Machine Unit := fun m =>
  ((), {m with
    disk := update m.disk b data
    cache := update m.cache b (some data)
    writes := m.writes ++ [(b, data)]})

/-- `lh->n` of a header block. -/
def headN (b : Block) : Int := (b.word32 0).toInt

/-- `lh->block[i]` of a header block. -/
def headBlock (b : Block) (i : Nat) : Nat := (b.word32 (4 + 4 * i)).toNat

/-- The block numbers a header block lists. -/
def headBlocks (b : Block) : List Nat := (List.range (headN b).toNat).map (headBlock b)

/-- `hb->block[i] = log.lh.block[i]` from `i` on. -/
def storeBlocks (b : Block) : Nat → List Nat → Block
  | _, [] => b
  | i, x :: xs => storeBlocks (b.putWord32 (4 + 4 * i) (BitVec.ofNat 32 x)) (i + 1) xs

/-- The header block `b` with the count and the block numbers of `lh` stored over it. -/
def fillHead (b : Block) (lh : List Nat) : Block :=
  storeBlocks (b.putWord32 0 (BitVec.ofNat 32 lh.length)) 0 lh

def read_head (lg : Area) : StateM Machine Unit := do
  let buf ← bread lg.start
  modify fun m => {m with lh := headBlocks buf}

def write_head (lg : Area) : StateM Machine Unit := do
  let buf ← bread lg.start
  let m ← get
  bwrite lg.start (fillHead buf m.lh)

/-- The loop of `write_log`, from slot `tail` on. -/
def write_log_from (lg : Area) : Nat → List Nat → StateM Machine Unit
  | _, [] => pure ()
  | tail, block :: rest => do
    let _ ← bread (lg.start + tail + 1)
    let data ← bread block
    bwrite (lg.start + tail + 1) data
    write_log_from lg (tail + 1) rest

def write_log (lg : Area) : StateM Machine Unit := do
  let m ← get
  write_log_from lg 0 m.lh

/-- The loop of `install_trans`, from slot `tail` on. -/
def install_trans_from (lg : Area) : Nat → List Nat → StateM Machine Unit
  | _, [] => pure ()
  | tail, block :: rest => do
    let data ← bread (lg.start + tail + 1)
    let _ ← bread block
    bwrite block data
    install_trans_from lg (tail + 1) rest

def install_trans (lg : Area) : StateM Machine Unit := do
  let m ← get
  install_trans_from lg 0 m.lh

def recover_from_log (lg : Area) : StateM Machine Unit := do
  read_head lg
  install_trans lg
  modify fun m => {m with lh := []}
  write_head lg

def commit (lg : Area) : StateM Machine Unit := do
  let m ← get
  if 0 < m.lh.length then
    write_log lg
    write_head lg
    install_trans lg
    modify fun m => {m with lh := []}
    write_head lg
  else
    pure ()

/-- The disk writes a commit issues. -/
def commitWrites (lg : Area) (m : Machine) : List (Nat × Block) :=
  ((commit lg).run {m with writes := []}).2.writes

/-- The disk writes recovery issues on a disk. -/
def recoverWrites (lg : Area) (d : Disk) : List (Nat × Block) :=
  ((recover_from_log lg).run (boot d)).2.writes

/-! ### Headers -/

theorem word32_storeBlocks (b : Block) (i : Nat) (lh : List Nat) (off : Nat)
    (h : off + 4 ≤ 4 + 4 * i) : (storeBlocks b i lh).word32 off = b.word32 off := by
  induction lh generalizing b i with
  | nil => rfl
  | cons x xs ih =>
    rw [storeBlocks, ih _ _ (by omega)]
    exact Bytes.word32_put_other _ _ _ _ _ (.inl h)

/-- A header with at most `LOGSIZE` entries reads back entry by entry. -/
theorem headBlock_storeBlocks (b : Block) (i : Nat) (lh : List Nat) (j : Nat)
    (hj : j < lh.length) (hfit : i + lh.length ≤ LOGSIZE) (hlt : ∀ x ∈ lh, x < 2 ^ 32) :
    headBlock (storeBlocks b i lh) (i + j) = lh.getD j 0 := by
  induction lh generalizing b i j with
  | nil => simp at hj
  | cons x xs ih =>
    simp only [length_cons, LOGSIZE, MAXOPBLOCKS] at hfit hj
    cases j with
    | zero =>
      have hx := hlt x mem_cons_self
      rw [headBlock, storeBlocks, word32_storeBlocks _ _ _ _ (by omega),
        Nat.add_zero, Bytes.word32_putWord32 _ _ _ (by simp only [BSIZE]; omega),
        BitVec.toNat_ofNat, Nat.mod_eq_of_lt hx]
      rfl
    | succ j =>
      rw [storeBlocks, ← Nat.add_assoc, Nat.add_right_comm]
      exact ih _ (i + 1) j (by omega) (by simp only [LOGSIZE, MAXOPBLOCKS]; omega)
        fun y hy => hlt y (mem_cons_of_mem x hy)

theorem headN_fillHead (b : Block) (lh : List Nat) (h : lh.length ≤ LOGSIZE) :
    headN (fillHead b lh) = lh.length := by
  simp only [LOGSIZE, MAXOPBLOCKS] at h
  rw [headN, fillHead, word32_storeBlocks _ _ _ _ (by omega),
    Bytes.word32_putWord32 _ _ _ (by decide), BitVec.toInt_eq_toNat_of_lt] <;>
    rw [BitVec.toNat_ofNat, Nat.mod_eq_of_lt (by omega)]
  omega

theorem headBlocks_fillHead (b : Block) (lh : List Nat) (h : lh.length ≤ LOGSIZE)
    (hlt : ∀ x ∈ lh, x < 2 ^ 32) : headBlocks (fillHead b lh) = lh := by
  rw [headBlocks, headN_fillHead b lh h, Int.toNat_natCast]
  apply ext_getElem (by simp)
  intro j hj hj'
  have := headBlock_storeBlocks (b.putWord32 0 (BitVec.ofNat 32 lh.length)) 0 lh j hj'
    (by omega) hlt
  simpa [fillHead, hj', Nat.zero_add] using this

/-! ### What the procedures write -/

/-- `m'` is `m` after the disk writes `ws`: the disk, the cache's view and the
record have all moved by them, and the in-memory header is `lh`. -/
structure Wrote (m m' : Machine) (ws : List (Nat × Block)) (lh : List Nat) : Prop where
  disk : m'.disk = applyWrites m.disk ws
  view : m'.view = applyWrites m.view ws
  writes : m'.writes = m.writes ++ ws
  lh : m'.lh = lh

theorem Wrote.trans {m m' m'' : Machine} {ws vs : List (Nat × Block)} {lh lh' : List Nat}
    (h : Wrote m m' ws lh) (h' : Wrote m' m'' vs lh') : Wrote m m'' (ws ++ vs) lh' where
  disk := by rw [h'.disk, h.disk, applyWrites_append]
  view := by rw [h'.view, h.view, applyWrites_append]
  writes := by rw [h'.writes, h.writes, append_assoc]
  lh := h'.lh

theorem Wrote.setLh (m : Machine) (lh : List Nat) : Wrote m {m with lh := lh} [] lh :=
  ⟨rfl, rfl, by simp, rfl⟩

theorem bread_fst (b : Nat) (m : Machine) : (bread b m).1 = m.view b := by
  unfold bread Machine.view
  cases m.cache b <;> rfl

theorem bread_wrote (b : Nat) (m : Machine) : Wrote m (bread b m).2 [] m.lh := by
  unfold bread
  cases h : m.cache b with
  | some data => exact ⟨rfl, rfl, by simp, rfl⟩
  | none =>
    refine ⟨rfl, ?_, by simp, rfl⟩
    funext x
    by_cases hx : x = b
    · subst hx
      simp [Machine.view, applyWrites, h]
    · simp [Machine.view, applyWrites, update_of_ne hx]

theorem bwrite_wrote (b : Nat) (data : Block) (m : Machine) :
    Wrote m (bwrite b data m).2 [(b, data)] m.lh := by
  refine ⟨rfl, ?_, rfl, rfl⟩
  funext x
  by_cases hx : x = b
  · subst hx
    simp [bwrite, Machine.view, applyWrites]
  · simp [bwrite, Machine.view, applyWrites, update_of_ne hx]

/-- The copies into the log blocks from slot `tail` on. -/
def logCopies (lg : Area) (view : Nat → Block) : Nat → List Nat → List (Nat × Block)
  | _, [] => []
  | tail, block :: rest => (lg.start + tail + 1, view block) :: logCopies lg view (tail + 1) rest

/-- The copies out of the log blocks from slot `tail` on. -/
def homeCopies (lg : Area) (view : Nat → Block) : Nat → List Nat → List (Nat × Block)
  | _, [] => []
  | tail, block :: rest => (block, view (lg.start + tail + 1)) :: homeCopies lg view (tail + 1) rest

theorem logCopies_congr (lg : Area) (tail : Nat) (blocks : List Nat)
    (h : ∀ b ∈ blocks, v b = v' b) : logCopies lg v tail blocks = logCopies lg v' tail blocks := by
  induction blocks generalizing tail with
  | nil => rfl
  | cons b rest ih =>
    rw [logCopies, logCopies, h b mem_cons_self,
      ih _ fun x hx => h x (mem_cons_of_mem b hx)]

theorem homeCopies_congr (lg : Area) (tail : Nat) (blocks : List Nat)
    (h : ∀ i, tail ≤ i → i < tail + blocks.length → v (lg.start + i + 1) = v' (lg.start + i + 1)) :
    homeCopies lg v tail blocks = homeCopies lg v' tail blocks := by
  induction blocks generalizing tail with
  | nil => rfl
  | cons b rest ih =>
    rw [length_cons] at h
    rw [homeCopies, homeCopies, h tail (by omega) (by omega),
      ih _ fun i hi hi' => h i (by omega) (by omega)]

/-- One round of `write_log`: the block's view goes to its log slot. -/
theorem write_log_from_cons (lg : Area) (tail b : Nat) (rest : List Nat) (m : Machine) :
    ∃ m', Wrote m m' [(lg.start + tail + 1, m.view b)] m.lh ∧
      (write_log_from lg tail (b :: rest) m).2 = (write_log_from lg (tail + 1) rest m').2 := by
  have h1 := bread_wrote (lg.start + tail + 1) m
  have h2 := h1.trans (bread_wrote b (bread (lg.start + tail + 1) m).2)
  have hdata : (bread b (bread (lg.start + tail + 1) m).2).1 = m.view b := by
    rw [bread_fst, h1.view]
    rfl
  have h3 := h2.trans (bwrite_wrote (lg.start + tail + 1) (m.view b)
    (bread b (bread (lg.start + tail + 1) m).2).2)
  rw [h2.lh, h1.lh] at h3
  refine ⟨_, h3, ?_⟩
  rw [← hdata]
  rfl

/-- One round of `install_trans`: the log slot's view goes home. -/
theorem install_trans_from_cons (lg : Area) (tail b : Nat) (rest : List Nat) (m : Machine) :
    ∃ m', Wrote m m' [(b, m.view (lg.start + tail + 1))] m.lh ∧
      (install_trans_from lg tail (b :: rest) m).2 = (install_trans_from lg (tail + 1) rest m').2 := by
  have h1 := bread_wrote (lg.start + tail + 1) m
  have h2 := h1.trans (bread_wrote b (bread (lg.start + tail + 1) m).2)
  have h3 := h2.trans (bwrite_wrote b (m.view (lg.start + tail + 1))
    (bread b (bread (lg.start + tail + 1) m).2).2)
  rw [h2.lh, h1.lh] at h3
  refine ⟨_, h3, ?_⟩
  rw [← bread_fst]
  rfl

theorem write_log_from_wrote (lg : Area) (tail : Nat) (blocks : List Nat) (m : Machine)
    (hfit : tail + blocks.length < lg.size) (hout : ∀ b ∈ blocks, ¬ lg.Inside b) :
    Wrote m (write_log_from lg tail blocks m).2 (logCopies lg m.view tail blocks) m.lh := by
  induction blocks generalizing tail m with
  | nil => exact Wrote.setLh m m.lh
  | cons b rest ih =>
    rw [length_cons] at hfit
    obtain ⟨m', hw, hrest⟩ := write_log_from_cons lg tail b rest m
    have h := hw.trans (ih (tail + 1) m' (by omega) fun x hx => hout x (mem_cons_of_mem b hx))
    -- the slot just written is no later block's home, so the later views are the old ones
    have hview : logCopies lg m'.view (tail + 1) rest = logCopies lg m.view (tail + 1) rest := by
      refine logCopies_congr lg _ _ fun x hx => ?_
      rw [hw.view]
      refine applyWrites_other _ _ _ fun w hmem he => ?_
      rw [mem_singleton] at hmem
      subst hmem
      exact hout x (mem_cons_of_mem b hx) ⟨by rw [← he]; omega, by rw [← he]; dsimp only; omega⟩
    rw [hview, hw.lh] at h
    rw [hrest]
    exact h

theorem install_trans_from_wrote (lg : Area) (tail : Nat) (blocks : List Nat) (m : Machine)
    (hfit : tail + blocks.length < lg.size) (hout : ∀ b ∈ blocks, ¬ lg.Inside b) :
    Wrote m (install_trans_from lg tail blocks m).2 (homeCopies lg m.view tail blocks) m.lh := by
  induction blocks generalizing tail m with
  | nil => exact Wrote.setLh m m.lh
  | cons b rest ih =>
    rw [length_cons] at hfit
    obtain ⟨m', hw, hrest⟩ := install_trans_from_cons lg tail b rest m
    have h := hw.trans (ih (tail + 1) m' (by omega) fun x hx => hout x (mem_cons_of_mem b hx))
    -- a home block is no log slot, so the later slots still hold what they held
    have hview : homeCopies lg m'.view (tail + 1) rest = homeCopies lg m.view (tail + 1) rest := by
      refine homeCopies_congr lg _ _ fun i hi hi' => ?_
      rw [hw.view]
      refine applyWrites_other _ _ _ fun w hmem he => ?_
      rw [mem_singleton] at hmem
      subst hmem
      have hb : b = lg.start + i + 1 := he
      exact hout b mem_cons_self ⟨by omega, by omega⟩
    rw [hview, hw.lh] at h
    rw [hrest]
    exact h

theorem write_head_wrote (lg : Area) (m : Machine) :
    Wrote m (write_head lg m).2 [(lg.start, fillHead (m.view lg.start) m.lh)] m.lh := by
  have h1 := bread_wrote lg.start m
  have h2 := h1.trans (bwrite_wrote lg.start (fillHead (m.view lg.start) m.lh) (bread lg.start m).2)
  have hhead : (write_head lg m).2 =
      (bwrite lg.start (fillHead (m.view lg.start) m.lh) (bread lg.start m).2).2 := by
    rw [← bread_fst lg.start m, ← h1.lh]
    rfl
  rw [hhead]
  rw [h1.lh] at h2
  exact h2

end Xv6.Log
