import Xv6.Fs.Inode
import Xv6.Fs.Content

/-! What the block functions do: `log_write`, `bzero`, `balloc`, `bfree`.

Each function has one `Runs` lemma, which its callers use and which names every
way it can stop. A function that logs stops when the log has no room; how many
blocks it logs is counted, so that a caller can tell when there is room. -/
namespace Xv6.Fs
open Lib

variable {sb : Superblock} {s s' s'' : State} {j k b : Nat}

/-! ### Logging -/

/-- A stop of `log_write` when at most `k` blocks have been logged since `s`. -/
def LogStop (sb : Superblock) (s : State) (k : Nat) (e : Halt) : Prop :=
  (e = .panic .tooBig ∧ (LOGSIZE ≤ s.lh.length + k ∨ sb.nlog - 1 ≤ s.lh.length + k)) ∨
    (e = .panic .outsideTrans ∧ s.outstanding < 1)

/-- `s'` is `s` with blocks stored into, and at most `k` more blocks logged. -/
structure Stored (k : Nat) (s s' : State) : Prop where
  icache : s'.icache = s.icache
  console : s'.console = s.console
  outstanding : s'.outstanding = s.outstanding
  lh : s'.lh.length ≤ s.lh.length + k

theorem Stored.refl (s : State) : Stored 0 s s := ⟨rfl, rfl, rfl, Nat.le_refl _⟩

theorem Stored.trans (h : Stored j s s') (h' : Stored k s' s'') : Stored (j + k) s s'' :=
  ⟨h'.icache.trans h.icache, h'.console.trans h.console, h'.outstanding.trans h.outstanding, by
    have := h.lh
    have := h'.lh
    omega⟩

theorem LogStop.mono (h : LogStop sb s j e) (hjk : j ≤ k) : LogStop sb s k e :=
  h.imp_left fun ⟨he, hf⟩ => ⟨he, hf.imp (by omega) (by omega)⟩

theorem LogStop.before (h : LogStop sb s' k e) (hlh : s'.lh.length ≤ s.lh.length + j)
    (ho : s'.outstanding = s.outstanding) : LogStop sb s (j + k) e := by
  rcases h with ⟨he, hf⟩ | ⟨he, hf⟩
  · exact .inl ⟨he, hf.imp (by omega) (by omega)⟩
  · exact .inr ⟨he, by omega⟩

theorem Stored.logStop (h : Stored j s s') (he : LogStop sb s' k e) :
    LogStop sb s (j + k) e := he.before h.lh h.outstanding

/-! ### Buffers -/

theorem bread_ok (s : State) (hb : b < FSSIZE) :
    bread ROOTDEV b s = .ok (s.disk b, s) := by
  show (if ROOTDEV ≠ ROOTDEV then panic .noDisk
    else if FSSIZE ≤ b then panic .blockno else pure (s.disk b) : M Block) s = _
  rw [if_neg (by simp), if_neg (by omega)]
  rfl

/-- What logging block `b` adds to the header `lh`. -/
def cost (lh : List Nat) (b : Nat) : Nat := if b ∈ lh then 0 else 1

theorem cost_le (lh : List Nat) (b : Nat) : cost lh b ≤ 1 := by
  rw [cost]
  split <;> omega

theorem length_record (lh : List Nat) (b : Nat) : (Log.record lh b).length = lh.length + cost lh b := by
  rw [Log.record_eq, cost]
  split
  · rfl
  · rw [List.length_append, List.length_singleton]

theorem cost_record_self (lh : List Nat) (b : Nat) : cost (Log.record lh b) b = 0 :=
  if_pos (Log.mem_record.mpr (.inl rfl))

theorem cost_record_le (lh : List Nat) (b c : Nat) : cost (Log.record lh b) c ≤ cost lh c := by
  by_cases hc : c ∈ lh
  · rw [cost, if_pos (Log.mem_record.mpr (.inr hc))]
    exact Nat.zero_le _
  · rw [cost.eq_1 lh, if_neg hc]
    exact cost_le _ _

theorem log_write_runs (sb : Superblock) (s : State) (b : Nat) :
    Runs (log_write sb b) s
      (fun _ s' => Stored 1 s s' ∧ s'.disk = s.disk ∧ s'.lh = Log.record s.lh b) (LogStop sb s 0) := by
  refine Runs.bind_get (Runs.ite (fun hf => ?_) fun _ => ?_)
  · exact Runs.throw (.inl ⟨rfl, hf⟩)
  · refine Runs.ite (fun ho => Runs.throw (.inr ⟨rfl, ho⟩)) fun _ => ?_
    refine Runs.modify ⟨⟨rfl, rfl, rfl, ?_⟩, rfl, rfl⟩
    exact (length_record _ _).le.trans (Nat.add_le_add_left (cost_le _ _) _)

theorem store_log_runs (sb : Superblock) (s : State) (b : Nat) (f : Block → Block) :
    Runs (do store b f; log_write sb b) s
      (fun _ s' => Stored 1 s s' ∧ s'.disk = Function.update s.disk b (f (s.disk b)) ∧
        s'.lh = Log.record s.lh b)
      (LogStop sb s 0) :=
  Runs.bind_ok rfl ((log_write_runs sb _ b).mono
    (fun _ _ ⟨h, hd⟩ => ⟨⟨h.icache, h.console, h.outstanding, h.lh⟩, hd⟩) fun _ he => he)

/-! ### Blocks -/

variable (L : Layout sb)
include L

theorem Layout.lt_fssize (hb : b < sb.size) : b < FSSIZE := hb.trans_le L.size

theorem Layout.bblock_lt (hb : b < sb.size) : BBLOCK b sb < FSSIZE := by
  have h1 := L.data
  have h2 := L.size
  rw [L.bblock hb]
  rw [nmeta] at h1
  omega

theorem Layout.iblock_lt_fssize (hi : i < sb.ninodes) : IBLOCK i sb < FSSIZE := by
  have h1 := L.iblock_not_data hi
  have h2 := L.size
  rw [nmeta] at h1
  omega

theorem bzero_runs (s : State) (hb : IsData sb b) :
    Runs (bzero sb ROOTDEV b) s
      (fun _ s' => Stored 1 s s' ∧ view sb s'.disk = (view sb s.disk).setData b Bytes.zero ∧
        s'.lh = Log.record s.lh b)
      (LogStop sb s 0) :=
  Runs.bind_ok (bread_ok s (L.lt_fssize hb.2)) ((store_log_runs sb s b _).post
    fun _ _ ⟨h, hd, hlh⟩ => ⟨h, by rw [hd, view_data L _ hb], hlh⟩)

omit L in
theorem freeBit_some (h : freeBit sb bp b n bi = some c) :
    b + c < sb.size ∧ bp.bit c = false := by
  induction n generalizing bi with
  | zero => cases h
  | succ n ih =>
    rw [freeBit] at h
    split at h
    · rename_i hlt
      split at h
      · rename_i hbit
        cases h
        exact ⟨hlt, hbit⟩
      · exact ih h
    · cases h

omit L in
theorem freeBit_none (h : freeBit sb bp b n bi = none)
    (hc : bi ≤ c) (hn : c < bi + n) (hlt : b + c < sb.size) : bp.bit c = true := by
  induction n generalizing bi with
  | zero => omega
  | succ n ih =>
    rw [freeBit, if_pos (by omega)] at h
    split at h
    · cases h
    · rename_i hbit
      by_cases he : c = bi
      · rw [he]
        simpa using hbit
      · exact ih h (by omega) (by omega)

theorem used_eq_bit (hb : b < sb.size) :
    (view sb disk).used b = (disk (BBLOCK 0 sb)).bit b := by
  have h0 : 0 < sb.size := Nat.zero_lt_of_lt hb
  simp only [view, L.bblock hb, L.bblock h0, L.bit_index hb, hb, decide_true, Bool.true_and]

/-- `balloc` answers a data block that was free, zeroed and now marked. -/
theorem balloc_runs (s : State) (hm : ∀ b, b < nmeta sb → (view sb s.disk).used b = true) :
    Runs (balloc sb ROOTDEV) s
      (fun b s' => Stored 2 s s' ∧ IsData sb b ∧ (view sb s.disk).used b = false ∧
        view sb s'.disk = taken (view sb s.disk) b ∧
        s'.lh = Log.record (Log.record s.lh (BBLOCK 0 sb)) b)
      (fun e => LogStop sb s (cost s.lh (BBLOCK 0 sb)) e ∨ (e = .panic .balloc ∧ free sb (view sb s.disk) = ∅)) := by
  have hpos : 0 < sb.size := by
    have h1 := L.data
    rw [nmeta] at h1
    omega
  have hone : sb.size / BPB = 0 := Nat.div_eq_of_lt (by
    have := L.size
    simp only [FSSIZE, BPB, BSIZE] at *
    omega)
  rw [balloc, hone]
  show Runs (balloc_from sb ROOTDEV [0]) _ _ _
  rw [balloc_from]
  refine Runs.ite (fun _ => ?_) fun h => absurd hpos h
  refine Runs.bind_ok (bread_ok s (L.bblock_lt hpos)) ?_
  cases hfree : freeBit sb (s.disk (BBLOCK 0 sb)) 0 BPB 0 with
  | none =>
    refine Runs.throw (.inr ⟨rfl, Finset.filter_eq_empty_iff.mpr fun b hb => ?_⟩)
    have hlt := Finset.mem_range.mp hb
    have hbpb : b < 0 + BPB := by
      have := L.lt_fssize hlt
      simp only [FSSIZE, BPB, BSIZE] at *
      omega
    rw [used_eq_bit L hlt, freeBit_none hfree (Nat.zero_le b) hbpb (by omega)]
    decide
  | some bi =>
    obtain ⟨hlt, hbit⟩ := freeBit_some hfree
    rw [Nat.zero_add] at hlt
    have hu : (view sb s.disk).used bi = false := by rw [used_eq_bit L hlt, hbit]
    have hdata : IsData sb bi := by
      refine ⟨Nat.not_lt.mp fun hb => ?_, hlt⟩
      rw [hm bi hb] at hu
      cases hu
    have hset := view_setBit L s.disk hlt
    rw [L.bblock hlt, ← L.bblock hpos, L.bit_index hlt] at hset
    simp only [Nat.zero_add]
    refine Runs.bind_ok rfl ?_
    refine Runs.bind ((log_write_runs sb _ _).stops fun e he => .inl (he.mono (Nat.zero_le _)))
      fun _ t ⟨ht, htd, htl⟩ => ?_
    refine Runs.bind ((bzero_runs L t hdata).stops fun e he => .inl (he.before ?_ ht.outstanding))
      fun _ u ⟨hu', hud, hul⟩ => ?_
    · rw [htl]
      exact (length_record _ _).le
    refine Runs.pure ⟨?_, hdata, hu, ?_, by rw [hul, htl]⟩
    · have h := ht.trans hu'
      exact ⟨h.icache, h.console, h.outstanding, h.lh⟩
    · rw [hud, htd, hset]
      rfl

theorem bfree_runs (s : State) (hb : b < sb.size) (hu : (view sb s.disk).used b = true) :
    Runs (bfree sb ROOTDEV b) s
      (fun _ s' => Stored 1 s s' ∧ view sb s'.disk = (view sb s.disk).setUsed b false)
      (LogStop sb s 0) := by
  have hbit : (s.disk (BBLOCK b sb)).bit (b % BPB) = true := by
    simp only [view, Bool.and_eq_true] at hu
    exact hu.2
  refine Runs.bind_ok (bread_ok s (L.bblock_lt hb)) (Runs.ite (fun h => ?_) fun _ => ?_)
  · rw [hbit] at h
    cases h
  · refine (store_log_runs sb s _ _).post fun _ _ h => ⟨h.1, ?_⟩
    rw [h.2.1, view_clearBit L _ hb]

end Xv6.Fs
