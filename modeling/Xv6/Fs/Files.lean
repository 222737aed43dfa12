import Xv6.Fs.Format

/-! Files as byte arrays: what `readi` and `writei` do to the contents of an inode.

A write that is accepted needs two things more: the blocks it has to allocate are free
(`BlocksPermit`), and the transaction has room for what it logs (`LogPermits`). -/
namespace Xv6.Fs
open Lib

variable {sb : Superblock} {s : State} {ip : Ptr} {i off n : Nat} {src : List Byte}

/-- The blocks that a write of `n` bytes at `off` still needs are free. -/
def BlocksPermit (sb : Superblock) (s : State) (ip : Ptr) (off n : Nat) : Prop :=
  ¬ Short sb s ip (pointers off n)

/-- The transaction has room for a write of `n` bytes at `off`: for the blocks that the bytes are
in, the bitmap block and the indirect block. -/
def LogPermits (sb : Superblock) (s : State) (off n : Nat) : Prop :=
  0 < n → 1 ≤ s.outstanding ∧ s.lh.length + blocks off n + 2 < LOGSIZE ∧
    s.lh.length + blocks off n + 2 < sb.nlog - 1

theorem LogPermits.not_logStop (h : LogPermits sb s off n) (hn : 0 < n) :
    ¬ LogStop sb s (blocks off n + 2) e := by
  obtain ⟨ho, h1, h2⟩ := h hn
  rintro (⟨_, hf⟩ | ⟨_, hout⟩) <;> omega

theorem readi_node_runs (L : Layout sb) (hg : Good sb s) (hp : Points s ip i)
    (hv : (s.icache ip).valid = true) (ht : (nodes sb s i).type ≠ T_DEV) (hoff : off < 2 ^ 32)
    (hn : n < 2 ^ 32) :
    Runs (readi sb ip off n) s
      (fun r t => r = (if (nodes sb s i).data.length < off ∨ 2 ^ 32 ≤ off + n then none
        else some (((nodes sb s i).data.drop off).take n)) ∧ t = s) E := by
  obtain ⟨hsync, h0⟩ := hg.sync ip hp.1 hv
  have hmem := hg.mem_eq hp.1 hv
  have hnode := hg.node_eq hp hv
  rw [hp.2] at hsync
  rw [hnode] at ht
  have hlen : (nodes sb s i).data.length = (s.icache ip).d.size.toNat := by
    rw [hnode, length_content, ← hsync]
  refine (readi_runs L (hg.ready hp.1 hv) (by rw [hmem]; exact hg.owned)
    (by rw [hmem]; exact hg.solid) ht hoff hn).post fun r t ⟨h, hts⟩ => ⟨?_, hts⟩
  rw [h, hlen, hmem, hp.2, hnode]

/-- The contents of files and directories are byte arrays: `writei` answers `-1` and changes
nothing exactly when the range is bad, and otherwise writes `src` over the contents at
`off`, growing the file to `off + n` if need be and changing no other inode; `readi` answers
the bytes of the contents. -/
theorem contents_refine (L : Layout sb) (hg : Good sb s) (hp : Points s ip i)
    (hv : (s.icache ip).valid = true)
    (ht : (nodes sb s i).type = T_FILE ∨ (nodes sb s i).type = T_DIR)
    (hoff : off < 2 ^ 32) (hn : n < 2 ^ 32) (hsrc : src.length = n) :
    -- the arguments that `writei` refuses
    ((nodes sb s i).data.length < off ∨ 2 ^ 32 ≤ off + n ∨ MAXFILE * BSIZE < off + n ↔
      writei sb ip src off s = .ok (none, s)) ∧
    (∀ t, writei sb ip src off s = .ok (none, t) → t = s) ∧
    -- what it does to the contents
    (∀ r t, writei sb ip src off s = .ok (some r, t) →
      r = n ∧ Good sb t ∧
      (∀ pos, (nodes sb t i).data.getD pos 0 =
        if off ≤ pos ∧ pos < off + n then src.getD (pos - off) 0 else (nodes sb s i).data.getD pos 0) ∧
      (nodes sb t i).data.length = max (nodes sb s i).data.length (off + n) ∧
      ∀ j, j ≠ i → nodes sb t j = nodes sb s j) ∧
    -- it does answer
    (BlocksPermit sb s ip off n → LogPermits sb s off n → ∃ r t, writei sb ip src off s = .ok (r, t)) ∧
    -- what `readi` answers
    readi sb ip off n s = .ok
      (if (nodes sb s i).data.length < off ∨ 2 ^ 32 ≤ off + n then none
        else some (((nodes sb s i).data.drop off).take n), s) := by
  have hdev : (nodes sb s i).type ≠ T_DEV := by
    rcases ht with h | h <;> rw [h] <;> decide
  have hbad : (nodes sb s i).data.length < off ∨ 2 ^ 32 ≤ off + n ∨ MAXFILE * BSIZE < off + n ↔
      ¬ WriteRange (nodes sb s i).data.length off n := by
    rw [WriteRange]
    omega
  subst hsrc
  have hw := writei_runs L hg hp hv hdev hoff hn
  have hnone : ∀ t, writei sb ip src off s = .ok (none, t) →
      ¬ WriteRange (nodes sb s i).data.length off src.length ∧ t = s := fun t h => by
    obtain ⟨h1, h2⟩ := hw.of_ok h
    have hr : ¬ WriteRange (nodes sb s i).data.length off src.length := fun hr => by
      cases (h1 hr).1
    exact ⟨hr, (h2 hr).2⟩
  refine ⟨hbad.trans ⟨fun hr => ?_, fun h => (hnone s h).1⟩, fun t h => (hnone t h).2,
    fun r t h => ?_, fun hb hl => ?_, ?_⟩
  · match hx : writei sb ip src off s with
    | .ok (r, t) =>
      obtain ⟨h1, h2⟩ := (hw.of_ok hx).2 hr
      rw [h1, h2]
    | .error e => exact absurd (hw.of_error hx).1.1 hr
  · have hr : WriteRange (nodes sb s i).data.length off src.length := by
      by_contra hr
      cases ((hw.of_ok h).2 hr).1
    obtain ⟨hrn, hgt, _, hnt, _⟩ := (hw.of_ok h).1 hr
    rw [Option.some.injEq] at hrn
    have hi : nodes sb t i = (nodes sb s i).write off src := by rw [hnt, Function.update_self]
    refine ⟨hrn, hgt, fun pos => ?_, ?_, fun j hj => by rw [hnt, Function.update_of_ne hj]⟩
    · rw [hi]
      exact getD_splice hr.1 pos
    · rw [hi]
      exact length_splice hr.1
  · match hx : writei sb ip src off s with
    | .ok (r, t) => exact ⟨r, t, rfl⟩
    | .error e =>
      obtain ⟨⟨_, hpos⟩, h | h⟩ := hw.of_error hx
      · exact absurd h (hl.not_logStop hpos)
      · exact absurd h.2 hb
  · obtain ⟨r, t, hx, hr, rfl⟩ := (readi_node_runs L hg hp hv hdev hoff hn).answers
    rw [hx, hr]

/-- An empty file refuses a write past its end, takes one at its start, and reads empty. -/
theorem contents_refine_lone :
    writei Mkfs.sb 0 [104, 105] 1 lone = .ok (none, lone) ∧
    (∃ t, writei Mkfs.sb 0 [104, 105] 0 lone = .ok (some 2, t) ∧ (nodes Mkfs.sb t 2).data.length = 2) ∧
    readi Mkfs.sb 0 0 2 lone = .ok (some [], lone) := by
  have hnode : nodes Mkfs.sb lone 2 = ⟨T_FILE, 0, 0, 1, []⟩ := by
    rw [nodes, laid_lone.node, Function.update_self]
  have hpoints : Points lone 0 2 := ⟨by decide, rfl⟩
  have hrefuse := contents_refine layout_mkfs good_lone hpoints rfl (.inl (by rw [hnode]))
    (show 1 < 2 ^ 32 by decide) (by decide) (show [104, 105].length = 2 from rfl)
  obtain ⟨hbad, hsame, htake, hanswer, hread⟩ := contents_refine layout_mkfs good_lone hpoints rfl
    (.inl (by rw [hnode])) (show 0 < 2 ^ 32 by decide) (by decide) (show [104, 105].length = 2 from rfl)
  have hblocks : BlocksPermit Mkfs.sb lone 0 0 2 := Nat.not_lt.mpr <| by
    -- one block is needed, and block 59 is free
    have hfree : 59 ∈ free Mkfs.sb (mem Mkfs.sb lone 0) := by
      rw [good_lone.mem_eq (by decide) rfl, free, Finset.mem_filter, laid_lone.used]
      exact ⟨Finset.mem_range.mpr (by decide), by decide⟩
    calc (missing (mem Mkfs.sb lone 0) (lone.icache 0).inum (pointers 0 2)).card
      _ ≤ (pointers 0 2).card := Finset.card_filter_le _ _
      _ = 1 := by decide
      _ ≤ (free Mkfs.sb (mem Mkfs.sb lone 0)).card := Finset.card_pos.mpr ⟨59, hfree⟩
  obtain ⟨r, t, hx⟩ := hanswer hblocks fun _ => ⟨by decide, by decide, by decide⟩
  rw [hnode] at hrefuse hread htake hbad
  refine ⟨hrefuse.1.mp (.inl (by decide)), ⟨t, ?_⟩, hread⟩
  cases r with
  | none =>
    rw [hsame t hx] at hx
    exact absurd (hbad.mpr hx) (by decide)
  | some r =>
    obtain ⟨hr, -, -, hlen, -⟩ := htake r t hx
    exact ⟨by rw [hx, hr], hlen⟩

end Xv6.Fs
