import Xv6.Uniq.Report
import Xv6.Fs.Settle

/-! How the kernel's `uniq` and `head` read a file.

`readline` fills a buffer with the 256 bytes at its position, over what was there before, and
cuts it at the newline. Whatever the buffer held, and whatever stands after it, the string in
it is then the line at that position, or the first 256 bytes of it. -/
namespace Xv6.Uniq
open Lib Fs List

variable {sb : Superblock} {s : State} {ip : Ptr} {i : Nat}

/-! ### One line -/

theorem str_append (h : 0 ∉ a) (b : List Byte) : str (a ++ b) = a ++ str b :=
  takeWhile_append_of_pos fun c hc => decide_eq_true fun (h0 : c = 0) => h (h0 ▸ hc)

/-- The loop of `readline` finds the end of the line in the `bytes` read. -/
theorem readline_from_text (rest : List Byte) (h0 : 0 ∉ bytes)
    (hj : j ≤ (firstLine newline bytes).length) (hf : strlen (bytes ++ rest) ≤ j + fuel) :
    str (readline_from bytes.length fuel (bytes ++ rest) j).1 = firstLine newline bytes ∧
      (readline_from bytes.length fuel (bytes ++ rest) j).2 = (firstLine newline bytes).length := by
  have hn : (firstLine newline bytes).length ≤ bytes.length := length_firstLine_le
  have hlen : strlen (bytes ++ rest) = bytes.length + strlen rest := by
    rw [strlen, str_append h0, length_append, strlen]
  -- The loop ends at the end of the string: there is no newline in it.
  have hend : ∀ k, k ≤ (firstLine newline bytes).length → strlen (bytes ++ rest) ≤ k →
      str (bytes ++ rest) = firstLine newline bytes ∧ k = (firstLine newline bytes).length := by
    intro k hk hle
    have hr : strlen rest = 0 := by omega
    have hb : firstLine newline bytes = bytes := by
      rw [firstLine_eq_take, take_of_length_le (by omega)]
    refine ⟨?_, by omega⟩
    rw [str_append h0, length_eq_zero_iff.mp hr, append_nil, hb]
  induction fuel generalizing j with
  | zero => exact hend j hj hf
  | succ fuel ih =>
    rw [readline_from]
    split
    · rename_i hlt
      by_cases hjn : j < (firstLine newline bytes).length
      · -- Before the end of the line there is neither a newline nor the end of the bytes.
        have hget : (bytes ++ rest).getD j 0 = (firstLine newline bytes)[j] := by
          rw [getD_append _ _ _ _ (by omega), getD_eq_getElem _ _ (by omega)]
          exact (firstLine_isPrefix.getElem hjn).symm
        have hne : (firstLine newline bytes)[j] ≠ newline := fun he =>
          sep_notMem_firstLine (he ▸ getElem_mem hjn)
        rw [if_neg (by rw [hget]; exact fun h => h.elim hne (by omega))]
        exact ih hjn (by omega)
      · have hjeq : j = (firstLine newline bytes).length := by omega
        have hstop : (bytes ++ rest).getD j 0 = newline ∨ bytes.length ≤ j := by
          rcases drop_firstLine newline bytes with hd | hd
          · exact .inr (by rw [hjeq]; exact drop_eq_nil_iff.mp hd)
          · refine .inl ?_
            have hjb : j < bytes.length := by
              by_contra hge
              rw [← hjeq, drop_eq_nil_of_le (by omega)] at hd
              cases hd
            rw [getD_append _ _ _ _ hjb, getD_eq_getElem _ _ hjb]
            rw [← hjeq, drop_eq_getElem_cons hjb] at hd
            exact (List.cons.inj hd).1
        rw [if_pos hstop]
        refine ⟨?_, hjeq⟩
        rw [poke, take_append_of_le_length (by omega), hjeq, ← firstLine_eq_take]
        exact str_append_zero (fun h => h0 (firstLine_isPrefix.subset h)) _
    · rename_i hge
      exact hend j hj (by omega)

theorem filled (bytes buf : List Byte) : ∃ rest,
    (if bytes.length < 4 then poke (bytes ++ buf.drop bytes.length) bytes.length 0
      else bytes ++ buf.drop bytes.length) = bytes ++ rest := by
  split
  · refine ⟨0 :: (bytes ++ buf.drop bytes.length).drop (bytes.length + 1), ?_⟩
    rw [poke, take_left' rfl]
  · exact ⟨_, rfl⟩

/-- `readline` answers -1 past the end of the file, and otherwise the line at `start`, cut to
256 bytes. -/
theorem readline_runs (L : Layout sb) (hg : Good sb s) (hp : Points s ip i)
    (hv : (s.icache ip).valid = true) (ht : (nodes sb s i).type ≠ T_DEV)
    (h0 : 0 ∉ (nodes sb s i).data) (buf : List Byte) (hs : start + BUF_SIZE < 2 ^ 32) :
    Runs (readline sb ip buf start) s
      (fun r t => t = s ∧
        if (nodes sb s i).data.length < start then r.2 = none
        else
          let line := (firstLine newline ((nodes sb s i).data.drop start)).take BUF_SIZE
          str r.1 = line ∧ r.2 = some line.length) E := by
  refine Runs.bind (R := fun r t => r = _ ∧ t = s) (by
    rw [Nat.mod_eq_of_lt (by omega)]
    exact readi_node_runs L hg hp hv ht (by omega) (by decide)) fun r t hr => ?_
  obtain ⟨hr, rfl⟩ := hr
  by_cases hlt : (nodes sb t i).data.length < start
  · rw [if_pos (.inl hlt)] at hr
    rw [hr]
    exact Runs.pure ⟨rfl, by rw [if_pos hlt]⟩
  · rw [if_neg fun h => h.elim hlt (by omega)] at hr
    rw [hr]
    generalize hl : (nodes sb t i).data.drop start = l
    have hl0 : 0 ∉ l.take BUF_SIZE := fun h => h0 (hl ▸ mem_of_mem_take h |> mem_of_mem_drop)
    obtain ⟨rest, hrest⟩ := filled (l.take BUF_SIZE) buf
    refine Runs.pure ⟨rfl, ?_⟩
    rw [if_neg hlt]
    have hread := readline_from_text rest hl0 (Nat.zero_le _) (Nat.le_of_eq (Nat.zero_add _).symm)
    rw [← hrest] at hread
    rw [← firstLine_take]
    exact ⟨hread.1, congrArg some hread.2⟩

theorem readline_from_length (hj : j ≤ strlen buf) (hf : strlen buf ≤ j + fuel) :
    strlen (readline_from n fuel buf j).1 = (readline_from n fuel buf j).2 := by
  induction fuel generalizing j with
  | zero => exact Nat.le_antisymm hf hj
  | succ fuel ih =>
    rw [readline_from]
    split
    · rename_i hlt
      split
      · have h0 : 0 ∉ buf.take j := fun h => by
          refine notMem_str buf ?_
          rw [str_eq_take]
          exact (take_prefix_take_left hj).subset h
        have hlen := strlen_le buf
        rw [poke, strlen, str_append_zero h0, length_take]
        omega
      · exact ih hlt (by omega)
    · rename_i hge
      exact Nat.le_antisymm (Nat.not_lt.mp hge) hj

/-- Whatever it read, `readline` answers the length of the string in the buffer. -/
theorem readline_length (buf : List Byte) (start : Nat) (s : State) :
    Runs (readline sb ip buf start) s (fun r _ => ∀ n, r.2 = some n → strlen r.1 = n) fun _ => True := by
  refine Runs.bind Runs.always fun r t _ => ?_
  cases r with
  | none => exact Runs.pure fun n h => by cases h
  | some bytes =>
    refine Runs.pure fun n h => ?_
    rw [← Option.some.inj h]
    exact readline_from_length (Nat.zero_le _) (Nat.le_of_eq (Nat.zero_add _).symm)

/-! ### The lines that are read -/

/-- The lines of a file as the loops of `uniq` and `head` take them, `k` at most: up to an empty
one, and cut to the buffer. -/
def cuts : Nat → List Byte → List (List Byte)
  | 0, _ => []
  | k + 1, l =>
    let line := (firstLine newline l).take BUF_SIZE
    if line = [] then [] else line :: cuts k (l.drop (line.length + 1))

/-- All lines of a file that are taken. -/
def fileLines (contents : List Byte) : List (List Byte) := cuts (contents.length + 1) contents

/-- No line is empty, or longer than the buffer. -/
def Fit (ls : List (List Byte)) : Prop := ∀ x ∈ ls, x ≠ [] ∧ x.length ≤ BUF_SIZE

theorem fit_nil : Fit [] := fun _ h => absurd h not_mem_nil

theorem Fit.nil_notMem (h : Fit ls) : [] ∉ ls := fun hnil => (h [] hnil).1 rfl

/-- The first `n` lines of a text, without empty ones at the end. -/
def top (n : Nat) (contents : List Byte) : List (List Byte) := trim ((lines newline contents).take n)

theorem cuts_nil (k : Nat) : cuts k [] = [] := by
  cases k <;> rfl

theorem nil_notMem_cuts (k : Nat) (l : List Byte) : [] ∉ cuts k l := by
  induction k generalizing l with
  | zero => exact not_mem_nil
  | succ k ih =>
    rw [cuts]
    split
    · exact not_mem_nil
    · rename_i hne
      exact fun h => (mem_cons.mp h).elim (fun h => hne h.symm) (ih _)

theorem newline_notMem_cuts (h : x ∈ cuts k l) : newline ∉ x := by
  induction k generalizing l with
  | zero => exact absurd h not_mem_nil
  | succ k ih =>
    rw [cuts] at h
    split at h
    · exact absurd h not_mem_nil
    · rcases mem_cons.mp h with rfl | h
      · exact fun hx => sep_notMem_firstLine (mem_of_mem_take hx)
      · exact ih h

/-- The first lines are taken, exactly when they fit. -/
theorem cuts_eq_top_iff (k : Nat) (l : List Byte) : cuts k l = top k l ↔ Fit (top k l) := by
  induction k generalizing l with
  | zero => exact iff_of_true rfl fit_nil
  | succ k ih =>
    by_cases hnil : l = []
    · rw [hnil]
      exact iff_of_true rfl fit_nil
    have htop : top (k + 1) l =
        trim (firstLine newline l :: (lines newline (l.drop ((firstLine newline l).length + 1))).take k) := by
      rw [top, lines_eq hnil, take_succ_cons]
    rw [htop, cuts]
    generalize firstLine newline l = a
    by_cases ha : a = []
    · -- An empty line is taken for the end of the file.
      rw [ha, take_nil, if_pos rfl]
      refine ⟨fun h => by rw [← h]; exact fit_nil, fun h => ?_⟩
      rw [trim] at h ⊢
      split
      · rfl
      · rename_i hne
        rw [if_neg hne] at h
        exact absurd rfl (h [] (mem_cons_self ..)).1
    · have hline : a.take BUF_SIZE ≠ [] := fun h => ha ((take_eq_nil_iff.mp h).resolve_left (by decide))
      rw [trim_cons ha, if_neg hline, List.cons.injEq, Fit, forall_mem_cons]
      by_cases hle : a.length ≤ BUF_SIZE
      · rw [take_of_length_le hle, and_iff_right rfl, and_iff_right ⟨ha, hle⟩]
        exact ih _
      · refine iff_of_false (fun h => hle ?_) fun h => hle h.1.2
        rw [← h.1]
        exact length_take_le ..

theorem top_of_length_le (h : l.length ≤ k) : top k l = trim (lines newline l) := by
  rw [top, take_of_length_le (Nat.le_trans length_lines_le h)]

theorem top_min (h : l.length ≤ n) : top (min n k) l = top k l := by
  rcases Nat.le_total n k with hk | hk
  · rw [Nat.min_eq_left hk, top_of_length_le h, top_of_length_le (Nat.le_trans h hk)]
  · rw [Nat.min_eq_right hk]

theorem cuts_eq_lines_iff (h : l.length ≤ k) :
    cuts k l = lines newline l ↔ Fit (lines newline l) := by
  have hiff := cuts_eq_top_iff k l
  rw [top_of_length_le h] at hiff
  constructor
  · intro heq
    have htrim : trim (lines newline l) = lines newline l :=
      trim_of_ne_nil (heq ▸ nil_notMem_cuts k l)
    rw [htrim] at hiff
    exact hiff.mp heq
  · intro hfit
    rw [trim_of_ne_nil hfit.nil_notMem] at hiff
    exact hiff.mpr hfit

/-- At the end of the file there are no more lines. -/
theorem cuts_enough (h : l.length ≤ k) : cuts (k + 1) l = cuts k l := by
  induction k generalizing l with
  | zero => rw [length_eq_zero_iff.mp (Nat.le_zero.mp h), cuts_nil, cuts_nil]
  | succ k ih =>
    have hrest : (l.drop (((firstLine newline l).take BUF_SIZE).length + 1)).length ≤ k := by
      rw [length_drop]
      omega
    rw [cuts, ih hrest]
    rfl

theorem cuts_eq_fileLines (h : l.length < k) : cuts k l = fileLines l := by
  induction k, h using Nat.le_induction with
  | base => rfl
  | succ k hk ih => rw [cuts_enough (Nat.le_of_succ_le hk), ih]

theorem fileLines_eq_lines_iff : fileLines l = lines newline l ↔ Fit (lines newline l) :=
  cuts_eq_lines_iff (Nat.le_succ _)

/-! ### The loop of `uniq` -/

/-- The texts on which the loop of `sys_uniq_kernel` executes its body. -/
def uniq_texts (sb : Superblock) (ip : Ptr) : Nat → Nat → List Byte → M (List (List Byte))
  | 0, _, _ => pure []
  | fuel + 1, indexCounter, buf => do
    let (buf, bytesRead) ← readline sb ip buf indexCounter
    match bytesRead with
    | none => pure []
    | some 0 => pure []
    | some n => do
      let rest ← uniq_texts sb ip fuel (indexCounter + n + 1) buf
      pure (str buf :: rest)

/-- The loop of `sys_uniq_kernel` reports on its texts. -/
theorem uniq_loop_texts (fl : Flags) (fuel start : Nat) (v : Vars) (s : State) :
    Alike (uniq_texts sb ip fuel start v.current_line) (uniq_loop sb ip fl fuel start v) s
      fun ls r => r.1.run = (v.run.all fl ls).1 ∧ r.2 = (v.run.all fl ls).2 := by
  induction fuel generalizing start v s with
  | zero => exact Alike.pure ⟨rfl, rfl⟩
  | succ fuel ih =>
    refine Alike.step fun r t => ?_
    obtain ⟨buf, n⟩ := r
    cases n with
    | none => exact Alike.pure ⟨rfl, rfl⟩
    | some n =>
      cases n with
      | zero => exact Alike.pure ⟨rfl, rfl⟩
      | succ n =>
        obtain ⟨hrun, hout⟩ := uniq_body_run fl {v with current_line := buf}
        have hrest := ih (start + (n + 1) + 1) (uniq_body fl {v with current_line := buf}).1 t
        rw [uniq_body_current_line, hrun] at hrest
        refine Alike.bind (f := fun ls => pure (str buf :: ls))
          (g := fun r => pure (r.1, (uniq_body fl {v with current_line := buf}).2 ++ r.2)) hrest
          fun ls r u hr => Alike.pure ?_
        rw [hr.2, hout]
        exact ⟨hr.1, rfl⟩

theorem uniq_texts_ne_nil (fuel start : Nat) (buf : List Byte) (s : State) :
    Runs (uniq_texts sb ip fuel start buf) s (fun ls _ => [] ∉ ls) fun _ => True := by
  induction fuel generalizing start buf s with
  | zero => exact Runs.pure not_mem_nil
  | succ fuel ih =>
    refine Runs.bind (readline_length buf start s) fun r t hr => ?_
    obtain ⟨buf', n⟩ := r
    cases n with
    | none => exact Runs.pure not_mem_nil
    | some n =>
      cases n with
      | zero => exact Runs.pure not_mem_nil
      | succ n =>
        refine Runs.bind (ih _ _ t) fun ls u hls => Runs.pure fun h => ?_
        rcases mem_cons.mp h with h | h
        · have hlen := hr (n + 1) rfl
          rw [strlen, ← h] at hlen
          cases hlen
        · exact hls h

/-- On a file the loop works on the lines as they are read. -/
theorem uniq_texts_runs (L : Layout sb) (hg : Good sb s) (hp : Points s ip i)
    (hv : (s.icache ip).valid = true) (ht : (nodes sb s i).type ≠ T_DEV)
    (h0 : 0 ∉ (nodes sb s i).data) (fuel : Nat) (hs : start ≤ (nodes sb s i).data.length + 1)
    (buf : List Byte) :
    Runs (uniq_texts sb ip fuel start buf) s
      (fun r t => r = cuts fuel ((nodes sb s i).data.drop start) ∧ t = s) E := by
  have hmax := hg.length_le i
  simp only [MAXFILE, BSIZE, NDIRECT, NINDIRECT] at hmax
  induction fuel generalizing start buf with
  | zero => exact Runs.pure ⟨rfl, rfl⟩
  | succ fuel ih =>
    refine Runs.bind (readline_runs L hg hp hv ht h0 buf (by simp only [BUF_SIZE]; omega)) fun r t hr => ?_
    obtain ⟨rfl, hr⟩ := hr
    obtain ⟨buf', n⟩ := r
    split at hr
    · -- The position is past the end of the file: the last line had no newline.
      subst hr
      refine Runs.pure ⟨?_, rfl⟩
      rw [drop_eq_nil_of_le (by omega), cuts_nil]
    · obtain ⟨htext, rfl⟩ := hr
      have hlen : ((firstLine newline ((nodes sb t i).data.drop start)).take BUF_SIZE).length ≤
          (nodes sb t i).data.length - start := by
        rw [← length_drop]
        exact Nat.le_trans (length_take_le' ..) length_firstLine_le
      rw [cuts]
      generalize (firstLine newline ((nodes sb t i).data.drop start)).take BUF_SIZE = line at htext hlen
      by_cases hline : line = []
      · simp only [hline, if_true]
        exact Runs.pure ⟨rfl, rfl⟩
      · obtain ⟨n, hn⟩ : ∃ n, line.length = n + 1 :=
          ⟨line.length - 1, (Nat.sub_add_cancel (length_pos_iff.mpr hline)).symm⟩
        simp only [if_neg hline, hn]
        have hnext : start + (n + 1) + 1 ≤ (nodes sb t i).data.length + 1 := by omega
        refine Runs.bind (ih hnext buf') fun r u hr => Runs.pure ⟨?_, hr.2⟩
        rw [hr.1, htext, drop_drop, Nat.add_assoc start]

/-! ### Whole calls -/

/-- The texts that `sys_uniq_kernel` works on, or `none` if there is no file. -/
def uniq_considers (sb : Superblock) (cwd : Ptr) (stack filename : List Byte) :
    M (Option (List (List Byte))) := do
  begin_op
  let r ← namei sb cwd filename
  match r with
  | none => do
    end_op
    pure none
  | some ip => do
    ilock sb ip
    let fuel ← lineBound ip
    let ls ← uniq_texts sb ip fuel 0 (List.replicate BUF_SIZE 0 ++ stack)
    iunlock ip
    end_op
    pure (some ls)

theorem uniq_considers_ne_nil (sb : Superblock) (cwd : Ptr) (stack filename : List Byte) (s : State) :
    Runs (uniq_considers sb cwd stack filename) s (fun x _ => ∀ ls, x = some ls → [] ∉ ls) fun _ => True := by
  refine Runs.bind Runs.always fun _ _ _ => Runs.bind Runs.always fun r _ _ => ?_
  cases r with
  | none => exact Runs.bind Runs.always fun _ _ _ => Runs.pure fun ls h => by cases h
  | some ip =>
    refine Runs.bind Runs.always fun _ _ _ => Runs.bind Runs.always fun fuel t _ => ?_
    refine Runs.bind (uniq_texts_ne_nil fuel 0 _ t) fun ls _ hls => ?_
    exact Runs.bind Runs.always fun _ _ _ => Runs.bind Runs.always fun _ _ _ =>
      Runs.pure fun ls' h => Option.some.inj h ▸ hls

/-- What `sys_uniq_kernel` returns and prints, for the texts it works on. -/
def uniqAnswer (flag : List Byte) : Option (List (List Byte)) → Int × List Printed
  | none => (-1, [.line (text "File Not Found ....")])
  | some ls => (0, report (Flags.of flag) ls)

theorem sys_uniq_kernel_considers (sb : Superblock) (cwd : Ptr) (stack filename flag : List Byte) (s : State) :
    Alike (uniq_considers sb cwd stack filename) (sys_uniq_kernel sb cwd stack (some (filename, flag))) s
      fun x r => r = uniqAnswer flag x := by
  refine Alike.step fun _ _ => Alike.step fun r _ => ?_
  cases r with
  | none => exact Alike.step fun _ _ => Alike.pure rfl
  | some ip =>
    refine Alike.step fun _ _ => Alike.step fun fuel t => ?_
    refine (uniq_loop_texts (Flags.of flag) fuel 0 ⟨List.replicate BUF_SIZE 0 ++ stack,
      List.replicate BUF_SIZE 0, 1, false⟩ t).bind fun ls r u hr => ?_
    refine Alike.step fun _ _ => Alike.step fun _ _ => Alike.pure ?_
    have hstart : Vars.run ⟨List.replicate BUF_SIZE 0 ++ stack, List.replicate BUF_SIZE 0, 1, false⟩ =
        Run.start := rfl
    rw [hstart] at hr
    rw [hr.2, uniq_last_run, hr.1]
    rfl

section File
variable {cwd : Ptr} {c : Nat} {path : List Byte} {last : Name}

/-- The start of a call: the path is looked up. -/
theorem lookup_runs (Ly : Layout sb) (h : Sound sb s) (hc : Points s cwd c)
    (hroom : s.lh.length + (s.outstanding + 1) * MAXOPBLOCKS ≤ LOGSIZE) (path : List Byte) :
    Runs (do
        begin_op
        namei sb cwd path) s
      (fun r t => ∃ s₁, nodes sb s₁ = nodes sb s ∧
        ∃ x, Walked sb s₁ (nodes sb s) (resolve sb.ninodes (nodes sb s) (counts s) false c path) x t ∧
          r = x.map Prod.fst)
      (WalkStop (resolve sb.ninodes (nodes sb s) (counts s) false c path)) := by
  refine Runs.bind (h.begin_op.stops fun e he => by omega) fun _ s₁ hs₁ => ?_
  obtain ⟨hsound, -, hnodes, hcounts, hkeep, -⟩ := hs₁
  have hlook := namei_runs Ly hsound.steady_self (hkeep cwd c hc) (hsound.tree.live_type .root) path
  rw [hnodes, hcounts] at hlook
  exact hlook.post fun r t hr => ⟨s₁, hnodes, hr⟩

/-- A call that looks up a file, locks it and reads it. -/
theorem file_runs {α β : Type} (Ly : Layout sb) (h : Sound sb s) (hc : Points s cwd c)
    (hroom : s.lh.length + (s.outstanding + 1) * MAXOPBLOCKS ≤ LOGSIZE)
    (hfile : resolve sb.ninodes (nodes sb s) (counts s) false c path = .found i last)
    (ht : (nodes sb s i).type = T_FILE) {b : β} {body : Ptr → Nat → M α} {g : α → β} {Q : β → Prop}
    (hbody : ∀ ip t fuel, Good sb t → Points t ip i → (t.icache ip).valid = true →
      nodes sb t = nodes sb s → (nodes sb s i).data.length < fuel →
      Runs (body ip fuel) t (fun x u => Q (g x) ∧ u = t) fun _ => False) :
    Runs (do
        begin_op
        let r ← namei sb cwd path
        match r with
        | none => do
          end_op
          pure b
        | some ip => do
          ilock sb ip
          let fuel ← lineBound ip
          let x ← body ip fuel
          iunlock ip
          end_op
          pure (g x)) s (fun y _ => Q y) fun _ => False := by
  have hlook := lookup_runs Ly h hc hroom path
  rw [hfile] at hlook
  refine Runs.assoc (Runs.bind (hlook.stops fun e he => ?_) fun r s₂ hs₂ => ?_)
  · rcases he with ⟨_, h⟩ | ⟨_, h⟩ <;> cases h
  obtain ⟨s₁, hnodes, x, ⟨hq₂, ip, nm, rfl, -, hd, hp⟩, rfl⟩ := hs₂
  have hn₂ : nodes sb s₂ = nodes sb s := by rw [hq₂.nodes, hnodes]
  have h0 : (nodes sb s₂ i).type ≠ 0 := by
    rw [hn₂, ht]
    decide
  refine Runs.bind ((ilock_runs Ly hd.good hp).stops fun e he => ?_) fun _ s₃ hs₃ => ?_
  · rcases he with ⟨_, hl⟩ | ⟨_, hl⟩
    · rw [hd.unlocked not_mem_nil] at hl
      cases hl
    · exact h0 hl
  obtain ⟨hg₃, hq₃, hk₃, -, -, hr₃⟩ := hs₃
  have hp₃ := hk₃ ip i hp
  have hri : refs s₃ i = (refs s₂ i).hold := by rw [hr₃, Function.update_self]
  have hv : (refs s₃ i).valid = true := by rw [hri]; rfl
  have hn₃ : nodes sb s₃ = nodes sb s := by rw [hq₃.nodes, hn₂]
  refine Runs.bind_ok rfl (Runs.bind (hbody ip s₃ _ hg₃ hp₃ (by rw [hg₃.valid_eq hp₃, hv]) hn₃ ?_) fun x t hx => ?_)
  · rw [hg₃.size_eq hp₃ hv, hn₃]
    omega
  · obtain ⟨hQ, rfl⟩ := hx
    refine Runs.bind (iunlock_runs hg₃ hp₃ ?_) fun _ _ _ => Runs.bind_ok rfl (Runs.pure hQ)
    rw [hri]
    rfl

/-- `sys_uniq_kernel` works on the lines of a file. -/
theorem uniq_considers_runs (Ly : Layout sb) (h : Sound sb s) (hc : Points s cwd c)
    (hroom : s.lh.length + (s.outstanding + 1) * MAXOPBLOCKS ≤ LOGSIZE)
    (hfile : resolve sb.ninodes (nodes sb s) (counts s) false c path = .found i last)
    (ht : (nodes sb s i).type = T_FILE) (h0 : 0 ∉ (nodes sb s i).data) (stack : List Byte) :
    Runs (uniq_considers sb cwd stack path) s (fun r _ => r = some (fileLines (nodes sb s i).data)) fun _ => False := by
  refine file_runs Ly h hc hroom hfile ht fun ip t fuel hg hp hv hn hf => ?_
  rw [← hn] at h0 hf ht
  have hdev : (nodes sb t i).type ≠ T_DEV := by
    rw [ht]
    decide
  rw [← hn]
  refine (uniq_texts_runs Ly hg hp hv hdev h0 fuel (Nat.zero_le _) _).post fun ls u hls => ⟨?_, hls.2⟩
  rw [hls.1, drop_zero, cuts_eq_fileLines hf]

end File

end Xv6.Uniq
