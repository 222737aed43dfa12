import Xv6.Uniq.Reading
import Xv6.Fs.Check

/-! `uniq` as a user program: `ulib.c` and `uniq_user.c`, against the kernel's.

A file descriptor is the list of the bytes that are still to be read from it; a `read` of one
byte answers the next of them, or at the end none. The body of the loop of `uniq_user` and what
follows the loop are those of `sys_uniq_kernel`, with `printf` for `cprintf`. -/
namespace Xv6.Uniq
open Lib Fs List

namespace User

/-! ### `readline` and `uniq_user` -/

/-- The loop of `readline`: the buffer, `chars_read`, and what is left to read. -/
def readline_from (max_len : Nat) : List Byte → List Byte → Nat → List Byte × Nat × List Byte
  | [], buffer, chars_read => (buffer, chars_read, [])
  | current_char :: fd, buffer, chars_read =>
    if chars_read < max_len - 1 then
      if current_char = newline then (buffer, chars_read, fd)
      else readline_from max_len fd (poke buffer chars_read current_char) (chars_read + 1)
    else (buffer, chars_read, current_char :: fd)

/-- Reads characters until a newline or the end of the file. -/
def readline (fd buffer : List Byte) (max_len : Nat) : List Byte × Nat × List Byte :=
  let (buffer, chars_read, fd) := readline_from max_len fd buffer 0
  (poke buffer chars_read 0, chars_read, fd)

/-- The loop of `uniq_user`. -/
def uniq_loop (fl : Flags) : Nat → List Byte → Vars → Vars × List Printed
  | 0, _, v => (v, [])
  | fuel + 1, fd, v =>
    let (buffer, bytesRead, fd) := readline fd v.current_line 256
    let v := {v with current_line := buffer}
    if 0 < bytesRead then
      let (v, out) := uniq_body fl v
      let (v, rest) := uniq_loop fl fuel fd v
      (v, out ++ rest)
    else (v, [])

/-- `uniq_user`: what it prints. The loop is not longer than the file. -/
def uniq_user (fd flag : List Byte) : List Printed :=
  let fl := Flags.of flag
  let (v, out) := uniq_loop fl (fd.length + 1) fd ⟨List.replicate 256 0, List.replicate 256 0, 1, false⟩
  out ++ uniq_last fl v

/-! ### The texts of the loop -/

/-- The texts on which the loop of `uniq_user` executes its body. -/
def uniq_texts : Nat → List Byte → List Byte → List (List Byte)
  | 0, _, _ => []
  | fuel + 1, fd, buffer =>
    let (buffer, bytesRead, fd) := readline fd buffer 256
    if 0 < bytesRead then str buffer :: uniq_texts fuel fd buffer else []

theorem uniq_texts_succ (fuel : Nat) (fd buffer : List Byte) :
    uniq_texts (fuel + 1) fd buffer =
      if 0 < (readline fd buffer 256).2.1 then
        str (readline fd buffer 256).1 :: uniq_texts fuel (readline fd buffer 256).2.2 (readline fd buffer 256).1
      else [] := rfl

/-- The texts that `uniq_user` works on. -/
def uniq_considers (fd : List Byte) : List (List Byte) := uniq_texts (fd.length + 1) fd (List.replicate 256 0)

theorem uniq_loop_texts (fl : Flags) (fuel : Nat) (fd : List Byte) (v : Vars) :
    (uniq_loop fl fuel fd v).1.run = (v.run.all fl (uniq_texts fuel fd v.current_line)).1 ∧
      (uniq_loop fl fuel fd v).2 = (v.run.all fl (uniq_texts fuel fd v.current_line)).2 := by
  induction fuel generalizing fd v with
  | zero => exact ⟨rfl, rfl⟩
  | succ fuel ih =>
    rw [uniq_loop, uniq_texts]
    obtain ⟨buffer, n, fd'⟩ := readline fd v.current_line 256
    by_cases hn : 0 < n
    · simp only [if_pos hn]
      obtain ⟨hrun, hout⟩ := uniq_body_run fl {v with current_line := buffer}
      obtain ⟨h1, h2⟩ := ih fd' (uniq_body fl {v with current_line := buffer}).1
      rw [uniq_body_current_line, hrun] at h1 h2
      rw [h1, h2, hout]
      exact ⟨rfl, rfl⟩
    · simp only [if_neg hn]
      exact ⟨rfl, rfl⟩

theorem uniq_user_considers (fd flag : List Byte) :
    uniq_user fd flag = report (Flags.of flag) (uniq_considers fd) := by
  obtain ⟨h1, h2⟩ := uniq_loop_texts (Flags.of flag) (fd.length + 1) fd
    ⟨List.replicate 256 0, List.replicate 256 0, 1, false⟩
  have hstart : Vars.run ⟨List.replicate 256 0, List.replicate 256 0, 1, false⟩ = Run.start := rfl
  rw [hstart] at h1 h2
  have huser : uniq_user fd flag = (uniq_loop (Flags.of flag) (fd.length + 1) fd
      ⟨List.replicate 256 0, List.replicate 256 0, 1, false⟩).2 ++ uniq_last (Flags.of flag)
        (uniq_loop (Flags.of flag) (fd.length + 1) fd
          ⟨List.replicate 256 0, List.replicate 256 0, 1, false⟩).1 := rfl
  rw [huser, uniq_last_run, h1, h2]
  rfl

/-! ### One line -/

/-- The loop of `readline` takes the first line, but not more of it than there is room for. -/
theorem readline_from_text (fd : List Byte) (hn : n ≤ buffer.length) (hm : n ≤ m - 1) :
    (readline_from m fd buffer n).2.1 = n + ((firstLine newline fd).take (m - 1 - n)).length ∧
    (readline_from m fd buffer n).1.take (readline_from m fd buffer n).2.1 =
      buffer.take n ++ (firstLine newline fd).take (m - 1 - n) ∧
    (readline_from m fd buffer n).2.2 =
      if (firstLine newline fd).length < m - 1 - n then fd.drop ((firstLine newline fd).length + 1)
      else fd.drop (m - 1 - n) := by
  induction fd generalizing buffer n with
  | nil =>
    rw [readline_from, firstLine, takeWhile_nil, take_nil, append_nil]
    refine ⟨rfl, rfl, ?_⟩
    split <;> rw [drop_nil]
  | cons c fd ih =>
    rw [readline_from]
    by_cases hlt : n < m - 1
    · rw [if_pos hlt]
      by_cases hc : c = newline
      · rw [if_pos hc, hc, firstLine_cons_sep, take_nil, append_nil]
        refine ⟨rfl, rfl, ?_⟩
        rw [if_pos (by rw [length_nil]; omega)]
        rfl
      · rw [if_neg hc, firstLine_cons hc]
        obtain ⟨h1, h2, h3⟩ := ih (lt_length_poke hn c) (by omega)
        obtain ⟨j, hj⟩ : ∃ j, m - 1 - n = j + 1 := ⟨m - 1 - n - 1, by omega⟩
        have hj' : m - 1 - (n + 1) = j := by omega
        rw [hj'] at h1 h2 h3
        rw [hj, take_succ_cons, length_cons, length_cons, drop_succ_cons, drop_succ_cons]
        refine ⟨by rw [h1]; omega, ?_, ?_⟩
        · rw [h2, take_poke hn, append_assoc, singleton_append]
        · rw [h3]
          simp only [Nat.add_lt_add_iff_right]
    · have hz : m - 1 - n = 0 := by omega
      rw [if_neg hlt, hz, take_zero, append_nil]
      exact ⟨rfl, rfl, rfl⟩

/-- `readline` takes the first line and its newline; of a line without room for its newline it
takes 255 bytes. -/
theorem readline_text (h0 : 0 ∉ fd) (buffer : List Byte) :
    str (readline fd buffer 256).1 = (firstLine newline fd).take 255 ∧
    (readline fd buffer 256).2.1 = ((firstLine newline fd).take 255).length ∧
    (readline fd buffer 256).2.2 =
      if (firstLine newline fd).length < 255 then fd.drop ((firstLine newline fd).length + 1)
      else fd.drop 255 := by
  obtain ⟨h1, h2, h3⟩ := readline_from_text fd (Nat.zero_le buffer.length) (Nat.zero_le (256 - 1))
  rw [take_zero, nil_append] at h2
  rw [Nat.zero_add] at h1
  refine ⟨?_, h1, h3⟩
  show str (poke (readline_from 256 fd buffer 0).1 (readline_from 256 fd buffer 0).2.1 0) = _
  rw [poke, h2]
  exact str_append_zero (fun h => h0 (firstLine_isPrefix.subset (mem_of_mem_take h))) _

/-! ### All lines -/

/-- The lines are not empty and fit the buffer, all but the last with their newline. -/
def Taken (ls : List (List Byte)) : Prop :=
  (∀ x ∈ ls, x ≠ [] ∧ x.length ≤ 255) ∧ ∀ x ∈ ls.dropLast, x.length ≤ 254

theorem taken_nil : Taken [] := ⟨fun _ h => absurd h not_mem_nil, fun _ h => absurd h not_mem_nil⟩

theorem taken_cons :
    Taken (a :: ls) ↔ (a ≠ [] ∧ a.length ≤ 255 ∧ (ls ≠ [] → a.length ≤ 254)) ∧ Taken ls := by
  by_cases hls : ls = []
  · subst hls
    rw [Taken, dropLast_singleton, forall_mem_singleton]
    refine ⟨fun h => ⟨⟨h.1.1, h.1.2, fun h => absurd rfl h⟩, taken_nil⟩, fun h => ⟨⟨h.1.1, h.1.2.1⟩, ?_⟩⟩
    exact fun _ h => absurd h not_mem_nil
  · rw [Taken, Taken, dropLast_cons_of_ne_nil hls, forall_mem_cons, forall_mem_cons]
    constructor
    · rintro ⟨⟨⟨h1, h2⟩, h3⟩, h4, h5⟩
      exact ⟨⟨h1, h2, fun _ => h4⟩, h3, h5⟩
    · rintro ⟨⟨h1, h2, h4⟩, h3, h5⟩
      exact ⟨⟨⟨h1, h2⟩, h3⟩, h4 hls, h5⟩

theorem uniq_texts_blank (h0 : 0 ∉ fd) (h : firstLine newline fd = [])
    (buffer : List Byte) : uniq_texts fuel fd buffer = [] := by
  cases fuel with
  | zero => rfl
  | succ fuel =>
    obtain ⟨_, hn, _⟩ := readline_text h0 buffer
    rw [uniq_texts_succ, hn, h, take_nil]
    rfl

/-- The loop of `uniq_user` takes every line, exactly when all can be taken. -/
theorem uniq_texts_iff (h0 : 0 ∉ fd) (hf : fd.length < fuel) (buffer : List Byte) :
    uniq_texts fuel fd buffer = lines newline fd ↔ Taken (lines newline fd) := by
  induction fuel generalizing fd buffer with
  | zero => exact absurd hf (Nat.not_lt_zero _)
  | succ fuel ih =>
    obtain ⟨htext, hn, hrest⟩ := readline_text h0 buffer
    rw [uniq_texts_succ, htext, hn, hrest]
    generalize (readline fd buffer 256).1 = buffer'
    by_cases hfd : fd = []
    · subst hfd
      exact iff_of_true rfl taken_nil
    rw [lines_eq hfd, taken_cons]
    generalize hr : fd.drop ((firstLine newline fd).length + 1) = r
    have hr0 : 0 ∉ r := fun h => h0 (mem_of_mem_drop (hr ▸ h))
    have hrlen : r.length < fuel := by
      have := length_pos_iff.mpr hfd
      rw [← hr, length_drop]
      omega
    have hdrop := drop_firstLine newline fd
    rw [hr] at hdrop
    generalize firstLine newline fd = a at *
    rcases Nat.lt_trichotomy a.length 255 with hlt | heq | hgt
    · rw [take_of_length_le (Nat.le_of_lt hlt), if_pos hlt]
      by_cases ha : a = []
      · rw [ha]
        exact iff_of_false (fun h => by cases h) fun h => h.1.1 rfl
      · rw [if_pos (length_pos_iff.mpr ha), List.cons.injEq, and_iff_right rfl, ih hr0 hrlen]
        exact (and_iff_right ⟨ha, by omega, fun _ => by omega⟩).symm
    · -- The newline of the line is still to be read: the next line is empty.
      have hne : 0 < a.length := by omega
      have hstop : uniq_texts fuel (fd.drop 255) buffer' = [] :=
        uniq_texts_blank (fun h => h0 (mem_of_mem_drop h)) (by
          rw [← heq]
          rcases hdrop with h | h <;> rw [h]
          · rfl
          · exact firstLine_cons_sep) buffer'
      rw [take_of_length_le (Nat.le_of_eq heq), if_pos hne, if_neg (by omega), List.cons.injEq,
        and_iff_right rfl, hstop]
      constructor
      · intro h
        rw [← h]
        exact ⟨⟨length_pos_iff.mp hne, by omega, fun h => absurd rfl h⟩, taken_nil⟩
      · rintro ⟨⟨_, _, h⟩, _⟩
        by_contra hne
        have := h (Ne.symm hne)
        omega
    · refine iff_of_false (fun h => ?_) fun h => by omega
      rw [if_pos (by rw [length_take]; omega)] at h
      have := congrArg List.length (List.cons.inj h).1
      rw [length_take] at this
      omega

theorem uniq_considers_iff (h0 : 0 ∉ fd) :
    uniq_considers fd = lines newline fd ↔ Taken (lines newline fd) :=
  uniq_texts_iff h0 (Nat.lt_succ_self _) _

end User

/-! ### Both on one file -/

section Both
variable {sb : Superblock} {s : State} {cwd : Ptr} {c i : Nat} {path : List Byte} {last : Name}

/-- **`uniq` in the kernel prints what `uniq_user` prints**, on a file whose lines have 1 to 254
bytes, whatever stands after the kernel's buffer. -/
theorem uniq_kernel_eq_user (Ly : Layout sb) (h : Sound sb s) (hc : Points s cwd c)
    (hroom : s.lh.length + (s.outstanding + 1) * MAXOPBLOCKS ≤ LOGSIZE)
    (hfile : resolve sb.ninodes (nodes sb s) (counts s) false c path = .found i last)
    (ht : (nodes sb s i).type = T_FILE) (h0 : 0 ∉ (nodes sb s i).data)
    (hl : ∀ x ∈ lines newline (nodes sb s i).data, 1 ≤ x.length ∧ x.length ≤ 254)
    (stack flag : List Byte) :
    ∃ t, sys_uniq_kernel sb cwd stack (some (path, flag)) s =
      .ok ((0, User.uniq_user (nodes sb s i).data flag), t) := by
  obtain ⟨x, t, hx, rfl⟩ := (uniq_considers_runs Ly h hc hroom hfile ht h0 stack).answers
  obtain ⟨r, hr, rfl⟩ := Runs.of_ok (sys_uniq_kernel_considers sb cwd stack path flag s) hx
  have hfit : Fit (lines newline (nodes sb s i).data) := fun x hx =>
    ⟨length_pos_iff.mp (hl x hx).1, Nat.le_trans (hl x hx).2 (by decide)⟩
  have htaken : User.Taken (lines newline (nodes sb s i).data) :=
    ⟨fun x hx => ⟨(hfit x hx).1, Nat.le_trans (hl x hx).2 (by decide)⟩,
      fun x hx => (hl x (mem_of_mem_dropLast hx)).2⟩
  refine ⟨t, hr.trans ?_⟩
  rw [User.uniq_user_considers, (User.uniq_considers_iff h0).mpr htaken, ← fileLines_eq_lines_iff.mpr hfit]
  rfl

theorem uniq_kernel_eq_user_count : ∃ t,
    sys_uniq_kernel Mkfs.sb 0 [] (some ([102], text "-c")) (shelf (text "a\na\nb\n")) =
      .ok ((0, [.counted 2 [97], .counted 1 [98]]), t) := by
  have hpos : 0 < (text "a\na\nb\n").length := by decide
  have hsize : (text "a\na\nb\n").length ≤ BSIZE := by decide
  have hn := congrFun (nodes_shelf hpos hsize) 24
  have h := uniq_kernel_eq_user layout_mkfs (sound_shelf hpos hsize) (points_shelf _) (by decide)
    (resolve_shelf hpos hsize) (by rw [hn]; rfl) (by rw [hn]; decide) (by rw [hn]; decide) [] (text "-c")
  rw [hn] at h
  exact h

/-- Both work on every line of a file, exactly when no line is empty and every line fits the
buffer of `uniq_user`, all but the last with their newline. -/
theorem uniq_every_line_iff (Ly : Layout sb) (h : Sound sb s) (hc : Points s cwd c)
    (hroom : s.lh.length + (s.outstanding + 1) * MAXOPBLOCKS ≤ LOGSIZE)
    (hfile : resolve sb.ninodes (nodes sb s) (counts s) false c path = .found i last)
    (ht : (nodes sb s i).type = T_FILE) (h0 : 0 ∉ (nodes sb s i).data) (stack : List Byte) :
    ∃ ls t, uniq_considers sb cwd stack path s = .ok (some ls, t) ∧
      (User.uniq_considers (nodes sb s i).data = lines newline (nodes sb s i).data ∧
        ls = lines newline (nodes sb s i).data ↔ User.Taken (lines newline (nodes sb s i).data)) := by
  obtain ⟨x, t, hx, rfl⟩ := (uniq_considers_runs Ly h hc hroom hfile ht h0 stack).answers
  refine ⟨_, t, hx, ?_⟩
  rw [User.uniq_considers_iff h0, fileLines_eq_lines_iff]
  refine and_iff_left_of_imp fun htaken x hx => ⟨(htaken.1 x hx).1, ?_⟩
  exact Nat.le_trans (htaken.1 x hx).2 (by decide)

theorem uniq_every_line_two : ∃ ls t, uniq_considers Mkfs.sb 0 [] [102] (shelf (text "a\nb")) = .ok (some ls, t) ∧
    User.uniq_considers (text "a\nb") = [[97], [98]] ∧ ls = [[97], [98]] := by
  have hpos : 0 < (text "a\nb").length := by decide
  have hsize : (text "a\nb").length ≤ BSIZE := by decide
  have hn := congrFun (nodes_shelf hpos hsize) 24
  obtain ⟨ls, t, hls, hiff⟩ := uniq_every_line_iff layout_mkfs (sound_shelf hpos hsize) (points_shelf _) (by decide)
    (resolve_shelf hpos hsize) (by rw [hn]; rfl) (by rw [hn]; decide) []
  rw [hn] at hiff
  exact ⟨ls, t, hls, hiff.mpr ⟨by decide, by decide⟩⟩

set_option maxRecDepth 100000 in
/-- Of the three lines `a`, an empty one and `b`, both work on the first only. -/
theorem uniq_stops_at_empty_line :
    lines newline (text "a\n\nb\n") = [[97], [], [98]] ∧ User.uniq_considers (text "a\n\nb\n") = [[97]] ∧
    ∃ t, uniq_considers Mkfs.sb 0 [] [102] (shelf (text "a\n\nb\n")) = .ok (some [[97]], t) := by
  have hanswer : answer (uniq_considers Mkfs.sb 0 [] [102]) (shelf (text "a\n\nb\n")) = some (some [[97]]) := by
    decide +kernel
  exact ⟨by decide, by decide, of_answer hanswer⟩

end Both

end Xv6.Uniq
