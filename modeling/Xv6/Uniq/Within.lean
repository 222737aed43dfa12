import Xv6.Uniq.Bounds

/-! The buffers of `sys_uniq_kernel` and `sys_head_kernel` on standard input, and of all calls.

Nothing bounds what is read: the calls stay within their buffers when the input is short enough. -/
namespace Xv6.Uniq.Bounds
open Lib Fs List

/-! ### `head` on standard input -/

/-- `k` lines are read: those that end in a newline need a place for a zero. -/
def Fits (l : List Byte) (k : Nat) : Prop :=
  (∀ x ∈ (ended newline l).take k, x.length < 1024) ∧ ∀ x ∈ (lines newline l).take k, x.length ≤ 1024

/-- Bytes other than a newline go to the buffer while it has a place for them. -/
theorem head_stdin_fill {N : Int} {a : List Byte} (ha : newline ∉ a) (rest : List Byte) {buf : List Byte}
    {i : Nat} (hi : i ≤ buf.length) (n : Int) :
    if i + a.length ≤ buf.length then
      ∃ buf', buf'.length = buf.length ∧
        head_stdin_loop N (a ++ rest) buf i n = head_stdin_loop N rest buf' (i + a.length) n
    else head_stdin_loop N (a ++ rest) buf i n = none := by
  induction a generalizing buf i with
  | nil =>
    rw [length_nil, Nat.add_zero, if_pos hi]
    exact ⟨buf, rfl, rfl⟩
  | cons c a ih =>
    obtain ⟨hc, ha⟩ := not_or.mp (mt mem_cons.mpr ha)
    rw [cons_append, head_stdin_loop, if_neg (Ne.symm hc), length_cons]
    by_cases hlt : i < buf.length
    · have hrest := @ih ha (poke buf i c) (i + 1) (by rw [length_poke hlt]; exact hlt)
      rw [length_poke hlt, Nat.add_assoc, Nat.add_comm 1] at hrest
      rw [within_of_lt hlt]
      exact hrest
    · rw [if_neg (by omega), within_of_le (Nat.not_lt.mp hlt)]
      rfl

theorem head_stdin_loop_iff (hk : k = max 1 (N + 1 - n).toNat) (hbuf : buf.length = 1024) :
    (head_stdin_loop N l buf 0 n).isSome ↔ Fits l k := by
  induction l using lines_induction newline generalizing n k buf with
  | hnil =>
    have hnil : ended newline ([] : List Byte) = [] := rfl
    refine iff_of_true rfl ⟨fun x hx => ?_, fun x hx => ?_⟩
    · rw [hnil, take_nil] at hx
      exact absurd hx not_mem_nil
    · rw [lines, take_nil] at hx
      exact absurd hx not_mem_nil
  | hline l hl ih =>
    obtain ⟨j, rfl⟩ : ∃ j, k = j + 1 := ⟨k - 1, by omega⟩
    have hbytes := head_stdin_fill (N := N) (sep_notMem_firstLine (l := l))
      (l.drop (firstLine newline l).length) (Nat.zero_le buf.length) n
    have hsplit : firstLine newline l ++ l.drop (firstLine newline l).length = l := by
      nth_rewrite 1 [firstLine_eq_take]
      exact take_append_drop ..
    rw [hsplit, Nat.zero_add] at hbytes
    rw [Fits, lines_eq hl, take_succ_cons, forall_mem_cons]
    by_cases hlen : (firstLine newline l).length ≤ buf.length
    · rw [if_pos hlen] at hbytes
      obtain ⟨buf', hbuf', hloop⟩ := hbytes
      rw [hloop]
      rcases drop_firstLine newline l with hd | hd
      · -- The last line has no newline.
        have hnil := drop_eq_nil_of_le (Nat.le_succ_of_le (drop_eq_nil_iff.mp hd))
        rw [hd, ended_of_drop_nil hd, hnil]
        refine iff_of_true rfl ⟨fun x hx => ?_, hbuf ▸ hlen, fun x hx => ?_⟩
        · rw [take_nil] at hx
          exact absurd hx not_mem_nil
        · rw [lines, take_nil] at hx
          exact absurd hx not_mem_nil
      · rw [hd, ended_of_drop_cons hd, head_stdin_loop, if_pos rfl, take_succ_cons, forall_mem_cons]
        by_cases hlt : (firstLine newline l).length < 1024
        · rw [within_of_lt (by omega)]
          simp only [Option.bind_eq_bind, Option.bind_some, pass_of_mem (mem_poke 0)]
          by_cases hlast : N < n + 1
          · obtain rfl : j = 0 := by omega
            rw [if_pos hlast]
            exact iff_of_true rfl ⟨⟨hlt, by simp⟩, Nat.le_of_lt hlt, by simp⟩
          · have hzeros :
                (List.replicate (poke buf' (firstLine newline l).length 0).length (0 : Byte)).length = 1024 := by
              rw [length_replicate, length_poke (by omega), hbuf', hbuf]
            have hrest := ih (k := j) (n := n + 1) (by omega) hzeros
            rw [if_neg hlast, isSome_then, hrest, Fits]
            have hle := Nat.le_of_lt hlt
            tauto
        · rw [within_of_le (by omega)]
          exact iff_of_false Bool.false_ne_true fun h => hlt h.1.1
    · rw [if_neg hlen] at hbytes
      rw [hbytes]
      exact iff_of_false Bool.false_ne_true fun h => hlen (hbuf ▸ h.2.1)

/-- A run that stays within the buffer is the run of the loop. -/
theorem head_stdin_loop_eq
    (hbuf : buf.length = 1024) (h : head_stdin_loop N l buf i n = some out) (stack : List Byte) :
    Uniq.head_stdin_loop N l (buf ++ stack) i n = out := by
  induction l generalizing buf i n out with
  | nil => exact Option.some.inj h
  | cons c l ih =>
    rw [head_stdin_loop] at h
    rw [Uniq.head_stdin_loop]
    by_cases hi : i < buf.length
    · rw [within_of_lt hi] at h
      rw [poke_append hi, poke_append hi, str_append_of_mem (mem_poke 0)]
      by_cases hc : c = newline
      · have hlen : (poke buf i 0).length = 1024 := by rw [length_poke hi, hbuf]
        simp only [if_pos hc, Option.bind_eq_bind, Option.bind_some, pass_of_mem (mem_poke 0), hlen] at h
        rw [if_pos hc, drop_append_of_le_length (Nat.le_of_eq hbuf.symm),
          drop_eq_nil_of_le (Nat.le_of_eq hbuf), nil_append]
        split at h
        · rename_i hlast
          rw [if_pos hlast]
          exact Option.some.inj h
        · rename_i hlast
          obtain ⟨rest, hrest, hout⟩ := Option.bind_eq_some_iff.mp h
          rw [if_neg hlast, ih (length_replicate ..) hrest]
          exact Option.some.inj hout
      · simp only [if_neg hc, Option.bind_eq_bind, Option.bind_some] at h
        rw [if_neg hc]
        exact ih (by rw [length_poke hi, hbuf]) h
    · rw [within_of_le (Nat.not_lt.mp hi)] at h
      split at h <;> cases h

/-! ### `uniq` on standard input -/

theorem drop_poke (hi : i < buf.length) (hj : i < j) (c : Byte) :
    (poke buf i c).drop j = buf.drop j := by
  obtain ⟨m, rfl⟩ : ∃ m, j = i + 1 + m := ⟨j - i - 1, by omega⟩
  have htake : (buf.take i).length = i := by rw [length_take]; omega
  rw [poke, ← drop_drop, ← singleton_append, ← append_assoc,
    drop_left' (by rw [length_append, htake]; rfl), drop_drop]

/-- The buffer holds the input and a zero, if there is a place for both. -/
theorem read_stdin_eq (input : List Byte) {buffer : List Byte} {i : Nat} (hi : i ≤ buffer.length) :
    read_stdin input buffer i =
      if i + input.length < buffer.length then
        some (buffer.take i ++ input ++ 0 :: buffer.drop (i + input.length + 1))
      else none := by
  induction input generalizing buffer i with
  | nil =>
    rw [read_stdin, length_nil, Nat.add_zero, append_nil]
    split
    · rename_i hlt
      rw [within_of_lt hlt]
      rfl
    · rename_i hge
      rw [within_of_le (Nat.not_lt.mp hge)]
      rfl
  | cons c input ih =>
    rw [read_stdin, length_cons]
    by_cases hlt : i < buffer.length
    · have hrest := @ih (poke buffer i c) (i + 1) (by rw [length_poke hlt]; exact hlt)
      rw [length_poke hlt, take_poke hi, drop_poke hlt (by omega), Nat.add_assoc i 1, Nat.add_comm 1,
        append_assoc (buffer.take i), singleton_append] at hrest
      rw [within_of_lt hlt]
      exact hrest
    · rw [if_neg (by omega), within_of_le (Nat.not_lt.mp hlt)]
      rfl

/-- What is in a buffer up to its first zero. -/
theorem exists_eq_str_append (input rest : List Byte) : ∃ rest', input ++ 0 :: rest = str input ++ 0 :: rest' := by
  induction input with
  | nil => exact ⟨rest, rfl⟩
  | cons c input ih =>
    by_cases hc : c = 0
    · rw [hc, str_cons_zero]
      exact ⟨input ++ 0 :: rest, rfl⟩
    · obtain ⟨rest', h⟩ := ih
      exact ⟨rest', by rw [str_cons hc, cons_append, cons_append, h]⟩

section Stdin
variable {data : List Byte} (rest : List Byte)

theorem extract_from_iff (h0 : 0 ∉ data) {line : List Byte} {k : Nat} (hk : k ≤ line.length) :
    if k + (firstLine newline data).length ≤ line.length then
      extract_from (data ++ 0 :: rest) line k = some (Uniq.extract_from (data ++ 0 :: rest) line k) ∧
        (Uniq.extract_from (data ++ 0 :: rest) line k).1.length = line.length
    else extract_from (data ++ 0 :: rest) line k = none := by
  induction data generalizing line k with
  | nil =>
    rw [firstLine, takeWhile_nil, length_nil, Nat.add_zero, if_pos hk, nil_append, extract_from,
      Uniq.extract_from, if_neg fun h => h.1 rfl, if_neg fun h => h.1 rfl]
    exact ⟨rfl, rfl⟩
  | cons c data ih =>
    obtain ⟨hc0, hd0⟩ := not_or.mp (mt mem_cons.mpr h0)
    rw [cons_append, extract_from, Uniq.extract_from]
    by_cases hc : c = newline
    · rw [hc, firstLine_cons_sep, length_nil, Nat.add_zero, if_pos hk, if_neg fun h => h.2 rfl,
        if_neg fun h => h.2 rfl]
      exact ⟨rfl, rfl⟩
    · have hcc : c ≠ 0 ∧ c ≠ newline := ⟨Ne.symm hc0, hc⟩
      rw [firstLine_cons hc, if_pos hcc, if_pos hcc, length_cons]
      by_cases hlt : k < line.length
      · have hrest := @ih hd0 (poke line k c) (k + 1) (by rw [length_poke hlt]; exact hlt)
        rw [length_poke hlt, Nat.add_assoc k, Nat.add_comm 1] at hrest
        rw [within_of_lt hlt]
        exact hrest
      · rw [if_neg (by omega), within_of_le (Nat.not_lt.mp hlt)]
        rfl

theorem extract_from_append (h0 : 0 ∉ data) (rest' stack : List Byte)
    (hk : k + (firstLine newline data).length ≤ line.length) :
    Uniq.extract_from (data ++ 0 :: rest') (line ++ stack) k =
      ((Uniq.extract_from (data ++ 0 :: rest) line k).1 ++ stack,
        (Uniq.extract_from (data ++ 0 :: rest) line k).2) := by
  induction data generalizing line k with
  | nil =>
    rw [nil_append, nil_append, Uniq.extract_from, Uniq.extract_from, if_neg fun h => h.1 rfl,
      if_neg fun h => h.1 rfl]
  | cons c data ih =>
    obtain ⟨hc0, hd0⟩ := not_or.mp (mt mem_cons.mpr h0)
    rw [cons_append, cons_append, Uniq.extract_from, Uniq.extract_from]
    by_cases hc : c = newline
    · rw [if_neg fun h => h.2 hc, if_neg fun h => h.2 hc]
    · have hcc : c ≠ 0 ∧ c ≠ newline := ⟨Ne.symm hc0, hc⟩
      rw [firstLine_cons hc, length_cons] at hk
      have hlt : k < line.length := by omega
      rw [if_pos hcc, if_pos hcc, poke_append hlt]
      exact ih hd0 (by rw [length_poke hlt]; omega)

theorem extract_line_end (h0 : 0 ∉ data) (h : data.length ≤ offset) (line : List Byte) :
    extract_line offset (data ++ 0 :: rest) line = some (line, none) := by
  have hlen : strlen (data ++ 0 :: rest) = data.length := by rw [strlen, str_append_zero h0]
  rw [extract_line, pass_of_mem (mem_append_right _ (mem_cons_self ..)), hlen]
  simp only [Option.bind_eq_bind, Option.bind_some, if_pos h]
  rfl

/-- A line that is extracted needs a place for its zero. -/
theorem extract_line_iff (h0 : 0 ∉ data) (h : offset < data.length) (hl : line.length = BUF_SIZE) :
    if (firstLine newline (data.drop offset)).length < BUF_SIZE then
      extract_line offset (data ++ 0 :: rest) line = some (Uniq.extract_line offset (data ++ 0 :: rest) line) ∧
        Held (Uniq.extract_line offset (data ++ 0 :: rest) line).1
    else extract_line offset (data ++ 0 :: rest) line = none := by
  have hd0 : 0 ∉ data.drop offset := fun h => h0 (mem_of_mem_drop h)
  have hlen : strlen (data ++ 0 :: rest) = data.length := by rw [strlen, str_append_zero h0]
  have hdrop : (data ++ 0 :: rest).drop offset = data.drop offset ++ 0 :: rest :=
    drop_append_of_le_length (Nat.le_of_lt h)
  have hfrom := extract_from_iff rest hd0 (Nat.zero_le line.length)
  obtain ⟨hindex, -⟩ := extract_from_text rest hd0 (Nat.zero_le line.length)
  rw [Nat.zero_add] at hfrom hindex
  have hle : (firstLine newline (data.drop offset)).length ≤ data.length - offset := by
    rw [← length_drop]
    exact length_firstLine_le
  rw [extract_line, Uniq.extract_line, hlen, if_neg (Nat.not_le.mpr h), if_neg (Nat.not_le.mpr h), hdrop,
    pass_of_mem (mem_append_right _ (mem_cons_self ..))]
  rw [hl] at hfrom
  by_cases hfit : (firstLine newline (data.drop offset)).length ≤ BUF_SIZE
  · rw [if_pos hfit] at hfrom
    obtain ⟨hfrom, hsize⟩ := hfrom
    rw [hfrom]
    generalize Uniq.extract_from (data.drop offset ++ 0 :: rest) line 0 = x at hindex hsize
    split
    · rename_i hlt
      have hx : x.2 < x.1.length := by omega
      have hdata : offset + x.2 < (data ++ 0 :: rest).length := by
        rw [length_append, length_cons]
        omega
      simp only [Option.bind_eq_bind, Option.bind_some, within_of_lt hx, within_of_lt hdata]
      exact ⟨rfl, by rw [length_poke hx, hsize], mem_poke 0⟩
    · rename_i hge
      have hx : x.1.length ≤ x.2 := by omega
      simp only [Option.bind_eq_bind, Option.bind_some, within_of_le hx, Option.bind_none]
  · rw [if_neg hfit] at hfrom
    rw [hfrom, if_neg fun hlt => hfit (Nat.le_of_lt hlt)]
    rfl

/-- The line that is extracted depends only on the text. -/
theorem extract_line_append (h0 : 0 ∉ data) (h : offset < data.length)
    (hl : line.length = BUF_SIZE) (hfit : (firstLine newline (data.drop offset)).length < BUF_SIZE)
    (rest' stack : List Byte) :
    Uniq.extract_line offset (data ++ 0 :: rest') (line ++ stack) =
      ((Uniq.extract_line offset (data ++ 0 :: rest) line).1 ++ stack,
        (Uniq.extract_line offset (data ++ 0 :: rest) line).2) := by
  have hd0 : 0 ∉ data.drop offset := fun h => h0 (mem_of_mem_drop h)
  have hlen : ∀ r, strlen (data ++ 0 :: r) = data.length := fun r => by rw [strlen, str_append_zero h0]
  have hdrop : ∀ r, (data ++ 0 :: r).drop offset = data.drop offset ++ 0 :: r := fun r =>
    drop_append_of_le_length (Nat.le_of_lt h)
  have hfrom := extract_from_iff rest hd0 (Nat.zero_le line.length)
  rw [Nat.zero_add, if_pos (by omega)] at hfrom
  obtain ⟨hindex, -⟩ := extract_from_text rest hd0 (Nat.zero_le line.length)
  rw [Nat.zero_add] at hindex
  rw [Uniq.extract_line, Uniq.extract_line, hlen, hlen, if_neg (Nat.not_le.mpr h), if_neg (Nat.not_le.mpr h),
    hdrop, hdrop, extract_from_append rest hd0 rest' stack (by omega)]
  obtain ⟨-, hsize⟩ := hfrom
  generalize Uniq.extract_from (data.drop offset ++ 0 :: rest) line 0 = x at hindex hsize
  have hle : x.2 ≤ data.length - offset := by
    rw [hindex, ← length_drop]
    exact length_firstLine_le
  have hget : ∀ r, (data ++ 0 :: r).getD (offset + x.2) 0 = data.getD (offset + x.2) 0 := fun r => by
    by_cases hlt : offset + x.2 < data.length
    · exact getD_append _ _ _ _ hlt
    · have hend : offset + x.2 = data.length := by omega
      rw [hend, getD_append_right _ _ _ _ (Nat.le_refl _), Nat.sub_self,
        getD_eq_default _ _ (Nat.le_refl _)]
      rfl
  simp only [hget]
  rw [poke_append (by omega)]

theorem stdin_body_on (h : 0 ∈ v.current_line) (stack : List Byte) :
    Uniq.stdin_body (Vars.on v stack) = (Vars.on (Uniq.stdin_body v).1 stack, (Uniq.stdin_body v).2) := by
  have hcopy : strcpy (Vars.on v stack).current_line v.previous_line = strcpy v.current_line v.previous_line :=
    strcpy_append h stack _
  have hcmp : strcmp (Vars.on v stack).current_line v.previous_line ≠ 0 ↔
      strcmp v.current_line v.previous_line ≠ 0 := by
    rw [Ne, Ne, strcmp_eq_zero, strcmp_eq_zero, Vars.on, str_append_of_mem h]
  rw [Uniq.stdin_body, Uniq.stdin_body, show (Vars.on v stack).previous_line = v.previous_line from rfl, hcopy,
    if_congr hcmp rfl rfl]
  split
  · rfl
  · split <;> rfl

theorem stdin_body_held (hc : Held v.current_line) (hp : Held v.previous_line) :
    stdin_body v = some (Uniq.stdin_body v) := by
  have hroom : room v.current_line v.previous_line.length = some () := room_of_lt (hp.size ▸ hc.strlen_lt)
  rw [stdin_body, pass_of_mem hc.zero, pass_of_mem hp.zero, hroom]
  split
  · rfl
  · split <;> rfl

theorem held_stdin_body (hc : Held v.current_line) (hp : Held v.previous_line) :
    Held (Uniq.stdin_body v).1.current_line ∧ Held (Uniq.stdin_body v).1.previous_line := by
  rw [Uniq.stdin_body]
  split
  · exact ⟨hc, held_strcpy hc hp⟩
  · split
    · exact ⟨hc, held_strcpy hc hp⟩
    · exact ⟨hc, hp⟩

/-- One turn of the loop over the lines of `buffer`. -/
theorem stdin_loop_step (h0 : 0 ∉ data) (fuel : Nat) (h : offset < data.length)
    (hc : v.current_line.length = BUF_SIZE) (hp : Held v.previous_line) :
    if (firstLine newline (data.drop offset)).length < BUF_SIZE then
      ∃ next w out, Held w.current_line ∧ Held w.previous_line ∧
        data.drop (next + 1) =
          (data.drop offset).drop ((firstLine newline (data.drop offset)).length + 2) ∧
        (∀ rest' stack, Uniq.stdin_loop (data ++ 0 :: rest') (fuel + 1) offset (Vars.on v stack) =
          ((Uniq.stdin_loop (data ++ 0 :: rest') fuel (next + 1) (Vars.on w stack)).1,
            out ++ (Uniq.stdin_loop (data ++ 0 :: rest') fuel (next + 1) (Vars.on w stack)).2)) ∧
        stdin_loop (data ++ 0 :: rest) (fuel + 1) offset v =
          (stdin_loop (data ++ 0 :: rest) fuel (next + 1) w).map fun r => (r.1, out ++ r.2)
    else stdin_loop (data ++ 0 :: rest) (fuel + 1) offset v = none := by
  have hline := extract_line_iff rest h0 h hc
  split
  · rename_i hlt
    rw [if_pos hlt] at hline
    obtain ⟨hsome, hheld⟩ := hline
    obtain ⟨next, hnext, hpos, -, hdrop⟩ := extract_line_text rest v.current_line h0 h
    have happend := extract_line_append rest h0 h hc hlt
    rw [stdin_loop, hsome]
    generalize Uniq.extract_line offset (data ++ 0 :: rest) v.current_line = x at hheld hnext happend
    obtain ⟨line, n⟩ := x
    subst hnext
    have hbody := stdin_body_held (v := {v with current_line := line}) hheld hp
    obtain ⟨hc', hp'⟩ := held_stdin_body (v := {v with current_line := line}) hheld hp
    refine ⟨next, (Uniq.stdin_body {v with current_line := line}).1,
      (Uniq.stdin_body {v with current_line := line}).2, hc', hp', hdrop, ?_, ?_⟩
    · intro rest' stack
      have hon := stdin_body_on (v := {v with current_line := line}) hheld.zero stack
      rw [Uniq.stdin_loop, show (Vars.on v stack).current_line = v.current_line ++ stack from rfl, happend]
      simp only [if_pos hpos]
      rw [show ({Vars.on v stack with current_line := line ++ stack} : Vars) =
        Vars.on {v with current_line := line} stack from rfl, hon]
    · simp only [Option.bind_eq_bind, Option.bind_some, if_pos hpos, hbody]
      rw [Option.map_eq_bind]
      rfl
  · rename_i hge
    rw [if_neg hge] at hline
    rw [stdin_loop, hline]
    rfl

theorem stdin_loop_iff (h0 : 0 ∉ data) (fuel offset : Nat) (hc : v.current_line.length = BUF_SIZE)
    (hp : Held v.previous_line) :
    (stdin_loop (data ++ 0 :: rest) fuel offset v).isSome ↔
      ∀ x ∈ skim fuel (data.drop offset), x.length < BUF_SIZE := by
  induction fuel generalizing offset v with
  | zero => exact iff_of_true rfl fun x hx => absurd hx not_mem_nil
  | succ fuel ih =>
    rw [skim]
    by_cases hlt : offset < data.length
    · have hne : data.drop offset ≠ [] := fun h => by
        have := drop_eq_nil_iff.mp h
        omega
      rw [if_neg hne, forall_mem_cons]
      have hstep := stdin_loop_step rest h0 fuel hlt hc hp
      split at hstep
      · rename_i hfit
        obtain ⟨next, w, out, hc', hp', hdrop, -, hloop⟩ := hstep
        rw [hloop, Option.isSome_map, ih (next + 1) hc'.size hp', hdrop, iff_true_intro hfit, true_and]
      · rename_i hfit
        rw [hstep]
        exact iff_of_false Bool.false_ne_true fun h => hfit h.1
    · rw [stdin_loop, extract_line_end rest h0 (Nat.not_lt.mp hlt),
        if_pos (drop_eq_nil_of_le (Nat.not_lt.mp hlt))]
      exact iff_of_true rfl fun x hx => absurd hx not_mem_nil

theorem extract_line_le {next : Nat} (h : extract_line offset buffer line = some (line', some next)) :
    offset ≤ next := by
  obtain ⟨-, -, h⟩ := Option.bind_eq_some_iff.mp h
  split at h
  · cases h
  · obtain ⟨x, -, h⟩ := Option.bind_eq_some_iff.mp h
    obtain ⟨-, -, h⟩ := Option.bind_eq_some_iff.mp h
    obtain ⟨-, -, h⟩ := Option.bind_eq_some_iff.mp h
    have hnext := Option.some.inj (Prod.mk.inj (Option.some.inj h)).2
    split at hnext <;> omega

theorem stdin_loop_enough (h0 : 0 ∉ data) (h : data.length ≤ offset + fuel) (v : Vars) :
    stdin_loop (data ++ 0 :: rest) (fuel + 1) offset v = stdin_loop (data ++ 0 :: rest) fuel offset v := by
  induction fuel generalizing offset v with
  | zero =>
    rw [Nat.add_zero] at h
    rw [stdin_loop.eq_2, extract_line_end rest h0 h]
    rfl
  | succ fuel ih =>
    rw [stdin_loop, stdin_loop]
    cases hx : extract_line offset (data ++ 0 :: rest) v.current_line with
    | none => rfl
    | some x =>
      obtain ⟨line, n⟩ := x
      cases n with
      | none => rfl
      | some next =>
        have hle := extract_line_le hx
        simp only [Option.bind_eq_bind, Option.bind_some,
          ih (show data.length ≤ next + 1 + fuel by omega)]

theorem stdin_loop_eq (h0 : 0 ∉ data) (fuel offset : Nat) (hc : v.current_line.length = BUF_SIZE)
    (hp : Held v.previous_line)
    (h : stdin_loop (data ++ 0 :: rest) fuel offset v = some r) :
    Held r.1.previous_line ∧ ∀ rest' stack,
      Uniq.stdin_loop (data ++ 0 :: rest') fuel offset (Vars.on v stack) = (Vars.on r.1 stack, r.2) := by
  induction fuel generalizing offset v r with
  | zero =>
    rw [← Option.some.inj h]
    exact ⟨hp, fun _ _ => rfl⟩
  | succ fuel ih =>
    by_cases hlt : offset < data.length
    · have hstep := stdin_loop_step rest h0 fuel hlt hc hp
      split at hstep
      · obtain ⟨next, w, out, hc', hp', -, hpure, hloop⟩ := hstep
        rw [hloop] at h
        obtain ⟨x, hx, rfl⟩ := Option.map_eq_some_iff.mp h
        obtain ⟨hheld, hx⟩ := ih (next + 1) hc'.size hp' (r := x) hx
        refine ⟨hheld, fun rest' stack => ?_⟩
        rw [hpure, hx]
      · rw [hstep] at h
        cases h
    · rw [stdin_loop, extract_line_end rest h0 (Nat.not_lt.mp hlt)] at h
      rw [← Option.some.inj h]
      refine ⟨hp, fun rest' stack => ?_⟩
      have hend : Uniq.extract_line offset (data ++ 0 :: rest') (Vars.on v stack).current_line =
          ((Vars.on v stack).current_line, none) := by
        rw [Uniq.extract_line, if_pos]
        rw [strlen, str_append_zero h0]
        omega
      rw [Uniq.stdin_loop, hend]

end Stdin

theorem uniq_stdin_iff (hb : buffer.length = 1024) (input : List Byte) :
    (uniq_stdin buffer input).isSome ↔
      input.length < 1024 ∧ ∀ x ∈ skim (input.length + 1) (str input), x.length < BUF_SIZE := by
  rw [uniq_stdin, read_stdin_eq input (Nat.zero_le _), Nat.zero_add, hb, take_zero, nil_append]
  by_cases hlt : input.length < 1024
  · obtain ⟨rest, hrest⟩ := exists_eq_str_append input (buffer.drop (input.length + 1))
    have hloop := stdin_loop_iff rest (notMem_str input) (input.length + 1) 0
      (v := ⟨List.replicate BUF_SIZE 0, List.replicate BUF_SIZE 0, 1, false⟩) held_zeros.size held_zeros
    rw [drop_zero] at hloop
    rw [if_pos hlt, hrest, iff_true_intro hlt, true_and, ← hloop]
    simp only [Option.bind_eq_bind, Option.bind_some]
    cases hr : stdin_loop (str input ++ 0 :: rest) (input.length + 1) 0
      ⟨List.replicate BUF_SIZE 0, List.replicate BUF_SIZE 0, 1, false⟩ with
    | none => exact iff_of_false Bool.false_ne_true Bool.false_ne_true
    | some r =>
      obtain ⟨hheld, -⟩ := stdin_loop_eq rest (notMem_str input) _ _ held_zeros.size held_zeros hr
      refine iff_of_true ?_ rfl
      simp only [Option.bind_some, pass_of_mem hheld.zero]
      rfl
  · rw [if_neg hlt]
    exact iff_of_false Bool.false_ne_true fun h => hlt h.1

/-- A call that stays within the buffers prints what `uniq_stdin` prints. -/
theorem uniq_stdin_eq (h : uniq_stdin buffer input = some out) (stack junk : List Byte) :
    Uniq.uniq_stdin stack (buffer ++ junk) input = out := by
  rw [uniq_stdin, read_stdin_eq input (Nat.zero_le _), Nat.zero_add, take_zero, nil_append] at h
  split at h
  · rename_i hlt
    obtain ⟨rest, hrest⟩ := exists_eq_str_append input (buffer.drop (input.length + 1))
    rw [hrest] at h
    simp only [Option.bind_eq_bind, Option.bind_some] at h
    obtain ⟨r, hr, h⟩ := Option.bind_eq_some_iff.mp h
    obtain ⟨hheld, heq⟩ := stdin_loop_eq rest (notMem_str input) _ _ held_zeros.size held_zeros hr
    rw [pass_of_mem hheld.zero] at h
    have hbuffer : input ++ 0 :: (buffer ++ junk).drop (input.length + 1) = str input ++ 0 :: (rest ++ junk) := by
      rw [drop_append_of_le_length hlt, ← cons_append, ← append_assoc, hrest, append_assoc,
        cons_append]
    rw [Uniq.uniq_stdin, hbuffer,
      show (⟨List.replicate BUF_SIZE 0 ++ stack, List.replicate BUF_SIZE 0, 1, false⟩ : Vars) =
        Vars.on ⟨List.replicate BUF_SIZE 0, List.replicate BUF_SIZE 0, 1, false⟩ stack from rfl]
    simp only [heq]
    exact Option.some.inj h
  · cases h

/-! ### All calls -/

/-- The calls stay within their buffers if and only if, on standard input, there is a place for the
input and for each line with its zero, and a file for `uniq` has less than 256 bytes, or has zeros and
`readline` always leaves one in the buffer. It does so for a file of less than 256 bytes, and for no
longer one without zeros. -/
theorem within_buffers_iff (contents input flag : List Byte) (numLinesToShow inputSource : BitVec 32)
    {buffer lineBuffer : List Byte} (hb : buffer.length = 1024) (hl : lineBuffer.length = 1024) :
    ((uniq_kernel contents buffer input flag).isSome ↔
      if strcmp flag (text "-z") = 0 then
        input.length < 1024 ∧ ∀ x ∈ skim (input.length + 1) (str input), x.length < BUF_SIZE
      else contents.length < BUF_SIZE ∨ 0 ∈ contents ∧
        ∀ b ∈ fills contents (contents.length + 1) 0 (List.replicate BUF_SIZE 0), 0 ∈ b) ∧
    ((head_kernel contents lineBuffer input numLinesToShow inputSource).isSome ↔
      (inputSource = 0 → Fits input (max 1 numLinesToShow.toInt.toNat))) ∧
    (contents.length < BUF_SIZE →
      ∀ b ∈ fills contents (contents.length + 1) 0 (List.replicate BUF_SIZE 0), 0 ∈ b) ∧
    (0 ∉ contents → BUF_SIZE ≤ contents.length →
      ¬ ∀ b ∈ fills contents (contents.length + 1) 0 (List.replicate BUF_SIZE 0), 0 ∈ b) := by
  have hshort : contents.length < BUF_SIZE →
      ∀ b ∈ fills contents (contents.length + 1) 0 (List.replicate BUF_SIZE 0), 0 ∈ b := fun h =>
    fills_short (Nat.le_sub_one_of_lt h) _ _ (List.getElem?_replicate_of_lt (by decide))
  refine ⟨?_, ?_, hshort, fun h0 h => fills_long h0 h _⟩
  · rw [uniq_kernel]
    split
    · exact uniq_stdin_iff hb input
    · refine uniq_file_iff.trans ⟨fun h => ?_, fun h => h.elim hshort And.right⟩
      by_cases hlen : contents.length < BUF_SIZE
      · exact .inl hlen
      · exact .inr ⟨by_contra fun h0 => fills_long h0 (Nat.not_lt.mp hlen) _ h, h⟩
  · rw [head_kernel]
    by_cases h : inputSource = 0
    · have hk : max 1 numLinesToShow.toInt.toNat = max 1 (numLinesToShow.toInt + 1 - 1).toNat := by
        rw [Int.add_sub_cancel]
      rw [if_pos h, head_stdin_loop_iff hk hl]
      exact ⟨fun hfit _ => hfit, fun hfit => hfit h⟩
    · rw [if_neg h]
      exact iff_of_true (head_file_some ..) fun h' => absurd h' h

theorem within_buffers_two_lines :
    (uniq_kernel (text "a\na") (List.replicate 1024 0) (text "b\nc") (text "-n")).isSome ∧
      (uniq_kernel (text "a\na") (List.replicate 1024 0) (text "b\nc") (text "-z")).isSome ∧
      (head_kernel (text "a\na") (List.replicate 1024 0) (text "b\nc") 1 0).isSome := by
  have hz : (List.replicate 1024 (0 : Byte)).length = 1024 := length_replicate
  have h := within_buffers_iff (text "a\na") (text "b\nc")
  refine ⟨?_, ?_, ?_⟩
  · obtain ⟨huniq, -, -, -⟩ := h (text "-n") 1 0 hz hz
    rw [if_neg (by decide)] at huniq
    exact huniq.mpr (.inl (by decide))
  · obtain ⟨huniq, -, -, -⟩ := h (text "-z") 1 0 hz hz
    rw [if_pos (by decide)] at huniq
    exact huniq.mpr (by decide)
  · obtain ⟨-, hhead, -, -⟩ := h (text "-z") 1 0 hz hz
    exact hhead.mpr fun _ => ⟨by decide, by decide⟩

theorem mem_skim_str (h0 : 0 ∉ l) (hn : newline ∉ l) (hne : l ≠ []) (fuel : Nat) :
    l ∈ skim (fuel + 1) (str l) := by
  have hline : firstLine newline l = l :=
    takeWhile_eq_self_iff.mpr fun c hc => decide_eq_true fun (h : c = newline) => hn (h ▸ hc)
  rw [str_of_notMem h0, skim, if_neg hne, hline]
  exact mem_cons_self ..

/-- A file of 256 bytes, a standard input of 1024, and on standard input a line of 256 bytes for
`uniq` or of 1024 for `head`. -/
theorem within_buffers_exceeded :
    uniq_kernel (List.replicate 256 97) (List.replicate 1024 0) [] (text "-n") = none ∧
      uniq_kernel [] (List.replicate 1024 0) (List.replicate 1024 97) (text "-z") = none ∧
      uniq_kernel [] (List.replicate 1024 0) (List.replicate 256 97) (text "-z") = none ∧
      head_kernel [] (List.replicate 1024 0) (List.replicate 1024 97 ++ [newline]) 1 0 = none := by
  have h97 : ∀ n, (0 : Byte) ∉ List.replicate n 97 := fun n h => absurd (eq_of_mem_replicate h) (by decide)
  have h10 : ∀ n, newline ∉ List.replicate n (97 : Byte) := fun n h =>
    absurd (eq_of_mem_replicate h) (by decide)
  have hne : List.replicate 256 (97 : Byte) ≠ [] := fun h => by
    have := congrArg List.length h
    rw [length_replicate] at this
    cases this
  refine ⟨?_, ?_, ?_, ?_⟩
  · rw [uniq_kernel, if_neg (by decide), ← Option.not_isSome_iff_eq_none, uniq_file_iff]
    exact fills_long (h97 256) (by rw [length_replicate]) _
  · rw [uniq_kernel, if_pos (by decide), ← Option.not_isSome_iff_eq_none, uniq_stdin_iff length_replicate]
    intro h
    rw [length_replicate] at h
    exact absurd h.1 (by decide)
  · rw [uniq_kernel, if_pos (by decide), ← Option.not_isSome_iff_eq_none, uniq_stdin_iff length_replicate]
    intro h
    have hlong := h.2 _ (mem_skim_str (h97 256) (h10 256) hne _)
    rw [length_replicate] at hlong
    exact absurd hlong (by decide)
  · rw [head_kernel, if_pos rfl, ← Option.not_isSome_iff_eq_none, head_stdin_loop_iff rfl length_replicate]
    intro h
    have hended : ended newline (List.replicate 1024 (97 : Byte) ++ [newline]) = [List.replicate 1024 97] := by
      rw [ended, if_pos List.getLast?_concat, lines_append_sep (h10 1024)]
      rfl
    have hlong := h.1 (List.replicate 1024 97)
    rw [hended, length_replicate] at hlong
    exact absurd (hlong (mem_cons_self ..)) (by decide)

end Xv6.Uniq.Bounds
