import Xv6.Lib.Groups
import Xv6.Uniq.User

/-! What the flags of `uniq` are for: run-length groups.

Adjacent lines that are equal to the first of them, in lower case for `-i`, are one group. `-c` prints the
length and the first line of each group, `-n` and `-i` the first line, `-d` the first line of the groups of
two or more. `lineCount` is an `int`: the length that `-c` prints is right below 2^31. -/
namespace Xv6.Uniq
open Lib Fs List

/-! ### Groups -/

inductive Flag where
  | c
  | n
  | i
  | d
deriving DecidableEq

namespace Flag

/-- The argument of the program. -/
def arg : Flag → List Byte
  | c => text "-c"
  | n => text "-n"
  | i => text "-i"
  | d => text "-d"

/-- The two lines are in one group. -/
def same (f : Flag) (a b : List Byte) : Bool :=
  if f = i then convertToLowercase a = convertToLowercase b else a = b

/-- What is printed about a group, with its length as `count` gives it. -/
def shown (f : Flag) (count : Nat → Int) (g : List Byte × Nat) : List Printed :=
  match f with
  | c => [.counted (count g.2) g.1]
  | d => if 2 ≤ g.2 then [.line g.1] else []
  | _ => [.line g.1]

/-- What is printed about all the lines. -/
def expected (f : Flag) (count : Nat → Int) (ls : List (List Byte)) : List Printed :=
  if ls = [] then [.line []] else (groups f.same ls).flatMap (f.shown count)

end Flag

/-- The value of an `int` that has been counted up to `n`. -/
def int (n : Nat) : Int := (BitVec.ofNat 32 n).toInt

theorem int_eq_iff (n : Nat) : int n = n ↔ n < 2 ^ 31 := by
  have hint : int n = (n : Int).bmod (2 ^ 32) := by
    rw [int, BitVec.toInt_eq_toNat_bmod, BitVec.toNat_ofNat, Int.natCast_emod, Int.emod_bmod]
  rw [hint]
  constructor
  · intro h
    have hlt := Int.bmod_lt (x := (n : Int)) (m := 2 ^ 32) (by decide)
    rw [h] at hlt
    omega
  · intro h
    exact Int.bmod_eq_of_le (by omega) (by omega)

/-! ### The report -/

variable {f : Flag} {r : Run} {k : Nat} {l : List Byte} {ls : List (List Byte)}

theorem flags_of_arg (f : Flag) : Flags.of f.arg = ⟨f = .c, f = .i, f = .d, f = .n⟩ := by
  cases f <;> rfl

theorem differ_arg (f : Flag) (a b : List Byte) : (Flags.of f.arg).differ a b = !f.same b a := by
  rw [flags_of_arg, Flags.differ, Flag.same]
  by_cases hi : f = .i <;> simp [hi, eq_comm]

/-- What has been printed about a group before its end. -/
def Flag.early (f : Flag) (g : List Byte × Nat) : List Printed := if f = .d ∧ 2 ≤ g.2 then [.line g.1] else []

theorem early_one (f : Flag) (l : List Byte) : f.early (l, 1) = [] :=
  if_neg fun h => absurd h.2 (Nat.lt_irrefl 1)

/-- The run is a group of `k` lines so far. -/
structure Follows (f : Flag) (r : Run) (k : Nat) : Prop where
  line : r.line ≠ []
  pos : 1 ≤ k
  length : r.length = BitVec.ofNat 32 k
  printed : f = .d → r.printed = decide (2 ≤ k)

theorem Follows.same (h : Follows f r k) (hl : f.same r.line l = true) :
    Follows f (r.next (Flags.of f.arg) l).1 (k + 1) ∧ (r.next (Flags.of f.arg) l).1.line = r.line ∧
      f.early (r.line, k) ++ (r.next (Flags.of f.arg) l).2 = f.early (r.line, k + 1) := by
  obtain ⟨hline, hpos, hlength, hprinted⟩ := h
  have hlength' : r.length + 1 = BitVec.ofNat 32 (k + 1) := by rw [hlength, BitVec.ofNat_add]; rfl
  have hdiffer : ¬(Flags.of f.arg).differ l r.line = true := by simp [differ_arg, hl]
  rw [Run.next, if_neg hdiffer, flags_of_arg]
  by_cases hd : f = .d
  · have hp := hprinted hd
    by_cases hk : 2 ≤ k
    · rw [if_neg (by simp [hp, hk])]
      refine ⟨⟨hline, by omega, hlength', fun _ => ?_⟩, rfl, ?_⟩
      · rw [hp]
        simp [hk]
        omega
      · simp [Flag.early, hd, hk]
        omega
    · rw [if_pos (by simp [hp, hk, hd])]
      refine ⟨⟨hline, by omega, hlength', fun _ => ?_⟩, rfl, ?_⟩
      · simp
        omega
      · simp [Flag.early, hd, hk]
        omega
  · rw [if_neg (by simp [hd])]
    exact ⟨⟨hline, by omega, hlength', fun h => absurd h hd⟩, rfl, by simp [Flag.early, hd]⟩

theorem Follows.differ (h : Follows f r k) (hl : f.same r.line l = false) (hne : l ≠ []) :
    Follows f (r.next (Flags.of f.arg) l).1 1 ∧ (r.next (Flags.of f.arg) l).1.line = l ∧
      f.early (r.line, k) ++ (r.next (Flags.of f.arg) l).2 = f.shown int (r.line, k) := by
  obtain ⟨hline, hpos, hlength, hprinted⟩ := h
  have hdiffer : (Flags.of f.arg).differ l r.line = true := by simp [differ_arg, hl]
  rw [Run.next, if_pos hdiffer, if_neg hline, flags_of_arg]
  cases f with
  | c => exact ⟨⟨hne, Nat.le_refl _, rfl, fun h => by cases h⟩, rfl, by simp [Flag.early, Flag.shown, int, hlength]⟩
  | i => exact ⟨⟨hne, Nat.le_refl _, rfl, fun h => by cases h⟩, rfl, rfl⟩
  | d => exact ⟨⟨hne, Nat.le_refl _, rfl, fun _ => rfl⟩, rfl, by simp [Flag.early, Flag.shown]⟩
  | n =>
    by_cases hone : 1 < r.length.toInt
    · simp only [hone]
      exact ⟨⟨hne, Nat.le_refl _, rfl, fun h => by cases h⟩, rfl, rfl⟩
    · simp only [hone]
      exact ⟨⟨hne, Nat.le_refl _, rfl, fun h => by cases h⟩, rfl, rfl⟩

theorem Follows.last (h : Follows f r k) : f.early (r.line, k) ++ r.last (Flags.of f.arg) = f.shown int
    (r.line, k) := by
  rw [Run.last, if_pos h.line, flags_of_arg]
  cases f with
  | c => simp [Flag.early, Flag.shown, int, h.length]
  | n => rfl
  | i => rfl
  | d => simp [Flag.early, Flag.shown]

/-- From a run on, all lines are printed by groups. -/
theorem Follows.all (h : Follows f r k) (hls : [] ∉ ls) :
    f.early (r.line, k) ++ ((r.all (Flags.of f.arg) ls).2 ++ (r.all (Flags.of f.arg) ls).1.last (Flags.of f.arg)) =
      (continued f.same r.line k ls).flatMap (f.shown int) := by
  induction ls generalizing r k with
  | nil =>
    rw [continued_nil, flatMap_singleton]
    exact h.last
  | cons l ls ih =>
    obtain ⟨hl, hls⟩ := not_or.mp (mt mem_cons.mpr hls)
    rw [Run.all, append_assoc, ← append_assoc]
    cases hsame : f.same r.line l with
    | true =>
      obtain ⟨hnext, hline, hout⟩ := h.same hsame
      rw [hout, continued_same hsame, ← hline]
      exact ih hnext hls
    | false =>
      obtain ⟨hnext, hline, hout⟩ := h.differ hsame (Ne.symm hl)
      have hrest := ih hnext hls
      rw [hline, early_one, nil_append] at hrest
      rw [hout, continued_differ hsame, flatMap_cons, ← hrest]

theorem follows_start (f : Flag) (hl : l ≠ []) : Follows f (Run.start.next (Flags.of f.arg) l).1 1 ∧
    (Run.start.next (Flags.of f.arg) l).1.line = l ∧ (Run.start.next (Flags.of f.arg) l).2 = [] := by
  have hdiffer : (Flags.of f.arg).differ l Run.start.line = true := by
    rw [differ_arg, Flag.same, Run.start]
    cases l with
    | nil => exact absurd rfl hl
    | cons c l => simp [convertToLowercase]
  rw [Run.next, if_pos hdiffer, if_pos (show Run.start.line = [] from rfl)]
  exact ⟨⟨hl, Nat.le_refl _, rfl, fun _ => rfl⟩, rfl, rfl⟩

/-- The report on lines that are not empty, by groups. -/
theorem report_groups (f : Flag) (hls : [] ∉ ls) : report (Flags.of f.arg) ls = f.expected int ls := by
  cases ls with
  | nil => rfl
  | cons l ls =>
    obtain ⟨hl, hls⟩ := not_or.mp (mt mem_cons.mpr hls)
    obtain ⟨hnext, hline, hout⟩ := follows_start f (Ne.symm hl)
    have hall := hnext.all hls
    rw [hline, early_one, nil_append] at hall
    rw [Flag.expected, if_neg (cons_ne_nil l ls), groups_cons, ← hall, report, Run.all, hout]
    rfl

/-! ### The program and the kernel -/

theorem User.uniq_texts_ne_nil (h0 : 0 ∉ fd) (fuel : Nat) (buffer : List Byte) :
    [] ∉ uniq_texts fuel fd buffer := by
  induction fuel generalizing fd buffer with
  | zero => exact not_mem_nil
  | succ fuel ih =>
    obtain ⟨htext, hn, hrest⟩ := readline_text h0 buffer
    rw [uniq_texts_succ, htext, hn, hrest]
    split
    · rename_i hpos
      refine fun h => (mem_cons.mp h).elim (fun he => ?_) (ih (fun hz => h0 ?_) _)
      · rw [← he] at hpos
        exact absurd hpos (Nat.lt_irrefl 0)
      · split at hz
        · exact mem_of_mem_drop hz
        · exact mem_of_mem_drop hz
    · exact not_mem_nil

/-- The lengths that are printed are right. -/
theorem expected_iff (f : Flag) (ls : List (List Byte)) :
    f.expected int ls = f.expected (↑·) ls ↔ (f = .c → ∀ g ∈ groups f.same ls, g.2 < 2 ^ 31) := by
  cases f with
  | c =>
    cases ls with
    | nil => simp [Flag.expected, groups_nil]
    | cons l ls =>
      rw [Flag.expected, Flag.expected, if_neg (cons_ne_nil l ls), if_neg (cons_ne_nil l ls)]
      have hmap : ∀ (count : Nat → Int) (gs : List (List Byte × Nat)),
          gs.flatMap (Flag.c.shown count) = gs.map fun g => .counted (count g.2) g.1 :=
        fun count gs => map_eq_flatMap.symm
      simp only [hmap, map_inj_left, forall_const, Printed.counted.injEq, and_true, int_eq_iff]
  | n => exact iff_of_true rfl fun h => by cases h
  | i => exact iff_of_true rfl fun h => by cases h
  | d => exact iff_of_true rfl fun h => by cases h

/-- **The flags compute run-length groups** of the lines that `readline` returns, in the program and in the kernel,
exactly when `-c` finds no group of 2^31 lines. -/
theorem uniq_groups_iff (f : Flag) :
    (∀ fd, 0 ∉ fd → (User.uniq_user fd f.arg = f.expected (↑·) (User.uniq_considers fd) ↔
      (f = .c → ∀ g ∈ groups f.same (User.uniq_considers fd), g.2 < 2 ^ 31))) ∧
    ∀ sb cwd stack path s ls t, uniq_considers sb cwd stack path s = .ok (some ls, t) →
      (sys_uniq_kernel sb cwd stack (some (path, f.arg)) s = .ok ((0, f.expected (↑·) ls), t) ↔
        (f = .c → ∀ g ∈ groups f.same ls, g.2 < 2 ^ 31)) := by
  refine ⟨fun fd h0 => ?_, fun sb cwd stack path s ls t hls => ?_⟩
  · have hnil : [] ∉ User.uniq_considers fd := User.uniq_texts_ne_nil h0 _ _
    rw [User.uniq_user_considers, report_groups f hnil, expected_iff]
  · obtain ⟨r, hr, rfl⟩ := (sys_uniq_kernel_considers sb cwd stack path f.arg s).of_ok hls
    have hnil := (uniq_considers_ne_nil sb cwd stack path s).of_ok hls ls rfl
    rw [hr, uniqAnswer, report_groups f hnil, ← expected_iff]
    simp

theorem uniq_groups_two : 0 ∉ text "a\na\nb\n" ∧
    User.uniq_user (text "a\na\nb\n") Flag.c.arg = [.counted 2 [97], .counted 1 [98]] := by
  have h0 : 0 ∉ text "a\na\nb\n" := by decide
  have hls : User.uniq_considers (text "a\na\nb\n") = [[97], [97], [98]] := by decide
  have hgroups : groups Flag.c.same [[97], [97], [98]] = [([97], 2), ([98], 1)] := by
    simp [groups, Flag.same]
  have h := ((uniq_groups_iff .c).1 _ h0).mpr
  rw [hls, Flag.expected, hgroups] at h
  exact ⟨h0, h (by decide)⟩

/-- A line `n` times. -/
def repeated (n : Nat) : List Byte := (List.replicate n [97]).flatMap (· ++ [newline])

theorem zero_notMem_repeated (n : Nat) : 0 ∉ repeated n := by
  simp [repeated]

theorem uniq_considers_repeated (n : Nat) : User.uniq_considers (repeated n) = List.replicate n [97] := by
  have hmem : ∀ x ∈ List.replicate n ([97] : List Byte), x = [97] := fun _ hx => eq_of_mem_replicate hx
  have hlines : lines newline (repeated n) = List.replicate n [97] :=
    lines_flatMap fun x hx => by rw [hmem x hx]; decide
  rw [← hlines, User.uniq_considers_iff (zero_notMem_repeated n), hlines]
  refine ⟨fun x hx => ?_, fun x hx => ?_⟩
  · rw [hmem x hx]
    decide
  · rw [hmem x (mem_of_mem_dropLast hx)]
    decide

/-- With `-c` the length of a group of 2^31 lines is printed as a negative number. -/
theorem uniq_counts_negative : ∃ fd, 0 ∉ fd ∧ User.uniq_considers fd = List.replicate 2147483648 [97] ∧
    User.uniq_user fd Flag.c.arg = [.counted (-2147483648) [97]] := by
  have hreport : ∀ n, User.uniq_user (repeated (n + 1)) Flag.c.arg = [.counted (int (n + 1)) [97]] := by
    intro n
    have hnil : [] ∉ List.replicate (n + 1) ([97] : List Byte) := by simp
    have hne : List.replicate (n + 1) ([97] : List Byte) ≠ [] := by simp
    have hsame : Flag.c.same [97] [97] = true := by decide
    rw [User.uniq_user_considers, uniq_considers_repeated, report_groups .c hnil, Flag.expected, if_neg hne,
      groups_replicate hsame]
    rfl
  have hint : int (2147483647 + 1) = -2147483648 := by decide
  refine ⟨repeated (2147483647 + 1), zero_notMem_repeated _, uniq_considers_repeated _, ?_⟩
  rw [hreport, hint]

end Xv6.Uniq
