import Xv6.Mkfs.Append
import Xv6.Fs.Check

/-! What `mkfs` builds.

The loop over the files is followed by the inodes that the files done so far make up. The last steps
round the size of the root directory up and write the free map. -/
namespace Xv6.Mkfs
open Lib Fs Function List

variable {s t : Image} {i : Nat} {N : Nat → Node} {a : Arg} {args done rest : List Arg}

/-! ### The inodes of the files -/

/-- The bytes of the file. -/
def Arg.bytes (a : Arg) : List Byte :=
  match a.file with
  | some r => r.bytes
  | none => []

/-- The entries of the root directory: file `k` is inode `k + 2`. -/
def entries (args : List Arg) : List (Nat × List Byte) :=
  (ROOTINO, [46]) :: (ROOTINO, [46, 46]) :: args.mapIdx fun k a => (k + 2, a.stored)

/-- The inodes of an image with these files. -/
def inodes (args : List Arg) (i : Nat) : Node :=
  if i = ROOTINO then ⟨T_DIR, 0, 0, 1, dirData (entries args)⟩
  else if i = 0 then .free
  else match args[i - 2]? with
    | some a => ⟨T_FILE, 0, 0, 1, a.bytes⟩
    | none => .free

/-- The blocks that the image takes. -/
def demand (args : List Arg) : Nat :=
  nmeta + blocksFor (DIRENT * (args.length + 2)) + (args.map fun a => blocksFor a.bytes.length).sum

theorem length_entries (args : List Arg) : (entries args).length = args.length + 2 := by
  rw [entries, length_cons, length_cons, length_mapIdx]

theorem entries_concat (done : List Arg) (a : Arg) :
    entries (done ++ [a]) = entries done ++ [(done.length + 2, a.stored)] := by
  rw [entries, mapIdx_concat]
  rfl

theorem dirData_concat (done : List Arg) (a : Arg) :
    dirData (entries (done ++ [a])) = dirData (entries done) ++ entry (done.length + 2) a.stored := by
  rw [entries_concat, dirData, flatMap_append, flatMap_singleton]
  rfl

theorem inodes_file (k : Nat) : inodes args (k + 2) =
    match args[k]? with
    | some a => ⟨T_FILE, 0, 0, 1, a.bytes⟩
    | none => .free := by
  rw [inodes, if_neg (by simp only [ROOTINO]; omega), if_neg (by omega), Nat.add_sub_cancel]

theorem inodes_concat (done : List Arg) (a : Arg) :
    inodes (done ++ [a]) = append (append (update (inodes done) (done.length + 2) ⟨T_FILE, 0, 0, 1, []⟩)
      ROOTINO (entry (done.length + 2) a.stored)) (done.length + 2) a.bytes := by
  have hroot : ROOTINO ≠ done.length + 2 := by simp only [ROOTINO]; omega
  funext i
  by_cases hi : i = done.length + 2
  · subst hi
    rw [append, update_self, append, update_of_ne hroot.symm, update_self, inodes_file,
      List.getElem?_concat_length]
    rfl
  rw [append, update_of_ne hi, append]
  by_cases hr : i = ROOTINO
  · rw [hr, update_self, update_of_ne hroot, inodes, if_pos rfl, inodes, if_pos rfl, dirData_concat]
  · rw [update_of_ne hr, update_of_ne hi, inodes, inodes, if_neg hr, if_neg hr]
    by_cases h0 : i = 0
    · rw [if_pos h0, if_pos h0]
    · have hne : i - 2 ≠ done.length := by
        simp only [ROOTINO] at hr
        omega
      rw [if_neg h0, if_neg h0]
      by_cases hlt : i - 2 < done.length
      · rw [List.getElem?_append_left hlt]
      · rw [List.getElem?_eq_none (by rw [length_append, length_singleton]; omega),
          List.getElem?_eq_none (by omega)]

theorem demand_concat (done : List Arg) (a : Arg) :
    demand (done ++ [a]) + blocksFor (DIRENT * (done.length + 2)) =
      demand done + blocksFor (DIRENT * (done.length + 3)) + blocksFor a.bytes.length := by
  have hlen : (done ++ [a]).length + 2 = done.length + 3 := by rw [length_append, length_singleton]
  rw [demand, demand, hlen, map_append, sum_append, map_singleton, sum_singleton]
  omega

theorem demand_le_append (done rest : List Arg) : demand done ≤ demand (done ++ rest) := by
  have hroot : blocksFor (DIRENT * (done.length + 2)) ≤ blocksFor (DIRENT * ((done ++ rest).length + 2)) := by
    refine blocksFor_mono (Nat.mul_le_mul_left _ ?_)
    rw [length_append]
    omega
  rw [demand, demand, map_append, sum_append]
  omega

/-! ### Numbers handed out -/

/-- When the program does not end in `x`, it hands out `n` inode numbers in it. -/
def HandsOut {α : Type} (n : Nat) (x : M α) : Prop :=
  ∀ s, Runs x s (fun _ t => t.freeinode = s.freeinode + n) fun _ => True

namespace HandsOut
variable {α β : Type} {m n : Nat} {x : M α} {f : α → M β}

theorem bind (hx : HandsOut m x) (hf : ∀ a, HandsOut n (f a)) : HandsOut (m + n) (x >>= f) := fun s =>
  Runs.bind (hx s) fun a t ht => (hf a t).post fun _ u hu => by rw [hu, ht, Nat.add_assoc]

theorem after (hx : HandsOut 0 x) (hf : ∀ a, HandsOut n (f a)) : HandsOut n (x >>= f) := by
  have h := hx.bind hf
  rwa [Nat.zero_add] at h

theorem pure (a : α) : HandsOut 0 (Pure.pure a : M α) := fun _ => Runs.pure rfl

theorem throw (e : Exit) : HandsOut n (MonadExcept.throw e : M α) := fun _ => Runs.throw trivial

theorem ite [Decidable c] (hx : HandsOut n x) (hy : HandsOut n y) :
    HandsOut n (if c then x else y) := fun s => Runs.ite (fun _ => hx s) fun _ => hy s

theorem forM {l : List β} {g : β → M Unit} (hg : ∀ b, HandsOut n (g b)) : HandsOut (n * l.length) (l.forM g) := by
  induction l with
  | nil => exact pure _
  | cons b l ih =>
    have h := (hg b).bind fun _ => ih
    rwa [Nat.add_comm, ← Nat.mul_succ] at h

theorem forM_none {l : List β} {g : β → M Unit} (hg : ∀ b, HandsOut 0 (g b)) : HandsOut 0 (l.forM g) := by
  have h : HandsOut (0 * l.length) (l.forM g) := forM hg
  rwa [Nat.zero_mul] at h

end HandsOut

theorem handsOut_assert (c : Prop) [Decidable c] : HandsOut 0 (assert c) := .ite (.pure _) (.throw _)

theorem handsOut_rsect (b : Nat) : HandsOut 0 (rsect b) := fun _ =>
  Runs.bind_get (Runs.ite (fun _ => Runs.pure rfl) fun _ => Runs.throw trivial)

theorem handsOut_wsect (b : Nat) (x : Block) : HandsOut 0 (wsect b x) := fun _ => Runs.modify rfl

theorem handsOut_winode (i : Nat) (d : Dinode) : HandsOut 0 (winode i d) :=
  (handsOut_rsect _).after fun _ => handsOut_wsect _ _

theorem handsOut_rinode (i : Nat) : HandsOut 0 (rinode i) := (handsOut_rsect _).after fun _ => .pure _

theorem handsOut_nextblock : HandsOut 0 nextblock := fun s => Runs.of_eq_ok (nextblock_ok s) rfl

theorem handsOut_ialloc (type : BitVec 16) : HandsOut 1 (ialloc type) := fun _ =>
  Runs.bind_get (Runs.bind_ok rfl (Runs.bind (handsOut_winode _ _ _) fun _ _ ht => Runs.pure ht))

theorem handsOut_iappend_block (din : Dinode) (bn : Nat) : HandsOut 0 (iappend_block din bn) := by
  rw [iappend_block]
  split
  · exact .ite (handsOut_nextblock.after fun _ => .pure _) (.pure _)
  · have haddr : HandsOut 0 (if din.addrs (Fin.last NDIRECT) = 0 then (do
        let b ← nextblock
        pure (din.setAddr (Fin.last NDIRECT) b))
      else pure din) := .ite (handsOut_nextblock.after fun _ => .pure _) (.pure _)
    refine haddr.after fun d => (handsOut_rsect _).after fun _ => .ite ?_ (.pure _)
    exact handsOut_nextblock.after fun _ => (handsOut_wsect _ _).after fun _ => .pure _

theorem handsOut_iappend_from (fuel : Nat) (din : Dinode) (off : Nat) (p : List Byte) :
    HandsOut 0 (iappend_from fuel din off p) := by
  induction fuel generalizing din off p with
  | zero => exact .pure _
  | succ fuel ih =>
    refine .ite (.pure _) ((handsOut_assert _).after fun _ => (handsOut_iappend_block _ _).after fun r => ?_)
    exact (handsOut_rsect _).after fun _ => (handsOut_wsect _ _).after fun _ => ih _ _ _

theorem handsOut_iappend (i : Nat) (p : List Byte) : HandsOut 0 (iappend i p) :=
  (handsOut_rinode _).after fun _ => (handsOut_iappend_from _ _ _ _).after fun _ => handsOut_winode _ _

theorem handsOut_addFile (root : Nat) (a : Arg) : HandsOut 1 (addFile root a) := by
  refine (handsOut_assert _).after fun _ => ?_
  cases a.file with
  | none => exact .throw _
  | some r =>
    refine HandsOut.bind (n := 0) (handsOut_ialloc _) fun i => (handsOut_iappend _ _).after fun _ => ?_
    exact .forM_none fun p => handsOut_iappend i p

theorem handsOut_fixRoot (root : Nat) : HandsOut 0 (fixRoot root) :=
  (handsOut_rinode _).after fun _ => handsOut_winode _ _

theorem handsOut_balloc (used : Nat) : HandsOut 0 (balloc used) :=
  (handsOut_assert _).after fun _ => handsOut_wsect _ _

theorem handsOut_wzeroes (n : Nat) : HandsOut 0 (wzeroes n) := by
  rw [wzeroes]
  exact .forM_none fun i => handsOut_wsect i _

/-- A run that ends with status zero has handed out a number to the root and to each file. -/
theorem handsOut_main (args : List Arg) : HandsOut (1 + args.length) (main args) := by
  refine (handsOut_wzeroes _).after fun _ => (handsOut_wsect _ _).after fun _ => (handsOut_ialloc _).bind fun root => ?_
  refine (handsOut_assert _).after fun _ => (handsOut_iappend _ _).after fun _ => (handsOut_iappend _ _).after fun _ => ?_
  have hfiles : HandsOut (1 * args.length) (args.forM (addFile root)) := .forM fun a => handsOut_addFile root a
  rw [Nat.one_mul] at hfiles
  refine hfiles.bind (n := 0) fun _ => (handsOut_fixRoot _).after fun _ => ?_
  exact fun s => Runs.bind_get (handsOut_balloc _ s)

/-! ### The loop over the files -/

/-- The image after the files `done`. -/
structure Progress (done : List Arg) (s : Image) : Prop where
  built : Built s s.view (inodes done)
  freeinode : s.freeinode = done.length + 2
  freeblock : s.freeblock = demand done

/-- The files fit the image. -/
structure Fits (args : List Arg) : Prop where
  count : args.length ≤ NINODES - 2
  names : ∀ a ∈ args, slash ∉ a.name
  opened : ∀ a ∈ args, a.file ≠ none
  size : ∀ a ∈ args, a.bytes.length ≤ MAXFILE * BSIZE
  total : demand args ≤ FSSIZE

theorem ialloc_runs (ht : type ≠ 0) (h : Built s s.view N)
    (hi : s.freeinode < NINODES) (h0 : (N s.freeinode).type = 0) :
    Runs (ialloc type) s
      (fun i t => i = s.freeinode ∧ Built t t.view (update N i ⟨type, 0, 0, 1, []⟩) ∧
        t.freeinode = s.freeinode + 1 ∧ t.freeblock = s.freeblock) E := by
  rw [← h.node] at h0
  obtain ⟨hf, hn⟩ := formed_empty 1 h.formed (node_type_zero.mp h0) ht
  have hb : Built {s with freeinode := s.freeinode + 1}
      (s.view.setTab s.freeinode (.empty type 1)) (update N s.freeinode ⟨type, 0, 0, 1, []⟩) :=
    ⟨⟨h.tidy.length, h.tidy.low, h.tidy.high, hf.owned, h.tidy.used, h.tidy.data, h.tidy.fresh⟩, hf, by rw [hn, h.node]⟩
  refine Runs.bind_get (Runs.bind_ok rfl (Runs.bind (winode_runs hb hi) fun _ t ht => Runs.pure ?_))
  exact ⟨rfl, ht.1, ht.2.2, ht.2.1⟩

theorem NoRoom.mono (h : NoRoom s off m) (hmn : m ≤ n) : NoRoom s off n := by
  have hle : blocksFor (off + m) ≤ blocksFor (off + n) := blocksFor_mono (by omega)
  exact h.imp (by omega) (by omega)

theorem iappend_all_runs (ps : List (List Byte)) (h : Built s s.view N) (hi : i < NINODES) (h0 : (N i).type ≠ 0) :
    Runs (ps.forM (iappend i)) s
      (fun _ t => Built t t.view (append N i ps.flatten) ∧ t.freeblock + blocksFor (N i).data.length =
        s.freeblock + blocksFor ((N i).data.length + ps.flatten.length))
      fun _ => NoRoom s (N i).data.length ps.flatten.length := by
  induction ps generalizing s N with
  | nil =>
    rw [flatten_nil, append_nil]
    exact Runs.pure ⟨h, rfl⟩
  | cons p ps ih =>
    have hlen : (p :: ps).flatten.length = p.length + ps.flatten.length := by
      rw [flatten_cons, length_append]
    rw [hlen]
    refine Runs.bind ((iappend_runs p h hi h0).stops fun _ hno => hno.mono (Nat.le_add_right ..)) fun _ t ht => ?_
    have hdata : (append N i p i).data.length = (N i).data.length + p.length := by
      rw [append, update_self, length_append]
    have h0' : (append N i p i).type ≠ 0 := by
      rw [append, update_self]
      exact h0
    refine (ih ht.1 h0').mono (fun _ u hu => ?_) fun _ hno => ?_
    · rw [append_append, ← flatten_cons, hdata, Nat.add_assoc] at hu
      exact ⟨hu.1, by omega⟩
    · rw [NoRoom, hdata, Nat.add_assoc] at hno
      exact hno.imp_left (by omega)

theorem bytes_of_file (h : a.file = some r) : a.bytes = r.bytes := by rw [Arg.bytes, h]

/-- One more file is put into the image. -/
theorem addFile_runs (h : Progress done s) (hcount : (done ++ a :: rest).length ≤ NINODES - 2) :
    Runs (addFile ROOTINO a) s (fun _ => Progress (done ++ [a])) fun _ => ¬ Fits (done ++ a :: rest) := by
  have hmem : a ∈ done ++ a :: rest := mem_append_right _ (mem_cons_self ..)
  have hlen : done.length + 1 ≤ NINODES - 2 := by
    rw [length_append, length_cons] at hcount
    omega
  have hi : done.length + 2 < NINODES := by
    simp only [NINODES] at hlen ⊢
    omega
  have hroot : ROOTINO ≠ done.length + 2 := by simp only [ROOTINO]; omega
  have hle : demand (done ++ [a]) ≤ demand (done ++ a :: rest) := by
    have := demand_le_append (done ++ [a]) rest
    rwa [append_assoc, singleton_append] at this
  have hgrow := demand_concat done a
  have hsize : (dirData (entries done)).length = DIRENT * (done.length + 2) := by rw [length_dirData, length_entries]
  have hnext : DIRENT * (done.length + 2) + DIRENT = DIRENT * (done.length + 3) := by rw [← Nat.mul_succ]
  have hentry : (entry (done.length + 2) a.stored).length = DIRENT := by
    rw [entry, dirent, length_cons, length_cons, length_strncpy]
    rfl
  suffices hbuilt : Runs (addFile ROOTINO a) s
      (fun _ t => Built t t.view (inodes (done ++ [a])) ∧ t.freeblock = demand (done ++ [a]))
      fun _ => ¬ Fits (done ++ a :: rest) by
    refine ((handsOut_addFile ROOTINO a s).and hbuilt).mono (fun _ t ht => ⟨ht.2.1, ?_, ht.2.2⟩) fun _ he => he.2
    rw [ht.1, h.freeinode, length_append, length_singleton]
  refine assert_runs (fun _ => ?_) fun hslash hfit => hslash (hfit.names a hmem)
  cases hfile : a.file with
  | none => exact Runs.throw fun hfit => hfit.opened a hmem hfile
  | some r =>
    have hfree : (inodes done s.freeinode).type = 0 := by
      rw [h.freeinode, inodes_file, List.getElem?_eq_none (Nat.le_refl _)]
      rfl
    refine Runs.bind (ialloc_runs (by decide) h.built (by rw [h.freeinode]; exact hi) hfree) fun i t ht => ?_
    obtain ⟨hit, hbt, _, hUt⟩ := ht
    rw [h.freeinode] at hit
    subst hit
    have hN : update (inodes done) (done.length + 2) ⟨T_FILE, 0, 0, 1, []⟩ ROOTINO =
        ⟨T_DIR, 0, 0, 1, dirData (entries done)⟩ := by
      rw [update_of_ne hroot, inodes, if_pos rfl]
    refine Runs.bind ((iappend_runs (entry (done.length + 2) a.stored) hbt (by decide) (by rw [hN]; exact (by decide : T_DIR ≠ 0))).stops
      fun _ hno hfit => ?_) fun _ u hu => ?_
    · rw [hN, NoRoom, hsize, hentry, hUt, h.freeblock] at hno
      have := hfit.total
      rw [hnext] at hno
      rcases hno with hno | hno
      · omega
      · simp only [MAXFILE, NDIRECT, NINDIRECT, BSIZE, DIRENT, DIRSIZ, NINODES] at hno hlen
        omega
    · -- the new inode is still empty
      have hNi : append (update (inodes done) (done.length + 2) ⟨T_FILE, 0, 0, 1, []⟩) ROOTINO
          (entry (done.length + 2) a.stored) (done.length + 2) = ⟨T_FILE, 0, 0, 1, []⟩ := by
        rw [append, update_of_ne hroot.symm, update_self]
      have hUu := hu.2
      rw [hN, hsize, hentry, hnext, hUt, h.freeblock] at hUu
      have hfile' := iappend_all_runs r.pieces hu.1 hi (by rw [hNi]; exact (by decide : T_FILE ≠ 0))
      rw [hNi, length_nil, Nat.zero_add] at hfile'
      have hbytes := bytes_of_file hfile
      refine hfile'.mono (fun _ w hw => ⟨?_, ?_⟩) fun _ hno hfit => ?_
      · rw [inodes_concat, hbytes]
        exact hw.1
      · have := hw.2
        rw [hbytes] at hgrow
        rw [Reads.bytes] at hgrow
        have hz : blocksFor 0 = 0 := rfl
        omega
      · have := hfit.total
        have := hfit.size a hmem
        rw [hbytes, Reads.bytes] at hgrow this
        rw [NoRoom, Nat.zero_add] at hno
        have hz : blocksFor 0 = 0 := rfl
        omega

theorem addFiles_runs (h : Progress [] s) (hcount : args.length ≤ NINODES - 2) :
    Runs (args.forM (addFile ROOTINO)) s (fun _ => Progress args) fun _ => ¬ Fits args :=
  Runs.forM Progress (fun done a rest s hl hs => by
    rw [hl] at hcount ⊢
    exact addFile_runs hs hcount) h

/-! ### The start -/

theorem wzeroes_runs (n : Nat) (hn : n ≤ 8388608) :
    Runs (wzeroes n) start (fun _ t => t = {start with length := n}) E := by
  rw [wzeroes]
  refine (Runs.forM (fun done t => t = {start with length := done.length}) (fun done b rest s hl hs => ?_) rfl).post
    fun _ t ht => by rw [ht, length_range]
  have hb : b = done.length := by
    have hget : (List.range n)[done.length]? = some b := by
      rw [hl, List.getElem?_append_right (Nat.le_refl _), Nat.sub_self]
      rfl
    rw [List.getElem?_eq_some_iff] at hget
    obtain ⟨_, hget⟩ := hget
    rw [getElem_range] at hget
    exact hget.symm
  have hlen : done.length < n := by
    have := congrArg List.length hl
    rw [length_range, length_append, length_cons] at this
    omega
  subst hb hs
  refine Runs.modify ?_
  have hzero : update start.sectors (seek done.length) Bytes.zero = start.sectors := update_eq_self ..
  rw [seek_eq (by omega), length_append, length_singleton]
  rw [seek_eq (by omega)] at hzero
  show Image.mk (update start.sectors done.length Bytes.zero) (max done.length (done.length + 1)) _ _ = _
  rw [hzero, Nat.max_eq_right (Nat.le_succ _)]

/-- The image before the first inode. -/
theorem built_blank (x : Block) :
    Built (Image.put {start with length := FSSIZE} 1 x) (Image.put {start with length := FSSIZE} 1 x).view
      fun _ => .free := by
  have hview : (Image.put {start with length := FSSIZE} 1 x).view = view sb (blank sb) := by
    rw [view_blank layout_mkfs]
    refine View.ext ?_ rfl ?_
    · funext j
      show (if j < sb.ninodes then Dinode.read (update start.sectors 1 x (IBLOCK j sb)) _ else _) = Dinode.zero
      split
      case isTrue hj =>
        have hne : IBLOCK j sb ≠ 1 := by
          rw [IBLOCK]
          exact Nat.ne_of_gt (Nat.lt_add_left _ (by decide))
        rw [update_of_ne hne]
        exact read_zero _
      case isFalse => rfl
    · funext c
      show (if IsData sb c then update start.sectors 1 x c else _) = Bytes.zero
      split
      case isTrue hc =>
        rw [update_of_ne (Nat.ne_of_gt (Nat.lt_of_lt_of_le (by decide) hc.1))]
        rfl
      case isFalse => rfl
  have hformed := formed_blank layout_mkfs
  have hnode := node_blank layout_mkfs
  rw [← hview] at hformed hnode
  refine ⟨⟨rfl, Nat.le_refl _, (by decide : nmeta ≤ FSSIZE), hformed.owned, fun _ => rfl, fun _ hb => if_pos hb, fun b _ => ?_⟩, hformed, hnode⟩
  rw [hview, view_blank layout_mkfs]

theorem inodes_nil : inodes [] = append (append (update (fun _ => .free) ROOTINO ⟨T_DIR, 0, 0, 1, []⟩)
    ROOTINO (entry ROOTINO [46])) ROOTINO (entry ROOTINO [46, 46]) := by
  rw [append_append, append, update_idem, update_self]
  funext i
  by_cases hi : i = ROOTINO
  · rw [hi, update_self]
    rfl
  · rw [update_of_ne hi, inodes, if_neg hi]
    split <;> rfl

theorem iappend_number_runs (p : List Byte) (h : Built s s.view N) (hi : i < NINODES) (h0 : (N i).type ≠ 0) :
    Runs (iappend i p) s
      (fun _ t => Built t t.view (append N i p) ∧ t.freeinode = s.freeinode ∧
        t.freeblock + blocksFor (N i).data.length = s.freeblock + blocksFor ((N i).data.length + p.length))
      fun _ => NoRoom s (N i).data.length p.length :=
  ((handsOut_iappend i p s).and (iappend_runs p h hi h0)).mono (fun _ _ ht => ⟨ht.2.1, ht.1, ht.2.2⟩) fun _ he => he.2

/-! ### The end -/

theorem bit_balloc (hn : n ≤ 8 * BSIZE) (c : Nat) :
    ((List.range n).foldl Bytes.setBit (Bytes.zero : Block)).bit c = decide (c < n) := by
  induction n with
  | zero => exact Bytes.bit_zero c
  | succ n ih =>
    rw [range_succ, foldl_append, foldl_cons, foldl_nil, Bytes.bit_setBit _ _ _ (by omega),
      ih (by omega), ← Bool.decide_or]
    refine decide_eq_decide.mpr ?_
    omega

theorem balloc_runs (hl : s.length = FSSIZE) (hU : s.freeblock ≤ FSSIZE) :
    Runs (balloc s.freeblock) s (fun _ t => view sb t.sectors = s.view ∧ t.freeinode = s.freeinode) E := by
  have hlt : s.freeblock < BSIZE * 8 := by
    simp only [FSSIZE, BSIZE] at hU ⊢
    omega
  refine assert_runs (fun _ => Runs.of_eq_ok (wsect_ok hl (by decide) _) ⟨?_, rfl⟩) fun hno => absurd hlt hno
  refine View.ext ?_ ?_ ?_
  · funext j
    show (if j < sb.ninodes then Dinode.read (update s.sectors sb.bmapstart _ (IBLOCK j sb)) _ else _) =
      if j < sb.ninodes then _ else _
    by_cases hj : j < sb.ninodes
    · rw [if_pos hj, if_pos hj, update_of_ne (layout_mkfs.iblock_ne_bmap hj)]
    · rw [if_neg hj, if_neg hj]
  · funext c
    show (decide (c < sb.size) && (update s.sectors sb.bmapstart _ (BBLOCK c sb)).bit _) =
      decide (c < s.freeblock)
    by_cases hc : c < sb.size
    · rw [layout_mkfs.bblock hc, layout_mkfs.bit_index hc, update_self, bit_balloc (by omega),
        decide_eq_true hc, Bool.true_and]
    · rw [decide_eq_false hc, Bool.false_and, decide_eq_false (fun h => hc (h.trans_le hU))]
  · funext c
    show (if IsData sb c then update s.sectors sb.bmapstart _ c else _) = if IsData sb c then _ else _
    by_cases hc : IsData sb c
    · rw [if_pos hc, if_pos hc, update_of_ne (Nat.ne_of_gt (layout_mkfs.data.trans_le hc.1))]
    · rw [if_neg hc, if_neg hc]

/-- The view with the size of the root directory rounded up. -/
def rounded (v : View) : View :=
  v.setTab ROOTINO {v.tab ROOTINO with
    size := BitVec.ofNat 32 (((v.tab ROOTINO).size.toNat / BSIZE + 1) * BSIZE)}

theorem fixRoot_runs (hl : s.length = FSSIZE) :
    Runs (fixRoot ROOTINO) s
      (fun _ t => t.view = rounded s.view ∧ t.length = FSSIZE ∧ t.freeblock = s.freeblock) E := by
  refine Runs.bind_ok (rinode_ok hl (by decide)) (Runs.of_eq_ok (winode_ok hl (by decide) _) ⟨?_, hl, rfl⟩)
  exact view_winode s _ (by decide)

/-- What is on the disk at the end: the inodes of the files, but for the size of the root directory. -/
def Made (args : List Arg) (t : Image) : Prop :=
  ∃ v, Formed sb v ∧ node v = inodes args ∧ view sb t.sectors = rounded v

/-- The run from the first inode on. -/
theorem build_runs (hb : Built s s.view fun _ => .free) (hi : s.freeinode = ROOTINO) (hU : s.freeblock = nmeta)
    (hcount : args.length ≤ NINODES - 2) :
    Runs (do
      let rootino ← ialloc T_DIR
      assert (rootino = ROOTINO)
      iappend rootino (entry rootino [46])
      iappend rootino (entry rootino [46, 46])
      args.forM (addFile rootino)
      fixRoot rootino
      let s ← get
      balloc s.freeblock) s (fun _ => Made args) fun _ => ¬ Fits args := by
  refine Runs.bind (ialloc_runs (by decide) hb (by rw [hi]; decide) rfl) fun r s hs => ?_
  obtain ⟨hr, hbs, his, hUs⟩ := hs
  rw [hi] at hr his
  rw [hU] at hUs
  subst hr
  refine assert_runs (fun _ => ?_) fun hne => absurd rfl hne
  refine Runs.bind ((iappend_number_runs (entry ROOTINO [46]) hbs (by decide) ?type).stops fun _ hno => ?room)
    fun _ t ht => ?_
  case type =>
    rw [update_self]
    exact (by decide : T_DIR ≠ 0)
  case room =>
    rw [update_self, NoRoom, hUs] at hno
    exact absurd hno (by decide)
  obtain ⟨hbt, hit, hUt⟩ := ht
  rw [update_self, hUs] at hUt
  have hUt : t.freeblock = nmeta + 1 := hUt
  have hN : append (update (fun _ => .free) ROOTINO ⟨T_DIR, 0, 0, 1, []⟩) ROOTINO (entry ROOTINO [46]) ROOTINO =
      ⟨T_DIR, 0, 0, 1, entry ROOTINO [46]⟩ := by
    rw [append, update_self, update_self]
    rfl
  refine Runs.bind ((iappend_number_runs (entry ROOTINO [46, 46]) hbt (by decide) ?type).stops fun _ hno => ?room)
    fun _ u hu => ?_
  case type =>
    rw [hN]
    exact (by decide : T_DIR ≠ 0)
  case room =>
    rw [hN, NoRoom, hUt] at hno
    exact absurd hno (by decide)
  obtain ⟨hbu, hiu, hUu⟩ := hu
  rw [hN, hUt] at hUu
  have hUu : u.freeblock = demand [] := Nat.add_right_cancel hUu
  rw [← inodes_nil] at hbu
  refine Runs.bind (addFiles_runs ⟨hbu, by rw [hiu, hit, his]; rfl, hUu⟩ hcount) fun _ w hw => ?_
  refine Runs.bind (fixRoot_runs hw.built.tidy.length) fun _ x hx => Runs.bind_get ?_
  refine (balloc_runs hx.2.1 (by rw [hx.2.2]; exact hw.built.tidy.high)).post fun _ y hy => ?_
  exact ⟨w.view, hw.built.formed, hw.built.node, by rw [hy.1, hx.1]⟩

/-- The run of the program on files whose inodes fit the table. -/
theorem main_runs (hcount : args.length ≤ NINODES - 2) :
    Runs (main args) start (fun _ => Made args) fun _ => ¬ Fits args := by
  refine Runs.bind (wzeroes_runs FSSIZE (by decide)) fun _ s hs => ?_
  refine Runs.bind_ok (wsect_ok (by rw [hs]) (by decide) _) (build_runs ?_ ?_ ?_ hcount)
  · rw [hs]
    exact built_blank superblock
  · rw [hs]
    rfl
  · rw [hs]
    rfl

/-! ### Well-formed images -/

/-- What the kernel relies on: inode numbers are in the table, the pointers are to data blocks, each
to another, that the free map marks, and it marks no other; and files have no holes. -/
structure WellFormed (t : Image) : Prop where
  number : ∀ i, 1 ≤ i → i < t.freeinode → i < NINODES
  owned : Owned sb (view sb t.sectors)
  blank : ∀ i, ((view sb t.sectors).tab i).type = 0 → ∀ k, ((view sb t.sectors).tab i).addrs k = 0
  holes : ∀ i bn, ((view sb t.sectors).tab i).type ≠ 0 →
    bn < (((view sb t.sectors).tab i).size.toNat + BSIZE - 1) / BSIZE → fblock (view sb t.sectors) i bn ≠ 0

theorem lt_blocks_iff : bn < (size + BSIZE - 1) / BSIZE ↔ bn * BSIZE < size := by
  simp only [BSIZE]
  omega

section Rounded
variable {v : View} (hv : Formed sb v) (hn : node v = inodes args)
include hn

theorem type_root : (v.tab ROOTINO).type ≠ 0 := by
  have hroot : node v ROOTINO = ⟨T_DIR, 0, 0, 1, dirData (entries args)⟩ := by rw [hn, inodes, if_pos rfl]
  intro hz
  rw [← node_type_zero, hroot] at hz
  exact absurd hz (by exact (by decide : T_DIR ≠ 0))

theorem size_root : (v.tab ROOTINO).size.toNat = DIRENT * (args.length + 2) := by
  have hroot : node v ROOTINO = ⟨T_DIR, 0, 0, 1, dirData (entries args)⟩ := by rw [hn, inodes, if_pos rfl]
  have hlen := congrArg (List.length ∘ Node.data) hroot
  simp only [Function.comp_apply] at hlen
  rw [node, if_neg (type_root hn), length_content, length_dirData, length_entries] at hlen
  exact hlen

theorem ptr_rounded : ptr (rounded v) = ptr v := ptr_setTab_fields (type_root hn) (type_root hn) rfl

theorem size_rounded (hcount : args.length ≤ NINODES - 2) :
    ((rounded v).tab ROOTINO).size.toNat = (DIRENT * (args.length + 2) / BSIZE + 1) * BSIZE := by
  rw [rounded, View.setTab_tab, update_self, size_root hn, BitVec.toNat_ofNat]
  refine Nat.mod_eq_of_lt ?_
  simp only [DIRENT, DIRSIZ, BSIZE, NINODES] at hcount ⊢
  omega

omit hn in
theorem tab_rounded_other (h : i ≠ ROOTINO) : (rounded v).tab i = v.tab i := update_of_ne h ..

include hv

/-- The block that the rounding adds is there unless the entries fill their last block. -/
theorem fblock_rounded_iff (hcount : args.length ≤ NINODES - 2) :
    (∀ i bn, ((rounded v).tab i).type ≠ 0 →
      bn < (((rounded v).tab i).size.toNat + BSIZE - 1) / BSIZE → fblock (rounded v) i bn ≠ 0) ↔
    (args.length + 2) % (BSIZE / DIRENT) ≠ 0 := by
  have hblock : ∀ i bn, fblock (rounded v) i bn = fblock v i bn := fun i bn => by rw [fblock, ptr_rounded hn]; rfl
  have hsolid : ∀ i bn, (v.tab i).type ≠ 0 → bn * BSIZE < (v.tab i).size.toNat → fblock v i bn ≠ 0 := fun i bn h0 h => by
    have := hv.solid.holes i (bn * BSIZE) h0 h
    rwa [Nat.mul_div_cancel _ (by decide)] at this
  have htype : ((rounded v).tab ROOTINO).type ≠ 0 := by
    rw [rounded, View.setTab_tab, update_self]
    exact type_root hn
  constructor
  · intro h hfull
    refine h ROOTINO (DIRENT * (args.length + 2) / BSIZE) htype ?_ ?_
    · rw [size_rounded hn hcount, lt_blocks_iff]
      simp only [BSIZE]
      omega
    · -- the file has no pointer that it does not need
      rw [hblock]
      refine by_contra fun hne => ?_
      have hneed := hv.trim.needed ROOTINO _ hne
      rw [size_root hn, needs_slot] at hneed
      simp only [BSIZE, DIRENT, DIRSIZ] at hneed hfull
      omega
  · intro hne i bn h0 hbn
    rw [lt_blocks_iff] at hbn
    rw [hblock]
    by_cases hi : i = ROOTINO
    · subst hi
      rw [size_rounded hn hcount] at hbn
      refine hsolid ROOTINO bn (type_root hn) ?_
      rw [size_root hn]
      simp only [BSIZE, DIRENT, DIRSIZ] at hbn hne ⊢
      omega
    · rw [tab_rounded_other hi] at h0 hbn
      exact hsolid i bn h0 hbn

end Rounded

theorem wellFormed_made (h : Made args t) (hi : t.freeinode = args.length + 2) (hcount : args.length ≤ NINODES - 2) :
    WellFormed t ↔ (args.length + 2) % (BSIZE / DIRENT) ≠ 0 := by
  obtain ⟨v, hv, hn, hview⟩ := h
  rw [← fblock_rounded_iff hv hn hcount]
  refine ⟨fun hw => hview ▸ hw.holes, fun hholes => ⟨fun i _ h => ?_, ?_, ?_, by rw [hview]; exact hholes⟩⟩
  · rw [hi] at h
    simp only [NINODES] at hcount ⊢
    omega
  · rw [hview]
    exact owned_retab (ptr_rounded hn) hv.owned
  · intro i hz
    rw [hview] at hz ⊢
    by_cases hr : i = ROOTINO
    · subst hr
      rw [rounded, View.setTab_tab, update_self] at hz
      exact absurd hz (type_root hn)
    · rw [tab_rounded_other hr] at hz ⊢
      exact (hv.trim.blank i hz).2

theorem freeinode_main (h : main args start = .ok ((), t)) : t.freeinode = args.length + 2 := by
  have hi : start.freeinode = 1 := rfl
  have := (handsOut_main args start).of_ok h
  omega

/-- A run with status zero leaves a well-formed image when the inode table has room for the files and
their entries do not end at the end of a block. -/
theorem main_wellFormed_iff (args : List Arg) (t : Image) (h : main args start = .ok ((), t)) :
    WellFormed t ↔ args.length ≤ NINODES - 2 ∧ (args.length + 2) % (BSIZE / DIRENT) ≠ 0 := by
  have hi := freeinode_main h
  by_cases hcount : args.length ≤ NINODES - 2
  · rw [wellFormed_made ((main_runs hcount).of_ok h) hi hcount, and_iff_right hcount]
  · refine iff_of_false (fun hw => ?_) fun h => hcount h.1
    have := hw.number NINODES (by decide) (by rw [hi]; simp only [NINODES] at hcount ⊢; omega)
    exact Nat.lt_irrefl _ this

/-- Files without contents, with names of one letter. -/
def letters (n : Nat) : List Arg :=
  (List.range n).map fun k => ⟨[BitVec.ofNat 8 (97 + k)], some ⟨[], fun _ h => by cases h⟩⟩

/-- Files that fit are put into an image. -/
theorem main_of_fits (h : Fits args) : ∃ t, main args start = .ok ((), t) ∧ Made args t := by
  obtain ⟨_, t, ht, hm⟩ := ((main_runs h.count).stops fun _ hno => hno h).answers
  exact ⟨t, ht, hm⟩

theorem fits_letters_one : Fits (letters 1) := by
  constructor <;> decide

theorem fits_letters_full : Fits (letters 30) := by
  constructor <;> decide

theorem main_wellFormed_letter :
    ∃ t, main (letters 1) start = .ok ((), t) ∧ WellFormed t := by
  obtain ⟨t, ht, _⟩ := main_of_fits fits_letters_one
  exact ⟨t, ht, (main_wellFormed_iff (letters 1) t ht).mpr (by decide)⟩

/-- The entries of 30 files fill the block of the root directory: rounding its size up adds a block
that it does not have. -/
theorem main_full_directory :
    ∃ t, main (letters 30) start = .ok ((), t) ∧ ¬ WellFormed t ∧
      (((view sb t.sectors).tab ROOTINO).size.toNat = 2 * BSIZE ∧ fblock (view sb t.sectors) ROOTINO 1 = 0) := by
  obtain ⟨t, ht, hm⟩ := main_of_fits fits_letters_full
  have hcount : (letters 30).length ≤ NINODES - 2 := by decide
  refine ⟨t, ht, fun hw => ?_, ?_⟩
  · exact absurd ((wellFormed_made hm (freeinode_main ht) hcount).mp hw) (by decide)
  · obtain ⟨v, hv, hn, hview⟩ := hm
    rw [hview]
    refine ⟨(size_rounded hn hcount).trans (by decide), ?_⟩
    rw [fblock, ptr_rounded hn]
    refine by_contra fun hne => ?_
    have hneed := hv.trim.needed ROOTINO _ hne
    rw [size_root hn, needs_slot] at hneed
    exact absurd hneed (by decide)

end Xv6.Mkfs
