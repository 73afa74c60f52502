import Mathlib.Data.List.Induction
import Xv6.RedoLog

/-!
**Crash atomicity of the redo log.**

A disk between two events is `Quiescent`: its header says `n = 0` and its home blocks hold what the
committed transactions made of the initial disk. A commit writes, in this order, the log copies,
the header, the home blocks and the cleared header. A crash before the header leaves a `Quiescent`
disk; from the header on the disk `Recovers`: header and log copies describe the transaction,
and only its own home blocks may be half written.
-/

namespace Xv6.RedoLog

open Bytes Disk Function List

/-! ### Sequences of buffer writes -/

/-- Write each block of the list in turn. -/
def bwrites (s : Log) (ws : List (Nat × Block)) : Log :=
  ws.foldl (fun s w => bwrite s w.1 w.2) s

theorem bwrites_append (s : Log) (ws vs : List (Nat × Block)) :
    bwrites s (ws ++ vs) = bwrites (bwrites s ws) vs := by
  simp only [bwrites, foldl_append]

@[simp] theorem bwrites_start (s : Log) (ws : List (Nat × Block)) :
    (bwrites s ws).start = s.start := by
  induction ws generalizing s with
  | nil => rfl
  | cons w ws ih => exact ih (bwrite s w.1 w.2)

@[simp] theorem bwrites_size (s : Log) (ws : List (Nat × Block)) :
    (bwrites s ws).size = s.size := by
  induction ws generalizing s with
  | nil => rfl
  | cons w ws ih => exact ih (bwrite s w.1 w.2)

@[simp] theorem bwrites_lh (s : Log) (ws : List (Nat × Block)) :
    (bwrites s ws).lh = s.lh := by
  induction ws generalizing s with
  | nil => rfl
  | cons w ws ih => exact ih (bwrite s w.1 w.2)

@[simp] theorem bwrites_disk (s : Log) (ws : List (Nat × Block)) :
    (bwrites s ws).disk = applyWrites ws s.disk := by
  induction ws generalizing s with
  | nil => rfl
  | cons w ws ih => exact ih (bwrite s w.1 w.2)

@[simp] theorem bwrites_issued (s : Log) (ws : List (Nat × Block)) :
    (bwrites s ws).issued = s.issued ++ ws := by
  induction ws generalizing s with
  | nil => simp [bwrites]
  | cons w ws ih =>
    have hrest := ih (bwrite s w.1 w.2)
    refine hrest.trans ?_
    simp only [bwrite, append_assoc, singleton_append]

variable {ws : List (Nat × Block)} {b i : Nat} {s : Log} {t : Txn} {d : Nat → Block}

theorem bwrites_dirty_of_notMem (h : b ∉ ws.map Prod.fst) (s : Log) :
    (bwrites s ws).dirty b = s.dirty b := by
  induction ws generalizing s with
  | nil => rfl
  | cons w ws ih =>
    simp only [map_cons, mem_cons, not_or] at h
    have hrest := ih h.2 (bwrite s w.1 w.2)
    exact hrest.trans (update_of_ne h.1 _ _)

theorem bwrites_dirty_of_mem (h : b ∈ ws.map Prod.fst) (s : Log) :
    (bwrites s ws).dirty b = none := by
  induction ws generalizing s with
  | nil => cases h
  | cons w ws ih =>
    by_cases hws : b ∈ ws.map Prod.fst
    · exact ih hws (bwrite s w.1 w.2)
    have hb : b = w.1 := by
      rcases mem_cons.mp h with hb | hb
      · exact hb
      · exact absurd hb hws
    have hrest := bwrites_dirty_of_notMem hws (bwrite s w.1 w.2)
    refine hrest.trans ?_
    rw [hb]
    exact update_self _ _ _

theorem bread_bwrites_of_notMem (h : b ∉ ws.map Prod.fst) (s : Log) :
    bread (bwrites s ws) b = bread s b := by
  simp only [bread, bwrites_disk, bwrites_dirty_of_notMem h, applyWrites_of_notMem h]

/-- The writes of a copy loop, read off the state it starts in. -/
def copyWrites (s : Log) (n : Nat) (src dst : Nat → Nat) : List (Nat × Block) :=
  (List.range n).map fun i => (dst i, bread s (src i))

/-- **The copy loops.** When no destination is a source, every iteration reads
what the loop found at its start. -/
theorem copyBlocks_eq (s : Log) (src dst : Nat → Nat) :
    ∀ n, (∀ i < n, ∀ j < n, dst i ≠ src j) →
      copyBlocks n src dst s = bwrites s (copyWrites s n src dst) := by
  intro n
  induction n with
  | zero => intro _; rfl
  | succ n ih =>
    intro hne
    have hprev := ih fun i hi j hj => hne i (by omega) j (by omega)
    have hfresh : src n ∉ (copyWrites s n src dst).map Prod.fst := by
      intro hmem
      simp only [copyWrites, map_map, mem_map, mem_range] at hmem
      obtain ⟨i, hi, heq⟩ := hmem
      exact hne i (by omega) n (by omega) heq
    unfold copyBlocks at hprev ⊢
    rw [range_succ, foldl_append, hprev]
    have hread := bread_bwrites_of_notMem hfresh s
    have hsplit : copyWrites s (n + 1) src dst =
        copyWrites s n src dst ++ [(dst n, bread s (src n))] := by
      simp only [copyWrites, range_succ, map_append, map_cons, map_nil]
    rw [hsplit, bwrites_append]
    simp only [foldl_cons, hread]
    rfl

/-! ### The header block -/

theorem headerBuf_eq (lh : Logheader) (hb : Block) :
    headerBuf lh hb = setWords (setLE hb 0 4 (ofInt32 lh.n)) 4 lh.n.toNat lh.block := rfl

theorem headN_headerBuf {n : Nat} (hn : n ≤ LOGSIZE) (block : Nat → Nat) (hb : Block) :
    headN (headerBuf ⟨n, block⟩ hb) = n := by
  have hlt : n < 2 ^ 31 := by simp only [LOGSIZE, MAXOPBLOCKS] at hn; omega
  have hread : getLE (setLE hb 0 4 (ofInt32 n)) 0 4 = n := by
    rw [getLE_setLE _ _ (by decide), ofInt32_natCast (by omega)]
    exact Nat.mod_eq_of_lt (by omega)
  rw [headN, headerBuf_eq, getLE_setWords_of_disjoint _ _ _ (.inl (by omega)), hread,
    toInt32_of_lt hlt]

theorem headBlock_headerBuf {n : Nat} (hn : n ≤ LOGSIZE) (block : Nat → Nat) (hb : Block)
    (hi : i < n) : headBlock (headerBuf ⟨n, block⟩ hb) i = block i % 2 ^ 32 := by
  have hfit : 4 + 4 * n ≤ BSIZE := by simp only [LOGSIZE, MAXOPBLOCKS, BSIZE] at hn ⊢; omega
  exact getLE_setWords _ 4 block hi hfit

/-! ### Collecting a transaction in memory -/

/-- The in-memory header lists exactly the blocks of `t`, and exactly they are
pinned, with the contents of `t`. -/
structure Holds (s : Log) (t : Txn) : Prop where
  n : s.lh.n = t.length
  block : ∀ i (h : i < t.length), s.lh.block i = (t.get ⟨i, h⟩).1
  pinned : ∀ w ∈ t, s.dirty w.1 = some w.2
  clean : ∀ b, b ∉ t.map Prod.fst → s.dirty b = none

theorem Holds.absorbSlot_eq (h : Holds s t) (hb : b ∉ t.map Prod.fst) :
    absorbSlot s.lh b = t.length := by
  have hnone : (List.range s.lh.n.toNat).find? (fun i => s.lh.block i == b) = none := by
    rw [List.find?_eq_none]
    intro i hi
    rw [h.n, mem_range] at hi
    simp only [beq_iff_eq, h.block i hi]
    intro heq
    exact hb (mem_map.mpr ⟨_, get_mem t ⟨i, hi⟩, heq⟩)
  rw [absorbSlot, hnone, Option.getD_none, h.n, Int.toNat_natCast]

theorem Holds.logWrite (h : Holds s t) {w : Nat × Block} (hw : w.1 ∉ t.map Prod.fst) :
    Holds (RedoLog.logWrite s w) (t ++ [w]) := by
  have hslot := h.absorbSlot_eq hw
  have htoNat : s.lh.n.toNat = t.length := by rw [h.n, Int.toNat_natCast]
  refine ⟨?_, ?_, ?_, ?_⟩
  · have hn : (RedoLog.logWrite s w).lh.n = s.lh.n + 1 := if_pos (hslot.trans htoNat.symm)
    rw [hn, h.n, length_append]
    rfl
  · intro i hi
    simp only [RedoLog.logWrite, hslot]
    by_cases hlast : i = t.length
    · subst hlast
      simp
    · have hlt : i < t.length := by simp at hi; omega
      rw [update_of_ne hlast, h.block i hlt]
      simp [getElem_append_left hlt]
  · intro v hv
    simp only [RedoLog.logWrite]
    rcases mem_append.mp hv with hv | hv
    · have hne : v.1 ≠ w.1 := fun heq => hw (heq ▸ mem_map_of_mem hv)
      rw [update_of_ne hne]
      exact h.pinned v hv
    · rw [mem_singleton.mp hv]
      exact update_self _ _ _
  · intro b hb
    simp only [map_append, map_cons, map_nil, mem_append, mem_singleton, not_or] at hb
    simp only [RedoLog.logWrite, update_of_ne hb.2]
    exact h.clean b hb.1

theorem logged_append_singleton (s : Log) (t : Txn) (w : Nat × Block) :
    logged s (t ++ [w]) = logWrite (logged s t) w := by
  simp only [logged, foldl_append, foldl_cons, foldl_nil]

theorem logged_frame (s : Log) (t : Txn) :
    (logged s t).start = s.start ∧ (logged s t).size = s.size ∧
      (logged s t).disk = s.disk := by
  induction t using List.reverseRecOn with
  | nil => exact ⟨rfl, rfl, rfl⟩
  | append_singleton t w ih => rw [logged_append_singleton]; exact ih

theorem Holds.logged (h : Holds s []) (hnd : (t.map Prod.fst).Nodup) :
    Holds (RedoLog.logged s t) t := by
  induction t using List.reverseRecOn with
  | nil => exact h
  | append_singleton t w ih =>
    rw [map_append, nodup_append] at hnd
    rw [logged_append_singleton]
    refine (ih hnd.1).logWrite fun hmem => ?_
    exact hnd.2.2 w.1 hmem w.1 (by simp) rfl

/-! ### What a commit and a recovery write -/

def logCopies (start : Nat) (t : Txn) : List (Nat × Block) :=
  t.mapIdx fun i w => (start + i + 1, w.2)

theorem mem_logCopies_fst {start : Nat} (h : b ∈ (logCopies start t).map Prod.fst) :
    start < b ∧ b ≤ start + t.length := by
  simp only [logCopies, mem_map, mem_mapIdx] at h
  obtain ⟨_, ⟨i, hi, rfl⟩, rfl⟩ := h
  omega

theorem Txn.Fits.inLog {start size : Nat} (h : t.Fits start size) (hsize : LOGSIZE ≤ size)
    (hlo : start ≤ b) (hhi : b ≤ start + t.length) : InLog start size b := by
  have hlen := h.len
  simp only [LOGSIZE, MAXOPBLOCKS] at hlen hsize
  exact ⟨hlo, by omega⟩

/-- **`install_trans`** with a header that lists `t` and log blocks that hold its
contents writes exactly `t`. -/
theorem installTrans_eq (hfit : t.Fits s.start s.size) (hsize : LOGSIZE ≤ s.size)
    (hn : s.lh.n = t.length) (hblock : ∀ i (h : i < t.length), s.lh.block i = (t.get ⟨i, h⟩).1)
    (hlog : ∀ i (h : i < t.length), bread s (s.start + i + 1) = (t.get ⟨i, h⟩).2) :
    installTrans s = bwrites s t := by
  have hlen : s.lh.n.toNat = t.length := by rw [hn, Int.toNat_natCast]
  have hwrites : copyWrites s t.length (fun i => s.start + i + 1) s.lh.block = t := by
    refine ext_getElem (by simp [copyWrites]) fun i h1 h2 => ?_
    simp only [copyWrites, getElem_map, getElem_range]
    rw [hblock i h2, hlog i h2]
    rfl
  rw [installTrans, hlen, copyBlocks_eq, hwrites]
  intro i hi j hj heq
  refine hfit.home _ (get_mem t ⟨i, hi⟩) ?_
  rw [← hblock i hi]
  exact hfit.inLog hsize (by omega) (by omega)

/-- **`write_log`** writes the log copies. -/
theorem writeLog_eq (hfit : t.Fits s.start s.size) (hsize : LOGSIZE ≤ s.size) (h : Holds s t) :
    writeLog s = bwrites s (logCopies s.start t) := by
  have hlen : s.lh.n.toNat = t.length := by rw [h.n, Int.toNat_natCast]
  have hwrites : copyWrites s t.length s.lh.block (fun i => s.start + i + 1) =
      logCopies s.start t := by
    refine ext_getElem (by simp [copyWrites, logCopies]) fun i h1 h2 => ?_
    have hi : i < t.length := by simpa [logCopies] using h2
    have hpin := h.pinned _ (get_mem t ⟨i, hi⟩)
    simp only [copyWrites, logCopies, getElem_map, getElem_range, getElem_mapIdx, bread,
      h.block i hi, hpin]
    rfl
  rw [writeLog, hlen, copyBlocks_eq, hwrites]
  intro i hi j hj heq
  refine hfit.home _ (get_mem t ⟨j, hj⟩) ?_
  rw [← h.block j hj]
  exact hfit.inLog hsize (by omega) (by omega)

/-- A header block that lists the blocks of `t`. -/
structure Lists (hb : Block) (t : Txn) : Prop where
  n : headN hb = t.length
  block : ∀ i (h : i < t.length), headBlock hb i = (t.get ⟨i, h⟩).1

theorem headN_headerBuf_zero (lh : Logheader) (hb : Block) :
    headN (headerBuf { lh with n := 0 } hb) = 0 := by
  have h := headN_headerBuf (Nat.zero_le LOGSIZE) lh.block hb
  simpa using h

theorem Holds.lists (h : Holds s t) (hfit : t.Fits s.start s.size) (hb : Block) :
    Lists (headerBuf s.lh hb) t := by
  have hlen : t.length ≤ LOGSIZE := le_trans hfit.len (Nat.sub_le _ _)
  have hlh : s.lh = ⟨(t.length : Int), s.lh.block⟩ := by rw [← h.n]
  rw [hlh]
  refine ⟨headN_headerBuf hlen _ _, fun i hi => ?_⟩
  rw [headBlock_headerBuf hlen _ _ hi, h.block i hi]
  exact Nat.mod_eq_of_lt (hfit.int _ (get_mem t ⟨i, hi⟩))

theorem writeHead_clearN (s : Log) : ∃ cleared, headN cleared = 0 ∧
    writeHead (clearN s) = clearN (bwrites s [(s.start, cleared)]) :=
  ⟨_, headN_headerBuf_zero s.lh (bread s s.start), rfl⟩

theorem nodup_logCopies (start : Nat) (t : Txn) :
    ((logCopies start t).map Prod.fst).Nodup := by
  have hmap : (logCopies start t).map Prod.fst = (List.range t.length).map (start + · + 1) := by
    refine ext_getElem (by simp [logCopies]) fun j h1 h2 => ?_
    simp [logCopies]
  rw [hmap]
  exact nodup_range.map fun x y hxy => by simpa using hxy

theorem applyWrites_logCopies (start : Nat) (t : Txn) (d : Nat → Block) (hi : i < t.length) :
    applyWrites (logCopies start t) d (start + i + 1) = (t.get ⟨i, hi⟩).2 := by
  have hmem : (start + i + 1, (t.get ⟨i, hi⟩).2) ∈ logCopies start t :=
    mem_mapIdx.mpr ⟨i, hi, rfl⟩
  exact applyWrites_of_mem (nodup_logCopies start t) hmem d

theorem bread_logCopies (s : Log) (t : Txn) (hi : i < t.length) :
    bread (bwrites s (logCopies s.start t)) (s.start + i + 1) = (t.get ⟨i, hi⟩).2 := by
  have hmem : s.start + i + 1 ∈ (logCopies s.start t).map Prod.fst :=
    mem_map_of_mem (mem_mapIdx.mpr ⟨i, hi, rfl⟩)
  rw [bread, bwrites_dirty_of_mem hmem, Option.getD_none, bwrites_disk,
    applyWrites_logCopies s.start t s.disk hi]

/-- **The writes of a commit**: log copies, header, home blocks, cleared header. -/
theorem commit_eq (hok : t.Ok s.start s.size) (hsize : LOGSIZE ≤ s.size) (h : Holds s t) :
    ∃ hb cleared, Lists hb t ∧ headN cleared = 0 ∧
      commit s = clearN (bwrites s (logCopies s.start t ++
        (s.start, hb) :: (t ++ [(s.start, cleared)]))) := by
  have hpos : 0 < s.lh.n := by rw [h.n]; exact_mod_cast hok.pos
  have hfit := hok.toFits
  -- after the log copies and the header: this is what `install_trans` starts from
  let s1 := bwrites s (logCopies s.start t)
  let hb := headerBuf s.lh (bread s1 s.start)
  let s2 := bwrites s1 [(s.start, hb)]
  have hhead : writeHead (writeLog s) = s2 := by
    rw [writeLog_eq hfit hsize h, writeHead, bwrites_lh, bwrites_start]
    rfl
  have hinstall : installTrans s2 = bwrites s2 t := by
    refine installTrans_eq ?_ ?_ ?_ ?_ ?_
    · simpa only [s2, s1, bwrites_start, bwrites_size] using hfit
    · simpa only [s2, s1, bwrites_size] using hsize
    · simpa only [s2, s1, bwrites_lh] using h.n
    · simpa only [s2, s1, bwrites_lh] using h.block
    intro i hi
    have hne : s.start + i + 1 ∉ ([(s.start, hb)] : List (Nat × Block)).map Prod.fst := by
      simp; omega
    have hread := bread_bwrites_of_notMem hne s1
    simp only [s2, s1, bwrites_start]
    exact hread.trans (bread_logCopies s t hi)
  obtain ⟨cleared, hzero, hclear⟩ := writeHead_clearN (bwrites s2 t)
  refine ⟨hb, cleared, h.lists hfit _, hzero, ?_⟩
  rw [commit, if_pos hpos, hhead, hinstall, hclear]
  simp only [s2, s1, bwrites_start, ← bwrites_append, append_assoc, cons_append, nil_append]

/-- What `recover_from_log` needs of a disk: the header lists `t` and the log
blocks hold its contents. -/
structure Describes (start : Nat) (d : Nat → Block) (t : Txn) : Prop where
  lists : Lists (d start) t
  log : ∀ i (h : i < t.length), d (start + i + 1) = (t.get ⟨i, h⟩).2

/-- **The writes of a recovery**: home blocks, cleared header. -/
theorem recoverFromLog_eq {start size : Nat} (hfit : t.Fits start size) (hsize : LOGSIZE ≤ size)
    (h : Describes start d t) :
    ∃ cleared, headN cleared = 0 ∧
      recoverFromLog (boot start size d) =
        clearN (bwrites (readHead (boot start size d)) (t ++ [(start, cleared)])) := by
  let s := readHead (boot start size d)
  have hn : s.lh.n = t.length := h.lists.n
  have hinstall : installTrans s = bwrites s t := by
    refine installTrans_eq hfit hsize hn (fun i hi => ?_) h.log
    have hlt : i < (headN (d start)).toNat := by rw [h.lists.n, Int.toNat_natCast]; exact hi
    exact (if_pos hlt).trans (h.lists.block i hi)
  obtain ⟨cleared, hzero, hclear⟩ := writeHead_clearN (bwrites s t)
  refine ⟨cleared, hzero, ?_⟩
  have hstart : (bwrites s t).start = start := bwrites_start s t
  rw [recoverFromLog, hinstall, hclear, hstart, ← bwrites_append]

/-! ### Disks that recover to a given outcome -/

/-- A completed recovery turns the home blocks of `d` into those of `final`: the log
describes blocks of `final`, and the home blocks it does not list are already
there. -/
structure Recovers (start size : Nat) (d final : Nat → Block) (t : Txn) : Prop where
  fits : t.Fits start size
  describes : Describes start d t
  redo : ∀ w ∈ t, final w.1 = w.2
  rest : ∀ b, ¬ InLog start size b → b ∉ t.map Prod.fst → d b = final b

variable {start size : Nat} {final : Nat → Block}

theorem Fits.nil : Txn.Fits start size [] :=
  ⟨Nat.zero_le _, nodup_nil, fun _ h => absurd h not_mem_nil, fun _ h => absurd h not_mem_nil⟩

theorem Recovers.of_clear (hhead : headN (d start) = 0)
    (hhome : ∀ b, ¬ InLog start size b → d b = final b) : Recovers start size d final [] := by
  refine ⟨Fits.nil, ⟨⟨hhead, ?_⟩, ?_⟩, ?_, fun b hb _ => hhome b hb⟩
  · intro i hi; cases hi
  · intro i hi; cases hi
  · intro w hw; cases hw

theorem Txn.Fits.start_notMem (h : t.Fits start size) (hsize : LOGSIZE ≤ size) :
    start ∉ t.map Prod.fst := by
  intro hmem
  obtain ⟨w, hw, heq⟩ := mem_map.mp hmem
  refine h.home w hw ?_
  rw [heq]
  exact h.inLog hsize (Nat.le_refl _) (by omega)

theorem Txn.Fits.log_notMem (h : t.Fits start size) (hsize : LOGSIZE ≤ size) (hi : i < t.length) :
    start + i + 1 ∉ t.map Prod.fst := by
  intro hmem
  obtain ⟨w, hw, heq⟩ := mem_map.mp hmem
  refine h.home w hw ?_
  exact h.inLog hsize (by omega) (by omega)

section

variable (h : Recovers start size d final t) (hsize : LOGSIZE ≤ size)
include h hsize

theorem Recovers.take_home (k : Nat) : Recovers start size (applyWrites (t.take k) d) final t := by
  have hkeep : ∀ b, b ∉ t.map Prod.fst → applyWrites (t.take k) d b = d b := by
    intro b hb
    refine applyWrites_of_notMem (fun hmem => hb ?_) d
    rw [map_take] at hmem
    exact mem_of_mem_take hmem
  refine ⟨h.fits, ⟨?_, fun i hi => ?_⟩, h.redo, fun b hb hnot => ?_⟩
  · rw [hkeep _ (h.fits.start_notMem hsize)]
    exact h.describes.lists
  · rw [hkeep _ (h.fits.log_notMem hsize hi)]
    exact h.describes.log i hi
  · rw [hkeep b hnot]
    exact h.rest b hb hnot

theorem Recovers.finish {cleared : Block} (hzero : headN cleared = 0) :
    Recovers start size (applyWrites (t ++ [(start, cleared)]) d) final [] := by
  rw [applyWrites_append]
  refine Recovers.of_clear ?_ fun b hb => ?_
  · simpa using hzero
  have hne : b ≠ start := by
    rintro rfl
    exact hb (h.fits.inLog hsize (Nat.le_refl _) (by omega))
  rw [applyWrites_cons, applyWrites_nil, update_of_ne hne]
  by_cases hmem : b ∈ t.map Prod.fst
  · obtain ⟨w, hw, rfl⟩ := mem_map.mp hmem
    rw [applyWrites_of_mem h.fits.nodup hw, h.redo w hw]
  · rw [applyWrites_of_notMem hmem]
    exact h.rest b hb hmem

/-- **Every prefix of a recovery leaves a disk that still recovers.** -/
theorem Recovers.cut {cleared : Block} (hzero : headN cleared = 0) (k : Nat) :
    ∃ t', Recovers start size (crash k (t ++ [(start, cleared)]) d) final t' := by
  unfold crash
  by_cases hk : k ≤ t.length
  · refine ⟨t, ?_⟩
    rw [take_append_of_le_length hk]
    exact h.take_home hsize k
  refine ⟨[], ?_⟩
  have hall : (t ++ [(start, cleared)]).length ≤ k := by simp; omega
  rw [take_of_length_le hall]
  exact h.finish hsize hzero

end

theorem writesOf_recover (hfit : t.Fits start size) (hsize : LOGSIZE ≤ size)
    (h : Describes start d t) :
    ∃ cleared, headN cleared = 0 ∧
      writesOf recoverFromLog (boot start size d) = t ++ [(start, cleared)] := by
  obtain ⟨cleared, hzero, heq⟩ := recoverFromLog_eq hfit hsize h
  refine ⟨cleared, hzero, ?_⟩
  have hissued := congrArg Log.issued heq
  simpa [writesOf, boot, clearN, readHead] using hissued

/-- An interrupted recovery attempt. -/
theorem Recovers.cutRecovery (h : Recovers start size d final t) (hsize : LOGSIZE ≤ size) (k : Nat) :
    ∃ t', Recovers start size (RedoLog.cutRecovery start size d k) final t' := by
  obtain ⟨cleared, hzero, hwrites⟩ := writesOf_recover h.fits hsize h.describes
  rw [RedoLog.cutRecovery, crashDisk, hwrites]
  exact h.cut hsize hzero k

theorem Recovers.attempts (h : Recovers start size d final t) (hsize : LOGSIZE ≤ size)
    (attempts : List Nat) :
    ∃ t', Recovers start size (attempts.foldl (RedoLog.cutRecovery start size) d) final t' := by
  induction attempts generalizing d t with
  | nil => exact ⟨t, h⟩
  | cons k attempts ih =>
    obtain ⟨t', h'⟩ := h.cutRecovery hsize k
    exact ih h'

/-! ### States between events -/

/-- Memory and disk between events: nothing logged, nothing pinned, the header on
disk cleared and the home blocks those of `final`. -/
structure Quiescent (start size : Nat) (final : Nat → Block) (s : Log) : Prop where
  start_eq : s.start = start
  size_eq : s.size = size
  holds : Holds s []
  disk : Recovers start size s.disk final []

theorem holds_nil_of (hn : s.lh.n = 0) (hdirty : ∀ b, s.dirty b = none) : Holds s [] :=
  ⟨hn, fun i h => absurd h (Nat.not_lt_zero i), fun _ h => absurd h not_mem_nil,
    fun b _ => hdirty b⟩

theorem Recovers.complete (h : Recovers start size d final t) (hsize : LOGSIZE ≤ size) :
    Quiescent start size final (recoverFromLog (boot start size d)) := by
  obtain ⟨cleared, hzero, heq⟩ := recoverFromLog_eq h.fits hsize h.describes
  rw [heq]
  refine ⟨bwrites_start _ _, bwrites_size _ _, holds_nil_of rfl fun b => ?_, ?_⟩
  · by_cases hmem : b ∈ (t ++ [(start, cleared)]).map Prod.fst
    · exact bwrites_dirty_of_mem hmem _
    · exact bwrites_dirty_of_notMem hmem _
  · have hdisk := bwrites_disk (readHead (boot start size d)) (t ++ [(start, cleared)])
    simp only [clearN, hdisk]
    exact h.finish hsize hzero

section

variable (h : Quiescent start size final s) (hsize : LOGSIZE ≤ size) (hok : t.Ok start size)
include h hsize hok

theorem Quiescent.writesOf_commit : ∃ hb cleared, Lists hb t ∧ headN cleared = 0 ∧
      writesOf RedoLog.commit (logged s t) =
        logCopies start t ++ (start, hb) :: (t ++ [(start, cleared)]) := by
  obtain ⟨hstart, hsz, -⟩ := logged_frame s t
  rw [h.start_eq] at hstart
  rw [h.size_eq] at hsz
  have hholds := h.holds.logged hok.nodup
  let s' : Log := { logged s t with issued := [] }
  have hs' : Holds s' t := ⟨hholds.n, hholds.block, hholds.pinned, hholds.clean⟩
  have hok' : t.Ok s'.start s'.size := by simpa only [s', hstart, hsz] using hok
  have hsize' : LOGSIZE ≤ s'.size := by simpa only [s', hsz] using hsize
  obtain ⟨hb, cleared, hlists, hzero, heq⟩ := commit_eq hok' hsize' hs'
  refine ⟨hb, cleared, hlists, hzero, ?_⟩
  have hissued := congrArg Log.issued heq
  simp only [clearN, bwrites_issued] at hissued
  simpa only [writesOf, s', hstart, nil_append] using hissued

theorem Quiescent.committed {hb : Block} (hlists : Lists hb t) :
    Recovers start size (applyWrites (logCopies start t ++ [(start, hb)]) s.disk)
      (applyWrites t final) t := by
  have hfit := hok.toFits
  rw [applyWrites_append, applyWrites_cons, applyWrites_nil]
  refine ⟨hfit, ⟨?_, fun i hi => ?_⟩, fun w hw => applyWrites_of_mem hok.nodup hw final,
    fun b hb' hnot => ?_⟩
  · simpa using hlists
  · rw [update_of_ne (by simp only; omega)]
    exact applyWrites_logCopies start t s.disk hi
  have hne : b ≠ start := by
    rintro rfl
    exact hb' (hfit.inLog hsize (Nat.le_refl _) (by omega))
  have hcopy : b ∉ (logCopies start t).map Prod.fst := by
    intro hmem
    obtain ⟨hlo, hhi⟩ := mem_logCopies_fst hmem
    exact hb' (hfit.inLog hsize (by omega) hhi)
  rw [update_of_ne hne, applyWrites_of_notMem hcopy, applyWrites_of_notMem hnot]
  exact h.disk.rest b hb' not_mem_nil

theorem Quiescent.take_logCopies (k : Nat) :
    Recovers start size (applyWrites ((logCopies start t).take k) s.disk) final [] := by
  have hkeep : ∀ b, b ∉ (logCopies start t).map Prod.fst →
      applyWrites ((logCopies start t).take k) s.disk b = s.disk b := by
    intro b hb
    refine applyWrites_of_notMem (fun hmem => hb ?_) _
    rw [map_take] at hmem
    exact mem_of_mem_take hmem
  refine Recovers.of_clear ?_ fun b hb => ?_
  · rw [hkeep start fun hmem => absurd (mem_logCopies_fst hmem).1 (by omega)]
    exact h.disk.describes.lists.n
  rw [hkeep b fun hmem => ?_]
  · exact h.disk.rest b hb not_mem_nil
  · obtain ⟨hlo, hhi⟩ := mem_logCopies_fst hmem
    exact hb (hok.toFits.inLog hsize (by omega) hhi)

theorem Quiescent.headerReached_iff (k : Nat) : HeaderReached s t k ↔ t.length < k := by
  obtain ⟨hb, cleared, -, -, hwrites⟩ := h.writesOf_commit hsize hok
  have hlen : (logCopies start t).length = t.length := by simp [logCopies]
  rw [HeaderReached, hwrites, h.start_eq]
  constructor
  · rintro ⟨w, hw, hwstart⟩
    by_contra hk
    rw [take_append_of_le_length (by omega)] at hw
    have hmem := mem_map_of_mem (f := Prod.fst) (mem_of_mem_take hw)
    exact absurd (mem_logCopies_fst hmem).1 (by omega)
  · intro hk
    refine ⟨(start, hb), ?_, rfl⟩
    rw [take_append, mem_append]
    right
    obtain ⟨m, hm⟩ : ∃ m, k - (logCopies start t).length = m + 1 :=
      ⟨k - t.length - 1, by omega⟩
    rw [hm]
    exact .head _

/-- The home blocks an event leaves, from those it found. -/
def Event.outcome (s : Log) (final : Nat → Block) : Event → Nat → Block
  | .commit t => applyWrites t final
  | .crash t k _ => if HeaderReached s t k then applyWrites t final else final

/-- **A commit cut anywhere** leaves a disk that recovers to the old contents or to
the transaction applied, depending on the header alone. -/
theorem Quiescent.crash (k : Nat) (attempts : List Nat) :
    ∃ t', Recovers start size (crashDisk RedoLog.commit k (logged s t))
      (Event.outcome s final (.crash t k attempts)) t' := by
  obtain ⟨hb, cleared, hlists, hzero, hwrites⟩ := h.writesOf_commit hsize hok
  have hlen : (logCopies start t).length = t.length := by simp [logCopies]
  rw [crashDisk, hwrites, (logged_frame s t).2.2, Disk.crash]
  simp only [Event.outcome]
  by_cases hk : t.length < k
  · -- the header is among the writes: what follows it is a prefix of a recovery
    rw [if_pos ((h.headerReached_iff hsize hok k).mpr hk)]
    obtain ⟨m, rfl⟩ : ∃ m, k = t.length + 1 + m := ⟨k - t.length - 1, by omega⟩
    have hsplit : (logCopies start t ++ (start, hb) :: (t ++ [(start, cleared)])).take
        (t.length + 1 + m) =
        (logCopies start t ++ [(start, hb)]) ++ (t ++ [(start, cleared)]).take m := by
      rw [show logCopies start t ++ (start, hb) :: (t ++ [(start, cleared)]) =
        (logCopies start t ++ [(start, hb)]) ++ (t ++ [(start, cleared)]) by simp]
      rw [take_append, take_of_length_le (by simp [hlen])]
      simp [hlen]
    rw [hsplit, applyWrites_append]
    exact (h.committed hsize hok hlists).cut hsize hzero m
  · rw [if_neg fun hr => hk ((h.headerReached_iff hsize hok k).mp hr)]
    rw [take_append_of_le_length (by omega)]
    exact ⟨[], h.take_logCopies hsize hok k⟩

end

/-- **One event** takes a quiescent state to a quiescent state. -/
theorem Quiescent.apply (h : Quiescent start size final s) (hsize : LOGSIZE ≤ size) {e : Event}
    (hok : e.txn.Ok start size) : Quiescent start size (e.outcome s final) (e.apply s) := by
  cases e with
  | commit t =>
    obtain ⟨hstart, hsz, hdisk⟩ := logged_frame s t
    have hholds := h.holds.logged hok.nodup
    have hok' : t.Ok (logged s t).start (logged s t).size := by
      rw [hstart, hsz, h.start_eq, h.size_eq]; exact hok
    have hsize' : LOGSIZE ≤ (logged s t).size := by rw [hsz, h.size_eq]; exact hsize
    obtain ⟨hb, cleared, hlists, hzero, heq⟩ := commit_eq hok' hsize' hholds
    rw [hstart, h.start_eq] at heq
    simp only [Event.apply, heq]
    refine ⟨?_, ?_, holds_nil_of rfl fun b => ?_, ?_⟩
    · simp only [clearN, bwrites_start, hstart, h.start_eq]
    · simp only [clearN, bwrites_size, hsz, h.size_eq]
    · -- every pinned block is one of the home writes
      generalize hws : logCopies start t ++ (start, hb) :: (t ++ [(start, cleared)]) = ws
      by_cases hmem : b ∈ ws.map Prod.fst
      · exact bwrites_dirty_of_mem hmem _
      refine (bwrites_dirty_of_notMem hmem _).trans (hholds.clean b fun hb' => hmem ?_)
      rw [← hws]
      simp only [map_append, map_cons, mem_append, mem_cons]
      exact Or.inr (Or.inr (Or.inl hb'))
    · simp only [clearN, bwrites_disk, hdisk]
      rw [show logCopies start t ++ (start, hb) :: (t ++ [(start, cleared)]) =
        (logCopies start t ++ [(start, hb)]) ++ (t ++ [(start, cleared)]) by simp,
        applyWrites_append]
      exact (h.committed hsize hok hlists).finish hsize hzero
  | crash t k attempts =>
    have ht : t.Ok start size := hok
    obtain ⟨t1, h1⟩ := h.crash hsize ht k attempts
    obtain ⟨t2, h2⟩ := h1.attempts hsize attempts
    have hdone := h2.complete hsize
    simpa only [Event.apply, h.start_eq, h.size_eq] using hdone

theorem run_append_singleton (start size : Nat) (disk : Nat → Block) (events : List Event)
    (e : Event) :
    run start size disk (events ++ [e]) = e.apply (run start size disk events) := by
  simp only [run, foldl_append, foldl_cons, foldl_nil]

theorem quiescent_run {disk : Nat → Block} (hsize : LOGSIZE ≤ size)
    (hhead : headN (disk start) = 0) (events : List Event)
    (hok : ∀ e ∈ events, e.txn.Ok start size) :
    ∃ final, Quiescent start size final (run start size disk events) := by
  induction events using List.reverseRecOn with
  | nil => exact ⟨disk, (Recovers.of_clear hhead fun _ _ => rfl).complete hsize⟩
  | append_singleton events e ih =>
    obtain ⟨final, hq⟩ := ih fun e he => hok e (mem_append_left _ he)
    have happly := hq.apply hsize (hok e (by simp))
    exact ⟨_, by rw [run_append_singleton]; exact happly⟩

/-- **Crash atomicity.** After any run of commits (and earlier crashes), cut the
commit of `t` after any number `k` of its disk writes, cut any number of recovery
attempts anywhere, and let one recovery complete. If the header write of the
commit was among the `k`, every home block holds what `t` makes of the contents
before; if not, every home block holds exactly the contents before. In both
cases the header on disk says `n = 0`. -/
theorem crash_atomicity (start size : Nat) (hsize : LOGSIZE ≤ size) (disk : Nat → Block)
    (hhead : headN (disk start) = 0) (events : List Event)
    (hok : ∀ e ∈ events, e.txn.Ok start size) (t : Txn) (ht : t.Ok start size)
    (k : Nat) (attempts : List Nat) :
    let before := run start size disk events
    let after := run start size disk (events ++ [.crash t k attempts])
    (HeaderReached before t k →
      ∀ b, ¬ InLog start size b → after.disk b = applyWrites t before.disk b) ∧
    (¬ HeaderReached before t k →
      ∀ b, ¬ InLog start size b → after.disk b = before.disk b) ∧
    headN (after.disk start) = 0 := by
  intro before after
  obtain ⟨final, hbefore⟩ := quiescent_run hsize hhead events hok
  have hbase : ∀ b, ¬ InLog start size b → before.disk b = final b :=
    fun b hb => hbefore.disk.rest b hb not_mem_nil
  have hafter : Quiescent start size (Event.outcome before final (.crash t k attempts)) after := by
    simp only [after, run_append_singleton]
    exact hbefore.apply hsize ht
  have hhome := fun b hb => hafter.disk.rest b hb not_mem_nil
  simp only [Event.outcome] at hhome
  refine ⟨fun hr b hb => ?_, fun hr b hb => ?_, hafter.disk.describes.lists.n⟩
  · rw [hhome b hb, if_pos hr]
    exact applyWrites_congr fun _ => (hbase b hb).symm
  · rw [hhome b hb, if_neg hr, hbase b hb]

/-- A commit to block 100 followed by one to block 101 that is cut right after its
header write, with one recovery attempt cut before its first write. -/
theorem crash_atomicity_after_header :
    let zeros : Block := fun _ => 0
    let ones : Block := fun _ => 1
    let events : List Event := [.commit [(100, ones)]]
    HeaderReached (run 2 LOGSIZE (fun _ => zeros) events) [(101, ones)] 2 ∧
      (run 2 LOGSIZE (fun _ => zeros) (events ++ [.crash [(101, ones)] 2 [0]])).disk 101 = ones := by
  intro zeros ones events
  have hok : ∀ b, 100 ≤ b → b < 2 ^ 32 → Txn.Ok 2 LOGSIZE [(b, ones)] := by
    intro b hlo hhi
    refine ⟨⟨by simp [LOGSIZE, MAXOPBLOCKS], by simp, fun w hw => ?_, fun w hw => ?_⟩, by simp⟩
    · rw [mem_singleton.mp hw]
      simp only [InLog, LOGSIZE, MAXOPBLOCKS]
      omega
    · rw [mem_singleton.mp hw]
      exact hhi
  have hevents : ∀ e ∈ events, e.txn.Ok 2 LOGSIZE := by
    intro e he
    rw [mem_singleton.mp he]
    exact hok 100 (by decide) (by decide)
  have hreached : HeaderReached (run 2 LOGSIZE (fun _ => zeros) events) [(101, ones)] 2 := by decide
  obtain ⟨happlied, -, -⟩ := crash_atomicity 2 LOGSIZE (Nat.le_refl _) (fun _ => zeros)
    (by decide) events hevents [(101, ones)] (hok 101 (by decide) (by decide)) 2 [0]
  refine ⟨hreached, ?_⟩
  have hhome : ¬ InLog 2 LOGSIZE 101 := by simp [InLog, LOGSIZE, MAXOPBLOCKS]
  rw [happlied hreached 101 hhome]
  simp

end Xv6.RedoLog
