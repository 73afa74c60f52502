import Xv6.IcacheCalls

/-!
**Unlinked files stay readable and writable**, and what holds of the inode cache in every run.

`fileread` and `filewrite` move offsets within their files; while a file is open its inode is
allocated and its bytes are what was last written, whether a directory names it or not
(`ends_sysRead`, `ends_sysWrite`).
-/

namespace Xv6.Icache

open Program Transition List
open Fs (holders Tidy Files)

section

variable {d d' : Dinode} {off n : Nat} {src : List UInt8}

/-- These bytes with others written over them. -/
def splice (data : List UInt8) (off : Nat) (src : List UInt8) : List UInt8 :=
  data.take off ++ src ++ data.drop (off + src.length)

theorem length_splice {data : List UInt8} (h : off ≤ data.length) :
    (splice data off src).length = max data.length (off + src.length) := by
  simp only [splice, length_append, length_take, length_drop]
  omega

theorem splice_append {data rest : List UInt8} (h : off ≤ data.length) :
    splice (splice data off src) (off + src.length) rest = splice data off (src ++ rest) := by
  have htake : (data.take off).length = off := length_take_of_le h
  have hfront : (data.take off ++ src).length = off + src.length := by rw [length_append, htake]
  unfold splice
  rw [take_append_of_le_length hfront.ge, take_of_length_le hfront.le,
    drop_append, drop_of_length_le (by omega), nil_append, drop_drop, hfront,
    length_append, append_assoc (data.take off) src rest]
  congr 2
  omega

theorem Dinode.writei_eq (h : d.writei off src = some d') :
    off ≤ d.size ∧ d'.type = d.type ∧ d'.data = splice d.data off src := by
  obtain ⟨hoff, -, rfl⟩ := Dinode.writei_eq_some.mp h
  exact ⟨hoff, rfl, rfl⟩

theorem Dinode.writei_size (h : d.writei off src = some d') :
    d.size ≤ d'.size ∧ off + src.length ≤ d'.size := by
  obtain ⟨hoff, -, hdata⟩ := Dinode.writei_eq h
  rw [Dinode.size, Dinode.size, hdata, length_splice hoff]
  exact ⟨le_max_left .., le_max_right ..⟩

theorem Dinode.readi_le (hoff : off ≤ d.size) : off + (d.readi off n).1.toNat ≤ d.size := by
  unfold Dinode.readi
  split
  · exact hoff
  simp only [Int.toNat_natCast]
  split
  · omega
  · omega

end

/-! ### Offsets -/

section

variable {s s' : State} {p : Fin NPROC} {f : Fin NFILE} {ip n : Nat} {other : Int} {fd : Option Int}
  {d : Dinode} {src : List UInt8} {fd' : Fin NOFILE}

theorem Sound.advance {r : Int} (h : Sound s)
    (hoff : ∀ n, n ≤ (s.kernel.ftable f).off + r.toNat → Within s (s.kernel.ftable f).ip n) :
    Over s { s with kernel := advance s.kernel f r } := by
  have hsteady : Steady (Xv6.advance s.kernel f r) 0 s :=
    h.steady.sameHolders fun _ => Fs.holders_advance r
  refine ⟨⟨hsteady.setKernel _, h.tidy.advance r, ?_⟩, .setKernel ..⟩
  unfold Xv6.advance
  split
  · apply h.files.setFile
    intro htype
    exact ⟨(h.files f htype).1, hoff _ (Nat.mod_le ..)⟩
  · exact h.files

theorem wp_fileread {other : Int × List UInt8} {Q : Int × List UInt8 → State → Prop} (h : Sound s)
    (hQ : ∀ r s', Over s s' → Q r s') : wp any (fileread f n other) Q s := by
  refine wp_get.mpr ?_
  split
  · exact hQ _ s h.same
  split
  · exact hQ _ s h.same
  next htype =>
    refine wp_bind.mpr (wp_ilock h.steady fun s1 h1 hquiet1 hheld hvalid => ?_)
    have hover1 : Over s s1 := h.quiet h1 (hquiet1 0)
    have hkernel : s1.kernel = s.kernel := (hquiet1 0).kernel
    refine wp_get.mpr ?_
    refine wp_bind.mpr (wp_modify.mpr (wp_bind.mpr (wp_iunlock ?_)))
    refine hQ _ _ (hover1.trans (hover1.sound.advance ?_) fun ip hip => hkernel ▸ hip.1)
    intro m hm hfile
    -- the offset was within the file, and `readi` stops at its end
    have hcopy := (h1.copy_eq hheld hvalid).1
    have hoff := (hover1.sound.files f (hkernel ▸ htype)).2 hfile
    rw [hkernel] at hm hoff hfile ⊢
    rw [hcopy, if_neg (by rw [hfile]; decide)] at hm
    exact hm.trans (Dinode.readi_le hoff)
  · trivial

theorem wp_sysRead {n : Option Int} {argptr : Bool} {other : Int × List UInt8}
    {Q : Int × List UInt8 → State → Prop} (h : Sound s) (hQ : ∀ r s', Over s s' → Q r s') :
    wp any (sysRead p fd n argptr other) Q s := by
  refine wp_get.mpr ?_
  split
  · exact hQ _ s h.same
  · split
    · exact wp_fileread h hQ
    · exact hQ _ s h.same

/-- A write is over: the bytes behind the other slots stay. -/
structure Wrote (ip : Nat) (s s' : State) : Prop where
  sound : Sound s'
  holders : ∀ ip, holders s'.kernel ip = holders s.kernel ip
  kept : Kept (Held s.kernel 0) s s'
  bytes : SameBytes (fun ip' => Held s.kernel 0 ip' ∧ ip' ≠ ip) s s'

theorem Wrote.held (h : Wrote ip s s') {ip' : Nat} (hheld : Held s.kernel 0 ip') :
    Held s'.kernel 0 ip' := by
  rw [Held, h.holders]
  exact hheld

theorem Wrote.trans {s'' : State} (h : Wrote ip s s') (h' : Wrote ip s' s'') : Wrote ip s s'' := by
  refine ⟨h'.sound, fun ip' => (h'.holders ip').trans (h.holders ip'),
    h.kept.trans (h'.kept.mono fun _ => h.held), ?_⟩
  apply h.bytes.trans (h.kept.mono fun _ hip => hip.1)
  exact fun ip' hip => h'.bytes ip' ⟨h.held hip.1, hip.2⟩

theorem Over.wrote (h : Over s s') (hsame : ∀ ip, Fs.holders s'.kernel ip = Fs.holders s.kernel ip)
    (ip : Nat) : Wrote ip s s' := by
  have hstays : ∀ ip, Held s.kernel 0 ip → Stays s s' ip := by
    rintro ip (hip | hip)
    · exact ⟨hip, (hsame ip).symm ▸ hip⟩
    · exact absurd hip (Multiset.notMem_zero ip)
  exact ⟨h.sound, hsame, h.alike.toKept.mono hstays,
    fun ip' hip => h.alike.bytes ip' (hstays ip' hip.1)⟩

theorem Sound.wroteNothing (h : Sound s) (ip : Nat) : Wrote ip s s := h.same.wrote (fun _ => rfl) ip

theorem Sound.store {off : Nat} (h : Sound s) (hheld : Held s.kernel 0 ip)
    (hvalid : (s.icache ip).valid = true) (hwrite : (s.icache ip).copy.writei off src = some d) :
    Wrote ip s (s.store ip d) := by
  obtain ⟨hcopy, hfree⟩ := h.steady.copy_eq hheld hvalid
  have htype := (Dinode.writei_eq hwrite).2.1
  have hsize := (Dinode.writei_size hwrite).1
  rw [hcopy] at htype hsize
  obtain ⟨hkept, hbytes⟩ := h.steady.kept_store hheld htype
  refine ⟨⟨h.steady.store hheld hvalid (htype ▸ hfree), h.tidy, h.files.imp ?_⟩, fun _ => rfl, hkept,
    hbytes⟩
  intro ip' off' hpos hwithin hfile
  by_cases hip : ip' = ip
  · subst hip
    rw [dinode_store_self] at hfile ⊢
    exact (hwithin (htype ▸ hfile)).trans hsize
  · rw [dinode_store_of_ne (h.steady.inum_ne hheld (.inl hpos) hip)] at hfile ⊢
    exact hwithin hfile

def wroteChunk (s : State) (f : Fin NFILE) (ip : Nat) (d : Dinode) (n : Nat) : State :=
  { s.store ip d with kernel := advance s.kernel f n }

theorem Sound.wroteChunk (h : Sound s) (hheld : Held s.kernel 0 ip)
    (hvalid : (s.icache ip).valid = true) (hip : (s.kernel.ftable f).ip = ip)
    (hwrite : (s.icache ip).copy.writei (s.kernel.ftable f).off src = some d) :
    Wrote ip s (wroteChunk s f ip d src.length) := by
  have hstored := h.store hheld hvalid hwrite
  have hmoved : Over (s.store ip d) (Icache.wroteChunk s f ip d src.length) := by
    apply hstored.sound.advance
    intro n hn _
    change n ≤ ((s.store ip d).dinode (s.kernel.ftable f).ip).size
    rw [hip, dinode_store_self]
    have hsize := (Dinode.writei_size hwrite).2
    exact hn.trans hsize
  apply hstored.trans (hmoved.wrote _ ip)
  exact fun _ => Fs.holders_advance _

theorem ftable_advance (k : Kernel) (f : Fin NFILE) (r : Int) :
    ((advance k f r).ftable f).type = (k.ftable f).type ∧
      ((advance k f r).ftable f).ip = (k.ftable f).ip := by
  unfold advance
  split
  · simp [Kernel.setFile]
  · exact ⟨rfl, rfl⟩

theorem wp_writeChunk {Q : Int → State → Prop} (h : Sound s) (hheld : Held s.kernel 0 ip)
    (hvalid : (s.icache ip).valid = true) (hip : (s.kernel.ftable f).ip = ip)
    (hQ : ∀ r s', Wrote ip s s' → (s'.kernel.ftable f).ip = ip → Q r s') :
    wp any (writeChunk f ip src other) Q s := by
  refine wp_bind.mpr ?_
  simp only [wp_reads, id_eq]
  split
  next hdev =>
    have hmoved : Over s { s with kernel := advance s.kernel f other } := by
      apply h.advance
      intro n _ hfile
      rw [(h.steady.copy_eq hheld hvalid).1, ← hip, hfile] at hdev
      cases hdev
    refine wp_bind.mpr (wp_modify.mpr (hQ _ _ (hmoved.wrote ?_ ip) ?_))
    · exact fun _ => Fs.holders_advance _
    · exact (ftable_advance ..).2.trans hip
  split
  · exact hQ _ s (h.wroteNothing ip) hip
  next d hwrite =>
    refine wp_bind.mpr (wp_modify.mpr (hQ _ _ (h.wroteChunk hheld hvalid hip hwrite) ?_))
    exact (ftable_advance ..).2.trans hip

theorem wp_writeLoop {Q : Bool → State → Prop} :
    ∀ (n : Nat) (src : List UInt8) {s : State}, Sound s → (s.kernel.ftable f).ip = ip →
      (∀ r s', Wrote ip s s' → Q r s') → wp any (writeLoop f ip other n src) Q s := by
  intro n
  induction n with
  | zero => exact fun src s h _ hQ => hQ _ s (h.wroteNothing ip)
  | succ n ih =>
    intro src s h hip hQ
    unfold writeLoop
    split
    · exact hQ _ s (h.wroteNothing ip)
    refine wp_bind.mpr (wp_ilock h.steady fun s1 h1 hquiet1 hheld hvalid => ?_)
    have hkernel : s1.kernel = s.kernel := (hquiet1 0).kernel
    have hwrote1 : Wrote ip s s1 := by
      apply (h.quiet h1 (hquiet1 0)).wrote
      intro ip'
      rw [hkernel]
    refine wp_bind.mpr (wp_writeChunk hwrote1.sound (hwrote1.held hheld) hvalid (hkernel ▸ hip) ?_)
    intro r s2 hwrote2 hip2
    have hwrote := hwrote1.trans hwrote2
    refine wp_bind.mpr (wp_iunlock ?_)
    split
    · exact hQ _ s2 hwrote
    split
    · trivial
    · exact ih _ hwrote.sound hip2 fun r s3 hwrote3 => hQ r s3 (hwrote.trans hwrote3)

/-- **`sys_write`** changes the bytes of the inode behind the descriptor at most. -/
theorem wp_sysWrite {src : Option (List UInt8)} {Q : Int → State → Prop} (h : Sound s)
    (hover : ∀ r s', Over s s' → Q r s')
    (hwrote : ∀ r s' fd' f, argfd s.kernel p (fun _ => fd) 0 = some (fd', f) →
      Wrote (s.kernel.ftable f).ip s s' → Q r s') : wp any (sysWrite p fd src other) Q s := by
  refine wp_get.mpr ?_
  split
  · exact hover _ s h.same
  rename_i fd' f hfd
  split
  swap
  · exact hover _ s h.same
  refine wp_get.mpr ?_
  split
  · exact hover _ s h.same
  split
  · exact hover _ s h.same
  · exact wp_bind.mpr (wp_writeLoop _ _ h rfl fun r s' hw => hwrote _ s' fd' f hfd hw)
  · trivial

/-! ### Open files can be read and written -/

theorem ends_ilock {k : Kernel} {H : Multiset Nat} {held : List Nat}
    {Q : Unit → List Nat → State → Prop} (h : Steady k H s) (hheld : Held k H ip)
    (hfree : (s.dinode ip).type ≠ .free) (hlock : ip ∉ held)
    (hQ : ∀ s', Steady k H s' → (∀ H', Quiet k H' s s') → (s'.icache ip).valid = true →
      Q () (ip :: held) s') : Ends (ilock ip) Q held s := by
  have hpos := h.pos_iff.mpr hheld
  refine ends_bind.mpr ?_
  simp only [ends_reads]
  rw [if_neg (by omega)]
  refine ends_bind.mpr (ends_acquire.mpr ⟨hlock, ?_⟩)
  by_cases hvalid : (s.icache ip).valid = true
  · exact ends_atomic (if_pos hvalid) (hQ s h (fun H' => .refl k H' s) hvalid)
  · refine ends_atomic ((if_neg hvalid).trans (if_neg hfree)) ?_
    refine hQ _ (h.load hpos hfree) (fun H' => .load k H' s ip) ?_
    rw [icache_load_self]

theorem ends_iunlock {held : List Nat} {Q : Unit → List Nat → State → Prop}
    (hpos : 0 < (s.icache ip).ref) (hQ : Q () (held.erase ip) s) : Ends (iunlock ip) Q held s := by
  refine ends_bind.mpr ?_
  simp only [ends_reads]
  rw [if_neg (by omega)]
  exact hQ

/-- A process has this file open. -/
structure Opened (s : State) (f : Fin NFILE) (ip : Nat) : Prop where
  type : (s.kernel.ftable f).type = .FD_INODE
  slot : (s.kernel.ftable f).ip = ip
  file : (s.dinode ip).type = .T_FILE

theorem Opened.held (h : Opened s f ip) : Held s.kernel 0 ip := by
  rw [← h.slot]
  exact .inl (Fs.holders_pos_of_file h.type)

theorem Opened.used (h : Opened s f ip) : (s.dinode ip).type ≠ .free := by
  rw [h.file]
  decide

theorem Opened.locked (hopen : Opened s f ip) (h' : Steady s.kernel 0 s')
    (hquiet : ∀ H, Quiet s.kernel H s s') (hvalid : (s'.icache ip).valid = true) :
    s'.kernel = s.kernel ∧ (s'.icache ip).copy = s'.dinode ip ∧
      (s'.dinode ip).type = .T_FILE ∧ (s'.dinode ip).data = (s.dinode ip).data := by
  have hdir : (s.dinode ip).type ≠ .T_DIR := by
    rw [hopen.file]
    decide
  have hmine := (hquiet 0).toFrame
  refine ⟨hmine.kernel, (h'.copy_eq hopen.held hvalid).1, ?_, hmine.bytes ip hopen.held hopen.used hdir⟩
  rw [hmine.type ip hopen.held hopen.used]
  exact hopen.file

theorem Dinode.readi_congr {d' : Dinode} (h : d.data = d'.data) (off n : Nat) :
    d.readi off n = d'.readi off n := by
  unfold Dinode.readi Dinode.size
  rw [h]

/-- **Reading an open file** returns its bytes at the offset. -/
theorem ends_sysRead {other : Int × List UInt8} (h : Sound s)
    (hfd : argfd s.kernel p (fun _ => fd) 0 = some (fd', f)) (hopen : Opened s f ip)
    (hread : (s.kernel.ftable f).readable = true) :
    Ends (sysRead p fd (some n) true other)
      (fun r _ _ => r = (s.dinode ip).readi (s.kernel.ftable f).off n) [] s := by
  refine ends_bind.mpr ?_
  simp only [ends_reads, hfd]
  refine ends_bind.mpr ?_
  simp only [ends_reads, hread, hopen.type, hopen.slot]
  refine ends_bind.mpr (ends_ilock h.steady hopen.held hopen.used not_mem_nil ?_)
  intro s1 h1 hframe1 hvalid
  obtain ⟨-, hcopy, htype, hdata⟩ := hopen.locked h1 hframe1 hvalid
  refine ends_bind.mpr ?_
  simp only [ends_reads]
  rw [hcopy, if_neg (by rw [htype]; decide), Dinode.readi_congr hdata]
  refine ends_bind.mpr (ends_modify.mpr (ends_bind.mpr (ends_iunlock ?_ rfl)))
  exact h1.pos_iff.mpr hopen.held

theorem Dinode.writei_some {off : Nat} (hoff : off ≤ d.size)
    (hfits : off + src.length ≤ MAXFILE * BSIZE) : ∃ d', d.writei off src = some d' :=
  ⟨_, Dinode.writei_eq_some.mpr ⟨hoff, hfits, rfl⟩⟩

theorem off_advance {k : Kernel} (hfits : (k.ftable f).off + n < 2 ^ 32) :
    ((advance k f n).ftable f).off = (k.ftable f).off + n := by
  unfold advance
  split
  · simp only [Kernel.setFile, Function.update_self]
    exact Nat.mod_eq_of_lt hfits
  next hzero => omega

theorem Opened.wroteChunk (hopen : Opened s f ip) (hfile : d.type = .T_FILE)
    (hfits : (s.kernel.ftable f).off + n < 2 ^ 32) :
    Opened (wroteChunk s f ip d n) f ip ∧ (wroteChunk s f ip d n).dinode ip = d ∧
      ((wroteChunk s f ip d n).kernel.ftable f).off = (s.kernel.ftable f).off + n := by
  have hdinode : (Icache.wroteChunk s f ip d n).dinode ip = d := dinode_store_self
  obtain ⟨htype, hslot⟩ := ftable_advance s.kernel f n
  refine ⟨⟨htype.trans hopen.type, hslot.trans hopen.slot, ?_⟩, hdinode, off_advance hfits⟩
  rw [hdinode]
  exact hfile

theorem ends_writeLoop : ∀ (n : Nat) (src : List UInt8) {s : State}, Sound s →
    Opened s f ip → src.length ≤ n →
    (s.kernel.ftable f).off + src.length ≤ MAXFILE * BSIZE →
    Ends (writeLoop f ip other n src) (fun r _ s' => r = true ∧
      (s'.dinode ip).data = splice (s.dinode ip).data (s.kernel.ftable f).off src) [] s := by
  have hmax : MAXFILE * BSIZE < 2 ^ 32 := by decide
  have hchunk : 0 < filewriteMax.toNat := by decide
  have hnil : ∀ (s : State), (s.dinode ip).data =
      splice (s.dinode ip).data (s.kernel.ftable f).off [] := by
    intro s
    simp [splice]
  intro n
  induction n with
  | zero =>
    intro src s h hopen hlen hfits
    obtain rfl := length_eq_zero_iff.mp (Nat.le_zero.mp hlen)
    exact ⟨rfl, hnil s⟩
  | succ n ih =>
    intro src s h hopen hlen hfits
    unfold writeLoop
    split
    next heq =>
      rw [heq]
      exact ⟨rfl, hnil s⟩
    have htake : (src.take filewriteMax.toNat).length ≤ src.length := length_take_le' ..
    refine ends_bind.mpr (ends_ilock h.steady hopen.held hopen.used not_mem_nil ?_)
    intro s1 h1 hquiet1 hvalid
    obtain ⟨hkernel, hcopy, htype, hdata⟩ := hopen.locked h1 hquiet1 hvalid
    have hopen1 : Opened s1 f ip := ⟨hkernel ▸ hopen.type, hkernel ▸ hopen.slot, htype⟩
    have hsound1 := (h.quiet h1 (hquiet1 0)).sound
    have hoff : (s1.kernel.ftable f).off ≤ (s1.icache ip).copy.size := by
      rw [hcopy, ← hopen1.slot]
      apply (hsound1.files f hopen1.type).2
      rw [hopen1.slot]
      exact htype
    have hroom : (s1.kernel.ftable f).off + (src.take filewriteMax.toNat).length ≤
        MAXFILE * BSIZE := by
      rw [hkernel]
      omega
    obtain ⟨d, hwrite⟩ := Dinode.writei_some hoff hroom
    have hwrote := hsound1.wroteChunk hopen1.held hvalid hopen1.slot hwrite
    obtain ⟨-, hfile, hspliced⟩ := Dinode.writei_eq hwrite
    rw [hcopy] at hfile hspliced
    obtain ⟨hopen2, hdinode2, hoff2⟩ := hopen1.wroteChunk (hfile.trans htype)
      (lt_of_le_of_lt hroom hmax)
    refine ends_bind.mpr (ends_bind.mpr ?_)
    simp only [ends_reads, id_eq]
    rw [if_neg (by rw [hcopy, htype]; decide), hwrite]
    refine ends_bind.mpr (ends_modify.mpr (ends_bind.mpr (ends_iunlock ?_ ?_)))
    · exact hwrote.sound.steady.pos_iff.mpr hopen2.held
    rw [if_neg (by omega), if_neg (by simp), erase_cons_head]
    have hdrop : (src.drop filewriteMax.toNat).length ≤ n := by
      rw [length_drop]
      omega
    have hall : (src.take filewriteMax.toNat).length + (src.drop filewriteMax.toNat).length =
        src.length := by
      rw [← length_append, take_append_drop]
    have hrest := ih (src.drop filewriteMax.toNat) hwrote.sound hopen2 hdrop (by
      rw [hoff2, hkernel]
      omega)
    rw [hdinode2, hoff2, hspliced, splice_append (by rw [← hcopy]; exact hoff),
      take_append_drop, hkernel, hdata] at hrest
    exact hrest

/-- **Writing an open file** writes all the bytes at the offset, up to the largest size. -/
theorem ends_sysWrite (h : Sound s) (hfd : argfd s.kernel p (fun _ => fd) 0 = some (fd', f))
    (hopen : Opened s f ip) (hwrite : (s.kernel.ftable f).writable = true)
    (hfits : (s.kernel.ftable f).off + src.length ≤ MAXFILE * BSIZE) :
    Ends (sysWrite p fd (some src) other) (fun r _ s' => r = src.length ∧
      (s'.dinode ip).data = splice (s.dinode ip).data (s.kernel.ftable f).off src) [] s := by
  refine ends_bind.mpr ?_
  simp only [ends_reads, hfd]
  refine ends_bind.mpr ?_
  simp only [ends_reads, hwrite, hopen.type, hopen.slot]
  refine ends_bind.mpr ?_
  apply Ends.mono (ends_writeLoop src.length src h hopen le_rfl hfits)
  rintro r held s' ⟨rfl, hdata⟩
  exact ⟨rfl, hdata⟩

/-! ### Whole calls -/

/-- The call may write the bytes behind this slot. -/
def Writes (s : State) (p : Fin NPROC) (c : Syscall) (ip : Nat) : Prop :=
  ∃ fd src other fd' f, c = .SYS_write fd src other ∧
    argfd s.kernel p (fun _ => fd) 0 = some (fd', f) ∧ (s.kernel.ftable f).ip = ip

structure Done (p : Fin NPROC) (c : Syscall) (s s' : State) : Prop where
  sound : Sound s'
  kept : Kept (Stays s s') s s'
  bytes : SameBytes (fun ip => Stays s s' ip ∧ ¬ Writes s p c ip) s s'

theorem Over.done {c : Syscall} (h : Over s s') : Done p c s s' :=
  ⟨h.sound, h.alike.toKept, fun ip hip => h.alike.bytes ip hip.1⟩

theorem Wrote.done {src : Option (List UInt8)} (h : Wrote (s.kernel.ftable f).ip s s')
    (hfd : argfd s.kernel p (fun _ => fd) 0 = some (fd', f)) :
    Done p (.SYS_write fd src other) s s' := by
  refine ⟨h.sound, h.kept.mono fun _ hip => .inl hip.1, ?_⟩
  rintro ip ⟨hstays, hnot⟩
  apply h.bytes ip
  refine ⟨.inl hstays.1, fun hip => ?_⟩
  exact hnot ⟨fd, src, other, fd', f, rfl, hfd, hip.symm⟩

/-- **A system call keeps the cache exact**, whatever it returns. -/
theorem wp_run {c : Syscall} (h : Sound s) (hlive : ¬ Vacant (s.kernel.ptable p).state) :
    wp any (c.run p) (fun _ s' => Done p c s s') s := by
  have hover : ∀ (r : Int) s', Over s s' → Done p c s s' := fun _ _ ho => ho.done
  have hback : ∀ {m : Iprog Int} {cond : Int → Prop},
      wp any m (fun r s' => Amid s.kernel (cond r) 0 s [] s') s →
      wp any m (fun _ s' => Done p c s s') s :=
    fun hwp => wp_mono hwp fun _ _ h' => (h.back h').done
  cases c with
  | path c =>
    cases c with
    | SYS_link => exact hback (wp_sysLink h.steady rfl)
    | SYS_unlink => exact hback (wp_sysUnlink h.steady rfl)
    | SYS_open => exact wp_sysOpen h fun _ _ ho _ => ho.done
    | SYS_mkdir args =>
      rcases args with _ | path
      · exact h.same.done
      · exact hback (wp_createDone h.steady rfl)
    | SYS_mknod args =>
      rcases args with _ | ⟨path, major, minor⟩
      · exact h.same.done
      · exact hback (wp_createDone h.steady rfl)
    | SYS_chdir => exact wp_sysChdir h fun _ _ ho _ => (ho hlive).done
  | SYS_exec => exact hback (wp_sysExec h.steady rfl)
  | SYS_dup => exact wp_sysDup h hover
  | SYS_close => exact wp_sysClose h hover
  | SYS_read => exact wp_bind.mpr (wp_sysRead h fun _ _ ho => ho.done)
  | SYS_write => exact wp_sysWrite h hover fun _ s' fd' f hfd hw => hw.done hfd
  | SYS_fork => exact wp_fork h hlive hover
  | SYS_exit => exact wp_bind.mpr (wp_exit h fun _ ho => ho.done)
  | SYS_wait => exact wp_sysWait h hover

end

/-! ### Runs -/

def boot (ninodes : Nat) (disk : Nat → Dinode) : State where
  kernel := Fs.setCwd 0 (some 0) booted
  ninodes := ninodes
  disk := disk
  icache ip :=
    if ip = 0 then { dev := ROOTDEV, inum := ROOTINO, ref := 1, valid := false, copy := .blank .free }
    else { dev := 0, inum := 0, ref := 0, valid := false, copy := .blank .free }
  puts := []

/-- The calls, one at a time, on a disk with a root whose inodes in use all have links. -/
def icacheCalls : System State (Fin NPROC × Syscall) where
  init s := ∃ ninodes disk, s = boot ninodes disk ∧ (disk ROOTINO).type ≠ .free ∧
    ∀ i, (disk i).type ≠ .free → (disk i).nlink ≠ 0
  step s a :=
    if Runs s.kernel a.1 then
      match exec (a.2.run a.1) [] s with
      | .done _ s' => some s'
      | _ => none
    else none

theorem holders_boot (ip : Nat) :
    holders (Fs.setCwd 0 (some 0) booted) ip = if ip = 0 then 1 else 0 := by
  rw [Fs.setCwd, Fs.holders_setProc, Fs.holders_booted]
  have hold : Fs.cwdHolds ip (booted.ptable 0) = if ip = ROOTINO then 1 else 0 := by
    by_cases hip : ip = ROOTINO
    · subst hip; rfl
    · simp [Fs.cwdHolds, booted, hip, Ne.symm hip]
  have hnew : Fs.cwdHolds ip { booted.ptable 0 with cwd := some 0 } = if ip = 0 then 1 else 0 := by
    by_cases hip : ip = 0
    · subst hip; rfl
    · simp [Fs.cwdHolds, hip, Ne.symm hip]
  omega

theorem sound_boot {ninodes : Nat} {disk : Nat → Dinode} (hroot : (disk ROOTINO).type ≠ .free)
    (hlinks : ∀ i, (disk i).type ≠ .free → (disk i).nlink ≠ 0) : Sound (boot ninodes disk) := by
  have hzero : ∀ ip, 0 < ((boot ninodes disk).icache ip).ref → ip = 0 := by
    intro ip hpos
    by_contra hip
    simp [boot, hip] at hpos
  have hinvalid : ∀ ip, ((boot ninodes disk).icache ip).valid = false := by
    intro ip
    by_cases hip : ip = 0
    · simp [boot, hip]
    · simp [boot, hip]
  refine ⟨?_, Fs.tidy_booted.setProc ?_, fun f hf => ?_⟩
  · constructor
    · intro ip
      change _ = holders (Fs.setCwd 0 (some 0) booted) ip + _
      rw [holders_boot]
      by_cases hip : ip = 0
      · simp [boot, hip]
      · simp [boot, hip]
    · intro ip hpos
      rw [hzero ip hpos]
      decide
    · intro ip hpos
      rw [hzero ip hpos]
      rfl
    · intro ip ip' hpos hpos' _
      rw [hzero ip hpos, hzero ip' hpos']
    · intro ip _ hvalid
      rw [hinvalid] at hvalid
      cases hvalid
    · intro ip hpos
      change 0 < holders (Fs.setCwd 0 (some 0) booted) ip at hpos
      rw [holders_boot] at hpos
      have hip : ip = 0 := by
        by_contra hne
        omega
      rw [hip]
      exact hroot
    · intro i _ hused hnone
      exact absurd hnone (hlinks i hused)
    · exact fun e he => absurd he not_mem_nil
  · rintro (hv | hv)
    · cases hv
    · cases hv
  · cases hf

theorem done_of_step {s s' : State} {a : Fin NPROC × Syscall} (h : Sound s)
    (hstep : icacheCalls.step s a = some s') : Done a.1 a.2 s s' := by
  obtain ⟨hruns, hstep⟩ := Option.ite_none_right_eq_some.mp hstep
  split at hstep
  next heq =>
    cases hstep
    have hpost := post_of_done (wp_run h hruns.live) heq
    exact hpost
  · cases hstep

theorem sound_of_reached {s : State} (h : icacheCalls.Reached s) : Sound s := by
  apply h.invariant
  · rintro s ⟨ninodes, disk, rfl, hroot, hlinks⟩
    exact sound_boot hroot hlinks
  · intro s a s' hs _ hstep
    exact (done_of_step hs hstep).sound

/-- A fair `iput` frees an inode in use exactly when it drops the last reference and there are
no links. -/
theorem Put.Fair.frees {e : Put} (h : e.Fair) (hused : e.before.type ≠ .free) :
    (e.after.type = .free ∧ e.after.data = [] ↔ e.ref = 1 ∧ e.before.nlink = 0) ∧
      (e.after.type ≠ .free → e.after = e.before) := by
  unfold Put.Fair at h
  split at h
  next hlast =>
    have hfree : e.after.type = .free := by rw [h]; rfl
    have hdata : e.after.data = [] := by rw [h]; rfl
    exact ⟨⟨fun _ => hlast.2, fun _ => ⟨hfree, hdata⟩⟩, absurd hfree⟩
  next hmore =>
    rw [h]
    refine ⟨⟨fun hfree => absurd hfree.1 hused, fun hlast => ?_⟩, fun _ => rfl⟩
    exact absurd ⟨hused, hlast⟩ hmore

/-- **Inode cache references.** -/
theorem icache_references {s : State} (h : icacheCalls.Reached s) :
    (∀ ip ip', 0 < (s.icache ip).ref → 0 < (s.icache ip').ref →
      (s.icache ip).dev = (s.icache ip').dev → (s.icache ip).inum = (s.icache ip').inum →
        ip = ip') ∧
    (∀ ip, (s.icache ip).ref =
      (Finset.univ.filter fun f => (s.kernel.ftable f).type = .FD_INODE ∧
        0 < (s.kernel.ftable f).ref ∧ (s.kernel.ftable f).ip = ip).card +
      (Finset.univ.filter fun p => ¬ Vacant (s.kernel.ptable p).state ∧
        (s.kernel.ptable p).cwd = some ip).card) ∧
    (∀ e ∈ s.puts, e.before.type ≠ .free →
      (e.after.type = .free ∧ e.after.data = [] ↔ e.ref = 1 ∧ e.before.nlink = 0) ∧
        (e.after.type ≠ .free → e.after = e.before)) ∧
    (∀ p c s', icacheCalls.step s (p, c) = some s' →
      ∀ ip, 0 < holders s.kernel ip → 0 < holders s'.kernel ip →
        s'.inum ip = s.inum ip ∧ (s.dinode ip).type ≠ .free ∧
        (s'.dinode ip).type = (s.dinode ip).type ∧
        ((s.dinode ip).type ≠ .T_DIR → ¬ Writes s p c ip →
          (s'.dinode ip).data = (s.dinode ip).data)) ∧
    ∀ p fd fd' f ip, argfd s.kernel p (fun _ => fd) 0 = some (fd', f) → Opened s f ip →
      ((s.kernel.ftable f).readable = true → ∀ n other, ∃ s',
        exec (sysRead p fd (some (n : ℕ)) true other) [] s =
          .done ((s.dinode ip).readi (s.kernel.ftable f).off n) s') ∧
      ((s.kernel.ftable f).writable = true → ∀ src other,
        (s.kernel.ftable f).off + src.length ≤ MAXFILE * BSIZE → ∃ s',
          exec (sysWrite p fd (some src) other) [] s = .done src.length s' ∧
          (s'.dinode ip).data = splice (s.dinode ip).data (s.kernel.ftable f).off src) := by
  have hsound := sound_of_reached h
  have hexact := hsound.steady
  refine ⟨fun ip ip' hpos hpos' _ heq => hexact.once ip ip' hpos hpos' heq, fun ip => ?_,
    fun e he => (hexact.fair e he).frees, fun p c s' hstep ip hpos hpos' => ?_,
    fun p fd fd' f ip hfd hopen => ⟨fun hread n other => ?_, fun hwrite src other hfits => ?_⟩⟩
  · rw [hexact.refs ip, Multiset.count_zero, Nat.cast_zero, add_zero]
    exact Fs.holders_eq_card hsound.tidy hsound.files ip
  · have hdone := done_of_step hsound hstep
    have hfree := hexact.held ip hpos
    exact ⟨hdone.kept.inum ip ⟨hpos, hpos'⟩, hfree, hdone.kept.type ip ⟨hpos, hpos'⟩ hfree,
      fun hdir hnot => hdone.bytes ip ⟨⟨hpos, hpos'⟩, hnot⟩ hfree hdir⟩
  · obtain ⟨r, held, s', hexec, hr⟩ := (ends_sysRead hsound hfd hopen hread).exec_done
    rw [hr] at hexec
    exact ⟨s', hexec⟩
  · obtain ⟨r, held, s', hexec, hr, hdata⟩ :=
      (ends_sysWrite hsound hfd hopen hwrite hfits).exec_done
    rw [hr] at hexec
    exact ⟨s', hexec, hdata⟩

def rootDisk (i : Nat) : Dinode :=
  if i = ROOTINO then
    { type := .T_DIR, major := 0, minor := 0, nlink := 1,
      data := direntBytes 1 Fs.dot ++ direntBytes 1 Fs.dotdot }
  else .blank .free

theorem reached_rootDisk : icacheCalls.Reached (boot 10 rootDisk) := by
  have hlinks : ∀ i, (rootDisk i).type ≠ .free → (rootDisk i).nlink ≠ 0 := by
    intro i hi
    by_cases heq : i = ROOTINO
    · simp [rootDisk, heq]
    · simp [rootDisk, heq, Dinode.blank] at hi
  exact .init ⟨10, rootDisk, rfl, by decide, hlinks⟩

def unlinkread : List (Fin NPROC × Syscall) :=
  [(0, .path (.SYS_open (some ([97], 0x202)))), (0, .path (.SYS_open (some ([97], 0)))),
    (0, .SYS_write (some 0) (some [104, 105]) 0), (0, .path (.SYS_unlink (some [97]))),
    (0, .SYS_close (some 0))]

/-- The other descriptor reads what was written. -/
theorem icache_references_unlinkread :
    ∃ s s', icacheCalls.run (fun _ _ => True) (boot 10 rootDisk) unlinkread = some s ∧
      (s.disk 2).nlink = 0 ∧
      exec (sysRead 0 (some 1) (some (9 : ℕ)) true (0, [])) [] s = .done (2, [104, 105]) s' := by
  have hok : (icacheCalls.run (fun _ _ => True) (boot 10 rootDisk) unlinkread).any (fun s =>
      decide (argfd s.kernel 0 (fun _ => some 1) 0 = some (1, 1) ∧
        (s.kernel.ftable 1).type = .FD_INODE ∧ (s.kernel.ftable 1).ip = 1 ∧
        (s.dinode 1).type = .T_FILE ∧ (s.kernel.ftable 1).readable = true ∧
        (s.disk 2).nlink = 0 ∧
        (s.dinode 1).readi (s.kernel.ftable 1).off 9 = (2, [104, 105]))) = true := by
    decide +kernel
  rcases hrun : icacheCalls.run (fun _ _ => True) (boot 10 rootDisk) unlinkread with _ | s
  · rw [hrun] at hok
    cases hok
  rw [hrun, Option.any_some, decide_eq_true_eq] at hok
  obtain ⟨hfd, htype, hslot, hfile, hread, hnlink, hbytes⟩ := hok
  have hreached : icacheCalls.Reached s := reached_rootDisk.run unlinkread hrun
  obtain ⟨-, -, -, -, hopen⟩ := icache_references hreached
  obtain ⟨s', hexec⟩ := (hopen 0 (some 1) 1 1 1 hfd ⟨htype, hslot, hfile⟩).1 hread 9 (0, [])
  rw [hbytes] at hexec
  exact ⟨s, s', rfl, hnlink, hexec⟩

/-- **No open file goes stale and no inode leaks**: its inode is in use and its offset in the file;
an inode without links is open or a current directory. -/
theorem open_files_live {s : State} (h : icacheCalls.Reached s) :
    (∀ f, (s.kernel.ftable f).type = .FD_INODE →
      (s.dinode (s.kernel.ftable f).ip).type ≠ .free ∧
        Within s (s.kernel.ftable f).ip (s.kernel.ftable f).off) ∧
    ∀ i, (s.disk i).type ≠ .free → (s.disk i).nlink = 0 →
      ∃ ip, s.inum ip = i ∧ 0 < holders s.kernel ip := by
  have hsound := sound_of_reached h
  refine ⟨fun f hf => ?_, fun i hused hnone => ?_⟩
  · exact ⟨hsound.steady.held _ (Fs.holders_pos_of_file hf), (hsound.files f hf).2⟩
  · obtain ⟨ip, hpos, -, hip⟩ := hsound.steady.unlinked i id hused hnone
    rw [hsound.steady.refs] at hpos
    exact ⟨ip, hip, by simpa using hpos⟩

theorem open_files_live_unlinkread : ∃ (s : State) (ip : Nat), s.inum ip = 2 ∧
    0 < holders s.kernel ip := by
  obtain ⟨s, hs, hused, hnone⟩ := reached_rootDisk.run_decide unlinkread
    (P := fun s => (s.disk 2).type ≠ .free ∧ (s.disk 2).nlink = 0) (by decide +kernel)
  exact ⟨s, (open_files_live hs).2 2 hused hnone⟩

end Xv6.Icache
