import XrdBlackhole.Frame
import XrdBlackhole.SizeUpdate
import XrdBlackhole.OpenResult
import XrdBlackhole.ReadableSize
import XrdBlackhole.Library.Tiling

/-!
# Write, close, read back

A handle creates a file, its writes tile `[0, n)` in any order, and it is closed.
Other clients may do anything which stays away from the path. Then the file has
size `n`, and a sequential reader gets `n` zero bytes.
-/

namespace XrdBlackhole

def writeBlock (h : ℕ) : Call → Option Block
  | .io g (.write offset blen) | .io g (.writeAio offset blen) =>
    if g = h then some (offset.toNat, blen.toNat) else none
  | _ => none

def writeBlocks (h : ℕ) (cs : List Call) : List Block := cs.filterMap (writeBlock h)

def WritesOrAway (h : ℕ) (p : Str) (s : World × Past) (c : Call) : Prop :=
  (∃ b, writeBlock h c = some b) ∨ Away h p s.1 c

structure Writing (h : ℕ) (p : Str) (i : ℕ) (w : World) : Prop where
  owned : Owned h p i w
  writer : w.OpenWriter h i
  flagged : w.Flagged i
  zeros : (w.fs.stubs.get i).readtype = zeros

structure Stored (p : Str) (i n : ℕ) (r : ℕ) (w : World) : Prop where
  owned : Owned r p i w
  size : (w.fs.stubs.get i).size.toNat = n
  statSize : (w.fs.stubs.get i).stat.size.toInt = n
  zeros : (w.fs.stubs.get i).readtype = zeros

section
variable {w : World} {past : Past} {h r i n : ℕ} {p : Str} {flags mode : CInt} {c : Call}

theorem writeBlock_eq_some {b : Block} (hb : writeBlock h c = some b) :
    ∃ io, c = .io h io ∧ ∀ r, bytesAccepted io r = b.2 := by
  cases c with
  | io g io =>
    cases io with
    | write offset blen =>
      simp only [writeBlock, Option.ite_none_right_eq_some, Option.some.injEq] at hb
      exact ⟨.write offset blen, by rw [hb.1], fun _ => by rw [← hb.2]; rfl⟩
    | writeAio offset nbytes =>
      simp only [writeBlock, Option.ite_none_right_eq_some, Option.some.injEq] at hb
      exact ⟨.writeAio offset nbytes, by rw [hb.1], fun _ => by rw [← hb.2]; rfl⟩
    | _ => cases hb
  | _ => cases hb

theorem writeBlock_away (hc : Away h p w c) : writeBlock h c = none := by
  cases c with
  | io g io => cases io <;> first | rfl | exact if_neg hc
  | _ => rfl

theorem accepted_write_or_away (s : World × Past) (hc : WritesOrAway h p s c) :
    accepted h (World.machine.logged.next s c).2 =
      accepted h s.2 + ((writeBlocks h [c]).map Prod.snd).sum := by
  rcases hc with ⟨b, hb⟩ | hc
  · obtain ⟨io, rfl, hbytes⟩ := writeBlock_eq_some hb
    have hsum : accepted h (World.machine.logged.next s (.io h io)).2 =
        accepted h s.2 + bytesAccepted io (World.machine.out s.1 (.io h io)) := if_pos rfl
    simp [hsum, hbytes, writeBlocks, hb]
  · have hnone : writeBlocks h [c] = [] := by simp [writeBlocks, writeBlock_away hc]
    rw [hnone]
    exact sessionSum_of_not_uses hc.not_uses _

theorem accepted_writes (s : World × Past) (cs : List Call)
    (hcs : World.machine.logged.EveryStep (WritesOrAway h p) s cs) :
    accepted h (World.machine.logged.exec s cs).2 =
      accepted h s.2 + ((writeBlocks h cs).map Prod.snd).sum := by
  induction cs generalizing s with
  | nil => rfl
  | cons c cs ih =>
    have hsplit : writeBlocks h (c :: cs) = writeBlocks h [c] ++ writeBlocks h cs :=
      List.filterMap_append (l := [c])
    rw [Machine.exec, ih _ hcs.2, accepted_write_or_away s hcs.1, hsplit, List.map_append,
      List.sum_append, Nat.add_assoc]

theorem Writing.step (hw : Writing h p i w) (hc : WritesOrAway h p (w, past) c) :
    Writing h p i (w.step c).1 := by
  rcases hc with ⟨b, hb⟩ | hc
  · obtain ⟨io, rfl, _⟩ := writeBlock_eq_some hb
    refine ⟨⟨hw.owned.sound.step _, hw.owned.bound, fun g hg hheld => ?_⟩, ?_, hw.flagged, hw.zeros⟩
    · exact hw.owned.alone g hg ((World.io_holds io).1.mp hheld)
    · exact (World.io_holds io).2.mpr hw.writer
  · have hsame := hw.owned.away hc
    refine ⟨hsame.owned, ?_, ?_, ?_⟩
    · rw [World.OpenWriter, hc.file]
      exact hw.writer
    · rw [World.Flagged, hsame.stub]
      exact hw.flagged
    · rw [hsame.stub]
      exact hw.zeros

theorem Writing.open (hsound : w.Sound) (hwrite : ¬ readOnly flags)
    (hnew : w.fs.files[p]? = none ∨ trunc flags)
    (hok : (w.step (.fileOpen h p flags mode)).2.rc = XrdOssOK) :
    ∃ i, Writing h p i (w.step (.fileOpen h p flags mode)).1 := by
  have hrc := ((w.file h).open_rc_eq_ok_iff w.fs p flags mode).mp hok
  have hcreate : w.fs.open p flags mode =
      BlackholeFS.create { w.fs with files := w.fs.files.erase p } p flags mode := by
    have hcase := BlackholeFS.open_case w.fs p flags mode
    generalize w.fs.open p flags mode = o at hcase hrc
    cases hcase with
    | missing hread _ => exact absurd hread hwrite
    | exclusive stub _ _ _ => exact absurd hrc (show ¬ (0 : ℤ) ≤ -EEXIST by decide)
    | read stub hread _ => exact absurd hread hwrite
    | reuse stub _ hfile _ htrunc =>
      rcases hnew with habs | htrunc'
      · rw [habs] at hfile
        cases hfile
      · exact absurd htrunc' htrunc
    | create _ _ => rfl
  have hbound : (w.fs.open p flags mode).2.files[p]? = some w.fs.stubs.next := by
    rw [hcreate, BlackholeFS.create_files, if_pos rfl]
  have hget : (w.fs.open p flags mode).2.stubs.get w.fs.stubs.next =
      { isOpenWrite := true, size := 0, flags := flags, mode := mode,
        stat := { dev := 1, ino := w.fs.fdLast + 1 } } := by
    rw [hcreate]
    exact Heap.alloc_get_next _ _
  refine ⟨w.fs.stubs.next, ⟨hsound.step _, ?_, fun g hg hheld => ?_⟩, ?_, ?_, ?_⟩
  · rwa [World.step_open_fs]
  · have hheld := (World.open_holds_ok hrc).1.mp hheld
    rw [if_neg hg] at hheld
    exact absurd (hsound.held hheld) (lt_irrefl _)
  · rw [World.open_holds_ok hrc |>.2, if_pos rfl]
    exact ⟨hbound, hwrite⟩
  · rw [World.Flagged, World.step_open_fs, hget]
  · rw [World.step_open_fs, hget]

theorem Writing.close (hw : Writing h p i w) (hcounts : Counts w past)
    (hbytes : accepted h past < 2 ^ 63) (r : ℕ) :
    Stored p i (accepted h past) r (w.step (.fileClose h)).1 := by
  obtain ⟨hsize, hstat⟩ := close_stores hcounts hw.writer hw.flagged hbytes
  refine ⟨⟨hw.owned.sound.step _, ?_, fun g _ hheld => ?_⟩, hsize, hstat, ?_⟩
  · rw [World.step_close_fs, OssFile.close_files]
    exact hw.owned.bound
  · obtain ⟨hg, hheld⟩ := World.close_holds.1.mp hheld
    exact hw.owned.alone g hg hheld
  · rw [World.step_close_fs, OssFile.close_readtype hw.writer.1]
    exact hw.zeros

theorem Stored.away (hw : Stored p i n r w) (hc : Away r p w c) :
    Stored p i n r (w.step c).1 := by
  have hsame := hw.owned.away hc
  refine ⟨hsame.owned, ?_, ?_, ?_⟩ <;> rw [hsame.stub]
  · exact hw.size
  · exact hw.statSize
  · exact hw.zeros

theorem Stored.stat (hw : Stored p i n r w) :
    (w.step (.stat p)).2.rc = 0 ∧ (w.step (.stat p)).2.buf.size.toInt = n := by
  have hstat : w.stat p = (0, (w.fs.stubs.get i).stat) := by
    simp only [World.stat, BlackholeFS.getStub, hw.owned.bound]
  rw [World.step, hstat]
  exact ⟨rfl, hw.statSize⟩

end

def SeqReadOrAway (r : ℕ) (p : Str) (s : World × Past) (c : Call) : Prop :=
  (∃ buff blen, 0 < blen.toNat ∧
    c = .io r (.read buff (BitVec.ofNat 64 (returned r s.2)) blen)) ∨ Away r p s.1 c

def DeliversZeros (r n : ℕ) (s : World × Past) : Call → Prop
  | .io g (.read buff offset blen) => g = r →
      (s.1.step (.io g (.read buff offset blen))).2.rc = min blen.toNat (n - returned r s.2) ∧
        ∀ k, k < min blen.toNat (n - returned r s.2) →
          (s.1.step (.io g (.read buff offset blen))).1.mem (buff + k) = 0
  | _ => True

structure Reading (r n : ℕ) (s : World × Past) : Prop where
  isOpen : ∃ i, (s.1.file r).stub = some i
  size : (s.1.file r).size.toNat = n
  zeros : (s.1.file r).isRandom = false
  bound : returned r s.2 ≤ n

section
variable {s : World × Past} {r n : ℕ} {p : Str} {c : Call}

theorem Reading.reader (hs : Reading r n s) : Reader r n s := ⟨hs.isOpen, hs.size, hs.bound⟩

theorem SeqReadOrAway.other (hc : SeqReadOrAway r p s c) : SeqReadOrOther r s c :=
  hc.imp id Away.not_uses

theorem Reading.read_rc (hs : Reading r n s) (hn : n < 2 ^ 63) (buff : ℕ) (blen : Word) :
    (s.1.step (.io r (.read buff (BitVec.ofNat 64 (returned r s.2)) blen))).2.rc =
        min blen.toNat (n - returned r s.2) ∧
      ∀ k, k < min blen.toNat (n - returned r s.2) →
        (s.1.step (.io r (.read buff (BitVec.ofNat 64 (returned r s.2)) blen))).1.mem
          (buff + k) = 0 := by
  refine ⟨hs.reader.read_rc hn buff blen, fun k hk => ?_⟩
  rw [hs.reader.read_mem hn buff blen, if_pos (by omega), ReadView.content, hs.zeros]
  rfl

theorem Reading.step (hs : Reading r n s) (hn : n < 2 ^ 63) (hc : SeqReadOrAway r p s c) :
    Reading r n (World.machine.logged.next s c) ∧
      returned r (World.machine.logged.next s c).2 = min n (returned r s.2 + readLength r c) := by
  obtain ⟨hreader, hsession, hreturned⟩ := hs.reader.step hn hc.other
  have hzeros : ((World.machine.logged.next s c).1.file r).isRandom = false :=
    (congrArg ReadView.isRandom hsession.view).trans hs.zeros
  exact ⟨⟨hreader.isOpen, hreader.size, hzeros, hreader.bound⟩, hreturned⟩

theorem Reading.delivers (hs : Reading r n s) (hn : n < 2 ^ 63) (hc : SeqReadOrAway r p s c) :
    DeliversZeros r n s c := by
  rcases hc with ⟨buff, blen, _, rfl⟩ | hc
  · exact fun _ => hs.read_rc hn buff blen
  · cases c with
    | io g io => cases io <;> first | trivial | exact fun hg => absurd hg hc
    | _ => trivial

theorem Reading.run (hs : Reading r n s) (hn : n < 2 ^ 63) (cs : List Call)
    (hcs : World.machine.logged.EveryStep (SeqReadOrAway r p) s cs) :
    World.machine.logged.EveryStep (DeliversZeros r n) s cs ∧
      returned r (World.machine.logged.exec s cs).2 =
        min n (returned r s.2 + requested r cs) := by
  induction cs generalizing s with
  | nil => exact ⟨trivial, (min_eq_right hs.bound).symm⟩
  | cons c cs ih =>
    obtain ⟨hnext, hreturned⟩ := hs.step hn hcs.1
    obtain ⟨hdelivers, hend⟩ := ih hnext hcs.2
    refine ⟨⟨hs.delivers hn hcs.1, hdelivers⟩, ?_⟩
    rw [Machine.exec, hend, hreturned]
    simp only [requested, List.map_cons, List.sum_cons]
    omega

end

theorem Stored.open {w : World} {p : Str} {i n r : ℕ} {flags : CInt} (hw : Stored p i n r w)
    (hread : readOnly flags) (hfits : w.fs.CounterFits) (mode : CInt) (past : Past) :
    (w.step (.fileOpen r p flags mode)).2.rc = XrdOssOK ∧
      Reading r n (World.machine.logged.next (w, past) (.fileOpen r p flags mode)) := by
  have haccept : ¬ w.fs.Refused p flags := by
    simp [BlackholeFS.Refused, hread, hw.owned.bound]
  have hrc : 0 ≤ (w.fs.open p flags mode).1 := by
    have hfd := (hfits.open_rc haccept mode).1
    omega
  have hok := ((w.file r).open_rc_eq_ok_iff w.fs p flags mode).mpr hrc
  obtain ⟨j, hfile, hview, hreader⟩ := Reader.opened (s := (w, past)) hread hok
  obtain rfl : i = j := Option.some.inj (hw.owned.bound.symm.trans hfile)
  rw [hw.size] at hreader
  have hzeros : (XrdBlackhole.zeros == random) = false := by decide
  refine ⟨hok, hreader.isOpen, hreader.size, ?_, hreader.bound⟩
  rw [hview, Stub.view, hw.zeros]
  exact hzeros

/-- `h` opens the new or truncated file `p` for writing and then `cs` writes `[0, n)`
on it, in any order, while other clients stay away. -/
structure WriteSession (h : ℕ) (p : Str) (flags mode : CInt) (n : ℕ) (cs : List Call)
    (s : World × Past) : Prop where
  write : ¬ readOnly flags
  fresh : s.1.fs.files[p]? = none ∨ trunc flags
  opened : (s.1.step (.fileOpen h p flags mode)).2.rc = XrdOssOK
  calls : World.machine.logged.EveryStep (WritesOrAway h p)
    (World.machine.logged.next s (.fileOpen h p flags mode)) cs
  tiles : Block.Tiles n (writeBlocks h cs)

theorem WriteSession.stored {h : ℕ} {p : Str} {flags mode : CInt} {n : ℕ} {cs : List Call}
    {s : World × Past} (hs : WriteSession h p flags mode n cs s) (hsound : s.1.Sound)
    (hcounts : Counts s.1 s.2) (hn : n < 2 ^ 63) (r : ℕ) :
    ∃ i, Stored p i n r (World.machine.logged.exec s
      (.fileOpen h p flags mode :: cs ++ [.fileClose h])).1 := by
  obtain ⟨i, hwriting⟩ := Writing.open hsound hs.write hs.fresh hs.opened
  have hinv := Machine.exec_invariant_of (M := World.machine.logged)
    (I := fun t => Writing h p i t.1 ∧ Counts t.1 t.2)
    (fun _ c ht hc => ⟨ht.1.step hc, ht.2.step c⟩) ⟨hwriting, hcounts.step _⟩ hs.calls
  have haccepted := accepted_writes _ cs hs.calls
  rw [accepted_opened hs.opened, hs.tiles.sum_length, Nat.zero_add] at haccepted
  have hstored := hinv.1.close hinv.2 (by rw [haccepted]; exact hn) r
  rw [haccepted] at hstored
  rw [List.cons_append, Machine.exec, Machine.exec_append]
  exact ⟨i, hstored⟩

end XrdBlackhole
