import XrdBlackhole.ReadableSize

/-!
# Fstat and Read on one handle

`Read` ends the file at the size which the handle cached at its latest successful
`Open`, `Fstat` reports the size which the shared stub has now. So the bound which
`Read` enforces is what `Fstat` reported right after that `Open`. It is what `Fstat`
reports later unless a `Close` has stored another size in the stub, and the last one
which did decides.
-/

namespace XrdBlackhole

def fstatSize (w : World) (h : ℕ) : ℤ := (w.step (.io h .fstat)).2.buf.size.toInt

/-- `Read` on `h` ends the file at `n`. -/
def EndsAt (w : World) (h : ℕ) (n : ℤ) : Prop :=
  ∀ (buff : ℕ) (offset blen : Word), 0 ≤ offset.toInt → 0 < blen.toNat →
    (w.step (.io h (.read buff offset blen))).2.rc =
      if offset.toInt < n then min (blen.toNat : ℤ) (n - offset.toInt) else 0

def Reopens (h : ℕ) (w : World) : Call → Prop
  | .fileOpen g path flags mode =>
    g = h ∧ (w.step (.fileOpen g path flags mode)).2.rc = XrdOssOK
  | _ => False

/-- The size which a `Close` stores in the stub that `h` holds. It may be called on any
handle of this stub, and it finds the stub flagged. -/
def sizeStored (h : ℕ) (w : World) : Call → Option Word
  | .fileClose g =>
    match (w.file h).stub with
    | none => none
    | some i =>
      if (w.file g).stub = some i ∧ (w.fs.stubs.get i).isOpenWrite then some (w.file g).written
      else none
  | _ => none

/-- The call after `pre` is the latest successful `Open` of `h` in the run on `cs`. -/
structure LastOpen (h : ℕ) (cs pre : List Call) (path : Str) (flags mode : CInt)
    (post : List Call) : Prop where
  split : cs = pre ++ .fileOpen h path flags mode :: post
  ok : ((World.machine.exec {} pre).step (.fileOpen h path flags mode)).2.rc = XrdOssOK
  last : World.machine.EveryStep (fun w c => ¬ Reopens h w c)
    (World.machine.exec {} (pre ++ [.fileOpen h path flags mode])) post

section
variable {w : World} {h : ℕ}

theorem read_ends_at {i : ℕ} (hstub : (w.file h).stub = some i)
    (hsize : (w.file h).size.toNat < 2 ^ 63) : EndsAt w h (w.file h).size.toNat := by
  intro buff offset blen hoffset hblen
  have hlen := (w.file h).readInner_count w.mem buff offset blen
  have hnonneg : offset.toInt = offset.toNat := by
    rw [BitVec.toInt_eq_toNat_cond] at hoffset ⊢
    split_ifs at hoffset ⊢ <;> omega
  rw [ReadView.count, if_neg (not_lt.mpr hoffset)] at hlen
  simp only [World.step, OssFile.io, OssFile.read_some hstub]
  rw [toInt_of_lt (by omega), hlen, hnonneg]
  split_ifs <;> omega

theorem EndsAt.unique {m n : ℤ} (hm : EndsAt w h m) (hn : EndsAt w h n)
    (hmlt : 0 ≤ m ∧ m < 2 ^ 63) (hnlt : 0 ≤ n ∧ n < 2 ^ 63) : m = n := by
  have hm := hm 0 0 (BitVec.allOnes 64) (by decide) (by decide)
  have hn := hn 0 0 (BitVec.allOnes 64) (by decide) (by decide)
  have hzero : (0 : Word).toInt = 0 := rfl
  have hones : ((BitVec.allOnes 64).toNat : ℤ) = 2 ^ 64 - 1 := by decide
  rw [hzero, hones] at hm hn
  rw [hm] at hn
  split_ifs at hn <;> omega

theorem fstatSize_of_stub {i : ℕ} (hstub : (w.file h).stub = some i) :
    fstatSize w h = (w.fs.stubs.get i).stat.size.toInt := by
  simp only [fstatSize, World.step, OssFile.io, OssFile.fstat, hstub]

theorem fstatSize_bounds (hagree : w.fs.SizesAgree) {i : ℕ} (hstub : (w.file h).stub = some i) :
    0 ≤ fstatSize w h ∧ fstatSize w h < 2 ^ 63 := by
  rw [fstatSize_of_stub hstub, (hagree i).stat, toInt_of_lt (hagree i).lt]
  have hlt := (hagree i).lt
  omega

theorem opened_size {path : Str} {flags mode : CInt}
    (hagree : (w.step (.fileOpen h path flags mode)).1.fs.SizesAgree)
    (hok : (w.step (.fileOpen h path flags mode)).2.rc = XrdOssOK) :
    fstatSize (w.step (.fileOpen h path flags mode)).1 h =
        ((w.step (.fileOpen h path flags mode)).1.file h).size.toNat ∧
      ((w.step (.fileOpen h path flags mode)).1.file h).size.toNat < 2 ^ 63 := by
  obtain ⟨i, -, hstub, hview⟩ := World.opened_view hok
  have hsize : ((w.step (.fileOpen h path flags mode)).1.file h).size =
      ((w.step (.fileOpen h path flags mode)).1.fs.stubs.get i).size :=
    congrArg ReadView.size hview
  rw [fstatSize_of_stub hstub, (hagree i).stat, hsize, toInt_of_lt (hagree i).lt]
  exact ⟨rfl, (hagree i).lt⟩

theorem cached_of_not_reopens {c : Call} (hc : ¬ Reopens h w c)
    (hopen : ((w.step c).1.file h).stub ≠ none) :
    (w.file h).stub = ((w.step c).1.file h).stub ∧
      ((w.step c).1.file h).size = (w.file h).size := by
  by_cases huse : Uses h c
  · cases c with
    | ns c => exact huse.elim
    | fileOpen g path flags mode =>
      obtain rfl : g = h := huse
      have hrc : (w.fs.open path flags mode).1 < 0 := by
        by_contra hrc
        exact hc ⟨rfl, ((w.file g).open_rc_eq_ok_iff w.fs path flags mode).mpr (not_lt.mp hrc)⟩
      rw [World.step_open_file, if_pos rfl, OssFile.open_file_failed hrc]
      exact ⟨rfl, rfl⟩
    | fileClose g =>
      obtain rfl : g = h := huse
      rw [World.step_close_stub, if_pos rfl] at hopen
      exact absurd rfl hopen
    | io g c =>
      obtain rfl : g = h := huse
      have hsession := w.step_io_session g g c
      exact ⟨hsession.stub.symm, congrArg ReadView.size hsession.view⟩
    | stat path => exact huse.elim
  · rw [World.step_file_of_not_uses huse]
    exact ⟨rfl, rfl⟩

theorem statSize_step (hsound : w.Sound) {i : ℕ} (hstub : w.Holds h i) (c : Call) :
    ((w.step c).1.fs.stubs.get i).stat.size =
      (sizeStored h w c).getD (w.fs.stubs.get i).stat.size := by
  have hlt := hsound.held hstub
  cases c with
  | ns c => exact congrArg (fun s => s.stat.size) (BlackholeFS.ns_get_of_lt hlt c)
  | fileOpen g path flags mode =>
    change _ = (w.fs.stubs.get i).stat.size
    rw [World.step_open_fs]
    rcases w.fs.open_get path flags mode with ⟨hfile, -⟩ | ⟨-, hstubs⟩
    · exact congrArg StatBuf.size (hfile i).stat
    · rw [hstubs, Heap.alloc_get_of_ne _ _ hlt.ne]
  | fileClose g =>
    rw [World.step_close_fs, sizeStored, show (w.file h).stub = some i from hstub]
    cases hg : (w.file g).stub with
    | none =>
      rw [OssFile.close_none hg]
      rfl
    | some j =>
      rw [(OssFile.close_size hg w.fs w.mgr i).2]
      by_cases hstore : j = i ∧ (w.fs.stubs.get i).isOpenWrite
      · simp [hstore.1, hstore.2]
      · rw [if_neg fun hboth => hstore ⟨hboth.1.symm, hboth.2⟩]
        simp [hstore]
  | io g c => rfl
  | stat path => rfl

/-- From an `Open` of `h` on, as long as `h` is neither closed nor opened again, the
bound of `Read` stays and the size of the stub is the last one stored. The induction
is on the last call. -/
theorem sizes_exec (hsound : w.Sound) {i : ℕ} (hstub : w.Holds h i) {cs : List Call}
    (hcs : World.machine.EveryStep (fun w c => ¬ Reopens h w c) w cs)
    (hopen : ((World.machine.exec w cs).file h).stub ≠ none) :
    (World.machine.exec w cs).Holds h i ∧
      ((World.machine.exec w cs).file h).size = (w.file h).size ∧
      ((World.machine.exec w cs).fs.stubs.get i).stat.size =
        (World.machine.latest (sizeStored h) w cs).getD (w.fs.stubs.get i).stat.size := by
  induction cs using List.reverseRecOn with
  | nil => exact ⟨hstub, rfl, rfl⟩
  | append_singleton cs c ih =>
    obtain ⟨hcs, hc, -⟩ := (Machine.everyStep_append _ _ _ _).mp hcs
    rw [Machine.exec_append] at hopen ⊢
    obtain ⟨hsame, hcached⟩ := cached_of_not_reopens hc hopen
    obtain ⟨hheld, hsize, hstat⟩ := ih hcs (hsame ▸ hopen)
    have hlive := Machine.exec_invariant (M := World.machine) (I := World.Sound)
      (fun _ c hw => hw.step c) hsound cs
    refine ⟨hsame.symm.trans hheld, hcached.trans hsize, ?_⟩
    rw [Machine.latest_append, Machine.latest, Machine.latest, Option.none_or]
    refine (statSize_step hlive hheld c).trans ?_
    rw [hstat]
    cases sizeStored h (World.machine.exec w cs) c <;> rfl

end

theorem exists_last_open (h : ℕ) (cs : List Call)
    (hopen : ((World.machine.exec {} cs).file h).stub ≠ none) :
    ∃ pre path flags mode post, LastOpen h cs pre path flags mode post := by
  induction cs using List.reverseRecOn with
  | nil => exact absurd rfl hopen
  | append_singleton cs c ih =>
    by_cases hc : Reopens h (World.machine.exec {} cs) c
    · cases c with
      | fileOpen g path flags mode =>
        obtain ⟨rfl, hok⟩ := hc
        exact ⟨cs, path, flags, mode, [], ⟨rfl, hok, trivial⟩⟩
      | _ => exact hc.elim
    · rw [Machine.exec_append] at hopen
      obtain ⟨hsame, -⟩ := cached_of_not_reopens hc hopen
      obtain ⟨pre, path, flags, mode, post, hlast⟩ := ih (hsame ▸ hopen)
      refine ⟨pre, path, flags, mode, post ++ [c], ?_, hlast.ok, ?_⟩
      · rw [hlast.split, List.append_assoc, List.cons_append]
      · refine (Machine.everyStep_append _ _ _ _).mpr ⟨hlast.last, ?_, trivial⟩
        rw [← Machine.exec_append, List.append_assoc, List.singleton_append, ← hlast.split]
        exact hc

/-- In every reachable state, an open handle has a latest `Open`, and `Read` ends the
file where `Fstat` reported it right after that. That is where `Fstat` reports it now
unless the last `Close` since then which stored a size in the stub stored another. -/
theorem fstat_read_agree (cs : List Call)
    (hcs : World.machine.logged.EveryStep SizesBelow ({}, []) cs) (h : ℕ)
    (hopen : ((World.machine.exec {} cs).file h).stub ≠ none) :
    (∃ pre path flags mode post, LastOpen h cs pre path flags mode post) ∧
      ∀ pre path flags mode post, LastOpen h cs pre path flags mode post →
        let opened := World.machine.exec {} (pre ++ [.fileOpen h path flags mode])
        let w := World.machine.exec {} cs
        EndsAt w h (fstatSize opened h) ∧
          (EndsAt w h (fstatSize w h) ↔
            ∀ n, World.machine.latest (sizeStored h) opened post = some n →
              n.toInt = fstatSize opened h) := by
  refine ⟨exists_last_open h cs hopen, fun pre path flags mode post hlast => ?_⟩
  intro opened w
  have hsplit : cs = (pre ++ [.fileOpen h path flags mode]) ++ post := by
    rw [hlast.split, List.append_assoc, List.singleton_append]
  have hrun : w = World.machine.exec opened post := by
    rw [← Machine.exec_append, ← hsplit]
  have hagree : w.fs.SizesAgree := by
    have hend := World.sizesAgree_exec hcs
    rwa [Machine.exec_logged_fst] at hend
  have hopened : opened.fs.SizesAgree := by
    rw [hsplit] at hcs
    have hend := World.sizesAgree_exec ((Machine.everyStep_append _ _ _ _).mp hcs).1
    rwa [Machine.exec_logged_fst] at hend
  have hstep : opened = ((World.machine.exec {} pre).step (.fileOpen h path flags mode)).1 :=
    Machine.exec_append _ _ _
  obtain ⟨hreport, hlt⟩ : fstatSize opened h = (opened.file h).size.toNat ∧
      (opened.file h).size.toNat < 2 ^ 63 := by
    rw [hstep] at hopened ⊢
    exact opened_size hopened hlast.ok
  obtain ⟨i, hstub⟩ : ∃ i, opened.Holds h i := by
    obtain ⟨i, -, hstub, -⟩ := World.opened_view hlast.ok
    exact ⟨i, hstep ▸ hstub⟩
  obtain ⟨hheld, hsize, hstat⟩ :
      w.Holds h i ∧ (w.file h).size = (opened.file h).size ∧
        (w.fs.stubs.get i).stat.size = (World.machine.latest (sizeStored h) opened post).getD
          (opened.fs.stubs.get i).stat.size := by
    rw [hrun]
    exact sizes_exec (World.Sound.exec _) hstub hlast.last (hrun ▸ hopen)
  have hends : EndsAt w h (fstatSize opened h) := by
    rw [hreport, ← hsize]
    exact read_ends_at hheld (by rw [hsize]; exact hlt)
  refine ⟨hends, ?_⟩
  have hnow : EndsAt w h (fstatSize w h) ↔ fstatSize w h = fstatSize opened h :=
    ⟨fun hnow => hnow.unique hends (fstatSize_bounds hagree hheld) (by omega),
      fun heq => heq ▸ hends⟩
  rw [hnow, fstatSize_of_stub hheld, hstat, fstatSize_of_stub hstub]
  cases World.machine.latest (sizeStored h) opened post with
  | none => simp
  | some n => simp

def grownUnderReader : List Call :=
  [.fileOpen 0 "/f".toList O_WRONLY 0o644, .fileOpen 1 "/f".toList O_RDONLY 0,
   .io 0 (.write 0 10), .fileClose 0]

theorem fstat_read_agree_grown :
    EndsAt (World.machine.exec {} grownUnderReader) 1 0 ∧
      fstatSize (World.machine.exec {} grownUnderReader) 1 = 10 := by
  have hlast : LastOpen 1 grownUnderReader [.fileOpen 0 "/f".toList O_WRONLY 0o644] "/f".toList
      O_RDONLY 0 [.io 0 (.write 0 10), .fileClose 0] :=
    ⟨rfl, by decide, by simp [Reopens], by simp [Reopens], trivial⟩
  have hread := (fstat_read_agree grownUnderReader
    ⟨trivial, trivial, trivial, by unfold SizesBelow; decide, trivial⟩ 1 (by decide)).2
    _ _ _ _ _ hlast
  exact ⟨hread.1, by decide⟩

theorem fstat_exceeds_read :
    ¬ EndsAt (World.machine.exec {} grownUnderReader) 1
      (fstatSize (World.machine.exec {} grownUnderReader) 1) := by
  intro hends
  have hread := hends 0 0 1 (by decide) (by decide)
  revert hread
  decide

end XrdBlackhole
