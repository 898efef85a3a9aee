import XrdBlackhole.System

/-!
# Sessions and their histories

What a handle has done since its latest successful `Open` is a function of the
history. `Counts` relates the counters of the handles to it, `World.Sound` says
that handles name allocated stubs. Both hold in every reachable world. The step
lemmas say what a call leaves alone.
-/

namespace XrdBlackhole

abbrev Past := Machine.History Call Reply

def bytesAccepted : IoCall → Reply → ℕ
  | .write _ blen, _ => blen.toNat
  | .writeAio _ nbytes, _ => nbytes.toNat
  | _, _ => 0

def bytesReturned : IoCall → Reply → ℕ
  | .read _ _ _, r | .readRaw _ _ _, r | .readV _, r => r.rc.toNat
  | .readAio _ _ _, r => r.result.toNat
  | _, _ => 0

def sessionSum (weight : IoCall → Reply → ℕ) (h : ℕ) : Past → ℕ
  | [] => 0
  | (.fileOpen g _ _ _, r) :: past =>
    if g = h ∧ r.rc = XrdOssOK then 0 else sessionSum weight h past
  | (.io g c, r) :: past =>
    if g = h then sessionSum weight h past + weight c r else sessionSum weight h past
  | _ :: past => sessionSum weight h past

theorem sessionSum_eq_zero {v u : IoCall → Reply → ℕ} (hvu : ∀ c r, v c r = 0 → u c r = 0)
    {h : ℕ} {past : Past} (hv : sessionSum v h past = 0) : sessionSum u h past = 0 := by
  induction past with
  | nil => rfl
  | cons e past ih =>
    obtain ⟨c, r⟩ := e
    cases c with
    | ns c => exact ih hv
    | fileOpen g path flags mode =>
      simp only [sessionSum] at hv ⊢
      split_ifs at hv ⊢
      · rfl
      · exact ih hv
    | fileClose g => exact ih hv
    | io g c =>
      simp only [sessionSum] at hv ⊢
      split_ifs at hv ⊢
      · rw [ih (Nat.eq_zero_of_add_eq_zero_right hv),
          hvu c r (Nat.eq_zero_of_add_eq_zero_left hv)]
      · exact ih hv
    | stat path => exact ih hv

def writeCall : IoCall → ℕ
  | .write _ _ | .writeAio _ _ => 1
  | _ => 0

def writesIssued : ℕ → Past → ℕ := sessionSum fun c _ => writeCall c

def accepted : ℕ → Past → ℕ := sessionSum bytesAccepted

theorem accepted_eq_zero {h : ℕ} {past : Past} (hnone : writesIssued h past = 0) :
    accepted h past = 0 := by
  refine sessionSum_eq_zero (fun c _ hc => ?_) hnone
  cases c <;> first | rfl | exact absurd hc Nat.one_ne_zero

def returned : ℕ → Past → ℕ := sessionSum bytesReturned

def lastFlags (h : ℕ) : Past → Option CInt
  | [] => none
  | (.fileOpen g _ flags _, r) :: past =>
    if g = h ∧ r.rc = XrdOssOK then some flags else lastFlags h past
  | _ :: past => lastFlags h past

structure SameSession (f f' : OssFile) : Prop where
  stub : f'.stub = f.stub
  path : f'.path = f.path
  view : f'.toReadView = f.toReadView
  stats : f'.stats = f.stats

namespace OssFile

theorem read_session (f : OssFile) (mem : Mem) (buff : ℕ) (offset blen : Word) :
    SameSession f (f.read mem buff offset blen).2.2 := by
  cases hstub : f.stub with
  | none =>
    rw [read_none hstub]
    exact ⟨rfl, rfl, rfl, rfl⟩
  | some i =>
    rw [read_some hstub]
    split_ifs <;> exact ⟨rfl, rfl, rfl, rfl⟩

theorem readV_session (f : OssFile) (mem : Mem) (segs : IOVecs) :
    SameSession f (f.readV mem segs.1).2.2 := by
  cases hstub : f.stub with
  | none =>
    by_cases hsegs : segs.1 = []
    · rw [hsegs]
      exact ⟨rfl, rfl, rfl, rfl⟩
    · rw [readV_none hstub mem hsegs]
      exact ⟨rfl, rfl, rfl, rfl⟩
  | some i =>
    obtain ⟨s, _, hread⟩ := readV_some hstub mem segs
    rw [hread]
    exact ⟨rfl, rfl, rfl, rfl⟩

theorem preposition_session (f : OssFile) : SameSession f f.preposition.2 := by
  cases hstub : f.stub with
  | none =>
    rw [preposition_none hstub]
    exact ⟨rfl, rfl, rfl, rfl⟩
  | some i =>
    rw [preposition_some hstub]
    exact ⟨rfl, rfl, rfl, rfl⟩

theorem io_session (f : OssFile) (fs : BlackholeFS) (mem : Mem) (c : IoCall) :
    SameSession f (f.io fs mem c).2.2 := by
  cases c with
  | write offset blen => exact ⟨rfl, rfl, rfl, rfl⟩
  | writeAio offset nbytes => exact ⟨rfl, rfl, rfl, rfl⟩
  | read buff offset blen => exact f.read_session mem buff offset blen
  | readAio buff offset nbytes => exact f.read_session mem buff offset nbytes
  | readRaw buff offset blen => exact f.read_session mem buff offset blen
  | readV segs => exact f.readV_session mem segs
  | preposition offset blen => exact f.preposition_session
  | fstat => exact ⟨rfl, rfl, rfl, rfl⟩

def Grows (x x' : Word) (n : ℕ) : Prop := x' = x + BitVec.ofNat 64 n

theorem grows_zero (x : Word) : Grows x x 0 := by
  simp [Grows]

theorem read_counts (f : OssFile) (mem : Mem) (buff : ℕ) (offset blen : Word) :
    (f.read mem buff offset blen).2.2.written = f.written ∧
      Grows f.readBytes (f.read mem buff offset blen).2.2.readBytes
        (f.read mem buff offset blen).1.toNat := by
  cases hstub : f.stub with
  | none =>
    rw [read_none hstub]
    exact ⟨rfl, grows_zero _⟩
  | some i =>
    rw [read_some hstub]
    generalize f.readInner mem buff offset blen = r
    dsimp only
    split_ifs with hpos
    · refine ⟨rfl, ?_⟩
      have hval : r.1.toInt.toNat = r.1.toNat := by
        rw [BitVec.toInt_eq_toNat_cond] at hpos ⊢
        split_ifs at hpos ⊢ <;> omega
      simp [Grows, hval]
    · have hzero : r.1.toInt.toNat = 0 := by omega
      rw [hzero]
      exact ⟨rfl, grows_zero _⟩

theorem readV_counts (f : OssFile) (mem : Mem) (segs : IOVecs) :
    (f.readV mem segs.1).2.2.written = f.written ∧
      Grows f.readBytes (f.readV mem segs.1).2.2.readBytes (f.readV mem segs.1).1.toNat := by
  cases hstub : f.stub with
  | none =>
    by_cases hsegs : segs.1 = []
    · rw [hsegs]
      exact ⟨rfl, grows_zero _⟩
    · rw [readV_none hstub mem hsegs]
      exact ⟨rfl, grows_zero _⟩
  | some i =>
    obtain ⟨s, htotal, hread⟩ := readV_some hstub mem segs
    rw [hread]
    refine ⟨rfl, ?_⟩
    simp [Grows, toInt_of_lt htotal]

theorem preposition_counts (f : OssFile) :
    f.preposition.2.written = f.written ∧ f.preposition.2.readBytes = f.readBytes := by
  cases hstub : f.stub with
  | none =>
    rw [preposition_none hstub]
    exact ⟨rfl, rfl⟩
  | some i =>
    rw [preposition_some hstub]
    exact ⟨rfl, rfl⟩

theorem io_counts (f : OssFile) (fs : BlackholeFS) (mem : Mem) (c : IoCall) :
    Grows f.written (f.io fs mem c).2.2.written (bytesAccepted c (f.io fs mem c).1) ∧
      Grows f.readBytes (f.io fs mem c).2.2.readBytes (bytesReturned c (f.io fs mem c).1) := by
  have hread : ∀ buff offset blen,
      Grows f.written (f.read mem buff offset blen).2.2.written 0 := by
    intro buff offset blen
    rw [(f.read_counts mem buff offset blen).1]
    exact grows_zero _
  cases c with
  | write offset blen =>
    refine ⟨?_, grows_zero _⟩
    simp only [Grows, OssFile.io, OssFile.write, written, bytesAccepted, BitVec.ofNat_toNat,
      BitVec.setWidth_eq]
    ac_rfl
  | writeAio offset nbytes =>
    refine ⟨?_, grows_zero _⟩
    simp only [Grows, OssFile.io, OssFile.writeAio, written, bytesAccepted, BitVec.ofNat_toNat,
      BitVec.setWidth_eq]
    ac_rfl
  | read buff offset blen => exact ⟨hread _ _ _, (f.read_counts mem buff offset blen).2⟩
  | readAio buff offset nbytes => exact ⟨hread _ _ _, (f.read_counts mem buff offset nbytes).2⟩
  | readRaw buff offset blen => exact ⟨hread _ _ _, (f.read_counts mem buff offset blen).2⟩
  | readV segs =>
    refine ⟨?_, (f.readV_counts mem segs).2⟩
    have hsame : (f.io fs mem (.readV segs)).2.2.written = f.written := (f.readV_counts mem segs).1
    rw [hsame]
    exact grows_zero _
  | preposition offset blen =>
    have hsame := f.preposition_counts
    simp only [OssFile.io, hsame.1, hsame.2]
    exact ⟨grows_zero _, grows_zero _⟩
  | fstat => exact ⟨grows_zero _, grows_zero _⟩

end OssFile

section
variable {f : OssFile} {fs : BlackholeFS} {path : Str} {flags mode : CInt}

namespace OssFile

theorem open_file_failed (hrc : (fs.open path flags mode).1 < 0) :
    (f.open fs path flags mode).2.2 = { f with path := path } := by
  rw [open_failed hrc]

theorem open_file_ok (hrc : 0 ≤ (fs.open path flags mode).1) :
    (f.open fs path flags mode).2.2 =
      adopt { f with path := path } (fs.open path flags mode).2 path flags := by
  rw [open_ok hrc]

theorem close_session (f : OssFile) (fs : BlackholeFS) (mgr : Snapshot) :
    (f.close fs mgr).2.2.2.written = f.written ∧
      (f.close fs mgr).2.2.2.readBytes = f.readBytes ∧
      (f.close fs mgr).2.2.2.stats.wasWrite = f.stats.wasWrite ∧
      (f.close fs mgr).2.2.2.path = f.path ∧ (f.close fs mgr).2.2.2.stub = none := by
  cases hstub : f.stub with
  | none =>
    rw [close_none hstub]
    exact ⟨rfl, rfl, rfl, rfl, hstub⟩
  | some i =>
    rw [close_some hstub]
    exact ⟨rfl, rfl, rfl, rfl, rfl⟩

end OssFile

namespace World

theorem step_close_stub (w : World) (h g : ℕ) :
    ((w.step (.fileClose h)).1.file g).stub = if g = h then none else (w.file g).stub := by
  rw [step_close_file]
  split_ifs
  · exact ((w.file h).close_session w.fs w.mgr).2.2.2.2
  · rfl

theorem step_io_session (w : World) (h g : ℕ) (c : IoCall) :
    SameSession (w.file g) ((w.step (.io h c)).1.file g) := by
  rw [step_io_file]
  split_ifs with hg
  · exact hg ▸ (w.file h).io_session w.fs w.mem c
  · exact ⟨rfl, rfl, rfl, rfl⟩

theorem opened_view {w : World} {h : ℕ}
    (hok : (w.step (.fileOpen h path flags mode)).2.rc = XrdOssOK) :
    ∃ i, (w.step (.fileOpen h path flags mode)).1.fs.files[path]? = some i ∧
      ((w.step (.fileOpen h path flags mode)).1.file h).stub = some i ∧
      ((w.step (.fileOpen h path flags mode)).1.file h).toReadView =
        ((w.step (.fileOpen h path flags mode)).1.fs.stubs.get i).view := by
  have hrc := ((w.file h).open_rc_eq_ok_iff w.fs path flags mode).mp hok
  obtain ⟨i, hbound⟩ := BlackholeFS.open_bound (BlackholeFS.not_refused_of_rc hrc) mode
  have hfile := w.step_open_file h h path flags mode
  rw [if_pos rfl, OssFile.open_file_ok hrc] at hfile
  rw [hfile, step_open_fs]
  exact ⟨i, hbound, hbound, OssFile.adopt_view hbound _ _⟩

end World

theorem accepted_opened {s : World × Past} {h : ℕ}
    (hok : (s.1.step (.fileOpen h path flags mode)).2.rc = XrdOssOK) :
    accepted h (World.machine.logged.next s (.fileOpen h path flags mode)).2 = 0 :=
  if_pos ⟨rfl, hok⟩

theorem returned_opened {s : World × Past} {h : ℕ}
    (hok : (s.1.step (.fileOpen h path flags mode)).2.rc = XrdOssOK) :
    returned h (World.machine.logged.next s (.fileOpen h path flags mode)).2 = 0 :=
  if_pos ⟨rfl, hok⟩

end

structure Ledger (f : OssFile) (accepted returned : ℕ) (mode : Option CInt) : Prop where
  written : f.written = BitVec.ofNat 64 accepted
  readBytes : f.readBytes = BitVec.ofNat 64 returned
  wasWrite {flags : CInt} : mode = some flags → f.stats.wasWrite = !decide (readOnly flags)

namespace Ledger
variable {f : OssFile} {a r : ℕ} {fl : Option CInt}

theorem adopt (f : OssFile) (fs : BlackholeFS) (path : Str) (flags : CInt) :
    Ledger (f.adopt fs path flags) 0 0 (some flags) :=
  ⟨rfl, rfl, fun h => by cases h; rfl⟩

theorem close (hf : Ledger f a r fl) (fs : BlackholeFS) (mgr : Snapshot) :
    Ledger (f.close fs mgr).2.2.2 a r fl := by
  obtain ⟨hwritten, hread, hmode, _, _⟩ := f.close_session fs mgr
  exact ⟨hwritten.trans hf.written, hread.trans hf.readBytes, fun h => hmode.trans (hf.wasWrite h)⟩

theorem io (hf : Ledger f a r fl) (fs : BlackholeFS) (mem : Mem) (c : IoCall) :
    Ledger (f.io fs mem c).2.2 (a + bytesAccepted c (f.io fs mem c).1)
      (r + bytesReturned c (f.io fs mem c).1) fl := by
  obtain ⟨hwritten, hread⟩ := f.io_counts fs mem c
  refine ⟨?_, ?_, fun h => ?_⟩
  · rw [hwritten, hf.written, BitVec.ofNat_add]
  · rw [hread, hf.readBytes, BitVec.ofNat_add]
  · rw [(f.io_session fs mem c).stats]
    exact hf.wasWrite h

end Ledger

def Counts (w : World) (past : Past) : Prop :=
  ∀ h, Ledger (w.file h) (accepted h past) (returned h past) (lastFlags h past)

namespace Counts
variable {w : World} {past : Past}

theorem init : Counts {} [] :=
  fun _ => ⟨rfl, rfl, fun h => by cases h⟩

theorem fileOpen (hw : Counts w past) (h : ℕ) (path : Str) (flags mode : CInt) :
    Counts (w.step (.fileOpen h path flags mode)).1
      ((.fileOpen h path flags mode, (w.step (.fileOpen h path flags mode)).2) :: past) := by
  intro g
  have hok := (w.file h).open_rc_eq_ok_iff w.fs path flags mode
  rw [World.step_open_file]
  simp only [World.step, accepted, returned, sessionSum, lastFlags, hok, eq_comm (a := h)]
  by_cases hg : g = h
  · rcases lt_or_ge (w.fs.open path flags mode).1 0 with hrc | hrc
    · simp only [hg, not_le.mpr hrc, and_false, if_true, if_false, OssFile.open_file_failed hrc]
      have hold := hw h
      exact ⟨hold.written, hold.readBytes, hold.wasWrite⟩
    · simp only [hg, hrc, and_self, if_true, OssFile.open_file_ok hrc]
      exact Ledger.adopt _ _ _ _
  · simp only [hg, false_and, if_false]
    exact hw g

theorem fileClose (hw : Counts w past) (h : ℕ) :
    Counts (w.step (.fileClose h)).1 ((.fileClose h, (w.step (.fileClose h)).2) :: past) := by
  intro g
  rw [World.step_close_file]
  split_ifs with hg
  · exact hg ▸ (hw h).close w.fs w.mgr
  · exact hw g

theorem io (hw : Counts w past) (h : ℕ) (c : IoCall) :
    Counts (w.step (.io h c)).1 ((.io h c, (w.step (.io h c)).2) :: past) := by
  intro g
  rw [World.step_io_file]
  simp only [World.step, accepted, returned, sessionSum, lastFlags, eq_comm (a := h)]
  split_ifs with hg
  · exact hg ▸ (hw h).io w.fs w.mem c
  · exact hw g

theorem step (hw : Counts w past) (c : Call) :
    Counts (w.step c).1 ((c, (w.step c).2) :: past) := by
  cases c with
  | ns c => exact hw
  | fileOpen h path flags mode => exact hw.fileOpen h path flags mode
  | fileClose h => exact hw.fileClose h
  | io h c => exact hw.io h c
  | stat path => exact hw

theorem exec (cs : List Call) :
    Counts (World.machine.logged.exec ({}, []) cs).1 (World.machine.logged.exec ({}, []) cs).2 :=
  Machine.exec_invariant (M := World.machine.logged) (I := fun s => Counts s.1 s.2)
    (fun _ c hs => hs.step c) init cs

end Counts

namespace World

structure Sound (w : World) : Prop where
  fs : w.fs.Sound
  held {h i : ℕ} : (w.file h).stub = some i → i < w.fs.stubs.next

namespace Sound
variable {w : World}

theorem init : ({} : World).Sound :=
  ⟨BlackholeFS.Sound.init, fun h => by cases h⟩

theorem of_held {w' : World} (hw : w.Sound) (hfs : w'.fs.Sound)
    (hnext : w.fs.stubs.next ≤ w'.fs.stubs.next)
    (hheld : ∀ h i, (w'.file h).stub = some i →
      (w.file h).stub = some i ∨ ∃ p : Str, w'.fs.files[p]? = some i) : w'.Sound := by
  refine ⟨hfs, fun {h i} hstub => ?_⟩
  rcases hheld h i hstub with hold | ⟨p, hbound⟩
  · exact (hw.held hold).trans_le hnext
  · exact hfs.bound hbound

theorem step (hw : w.Sound) (c : Call) : (w.step c).1.Sound := by
  cases c with
  | ns c => exact hw.of_held (hw.fs.ns c) (w.fs.ns_next_le c) fun _ _ hstub => .inl hstub
  | fileOpen h path flags mode =>
    apply hw.of_held
    · rw [step_open_fs]
      exact hw.fs.open path flags mode
    · rw [step_open_fs]
      exact w.fs.open_next_le path flags mode
    · intro g i hstub
      rw [step_open_file] at hstub
      rw [step_open_fs]
      split_ifs at hstub with hg
      · rcases lt_or_ge (w.fs.open path flags mode).1 0 with hrc | hrc
        · rw [OssFile.open_file_failed hrc] at hstub
          exact .inl (hg ▸ hstub)
        · rw [OssFile.open_file_ok hrc] at hstub
          exact .inr ⟨path, hstub⟩
      · exact .inl hstub
  | fileClose h =>
    have hnext : w.fs.stubs.next ≤ (w.step (.fileClose h)).1.fs.stubs.next := by
      rw [step_close_fs, OssFile.close_stubs_next]
    refine hw.of_held (hw.fs.of_sub hnext fun p i hp => ?_) hnext fun g i hg => .inl ?_
    · rwa [step_close_fs, OssFile.close_files] at hp
    · rw [step_close_stub] at hg
      split_ifs at hg
      exact hg
  | io h c =>
    refine hw.of_held hw.fs le_rfl fun g i hg => .inl ?_
    rwa [(w.step_io_session h g c).stub] at hg
  | stat path => exact hw

theorem exec (cs : List Call) : (World.machine.exec {} cs).Sound :=
  Machine.exec_invariant (M := World.machine) (fun _ c hw => hw.step c) init cs

end Sound

end World

end XrdBlackhole
