import XrdBlackhole.Store
import XrdBlackhole.Listing
import XrdBlackhole.StubStep
import XrdBlackhole.StubIdentity
import XrdBlackhole.OpenResult

/-!
# Serial clients see a store

`World.serve` carries out one whole request on the plugin. `Holds` says that between
two requests no stub is flagged and that a path leads to the file which the store has
there. Each request keeps this and gets an answer which the store allows.
-/

namespace XrdBlackhole

def Stub.file (s : Stub) : StoredFile where
  size := s.size.toNat
  ino := s.stat.ino
  served := s.view.content

structure Stub.Sized (s : Stub) : Prop where
  fits : s.size.toNat < 2 ^ 63
  statSize : s.stat.size = s.size
  mode : s.stat.mode = 0

namespace BlackholeFS

/-- The plugin has the files of the store, and `writes` is the stub which is open for
writing, if there is one. -/
structure Keeps (fs : BlackholeFS) (s : Store) (writes : Option ℕ) : Prop where
  identified : fs.Identified
  sized {i : ℕ} : i < fs.stubs.next → (fs.stubs.get i).Sized
  flagged {i : ℕ} : i < fs.stubs.next → ((fs.stubs.get i).isOpenWrite = true ↔ writes = some i)
  files : ∀ p, s p = fs.files[p]?.map fun i => (fs.stubs.get i).file

def Holds (fs : BlackholeFS) (s : Store) : Prop := fs.Keeps s none

end BlackholeFS

namespace World

def session (w : World) (h : ℕ) (path : Str) (flags mode : CInt) (ios : List IoCall) :
    World × List Reply :=
  let r := w.step (.fileOpen h path flags mode)
  if r.2.rc < 0 then (r.1, [r.2])
  else
    let calls := ios.map (Call.io h)
    let w' := machine.exec r.1 calls
    let c := w'.step (.fileClose h)
    (c.1, r.2 :: machine.outputs r.1 calls ++ [c.2])

def serve (w : World) : Job → World × Answer
  | .ns c => let r := w.step (.ns c); (r.1, { replies := [r.2] })
  | .session h path flags mode ios =>
    let r := w.session h path flags mode ios; (r.1, { replies := r.2 })
  | .stat path => let r := w.step (.stat path); (r.1, { replies := [r.2] })
  | .list path => (w, { names := w.fs.readdir path [] })

def jobs : Machine World Job Answer := ⟨serve⟩

end World

def Job.Fits : Job → Prop
  | .ns (.seed _ size _) => size.toNat < 2 ^ 63
  | .session _ _ _ _ ios => sent ios < 2 ^ 63
  | _ => True

def World.descriptors (w : World) : Job → ℕ
  | .ns c => w.fs.increments (.ns c)
  | .session _ path flags mode _ => w.fs.increments (.fsOpen path flags mode)
  | _ => 0

namespace BlackholeFS
variable {fs fs' : BlackholeFS} {s : Store} {writes : Option ℕ}

theorem Keeps.bound (h : fs.Keeps s writes) {p : Str} {i : ℕ} (hp : fs.files[p]? = some i) :
    s p = some (fs.stubs.get i).file := by
  rw [h.files, hp]
  rfl

theorem Keeps.unbound (h : fs.Keeps s writes) {p : Str} : s p = none ↔ fs.files[p]? = none := by
  rw [h.files, Option.map_eq_none_iff]

/-- The counter is above every inode, so the next stub is a new file. -/
theorem Keeps.fresh (h : fs.Keeps s writes) (hfits : fs.fdLast.toNat + 1 < 2 ^ 64) :
    s.Fresh (fs.fdLast + 1) := by
  intro p f hp hino
  rw [h.files] at hp
  obtain ⟨i, hi, rfl⟩ := Option.map_eq_some_iff.mp hp
  have hle := h.identified.le (h.identified.sound.bound hi)
  have hnext : (fs.fdLast + 1).toNat = fs.fdLast.toNat + 1 := toNat_add_of_lt (k := 1) hfits
  have hsame : (fs.stubs.get i).stat.ino = fs.fdLast + 1 := hino
  rw [hsame, hnext] at hle
  omega

theorem Holds.alloc {stub : Stub} (h : fs.Holds s) (hident : fs'.Identified) (hstub : stub.Sized)
    (hstubs : fs'.stubs = fs.stubs.alloc stub) {s' : Store}
    (hfiles : ∀ p, s' p = fs'.files[p]?.map fun i => (fs'.stubs.get i).file) :
    fs'.Keeps s' (if stub.isOpenWrite then some fs.stubs.next else none) := by
  have hcases : ∀ {i}, i < fs'.stubs.next → i < fs.stubs.next ∧ fs'.stubs.get i = fs.stubs.get i ∨
      i = fs.stubs.next ∧ fs'.stubs.get i = stub := by
    intro i hi
    rw [hstubs] at hi ⊢
    rcases Nat.lt_succ_iff_lt_or_eq.mp hi with hlt | rfl
    · exact .inl ⟨hlt, fs.stubs.alloc_get_of_lt stub hlt⟩
    · exact .inr ⟨rfl, fs.stubs.alloc_get_next stub⟩
  refine ⟨hident, fun {i} hi => ?_, fun {i} hi => ?_, hfiles⟩
  · rcases hcases hi with ⟨hlt, hget⟩ | ⟨_, hget⟩ <;> rw [hget]
    · exact h.sized hlt
    · exact hstub
  · rcases hcases hi with ⟨hlt, hget⟩ | ⟨rfl, hget⟩ <;> rw [hget]
    · rw [h.flagged hlt]
      split_ifs
      · simp [hlt.ne']
      · rfl
    · split_ifs with hopen <;> simp [hopen]

theorem Holds.alloc_kept (h : fs.Holds s) (hident : fs'.Identified) (stub : Stub)
    (hstub : stub.Sized) (hstubs : fs'.stubs = fs.stubs.alloc stub)
    (hfiles : ∀ p : Str, fs'.files[p]? = fs.files[p]?) :
    fs'.Keeps s (if stub.isOpenWrite then some fs.stubs.next else none) := by
  refine h.alloc hident hstub hstubs fun p => ?_
  rw [h.files, hfiles, hstubs]
  cases hp : fs.files[p]? with
  | none => rfl
  | some i =>
    rw [Option.map_some, Option.map_some,
      fs.stubs.alloc_get_of_lt stub (h.identified.sound.bound hp)]

theorem Holds.alloc_bound (h : fs.Holds s) (hident : fs'.Identified) (stub : Stub)
    (hstub : stub.Sized) (hstubs : fs'.stubs = fs.stubs.alloc stub) (path : Str)
    (hfiles : ∀ p : Str,
      fs'.files[p]? = if p = path then some fs.stubs.next else fs.files[p]?) :
    fs'.Keeps (Function.update s path (some stub.file))
      (if stub.isOpenWrite then some fs.stubs.next else none) := by
  refine h.alloc hident hstub hstubs fun p => ?_
  rw [hfiles, hstubs]
  by_cases hp : p = path
  · rw [hp, Function.update_self, if_pos rfl, Option.map_some, fs.stubs.alloc_get_next]
  · rw [Function.update_of_ne hp, if_neg hp, h.files]
    cases hp : fs.files[p]? with
    | none => rfl
    | some i =>
      rw [Option.map_some, Option.map_some,
        fs.stubs.alloc_get_of_lt stub (h.identified.sound.bound hp)]

theorem Holds.seed (h : fs.Holds s) (hfits : fs.fdLast.toNat + 1 < 2 ^ 64) (path : Str)
    (size : Word) (readtype : Str) (hsize : size.toNat < 2 ^ 63) :
    ∃ s', (fs.seed path size readtype).Holds s' ∧
      Store.Seeded s path size.toNat readtype s' := by
  have hident := (h.identified.seed hfits path size readtype).1
  let stub : Stub := .seeded size readtype (fs.fdLast + 1)
  have hsized : stub.Sized := ⟨hsize, rfl, rfl⟩
  cases hpath : fs.files[path]? with
  | some j =>
    refine ⟨s, h.alloc_kept hident stub hsized rfl fun p => ?_, .kept _ (h.bound hpath)⟩
    rw [seed_files, if_neg (by simp [hpath])]
  | none =>
    refine ⟨_, h.alloc_bound hident stub hsized rfl path fun p => ?_,
      .added stub.file (h.unbound.mpr hpath) (h.fresh hfits) rfl fun hzeros => ?_⟩
    · simp only [seed_files, hpath, and_true]
    · funext offset k
      have hkind : (readtype == random) = false := beq_eq_false_iff_ne.mpr hzeros
      simp [stub, Stub.file, Stub.view, Stub.seeded, ReadView.content, hkind]

theorem Holds.createDefaults (h : fs.Holds s) (hfits : fs.fdLast.toNat + 3 < 2 ^ 64)
    (path : Str) :
    ∃ s', (fs.createDefaults path).Holds s' ∧ Store.NsStep s (.createDefaults path) 0 s' := by
  obtain ⟨s₁, h₁, hs₁⟩ := h.seed (by omega) (path ++ "/testfile_zeros_1MiB".toList)
    (1 * 1024 * 1024) zeros (by decide)
  have hfd₁ := (h.identified.seed (by omega) (path ++ "/testfile_zeros_1MiB".toList)
    (1 * 1024 * 1024) zeros).2
  obtain ⟨s₂, h₂, hs₂⟩ := h₁.seed (by omega) (path ++ "/testfile_zeros_1GiB".toList)
    (1 * 1024 * 1024 * 1024) zeros (by decide)
  have hfd₂ := (h₁.identified.seed (by omega) (path ++ "/testfile_zeros_1GiB".toList)
    (1 * 1024 * 1024 * 1024) zeros).2
  obtain ⟨s₃, h₃, hs₃⟩ := h₂.seed (by omega) (path ++ "/testfile_zeros_10GiB".toList)
    (10 * 1024 * 1024 * 1024) zeros (by decide)
  exact ⟨s₃, h₃, .createDefaults hs₁ hs₂ hs₃⟩

theorem Holds.of_stubs (h : fs.Holds s) (hident : fs'.Identified) (hstubs : fs'.stubs = fs.stubs)
    {s' : Store} (hfiles : ∀ p, s' p = fs'.files[p]?.map fun i => (fs.stubs.get i).file) :
    fs'.Holds s' :=
  ⟨hident, fun hi => hstubs ▸ h.sized (hstubs ▸ hi), fun hi => hstubs ▸ h.flagged (hstubs ▸ hi),
    by rwa [hstubs]⟩

theorem Holds.rename (h : fs.Holds s) (src dst : Str) :
    ∃ s', (fs.rename src dst).2.Holds s' ∧
      Store.NsStep s (.rename src dst) (fs.rename src dst).1 s' := by
  cases hsrc : fs.files[src]? with
  | none =>
    rw [rename_unbound hsrc]
    exact ⟨s, h, .renameMissing (h.unbound.mpr hsrc)⟩
  | some stub =>
    have hrc : (fs.rename src dst).1 = 0 := by simp [BlackholeFS.rename, hsrc]
    have hident := h.identified.of_same (h.identified.sound.rename src dst)
      (by rw [rename_stubs]) (fun _ => by rw [rename_stubs]) (by rw [rename_fdLast])
    rw [hrc]
    refine ⟨_, h.of_stubs hident (rename_stubs ..) fun p => ?_, .rename _ (h.bound hsrc)⟩
    rw [rename_bound hsrc]
    split_ifs
    · rfl
    · rfl
    · exact h.files p

theorem Holds.unlink (h : fs.Holds s) (fname : Str) :
    ∃ s', (fs.unlink fname).2.Holds s' ∧
      Store.NsStep s (.unlink fname) (fs.unlink fname).1 s' := by
  cases hfile : fs.files[fname]? with
  | none =>
    have hsame : fs.unlink fname = (-ENOENT, fs) := by simp [BlackholeFS.unlink, hfile]
    rw [hsame]
    exact ⟨s, h, .unlinkMissing (h.unbound.mpr hfile)⟩
  | some stub =>
    have hrc : (fs.unlink fname).1 = 0 := by simp [BlackholeFS.unlink, hfile]
    have hident := h.identified.of_same (h.identified.sound.unlink fname)
      (by rw [unlink_stubs]) (fun _ => by rw [unlink_stubs]) (by rw [unlink_fdLast])
    rw [hrc]
    refine ⟨_, h.of_stubs hident (unlink_stubs ..) fun p => ?_, .unlink _ (h.bound hfile)⟩
    rw [unlink_files]
    by_cases hp : p = fname
    · rw [if_pos hp, hp, Function.update_self]
      rfl
    · rw [if_neg hp, Function.update_of_ne hp]
      exact h.files p

theorem Holds.ns (h : fs.Holds s) (c : NsCall) (hsize : (Job.ns c).Fits)
    (hfits : fs.fdLast.toNat + fs.increments (.ns c) < 2 ^ 31) :
    ∃ s', (fs.ns c).2.Holds s' ∧ Store.NsStep s c (fs.ns c).1 s' := by
  cases c with
  | seed path size readtype =>
    obtain ⟨s', hs', hseeded⟩ := h.seed (by simp only [increments] at hfits; omega) path size
      readtype hsize
    exact ⟨s', hs', .seed hseeded⟩
  | createDefaults path =>
    exact h.createDefaults (by simp only [increments] at hfits; omega) path
  | rename src dst => exact h.rename src dst
  | unlink fname => exact h.unlink fname

end BlackholeFS

theorem Stub.Sized.stat_file {s : Stub} (h : s.Sized) (hdev : s.stat.dev = 1) :
    s.stat = s.file.stat := by
  have hsize := h.statSize
  have hmode := h.mode
  simp only [StoredFile.stat, Stub.file, BitVec.ofNat_toNat, BitVec.setWidth_eq, ← hsize, ← hdev,
    ← hmode]

theorem readInner_file {stub : Stub} (hstub : stub.Sized) (mem : Mem) (buff : ℕ)
    (offset blen : Word) :
    (stub.view.readInner mem buff offset blen).1.toInt = stub.file.available offset blen ∧
      (stub.view.readInner mem buff offset blen).2 = stub.file.fill mem buff offset blen := by
  have hcount := stub.view.readInner_count mem buff offset blen
  have hle : stub.view.count offset blen ≤ stub.size.toNat := by
    rw [ReadView.count]
    split_ifs
    · exact Nat.zero_le _
    · exact (min_le_right _ _).trans (Nat.sub_le _ _)
  have hfits := hstub.fits
  refine ⟨?_, funext fun a => stub.view.readInner_mem mem buff offset blen a⟩
  rw [toInt_of_lt (by omega), hcount]
  rfl

theorem gather_file (stub : Stub) (mem : Mem) (segs : List IOVec) :
    stub.file.gather mem segs =
      (OssFile.vecTotal stub.view segs, OssFile.vecMem stub.view mem segs) := by
  induction segs generalizing mem with
  | nil => rfl
  | cons seg segs ih =>
    have hmem : ∀ blen, stub.file.fill mem seg.data seg.offset blen =
        (stub.view.readInner mem seg.data seg.offset blen).2 :=
      fun blen => (funext fun a => stub.view.readInner_mem mem seg.data seg.offset blen a).symm
    rw [StoredFile.gather, OssFile.vecTotal, OssFile.vecMem]
    by_cases hsize : seg.size.toInt ≤ 0
    · rw [if_pos hsize, if_pos hsize, if_pos hsize, ih, Nat.zero_add]
    · dsimp only
      rw [if_neg hsize, if_neg hsize, if_neg hsize, hmem, ih]
      rfl

structure OssFile.Caches (f : OssFile) (i : ℕ) (s : Stub) : Prop where
  stub : f.stub = some i
  view : f.toReadView = s.view

section
variable {f : OssFile} {fs : BlackholeFS} {i : ℕ}

theorem io_file (h : f.Caches i (fs.stubs.get i)) (hsized : (fs.stubs.get i).Sized)
    (hdev : (fs.stubs.get i).stat.dev = 1) (mem : Mem) {c : IoCall} (hbytes : c.bytes < 2 ^ 63) :
    (f.io fs mem c).1 = ((fs.stubs.get i).file.io mem c).2 ∧
      (f.io fs mem c).2.1 = ((fs.stubs.get i).file.io mem c).1 := by
  have hread : ∀ buff offset blen, (f.read mem buff offset blen).1 =
        (fs.stubs.get i).file.available offset blen ∧
      (f.read mem buff offset blen).2.1 = (fs.stubs.get i).file.fill mem buff offset blen := by
    intro buff offset blen
    rw [OssFile.read_some h.stub, h.view]
    exact readInner_file hsized mem buff offset blen
  cases c with
  | write offset blen => exact ⟨congrArg (Reply.mk · 0 {}) (toInt_of_lt hbytes), rfl⟩
  | writeAio offset nbytes =>
    exact ⟨congrArg (Reply.mk XrdOssOK · {}) (toInt_of_lt hbytes), rfl⟩
  | read buff offset blen =>
    exact ⟨congrArg (Reply.mk · 0 {}) (hread buff offset blen).1, (hread buff offset blen).2⟩
  | readAio buff offset nbytes =>
    exact ⟨congrArg (Reply.mk XrdOssOK · {}) (hread buff offset nbytes).1,
      (hread buff offset nbytes).2⟩
  | readRaw buff offset blen =>
    exact ⟨congrArg (Reply.mk · 0 {}) (hread buff offset blen).1, (hread buff offset blen).2⟩
  | readV segs =>
    have hlt := OssFile.vecTotal_lt (fs.stubs.get i).view segs
    simp only [OssFile.io, OssFile.readV_eq h.stub, h.view, StoredFile.io, gather_file,
      toInt_ofNat_of_lt hlt, and_self]
  | preposition offset blen =>
    simp only [OssFile.io, OssFile.preposition_some h.stub, StoredFile.io, and_self]
  | fstat =>
    simp only [OssFile.io, OssFile.fstat, h.stub, StoredFile.io, hsized.stat_file hdev, and_self]

end

theorem bytesAccepted_eq (c : IoCall) (r : Reply) : bytesAccepted c r = c.bytes := by
  cases c <;> rfl

structure World.CallsDone (w w' : World) (h : ℕ) (file : StoredFile) (ios : List IoCall) :
    Prop where
  mem : w'.mem = file.machine.exec w.mem ios
  fs : w'.fs = w.fs
  session : SameSession (w.file h) (w'.file h)
  written : (w'.file h).written = (w.file h).written + BitVec.ofNat 64 (sent ios)

theorem calls_done {w : World} {h i : ℕ} (hcaches : (w.file h).Caches i (w.fs.stubs.get i))
    (hsized : (w.fs.stubs.get i).Sized) (hdev : (w.fs.stubs.get i).stat.dev = 1)
    {ios : List IoCall} (hbytes : sent ios < 2 ^ 63) :
    World.machine.outputs w (ios.map (Call.io h)) =
        (w.fs.stubs.get i).file.machine.outputs w.mem ios ∧
      w.CallsDone (World.machine.exec w (ios.map (Call.io h))) h (w.fs.stubs.get i).file ios := by
  induction ios generalizing w with
  | nil => exact ⟨rfl, rfl, rfl, ⟨rfl, rfl, rfl, rfl⟩, by simp [sent, Machine.exec]⟩
  | cons c cs ih =>
    have hsum : sent (c :: cs) = c.bytes + sent cs := by simp [sent]
    obtain ⟨hreply, hmem⟩ := io_file hcaches hsized hdev w.mem (c := c) (by omega)
    have hfile := w.step_io_file h h c
    rw [if_pos rfl] at hfile
    have hsame := w.step_io_session h h c
    obtain ⟨houtputs, hdone⟩ := ih (w := (w.step (.io h c)).1)
      ⟨hsame.stub.trans hcaches.stub, hsame.view.trans hcaches.view⟩ hsized hdev (by omega)
    have hnext : (w.step (.io h c)).1.mem = (w.fs.stubs.get i).file.machine.next w.mem c := hmem
    have hfirst : (w.step (.io h c)).2 = (w.fs.stubs.get i).file.machine.out w.mem c := hreply
    refine ⟨?_, ?_, hdone.fs, ?_, ?_⟩
    · rw [List.map_cons, Machine.outputs, Machine.outputs, ← hfirst, ← hnext]
      exact congrArg _ houtputs
    · rw [Machine.exec, ← hnext]
      exact hdone.mem
    · exact ⟨hdone.session.stub.trans hsame.stub, hdone.session.path.trans hsame.path,
        hdone.session.view.trans hsame.view, hdone.session.stats.trans hsame.stats⟩
    · have hgrows := ((w.file h).io_counts w.fs w.mem c).1
      rw [bytesAccepted_eq, OssFile.Grows] at hgrows
      rw [hsum, BitVec.ofNat_add, ← BitVec.add_assoc, ← hgrows, ← hfile]
      exact hdone.written

namespace BlackholeFS
variable {fs fs' : BlackholeFS} {s : Store} {path : Str} {flags : CInt}

theorem Holds.touch (h : fs.Holds s) (hident : fs'.Identified) {i : ℕ} {g : Stub → Stub}
    (hfiles : fs'.files = fs.files) (hstubs : fs'.stubs = fs.stubs.modify i g)
    (hg : (fs.stubs.get i).SameFile (g (fs.stubs.get i))) :
    fs'.Keeps s (if (g (fs.stubs.get i)).isOpenWrite then some i else none) := by
  have hnext : fs'.stubs.next = fs.stubs.next := by rw [hstubs, Heap.modify_next]
  have hget : ∀ j, fs'.stubs.get j = if j = i then g (fs.stubs.get i) else fs.stubs.get j := by
    intro j
    rw [hstubs, Heap.modify_get]
    split_ifs with hj
    · rw [hj]
    · rfl
  refine ⟨hident, fun {j} hj => ?_, fun {j} hj => ?_, fun p => ?_⟩
  · rw [hnext] at hj
    rw [hget]
    split_ifs with hji
    · have hold := h.sized (hji ▸ hj)
      exact ⟨hg.size ▸ hold.fits, by rw [hg.stat, hg.size, hold.statSize], hg.stat ▸ hold.mode⟩
    · exact h.sized hj
  · rw [hnext] at hj
    rw [hget]
    have hold := h.flagged hj
    split_ifs with hji hopen hopen
    · simp [hji, hopen]
    · simp [hopen]
    · simp [hold, Ne.symm hji]
    · simpa using hold
  · rw [h.files, hfiles]
    refine congrArg (fs.files[p]?.map ·) (funext fun j => ?_)
    rw [hget]
    split_ifs with hji
    · rw [hji]
      simp only [Stub.file, Stub.view, hg.size, hg.stat, hg.readtype]
    · rfl

theorem Holds.open (h : fs.Holds s) (hopen : ¬ fs.Refused path flags)
    (hfits : fs.fdLast.toNat + 1 < 2 ^ 64) (mode : CInt) :
    ∃ i s', (fs.open path flags mode).2.files[path]? = some i ∧
      (fs.open path flags mode).2.Keeps s' (if readOnly flags then none else some i) ∧
      s.Opens path flags ((fs.open path flags mode).2.stubs.get i).file s' := by
  have hident := (h.identified.open mode (by rwa [if_neg hopen])).1
  have hcase := open_case fs path flags mode
  generalize fs.open path flags mode = r at hcase hident
  cases hcase with
  | missing hread hfile => exact absurd (.inl ⟨hread, hfile⟩) hopen
  | exclusive stub hwrite hfile hexcl =>
    exact absurd (.inr ⟨hwrite, by simp [hfile], hexcl⟩) hopen
  | read stub hread hfile =>
    have hkeeps := h.touch (i := stub) (g := fun t => { t with flags := flags, mode := mode })
      hident rfl rfl ⟨rfl, rfl, rfl, rfl⟩
    have hclosed : ¬ (fs.stubs.get stub).isOpenWrite = true := by
      rw [h.flagged (h.identified.sound.bound hfile)]
      exact Option.some_ne_none _ |>.symm
    rw [if_neg hclosed] at hkeeps
    refine ⟨stub, s, hfile, by rwa [if_pos hread], ?_⟩
    exact .found _ (hkeeps.bound hfile) (.inl hread)
  | reuse stub hwrite hfile hexcl htrunc =>
    have hkeeps := h.touch (i := stub)
      (g := fun t => { t with isOpenWrite := true, flags := flags, mode := mode })
      hident rfl rfl ⟨rfl, rfl, rfl, rfl⟩
    refine ⟨stub, s, hfile, by rwa [if_neg hwrite], ?_⟩
    exact .found _ (hkeeps.bound hfile) (.inr ⟨hexcl, htrunc⟩)
  | create hwrite hfree =>
    let stub : Stub :=
      { isOpenWrite := true, size := 0, flags := flags, mode := mode,
        stat := { dev := 1, ino := fs.fdLast + 1 } }
    have hkeeps := h.alloc_bound hident stub ⟨Nat.two_pow_pos 63, rfl, rfl⟩ rfl path fun p =>
      create_files fs path p flags mode
    refine ⟨fs.stubs.next, _, ?_, by rw [if_neg hwrite]; exact hkeeps, ?_⟩
    · rw [create_files, if_pos rfl]
    · have hget : ((BlackholeFS.create { fs with files := fs.files.erase path } path flags
          mode).2.stubs.get fs.stubs.next) = stub := fs.stubs.alloc_get_next stub
      rw [hget]
      refine .created stub.file hwrite ?_ (h.fresh hfits) rfl (funext fun _ => funext fun _ => rfl)
      rwa [h.unbound]

end BlackholeFS

def Stub.leave (s : Stub) (size : Word) : Stub :=
  { s with isOpenWrite := false, size := size, stat := { s.stat with size := size } }

theorem Stub.leave_file (s : Stub) (size : Word) :
    (s.leave size).file = { s.file with size := size.toNat } := rfl

namespace BlackholeFS
variable {fs : BlackholeFS} {s : Store} {path : Str} {flags : CInt} {i n : ℕ}

theorem Keeps.close_get (h : fs.Keeps s (if readOnly flags then none else some i))
    (hbound : fs.files[path]? = some i) {f : OssFile} (hstub : f.stub = some i)
    (hpath : f.path = path) (hwritten : f.written = BitVec.ofNat 64 n) (mgr : Snapshot) (j : ℕ) :
    (f.close fs mgr).2.1.stubs.get j = if j = i then
      (fs.stubs.get i).leave
        (if readOnly flags then (fs.stubs.get i).size else BitVec.ofNat 64 n)
      else fs.stubs.get j := by
  have hi := h.identified.sound.bound hbound
  have hflag := h.flagged hi
  have hstat := (h.sized hi).statSize
  rw [OssFile.close_get hstub, OssFile.storeSize_get, hpath, hbound, hwritten]
  by_cases hj : j = i
  · subst hj
    by_cases hread : readOnly flags
    · simp only [hread, if_true, reduceCtorEq, iff_false] at hflag
      simp [hread, hflag, Stub.leave, ← hstat]
    · simp only [hread, if_false, iff_true] at hflag
      simp [hread, hflag, Stub.leave]
  · simp [hj, Ne.symm hj]

theorem Keeps.close (h : fs.Keeps s (if readOnly flags then none else some i))
    (hbound : fs.files[path]? = some i) {f : OssFile} (hstub : f.stub = some i)
    (hpath : f.path = path) (hwritten : f.written = BitVec.ofNat 64 n) (hn : n < 2 ^ 63)
    (mgr : Snapshot) :
    (f.close fs mgr).2.1.Holds (s.close path flags (fs.stubs.get i).file n) := by
  have hi := h.identified.sound.bound hbound
  have hget := h.close_get hbound hstub hpath hwritten mgr
  have hnext := f.close_stubs_next fs mgr
  have hident : (f.close fs mgr).2.1.Identified := by
    refine h.identified.of_ids (h.identified.sound.of_sub hnext.ge fun p j hp => ?_) hnext
      (fun j => ?_) (f.close_fdLast fs mgr)
    · rwa [f.close_files] at hp
    · rw [hget]
      by_cases hj : j = i
      · rw [if_pos hj, hj]
        exact ⟨rfl, rfl⟩
      · rw [if_neg hj]
        exact ⟨rfl, rfl⟩
  refine ⟨hident, fun {j} hj => ?_, fun {j} hj => ?_, fun p => ?_⟩
  · rw [hget]
    rw [hnext] at hj
    by_cases hji : j = i
    · rw [if_pos hji]
      refine ⟨?_, rfl, (h.sized hi).mode⟩
      by_cases hread : readOnly flags
      · rw [if_pos hread]
        exact (h.sized hi).fits
      · rw [if_neg hread]
        exact (toNat_ofNat_of_lt hn).symm ▸ hn
    · rw [if_neg hji]
      exact h.sized hj
  · rw [hget]
    rw [hnext] at hj
    by_cases hji : j = i
    · rw [if_pos hji]
      exact iff_of_false Bool.false_ne_true (Option.some_ne_none j).symm
    · rw [if_neg hji, h.flagged hj]
      split_ifs
      · rfl
      · simp [Ne.symm hji]
  · rw [f.close_files, Store.close]
    by_cases hread : readOnly flags
    · rw [if_pos hread, h.files]
      refine congrArg (fs.files[p]?.map ·) (funext fun j => ?_)
      rw [hget]
      by_cases hji : j = i
      · rw [if_pos hji, if_pos hread, hji]
        rfl
      · rw [if_neg hji]
    · rw [if_neg hread]
      by_cases hp : p = path
      · rw [hp, Function.update_self, hbound, Option.map_some, hget, if_pos rfl, if_neg hread,
          Stub.leave_file, toNat_ofNat_of_lt hn]
      · rw [Function.update_of_ne hp, h.files]
        cases hj : fs.files[p]? with
        | none => rfl
        | some j =>
          have hji : j ≠ i := fun hji => hp (h.identified.sound.distinct hj (hji ▸ hbound))
          rw [Option.map_some, Option.map_some, hget, if_neg hji]

end BlackholeFS

section
variable {w : World} {s : Store} {h : ℕ} {path : Str} {flags mode : CInt} {ios : List IoCall}

theorem World.step_open_refused (href : w.fs.Refused path flags) (mode : CInt) :
    (w.step (.fileOpen h path flags mode)).2 =
        ⟨if readOnly flags then -ENOENT else -EEXIST, 0, {}⟩ ∧
      (w.step (.fileOpen h path flags mode)).1.fs = w.fs := by
  have hneg := BlackholeFS.refused_rc_neg href mode
  rw [step_open_fs, World.step, OssFile.open_failed hneg, BlackholeFS.open_of_refused href]
  exact ⟨rfl, rfl⟩

theorem World.step_open_accepted (hrc : 0 ≤ (w.fs.open path flags mode).1) :
    (w.step (.fileOpen h path flags mode)).2 = ⟨XrdOssOK, 0, {}⟩ ∧
      ((w.step (.fileOpen h path flags mode)).1.file h).path = path ∧
      ((w.step (.fileOpen h path flags mode)).1.file h).written = 0 := by
  have hfile := w.step_open_file h h path flags mode
  rw [if_pos rfl, OssFile.open_file_ok hrc] at hfile
  rw [hfile, World.step, OssFile.open_ok hrc]
  exact ⟨rfl, rfl, rfl⟩

/-- A session answers as the store does, and leaves its files behind. -/
theorem session_refines (hw : w.fs.Holds s)
    (hfits : w.fs.fdLast.toNat + w.fs.increments (.fsOpen path flags mode) < 2 ^ 31)
    (hbytes : sent ios < 2 ^ 63) :
    ∃ s', (w.session h path flags mode ios).1.fs.Holds s' ∧
      s.Step w.mem (.session h path flags mode ios)
        { replies := (w.session h path flags mode ios).2 } s'
        (w.session h path flags mode ios).1.mem := by
  by_cases href : w.fs.Refused path flags
  · obtain ⟨hreply, hfs⟩ := World.step_open_refused (h := h) href mode
    have hneg : (if readOnly flags then -ENOENT else -EEXIST) < 0 := by split_ifs <;> decide
    rw [World.session, hreply, if_pos hneg]
    refine ⟨s, by rwa [hfs], ?_⟩
    rcases href with ⟨hread, hfile⟩ | ⟨hwrite, hfile, hexcl⟩
    · rw [if_pos hread]
      exact .missing hread (hw.unbound.mpr hfile)
    · rw [if_neg hwrite]
      exact .exclusive hwrite (fun hnone => hfile (hw.unbound.mp hnone)) hexcl
  · rw [BlackholeFS.increments, if_neg href] at hfits
    have hrc : 0 ≤ (w.fs.open path flags mode).1 := by
      have hfd := (BlackholeFS.CounterFits.open_rc hfits href mode).1
      omega
    obtain ⟨hreply, hpath, hwritten⟩ := World.step_open_accepted (h := h) hrc
    have hok : (w.step (.fileOpen h path flags mode)).2.rc = XrdOssOK := by rw [hreply]
    obtain ⟨i, s', hbound, hkeeps, hopens⟩ := hw.open href (by omega) mode
    obtain ⟨j, hbound', hstub, hview⟩ := World.opened_view hok
    have hfs := w.step_open_fs h path flags mode
    have hmem : (w.step (.fileOpen h path flags mode)).1.mem = w.mem := rfl
    rw [World.session, hreply, if_neg (by decide)]
    generalize (w.step (.fileOpen h path flags mode)).1 = v at *
    rw [← hfs] at hbound hkeeps hopens
    obtain rfl : j = i := Option.some.inj (hbound'.symm.trans hbound)
    have hi := hkeeps.identified.sound.bound hbound
    obtain ⟨houtputs, hdone⟩ := calls_done ⟨hstub, hview⟩ (hkeeps.sized hi)
      (hkeeps.identified.dev hi) hbytes
    rw [hmem] at houtputs
    dsimp only
    generalize World.machine.exec v (ios.map (Call.io h)) = u at hdone ⊢
    have hstub' := hdone.session.stub.trans hstub
    have hwritten' : (u.file h).written = BitVec.ofNat 64 (sent ios) := by
      simp [hdone.written, hwritten]
    have hclosed := hkeeps.close hbound hstub' (hdone.session.path.trans hpath) hwritten' hbytes
      u.mgr
    have hleft : (u.step (.fileClose h)).1.fs = ((u.file h).close v.fs u.mgr).2.1 := by
      rw [World.step_close_fs, hdone.fs]
    have hlast : (u.step (.fileClose h)).2 = ⟨XrdOssOK, 0, {}⟩ := by
      rw [World.step, OssFile.close_some hstub']
    have hend : (u.step (.fileClose h)).1.mem =
        (v.fs.stubs.get j).file.machine.exec w.mem ios := by
      rw [← hmem, ← hdone.mem]
      rfl
    rw [← hleft] at hclosed
    rw [houtputs, hlast, hend]
    exact ⟨_, hclosed, .session hopens⟩

theorem stat_refines (hw : w.fs.Holds s) (path : Str) :
    s.Step w.mem (.stat path) { replies := [(w.step (.stat path)).2] } s w.mem := by
  cases hfile : w.fs.files[path]? with
  | none =>
    have hstat : w.stat path = (-ENOENT, {}) := by
      simp only [World.stat, BlackholeFS.getStub, hfile]
    rw [World.step, hstat]
    exact .statMissing (hw.unbound.mpr hfile)
  | some i =>
    have hi := hw.identified.sound.bound hfile
    have hstat : w.stat path = (0, (w.fs.stubs.get i).file.stat) := by
      simp only [World.stat, BlackholeFS.getStub, hfile, (hw.sized hi).stat_file
        (hw.identified.dev hi)]
    rw [World.step, hstat]
    exact .stat _ (hw.bound hfile)

theorem list_refines (hw : w.fs.Holds s) (path : Str) :
    s.Step w.mem (.list path) { names := w.fs.readdir path [] } s w.mem := by
  have hsorted : w.fs.files.toList.Pairwise fun a b => compare a.1 b.1 = .lt :=
    Std.ExtTreeMap.ordered_keys_toList
  have hnames : w.fs.readdir path [] =
      ((w.fs.files.toList.map Prod.fst).filter (Store.childOf path)).map BlackholeFS.nameOf := by
    rw [BlackholeFS.readdir, List.nil_append]
    induction w.fs.files.toList with
    | nil => rfl
    | cons kv kvs ih =>
      rw [List.filterMap_cons, List.map_cons, List.filter_cons, Store.childOf, ih]
      by_cases hchild : BlackholeFS.parentOf kv.1 = BlackholeFS.normalise path
      · simp [hchild]
      · simp [hchild]
  rw [hnames]
  refine .list _ ?_ fun p => ?_
  · rw [List.pairwise_map]
    exact hsorted.imp fun hlt => (BlackholeFS.path_lt_iff _ _).mp hlt
  · rw [Ne, hw.unbound, List.mem_map]
    constructor
    · rintro ⟨kv, hkv, rfl⟩
      rw [Std.ExtTreeMap.mem_toList_iff_getElem?_eq_some.mp hkv]
      exact Option.some_ne_none _
    · intro hbound
      obtain ⟨i, hi⟩ := Option.ne_none_iff_exists'.mp hbound
      exact ⟨(p, i), Std.ExtTreeMap.mem_toList_iff_getElem?_eq_some.mpr hi, rfl⟩

end

theorem World.exec_io_fs (w : World) (h : ℕ) (ios : List IoCall) :
    (World.machine.exec w (ios.map (Call.io h))).fs = w.fs := by
  induction ios generalizing w with
  | nil => rfl
  | cons c cs ih => exact ih (w.step (.io h c)).1

theorem World.session_fdLast (w : World) (h : ℕ) (path : Str) (flags mode : CInt)
    (ios : List IoCall) :
    (w.session h path flags mode ios).1.fs.fdLast = (w.fs.open path flags mode).2.fdLast := by
  rw [← w.step_open_fs h, World.session]
  dsimp only
  split_ifs
  · rfl
  · rw [step_close_fs, OssFile.close_fdLast, exec_io_fs]

theorem serve_fdLast {w : World} {s : Store} {j : Job} (hw : w.fs.Holds s)
    (hfits : w.fs.fdLast.toNat + w.descriptors j < 2 ^ 31) :
    (w.serve j).1.fs.fdLast.toNat ≤ w.fs.fdLast.toNat + w.descriptors j := by
  have hroom : w.fs.fdLast.toNat + w.descriptors j < 2 ^ 64 := by omega
  cases j with
  | ns c => exact (hw.identified.call (.ns c) hroom).2.le
  | session h path flags mode ios =>
    have hopen := (hw.identified.open mode hroom).2
    have hend := w.session_fdLast h path flags mode ios
    exact ((congrArg BitVec.toNat hend).trans hopen).le
  | stat path => exact Nat.le_add_right _ _
  | list path => exact Nat.le_add_right _ _

theorem serve_refines {w : World} {s : Store} {j : Job} (hw : w.fs.Holds s) (hj : j.Fits)
    (hfits : w.fs.fdLast.toNat + w.descriptors j < 2 ^ 31) :
    ∃ s', (w.serve j).1.fs.Holds s' ∧ s.Step w.mem j (w.serve j).2 s' (w.serve j).1.mem := by
  cases j with
  | ns c =>
    obtain ⟨s', hs', hstep⟩ := hw.ns c hj hfits
    exact ⟨s', hs', .ns hstep⟩
  | session h path flags mode ios => exact session_refines hw hfits hj
  | stat path => exact ⟨s, hw, stat_refines hw path⟩
  | list path => exact ⟨s, hw, list_refines hw path⟩

/-- As long as sizes fit `off_t` and descriptors fit `int`, every run of requests which
come one after another gets answers which the store gives in some run, and leaves the
files of the store behind. -/
theorem serial_clients_see_store (js : List Job) (hjs : ∀ j ∈ js, j.Fits) (mem : Mem)
    (hfits : World.jobs.total World.descriptors { mem := mem } js < 2 ^ 31) :
    ∃ s, (World.jobs.exec { mem := mem } js).fs.Holds s ∧
      Store.lts.Run (fun _ => none, mem) (World.jobs.logged.exec ({ mem := mem }, []) js).2
        (s, (World.jobs.exec { mem := mem } js).mem) := by
  have hstart : ({} : BlackholeFS).Holds fun _ => none :=
    ⟨.init, fun hi => absurd hi (Nat.not_lt_zero _), fun hi => absurd hi (Nat.not_lt_zero _),
      fun p => by simp⟩
  have hstep : ∀ (w : World) (a : Store × Mem) (j : Job), (w.fs.Holds a.1 ∧ a.2 = w.mem) → j.Fits →
      w.fs.fdLast.toNat + w.descriptors j < 2 ^ 31 →
      (World.jobs.next w j).fs.fdLast.toNat ≤ w.fs.fdLast.toNat + w.descriptors j ∧
        ∃ a', ((World.jobs.next w j).fs.Holds a'.1 ∧ a'.2 = (World.jobs.next w j).mem) ∧
          Store.lts.step a (some (j, World.jobs.out w j)) a' := by
    rintro w ⟨s, mem⟩ j ⟨hholds, rfl⟩ hj hfits
    obtain ⟨s', hs', hstep⟩ := serve_refines hholds hj hfits
    exact ⟨serve_fdLast hholds hfits, (s', _), ⟨hs', rfl⟩, .job hstep⟩
  obtain ⟨⟨s, mem'⟩, ⟨hholds, hmem⟩, hrun⟩ := Lts.run_of_machine
    (fun w : World => w.fs.fdLast.toNat) World.descriptors (2 ^ 31) hstep
    (s := { mem := mem }) (a := (fun _ => none, mem)) ⟨hstart, rfl⟩ .start hjs
    ((Nat.zero_add _).trans_lt hfits)
  dsimp only at hmem
  rw [hmem] at hrun
  exact ⟨s, hholds, hrun⟩

def uploadedAndRenamed : List Job :=
  [.session 0 "/f".toList O_WRONLY 0o644 [.write 0 6, .writeAio 6 4],
   .ns (.rename "/f".toList "/g".toList), .session 1 "/g".toList O_RDONLY 0 [.read 0 4 20],
   .list "/".toList]

theorem serial_clients_see_store_renamed :
    ∃ s, (World.jobs.exec { mem := fun _ => 0 } uploadedAndRenamed).fs.Holds s ∧
      Store.lts.Run (fun _ => none, fun _ => 0)
        (World.jobs.logged.exec ({ mem := fun _ => 0 }, []) uploadedAndRenamed).2
        (s, (World.jobs.exec { mem := fun _ => 0 } uploadedAndRenamed).mem) :=
  serial_clients_see_store uploadedAndRenamed
    (by simp [uploadedAndRenamed, Job.Fits, sent, IoCall.bytes]) _ (by decide)

end XrdBlackhole
