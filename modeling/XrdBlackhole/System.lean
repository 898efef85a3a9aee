import XrdBlackhole.OssFile

/-!
# The whole plugin as a machine

A world holds the global namespace, the statistics manager, every file handle and
the memory of the clients. One step is one whole call: a configuration or path
operation, `Open`, `Close` or an I/O call on a handle, or `Stat`.
-/

namespace XrdBlackhole

structure World where
  fs : BlackholeFS := {}
  mgr : Snapshot := {}
  file : ℕ → OssFile := fun _ => {}
  mem : Mem := fun _ => 0

inductive IoCall
  | write (offset blen : Word)
  | writeAio (offset nbytes : Word)
  | read (buff : ℕ) (offset blen : Word)
  | readAio (buff : ℕ) (offset nbytes : Word)
  | readRaw (buff : ℕ) (offset blen : Word)
  | readV (segs : IOVecs)
  | preposition (offset blen : Word)
  | fstat

inductive Call
  | ns (c : NsCall)
  | fileOpen (h : ℕ) (path : Str) (flags mode : CInt)
  | fileClose (h : ℕ)
  | io (h : ℕ) (c : IoCall)
  | stat (path : Str)

/-- The return value, the `Result` of an asynchronous request, a filled `stat`. -/
structure Reply where
  rc : ℤ
  result : ℤ := 0
  buf : StatBuf := {}

namespace OssFile

def io (f : OssFile) (fs : BlackholeFS) (mem : Mem) : IoCall → Reply × Mem × OssFile
  | .write _ blen => let r := f.write blen; (⟨r.1, 0, {}⟩, mem, r.2)
  | .writeAio _ nbytes => let r := f.writeAio nbytes; (⟨r.1, r.2.1, {}⟩, mem, r.2.2)
  | .read buff offset blen => let r := f.read mem buff offset blen; (⟨r.1, 0, {}⟩, r.2)
  | .readAio buff offset nbytes =>
    let r := f.readAio mem buff offset nbytes; (⟨r.1, r.2.1, {}⟩, r.2.2)
  | .readRaw buff offset blen => let r := f.readRaw mem buff offset blen; (⟨r.1, 0, {}⟩, r.2)
  | .readV segs => let r := f.readV mem segs.1; (⟨r.1, 0, {}⟩, r.2)
  | .preposition _ _ => let r := f.preposition; (⟨r.1, 0, {}⟩, mem, r.2)
  | .fstat => let r := f.fstat fs; (⟨r.1, 0, r.2⟩, mem, f)

end OssFile

namespace World

def setFile (w : World) (h : ℕ) (f : OssFile) : World :=
  { w with file := Function.update w.file h f }

def stat (w : World) (path : Str) : ℤ × StatBuf :=
  match w.fs.getStub path with
  | none => (-ENOENT, {})
  | some stub => (0, (w.fs.stubs.get stub).stat)

def step (w : World) : Call → World × Reply
  | .ns c => let r := w.fs.ns c; ({ w with fs := r.2 }, ⟨r.1, 0, {}⟩)
  | .fileOpen h path flags mode =>
    let r := (w.file h).open w.fs path flags mode
    ({ w with fs := r.2.1 }.setFile h r.2.2, ⟨r.1, 0, {}⟩)
  | .fileClose h =>
    let r := (w.file h).close w.fs w.mgr
    ({ w with fs := r.2.1, mgr := r.2.2.1 }.setFile h r.2.2.2, ⟨r.1, 0, {}⟩)
  | .io h c =>
    let r := (w.file h).io w.fs w.mem c
    ({ w with mem := r.2.1 }.setFile h r.2.2, r.1)
  | .stat path => let r := w.stat path; (w, ⟨r.1, 0, r.2⟩)

def machine : Machine World Call Reply := ⟨World.step⟩

theorem setFile_apply (w : World) (h g : ℕ) (f : OssFile) :
    (w.setFile h f).file g = if g = h then f else w.file g := by
  simp [setFile, Function.update_apply]

theorem step_open_fs (w : World) (h : ℕ) (path : Str) (flags mode : CInt) :
    (w.step (.fileOpen h path flags mode)).1.fs = (w.fs.open path flags mode).2 :=
  (w.file h).open_fs w.fs path flags mode

theorem step_open_file (w : World) (h g : ℕ) (path : Str) (flags mode : CInt) :
    (w.step (.fileOpen h path flags mode)).1.file g =
      if g = h then ((w.file h).open w.fs path flags mode).2.2 else w.file g :=
  setFile_apply _ h g _

theorem step_close_fs (w : World) (h : ℕ) :
    (w.step (.fileClose h)).1.fs = ((w.file h).close w.fs w.mgr).2.1 := rfl

theorem step_close_file (w : World) (h g : ℕ) :
    (w.step (.fileClose h)).1.file g =
      if g = h then ((w.file h).close w.fs w.mgr).2.2.2 else w.file g :=
  setFile_apply _ h g _

theorem step_io_file (w : World) (h g : ℕ) (c : IoCall) :
    (w.step (.io h c)).1.file g =
      if g = h then ((w.file h).io w.fs w.mem c).2.2 else w.file g :=
  setFile_apply _ h g _

end World

end XrdBlackhole
