import XrdBlackhole.HandleThreads
import XrdBlackhole.Library.Split

/-!
# Calls between their critical sections

`Open`, `Close` and `Stat` take a mutex several times and work on the handle and on the
stub in between, and an I/O call takes none. So here a step of a thread is one critical
section, or one access to a stub, or a single store or increment of an I/O call.
-/

namespace XrdBlackhole

/-- Where a thread stands in its call. -/
inductive Progress
  | seeding (path : Str) (specs : List (Str × Word))
  | opened (h : ℕ) (path : Str) (flags : CInt)
  | found (h : ℕ) (path : Str) (flags : CInt)
  | loaded (h : ℕ) (wb : Word)
  | sized (h : ℕ) (wb : Word)
  | recorded (h : ℕ)
  | released (h : ℕ)
  | acting (h : ℕ) (acts : List IoAct) (reply : Reply)
  | looked (stub : ℕ)
  | returned (reply : Reply)

namespace OssFile

def fetch (f : OssFile) (fs : BlackholeFS) : OssFile := { f with stub := fs.getStub f.path }

def cache (f : OssFile) (fs : BlackholeFS) (path : Str) (flags : CInt) : OssFile :=
  { toReadView := match f.stub with
      | none => {}
      | some i => (fs.stubs.get i).view
    stub := f.stub
    path := f.path
    stats := { path := path, wasWrite := !decide (readOnly flags) } }

end OssFile

namespace World

def seedDefault (w : World) (path : Str) (spec : Str × Word) : World :=
  { w with fs := w.fs.seed (path ++ spec.1) spec.2 zeros }

def fetchStub (w : World) (h : ℕ) : World := w.setFile h ((w.file h).fetch w.fs)

def cacheStub (w : World) (h : ℕ) (path : Str) (flags : CInt) : World :=
  w.setFile h ((w.file h).cache w.fs path flags)

def storeSize (w : World) (h : ℕ) (wb : Word) : World :=
  match (w.file h).stub with
  | none => w
  | some i => { w with fs := { w.fs with stubs := OssFile.storeSize w.fs.stubs i wb } }

def recordTransfer (w : World) (h : ℕ) (wb : Word) : World :=
  let stats := (w.file h).transferStats wb
  { w with mgr := w.mgr.recordTransfer stats }.setFile h { w.file h with stats := stats }

def release (w : World) (h : ℕ) : World := { w with fs := w.fs.close (w.file h).path }

def resetStub (w : World) (h : ℕ) : World := w.setFile h { w.file h with stub := none }

def act (w : World) (h : ℕ) (a : IoAct) : World :=
  let s := a.apply (w.file h, w.mem)
  { w with mem := s.2 }.setFile h s.1

def enter (w : World) : Call → World × Progress
  | .ns (.createDefaults path) => (w, .seeding path BlackholeFS.specs)
  | .ns c => let r := w.step (.ns c); (r.1, .returned r.2)
  | .fileOpen h path flags mode =>
    let r := w.fs.open path flags mode
    ({ w with fs := r.2 }.setFile h { w.file h with path := path },
      if r.1 < 0 then .returned ⟨r.1, 0, {}⟩ else .opened h path flags)
  | .fileClose h =>
    (w, match (w.file h).stub with
      | none => .returned ⟨-ENOENT, 0, {}⟩
      | some _ => .loaded h (w.file h).written)
  | .io h c => (w, .acting h ((w.file h).acts c) ((w.file h).io w.fs w.mem c).1)
  | .stat path =>
    (w, match w.fs.getStub path with
      | none => .returned ⟨-ENOENT, 0, {}⟩
      | some stub => .looked stub)

def ok : Progress := .returned ⟨XrdOssOK, 0, {}⟩

def advance (w : World) : Progress → World × Progress
  | .seeding _ [] => (w, .returned ⟨0, 0, {}⟩)
  | .seeding path (spec :: specs) => (w.seedDefault path spec, .seeding path specs)
  | .opened h path flags => (w.fetchStub h, .found h path flags)
  | .found h path flags => (w.cacheStub h path flags, ok)
  | .loaded h wb => (w.storeSize h wb, .sized h wb)
  | .sized h wb => (w.recordTransfer h wb, .recorded h)
  | .recorded h => (w.release h, .released h)
  | .released h => (w.resetStub h, ok)
  | .acting _ [] reply => (w, .returned reply)
  | .acting h (a :: acts) reply => (w.act h a, .acting h acts reply)
  | .looked stub => (w, .returned ⟨0, 0, (w.fs.stubs.get stub).stat⟩)
  | .returned reply => (w, .returned reply)

def complete (w : World) : Progress → World × Reply
  | .seeding path specs => (specs.foldl (fun w spec => w.seedDefault path spec) w, ⟨0, 0, {}⟩)
  | .opened h path flags => ((w.fetchStub h).cacheStub h path flags, ⟨XrdOssOK, 0, {}⟩)
  | .found h path flags => (w.cacheStub h path flags, ⟨XrdOssOK, 0, {}⟩)
  | .loaded h wb =>
    ((((w.storeSize h wb).recordTransfer h wb).release h).resetStub h, ⟨XrdOssOK, 0, {}⟩)
  | .sized h wb => (((w.recordTransfer h wb).release h).resetStub h, ⟨XrdOssOK, 0, {}⟩)
  | .recorded h => ((w.release h).resetStub h, ⟨XrdOssOK, 0, {}⟩)
  | .released h => (w.resetStub h, ⟨XrdOssOK, 0, {}⟩)
  | .acting h acts reply => (acts.foldl (fun w a => w.act h a) w, reply)
  | .looked stub => (w, ⟨0, 0, (w.fs.stubs.get stub).stat⟩)
  | .returned reply => (w, reply)

end World

namespace Progress

def result : Progress → Option Reply
  | .returned reply => some reply
  | _ => none

def left : Progress → ℕ
  | .seeding _ specs => specs.length + 1
  | .opened _ _ _ => 2
  | .found _ _ _ => 1
  | .loaded _ _ => 4
  | .sized _ _ => 3
  | .recorded _ => 2
  | .released _ => 1
  | .acting _ acts _ => acts.length + 1
  | .looked _ => 1
  | .returned _ => 0

end Progress

namespace World

@[simp] theorem setFile_self (w : World) (h : ℕ) : w.setFile h (w.file h) = w := by
  simp [setFile]

theorem foldl_act (w : World) (h : ℕ) (acts : List IoAct) :
    acts.foldl (fun w a => w.act h a) w =
      { w with mem := (acts.foldl IoAct.apply (w.file h, w.mem)).2 }.setFile h
        (acts.foldl IoAct.apply (w.file h, w.mem)).1 := by
  induction acts generalizing w with
  | nil => exact (w.setFile_self h).symm
  | cons a acts ih =>
    have hfile : ((w.act h a).file h, (w.act h a).mem) = a.apply (w.file h, w.mem) := by
      simp [act, setFile]
    rw [List.foldl_cons, List.foldl_cons, ih, hfile]
    simp [act, setFile]

theorem cache_fetch (f : OssFile) (fs : BlackholeFS) (flags : CInt) :
    (f.fetch fs).cache fs f.path flags = f.adopt fs f.path flags := rfl

theorem cacheStub_fetchStub (w : World) (h : ℕ) (flags : CInt) :
    (w.fetchStub h).cacheStub h (w.file h).path flags =
      w.setFile h ((w.file h).adopt w.fs (w.file h).path flags) := by
  rw [← cache_fetch]
  simp [fetchStub, cacheStub, setFile]

theorem complete_enter (w : World) (c : Call) :
    (w.enter c).1.complete (w.enter c).2 = w.step c := by
  cases c with
  | ns c => cases c <;> rfl
  | fileOpen h path flags mode =>
    rcases lt_or_ge (w.fs.open path flags mode).1 0 with hrc | hrc
    · simp only [enter, hrc, if_true, complete, step, OssFile.open_failed hrc]
    · simp only [enter, not_lt.mpr hrc, if_false, complete, step, OssFile.open_ok hrc]
      refine Prod.ext ?_ rfl
      have hpath := cacheStub_fetchStub ({ w with fs := (w.fs.open path flags mode).2 }.setFile h
        { w.file h with path := path }) h flags
      simpa [setFile] using hpath
  | fileClose h =>
    cases hstub : (w.file h).stub with
    | none => simp [enter, complete, step, hstub, OssFile.close_none hstub]
    | some i =>
      simp only [enter, complete, step, hstub, OssFile.close_some hstub]
      refine Prod.ext ?_ rfl
      simp [storeSize, recordTransfer, release, resetStub, setFile, hstub]
  | io h c =>
    refine Prod.ext ?_ rfl
    have hacts := (w.file h).foldl_acts w.fs w.mem c
    simp only [enter, complete, step, foldl_act, hacts]
  | stat path => cases hstub : w.fs.getStub path <;> simp [enter, complete, step, stat, hstub]

theorem complete_advance (w : World) (p : Progress) :
    (w.advance p).1.complete (w.advance p).2 = w.complete p := by
  cases p with
  | seeding path specs => cases specs <;> rfl
  | acting h acts reply => cases acts <;> rfl
  | _ => rfl

theorem left_advance (w : World) {p : Progress} (h : p.result = none) :
    (w.advance p).2.left < p.left := by
  cases p with
  | seeding path specs => cases specs <;> simp [advance, Progress.left]
  | acting h acts reply => cases acts <;> simp [advance, Progress.left]
  | returned reply => cases h
  | _ => simp [advance, Progress.left, ok]

def sections : Split World.machine Progress where
  enter := World.enter
  advance := World.advance
  result := Progress.result
  complete := World.complete
  left := Progress.left
  complete_enter := complete_enter
  complete_advance w p _ := w.complete_advance p
  complete_result w p reply h := by
    cases p with
    | returned reply =>
      cases h
      rfl
    | _ => cases h
  left_advance w p := w.left_advance

end World

end XrdBlackhole
