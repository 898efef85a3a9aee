import XrdBlackhole.Sessions

/-!
# Asynchronous writes and `Close`

One write session of a handle in fine steps. A write task is a call of `Write`
with the point which it has reached. An asynchronous write acknowledges its
request before it counts the bytes, and `Close` may start once every asynchronous
write is acknowledged and every synchronous one has returned. `NoLag` says that no
count is missing when `Close` reads the counters.
-/

namespace XrdBlackhole

inductive SyncPc
  | issued
  | added
  | returned
  deriving DecidableEq

inductive AioPc
  | issued
  | resultSet
  | acknowledged
  | added
  | returned
  deriving DecidableEq

inductive WriteTask
  | sync (blen : Word) (pc : SyncPc)
  | aio (nbytes : Word) (pc : AioPc)
  deriving DecidableEq

inductive ClosePc
  | idle
  | loaded (wb : Word)
  | stored (wb : Word)
  | closed
  deriving DecidableEq

namespace WriteTask

def advance (f : OssFile) : WriteTask → WriteTask × OssFile
  | .sync blen .issued => (.sync blen .added, { f with writeBytes := f.writeBytes + blen })
  | .sync blen .added => (.sync blen .returned, { f with writeOps := f.writeOps + 1 })
  | .sync blen .returned => (.sync blen .returned, f)
  | .aio nbytes .issued => (.aio nbytes .resultSet, f)
  | .aio nbytes .resultSet => (.aio nbytes .acknowledged, f)
  | .aio nbytes .acknowledged =>
    (.aio nbytes .added, { f with writeBytesAIO := f.writeBytesAIO + nbytes })
  | .aio nbytes .added => (.aio nbytes .returned, { f with writeAioOps := f.writeAioOps + 1 })
  | .aio nbytes .returned => (.aio nbytes .returned, f)

def settled : WriteTask → Bool
  | .sync _ pc => pc = .returned
  | .aio _ pc => pc = .acknowledged ∨ pc = .added ∨ pc = .returned

def bytes : WriteTask → ℕ
  | .sync blen _ => blen.toNat
  | .aio nbytes _ => nbytes.toNat

def aioCalls : WriteTask → ℕ
  | .sync _ _ => 0
  | .aio _ _ => 1

def added : WriteTask → ℕ
  | .sync _ .issued => 0
  | .sync blen _ => blen.toNat
  | .aio nbytes .added | .aio nbytes .returned => nbytes.toNat
  | .aio _ _ => 0

def bumped : WriteTask → ℕ
  | .aio _ .returned => 1
  | _ => 0

def unadded : WriteTask → ℕ
  | .aio nbytes .acknowledged => nbytes.toNat
  | _ => 0

def unbumped : WriteTask → ℕ
  | .aio _ .acknowledged | .aio _ .added => 1
  | _ => 0

def total (weight : WriteTask → ℕ) (tasks : List WriteTask) : ℕ := (tasks.map weight).sum

end WriteTask

structure Session where
  file : OssFile
  fs : BlackholeFS
  mgr : Snapshot
  tasks : List WriteTask := []
  pc : ClosePc := .idle

inductive SessionStep
  | issueSync (blen : Word)
  | issueAio (nbytes : Word)
  | advance (t : WriteTask)
  | close

namespace Session

/-- The next step of `Close`. The counters of synchronous writes are final when
it starts, so it reads them together with the asynchronous ones. -/
def closeStep (s : Session) : Session :=
  match s.pc, s.file.stub with
  | .idle, some _ =>
    if s.tasks.all WriteTask.settled then { s with pc := .loaded s.file.written } else s
  | .loaded wb, some i =>
    { s with fs := { s.fs with stubs := OssFile.storeSize s.fs.stubs i wb }, pc := .stored wb }
  | .stored wb, some _ =>
    let stats := s.file.transferStats wb
    { s with
      mgr := s.mgr.recordTransfer stats
      fs := s.fs.close s.file.path
      file := { s.file with stub := none, stats := stats }
      pc := .closed }
  | _, _ => s

def step (s : Session) : SessionStep → Session
  | .issueSync blen => if s.pc = .idle then { s with tasks := .sync blen .issued :: s.tasks } else s
  | .issueAio nbytes =>
    if s.pc = .idle then { s with tasks := .aio nbytes .issued :: s.tasks } else s
  | .advance t =>
    if t ∈ s.tasks then
      { s with tasks := (t.advance s.file).1 :: s.tasks.erase t, file := (t.advance s.file).2 }
    else s
  | .close => s.closeStep

def machine : Machine Session SessionStep Unit := ⟨fun s c => (s.step c, ())⟩

def opened (f : OssFile) (fs : BlackholeFS) (mgr : Snapshot) (path : Str) (flags mode : CInt) :
    Session where
  file := (f.open fs path flags mode).2.2
  fs := (f.open fs path flags mode).2.1
  mgr := mgr

end Session

namespace WriteTask

theorem advance_same (t : WriteTask) (f : OssFile) :
    (t.advance f).1.bytes = t.bytes ∧ (t.advance f).1.aioCalls = t.aioCalls ∧
      (t.settled = true → (t.advance f).1.settled = true) := by
  cases t with
  | sync blen pc => cases pc <;> exact ⟨rfl, rfl, by simp [settled, advance]⟩
  | aio nbytes pc => cases pc <;> exact ⟨rfl, rfl, by simp [settled, advance]⟩

theorem advance_session (t : WriteTask) (f : OssFile) : SameSession f (t.advance f).2 := by
  cases t with
  | sync blen pc => cases pc <;> exact ⟨rfl, rfl, rfl, rfl⟩
  | aio nbytes pc => cases pc <;> exact ⟨rfl, rfl, rfl, rfl⟩

theorem advance_counts (t : WriteTask) (f : OssFile) :
    ∃ k c, (t.advance f).1.added = t.added + k ∧ (t.advance f).1.bumped = t.bumped + c ∧
      (t.advance f).2.written = f.written + BitVec.ofNat 64 k ∧
      (t.advance f).2.writeAioOps = f.writeAioOps + BitVec.ofNat 32 c := by
  cases t with
  | sync blen pc =>
    cases pc with
    | issued =>
      refine ⟨blen.toNat, 0, (Nat.zero_add _).symm, rfl, ?_, by simp [advance]⟩
      simp only [advance, OssFile.written, BitVec.ofNat_toNat, BitVec.setWidth_eq]
      ac_rfl
    | added => exact ⟨0, 0, rfl, rfl, by simp [advance, OssFile.written], by simp [advance]⟩
    | returned => exact ⟨0, 0, rfl, rfl, by simp [advance], by simp [advance]⟩
  | aio nbytes pc =>
    cases pc with
    | acknowledged =>
      refine ⟨nbytes.toNat, 0, (Nat.zero_add _).symm, rfl, ?_, by simp [advance]⟩
      simp only [advance, OssFile.written, BitVec.ofNat_toNat, BitVec.setWidth_eq]
      ac_rfl
    | added => exact ⟨0, 1, rfl, rfl, by simp [advance, OssFile.written], rfl⟩
    | issued => exact ⟨0, 0, rfl, rfl, by simp [advance], by simp [advance]⟩
    | resultSet => exact ⟨0, 0, rfl, rfl, by simp [advance], by simp [advance]⟩
    | returned => exact ⟨0, 0, rfl, rfl, by simp [advance], by simp [advance]⟩

theorem settled_lag {t : WriteTask} (h : t.settled = true) :
    t.bytes = t.added + t.unadded ∧ t.aioCalls = t.bumped + t.unbumped := by
  cases t with
  | sync blen pc =>
    cases pc <;> simp_all [settled, bytes, added, unadded, aioCalls, bumped, unbumped]
  | aio nbytes pc =>
    cases pc <;> simp_all [settled, bytes, added, unadded, aioCalls, bumped, unbumped]

variable {tasks : List WriteTask}

theorem total_cons (weight : WriteTask → ℕ) (t : WriteTask) (tasks : List WriteTask) :
    total weight (t :: tasks) = weight t + total weight tasks := by
  simp [total]

theorem total_replace (weight : WriteTask → ℕ) {t : WriteTask} (ht : t ∈ tasks) (t' : WriteTask) :
    weight t + total weight (t' :: tasks.erase t) = weight t' + total weight tasks := by
  have herase := List.sum_map_erase weight ht
  rw [total_cons, total, total]
  omega

theorem total_lag (h : tasks.all settled = true) :
    total bytes tasks = total added tasks + total unadded tasks ∧
      total aioCalls tasks = total bumped tasks + total unbumped tasks := by
  induction tasks with
  | nil => exact ⟨rfl, rfl⟩
  | cons t tasks ih =>
    rw [List.all_cons, Bool.and_eq_true] at h
    obtain ⟨hbytes, hcalls⟩ := settled_lag h.1
    obtain ⟨ihbytes, ihcalls⟩ := ih h.2
    simp only [total_cons]
    omega

end WriteTask

namespace Session
open WriteTask
variable {s : Session} {i : ℕ}

theorem closeStep_idle (hpc : s.pc = .idle) (hstub : s.file.stub = some i) :
    s.closeStep = if s.tasks.all settled then { s with pc := .loaded s.file.written } else s := by
  simp only [closeStep, hpc, hstub]

theorem closeStep_loaded {wb : Word} (hpc : s.pc = .loaded wb) (hstub : s.file.stub = some i) :
    s.closeStep = { s with
      fs := { s.fs with stubs := OssFile.storeSize s.fs.stubs i wb }
      pc := .stored wb } := by
  simp only [closeStep, hpc, hstub]

theorem closeStep_stored {wb : Word} (hpc : s.pc = .stored wb) (hstub : s.file.stub = some i) :
    s.closeStep = { s with
      mgr := s.mgr.recordTransfer (s.file.transferStats wb)
      fs := s.fs.close s.file.path
      file := { s.file with stub := none, stats := s.file.transferStats wb }
      pc := .closed } := by
  simp only [closeStep, hpc, hstub]

theorem closeStep_closed (hpc : s.pc = .closed) : s.closeStep = s := by
  simp only [closeStep, hpc]

theorem sync_alone (hpc : s.pc = .idle) (blen : Word) :
    (machine.exec s [.issueSync blen, .advance (.sync blen .issued),
      .advance (.sync blen .added)]).file = (s.file.write blen).2 := by
  simp [Machine.exec, Machine.next, machine, step, hpc, WriteTask.advance, OssFile.write]

theorem aio_alone (hpc : s.pc = .idle) (nbytes : Word) :
    (machine.exec s [.issueAio nbytes, .advance (.aio nbytes .issued),
      .advance (.aio nbytes .resultSet), .advance (.aio nbytes .acknowledged),
      .advance (.aio nbytes .added)]).file = (s.file.writeAio nbytes).2.2 := by
  simp [Machine.exec, Machine.next, machine, step, hpc, WriteTask.advance, OssFile.writeAio]

theorem close_alone {s : Session} (hpc : s.pc = .idle) (hstub : s.file.stub = some i)
    (hsettled : s.tasks.all settled = true) :
    machine.exec s [.close, .close, .close] =
      { s with
        fs := (s.file.close s.fs s.mgr).2.1
        mgr := (s.file.close s.fs s.mgr).2.2.1
        file := (s.file.close s.fs s.mgr).2.2.2
        pc := .closed } := by
  have hfirst : s.closeStep = { s with pc := .loaded s.file.written } := by
    rw [closeStep_idle hpc hstub, if_pos hsettled]
  have hsecond := closeStep_loaded (s := { s with pc := .loaded s.file.written }) rfl hstub
  rw [OssFile.close_some hstub]
  change s.closeStep.closeStep.closeStep = _
  rw [hfirst, hsecond]
  exact closeStep_stored rfl hstub

structure Inv (i : ℕ) (s : Session) : Prop where
  written : s.file.written = BitVec.ofNat 64 (total added s.tasks)
  aioOps : s.file.writeAioOps = BitVec.ofNat 32 (total bumped s.tasks)
  settled : s.pc ≠ .idle → s.tasks.all settled = true
  holds : s.pc ≠ .closed → s.file.stub = some i ∧ (s.fs.stubs.get i).isOpenWrite = true
  stored : ∀ wb, s.pc = .stored wb →
    (s.fs.stubs.get i).size = wb ∧ (s.fs.stubs.get i).stat.size = wb
  recorded : s.pc = .closed →
    (s.fs.stubs.get i).size = s.file.stats.bytesWritten ∧
      (s.fs.stubs.get i).stat.size = s.file.stats.bytesWritten

theorem Inv.advance (h : s.Inv i) (t : WriteTask) : (s.step (.advance t)).Inv i := by
  simp only [step]
  split_ifs with ht
  · obtain ⟨k, c, hadded, hbumped, hwritten, hops⟩ := t.advance_counts s.file
    have hsession := t.advance_session s.file
    have htotal := total_replace added ht (t.advance s.file).1
    have hcalls := total_replace bumped ht (t.advance s.file).1
    refine ⟨?_, ?_, fun hpc => ?_, fun hpc => ?_, h.stored, fun hpc => ?_⟩
    · have hsum : total added ((t.advance s.file).1 :: s.tasks.erase t) =
          total added s.tasks + k := by omega
      rw [hwritten, h.written, hsum, BitVec.ofNat_add]
    · have hsum : total bumped ((t.advance s.file).1 :: s.tasks.erase t) =
          total bumped s.tasks + c := by omega
      rw [hops, h.aioOps, hsum, BitVec.ofNat_add]
    · have hall := List.all_eq_true.mp (h.settled hpc)
      rw [List.all_cons, Bool.and_eq_true, List.all_eq_true]
      exact ⟨(t.advance_same s.file).2.2 (hall t ht), fun u hu => hall u (List.mem_of_mem_erase hu)⟩
    · rw [hsession.stub]
      exact h.holds hpc
    · rw [hsession.stats]
      exact h.recorded hpc
  · exact h

theorem Inv.close (h : s.Inv i) : (s.step .close).Inv i := by
  change s.closeStep.Inv i
  cases hpc : s.pc with
  | idle =>
    have hholds := h.holds (by simp [hpc])
    rw [closeStep_idle hpc hholds.1]
    split_ifs with hsettled
    · exact ⟨h.written, h.aioOps, fun _ => hsettled, fun _ => hholds, by simp, by simp⟩
    · exact h
  | loaded wb =>
    have hholds := h.holds (by simp [hpc])
    have hstore := OssFile.storeSize_get s.fs.stubs i i wb
    rw [if_pos ⟨rfl, hholds.2⟩] at hstore
    rw [closeStep_loaded hpc hholds.1]
    refine ⟨h.written, h.aioOps, fun _ => h.settled (by simp [hpc]), fun _ => ⟨hholds.1, ?_⟩,
      fun wb' hwb => ?_, by simp⟩
    · rw [hstore]
      exact hholds.2
    · cases hwb
      rw [hstore]
      exact ⟨rfl, rfl⟩
  | stored wb =>
    have hholds := h.holds (by simp [hpc])
    rw [closeStep_stored hpc hholds.1]
    refine ⟨h.written, h.aioOps, fun _ => h.settled (by simp [hpc]), by simp, by simp, fun _ => ?_⟩
    have hsize := h.stored wb hpc
    rw [BlackholeFS.close_get]
    split_ifs <;> exact hsize
  | closed =>
    rwa [closeStep_closed hpc]

theorem Inv.issue (h : s.Inv i) (hpc : s.pc = .idle) {t : WriteTask} (hadded : t.added = 0)
    (hbumped : t.bumped = 0) : ({ s with tasks := t :: s.tasks } : Session).Inv i := by
  refine ⟨?_, ?_, fun hne => absurd hpc hne, h.holds, h.stored, h.recorded⟩
  · rw [total_cons, hadded, Nat.zero_add]
    exact h.written
  · rw [total_cons, hbumped, Nat.zero_add]
    exact h.aioOps

theorem Inv.step (h : s.Inv i) (c : SessionStep) : (s.step c).Inv i := by
  cases c with
  | issueSync blen =>
    simp only [Session.step]
    split_ifs with hpc
    · exact h.issue hpc rfl rfl
    · exact h
  | issueAio nbytes =>
    simp only [Session.step]
    split_ifs with hpc
    · exact h.issue hpc rfl rfl
    · exact h
  | advance t => exact h.advance t
  | close => exact h.close

theorem Inv.opened {f : OssFile} {fs : BlackholeFS} {path : Str} {flags mode : CInt}
    (hok : (f.open fs path flags mode).1 = XrdOssOK) (hwrite : ¬ readOnly flags)
    (hi : (f.open fs path flags mode).2.2.stub = some i) (mgr : Snapshot) :
    (Session.opened f fs mgr path flags mode).Inv i := by
  have hrc := (f.open_rc_eq_ok_iff fs path flags mode).mp hok
  have hflag : ∀ j, (fs.open path flags mode).2.files[path]? = some j →
      ((fs.open path flags mode).2.stubs.get j).isOpenWrite = true := fun j hj =>
    BlackholeFS.open_flag_bound hwrite (BlackholeFS.not_refused_of_rc hrc) hj
  rw [Session.opened, OssFile.open_ok hrc]
  rw [OssFile.open_ok hrc] at hi
  exact ⟨rfl, rfl, by simp, fun _ => ⟨hi, hflag i hi⟩, by simp, by simp⟩

def Exact (s : Session) : Prop :=
  match s.pc with
  | .idle => True
  | .loaded wb | .stored wb => wb.toInt = total bytes s.tasks
  | .closed => s.file.stats.bytesWritten.toInt = total bytes s.tasks ∧
      s.file.stats.writeAioOps.toNat = total aioCalls s.tasks

/-- When `Close` reads the byte counters, no acknowledged bytes are missing there,
and when it reads the operation counter, no acknowledged operation is. -/
def NoLag (s : Session) : SessionStep → Prop
  | .close =>
    match s.pc with
    | .idle => s.tasks.all settled = true →
        total unadded s.tasks = 0 ∧ total bytes s.tasks < 2 ^ 63
    | .stored _ => total unbumped s.tasks = 0 ∧ total aioCalls s.tasks < 2 ^ 32
    | _ => True
  | _ => True

theorem toInt_ofNat_eq_iff (a u : ℕ) :
    (BitVec.ofNat 64 a).toInt = ((a + u : ℕ) : ℤ) ↔ u = 0 ∧ a + u < 2 ^ 63 := by
  refine ⟨fun h => ?_, fun ⟨hu, hsum⟩ => ?_⟩
  · have hlt := BitVec.toInt_lt (x := BitVec.ofNat 64 a)
    rw [h] at hlt
    have hsum : a + u < 2 ^ 63 := by
      norm_num at hlt ⊢
      omega
    rw [toInt_ofNat_of_lt (by omega)] at h
    omega
  · rw [toInt_ofNat_of_lt (by omega)]
    omega

theorem toNat_ofNat_eq_iff (b v : ℕ) :
    (BitVec.ofNat 32 b).toNat = b + v ↔ v = 0 ∧ b + v < 2 ^ 32 := by
  rw [BitVec.toNat_ofNat]
  omega

theorem exact_close (h : s.Inv i) : s.closeStep.Exact ↔ s.Exact ∧ s.NoLag .close := by
  cases hpc : s.pc with
  | idle =>
    rw [closeStep_idle hpc (h.holds (by simp [hpc])).1]
    split_ifs with hsettled
    · obtain ⟨hbytes, _⟩ := total_lag hsettled
      simp only [Exact, NoLag, hpc, hsettled, h.written, hbytes, toInt_ofNat_eq_iff, true_and,
        forall_const]
    · simp [Exact, NoLag, hpc, hsettled]
  | loaded wb =>
    rw [closeStep_loaded hpc (h.holds (by simp [hpc])).1]
    simp [Exact, NoLag, hpc]
  | stored wb =>
    obtain ⟨_, hcalls⟩ := total_lag (h.settled (by simp [hpc]))
    rw [closeStep_stored hpc (h.holds (by simp [hpc])).1]
    simp only [Exact, NoLag, hpc, OssFile.transferStats, h.aioOps, hcalls, toNat_ofNat_eq_iff]
  | closed =>
    rw [closeStep_closed hpc]
    simp [NoLag, hpc]

theorem exact_advance (t : WriteTask) : (s.step (.advance t)).Exact ↔ s.Exact := by
  simp only [step]
  split_ifs with ht
  · have hsame := t.advance_same s.file
    have hbytes := total_replace bytes ht (t.advance s.file).1
    have hcalls := total_replace aioCalls ht (t.advance s.file).1
    rw [hsame.1] at hbytes
    rw [hsame.2.1] at hcalls
    simp only [Exact, Nat.add_left_cancel hbytes, Nat.add_left_cancel hcalls,
      (t.advance_session s.file).stats]
  · exact Iff.rfl

theorem exact_step (h : s.Inv i) (c : SessionStep) : (s.step c).Exact ↔ s.Exact ∧ s.NoLag c := by
  cases c with
  | issueSync blen =>
    simp only [step, NoLag, and_true]
    split_ifs with hpc
    · simp [Exact, hpc]
    · exact Iff.rfl
  | issueAio nbytes =>
    simp only [step, NoLag, and_true]
    split_ifs with hpc
    · simp [Exact, hpc]
    · exact Iff.rfl
  | advance t => simpa [NoLag] using exact_advance t
  | close => exact exact_close h

structure Complete (i : ℕ) (s : Session) : Prop where
  size : (s.fs.stubs.get i).size.toNat = total bytes s.tasks
  statSize : (s.fs.stubs.get i).stat.size.toInt = total bytes s.tasks
  bytesWritten : s.file.stats.bytesWritten.toInt = total bytes s.tasks
  writeAioOps : s.file.stats.writeAioOps.toNat = total aioCalls s.tasks

theorem complete_iff_exact (h : s.Inv i) (hpc : s.pc = .closed) : s.Complete i ↔ s.Exact := by
  obtain ⟨hsize, hstat⟩ := h.recorded hpc
  refine ⟨fun hs => ?_, fun hs => ?_⟩
  · rw [Exact, hpc]
    exact ⟨hs.bytesWritten, hs.writeAioOps⟩
  · rw [Exact, hpc] at hs
    have hnat : s.file.stats.bytesWritten.toNat = total bytes s.tasks := by
      have hint := hs.1
      rw [BitVec.toInt_eq_toNat_cond] at hint
      split_ifs at hint <;> omega
    exact ⟨hsize ▸ hnat, hstat ▸ hs.1, hs.1, hs.2⟩

/-- A `Close` which has run through among any writes reports the whole session
exactly when no count lagged as it read the counters. -/
theorem complete_iff (f : OssFile) (fs : BlackholeFS) (mgr : Snapshot) (path : Str)
    (flags mode : CInt) (hok : (f.open fs path flags mode).1 = XrdOssOK)
    (hwrite : ¬ readOnly flags) (cs : List SessionStep) {i : ℕ}
    (hi : (f.open fs path flags mode).2.2.stub = some i)
    (hclosed : (machine.exec (opened f fs mgr path flags mode) cs).pc = .closed) :
    (machine.exec (opened f fs mgr path flags mode) cs).Complete i ↔
      machine.EveryStep NoLag (opened f fs mgr path flags mode) cs := by
  have hstart := Inv.opened hok hwrite hi mgr
  have hend : (machine.exec (opened f fs mgr path flags mode) cs).Inv i :=
    Machine.exec_invariant (M := machine) (fun _ c hs => hs.step c) hstart cs
  rw [complete_iff_exact hend hclosed,
    Machine.exec_iff_everyStep (M := machine) (I := Inv i) (G := NoLag)
      (fun _ c hs => hs.step c) (fun _ c hs => exact_step hs c) hstart]
  exact and_iff_right trivial

theorem complete_after_write :
    (machine.exec (opened {} {} {} "/f".toList O_WRONLY 0)
        [.issueAio 10, .advance (.aio 10 .issued), .advance (.aio 10 .resultSet),
         .advance (.aio 10 .acknowledged), .advance (.aio 10 .added), .close, .close,
         .close]).Complete 0 := by
  refine (complete_iff {} {} {} "/f".toList O_WRONLY 0 rfl (by decide) _ rfl rfl).mpr
    ⟨trivial, trivial, trivial, trivial, trivial, fun _ => ?_, trivial, ?_, trivial⟩
  · exact ⟨rfl, by decide⟩
  · exact ⟨rfl, by decide⟩

def closeBeforeCount : List SessionStep :=
  [.issueAio 10, .advance (.aio 10 .issued), .advance (.aio 10 .resultSet), .close, .close,
   .close, .advance (.aio 10 .acknowledged), .advance (.aio 10 .added)]

theorem close_misses_acknowledged :
    (machine.exec (opened {} {} {} "/f".toList O_WRONLY 0) closeBeforeCount).pc = .closed ∧
      ¬ (machine.exec (opened {} {} {} "/f".toList O_WRONLY 0) closeBeforeCount).Complete 0 :=
  ⟨rfl, fun h => absurd h.size (by decide)⟩

end Session

end XrdBlackhole
