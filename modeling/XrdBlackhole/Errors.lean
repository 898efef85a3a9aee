import XrdBlackhole.Sessions

/-!
# The error counter

A handle counts an error only while it has no stub, `Open` resets the counter, and
only a `Close` with a stub submits it. So the manager never hears of an error. The
calls which do fail on an open handle are `Fsync` and `Ftruncate`, which nothing
counts, and a read whose length does not fit `ssize_t`.
-/

namespace XrdBlackhole

def ENOTSUP : ℤ := 95

def OssFile.fsync (_ : OssFile) : ℤ := -ENOTSUP
def OssFile.ftruncate (_ : OssFile) (_ : Word) : ℤ := -ENOTSUP

inductive AnyCall
  | call (c : Call)
  | fsync (h : ℕ)
  | ftruncate (h : ℕ) (len : Word)

namespace World

def stepAny (w : World) : AnyCall → World × Reply
  | .call c => w.step c
  | .fsync h => (w, ⟨(w.file h).fsync, 0, {}⟩)
  | .ftruncate h len => (w, ⟨(w.file h).ftruncate len, 0, {}⟩)

def anyMachine : Machine World AnyCall Reply := ⟨World.stepAny⟩

end World

def errorHandle : AnyCall → Option ℕ
  | .call (.io _ (.write _ _)) | .call (.io _ (.writeAio _ _)) => none
  | .call (.io h _) | .fsync h | .ftruncate h _ => some h
  | .call _ => none

/-- Whether the call returns a negative value on an open handle, or sets a negative
result there. -/
def errorReturns (w : World) (c : AnyCall) : ℕ :=
  match errorHandle c with
  | none => 0
  | some h =>
    if (w.file h).stub ≠ none ∧ ((w.stepAny c).2.rc < 0 ∨ (w.stepAny c).2.result < 0) then 1 else 0

def ReadFits (f : OssFile) (offset blen : Word) : Prop :=
  f.stub ≠ none → offset.toInt < 0 ∨ blen.toNat < 2 ^ 63 ∨
    f.size.toNat < offset.toNat + 2 ^ 63

def ErrorFree (w : World) : AnyCall → Prop
  | .fsync h | .ftruncate h _ => (w.file h).stub = none
  | .call (.io h (.read _ offset blen)) | .call (.io h (.readAio _ offset blen))
  | .call (.io h (.readRaw _ offset blen)) => ReadFits (w.file h) offset blen
  | .call _ => True

namespace OssFile
variable {f : OssFile} {i : ℕ}

theorem io_errors (hstub : f.stub = some i) (fs : BlackholeFS) (mem : Mem) (c : IoCall) :
    (f.io fs mem c).2.2.errors = f.errors := by
  have hread : ∀ buff offset blen, (f.read mem buff offset blen).2.2.errors = f.errors := by
    intro buff offset blen
    rw [read_some hstub]
    dsimp only
    split_ifs <;> rfl
  cases c with
  | write offset blen => rfl
  | writeAio offset nbytes => rfl
  | read buff offset blen => exact hread buff offset blen
  | readAio buff offset nbytes => exact hread buff offset nbytes
  | readRaw buff offset blen => exact hread buff offset blen
  | readV segs =>
    obtain ⟨s, _, hreadV⟩ := readV_some hstub mem segs
    simp only [OssFile.io, hreadV]
  | preposition offset blen => simp only [OssFile.io, preposition_some hstub]
  | fstat => rfl

theorem read_neg_iff (hstub : f.stub = some i) (mem : Mem) (buff : ℕ) (offset blen : Word) :
    (f.read mem buff offset blen).1 < 0 ↔ ¬ ReadFits f offset blen := by
  have hlen := f.readInner_count mem buff offset blen
  rw [read_some hstub, ReadFits]
  simp only [hstub, ne_eq, reduceCtorEq, not_false_eq_true, forall_const]
  rw [ReadView.count] at hlen
  rw [BitVec.toInt_eq_toNat_cond]
  have hsize := f.size.isLt
  have hblen := blen.isLt
  split_ifs at hlen ⊢ <;> omega

end OssFile

structure NothingCounted (w : World) : Prop where
  file {h i : ℕ} : (w.file h).stub = some i → (w.file h).errors = 0
  total : w.mgr.totalErrors = 0

namespace NothingCounted
variable {w : World}

theorem init : NothingCounted {} := ⟨fun _ => rfl, rfl⟩

theorem fileOpen (hw : NothingCounted w) (h : ℕ) (path : Str) (flags mode : CInt) :
    NothingCounted (w.step (.fileOpen h path flags mode)).1 := by
  refine ⟨fun {g i} hstub => ?_, hw.total⟩
  rw [World.step_open_file] at hstub ⊢
  split_ifs at hstub ⊢ with hg
  · rcases lt_or_ge (w.fs.open path flags mode).1 0 with hrc | hrc
    · rw [OssFile.open_file_failed hrc] at hstub ⊢
      exact hw.file hstub
    · rw [OssFile.open_file_ok hrc]
      rfl
  · exact hw.file hstub

theorem fileClose (hw : NothingCounted w) (h : ℕ) :
    NothingCounted (w.step (.fileClose h)).1 := by
  refine ⟨fun {g i} hstub => ?_, ?_⟩
  · rw [World.step_close_stub] at hstub
    split_ifs at hstub with hg
    rw [World.step_close_file, if_neg hg]
    exact hw.file hstub
  · cases hstub : (w.file h).stub with
    | none =>
      simp only [World.step, OssFile.close_none hstub]
      exact hw.total
    | some i =>
      simp only [World.step, OssFile.close_some hstub, World.setFile, Snapshot.recordTransfer,
        OssFile.transferStats, hw.file hstub, hw.total]
      rfl

theorem io (hw : NothingCounted w) (h : ℕ) (c : IoCall) :
    NothingCounted (w.step (.io h c)).1 := by
  refine ⟨fun {g i} hstub => ?_, hw.total⟩
  rw [(w.step_io_session h g c).stub] at hstub
  rw [World.step_io_file]
  split_ifs with hg
  · subst hg
    rw [OssFile.io_errors hstub]
    exact hw.file hstub
  · exact hw.file hstub

theorem step (hw : NothingCounted w) (c : AnyCall) : NothingCounted (w.stepAny c).1 := by
  cases c with
  | call c =>
    cases c with
    | ns c => exact ⟨hw.file, hw.total⟩
    | fileOpen h path flags mode => exact hw.fileOpen h path flags mode
    | fileClose h => exact hw.fileClose h
    | io h c => exact hw.io h c
    | stat path => exact hw
  | fsync h => exact hw
  | ftruncate h len => exact hw

theorem exec (cs : List AnyCall) : NothingCounted (World.anyMachine.exec {} cs) :=
  Machine.exec_invariant (M := World.anyMachine) (fun _ c hw => hw.step c) init cs

end NothingCounted

theorem errorReturns_eq_zero_iff (w : World) (c : AnyCall) :
    errorReturns w c = 0 ↔ ErrorFree w c := by
  -- on an open handle the reply decides, on any other handle there is nothing to count
  have hopen : ∀ {h : ℕ} {P Q : Prop} [Decidable P],
      (∀ i, (w.file h).stub = some i → (P ↔ ¬ Q)) → ((w.file h).stub = none → Q) →
      ((if (w.file h).stub ≠ none ∧ P then 1 else 0) = 0 ↔ Q) := by
    intro h P Q _ hPQ hnone
    cases hstub : (w.file h).stub with
    | none => simpa using hnone hstub
    | some i => simp [hPQ i hstub]
  have hread : ∀ {h : ℕ} {offset blen : Word},
      (w.file h).stub = none → ReadFits (w.file h) offset blen :=
    fun hnone hsome => absurd hnone hsome
  cases c with
  | call c =>
    cases c with
    | ns c => exact iff_of_true rfl trivial
    | fileOpen h path flags mode => exact iff_of_true rfl trivial
    | fileClose h => exact iff_of_true rfl trivial
    | stat path => exact iff_of_true rfl trivial
    | io h c =>
      cases c with
      | write offset blen => exact iff_of_true rfl trivial
      | writeAio offset nbytes => exact iff_of_true rfl trivial
      | read buff offset blen =>
        exact hopen (fun i hstub => (or_iff_left (lt_irrefl 0)).trans
          (OssFile.read_neg_iff hstub w.mem buff offset blen)) hread
      | readAio buff offset nbytes =>
        exact hopen (fun i hstub => (or_iff_right (lt_irrefl 0)).trans
          (OssFile.read_neg_iff hstub w.mem buff offset nbytes)) hread
      | readRaw buff offset blen =>
        exact hopen (fun i hstub => (or_iff_left (lt_irrefl 0)).trans
          (OssFile.read_neg_iff hstub w.mem buff offset blen)) hread
      | readV segs =>
        refine hopen (fun i hstub => iff_of_false ?_ (not_not.mpr trivial)) fun _ => trivial
        obtain ⟨s, htotal, hreadV⟩ := OssFile.readV_some hstub w.mem segs
        simp only [World.stepAny, World.step, OssFile.io, hreadV, toInt_of_lt htotal]
        omega
      | preposition offset blen =>
        refine hopen (fun i hstub => iff_of_false ?_ (not_not.mpr trivial)) fun _ => trivial
        simp only [World.stepAny, World.step, OssFile.io, OssFile.preposition_some hstub]
        decide
      | fstat =>
        refine hopen (fun i hstub => iff_of_false ?_ (not_not.mpr trivial)) fun _ => trivial
        simp only [World.stepAny, World.step, OssFile.io, OssFile.fstat, hstub]
        decide
  | fsync h =>
    have herror : -ENOTSUP < 0 := by decide
    exact hopen (fun i hstub => iff_of_true (.inl herror) fun hnone => by
      cases hstub.symm.trans hnone) id
  | ftruncate h len =>
    have herror : -ENOTSUP < 0 := by decide
    exact hopen (fun i hstub => iff_of_true (.inl herror) fun hnone => by
      cases hstub.symm.trans hnone) id

/-- In every run the exported total is the number of error returns on open handles
exactly when no call of the run returns an error on an open handle. -/
theorem errors_counted_iff (cs : List AnyCall) :
    (World.anyMachine.exec {} cs).mgr.totalErrors.toNat =
        World.anyMachine.total errorReturns {} cs ↔
      World.anyMachine.EveryStep ErrorFree {} cs := by
  have hnone : (World.anyMachine.exec {} cs).mgr.totalErrors.toNat = 0 := by
    rw [(NothingCounted.exec cs).total]
    rfl
  rw [hnone, eq_comm, Machine.total_eq_zero_iff]
  simp only [errorReturns_eq_zero_iff]

def syncedUpload : List AnyCall :=
  [.call (.fileOpen 0 "/f".toList O_WRONLY 0o644), .fsync 0, .call (.fileClose 0)]

theorem fsync_error_uncounted :
    ((World.anyMachine.exec {} syncedUpload).file 0).stub = none ∧
      (World.anyMachine.exec {} syncedUpload).mgr.totalErrors.toNat ≠
        World.anyMachine.total errorReturns {} syncedUpload := by
  decide

end XrdBlackhole
