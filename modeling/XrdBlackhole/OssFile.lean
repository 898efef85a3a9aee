import XrdBlackhole.Namespace
import XrdBlackhole.ReadInner
import XrdBlackhole.Stats

/-!
# File handles

`OssFile` is one `XrdBlackholeOssFile` object. The throttle only sleeps and the
clock readings only feed the throughput figures, so both are left out. Every
operation here runs as one step; `Open` is the composition of its two critical
sections `opened` and `adopt`.
-/

namespace XrdBlackhole

structure OssFile extends ReadView where
  stub : Option ℕ := none
  path : Str := []
  writeBytes : Word := 0
  writeBytesAIO : Word := 0
  readBytes : Word := 0
  writeOps : CInt := 0
  writeAioOps : CInt := 0
  readOps : CInt := 0
  errors : CInt := 0
  stats : TransferStats := {}
  deriving DecidableEq

structure IOVec where
  data : ℕ
  offset : Word
  size : CInt

abbrev IOVecs := {segs : List IOVec // segs.length < 2 ^ 31}

def Stub.view (s : Stub) : ReadView where
  size := s.size
  isRandom := s.readtype == random
  ino := s.stat.ino

namespace OssFile

/-- `Open` after `BlackholeFS::open` has succeeded: fetch the stub by path, reset
the counters and cache the stub. -/
def adopt (f : OssFile) (fs : BlackholeFS) (path : Str) (flags : CInt) : OssFile :=
  let stub := fs.getStub path
  { toReadView := match stub with
      | none => {}
      | some i => (fs.stubs.get i).view
    stub := stub
    path := f.path
    stats := { path := path, wasWrite := !decide (readOnly flags) } }

def «open» (f : OssFile) (fs : BlackholeFS) (path : Str) (flags mode : CInt) :
    ℤ × BlackholeFS × OssFile :=
  let f := { f with path := path }
  let r := fs.open path flags mode
  if r.1 < 0 then (r.1, r.2, f) else (XrdOssOK, r.2, f.adopt r.2 path flags)

def written (f : OssFile) : Word := f.writeBytes + f.writeBytesAIO

def storeSize (stubs : Heap Stub) (i : ℕ) (wb : Word) : Heap Stub :=
  stubs.modify i fun s =>
    if s.isOpenWrite then { s with size := wb, stat := { s.stat with size := wb } } else s

def transferStats (f : OssFile) (wb : Word) : TransferStats :=
  { f.stats with
    bytesWritten := wb
    bytesRead := f.readBytes
    writeOps := f.writeOps
    writeAioOps := f.writeAioOps
    readOps := f.readOps
    errors := f.errors }

def close (f : OssFile) (fs : BlackholeFS) (mgr : Snapshot) :
    ℤ × BlackholeFS × Snapshot × OssFile :=
  match f.stub with
  | none => (-ENOENT, fs, mgr, f)
  | some i =>
    let wb := f.written
    let fs := { fs with stubs := storeSize fs.stubs i wb }
    let stats := f.transferStats wb
    (XrdOssOK, fs.close f.path, mgr.recordTransfer stats, { f with stub := none, stats := stats })

def preposition (f : OssFile) : ℤ × OssFile :=
  match f.stub with
  | none => (-EINVAL, { f with errors := f.errors + 1 })
  | some _ => (XrdOssOK, f)

def read (f : OssFile) (mem : Mem) (buff : ℕ) (offset blen : Word) : ℤ × Mem × OssFile :=
  match f.stub with
  | none => (-EINVAL, mem, { f with errors := f.errors + 1 })
  | some _ =>
    let r := f.readInner mem buff offset blen
    (r.1.toInt, r.2,
      if 0 < r.1.toInt then { f with readBytes := f.readBytes + r.1, readOps := f.readOps + 1 }
      else f)

def readAio (f : OssFile) (mem : Mem) (buff : ℕ) (offset nbytes : Word) :
    ℤ × ℤ × Mem × OssFile :=
  (XrdOssOK, f.read mem buff offset nbytes)

def readRaw (f : OssFile) (mem : Mem) (buff : ℕ) (offset blen : Word) : ℤ × Mem × OssFile :=
  f.read mem buff offset blen

structure VecState where
  mem : Mem
  total : Word := 0
  ops : CInt := 0

/-- The segment loop; `inl` is the early return of a negative count. -/
def vecLoop (v : ReadView) : VecState → List IOVec → (ℤ × Mem) ⊕ VecState
  | s, [] => .inr s
  | s, seg :: segs =>
    if seg.size.toInt ≤ 0 then vecLoop v s segs
    else
      let r := v.readInner s.mem seg.data seg.offset (seg.size.signExtend 64)
      if r.1.toInt < 0 then .inl (r.1.toInt, r.2)
      else vecLoop v ⟨r.2, s.total + r.1, s.ops + 1⟩ segs

def readV (f : OssFile) (mem : Mem) (segs : List IOVec) : ℤ × Mem × OssFile :=
  if segs = [] then (0, mem, f)
  else
    match f.stub with
    | none => (-EINVAL, mem, { f with errors := f.errors + 1 })
    | some _ =>
      match vecLoop f.toReadView { mem := mem } segs with
      | .inl r => (r.1, r.2, f)
      | .inr s =>
        (s.total.toInt, s.mem,
          { f with readBytes := f.readBytes + s.total, readOps := f.readOps + s.ops })

def fstat (f : OssFile) (fs : BlackholeFS) : ℤ × StatBuf :=
  match f.stub with
  | none => (-ENOENT, {})
  | some i => (XrdOssOK, { (fs.stubs.get i).stat with mode := 0o666 ||| S_IFREG })

/-- Neither the offset nor the state of the handle is checked. -/
def write (f : OssFile) (blen : Word) : ℤ × OssFile :=
  (blen.toInt, { f with writeBytes := f.writeBytes + blen, writeOps := f.writeOps + 1 })

def writeAio (f : OssFile) (nbytes : Word) : ℤ × ℤ × OssFile :=
  (XrdOssOK, nbytes.toInt,
    { f with writeBytesAIO := f.writeBytesAIO + nbytes, writeAioOps := f.writeAioOps + 1 })

theorem signExtend_toNat {size : CInt} (h : 0 < size.toInt) :
    ((size.signExtend 64).toNat : ℤ) = size.toInt := by
  have hlt : size.toNat < 2 ^ 31 := by
    rw [BitVec.toInt_eq_toNat_cond] at h
    have hsize := size.isLt
    omega
  have hmsb : size.msb = false := by
    rw [BitVec.msb_eq_false_iff_two_mul_lt]
    omega
  rw [BitVec.signExtend_eq_setWidth_of_msb_false hmsb, BitVec.toNat_setWidth,
    BitVec.toInt_eq_toNat_cond, if_pos (by omega)]
  omega

theorem count_segment_lt (v : ReadView) (offset : Word) {size : CInt} (h : 0 < size.toInt) :
    v.count offset (size.signExtend 64) < 2 ^ 31 := by
  have hle := v.count_le_blen offset (size.signExtend 64)
  have hsize := signExtend_toNat h
  have hlt := BitVec.toInt_lt (x := size)
  omega

def vecTotal (v : ReadView) : List IOVec → ℕ
  | [] => 0
  | seg :: segs =>
    (if seg.size.toInt ≤ 0 then 0 else v.count seg.offset (seg.size.signExtend 64)) +
      vecTotal v segs

def vecMem (v : ReadView) : Mem → List IOVec → Mem
  | mem, [] => mem
  | mem, seg :: segs =>
    if seg.size.toInt ≤ 0 then vecMem v mem segs
    else vecMem v (v.readInner mem seg.data seg.offset (seg.size.signExtend 64)).2 segs

def vecOps : List IOVec → ℕ
  | [] => 0
  | seg :: segs => (if seg.size.toInt ≤ 0 then 0 else 1) + vecOps segs

theorem vecTotal_le (v : ReadView) (segs : List IOVec) :
    vecTotal v segs ≤ segs.length * 2 ^ 31 := by
  induction segs with
  | nil => exact Nat.zero_le _
  | cons seg segs ih =>
    have hseg : (if seg.size.toInt ≤ 0 then 0
        else v.count seg.offset (seg.size.signExtend 64)) ≤ 2 ^ 31 := by
      split_ifs with hsize
      · exact Nat.zero_le _
      · exact (count_segment_lt v seg.offset (not_le.mp hsize)).le
    rw [vecTotal, List.length_cons, Nat.succ_mul]
    omega

theorem vecLoop_eq (v : ReadView) (segs : List IOVec) (s : VecState) :
    vecLoop v s segs = .inr
      { mem := vecMem v s.mem segs
        total := s.total + BitVec.ofNat 64 (vecTotal v segs)
        ops := s.ops + BitVec.ofNat 32 (vecOps segs) } := by
  induction segs generalizing s with
  | nil => simp [vecLoop, vecMem, vecTotal, vecOps]
  | cons seg segs ih =>
    rw [vecLoop, vecMem, vecTotal, vecOps]
    by_cases hsize : seg.size.toInt ≤ 0
    · simp only [hsize, if_true, Nat.zero_add, ih]
    · have hcount := v.readInner_count s.mem seg.data seg.offset (seg.size.signExtend 64)
      have hlt := count_segment_lt v seg.offset (not_le.mp hsize)
      have hnonneg : ¬ (v.readInner s.mem seg.data seg.offset
          (seg.size.signExtend 64)).1.toInt < 0 := by
        rw [toInt_of_lt (by omega)]
        omega
      simp only [hsize, if_false, hnonneg, ih, BitVec.ofNat_add, ← hcount, BitVec.ofNat_toNat,
        BitVec.setWidth_eq, BitVec.add_assoc]
      rfl

theorem open_failed {f : OssFile} {fs : BlackholeFS} {path : Str} {flags mode : CInt}
    (h : (fs.open path flags mode).1 < 0) :
    f.open fs path flags mode =
      ((fs.open path flags mode).1, (fs.open path flags mode).2, { f with path := path }) := by
  simp [OssFile.open, h]

theorem open_ok {f : OssFile} {fs : BlackholeFS} {path : Str} {flags mode : CInt}
    (h : 0 ≤ (fs.open path flags mode).1) :
    f.open fs path flags mode = (XrdOssOK, (fs.open path flags mode).2,
      adopt { f with path := path } (fs.open path flags mode).2 path flags) := by
  simp [OssFile.open, not_lt.mpr h]

@[simp] theorem open_fs (f : OssFile) (fs : BlackholeFS) (path : Str) (flags mode : CInt) :
    (f.open fs path flags mode).2.1 = (fs.open path flags mode).2 := by
  rcases lt_or_ge (fs.open path flags mode).1 0 with h | h
  · rw [open_failed h]
  · rw [open_ok h]

theorem open_rc_eq_ok_iff (f : OssFile) (fs : BlackholeFS) (path : Str) (flags mode : CInt) :
    (f.open fs path flags mode).1 = XrdOssOK ↔ 0 ≤ (fs.open path flags mode).1 := by
  rcases lt_or_ge (fs.open path flags mode).1 0 with h | h
  · rw [open_failed h]
    exact ⟨fun he => he.ge, fun hge => absurd h (not_lt.mpr hge)⟩
  · rw [open_ok h]
    exact ⟨fun _ => h, fun _ => rfl⟩

theorem adopt_view {fs : BlackholeFS} {path : Str} {i : ℕ} (h : fs.getStub path = some i)
    (f : OssFile) (flags : CInt) :
    (f.adopt fs path flags).toReadView = (fs.stubs.get i).view := by
  simp only [OssFile.adopt, h]

theorem openRead_view (fs : BlackholeFS) (stub j : ℕ) (flags mode : CInt) :
    ((fs.openRead stub flags mode).2.stubs.get j).view = (fs.stubs.get j).view := by
  simp only [BlackholeFS.openRead, Heap.modify_get]
  split_ifs <;> rfl

theorem close_none {f : OssFile} (h : f.stub = none) (fs : BlackholeFS) (mgr : Snapshot) :
    f.close fs mgr = (-ENOENT, fs, mgr, f) := by
  simp [OssFile.close, h]

theorem close_some {f : OssFile} {i : ℕ} (h : f.stub = some i) (fs : BlackholeFS)
    (mgr : Snapshot) :
    f.close fs mgr =
      (XrdOssOK, BlackholeFS.close { fs with stubs := storeSize fs.stubs i f.written } f.path,
        mgr.recordTransfer (f.transferStats f.written),
        { f with stub := none, stats := f.transferStats f.written }) := by
  simp [OssFile.close, h]

theorem read_none {f : OssFile} (h : f.stub = none) (mem : Mem) (buff : ℕ)
    (offset blen : Word) :
    f.read mem buff offset blen = (-EINVAL, mem, { f with errors := f.errors + 1 }) := by
  simp only [OssFile.read, h]

theorem read_some {f : OssFile} {i : ℕ} (h : f.stub = some i) (mem : Mem) (buff : ℕ)
    (offset blen : Word) :
    f.read mem buff offset blen =
      ((f.readInner mem buff offset blen).1.toInt, (f.readInner mem buff offset blen).2,
        if 0 < (f.readInner mem buff offset blen).1.toInt then
          { f with
            readBytes := f.readBytes + (f.readInner mem buff offset blen).1
            readOps := f.readOps + 1 }
        else f) := by
  simp only [OssFile.read, h]

theorem readV_none {f : OssFile} (h : f.stub = none) (mem : Mem) {segs : List IOVec}
    (hsegs : segs ≠ []) :
    f.readV mem segs = (-EINVAL, mem, { f with errors := f.errors + 1 }) := by
  simp only [OssFile.readV, h, hsegs, if_false]

theorem readV_eq {f : OssFile} {i : ℕ} (h : f.stub = some i) (mem : Mem) (segs : List IOVec) :
    f.readV mem segs =
      ((BitVec.ofNat 64 (vecTotal f.toReadView segs)).toInt, vecMem f.toReadView mem segs,
        { f with
          readBytes := f.readBytes + BitVec.ofNat 64 (vecTotal f.toReadView segs)
          readOps := f.readOps + BitVec.ofNat 32 (vecOps segs) }) := by
  by_cases hsegs : segs = []
  · simp [OssFile.readV, hsegs, vecTotal, vecMem, vecOps]
  · simp [OssFile.readV, hsegs, h, vecLoop_eq]

theorem vecTotal_lt (v : ReadView) (segs : IOVecs) : vecTotal v segs.1 < 2 ^ 63 := by
  have hle := vecTotal_le v segs.1
  have hlen := segs.2
  omega

theorem readV_some {f : OssFile} {i : ℕ} (h : f.stub = some i) (mem : Mem) (segs : IOVecs) :
    ∃ s : VecState, s.total.toNat < 2 ^ 63 ∧
      f.readV mem segs.1 = (s.total.toInt, s.mem,
        { f with readBytes := f.readBytes + s.total, readOps := f.readOps + s.ops }) := by
  have hlt := vecTotal_lt f.toReadView segs
  exact ⟨⟨_, BitVec.ofNat 64 (vecTotal f.toReadView segs.1), _⟩, by rwa [toNat_ofNat_of_lt hlt],
    readV_eq h mem segs.1⟩

theorem preposition_none {f : OssFile} (h : f.stub = none) :
    f.preposition = (-EINVAL, { f with errors := f.errors + 1 }) := by
  simp only [OssFile.preposition, h]

theorem preposition_some {f : OssFile} {i : ℕ} (h : f.stub = some i) :
    f.preposition = (XrdOssOK, f) := by
  simp only [OssFile.preposition, h]

theorem storeSize_get (stubs : Heap Stub) (i j : ℕ) (wb : Word) :
    (storeSize stubs i wb).get j =
      if j = i ∧ (stubs.get j).isOpenWrite then
        { stubs.get j with size := wb, stat := { (stubs.get j).stat with size := wb } }
      else stubs.get j := by
  rw [storeSize, Heap.modify_get]
  by_cases hj : j = i
  · simp [hj]
  · simp [hj]

@[simp] theorem close_files (f : OssFile) (fs : BlackholeFS) (mgr : Snapshot) :
    (f.close fs mgr).2.1.files = fs.files := by
  cases h : f.stub with
  | none => rw [close_none h]
  | some i => simp [close_some h]

@[simp] theorem close_fdLast (f : OssFile) (fs : BlackholeFS) (mgr : Snapshot) :
    (f.close fs mgr).2.1.fdLast = fs.fdLast := by
  cases h : f.stub with
  | none => rw [close_none h]
  | some i => simp [close_some h]

@[simp] theorem close_stubs_next (f : OssFile) (fs : BlackholeFS) (mgr : Snapshot) :
    (f.close fs mgr).2.1.stubs.next = fs.stubs.next := by
  cases h : f.stub with
  | none => rw [close_none h]
  | some i => simp [close_some h, storeSize]

theorem close_get {f : OssFile} {i : ℕ} (h : f.stub = some i) (fs : BlackholeFS)
    (mgr : Snapshot) (j : ℕ) :
    (f.close fs mgr).2.1.stubs.get j =
      if fs.files[f.path]? = some j then
        { (storeSize fs.stubs i f.written).get j with isOpenWrite := false }
      else (storeSize fs.stubs i f.written).get j := by
  rw [close_some h, BlackholeFS.close_get]

theorem close_flag {f : OssFile} {i : ℕ} (h : f.stub = some i) (fs : BlackholeFS)
    (mgr : Snapshot) (j : ℕ) :
    ((f.close fs mgr).2.1.stubs.get j).isOpenWrite = true ↔
      (fs.stubs.get j).isOpenWrite = true ∧ fs.files[f.path]? ≠ some j := by
  rw [close_get h, storeSize_get]
  split_ifs <;> simp_all

theorem close_size {f : OssFile} {i : ℕ} (h : f.stub = some i) (fs : BlackholeFS)
    (mgr : Snapshot) (j : ℕ) :
    ((f.close fs mgr).2.1.stubs.get j).size =
        (if j = i ∧ (fs.stubs.get j).isOpenWrite then f.written else (fs.stubs.get j).size) ∧
      ((f.close fs mgr).2.1.stubs.get j).stat.size =
        (if j = i ∧ (fs.stubs.get j).isOpenWrite then f.written
          else (fs.stubs.get j).stat.size) := by
  rw [close_get h, storeSize_get]
  split_ifs <;> exact ⟨rfl, rfl⟩

theorem close_readtype {f : OssFile} {i : ℕ} (h : f.stub = some i) (fs : BlackholeFS)
    (mgr : Snapshot) (j : ℕ) :
    ((f.close fs mgr).2.1.stubs.get j).readtype = (fs.stubs.get j).readtype := by
  rw [close_get h, storeSize_get]
  split_ifs <;> rfl

end OssFile

end XrdBlackhole
