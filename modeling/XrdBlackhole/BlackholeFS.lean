import XrdBlackhole.Stub
import XrdBlackhole.Library.Machine

/-!
# The in-memory namespace

`files` is the ordered map `m_files`, `fdLast` the descriptor counter `m_fd_last`
and `stubs` holds every stub which a `shared_ptr` may still reach. Each operation
is one critical section of `m_mutexFD`.
-/

namespace XrdBlackhole

abbrev Files := Std.ExtTreeMap Str ℕ compare

structure BlackholeFS where
  files : Files := ∅
  fdLast : Word := 0
  stubs : Heap Stub := Heap.empty

namespace BlackholeFS

/-- The 64-bit counter is returned through an `int`. -/
def fdToInt (fd : Word) : ℤ := (fd.setWidth 32).toInt

def getStub (fs : BlackholeFS) (fname : Str) : Option ℕ := fs.files[fname]?

/-- `std::string::rfind`, where `none` is `npos`. -/
def rfind (s : Str) (c : Char) : Option ℕ :=
  (s.reverse.idxOf? c).map fun k => s.length - 1 - k

def parentOf (fpath : Str) : Str :=
  match rfind fpath '/' with
  | some slash => if slash = 0 then "/".toList else fpath.take slash
  | none => fpath

def nameOf (fpath : Str) : Str :=
  match rfind fpath '/' with
  | some slash => fpath.drop (slash + 1)
  | none => fpath

def normalise (path : Str) : Str :=
  if 1 < path.length ∧ path.getLast? = some '/' then path.dropLast else path

def readdir (fs : BlackholeFS) (path : Str) (entries : List Str) : List Str :=
  entries ++ fs.files.toList.filterMap fun kv =>
    if parentOf kv.1 = normalise path then some (nameOf kv.1) else none

def rename (fs : BlackholeFS) (src dst : Str) : ℤ × BlackholeFS :=
  match fs.files[src]? with
  | none => (-ENOENT, fs)
  | some stub =>
    let files := (fs.files.erase dst).insertIfNew dst stub
    (0, { fs with files := if src ≠ dst then files.erase src else files })

def unlink (fs : BlackholeFS) (fname : Str) : ℤ × BlackholeFS :=
  match fs.files[fname]? with
  | none => (-ENOENT, fs)
  | some _ => (0, { fs with files := fs.files.erase fname })

def openRead (fs : BlackholeFS) (stub : ℕ) (flags mode : CInt) : ℤ × BlackholeFS :=
  let fd := fs.fdLast + 1
  (fdToInt fd, { fs with
    fdLast := fd
    stubs := fs.stubs.modify stub fun s => { s with flags := flags, mode := mode } })

def reuse (fs : BlackholeFS) (stub : ℕ) (flags mode : CInt) : ℤ × BlackholeFS :=
  let fd := fs.fdLast + 1
  (fdToInt fd, { fs with
    fdLast := fd
    stubs := fs.stubs.modify stub fun s =>
      { s with isOpenWrite := true, flags := flags, mode := mode } })

def create (fs : BlackholeFS) (fname : Str) (flags mode : CInt) : ℤ × BlackholeFS :=
  let tmp := fs.fdLast + 1
  (fdToInt tmp, {
    files := fs.files.insertIfNew fname fs.stubs.next
    fdLast := tmp
    stubs := fs.stubs.alloc
      { isOpenWrite := true, size := 0, flags := flags, mode := mode,
        stat := { dev := 1, ino := tmp } } })

def «open» (fs : BlackholeFS) (fname : Str) (flags mode : CInt) : ℤ × BlackholeFS :=
  if readOnly flags then
    match fs.files[fname]? with
    | none => (-ENOENT, fs)
    | some stub => fs.openRead stub flags mode
  else
    match fs.files[fname]? with
    | some stub =>
      -- `O_EXCL` wins over `O_TRUNC`
      if excl flags then (-EEXIST, fs)
      else if trunc flags then
        create { fs with files := fs.files.erase fname } fname flags mode
      else fs.reuse stub flags mode
    | none => fs.create fname flags mode

def close (fs : BlackholeFS) (fname : Str) : BlackholeFS :=
  match fs.files[fname]? with
  | none => fs
  | some stub =>
    { fs with stubs := fs.stubs.modify stub fun s => { s with isOpenWrite := false } }

/-- `insert` keeps an existing binding: the new stub is then dropped. -/
def seed (fs : BlackholeFS) (path : Str) (size : Word) (readtype : Str) : BlackholeFS :=
  let tmp := fs.fdLast + 1
  { files := fs.files.insertIfNew path fs.stubs.next
    fdLast := tmp
    stubs := fs.stubs.alloc
      { special := true, readtype := readtype, size := size,
        stat := { size := size, dev := 1, ino := tmp } } }

def specs : List (Str × Word) :=
  [("/testfile_zeros_1MiB".toList, 1 * 1024 * 1024),
   ("/testfile_zeros_1GiB".toList, 1 * 1024 * 1024 * 1024),
   ("/testfile_zeros_10GiB".toList, 10 * 1024 * 1024 * 1024)]

def createDefaults (fs : BlackholeFS) (path : Str) : BlackholeFS :=
  specs.foldl (fun fs spec => fs.seed (path ++ spec.1) spec.2 zeros) fs

end BlackholeFS

theorem files_insertIfNew (m : Files) (k a : Str) (v : ℕ) :
    (m.insertIfNew k v)[a]? = if a = k ∧ m[k]? = none then some v else m[a]? := by
  rw [Std.ExtTreeMap.getElem?_insertIfNew]
  simp only [Std.LawfulEqCmp.compare_eq_iff_eq, ← Std.ExtTreeMap.isSome_getElem?_iff_mem,
    Option.not_isSome_iff_eq_none, eq_comm (a := k)]

theorem files_erase (m : Files) (k a : Str) :
    (m.erase k)[a]? = if a = k then none else m[a]? := by
  rw [Std.ExtTreeMap.getElem?_erase]
  simp only [Std.LawfulEqCmp.compare_eq_iff_eq, eq_comm (a := k)]

theorem files_insert_fresh {m : Files} {k : Str} (hk : m[k]? = none) (a : Str) (v : ℕ) :
    (m.insertIfNew k v)[a]? = if a = k then some v else m[a]? := by
  simp [files_insertIfNew, hk]

theorem files_replace (m : Files) (k a : Str) (v : ℕ) :
    ((m.erase k).insertIfNew k v)[a]? = if a = k then some v else m[a]? := by
  rw [files_insert_fresh (by simp), files_erase]
  split_ifs <;> rfl

end XrdBlackhole
