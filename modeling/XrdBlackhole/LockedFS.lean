import XrdBlackhole.Listing
import XrdBlackhole.StubIdentity
import XrdBlackhole.Library.Monitor

/-!
# The namespace under its mutex

Each method of the class holds `m_mutexFD` while it looks up, erases and inserts
paths, increments the counter and stores the fields of stubs, one access at a time.
Threads may change at every access. `create_defaults` holds no lock of its own: it
calls `seed` three times.
-/

namespace XrdBlackhole

inductive FsMethod
  | «exists» (fname : Str)
  | getStub (fname : Str)
  | readdir (path : Str) (entries : List Str)
  | rename (src dst : Str)
  | unlink (fname : Str)
  | «open» (fname : Str) (flags mode : CInt)
  | close (fname : Str)
  | seed (path : Str) (size : Word) (readtype : Str)

inductive FsReply
  | found (b : Bool)
  | stub (s : Option ℕ)
  | entries (names : List Str)
  | rc (rc : ℤ)
  | void
  deriving DecidableEq

namespace BlackholeFS

def «exists» (fs : BlackholeFS) (fname : Str) : Bool := fs.files[fname]?.isSome

def method (fs : BlackholeFS) : FsMethod → BlackholeFS × FsReply
  | .exists fname => (fs, .found (fs.exists fname))
  | .getStub fname => (fs, .stub (fs.getStub fname))
  | .readdir path entries => (fs, .entries (fs.readdir path entries))
  | .rename src dst => let r := fs.rename src dst; (r.2, .rc r.1)
  | .unlink fname => let r := fs.unlink fname; (r.2, .rc r.1)
  | .open fname flags mode => let r := fs.open fname flags mode; (r.2, .rc r.1)
  | .close fname => (fs.close fname, .void)
  | .seed path size readtype => (fs.seed path size readtype, .void)

def methods : Machine BlackholeFS FsMethod FsReply := ⟨method⟩

end BlackholeFS

namespace LockedFS

open Prog

def find (fname : Str) : Prog BlackholeFS (Option ℕ) := get fun fs => fs.files[fname]?

def erase (fname : Str) : Prog BlackholeFS PUnit :=
  modify fun fs => { fs with files := fs.files.erase fname }

def insert (fname : Str) (stub : ℕ) : Prog BlackholeFS PUnit :=
  modify fun fs => { fs with files := fs.files.insertIfNew fname stub }

/-- `++m_fd_last` loads and stores. -/
def nextFd : Prog BlackholeFS Word := do
  let fd ← get (·.fdLast)
  modify fun fs => { fs with fdLast := fd + 1 }
  pure (fd + 1)

def makeShared : Prog BlackholeFS ℕ := do
  let stub ← get (·.stubs.next)
  modify fun fs => { fs with stubs := fs.stubs.alloc {} }
  pure stub

def store (stub : ℕ) (f : Stub → Stub) : Prog BlackholeFS PUnit :=
  modify fun fs => { fs with stubs := fs.stubs.modify stub f }

def «exists» (fname : Str) : Prog BlackholeFS FsReply := do
  let citr ← find fname
  pure (.found citr.isSome)

def getStub (fname : Str) : Prog BlackholeFS FsReply := do
  let citr ← find fname
  pure (.stub citr)

def readdirLoop (dir : Str) : ℕ → ℕ → List Str → Prog BlackholeFS (List Str)
  | 0, _, entries => pure entries
  | n + 1, k, entries => do
    let kv ← get fun fs => fs.files.toList[k]?
    match kv with
    | none => pure entries
    | some kv =>
      if BlackholeFS.parentOf kv.1 = dir then
        readdirLoop dir n (k + 1) (entries ++ [BlackholeFS.nameOf kv.1])
      else readdirLoop dir n (k + 1) entries

def readdir (path : Str) (entries : List Str) : Prog BlackholeFS FsReply := do
  let n ← get fun fs => fs.files.toList.length
  let names ← readdirLoop (BlackholeFS.normalise path) n 0 entries
  pure (.entries names)

def rename (src dst : Str) : Prog BlackholeFS FsReply := do
  let citr ← find src
  match citr with
  | none => pure (.rc (-ENOENT))
  | some stub =>
    erase dst
    insert dst stub
    if src ≠ dst then erase src
    pure (.rc 0)

def unlink (fname : Str) : Prog BlackholeFS FsReply := do
  let citr ← find fname
  match citr with
  | none => pure (.rc (-ENOENT))
  | some _ =>
    erase fname
    pure (.rc 0)

def create (fname : Str) (flags mode : CInt) : Prog BlackholeFS FsReply := do
  let tmp ← nextFd
  let stub ← makeShared
  store stub fun s => { s with isOpenWrite := true }
  store stub fun s => { s with size := 0 }
  store stub fun s => { s with flags := flags }
  store stub fun s => { s with mode := mode }
  store stub fun s => { s with stat := { s.stat with dev := 1 } }
  store stub fun s => { s with stat := { s.stat with ino := tmp } }
  insert fname stub
  pure (.rc (BlackholeFS.fdToInt tmp))

def «open» (fname : Str) (flags mode : CInt) : Prog BlackholeFS FsReply := do
  let citr ← find fname
  if readOnly flags then
    match citr with
    | none => pure (.rc (-ENOENT))
    | some stub =>
      let fd ← nextFd
      store stub fun s => { s with flags := flags }
      store stub fun s => { s with mode := mode }
      pure (.rc (BlackholeFS.fdToInt fd))
  else
    match citr with
    | some stub =>
      if excl flags then pure (.rc (-EEXIST))
      else if trunc flags then
        erase fname
        create fname flags mode
      else
        let fd ← nextFd
        store stub fun s => { s with isOpenWrite := true }
        store stub fun s => { s with flags := flags }
        store stub fun s => { s with mode := mode }
        pure (.rc (BlackholeFS.fdToInt fd))
    | none => create fname flags mode

def close (fname : Str) : Prog BlackholeFS FsReply := do
  let citr ← find fname
  match citr with
  | none => pure .void
  | some stub =>
    store stub fun s => { s with isOpenWrite := false }
    pure .void

def seed (path : Str) (size : Word) (readtype : Str) : Prog BlackholeFS FsReply := do
  let tmp ← nextFd
  let stub ← makeShared
  store stub fun s => { s with special := true }
  store stub fun s => { s with readtype := readtype }
  store stub fun s => { s with size := size }
  store stub fun s => { s with stat := { s.stat with size := size } }
  store stub fun s => { s with stat := { s.stat with dev := 1 } }
  store stub fun s => { s with stat := { s.stat with ino := tmp } }
  insert path stub
  pure .void

def method : FsMethod → Prog BlackholeFS FsReply
  | .exists fname => «exists» fname
  | .getStub fname => getStub fname
  | .readdir path entries => readdir path entries
  | .rename src dst => rename src dst
  | .unlink fname => unlink fname
  | .open fname flags mode => «open» fname flags mode
  | .close fname => close fname
  | .seed path size readtype => seed path size readtype

abbrev threads (τ : Type) [DecidableEq τ] :
    Lts (Monitor.State τ BlackholeFS FsMethod FsReply) (Concurrent.Event τ FsMethod FsReply) :=
  Monitor.lts method

variable (fs : BlackholeFS)

@[simp] theorem run_find (fname : Str) : (find fname).run fs = (fs, fs.files[fname]?) := rfl

@[simp] theorem run_erase (fname : Str) :
    (erase fname).run fs = ({ fs with files := fs.files.erase fname }, ⟨⟩) := rfl

@[simp] theorem run_insert (fname : Str) (stub : ℕ) :
    (insert fname stub).run fs = ({ fs with files := fs.files.insertIfNew fname stub }, ⟨⟩) := rfl

@[simp] theorem run_nextFd :
    nextFd.run fs = ({ fs with fdLast := fs.fdLast + 1 }, fs.fdLast + 1) := rfl

@[simp] theorem run_makeShared :
    makeShared.run fs = ({ fs with stubs := fs.stubs.alloc {} }, fs.stubs.next) := rfl

@[simp] theorem run_store (stub : ℕ) (f : Stub → Stub) :
    (store stub f).run fs = ({ fs with stubs := fs.stubs.modify stub f }, ⟨⟩) := rfl

theorem run_create (fname : Str) (flags mode : CInt) :
    (create fname flags mode).run fs =
      ((fs.create fname flags mode).2, .rc (fs.create fname flags mode).1) := by
  simp [create, BlackholeFS.create, Heap.alloc_modify]

theorem run_rename (src dst : Str) :
    (rename src dst).run fs = ((fs.rename src dst).2, .rc (fs.rename src dst).1) := by
  cases h : fs.files[src]? with
  | none => simp [rename, BlackholeFS.rename, h]
  | some stub =>
    by_cases hne : src = dst
    · subst hne
      simp [rename, BlackholeFS.rename, h]
    · simp [rename, BlackholeFS.rename, h, hne]

theorem run_unlink (fname : Str) :
    (unlink fname).run fs = ((fs.unlink fname).2, .rc (fs.unlink fname).1) := by
  cases h : fs.files[fname]? <;> simp [unlink, BlackholeFS.unlink, h]

theorem run_open (fname : Str) (flags mode : CInt) :
    («open» fname flags mode).run fs =
      ((fs.open fname flags mode).2, .rc (fs.open fname flags mode).1) := by
  by_cases hread : readOnly flags
  · cases h : fs.files[fname]? with
    | none => simp [«open», BlackholeFS.open, hread, h]
    | some stub =>
      simp [«open», BlackholeFS.open, BlackholeFS.openRead, hread, h, Heap.modify_modify,
        Function.comp_def]
  · cases h : fs.files[fname]? with
    | none => simp [«open», BlackholeFS.open, hread, h, run_create]
    | some stub =>
      by_cases hexcl : excl flags
      · simp [«open», BlackholeFS.open, hread, h, hexcl]
      · by_cases htrunc : trunc flags
        · simp [«open», BlackholeFS.open, hread, h, hexcl, htrunc, run_create]
        · simp [«open», BlackholeFS.open, BlackholeFS.reuse, hread, h, hexcl, htrunc,
            Heap.modify_modify, Function.comp_def]

theorem run_close (fname : Str) : (close fname).run fs = (fs.close fname, .void) := by
  cases h : fs.files[fname]? <;> simp [close, BlackholeFS.close, h]

theorem run_seed (path : Str) (size : Word) (readtype : Str) :
    (seed path size readtype).run fs = (fs.seed path size readtype, .void) := by
  simp [seed, BlackholeFS.seed, Heap.alloc_modify]

theorem run_readdirLoop (dir : Str) (n k : ℕ) (entries : List Str)
    (hn : k + n = fs.files.toList.length) :
    (readdirLoop dir n k entries).run fs =
      (fs, entries ++ (fs.files.toList.drop k).filterMap fun kv =>
        if BlackholeFS.parentOf kv.1 = dir then some (BlackholeFS.nameOf kv.1) else none) := by
  induction n generalizing k entries with
  | zero => simp [readdirLoop, List.drop_of_length_le (by omega : fs.files.toList.length ≤ k)]
  | succ n ih =>
    have hk : k < fs.files.toList.length := by omega
    rw [List.drop_eq_getElem_cons hk]
    simp only [readdirLoop, run_bind, run_get, List.getElem?_eq_getElem hk, List.filterMap_cons]
    by_cases hparent : BlackholeFS.parentOf fs.files.toList[k].1 = dir
    · rw [if_pos hparent, ih (k + 1) _ (by omega), if_pos hparent, List.append_assoc]
      rfl
    · rw [if_neg hparent, ih (k + 1) _ (by omega), if_neg hparent]

theorem run_readdir (path : Str) (entries : List Str) :
    (readdir path entries).run fs = (fs, .entries (fs.readdir path entries)) := by
  simp [readdir, run_readdirLoop, BlackholeFS.readdir]

theorem run_method (m : FsMethod) (fs : BlackholeFS) :
    (method m).run fs = BlackholeFS.methods.step fs m := by
  cases m with
  | «exists» fname => rfl
  | getStub fname => rfl
  | readdir path entries => exact run_readdir fs path entries
  | rename src dst => exact run_rename fs src dst
  | unlink fname => exact run_unlink fs fname
  | «open» fname flags mode => exact run_open fs fname flags mode
  | close fname => exact run_close fs fname
  | seed path size readtype => exact run_seed fs path size readtype

end LockedFS

namespace FsMethod

/-- What a method is to the namespace: the three lookups change nothing. -/
def call : FsMethod → Option FsCall
  | .rename src dst => some (.ns (.rename src dst))
  | .unlink fname => some (.ns (.unlink fname))
  | .open fname flags mode => some (.fsOpen fname flags mode)
  | .close fname => some (.fsClose fname)
  | .seed path size readtype => some (.ns (.seed path size readtype))
  | _ => none

end FsMethod

namespace BlackholeFS

theorem next_method (fs : BlackholeFS) (m : FsMethod) :
    methods.next fs m = m.call.elim fs (machine.next fs) := by
  cases m <;> rfl

theorem exec_methods (fs : BlackholeFS) (ms : List FsMethod) :
    methods.exec fs ms = machine.exec fs (ms.filterMap FsMethod.call) := by
  induction ms generalizing fs with
  | nil => rfl
  | cons m ms ih =>
    rw [Machine.exec, next_method, ih, List.filterMap_cons]
    cases m.call <;> rfl

end BlackholeFS

end XrdBlackhole
