import XrdBlackhole.Sessions
import XrdBlackhole.Library.Transition

/-!
# The store which clients see

To clients which come one after another the plugin is a map from paths to files. A file
has a size, an identity and for each offset the bytes which a read from there gets.
Stubs, handles, descriptors and flags do not appear, and what a random seed serves is
left open.
-/

namespace XrdBlackhole

structure StoredFile where
  size : ℕ
  ino : Word
  served : Word → ℕ → BitVec 8

abbrev Store := Str → Option StoredFile

def IoCall.bytes : IoCall → ℕ
  | .write _ blen => blen.toNat
  | .writeAio _ nbytes => nbytes.toNat
  | _ => 0

def sent (ios : List IoCall) : ℕ := (ios.map IoCall.bytes).sum

namespace StoredFile

def stat (f : StoredFile) : StatBuf :=
  { dev := 1, ino := f.ino, size := BitVec.ofNat 64 f.size }

def available (f : StoredFile) (offset blen : Word) : ℕ :=
  if offset.toInt < 0 then 0 else min blen.toNat (f.size - offset.toNat)

def fill (f : StoredFile) (mem : Mem) (buff : ℕ) (offset blen : Word) : Mem := fun a =>
  if buff ≤ a ∧ a < buff + f.available offset blen then f.served offset (a - buff) else mem a

def gather (f : StoredFile) : Mem → List IOVec → ℕ × Mem
  | mem, [] => (0, mem)
  | mem, seg :: segs =>
    if seg.size.toInt ≤ 0 then f.gather mem segs
    else
      let blen := seg.size.signExtend 64
      let r := f.gather (f.fill mem seg.data seg.offset blen) segs
      (f.available seg.offset blen + r.1, r.2)

def io (f : StoredFile) (mem : Mem) : IoCall → Mem × Reply
  | .write _ blen => (mem, ⟨blen.toNat, 0, {}⟩)
  | .writeAio _ nbytes => (mem, ⟨XrdOssOK, nbytes.toNat, {}⟩)
  | .read buff offset blen | .readRaw buff offset blen =>
    (f.fill mem buff offset blen, ⟨f.available offset blen, 0, {}⟩)
  | .readAio buff offset nbytes =>
    (f.fill mem buff offset nbytes, ⟨XrdOssOK, f.available offset nbytes, {}⟩)
  | .readV segs => let r := f.gather mem segs.1; (r.2, ⟨r.1, 0, {}⟩)
  | .preposition _ _ => (mem, ⟨XrdOssOK, 0, {}⟩)
  | .fstat => (mem, ⟨XrdOssOK, 0, { f.stat with mode := 0o666 ||| S_IFREG }⟩)

def machine (f : StoredFile) : Machine Mem IoCall Reply := ⟨f.io⟩

def replies (f : StoredFile) (mem : Mem) (ios : List IoCall) : List Reply :=
  ⟨XrdOssOK, 0, {}⟩ :: f.machine.outputs mem ios ++ [⟨XrdOssOK, 0, {}⟩]

end StoredFile

/-- One whole request of a client. A session opens a path, makes some calls if the open
has succeeded, and closes. -/
inductive Job
  | ns (c : NsCall)
  | session (h : ℕ) (path : Str) (flags mode : CInt) (ios : List IoCall)
  | stat (path : Str)
  | list (path : Str)

structure Answer where
  replies : List Reply := []
  names : List Str := []

namespace Store

def Fresh (s : Store) (ino : Word) : Prop := ∀ p f, s p = some f → f.ino ≠ ino

inductive Seeded (s : Store) (path : Str) (size : ℕ) (readtype : Str) : Store → Prop
  | kept (f : StoredFile) : s path = some f → Seeded s path size readtype s
  | added (f : StoredFile) : s path = none → s.Fresh f.ino → f.size = size →
      (readtype ≠ random → f.served = fun _ _ => 0) →
      Seeded s path size readtype (Function.update s path f)

inductive NsStep (s : Store) : NsCall → ℤ → Store → Prop
  | seed {path : Str} {size : Word} {readtype : Str} {s' : Store} :
      Seeded s path size.toNat readtype s' → NsStep s (.seed path size readtype) 0 s'
  | createDefaults {path : Str} {s₁ s₂ s₃ : Store} :
      Seeded s (path ++ "/testfile_zeros_1MiB".toList) (2 ^ 20) zeros s₁ →
      Seeded s₁ (path ++ "/testfile_zeros_1GiB".toList) (2 ^ 30) zeros s₂ →
      Seeded s₂ (path ++ "/testfile_zeros_10GiB".toList) (10 * 2 ^ 30) zeros s₃ →
      NsStep s (.createDefaults path) 0 s₃
  | renameMissing {src dst : Str} : s src = none → NsStep s (.rename src dst) (-ENOENT) s
  | rename {src dst : Str} (f : StoredFile) : s src = some f →
      NsStep s (.rename src dst) 0
        fun p => if p = dst then some f else if p = src then none else s p
  | unlinkMissing {fname : Str} : s fname = none → NsStep s (.unlink fname) (-ENOENT) s
  | unlink {fname : Str} (f : StoredFile) : s fname = some f →
      NsStep s (.unlink fname) 0 (Function.update s fname none)

def childOf (path p : Str) : Bool := BlackholeFS.parentOf p = BlackholeFS.normalise path

inductive Opens (s : Store) (path : Str) (flags : CInt) : StoredFile → Store → Prop
  | found (f : StoredFile) : s path = some f → (readOnly flags ∨ ¬ excl flags ∧ ¬ trunc flags) →
      Opens s path flags f s
  | created (f : StoredFile) : ¬ readOnly flags → (s path = none ∨ ¬ excl flags ∧ trunc flags) →
      s.Fresh f.ino → f.size = 0 → (f.served = fun _ _ => 0) →
      Opens s path flags f (Function.update s path f)

/-- The end of a session which has written `n` bytes, wherever it has written them. -/
def close (s : Store) (path : Str) (flags : CInt) (f : StoredFile) (n : ℕ) : Store :=
  if readOnly flags then s else Function.update s path (some { f with size := n })

inductive Step (s : Store) (mem : Mem) : Job → Answer → Store → Mem → Prop
  | ns {c : NsCall} {rc : ℤ} {s' : Store} : NsStep s c rc s' →
      Step s mem (.ns c) { replies := [⟨rc, 0, {}⟩] } s' mem
  | missing {h : ℕ} {path : Str} {flags mode : CInt} {ios : List IoCall} :
      readOnly flags → s path = none →
      Step s mem (.session h path flags mode ios) { replies := [⟨-ENOENT, 0, {}⟩] } s mem
  | exclusive {h : ℕ} {path : Str} {flags mode : CInt} {ios : List IoCall} :
      ¬ readOnly flags → s path ≠ none → excl flags →
      Step s mem (.session h path flags mode ios) { replies := [⟨-EEXIST, 0, {}⟩] } s mem
  | session {h : ℕ} {path : Str} {flags mode : CInt} {ios : List IoCall} {f : StoredFile}
      {s' : Store} : Opens s path flags f s' →
      Step s mem (.session h path flags mode ios) { replies := f.replies mem ios }
        (s'.close path flags f (sent ios)) (f.machine.exec mem ios)
  | statMissing {path : Str} : s path = none →
      Step s mem (.stat path) { replies := [⟨-ENOENT, 0, {}⟩] } s mem
  | stat {path : Str} (f : StoredFile) : s path = some f →
      Step s mem (.stat path) { replies := [⟨0, 0, f.stat⟩] } s mem
  | list {path : Str} (paths : List Str) : paths.Pairwise (· < ·) →
      (∀ p, p ∈ paths ↔ s p ≠ none) →
      Step s mem (.list path) { names := (paths.filter (childOf path)).map BlackholeFS.nameOf }
        s mem

inductive Follows : Store × Mem → Option (Job × Answer) → Store × Mem → Prop
  | job {s s' : Store} {mem mem' : Mem} {j : Job} {answer : Answer} :
      Step s mem j answer s' mem' → Follows (s, mem) (some (j, answer)) (s', mem')

def lts : Lts (Store × Mem) (Job × Answer) := ⟨Follows⟩

end Store

end XrdBlackhole
