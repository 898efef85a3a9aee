import XrdBlackhole.BlackholeFS

/-!
# Namespace operations

The first part says what each operation does to the map. The invariant `Sound`
says that the map is injective and names allocated stubs only. `FsCall` lists the
operations which change something, `relocate` says where one of them moves the
stub bound at a path, and `follow` iterates this along a run.
-/

namespace XrdBlackhole

namespace BlackholeFS
variable {fs : BlackholeFS} {fname : Str} {flags mode : CInt}

/-- The branches of `open`, with what each of them does. A discarded stub leaves
the path unbound before the new one is inserted. -/
inductive OpenCase (fs : BlackholeFS) (fname : Str) (flags mode : CInt) :
    ℤ × BlackholeFS → Prop
  | missing : readOnly flags → fs.files[fname]? = none →
      OpenCase fs fname flags mode (-ENOENT, fs)
  | exclusive (stub : ℕ) : ¬ readOnly flags → fs.files[fname]? = some stub → excl flags →
      OpenCase fs fname flags mode (-EEXIST, fs)
  | read (stub : ℕ) : readOnly flags → fs.files[fname]? = some stub →
      OpenCase fs fname flags mode (fs.openRead stub flags mode)
  | reuse (stub : ℕ) : ¬ readOnly flags → fs.files[fname]? = some stub →
      ¬ excl flags → ¬ trunc flags →
      OpenCase fs fname flags mode (fs.reuse stub flags mode)
  | create : ¬ readOnly flags → (fs.files[fname]? = none ∨ ¬ excl flags ∧ trunc flags) →
      OpenCase fs fname flags mode
        (BlackholeFS.create { fs with files := fs.files.erase fname } fname flags mode)

theorem erase_of_unbound {m : Files} {k : Str} (h : m[k]? = none) : m.erase k = m := by
  apply Std.ExtTreeMap.ext_getElem?
  intro a
  rw [files_erase]
  split_ifs with ha
  · rw [ha, h]
  · rfl

theorem open_case (fs : BlackholeFS) (fname : Str) (flags mode : CInt) :
    OpenCase fs fname flags mode (fs.open fname flags mode) := by
  unfold BlackholeFS.open
  by_cases hread : readOnly flags
  · simp only [hread, if_true]
    cases hfile : fs.files[fname]? with
    | none => exact .missing hread hfile
    | some stub => exact .read stub hread hfile
  · simp only [hread, if_false]
    cases hfile : fs.files[fname]? with
    | none =>
      have hcreate := @OpenCase.create fs fname flags mode hread (.inl hfile)
      rwa [erase_of_unbound hfile] at hcreate
    | some stub =>
      by_cases hexcl : excl flags
      · simpa only [hexcl, if_true] using OpenCase.exclusive stub hread hfile hexcl
      · by_cases htrunc : trunc flags
        · simpa only [hexcl, htrunc, if_true, if_false] using
            OpenCase.create hread (.inr ⟨hexcl, htrunc⟩)
        · simpa only [hexcl, htrunc, if_false] using OpenCase.reuse stub hread hfile hexcl htrunc

theorem create_files (fs : BlackholeFS) (fname a : Str) (flags mode : CInt) :
    (BlackholeFS.create { fs with files := fs.files.erase fname } fname flags mode).2.files[a]? =
      if a = fname then some fs.stubs.next else fs.files[a]? :=
  files_replace fs.files fname a fs.stubs.next

theorem rename_bound {src dst : Str} {stub : ℕ} (h : fs.files[src]? = some stub) (a : Str) :
    (fs.rename src dst).2.files[a]? =
      if a = dst then some stub else if a = src then none else fs.files[a]? := by
  simp only [BlackholeFS.rename, h]
  by_cases hne : src = dst
  · subst hne
    simp only [ne_eq, not_true_eq_false, if_false, files_replace]
    by_cases ha : a = src <;> simp [ha]
  · simp only [ne_eq, hne, not_false_eq_true, if_true, files_erase, files_replace]
    by_cases ha : a = dst
    · simp [ha, Ne.symm hne]
    · simp [ha]

theorem rename_unbound {src dst : Str} (h : fs.files[src]? = none) :
    fs.rename src dst = (-ENOENT, fs) := by
  simp [BlackholeFS.rename, h]

@[simp] theorem rename_stubs (fs : BlackholeFS) (src dst : Str) :
    (fs.rename src dst).2.stubs = fs.stubs := by
  cases h : fs.files[src]? <;> simp [BlackholeFS.rename, h]

@[simp] theorem rename_fdLast (fs : BlackholeFS) (src dst : Str) :
    (fs.rename src dst).2.fdLast = fs.fdLast := by
  cases h : fs.files[src]? <;> simp [BlackholeFS.rename, h]

theorem unlink_files (fs : BlackholeFS) (fname a : Str) :
    (fs.unlink fname).2.files[a]? = if a = fname then none else fs.files[a]? := by
  unfold BlackholeFS.unlink
  cases h : fs.files[fname]? with
  | none =>
    split_ifs with ha
    · rw [ha, h]
    · rfl
  | some stub => exact files_erase fs.files fname a

@[simp] theorem unlink_stubs (fs : BlackholeFS) (fname : Str) :
    (fs.unlink fname).2.stubs = fs.stubs := by
  cases h : fs.files[fname]? <;> simp [BlackholeFS.unlink, h]

@[simp] theorem unlink_fdLast (fs : BlackholeFS) (fname : Str) :
    (fs.unlink fname).2.fdLast = fs.fdLast := by
  cases h : fs.files[fname]? <;> simp [BlackholeFS.unlink, h]

@[simp] theorem close_files (fs : BlackholeFS) (fname : Str) :
    (fs.close fname).files = fs.files := by
  cases h : fs.files[fname]? <;> simp [BlackholeFS.close, h]

@[simp] theorem close_fdLast (fs : BlackholeFS) (fname : Str) :
    (fs.close fname).fdLast = fs.fdLast := by
  cases h : fs.files[fname]? <;> simp [BlackholeFS.close, h]

@[simp] theorem close_stubs_next (fs : BlackholeFS) (fname : Str) :
    (fs.close fname).stubs.next = fs.stubs.next := by
  cases h : fs.files[fname]? <;> simp [BlackholeFS.close, h]

theorem close_get (fs : BlackholeFS) (fname : Str) (i : ℕ) :
    (fs.close fname).stubs.get i =
      if fs.files[fname]? = some i then { fs.stubs.get i with isOpenWrite := false }
      else fs.stubs.get i := by
  cases h : fs.files[fname]? with
  | none => simp [BlackholeFS.close, h]
  | some stub => simp [BlackholeFS.close, h, Heap.modify_get, eq_comm (a := i)]

theorem seed_files (fs : BlackholeFS) (path a : Str) (size : Word) (readtype : Str) :
    (fs.seed path size readtype).files[a]? =
      if a = path ∧ fs.files[path]? = none then some fs.stubs.next else fs.files[a]? :=
  files_insertIfNew fs.files path a fs.stubs.next

def Refused (fs : BlackholeFS) (fname : Str) (flags : CInt) : Prop :=
  (readOnly flags ∧ fs.files[fname]? = none) ∨
    (¬ readOnly flags ∧ fs.files[fname]? ≠ none ∧ excl flags)

instance (fs : BlackholeFS) (fname : Str) (flags : CInt) : Decidable (fs.Refused fname flags) :=
  inferInstanceAs (Decidable (_ ∨ _))

def Reuses (fs : BlackholeFS) (fname : Str) (flags : CInt) (stub : ℕ) : Prop :=
  ¬ readOnly flags ∧ fs.files[fname]? = some stub ∧ ¬ excl flags ∧ ¬ trunc flags

theorem open_of_refused (h : fs.Refused fname flags) (mode : CInt) :
    fs.open fname flags mode = (if readOnly flags then -ENOENT else -EEXIST, fs) := by
  rcases h with ⟨hread, hfile⟩ | ⟨hwrite, hfile, hexcl⟩
  · simp [BlackholeFS.open, hread, hfile]
  · obtain ⟨stub, hstub⟩ := Option.ne_none_iff_exists'.mp hfile
    simp [BlackholeFS.open, hwrite, hstub, hexcl]

theorem not_reuses_of_free {stub : ℕ}
    (hfree : fs.files[fname]? = none ∨ ¬ excl flags ∧ trunc flags) :
    ¬ fs.Reuses fname flags stub := by
  intro hreuse
  rcases hfree with habs | ⟨_, htrunc⟩
  · simp [Reuses, habs] at hreuse
  · exact hreuse.2.2.2 htrunc

theorem open_of_not_refused (h : ¬ fs.Refused fname flags) (mode : CInt) :
    (fs.open fname flags mode).1 = fdToInt (fs.fdLast + 1) ∧
      (fs.open fname flags mode).2.fdLast = fs.fdLast + 1 := by
  have hcase := open_case fs fname flags mode
  generalize fs.open fname flags mode = r at hcase
  cases hcase with
  | missing hread hfile => exact absurd (.inl ⟨hread, hfile⟩) h
  | exclusive stub hwrite hfile hexcl =>
    exact absurd (.inr ⟨hwrite, by simp [hfile], hexcl⟩) h
  | read stub _ _ => exact ⟨rfl, rfl⟩
  | reuse stub _ _ _ _ => exact ⟨rfl, rfl⟩
  | create _ _ => exact ⟨rfl, rfl⟩

theorem not_refused_of_rc (hrc : 0 ≤ (fs.open fname flags mode).1) : ¬ fs.Refused fname flags := by
  intro h
  rw [open_of_refused h] at hrc
  by_cases hread : readOnly flags <;> simp [hread, ENOENT, EEXIST] at hrc

theorem open_flag {i : ℕ} (hi : i < fs.stubs.next) (fname : Str) (flags mode : CInt) :
    ((fs.open fname flags mode).2.stubs.get i).isOpenWrite = true ↔
      (fs.stubs.get i).isOpenWrite = true ∨ fs.Reuses fname flags i := by
  have hcase := open_case fs fname flags mode
  generalize fs.open fname flags mode = r at hcase
  cases hcase with
  | missing hread _ => simp [Reuses, hread]
  | exclusive stub _ _ hexcl => simp [Reuses, hexcl]
  | read stub hread _ =>
    have hsame : ((fs.openRead stub flags mode).2.stubs.get i).isOpenWrite =
        (fs.stubs.get i).isOpenWrite := by
      simp only [openRead, Heap.modify_get]
      split_ifs <;> rfl
    simp [Reuses, hread, hsame]
  | reuse stub hwrite hfile hexcl htrunc =>
    simp only [BlackholeFS.reuse, Heap.modify_get, Reuses, hwrite, hfile, hexcl, htrunc]
    split_ifs with his
    · simp [his]
    · simp [Ne.symm his]
  | create hwrite hfree =>
    simp only [BlackholeFS.create, Heap.alloc_get_of_lt _ _ hi, not_reuses_of_free hfree, or_false]

theorem open_flag_bound {i : ℕ} (hwrite : ¬ readOnly flags) (haccept : ¬ fs.Refused fname flags)
    (hi : (fs.open fname flags mode).2.files[fname]? = some i) :
    ((fs.open fname flags mode).2.stubs.get i).isOpenWrite = true := by
  have hcase := open_case fs fname flags mode
  generalize fs.open fname flags mode = r at hcase hi
  cases hcase with
  | missing hread hfile => exact absurd hread hwrite
  | exclusive stub _ hfile hexcl => exact absurd (.inr ⟨hwrite, by simp [hfile], hexcl⟩) haccept
  | read stub hread _ => exact absurd hread hwrite
  | reuse stub _ hfile _ _ =>
    obtain rfl : stub = i := Option.some.inj (hfile.symm.trans hi)
    simp [BlackholeFS.reuse]
  | create _ _ =>
    rw [create_files, if_pos rfl] at hi
    obtain rfl : fs.stubs.next = i := Option.some.inj hi
    simp [BlackholeFS.create]

/-- `open` leaves the file behind every stub alone, up to the one which it creates. -/
theorem open_get (fs : BlackholeFS) (fname : Str) (flags mode : CInt) :
    (∀ i, (fs.stubs.get i).SameFile ((fs.open fname flags mode).2.stubs.get i)) ∧
        (fs.open fname flags mode).2.stubs.next = fs.stubs.next ∨
      (fs.open fname flags mode).2.fdLast = fs.fdLast + 1 ∧
        (fs.open fname flags mode).2.stubs = fs.stubs.alloc
          { isOpenWrite := true, size := 0, flags := flags, mode := mode,
            stat := { dev := 1, ino := fs.fdLast + 1 } } := by
  have hcase := open_case fs fname flags mode
  generalize fs.open fname flags mode = r at hcase
  cases hcase with
  | missing _ _ => exact .inl ⟨fun i => .refl _, rfl⟩
  | exclusive _ _ _ _ => exact .inl ⟨fun i => .refl _, rfl⟩
  | read stub _ _ =>
    refine .inl ⟨fun i => ?_, rfl⟩
    simp only [openRead, Heap.modify_get]
    split_ifs <;> exact ⟨rfl, rfl, rfl, rfl⟩
  | reuse stub _ _ _ _ =>
    refine .inl ⟨fun i => ?_, rfl⟩
    simp only [BlackholeFS.reuse, Heap.modify_get]
    split_ifs <;> exact ⟨rfl, rfl, rfl, rfl⟩
  | create _ _ => exact .inr ⟨rfl, rfl⟩

theorem open_bound (haccept : ¬ fs.Refused fname flags) (mode : CInt) :
    ∃ i, (fs.open fname flags mode).2.files[fname]? = some i := by
  have hcase := open_case fs fname flags mode
  generalize fs.open fname flags mode = r at hcase
  cases hcase with
  | missing hread hfile => exact absurd (.inl ⟨hread, hfile⟩) haccept
  | exclusive stub hwrite hfile hexcl =>
    exact absurd (.inr ⟨hwrite, by simp [hfile], hexcl⟩) haccept
  | read stub _ hfile => exact ⟨stub, hfile⟩
  | reuse stub _ hfile _ _ => exact ⟨stub, hfile⟩
  | create _ _ => exact ⟨fs.stubs.next, by rw [create_files, if_pos rfl]⟩

theorem open_path_iff {i : ℕ} (hi : i < fs.stubs.next) (hwrite : ¬ readOnly flags)
    (haccept : ¬ fs.Refused fname flags) :
    (fs.open fname flags mode).2.files[fname]? = some i ↔ fs.Reuses fname flags i := by
  have hcase := open_case fs fname flags mode
  generalize fs.open fname flags mode = r at hcase
  cases hcase with
  | missing hread _ => exact absurd hread hwrite
  | exclusive stub _ hfile hexcl => exact absurd (.inr ⟨hwrite, by simp [hfile], hexcl⟩) haccept
  | read stub hread _ => exact absurd hread hwrite
  | reuse stub _ hfile hexcl htrunc =>
    simp [BlackholeFS.reuse, Reuses, hwrite, hexcl, htrunc]
  | create _ hfree =>
    rw [create_files, if_pos rfl]
    simp [not_reuses_of_free hfree, hi.ne']

/-- Every binding names an allocated stub, and no stub has two paths. -/
structure Sound (fs : BlackholeFS) : Prop where
  bound : ∀ {p : Str} {i : ℕ}, fs.files[p]? = some i → i < fs.stubs.next
  distinct : ∀ {p q : Str} {i : ℕ},
    fs.files[p]? = some i → fs.files[q]? = some i → p = q

theorem Sound.init : ({} : BlackholeFS).Sound :=
  ⟨fun h => by simp at h, fun h => by simp at h⟩

theorem Sound.of_sub {fs' : BlackholeFS} (h : fs.Sound) (hnext : fs.stubs.next ≤ fs'.stubs.next)
    (hsub : ∀ (p : Str) (i : ℕ), fs'.files[p]? = some i → fs.files[p]? = some i) : fs'.Sound :=
  ⟨fun hp => (h.bound (hsub _ _ hp)).trans_le hnext,
    fun hp hq => h.distinct (hsub _ _ hp) (hsub _ _ hq)⟩

theorem Sound.of_fresh {fs' : BlackholeFS} (h : fs.Sound) {k : Str}
    (hnext : fs'.stubs.next = fs.stubs.next + 1)
    (hfiles : ∀ (p : Str) (i : ℕ), fs'.files[p]? = some i →
      fs.files[p]? = some i ∨ p = k ∧ i = fs.stubs.next) : fs'.Sound := by
  constructor
  · intro p i hp
    rcases hfiles p i hp with hold | ⟨_, rfl⟩
    · have hlt := h.bound hold
      omega
    · omega
  · intro p q i hp hq
    rcases hfiles p i hp with hp | ⟨rfl, rfl⟩ <;> rcases hfiles q _ hq with hq | ⟨rfl, hi⟩
    · exact h.distinct hp hq
    · exact absurd (h.bound hp) (by omega)
    · exact absurd (h.bound hq) (by omega)
    · rfl

theorem Sound.seed (h : fs.Sound) (path : Str) (size : Word) (readtype : Str) :
    (fs.seed path size readtype).Sound := by
  apply h.of_fresh (k := path) rfl
  intro p i hp
  rw [seed_files] at hp
  split_ifs at hp with hnew
  · exact .inr ⟨hnew.1, by simpa using hp.symm⟩
  · exact .inl hp

theorem Sound.open (h : fs.Sound) (fname : Str) (flags mode : CInt) :
    (fs.open fname flags mode).2.Sound := by
  have hcase := open_case fs fname flags mode
  generalize fs.open fname flags mode = r at hcase
  cases hcase with
  | missing _ _ => exact h
  | exclusive _ _ _ _ => exact h
  | read stub _ _ => exact h.of_sub le_rfl fun _ _ hp => hp
  | reuse stub _ _ _ _ => exact h.of_sub le_rfl fun _ _ hp => hp
  | create _ _ =>
    apply h.of_fresh (k := fname) rfl
    intro p i hp
    rw [create_files] at hp
    split_ifs at hp with hnew
    · exact .inr ⟨hnew, by simpa using hp.symm⟩
    · exact .inl hp

theorem Sound.open_fresh (h : fs.Sound) {q : Str} {i : ℕ}
    (hq : (fs.open fname flags mode).2.files[q]? = some i) (hi : fs.stubs.next ≤ i) :
    q = fname ∧ ¬ readOnly flags := by
  have hcase := open_case fs fname flags mode
  generalize fs.open fname flags mode = r at hcase hq
  have hold : fs.files[q]? ≠ some i := fun hold => absurd (h.bound hold) (not_lt.mpr hi)
  cases hcase with
  | missing _ _ => exact absurd hq hold
  | exclusive stub _ _ _ => exact absurd hq hold
  | read stub _ _ => exact absurd hq hold
  | reuse stub _ _ _ _ => exact absurd hq hold
  | create hwrite _ =>
    rw [create_files] at hq
    split_ifs at hq with hname
    · exact ⟨hname, hwrite⟩
    · exact absurd hq hold

theorem Sound.seed_unflagged (h : fs.Sound) {n : ℕ}
    (hfs : ∀ (p : Str) (i : ℕ), n ≤ i → fs.files[p]? = some i →
      (fs.stubs.get i).isOpenWrite = false)
    (path : Str) (size : Word) (readtype : Str) (p : Str) (i : ℕ) (hi : n ≤ i)
    (hp : (fs.seed path size readtype).files[p]? = some i) :
    ((fs.seed path size readtype).stubs.get i).isOpenWrite = false := by
  rw [seed_files] at hp
  split_ifs at hp with hnew
  · obtain rfl : fs.stubs.next = i := Option.some.inj hp
    simp [BlackholeFS.seed]
  · have hget : (fs.seed path size readtype).stubs.get i = fs.stubs.get i :=
      fs.stubs.alloc_get_of_lt _ (h.bound hp)
    rw [hget]
    exact hfs p i hi hp

theorem Sound.close (h : fs.Sound) (fname : Str) : (fs.close fname).Sound :=
  h.of_sub (by simp) (by simp)

theorem Sound.unlink (h : fs.Sound) (fname : Str) : (fs.unlink fname).2.Sound := by
  apply h.of_sub (by simp)
  intro p i hp
  rw [unlink_files] at hp
  split_ifs at hp
  exact hp

theorem Sound.rename (h : fs.Sound) (src dst : Str) : (fs.rename src dst).2.Sound := by
  cases hsrc : fs.files[src]? with
  | none => rwa [rename_unbound hsrc]
  | some stub =>
    -- apart from `dst`, only paths which did not name the moved stub stay bound
    have hpast : ∀ {p : Str} {i : ℕ}, (fs.rename src dst).2.files[p]? = some i →
        p = dst ∧ i = stub ∨ p ≠ src ∧ fs.files[p]? = some i := by
      intro p i hp
      rw [rename_bound hsrc] at hp
      split_ifs at hp with hd hs
      · exact .inl ⟨hd, by simpa using hp.symm⟩
      · exact .inr ⟨hs, hp⟩
    constructor
    · intro p i hp
      rw [rename_stubs]
      rcases hpast hp with ⟨_, rfl⟩ | ⟨_, hold⟩
      · exact h.bound hsrc
      · exact h.bound hold
    · intro p q i hp hq
      rcases hpast hp with ⟨hpd, hi⟩ | ⟨hps, hp⟩ <;> rcases hpast hq with ⟨hqd, hi'⟩ | ⟨hqs, hq⟩
      · rw [hpd, hqd]
      · exact absurd (h.distinct hq (hi ▸ hsrc)) hqs
      · exact absurd (h.distinct hp (hi' ▸ hsrc)) hps
      · exact h.distinct hp hq

theorem Sound.createDefaults (h : fs.Sound) (path : Str) : (fs.createDefaults path).Sound :=
  ((h.seed _ _ _).seed _ _ _).seed _ _ _

end BlackholeFS

inductive NsCall
  | seed (path : Str) (size : Word) (readtype : Str)
  | createDefaults (path : Str)
  | rename (src dst : Str)
  | unlink (fname : Str)

inductive FsCall
  | ns (c : NsCall)
  | fsOpen (fname : Str) (flags mode : CInt)
  | fsClose (fname : Str)

namespace BlackholeFS

def ns (fs : BlackholeFS) : NsCall → ℤ × BlackholeFS
  | .seed path size readtype => (0, fs.seed path size readtype)
  | .createDefaults path => (0, fs.createDefaults path)
  | .rename src dst => fs.rename src dst
  | .unlink fname => fs.unlink fname

def call (fs : BlackholeFS) : FsCall → ℤ × BlackholeFS
  | .ns c => fs.ns c
  | .fsOpen fname flags mode => fs.open fname flags mode
  | .fsClose fname => (0, fs.close fname)

def machine : Machine BlackholeFS FsCall ℤ := ⟨fun fs c => ((fs.call c).2, (fs.call c).1)⟩

/-- Where the stub bound at `p` is bound after one operation. -/
def relocate (fs : BlackholeFS) (p : Str) : FsCall → Option Str
  | .ns (.rename src dst) =>
    if fs.files[src]? = none then some p
    else if p = src then some dst
    else if p = dst then none
    else some p
  | .ns (.unlink fname) => if p = fname then none else some p
  | .fsOpen fname flags _ =>
    if p = fname ∧ ¬ readOnly flags ∧ ¬ excl flags ∧ trunc flags then none else some p
  | _ => some p

def follow (fs : BlackholeFS) (p : Str) : List FsCall → Option Str
  | [] => some p
  | c :: cs => (fs.relocate p c).bind fun q => follow (fs.call c).2 q cs

variable {fs : BlackholeFS}

theorem Sound.ns (h : fs.Sound) (c : NsCall) : (fs.ns c).2.Sound := by
  cases c with
  | seed path size readtype => exact h.seed path size readtype
  | createDefaults path => exact h.createDefaults path
  | rename src dst => exact h.rename src dst
  | unlink fname => exact h.unlink fname

theorem Sound.call (h : fs.Sound) (c : FsCall) : (fs.call c).2.Sound := by
  cases c with
  | ns c => exact h.ns c
  | fsOpen fname flags mode => exact h.open fname flags mode
  | fsClose fname => exact h.close fname

theorem open_next_le (fs : BlackholeFS) (fname : Str) (flags mode : CInt) :
    fs.stubs.next ≤ (fs.open fname flags mode).2.stubs.next := by
  have hcase := open_case fs fname flags mode
  generalize fs.open fname flags mode = r at hcase
  cases hcase with
  | missing _ _ => exact le_rfl
  | exclusive _ _ _ _ => exact le_rfl
  | read stub _ _ => exact le_rfl
  | reuse stub _ _ _ _ => exact le_rfl
  | create _ _ => exact Nat.le_succ _

theorem ns_next_le (fs : BlackholeFS) (c : NsCall) : fs.stubs.next ≤ (fs.ns c).2.stubs.next := by
  cases c with
  | seed path size readtype => exact Nat.le_succ _
  | createDefaults path => exact Nat.le_add_right _ 3
  | rename src dst => simp [BlackholeFS.ns]
  | unlink fname => simp [BlackholeFS.ns]

theorem call_next_le (fs : BlackholeFS) (c : FsCall) :
    fs.stubs.next ≤ (fs.call c).2.stubs.next := by
  cases c with
  | ns c => exact fs.ns_next_le c
  | fsOpen fname flags mode => exact fs.open_next_le fname flags mode
  | fsClose fname => simp [BlackholeFS.call]

theorem ns_get_of_lt {i : ℕ} (hi : i < fs.stubs.next) (c : NsCall) :
    (fs.ns c).2.stubs.get i = fs.stubs.get i := by
  have hseed : ∀ (fs' : BlackholeFS) (path : Str) (size : Word) (readtype : Str),
      i < fs'.stubs.next → (fs'.seed path size readtype).stubs.get i = fs'.stubs.get i :=
    fun fs' _ _ _ hlt => fs'.stubs.alloc_get_of_lt _ hlt
  cases c with
  | seed path size readtype => exact hseed fs path size readtype hi
  | createDefaults path =>
    refine (hseed _ _ _ _ ?_).trans ((hseed _ _ _ _ ?_).trans (hseed _ _ _ _ hi))
    · exact hi.trans_le (Nat.le_add_right _ 2)
    · exact hi.trans_le (Nat.le_succ _)
  | rename src dst => simp [BlackholeFS.ns]
  | unlink fname => simp [BlackholeFS.ns]

theorem Sound.ns_unflagged (h : fs.Sound) (c : NsCall) {p : Str} {i : ℕ}
    (hi : fs.stubs.next ≤ i) (hp : (fs.ns c).2.files[p]? = some i) :
    ((fs.ns c).2.stubs.get i).isOpenWrite = false := by
  have hnone : ∀ (q : Str) (j : ℕ), fs.stubs.next ≤ j → fs.files[q]? = some j →
      (fs.stubs.get j).isOpenWrite = false :=
    fun q j hj hq => absurd (h.bound hq) (not_lt.mpr hj)
  cases c with
  | seed path size readtype => exact h.seed_unflagged hnone path size readtype p i hi hp
  | createDefaults path =>
    have hfirst := h.seed_unflagged hnone (path ++ "/testfile_zeros_1MiB".toList)
      (1 * 1024 * 1024) zeros
    have hsecond := (h.seed _ _ _).seed_unflagged hfirst (path ++ "/testfile_zeros_1GiB".toList)
      (1 * 1024 * 1024 * 1024) zeros
    exact ((h.seed _ _ _).seed _ _ _).seed_unflagged hsecond _ _ _ p i hi hp
  | rename src dst =>
    have hlt := (h.rename src dst).bound hp
    rw [rename_stubs] at hlt
    exact absurd hlt (not_lt.mpr hi)
  | unlink fname =>
    have hlt := (h.unlink fname).bound hp
    rw [unlink_stubs] at hlt
    exact absurd hlt (not_lt.mpr hi)

theorem seed_bound_iff {i : ℕ} (hi : i < fs.stubs.next) (path q : Str) (size : Word)
    (readtype : Str) :
    (fs.seed path size readtype).files[q]? = some i ↔ fs.files[q]? = some i := by
  rw [seed_files]
  split_ifs with hnew
  · have hne : fs.stubs.next ≠ i := hi.ne'
    simp [hnew.1, hnew.2, hne]
  · rfl

theorem relocate_rename (fs : BlackholeFS) (src dst q : Str) (i : ℕ) :
    (fs.rename src dst).2.files[q]? = some i ↔
      ∃ p, fs.files[p]? = some i ∧ fs.relocate p (.ns (.rename src dst)) = some q := by
  simp only [relocate]
  cases hsrc : fs.files[src]? with
  | none => simp [rename_unbound hsrc]
  | some stub =>
    rw [rename_bound hsrc]
    simp only [reduceCtorEq, if_false]
    refine ⟨fun h => ?_, fun ⟨p, hp, hq⟩ => ?_⟩
    · split_ifs at h with hd hs
      · exact ⟨src, hsrc.trans h, by simp [hd]⟩
      · exact ⟨q, h, by simp [hd, hs]⟩
    · split_ifs at hq with hps hpd
      · obtain rfl : dst = q := by simpa using hq
        simpa [← hsrc, ← hps] using hp
      · obtain rfl : p = q := by simpa using hq
        simp [hps, hpd, hp]

theorem relocate_unlink (fs : BlackholeFS) (fname q : Str) (i : ℕ) :
    (fs.unlink fname).2.files[q]? = some i ↔
      ∃ p, fs.files[p]? = some i ∧ fs.relocate p (.ns (.unlink fname)) = some q := by
  simp only [relocate]
  rw [unlink_files]
  refine ⟨fun h => ?_, fun ⟨p, hp, hq⟩ => ?_⟩
  · split_ifs at h with hq
    exact ⟨q, h, by simp [hq]⟩
  · split_ifs at hq with hpf
    obtain rfl : p = q := by simpa using hq
    simp [hpf, hp]

theorem relocate_open {i : ℕ} (hi : i < fs.stubs.next) (fname : Str) (flags mode : CInt)
    (q : Str) :
    (fs.open fname flags mode).2.files[q]? = some i ↔
      ∃ p, fs.files[p]? = some i ∧ fs.relocate p (.fsOpen fname flags mode) = some q := by
  simp only [relocate]
  have hcase := open_case fs fname flags mode
  generalize fs.open fname flags mode = r at hcase
  cases hcase with
  | missing hread _ => simp [hread]
  | exclusive _ _ _ hexcl => simp [hexcl]
  | read stub hread _ => simp [hread, openRead]
  | reuse stub _ _ _ htrunc => simp [htrunc, BlackholeFS.reuse]
  | create hwrite hfree =>
    rw [create_files]
    refine ⟨fun h => ?_, fun ⟨p, hp, hq⟩ => ?_⟩
    · split_ifs at h with hq
      · exact absurd (Option.some.inj h) hi.ne'
      · exact ⟨q, h, by simp [hq]⟩
    · split_ifs at hq with hpf
      obtain rfl : p = q := by simpa using hq
      have hne : p ≠ fname := by
        intro he
        rcases hfree with habs | ⟨hexcl, htrunc⟩
        · rw [he, habs] at hp
          cases hp
        · exact hpf ⟨he, hwrite, hexcl, htrunc⟩
      simp [hne, hp]

/-- An allocated stub is bound after a step exactly where `relocate` sends the
paths which named it before. -/
theorem relocate_spec {i : ℕ} (hi : i < fs.stubs.next) (c : FsCall) (q : Str) :
    (fs.call c).2.files[q]? = some i ↔
      ∃ p, fs.files[p]? = some i ∧ fs.relocate p c = some q := by
  have hstay : ∀ fs' : BlackholeFS, (fs'.files[q]? = some i ↔ fs.files[q]? = some i) →
      (fs'.files[q]? = some i ↔ ∃ p, fs.files[p]? = some i ∧ some p = some q) := by
    intro fs' h
    simp [h]
  cases c with
  | ns c =>
    cases c with
    | seed path size readtype => exact hstay _ (seed_bound_iff hi path q size readtype)
    | createDefaults path =>
      apply hstay
      refine (seed_bound_iff ?_ _ _ _ _).trans ((seed_bound_iff ?_ _ _ _ _).trans
        (seed_bound_iff hi _ _ _ _))
      · exact hi.trans_le (Nat.le_add_right _ 2)
      · exact hi.trans_le (Nat.le_succ _)
    | rename src dst => exact fs.relocate_rename src dst q i
    | unlink fname => exact fs.relocate_unlink fname q i
  | fsOpen fname flags mode => exact relocate_open hi fname flags mode q
  | fsClose fname => exact hstay _ (by simp [BlackholeFS.call])

theorem follow_spec {i : ℕ} (hi : i < fs.stubs.next) (cs : List FsCall) (q : Str) :
    (machine.exec fs cs).files[q]? = some i ↔
      ∃ p, fs.files[p]? = some i ∧ fs.follow p cs = some q := by
  induction cs generalizing fs with
  | nil => simp [Machine.exec, follow]
  | cons c cs ih =>
    have hnext := ih (hi.trans_le (fs.call_next_le c))
    refine hnext.trans ?_
    constructor
    · rintro ⟨r, hr, hfollow⟩
      obtain ⟨p, hp, hpr⟩ := (relocate_spec hi c r).mp hr
      exact ⟨p, hp, by simp [follow, hpr, hfollow]⟩
    · rintro ⟨p, hp, hfollow⟩
      simp only [follow, Option.bind_eq_some_iff] at hfollow
      obtain ⟨r, hpr, hrest⟩ := hfollow
      exact ⟨r, (relocate_spec hi c r).mpr ⟨p, hp, hpr⟩, hrest⟩

theorem Sound.exec (h : fs.Sound) (cs : List FsCall) : (machine.exec fs cs).Sound :=
  Machine.exec_invariant (fun _ c hfs => hfs.call c) h cs

end BlackholeFS

end XrdBlackhole
