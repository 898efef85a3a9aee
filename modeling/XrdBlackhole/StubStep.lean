import XrdBlackhole.System

/-!
# What a call does to a stub

A call leaves the file behind a stub alone, allocates it or stores its size. What
holds of the stubs in every reachable world is proved from these cases.
-/

namespace XrdBlackhole

def Stub.seeded (size : Word) (readtype : Str) (ino : Word) : Stub :=
  { special := true, readtype := readtype, size := size,
    stat := { size := size, dev := 1, ino := ino } }

def Stub.created (flags mode : CInt) (ino : Word) : Stub :=
  { isOpenWrite := true, size := 0, flags := flags, mode := mode, stat := { dev := 1, ino := ino } }

def Stub.stored (s : Stub) (wb : Word) : Stub :=
  { s with size := wb, stat := { s.stat with size := wb } }

inductive StubStep (w : World) (s : Stub) : Call → Stub → Prop
  | same {c : Call} {s' : Stub} : s.SameFile s' → StubStep w s c s'
  | seeded (path : Str) (size : Word) (readtype : Str) (ino : Word) :
      StubStep w s (.ns (.seed path size readtype)) (.seeded size readtype ino)
  | default (path : Str) (spec : Str × Word) (ino : Word) : spec ∈ BlackholeFS.specs →
      StubStep w s (.ns (.createDefaults path)) (.seeded spec.2 zeros ino)
  | created (h : ℕ) (path : Str) (flags mode : CInt) (ino : Word) :
      StubStep w s (.fileOpen h path flags mode) (.created flags mode ino)
  | stored (h : ℕ) {s' : Stub} : (s.stored (w.file h).written).SameFile s' →
      StubStep w s (.fileClose h) s'

namespace BlackholeFS

theorem seed_get (fs : BlackholeFS) (path : Str) (size : Word) (readtype : Str) (i : ℕ) :
    (fs.seed path size readtype).stubs.get i = fs.stubs.get i ∨
      (fs.seed path size readtype).stubs.get i = .seeded size readtype (fs.fdLast + 1) := by
  by_cases hi : i = fs.stubs.next
  · rw [hi]
    exact .inr (fs.stubs.alloc_get_next _)
  · exact .inl (fs.stubs.alloc_get_of_ne _ hi)

def seedSpecs (fs : BlackholeFS) (path : Str) (specs : List (Str × Word)) : BlackholeFS :=
  specs.foldl (fun fs spec => fs.seed (path ++ spec.1) spec.2 zeros) fs

theorem seedSpecs_get (fs : BlackholeFS) (path : Str) (specs : List (Str × Word)) (i : ℕ) :
    (fs.seedSpecs path specs).stubs.get i = fs.stubs.get i ∨
      ∃ spec ∈ specs, ∃ ino,
        (fs.seedSpecs path specs).stubs.get i = .seeded spec.2 zeros ino := by
  induction specs generalizing fs with
  | nil => exact .inl rfl
  | cons spec specs ih =>
    rcases ih (fs.seed (path ++ spec.1) spec.2 zeros) with hget | ⟨later, hlater, ino, hget⟩
    · rcases fs.seed_get (path ++ spec.1) spec.2 zeros i with hseed | hseed
      · exact .inl (hget.trans hseed)
      · exact .inr ⟨spec, List.mem_cons_self, _, hget.trans hseed⟩
    · exact .inr ⟨later, List.mem_cons_of_mem _ hlater, ino, hget⟩

end BlackholeFS

theorem OssFile.close_stub (f : OssFile) (fs : BlackholeFS) (mgr : Snapshot) (i : ℕ) :
    (fs.stubs.get i).SameFile ((f.close fs mgr).2.1.stubs.get i) ∨
      ((fs.stubs.get i).stored f.written).SameFile ((f.close fs mgr).2.1.stubs.get i) := by
  cases hstub : f.stub with
  | none =>
    rw [close_none hstub]
    exact .inl (.refl _)
  | some j =>
    rw [close_get hstub, storeSize_get]
    by_cases hwrite : i = j ∧ (fs.stubs.get i).isOpenWrite
    · rw [if_pos hwrite]
      exact .inr (by split_ifs <;> exact ⟨rfl, rfl, rfl, rfl⟩)
    · rw [if_neg hwrite]
      exact .inl (by split_ifs <;> exact ⟨rfl, rfl, rfl, rfl⟩)

theorem World.step_stub (w : World) (c : Call) (i : ℕ) :
    StubStep w (w.fs.stubs.get i) c ((w.step c).1.fs.stubs.get i) := by
  have hsame : ∀ {s' : Stub}, s' = w.fs.stubs.get i → StubStep w (w.fs.stubs.get i) c s' := by
    rintro s' rfl
    exact .same (.refl _)
  cases c with
  | ns c =>
    cases c with
    | seed path size readtype =>
      rcases w.fs.seed_get path size readtype i with hget | hget
      · exact hsame hget
      · exact hget ▸ .seeded path size readtype _
    | createDefaults path =>
      rcases w.fs.seedSpecs_get path BlackholeFS.specs i with hget | ⟨spec, hspec, ino, hget⟩
      · exact hsame hget
      · exact hget ▸ .default path spec ino hspec
    | rename src dst => exact hsame (by simp [World.step, BlackholeFS.ns])
    | unlink fname => exact hsame (by simp [World.step, BlackholeFS.ns])
  | fileOpen h path flags mode =>
    rw [step_open_fs]
    rcases w.fs.open_get path flags mode with ⟨hfile, -⟩ | ⟨-, hstubs⟩
    · exact .same (hfile i)
    · rw [hstubs]
      by_cases hi : i = w.fs.stubs.next
      · rw [hi, Heap.alloc_get_next]
        exact .created h path flags mode _
      · exact hsame (Heap.alloc_get_of_ne _ _ hi)
  | fileClose h =>
    rw [step_close_fs]
    exact ((w.file h).close_stub w.fs w.mgr i).elim .same (.stored h)
  | io h c => exact hsame rfl
  | stat path => exact hsame rfl

end XrdBlackhole
