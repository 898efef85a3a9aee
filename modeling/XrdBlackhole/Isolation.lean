import XrdBlackhole.HandleThreads
import XrdBlackhole.OpenResult
import XrdBlackhole.StubIdentity
import XrdBlackhole.StubStep
import XrdBlackhole.Library.Isolation

/-!
# Clients with files of their own

Clients whose paths, handles and buffers are their own get the answers which they would
get alone. What they share is the descriptor counter, the heap of stubs and the
statistics. So the inodes of new files depend on the others, and nothing else does: a file
which was there before has the same inode for a client which is alone.
-/

namespace XrdBlackhole

structure Territory where
  paths : Set Str
  handles : Set ℕ
  addrs : Set ℕ

def IoCall.Inside (addrs : Set ℕ) : IoCall → Prop
  | .read buff _ blen | .readAio buff _ blen | .readRaw buff _ blen =>
    ∀ k < blen.toNat, buff + k ∈ addrs
  | .readV segs => ∀ seg ∈ segs.1, ∀ k : ℕ, k < seg.size.toInt → seg.data + k ∈ addrs
  | _ => True

namespace Territory

/-- The bytes of a random file depend on its inode, so no new one may be seeded. -/
def Allows (t : Territory) : Call → Prop
  | .ns (.seed path _ readtype) => path ∈ t.paths ∧ readtype ≠ random
  | .ns (.createDefaults path) => ∀ spec ∈ BlackholeFS.specs, path ++ spec.1 ∈ t.paths
  | .ns (.rename src dst) => src ∈ t.paths ∧ dst ∈ t.paths
  | .ns (.unlink fname) => fname ∈ t.paths
  | .fileOpen h path _ _ => h ∈ t.handles ∧ path ∈ t.paths
  | .fileClose h => h ∈ t.handles
  | .io h c => h ∈ t.handles ∧ c.Inside t.addrs
  | .stat path => path ∈ t.paths

structure Apart (t u : Territory) : Prop where
  paths : ∀ p ∈ u.paths, p ∉ t.paths
  handles : ∀ h ∈ u.handles, h ∉ t.handles
  addrs : ∀ a ∈ u.addrs, a ∉ t.addrs

end Territory

def Call.descriptors : Call → ℕ
  | .ns (.seed _ _ _) => 1
  | .ns (.createDefaults _) => 3
  | .fileOpen _ _ _ _ => 1
  | _ => 0

def BlackholeFS.inodes (fs : BlackholeFS) : Set Word :=
  {ino | ∃ i < fs.stubs.next, (fs.stubs.get i).stat.ino = ino}

structure BlackholeFS.Room (old : Set Word) (fs : BlackholeFS) (n : ℕ) : Prop where
  above : ∀ ino ∈ old, ino.toNat ≤ fs.fdLast.toNat
  fits : fs.fdLast.toNat + n < 2 ^ 31

namespace BlackholeFS.Room
variable {old : Set Word} {fs gs : BlackholeFS} {n m : ℕ}

theorem next (h : fs.Room old (n + 1)) : (fs.fdLast + 1).toNat = fs.fdLast.toNat + 1 := by
  have hfits := h.fits
  exact toNat_add_of_lt (k := 1) (by omega)

theorem fresh (h : fs.Room old (n + 1)) : fs.fdLast + 1 ∉ old := by
  intro hold
  have hle := h.above _ hold
  rw [h.next] at hle
  omega

theorem counterFits (h : fs.Room old 1) : fs.CounterFits := h.fits

theorem advance (h : fs.Room old n) (hle : fs.fdLast.toNat ≤ gs.fdLast.toNat)
    (hroom : gs.fdLast.toNat + m ≤ fs.fdLast.toNat + n) : gs.Room old m :=
  ⟨fun ino hino => (h.above ino hino).trans hle, hroom.trans_lt h.fits⟩

theorem mono (h : fs.Room old n) (hm : m ≤ n) : fs.Room old m :=
  h.advance le_rfl (Nat.add_le_add_left hm _)

theorem seed (h : fs.Room old (n + 1)) {path : Str} {size : Word} {readtype : Str} :
    (fs.seed path size readtype).Room old n := by
  have hnext : (fs.seed path size readtype).fdLast.toNat = fs.fdLast.toNat + 1 := h.next
  exact h.advance (by omega) (by omega)

end BlackholeFS.Room

/-- Two numbers of one file, which is none of the `old` ones if they differ. -/
def InoAlike (old : Set Word) (n m : Word) : Prop := m = n ∨ n ∉ old ∧ m ∉ old

structure Stub.Alike (old : Set Word) (s t : Stub) : Prop where
  same : t = { s with stat := { s.stat with ino := t.stat.ino } }
  ino : InoAlike old s.stat.ino t.stat.ino
  random : s.readtype = random → t.stat.ino = s.stat.ino

structure ReadView.Alike (v u : ReadView) : Prop where
  same : u = { v with ino := u.ino }
  ino : v.isRandom → u.ino = v.ino

structure Reply.Alike (old : Set Word) (r q : Reply) : Prop where
  same : q = { r with buf := { r.buf with ino := q.buf.ino } }
  ino : InoAlike old r.buf.ino q.buf.ino

section
variable {old : Set Word}

theorem Reply.Alike.refl (r : Reply) : r.Alike old r := ⟨rfl, .inl rfl⟩

theorem Stub.Alike.refl (s : Stub) : s.Alike old s := ⟨rfl, .inl rfl, fun _ => rfl⟩

theorem Stub.Alike.reply {s t : Stub} (h : s.Alike old t) (rc : ℤ) :
    (Reply.mk rc 0 s.stat).Alike old ⟨rc, 0, t.stat⟩ := by
  refine ⟨?_, h.ino⟩
  rw [h.same]

structure Stub.KeepsIno (f : Stub → Stub) : Prop where
  through (s : Stub) (n : Word) : f { s with stat := { s.stat with ino := n } } =
    { f s with stat := { (f s).stat with ino := n } }
  ino (s : Stub) : (f s).stat.ino = s.stat.ino
  readtype (s : Stub) : (f s).readtype = s.readtype

theorem Stub.Alike.map {s t : Stub} (h : s.Alike old t) {f : Stub → Stub}
    (hf : Stub.KeepsIno f) : (f s).Alike old (f t) := by
  refine ⟨?_, ?_, ?_⟩
  · calc f t = f { s with stat := { s.stat with ino := t.stat.ino } } := congrArg f h.same
      _ = { f s with stat := { (f s).stat with ino := t.stat.ino } } := hf.through s _
      _ = { f s with stat := { (f s).stat with ino := (f t).stat.ino } } := by rw [hf.ino t]
  · rw [hf.ino, hf.ino]
    exact h.ino
  · rw [hf.readtype, hf.ino, hf.ino]
    exact h.random

namespace Stub.KeepsIno

theorem openRead (flags mode : CInt) :
    KeepsIno fun s => { s with flags := flags, mode := mode } :=
  ⟨fun _ _ => rfl, fun _ => rfl, fun _ => rfl⟩

theorem reuse (flags mode : CInt) :
    KeepsIno fun s => { s with isOpenWrite := true, flags := flags, mode := mode } :=
  ⟨fun _ _ => rfl, fun _ => rfl, fun _ => rfl⟩

theorem close : KeepsIno fun s => { s with isOpenWrite := false } :=
  ⟨fun _ _ => rfl, fun _ => rfl, fun _ => rfl⟩

theorem storeSize (wb : Word) : KeepsIno fun s =>
    if s.isOpenWrite then { s with size := wb, stat := { s.stat with size := wb } } else s := by
  refine ⟨fun s n => ?_, fun s => ?_, fun s => ?_⟩ <;> dsimp only <;> split_ifs <;> rfl

end Stub.KeepsIno

theorem Stub.Alike.view {s t : Stub} (h : s.Alike old t) : s.view.Alike t.view := by
  obtain ⟨hsame, -, hino⟩ := h
  refine ⟨?_, fun hrandom => hino (by simpa [Stub.view] using hrandom)⟩
  rw [hsame]
  rfl

end

namespace ReadView.Alike
variable {v u : ReadView}

theorem count (h : v.Alike u) : u.count = v.count := by
  rw [h.same]
  rfl

theorem content (h : v.Alike u) : u.content = v.content := by
  funext offset k
  have hrandom : u.isRandom = v.isRandom := by rw [h.same]
  unfold ReadView.content
  rw [hrandom]
  split_ifs with hv
  · rw [h.ino hv]
  · rfl

theorem stores (h : v.Alike u) : u.stores = v.stores := by
  funext buff offset blen
  rw [ReadView.stores, ReadView.stores, h.count, h.content]

theorem vecTotal (h : v.Alike u) : OssFile.vecTotal u = OssFile.vecTotal v := by
  funext segs
  induction segs with
  | nil => rfl
  | cons seg segs ih => rw [OssFile.vecTotal, OssFile.vecTotal, ih, h.count]

end ReadView.Alike

abbrev Pairing := ℕ → ℕ → Prop

def Paired (ρ : Pairing) (x y : Option ℕ) : Prop :=
  (x = none ∧ y = none) ∨ ∃ i j, x = some i ∧ y = some j ∧ ρ i j

structure OssFile.Alike (ρ : Pairing) (f g : OssFile) : Prop where
  stub : Paired ρ f.stub g.stub
  view : f.toReadView.Alike g.toReadView
  same : g = { f with toReadView := g.toReadView, stub := g.stub }

theorem IoAct.mem_foldl_congr (acts : List IoAct) {s s' : OssFile × Mem} {a : ℕ}
    (h : s.2 a = s'.2 a) : (acts.foldl apply s).2 a = (acts.foldl apply s').2 a := by
  induction acts generalizing s s' with
  | nil => exact h
  | cons act acts ih => exact ih (mem_congr h act)

theorem IoAct.mem_foldl_of_not_storesAt {acts : List IoAct} {a : ℕ}
    (h : ∀ act ∈ acts, ¬ act.StoresAt a) (s : OssFile × Mem) :
    (acts.foldl apply s).2 a = s.2 a := by
  induction acts generalizing s with
  | nil => rfl
  | cons act acts ih =>
    obtain ⟨hact, hacts⟩ := List.forall_mem_cons.mp h
    exact (ih hacts _).trans (mem_of_not_storesAt hact s.2)

namespace OssFile

theorem stores_inside {v : ReadView} {buff : ℕ} {offset blen : Word} {addrs : Set ℕ}
    (h : ∀ k < blen.toNat, buff + k ∈ addrs) {a : ℕ} (ha : a ∉ addrs) :
    ∀ act ∈ v.stores buff offset blen, ¬ act.StoresAt a := by
  intro act hact hstores
  obtain ⟨k, hk, rfl⟩ := List.mem_map.mp hact
  have hlt := (List.mem_range.mp hk).trans_le (v.count_le_blen offset blen)
  exact ha ((show buff + k = a from hstores) ▸ h k hlt)

theorem readActs_inside (f : OssFile) {buff : ℕ} {offset blen : Word} {addrs : Set ℕ}
    (h : ∀ k < blen.toNat, buff + k ∈ addrs) {a : ℕ} (ha : a ∉ addrs) :
    ∀ act ∈ f.readActs buff offset blen, ¬ act.StoresAt a := by
  cases hstub : f.stub with
  | none =>
    rw [readActs_none hstub]
    exact List.forall_mem_singleton.mpr not_false
  | some i =>
    rw [readActs_some hstub (fun _ => 0)]
    refine List.forall_mem_append.mpr ⟨stores_inside h ha, ?_⟩
    split_ifs
    · simp [IoAct.StoresAt]
    · simp

theorem acts_inside (f : OssFile) {c : IoCall} {addrs : Set ℕ} (h : c.Inside addrs) {a : ℕ}
    (ha : a ∉ addrs) : ∀ act ∈ f.acts c, ¬ act.StoresAt a := by
  cases c with
  | write offset blen => simp [acts, IoAct.StoresAt]
  | writeAio offset nbytes => simp [acts, IoAct.StoresAt]
  | read buff offset blen => exact f.readActs_inside h ha
  | readAio buff offset nbytes => exact f.readActs_inside h ha
  | readRaw buff offset blen => exact f.readActs_inside h ha
  | readV segs =>
    change ∀ act ∈ f.readVActs segs.1, _
    by_cases hsegs : segs.1 = []
    · simp [readVActs, hsegs]
    · cases hstub : f.stub with
      | none =>
        rw [readVActs_none hstub hsegs]
        exact List.forall_mem_singleton.mpr not_false
      | some i =>
        rw [readVActs_some hstub hsegs]
        refine List.forall_mem_append.mpr ⟨fun act hact => ?_, by simp [IoAct.StoresAt]⟩
        obtain ⟨seg, hseg, hact⟩ := List.mem_flatMap.mp hact
        rw [segmentStores] at hact
        split_ifs at hact with hsize
        · cases hact
        · refine stores_inside (fun k hk => h seg hseg k ?_) ha act hact
          rw [← signExtend_toNat (not_le.mp hsize)]
          exact_mod_cast hk
  | preposition offset blen =>
    unfold acts
    split_ifs <;> simp [IoAct.StoresAt]
  | fstat => simp [acts]

theorem io_mem_outside (f : OssFile) (fs : BlackholeFS) (mem : Mem) {c : IoCall} {addrs : Set ℕ}
    (h : c.Inside addrs) {a : ℕ} (ha : a ∉ addrs) : (f.io fs mem c).2.1 a = mem a := by
  have hfold := IoAct.mem_foldl_of_not_storesAt (f.acts_inside h ha) (f, mem)
  rwa [f.foldl_acts fs mem c] at hfold

namespace Alike
variable {ρ : Pairing} {f g : OssFile}

theorem acts (h : f.Alike ρ g) (c : IoCall) : g.acts c = f.acts c := by
  have hread : ∀ buff offset blen, g.readActs buff offset blen = f.readActs buff offset blen := by
    intro buff offset blen
    rcases h.stub with ⟨hf, hg⟩ | ⟨i, j, hf, hg, -⟩
    · rw [readActs_none hf, readActs_none hg]
    · rw [readActs, readActs, hf, hg, h.view.stores, h.view.count]
  cases c with
  | write offset blen => rfl
  | writeAio offset nbytes => rfl
  | read buff offset blen => exact hread _ _ _
  | readAio buff offset nbytes => exact hread _ _ _
  | readRaw buff offset blen => exact hread _ _ _
  | readV segs =>
    have hseg : g.segmentStores = f.segmentStores := by
      funext seg
      rw [segmentStores, segmentStores, h.view.stores]
    rw [OssFile.acts, OssFile.acts, readVActs, readVActs, hseg, h.view.vecTotal]
    rcases h.stub with ⟨hf, hg⟩ | ⟨i, j, hf, hg, -⟩ <;> rw [hf, hg]
  | preposition offset blen =>
    rcases h.stub with ⟨hf, hg⟩ | ⟨i, j, hf, hg, -⟩ <;> simp [OssFile.acts, hf, hg]
  | fstat => rfl

theorem path (h : f.Alike ρ g) : g.path = f.path := by
  rw [h.same]

theorem written (h : f.Alike ρ g) : g.written = f.written := by
  rw [h.same]
  rfl

theorem update (h : f.Alike ρ g) {k : OssFile → OssFile}
    (hk : ∀ f v x, k { f with toReadView := v, stub := x } =
      { k f with toReadView := v, stub := x })
    (hview : (k f).toReadView = f.toReadView) (hstub : (k f).stub = f.stub) :
    (k f).Alike ρ (k g) := by
  have hkg : k g = { k f with toReadView := g.toReadView, stub := g.stub } :=
    (congrArg k h.same).trans (hk f _ _)
  refine ⟨?_, ?_, ?_⟩
  · rw [hkg, hstub]
    exact h.stub
  · rw [hkg, hview]
    exact h.view
  · rw [hkg]

theorem act (h : f.Alike ρ g) (a : IoAct) : (a.file f).Alike ρ (a.file g) := by
  obtain ⟨hstub, hview, hsame⟩ := h
  generalize g.toReadView = u at hview hsame
  generalize g.stub = x at hstub hsame
  subst hsame
  cases a <;> exact ⟨hstub, hview, rfl⟩

theorem foldl (h : f.Alike ρ g) (as : List IoAct) : (as.foldl IoAct.file f).Alike ρ
    (as.foldl IoAct.file g) := by
  induction as generalizing f g with
  | nil => exact h
  | cons a as ih => exact ih (h.act a)

theorem io (h : f.Alike ρ g) (fs gs : BlackholeFS) (mem mem' : Mem) (c : IoCall) :
    (f.io fs mem c).2.2.Alike ρ (g.io gs mem' c).2.2 ∧
      ∀ a, mem' a = mem a → (g.io gs mem' c).2.1 a = (f.io fs mem c).2.1 a := by
  have hf := f.foldl_acts fs mem c
  have hg := g.foldl_acts gs mem' c
  rw [h.acts c] at hg
  have hfile : (f.acts c).foldl IoAct.file f = (f.io fs mem c).2.2 :=
    (IoAct.foldl_file _ (f, mem)).symm.trans (congrArg Prod.fst hf)
  have hfile' : (f.acts c).foldl IoAct.file g = (g.io gs mem' c).2.2 :=
    (IoAct.foldl_file _ (g, mem')).symm.trans (congrArg Prod.fst hg)
  rw [← hfile, ← hfile']
  refine ⟨h.foldl _, fun a ha => ?_⟩
  have hmem := IoAct.mem_foldl_congr (f.acts c) (show (g, mem').2 a = (f, mem).2 a from ha)
  rwa [hf, hg] at hmem

theorem read_rc (h : f.Alike ρ g) (mem mem' : Mem) (buff : ℕ) (offset blen : Word) :
    (g.read mem' buff offset blen).1 = (f.read mem buff offset blen).1 := by
  rcases h.stub with ⟨hf, hg⟩ | ⟨i, j, hf, hg, -⟩
  · rw [read_none hf, read_none hg]
  · have hcount : (g.readInner mem' buff offset blen).1 = (f.readInner mem buff offset blen).1 := by
      apply BitVec.eq_of_toNat_eq
      rw [ReadView.readInner_count, ReadView.readInner_count, h.view.count]
    rw [read_some hf, read_some hg, hcount]

theorem reply {old : Set Word} (h : f.Alike ρ g) {fs gs : BlackholeFS}
    (hstubs : ∀ i j, ρ i j → (fs.stubs.get i).Alike old (gs.stubs.get j)) (mem mem' : Mem)
    (c : IoCall) : (f.io fs mem c).1.Alike old (g.io gs mem' c).1 := by
  have hsame : (g.io gs mem' c).1 = (f.io fs mem c).1 →
      (f.io fs mem c).1.Alike old (g.io gs mem' c).1 := by
    intro heq
    rw [heq]
    exact .refl _
  cases c with
  | write offset blen => exact hsame rfl
  | writeAio offset nbytes => exact hsame rfl
  | read buff offset blen =>
    exact hsame (congrArg (Reply.mk · 0 {}) (h.read_rc mem mem' buff offset blen))
  | readAio buff offset nbytes =>
    exact hsame (congrArg (Reply.mk XrdOssOK · {}) (h.read_rc mem mem' buff offset nbytes))
  | readRaw buff offset blen =>
    exact hsame (congrArg (Reply.mk · 0 {}) (h.read_rc mem mem' buff offset blen))
  | readV segs =>
    refine hsame (congrArg (Reply.mk · 0 {}) ?_)
    by_cases hsegs : segs.1 = []
    · simp [readV, hsegs]
    · rcases h.stub with ⟨hf, hg⟩ | ⟨i, j, hf, hg, -⟩
      · rw [readV_none hf mem hsegs, readV_none hg mem' hsegs]
      · rw [readV_eq hf, readV_eq hg, h.view.vecTotal]
  | preposition offset blen =>
    refine hsame (congrArg (Reply.mk · 0 {}) ?_)
    rcases h.stub with ⟨hf, hg⟩ | ⟨i, j, hf, hg, -⟩
    · rw [preposition_none hf, preposition_none hg]
    · rw [preposition_some hf, preposition_some hg]
  | fstat =>
    rcases h.stub with ⟨hf, hg⟩ | ⟨i, j, hf, hg, hij⟩
    · refine hsame ?_
      simp only [OssFile.io, fstat, hf, hg]
    · have hij := hstubs i j hij
      simp only [OssFile.io, fstat, hf, hg]
      refine ⟨?_, hij.ino⟩
      rw [hij.same]

end Alike

end OssFile

theorem Paired.mono {ρ ρ' : Pairing} {x y : Option ℕ} (h : Paired ρ x y)
    (hsub : ∀ i j, ρ i j → ρ' i j) : Paired ρ' x y :=
  h.imp_right fun ⟨i, j, hx, hy, hij⟩ => ⟨i, j, hx, hy, hsub i j hij⟩

structure Twins (old : Set Word) (ρ : Pairing) (s t : Heap Stub) : Prop where
  left {i j k : ℕ} : ρ i j → ρ i k → j = k
  right {i j k : ℕ} : ρ i k → ρ j k → i = j
  bound {i j : ℕ} : ρ i j → i < s.next ∧ j < t.next
  alike {i j : ℕ} : ρ i j → (s.get i).Alike old (t.get j)

structure Extends (ρ ρ' : Pairing) (next : ℕ) : Prop where
  keeps (i j : ℕ) : ρ i j → ρ' i j
  fresh (i j : ℕ) : ρ' i j → ρ i j ∨ next ≤ i

theorem Extends.refl (ρ : Pairing) (next : ℕ) : Extends ρ ρ next := ⟨fun _ _ => id, fun _ _ => .inl⟩

theorem Extends.trans {ρ ρ' ρ'' : Pairing} {next next' : ℕ} (h : Extends ρ ρ' next)
    (h' : Extends ρ' ρ'' next') (hle : next ≤ next') : Extends ρ ρ'' next :=
  ⟨fun i j hij => h'.keeps i j (h.keeps i j hij),
    fun i j hij => (h'.fresh i j hij).elim (h.fresh i j) fun hi => .inr (hle.trans hi)⟩

namespace Twins
variable {old : Set Word} {ρ : Pairing} {s t : Heap Stub}

theorem modify (h : Twins old ρ s t) {i j : ℕ} (hij : ρ i j) {f : Stub → Stub}
    (hf : Stub.KeepsIno f) :
    Twins old ρ (s.modify i f) (t.modify j f) := by
  refine ⟨h.left, h.right, h.bound, fun {k l} hkl => ?_⟩
  rw [Heap.modify_get, Heap.modify_get]
  by_cases hk : k = i
  · have hl : l = j := h.left (hk ▸ hkl) hij
    rw [if_pos hk, if_pos hl]
    exact (h.alike hkl).map hf
  · have hl : l ≠ j := fun hl => hk (h.right (hl ▸ hkl) hij)
    rw [if_neg hk, if_neg hl]
    exact h.alike hkl

theorem modify_other (h : Twins old ρ s t) {i : ℕ} (hi : ∀ j, ¬ ρ i j) (f : Stub → Stub) :
    Twins old ρ (s.modify i f) t := by
  refine ⟨h.left, h.right, h.bound, fun {k l} hkl => ?_⟩
  have hk : k ≠ i := by
    intro hk
    rw [hk] at hkl
    exact hi l hkl
  rw [Heap.modify_get_of_ne _ hk]
  exact h.alike hkl

theorem alloc_other (h : Twins old ρ s t) (a : Stub) : Twins old ρ (s.alloc a) t := by
  refine ⟨h.left, h.right, fun hij => ?_, fun hij => ?_⟩
  · exact ⟨(h.bound hij).1.trans (Nat.lt_succ_self _), (h.bound hij).2⟩
  · rw [Heap.alloc_get_of_lt _ _ (h.bound hij).1]
    exact h.alike hij

def withNew (ρ : Pairing) (s t : Heap Stub) : Pairing :=
  fun i j => ρ i j ∨ i = s.next ∧ j = t.next

theorem extends_withNew (ρ : Pairing) (s t : Heap Stub) : Extends ρ (withNew ρ s t) s.next :=
  ⟨fun _ _ => .inl, fun _ _ h => h.imp_right fun h => h.1.ge⟩

theorem alloc (h : Twins old ρ s t) {a b : Stub} (hab : a.Alike old b) :
    Twins old (withNew ρ s t) (s.alloc a) (t.alloc b) := by
  have hold : ∀ {i j}, ρ i j → i ≠ s.next ∧ j ≠ t.next :=
    fun hij => ⟨(h.bound hij).1.ne, (h.bound hij).2.ne⟩
  constructor
  · intro i j k hj hk
    rcases hj with hj | ⟨hi, rfl⟩ <;> rcases hk with hk | ⟨hi', rfl⟩
    · exact h.left hj hk
    · exact absurd hi' (hold hj).1
    · exact absurd hi (hold hk).1
    · rfl
  · intro i j k hi hj
    rcases hi with hi | ⟨rfl, hk⟩ <;> rcases hj with hj | ⟨rfl, hk'⟩
    · exact h.right hi hj
    · exact absurd hk' (hold hi).2
    · exact absurd hk (hold hj).2
    · rfl
  · intro i j hij
    rcases hij with hij | ⟨rfl, rfl⟩
    · exact ⟨(h.bound hij).1.trans (Nat.lt_succ_self _), (h.bound hij).2.trans (Nat.lt_succ_self _)⟩
    · exact ⟨Nat.lt_succ_self _, Nat.lt_succ_self _⟩
  · intro i j hij
    rcases hij with hij | ⟨rfl, rfl⟩
    · rw [Heap.alloc_get_of_lt _ _ (h.bound hij).1, Heap.alloc_get_of_lt _ _ (h.bound hij).2]
      exact h.alike hij
    · rw [Heap.alloc_get_next, Heap.alloc_get_next]
      exact hab

end Twins

/-- `fs` has the paths of the client and others, `gs` has them alone. -/
structure Shares (old : Set Word) (paths : Set Str) (ρ : Pairing) (fs gs : BlackholeFS) : Prop where
  twins : Twins old ρ fs.stubs gs.stubs
  bound : ∀ p ∈ paths, Paired ρ fs.files[p]? gs.files[p]?
  other : ∀ p ∉ paths, ∀ i, fs.files[p]? = some i → ∀ j, ¬ ρ i j

namespace Shares
variable {old : Set Word} {paths : Set Str} {ρ : Pairing} {fs gs : BlackholeFS}

theorem files (h : Shares old paths ρ fs gs) {fs' gs' : BlackholeFS}
    (hstubs : fs'.stubs = fs.stubs) (hstubs' : gs'.stubs = gs.stubs)
    (hbound : ∀ p ∈ paths, Paired ρ fs'.files[p]? gs'.files[p]?)
    (hother : ∀ p ∉ paths, ∀ i, fs'.files[p]? = some i → ∀ j, ¬ ρ i j) :
    Shares old paths ρ fs' gs' :=
  ⟨by rw [hstubs, hstubs']; exact h.twins, hbound, hother⟩

theorem touch (h : Shares old paths ρ fs gs) {i j : ℕ} (hij : ρ i j) {f : Stub → Stub}
    (hf : Stub.KeepsIno f) (n m : Word) :
    Shares old paths ρ { fs with fdLast := n, stubs := fs.stubs.modify i f }
      { gs with fdLast := m, stubs := gs.stubs.modify j f } :=
  ⟨h.twins.modify hij hf, h.bound, h.other⟩

theorem touch_other (h : Shares old paths ρ fs gs) {i : ℕ} (hi : ∀ j, ¬ ρ i j) (f : Stub → Stub)
    (n : Word) : Shares old paths ρ { fs with fdLast := n, stubs := fs.stubs.modify i f } gs :=
  ⟨h.twins.modify_other hi f, h.bound, h.other⟩

theorem alloc (h : Shares old paths ρ fs gs) (hfs : fs.Sound) {a b : Stub}
    (hab : a.Alike old b) {fs' gs' : BlackholeFS} (hstubs : fs'.stubs = fs.stubs.alloc a)
    (hstubs' : gs'.stubs = gs.stubs.alloc b)
    (hfiles : ∀ p, (fs'.files[p]? = fs.files[p]? ∧ gs'.files[p]? = gs.files[p]?) ∨
      p ∈ paths ∧ fs'.files[p]? = some fs.stubs.next ∧ gs'.files[p]? = some gs.stubs.next) :
    ∃ ρ', Extends ρ ρ' fs.stubs.next ∧ Shares old paths ρ' fs' gs' := by
  have hext := Twins.extends_withNew ρ fs.stubs gs.stubs
  refine ⟨_, hext, ?_, fun p hp => ?_, fun p hp i hi j hij => ?_⟩
  · rw [hstubs, hstubs']
    exact h.twins.alloc hab
  · rcases hfiles p with ⟨hf, hg⟩ | ⟨-, hf, hg⟩ <;> rw [hf, hg]
    · exact (h.bound p hp).mono hext.keeps
    · exact .inr ⟨_, _, rfl, rfl, .inr ⟨rfl, rfl⟩⟩
  · rcases hfiles p with ⟨hf, -⟩ | ⟨hp', -⟩
    · rw [hf] at hi
      rcases hext.fresh i j hij with hold | hnew
      · exact h.other p hp i hi j hold
      · exact absurd (hfs.bound hi) (not_lt.mpr hnew)
    · exact hp hp'

theorem alloc_other (h : Shares old paths ρ fs gs) {a : Stub} {fs' : BlackholeFS}
    (hstubs : fs'.stubs = fs.stubs.alloc a)
    (hfiles : ∀ p, fs'.files[p]? = fs.files[p]? ∨
      p ∉ paths ∧ fs'.files[p]? = some fs.stubs.next) : Shares old paths ρ fs' gs := by
  refine ⟨?_, fun p hp => ?_, fun p hp i hi j hij => ?_⟩
  · rw [hstubs]
    exact h.twins.alloc_other a
  · rcases hfiles p with hf | ⟨hp', -⟩
    · rw [hf]
      exact h.bound p hp
    · exact absurd hp hp'
  · rcases hfiles p with hf | ⟨-, hf⟩ <;> rw [hf] at hi
    · exact h.other p hp i hi j hij
    · obtain rfl := Option.some.inj hi
      exact absurd (h.twins.bound hij).1 (lt_irrefl _)

theorem seed (h : Shares old paths ρ fs gs) (hfs : fs.Sound) {n m : ℕ}
    (hroom : fs.Room old (n + 1)) (hroom' : gs.Room old (m + 1)) {path : Str}
    (hp : path ∈ paths) (size : Word) {readtype : Str} (hzeros : readtype ≠ random) :
    ∃ ρ', Extends ρ ρ' fs.stubs.next ∧
      Shares old paths ρ' (fs.seed path size readtype) (gs.seed path size readtype) := by
  have hfresh := And.intro hroom.fresh hroom'.fresh
  refine h.alloc hfs ⟨rfl, .inr hfresh, fun hr => absurd hr hzeros⟩ rfl rfl fun p => ?_
  rw [BlackholeFS.seed_files, BlackholeFS.seed_files]
  by_cases hpath : p = path
  · subst hpath
    rcases h.bound p hp with ⟨hf, hg⟩ | ⟨i, j, hf, hg, -⟩ <;> rw [hf, hg]
    · exact .inr ⟨hp, if_pos ⟨rfl, rfl⟩, if_pos ⟨rfl, rfl⟩⟩
    · exact .inl ⟨if_neg nofun, if_neg nofun⟩
  · exact .inl ⟨if_neg fun hc => hpath hc.1, if_neg fun hc => hpath hc.1⟩

theorem seed_other (h : Shares old paths ρ fs gs) {path : Str} (hp : path ∉ paths) (size : Word)
    (readtype : Str) : Shares old paths ρ (fs.seed path size readtype) gs := by
  refine h.alloc_other rfl fun p => ?_
  rw [BlackholeFS.seed_files]
  split_ifs with hpath
  · exact .inr ⟨hpath.1 ▸ hp, rfl⟩
  · exact .inl rfl

theorem createDefaults (h : Shares old paths ρ fs gs) (hfs : fs.Sound)
    (hroom : fs.Room old 3) (hroom' : gs.Room old 3) {path : Str}
    (hp : ∀ spec ∈ BlackholeFS.specs, path ++ spec.1 ∈ paths) :
    ∃ ρ', Extends ρ ρ' fs.stubs.next ∧
      Shares old paths ρ' (fs.createDefaults path) (gs.createDefaults path) := by
  have hzeros : zeros ≠ random := by decide
  obtain ⟨ρ₁, hext₁, h₁⟩ := h.seed hfs hroom hroom' (hp _ (.head _)) (1 * 1024 * 1024) hzeros
  obtain ⟨ρ₂, hext₂, h₂⟩ := h₁.seed (hfs.seed _ _ _) hroom.seed hroom'.seed
    (hp _ (.tail _ (.head _))) (1 * 1024 * 1024 * 1024) hzeros
  obtain ⟨ρ₃, hext₃, h₃⟩ := h₂.seed ((hfs.seed _ _ _).seed _ _ _) hroom.seed.seed
    hroom'.seed.seed (hp _ (.tail _ (.tail _ (.head _)))) (10 * 1024 * 1024 * 1024) hzeros
  refine ⟨ρ₃, (hext₁.trans hext₂ (Nat.le_succ _)).trans hext₃ ?_, h₃⟩
  exact Nat.le_add_right _ 2

theorem createDefaults_other (h : Shares old paths ρ fs gs) {path : Str}
    (hp : ∀ spec ∈ BlackholeFS.specs, path ++ spec.1 ∉ paths) :
    Shares old paths ρ (fs.createDefaults path) gs :=
  ((h.seed_other (hp _ (.head _)) _ _).seed_other (hp _ (.tail _ (.head _))) _ _).seed_other
    (hp _ (.tail _ (.tail _ (.head _)))) _ _

theorem rename (h : Shares old paths ρ fs gs) {src dst : Str} (hsrc : src ∈ paths)
    (hdst : dst ∈ paths) :
    (gs.rename src dst).1 = (fs.rename src dst).1 ∧
      Shares old paths ρ (fs.rename src dst).2 (gs.rename src dst).2 := by
  rcases h.bound src hsrc with ⟨hf, hg⟩ | ⟨i, j, hf, hg, hij⟩
  · rw [BlackholeFS.rename_unbound hf, BlackholeFS.rename_unbound hg]
    exact ⟨rfl, h⟩
  · refine ⟨by simp [BlackholeFS.rename, hf, hg], h.files (by simp) (by simp) (fun p hp => ?_)
      fun p hp k hk => ?_⟩
    · rw [BlackholeFS.rename_bound hf, BlackholeFS.rename_bound hg]
      split_ifs
      · exact .inr ⟨i, j, rfl, rfl, hij⟩
      · exact .inl ⟨rfl, rfl⟩
      · exact h.bound p hp
    · rw [BlackholeFS.rename_bound hf, if_neg (ne_of_mem_of_not_mem hdst hp).symm,
        if_neg (ne_of_mem_of_not_mem hsrc hp).symm] at hk
      exact h.other p hp k hk

theorem rename_other (h : Shares old paths ρ fs gs) {src dst : Str} (hsrc : src ∉ paths)
    (hdst : dst ∉ paths) : Shares old paths ρ (fs.rename src dst).2 gs := by
  cases hf : fs.files[src]? with
  | none => rwa [BlackholeFS.rename_unbound hf]
  | some i =>
    refine h.files (by simp) rfl (fun p hp => ?_) fun p hp k hk => ?_
    · rw [BlackholeFS.rename_bound hf, if_neg (ne_of_mem_of_not_mem hp hdst),
        if_neg (ne_of_mem_of_not_mem hp hsrc)]
      exact h.bound p hp
    · rw [BlackholeFS.rename_bound hf] at hk
      split_ifs at hk
      · exact h.other src hsrc k (hf.trans hk)
      · exact h.other p hp k hk

theorem unlink (h : Shares old paths ρ fs gs) {fname : Str} (hp : fname ∈ paths) :
    (gs.unlink fname).1 = (fs.unlink fname).1 ∧
      Shares old paths ρ (fs.unlink fname).2 (gs.unlink fname).2 := by
  constructor
  · rcases h.bound fname hp with ⟨hf, hg⟩ | ⟨i, j, hf, hg, -⟩ <;>
      simp [BlackholeFS.unlink, hf, hg]
  · refine h.files (by simp) (by simp) (fun p hp => ?_) fun p hp' k hk => ?_
    · rw [BlackholeFS.unlink_files, BlackholeFS.unlink_files]
      split_ifs
      · exact .inl ⟨rfl, rfl⟩
      · exact h.bound p hp
    · rw [BlackholeFS.unlink_files, if_neg (ne_of_mem_of_not_mem hp hp').symm] at hk
      exact h.other p hp' k hk

theorem unlink_other (h : Shares old paths ρ fs gs) {fname : Str} (hp : fname ∉ paths) :
    Shares old paths ρ (fs.unlink fname).2 gs := by
  refine h.files (by simp) rfl (fun p hp' => ?_) fun p hp' k hk => ?_
  · rw [BlackholeFS.unlink_files, if_neg (ne_of_mem_of_not_mem hp' hp)]
    exact h.bound p hp'
  · rw [BlackholeFS.unlink_files] at hk
    split_ifs at hk
    exact h.other p hp' k hk

theorem ns (h : Shares old paths ρ fs gs) (hfs : fs.Sound) {t : Territory} (ht : t.paths = paths)
    {c : NsCall} (hc : t.Allows (.ns c)) (hroom : fs.Room old (Call.ns c).descriptors)
    (hroom' : gs.Room old (Call.ns c).descriptors) :
    (gs.ns c).1 = (fs.ns c).1 ∧
      ∃ ρ', Extends ρ ρ' fs.stubs.next ∧ Shares old paths ρ' (fs.ns c).2 (gs.ns c).2 := by
  subst ht
  cases c with
  | seed path size readtype =>
    exact ⟨rfl, h.seed hfs (n := 0) (m := 0) hroom hroom' hc.1 size hc.2⟩
  | createDefaults path => exact ⟨rfl, h.createDefaults hfs hroom hroom' hc⟩
  | rename src dst =>
    obtain ⟨hrc, hshares⟩ := h.rename hc.1 hc.2
    exact ⟨hrc, ρ, .refl ρ _, hshares⟩
  | unlink fname =>
    obtain ⟨hrc, hshares⟩ := h.unlink (show fname ∈ t.paths from hc)
    exact ⟨hrc, ρ, .refl ρ _, hshares⟩

theorem ns_other (h : Shares old paths ρ fs gs) {t : Territory} (ht : ∀ p ∈ t.paths, p ∉ paths)
    {c : NsCall} (hc : t.Allows (.ns c)) : Shares old paths ρ (fs.ns c).2 gs := by
  cases c with
  | seed path size readtype => exact h.seed_other (ht _ hc.1) size readtype
  | createDefaults path => exact h.createDefaults_other fun spec hspec => ht _ (hc spec hspec)
  | rename src dst => exact h.rename_other (ht _ hc.1) (ht _ hc.2)
  | unlink fname => exact h.unlink_other (ht _ hc)

theorem refused_iff (h : Shares old paths ρ fs gs) {fname : Str} (hp : fname ∈ paths)
    (flags : CInt) : gs.Refused fname flags ↔ fs.Refused fname flags := by
  rcases h.bound fname hp with ⟨hf, hg⟩ | ⟨i, j, hf, hg, -⟩ <;>
    simp [BlackholeFS.Refused, hf, hg]

theorem create (h : Shares old paths ρ fs gs) (hfs : fs.Sound) (hroom : fs.Room old 1)
    (hroom' : gs.Room old 1) {fname : Str} (hp : fname ∈ paths) (flags mode : CInt) :
    ∃ ρ', Extends ρ ρ' fs.stubs.next ∧
      Shares old paths ρ'
        (BlackholeFS.create { fs with files := fs.files.erase fname } fname flags mode).2
        (BlackholeFS.create { gs with files := gs.files.erase fname } fname flags mode).2 := by
  have hfile : (zeros : Str) ≠ random := by decide
  have hfresh := And.intro hroom.fresh hroom'.fresh
  refine h.alloc hfs ⟨rfl, .inr hfresh, fun hr => absurd hr hfile⟩ rfl rfl fun p => ?_
  rw [BlackholeFS.create_files, BlackholeFS.create_files]
  split_ifs with hpath
  · exact .inr ⟨hpath ▸ hp, rfl, rfl⟩
  · exact .inl ⟨rfl, rfl⟩

theorem open_free {fname : Str} {flags : CInt} (hwrite : ¬ readOnly flags)
    (hfree : fs.files[fname]? = none ∨ ¬ excl flags ∧ trunc flags) (mode : CInt) :
    fs.open fname flags mode =
      BlackholeFS.create { fs with files := fs.files.erase fname } fname flags mode := by
  cases hfile : fs.files[fname]? with
  | none =>
    rw [BlackholeFS.erase_of_unbound hfile]
    simp only [BlackholeFS.open, hwrite, hfile, if_false]
  | some i =>
    obtain ⟨hexcl, htrunc⟩ := hfree.resolve_left (by simp [hfile])
    simp only [BlackholeFS.open, hwrite, hfile, hexcl, htrunc, if_true, if_false]

theorem «open» (h : Shares old paths ρ fs gs) (hfs : fs.Sound) (hroom : fs.Room old 1)
    (hroom' : gs.Room old 1) {fname : Str} (hp : fname ∈ paths) (flags mode : CInt) :
    ∃ ρ', Extends ρ ρ' fs.stubs.next ∧
      Shares old paths ρ' (fs.open fname flags mode).2 (gs.open fname flags mode).2 := by
  by_cases hread : readOnly flags
  · rcases h.bound fname hp with ⟨hf, hg⟩ | ⟨i, j, hf, hg, hij⟩ <;>
      simp only [BlackholeFS.open, hread, hf, hg, if_true]
    · exact ⟨ρ, .refl ρ _, h⟩
    · exact ⟨ρ, .refl ρ _, h.touch hij (.openRead flags mode) _ _⟩
  · rcases h.bound fname hp with ⟨hf, hg⟩ | ⟨i, j, hf, hg, hij⟩
    · rw [open_free hread (.inl hf), open_free hread (.inl hg)]
      exact h.create hfs hroom hroom' hp flags mode
    · by_cases hexcl : excl flags
      · rw [BlackholeFS.open_of_refused (.inr ⟨hread, by simp [hf], hexcl⟩),
          BlackholeFS.open_of_refused (.inr ⟨hread, by simp [hg], hexcl⟩)]
        exact ⟨ρ, .refl ρ _, h⟩
      · by_cases htrunc : trunc flags
        · rw [open_free hread (.inr ⟨hexcl, htrunc⟩), open_free hread (.inr ⟨hexcl, htrunc⟩)]
          exact h.create hfs hroom hroom' hp flags mode
        · simp only [BlackholeFS.open, hread, hf, hg, hexcl, htrunc, if_false]
          exact ⟨ρ, .refl ρ _, h.touch hij (.reuse flags mode) _ _⟩

theorem open_other (h : Shares old paths ρ fs gs) {fname : Str} (hp : fname ∉ paths)
    (flags mode : CInt) : Shares old paths ρ (fs.open fname flags mode).2 gs := by
  have hcase := BlackholeFS.open_case fs fname flags mode
  generalize fs.open fname flags mode = r at hcase
  cases hcase with
  | missing _ _ => exact h
  | exclusive _ _ _ _ => exact h
  | read stub _ hf => exact h.touch_other (h.other fname hp stub hf) _ _
  | reuse stub _ hf _ _ => exact h.touch_other (h.other fname hp stub hf) _ _
  | create _ _ =>
    refine h.alloc_other rfl fun p => ?_
    rw [BlackholeFS.create_files]
    split_ifs with hpath
    · exact .inr ⟨hpath ▸ hp, rfl⟩
    · exact .inl rfl

theorem fsClose (h : Shares old paths ρ fs gs) {fname : Str} (hp : fname ∈ paths) :
    Shares old paths ρ (fs.close fname) (gs.close fname) := by
  rcases h.bound fname hp with ⟨hf, hg⟩ | ⟨i, j, hf, hg, hij⟩ <;>
    simp only [BlackholeFS.close, hf, hg]
  · exact h
  · exact h.touch hij .close _ _

theorem fsClose_other (h : Shares old paths ρ fs gs) {fname : Str} (hp : fname ∉ paths) :
    Shares old paths ρ (fs.close fname) gs := by
  cases hf : fs.files[fname]? with
  | none => simpa only [BlackholeFS.close, hf] using h
  | some i =>
    simp only [BlackholeFS.close, hf]
    exact h.touch_other (h.other fname hp i hf) _ _

theorem close (h : Shares old paths ρ fs gs) {f g : OssFile} (hfile : f.Alike ρ g)
    (hpath : f.stub ≠ none → f.path ∈ paths) (mgr mgr' : Snapshot) :
    (g.close gs mgr').1 = (f.close fs mgr).1 ∧
      Shares old paths ρ (f.close fs mgr).2.1 (g.close gs mgr').2.1 ∧
      (f.close fs mgr).2.2.2.Alike ρ (g.close gs mgr').2.2.2 := by
  obtain ⟨hstub, hview, hsame⟩ := hfile
  generalize g.toReadView = u at hview hsame
  generalize g.stub = x at hstub hsame
  subst hsame
  rcases hstub with ⟨hf, rfl⟩ | ⟨i, j, hf, rfl, hij⟩
  · rw [OssFile.close_none hf, OssFile.close_none rfl]
    exact ⟨rfl, h, .inl ⟨hf, rfl⟩, hview, rfl⟩
  · have hp := hpath (by simp [hf])
    rw [OssFile.close_some hf, OssFile.close_some rfl]
    refine ⟨rfl, ?_, .inl ⟨rfl, rfl⟩, hview, rfl⟩
    exact (h.touch hij (.storeSize f.written) fs.fdLast gs.fdLast).fsClose hp

theorem close_other (h : Shares old paths ρ fs gs) {f : OssFile}
    (hstub : ∀ i, f.stub = some i → ∀ j, ¬ ρ i j) (hpath : f.stub ≠ none → f.path ∉ paths)
    (mgr : Snapshot) : Shares old paths ρ (f.close fs mgr).2.1 gs := by
  cases hf : f.stub with
  | none => rwa [OssFile.close_none hf]
  | some i =>
    rw [OssFile.close_some hf]
    exact (h.touch_other (hstub i hf) _ fs.fdLast).fsClose_other (hpath (by simp [hf]))

end Shares

/-- `v` is what `w` is for the client. -/
structure Mirrors (old : Set Word) (t : Territory) (ρ : Pairing) (w v : World) : Prop where
  sound : w.Sound
  shares : Shares old t.paths ρ w.fs v.fs
  file : ∀ h ∈ t.handles, (w.file h).Alike ρ (v.file h)
  path : ∀ h, (w.file h).stub ≠ none → ((w.file h).path ∈ t.paths ↔ h ∈ t.handles)
  other : ∀ h ∉ t.handles, ∀ i, (w.file h).stub = some i → ∀ j, ¬ ρ i j
  mem : ∀ a ∈ t.addrs, v.mem a = w.mem a

theorem OssFile.Alike.mono {ρ ρ' : Pairing} {f g : OssFile} (h : f.Alike ρ g)
    (hsub : ∀ i j, ρ i j → ρ' i j) : f.Alike ρ' g :=
  ⟨h.stub.mono hsub, h.view, h.same⟩

theorem OssFile.Alike.adopt {old : Set Word} {paths : Set Str} {ρ : Pairing}
    {fs gs : BlackholeFS} {path : Str}
    (h : Shares old paths ρ fs gs) (hp : path ∈ paths) (f g : OssFile) (hpath : g.path = f.path)
    (flags : CInt) : (f.adopt fs path flags).Alike ρ (g.adopt gs path flags) := by
  rcases h.bound path hp with ⟨hf, hg⟩ | ⟨i, j, hf, hg, hij⟩
  · simp only [OssFile.adopt, BlackholeFS.getStub, hf, hg, hpath]
    exact ⟨.inl ⟨rfl, rfl⟩, ⟨rfl, fun _ => rfl⟩, rfl⟩
  · simp only [OssFile.adopt, BlackholeFS.getStub, hf, hg, hpath]
    exact ⟨.inr ⟨i, j, rfl, rfl, hij⟩, (h.twins.alike hij).view, rfl⟩

namespace Mirrors
variable {old : Set Word} {t u : Territory} {ρ ρ' : Pairing} {w v : World}

theorem other_extends (h : Mirrors old t ρ w v) (hext : Extends ρ ρ' w.fs.stubs.next) {g : ℕ}
    (hg : g ∉ t.handles) {i : ℕ} (hi : (w.file g).stub = some i) (j : ℕ) : ¬ ρ' i j := by
  intro hij
  rcases hext.fresh i j hij with hold | hnew
  · exact h.other g hg i hi j hold
  · exact absurd (h.sound.held hi) (not_lt.mpr hnew)

theorem withFs (h : Mirrors old t ρ w v) {fs gs : BlackholeFS} (hfs : fs.Sound)
    (hnext : w.fs.stubs.next ≤ fs.stubs.next) (hext : Extends ρ ρ' w.fs.stubs.next)
    (hshares : Shares old t.paths ρ' fs gs) :
    Mirrors old t ρ' { w with fs := fs } { v with fs := gs } where
  sound := ⟨hfs, fun hstub => (h.sound.held hstub).trans_le hnext⟩
  shares := hshares
  file g hg := (h.file g hg).mono hext.keeps
  path := h.path
  other _ hg _ hi := h.other_extends hext hg hi
  mem := h.mem

theorem withMgr (h : Mirrors old t ρ w v) (m m' : Snapshot) :
    Mirrors old t ρ { w with mgr := m } { v with mgr := m' } :=
  ⟨⟨h.sound.fs, h.sound.held⟩, h.shares, h.file, h.path, h.other, h.mem⟩

theorem withMem (h : Mirrors old t ρ w v) {m m' : Mem} (hmem : ∀ a ∈ t.addrs, m' a = m a) :
    Mirrors old t ρ { w with mem := m } { v with mem := m' } :=
  ⟨⟨h.sound.fs, h.sound.held⟩, h.shares, h.file, h.path, h.other, hmem⟩

theorem setFile (h : Mirrors old t ρ w v) {g : ℕ} (hg : g ∈ t.handles) {f f' : OssFile}
    (hfile : f.Alike ρ f') (hheld : ∀ i, f.stub = some i → i < w.fs.stubs.next)
    (hpath : f.stub ≠ none → f.path ∈ t.paths) :
    Mirrors old t ρ (w.setFile g f) (v.setFile g f') := by
  refine ⟨⟨h.sound.fs, fun {k i} hi => ?_⟩, h.shares, fun k hk => ?_, fun k hk => ?_,
    fun k hk i hi => ?_, h.mem⟩
  · rw [World.setFile_apply] at hi
    split_ifs at hi
    · exact hheld i hi
    · exact h.sound.held hi
  · rw [World.setFile_apply, World.setFile_apply]
    split_ifs
    · exact hfile
    · exact h.file k hk
  · rw [World.setFile_apply] at hk ⊢
    split_ifs at hk ⊢ with hkg
    · exact iff_of_true (hpath hk) (hkg ▸ hg)
    · exact h.path k hk
  · rw [World.setFile_apply, if_neg (ne_of_mem_of_not_mem hg hk).symm] at hi
    exact h.other k hk i hi

theorem setFile_other (h : Mirrors old t ρ w v) {g : ℕ} (hg : g ∉ t.handles) {f : OssFile}
    (hheld : ∀ i, f.stub = some i → i < w.fs.stubs.next ∧ ∀ j, ¬ ρ i j)
    (hpath : f.stub ≠ none → f.path ∉ t.paths) : Mirrors old t ρ (w.setFile g f) v := by
  refine ⟨⟨h.sound.fs, fun {k i} hi => ?_⟩, h.shares, fun k hk => ?_, fun k hk => ?_,
    fun k hk i hi => ?_, h.mem⟩
  · rw [World.setFile_apply] at hi
    split_ifs at hi
    · exact (hheld i hi).1
    · exact h.sound.held hi
  · rw [World.setFile_apply, if_neg (ne_of_mem_of_not_mem hk hg)]
    exact h.file k hk
  · rw [World.setFile_apply] at hk ⊢
    split_ifs at hk ⊢ with hkg
    · exact iff_of_false (hpath hk) (hkg ▸ hg)
    · exact h.path k hk
  · rw [World.setFile_apply] at hi
    split_ifs at hi
    · exact (hheld i hi).2
    · exact h.other k hk i hi

theorem setFile_same (h : Mirrors old t ρ w v) {g : ℕ} (hg : g ∉ t.handles) {f : OssFile}
    (hstub : f.stub = none ∨ f.stub = (w.file g).stub) (hpath : f.path = (w.file g).path) :
    Mirrors old t ρ (w.setFile g f) v := by
  have hsame : ∀ i, f.stub = some i → (w.file g).stub = some i := by
    intro i hi
    exact hstub.elim (fun hnone => absurd (hnone.symm.trans hi) nofun) fun heq => heq ▸ hi
  refine h.setFile_other hg (fun i hi => ⟨h.sound.held (hsame i hi), h.other g hg i (hsame i hi)⟩)
    fun hsome hp => ?_
  obtain ⟨i, hi⟩ := Option.ne_none_iff_exists'.mp hsome
  have hopen : (w.file g).stub ≠ none := fun hnone => absurd (hnone.symm.trans (hsame i hi)) nofun
  exact hg ((h.path g hopen).mp (hpath ▸ hp))

theorem ns (h : Mirrors old t ρ w v) {c : NsCall} (hc : t.Allows (.ns c))
    (hw : w.fs.Room old (Call.ns c).descriptors) (hv : v.fs.Room old (Call.ns c).descriptors) :
    ∃ ρ', Mirrors old t ρ' (w.step (.ns c)).1 (v.step (.ns c)).1 ∧
      (w.step (.ns c)).2.Alike old (v.step (.ns c)).2 := by
  obtain ⟨hrc, ρ', hext, hshares⟩ := h.shares.ns h.sound.fs rfl hc hw hv
  refine ⟨ρ', h.withFs (h.sound.fs.ns c) (w.fs.ns_next_le c) hext hshares, ?_⟩
  rw [World.step, World.step, hrc]
  exact .refl _

theorem fileOpen (h : Mirrors old t ρ w v) (hw : w.fs.Room old 1) (hv : v.fs.Room old 1) {g : ℕ}
    {path : Str} (hg : g ∈ t.handles) (hp : path ∈ t.paths) (flags mode : CInt) :
    ∃ ρ', Mirrors old t ρ' (w.step (.fileOpen g path flags mode)).1
        (v.step (.fileOpen g path flags mode)).1 ∧
      (w.step (.fileOpen g path flags mode)).2.Alike old
        (v.step (.fileOpen g path flags mode)).2 := by
  by_cases href : w.fs.Refused path flags
  · have href' := (h.shares.refused_iff hp flags).mpr href
    have hfile := (h.file g hg).update (k := fun f => { f with path := path })
      (fun _ _ _ => rfl) rfl rfl
    simp only [World.step, OssFile.open_failed (BlackholeFS.refused_rc_neg href mode),
      OssFile.open_failed (BlackholeFS.refused_rc_neg href' mode),
      BlackholeFS.open_of_refused href, BlackholeFS.open_of_refused href']
    exact ⟨ρ, h.setFile hg hfile (fun _ hi => h.sound.held hi) fun _ => hp, .refl _⟩
  · have href' := fun hr => href ((h.shares.refused_iff hp flags).mp hr)
    have hrc := (hw.counterFits.open_rc href mode).1
    have hrc' := (hv.counterFits.open_rc href' mode).1
    obtain ⟨ρ', hext, hshares⟩ := h.shares.open h.sound.fs hw hv hp flags mode
    have hfs := h.sound.fs.open path flags mode
    have hopened := h.withFs hfs (w.fs.open_next_le path flags mode) hext hshares
    simp only [World.step, OssFile.open_ok (show 0 ≤ (w.fs.open path flags mode).1 by omega),
      OssFile.open_ok (show 0 ≤ (v.fs.open path flags mode).1 by omega)]
    refine ⟨ρ', ?_, .refl _⟩
    apply hopened.setFile hg
    · exact .adopt hshares hp _ _ rfl flags
    · exact fun _ hi => hfs.bound hi
    · exact fun _ => hp

theorem fileClose (h : Mirrors old t ρ w v) {g : ℕ} (hg : g ∈ t.handles) :
    Mirrors old t ρ (w.step (.fileClose g)).1 (v.step (.fileClose g)).1 ∧
      (w.step (.fileClose g)).2.Alike old (v.step (.fileClose g)).2 := by
  obtain ⟨hrc, hshares, hfile⟩ := h.shares.close (h.file g hg)
    (fun hstub => (h.path g hstub).mpr hg) w.mgr v.mgr
  have hnone := ((w.file g).close_session w.fs w.mgr).2.2.2.2
  have hclosed := (h.withFs (h.sound.step (.fileClose g)).fs (OssFile.close_stubs_next ..).ge
    (.refl ρ _) hshares).withMgr ((w.file g).close w.fs w.mgr).2.2.1
    ((v.file g).close v.fs v.mgr).2.2.1
  refine ⟨hclosed.setFile hg hfile (fun i hi => ?_) fun hstub => absurd hnone hstub, ?_⟩
  · exact absurd (hnone.symm.trans hi) nofun
  · rw [World.step, World.step, hrc]
    exact .refl _

theorem io (h : Mirrors old t ρ w v) {g : ℕ} (hg : g ∈ t.handles) (c : IoCall) :
    Mirrors old t ρ (w.step (.io g c)).1 (v.step (.io g c)).1 ∧
      (w.step (.io g c)).2.Alike old (v.step (.io g c)).2 := by
  obtain ⟨hfile, hmem⟩ := (h.file g hg).io w.fs v.fs w.mem v.mem c
  have hsame := (w.file g).io_session w.fs w.mem c
  refine ⟨(h.withMem fun a ha => hmem a (h.mem a ha)).setFile hg hfile
    (fun i hi => h.sound.held (hsame.stub ▸ hi)) fun hstub => ?_,
    (h.file g hg).reply (fun i j => h.shares.twins.alike) w.mem v.mem c⟩
  rw [hsame.path]
  exact (h.path g (hsame.stub ▸ hstub)).mpr hg

theorem stat (h : Mirrors old t ρ w v) {path : Str} (hp : path ∈ t.paths) :
    (w.step (.stat path)).2.Alike old (v.step (.stat path)).2 := by
  rcases h.shares.bound path hp with ⟨hf, hg⟩ | ⟨i, j, hf, hg, hij⟩
  · simp only [World.step, World.stat, BlackholeFS.getStub, hf, hg]
    exact .refl _
  · simp only [World.step, World.stat, BlackholeFS.getStub, hf, hg]
    exact (h.shares.twins.alike hij).reply 0

theorem own (h : Mirrors old t ρ w v) {c : Call} (hc : t.Allows c)
    (hw : w.fs.Room old c.descriptors) (hv : v.fs.Room old c.descriptors) :
    ∃ ρ', Mirrors old t ρ' (w.step c).1 (v.step c).1 ∧ (w.step c).2.Alike old (v.step c).2 := by
  cases c with
  | ns c => exact h.ns hc hw hv
  | fileOpen g path flags mode => exact h.fileOpen hw hv hc.1 hc.2 flags mode
  | fileClose g => exact ⟨ρ, h.fileClose hc⟩
  | io g c => exact ⟨ρ, h.io hc.1 c⟩
  | stat path => exact ⟨ρ, h, h.stat hc⟩

theorem fileOpen_other (h : Mirrors old t ρ w v) {g : ℕ} {path : Str} (hg : g ∉ t.handles)
    (hp : path ∉ t.paths) (flags mode : CInt) :
    Mirrors old t ρ (w.step (.fileOpen g path flags mode)).1 v := by
  have hshares := h.shares.open_other hp flags mode
  have hfs := h.sound.fs.open path flags mode
  have hle := w.fs.open_next_le path flags mode
  have hopened := h.withFs hfs hle (.refl ρ _) hshares
  rcases lt_or_ge (w.fs.open path flags mode).1 0 with hrc | hrc
  · simp only [World.step, OssFile.open_failed hrc]
    apply hopened.setFile_other hg
    · exact fun i hi => ⟨(h.sound.held hi).trans_le hle, h.other g hg i hi⟩
    · exact fun _ => hp
  · simp only [World.step, OssFile.open_ok hrc]
    apply hopened.setFile_other hg
    · exact fun i hi => ⟨hfs.bound hi, hshares.other path hp i hi⟩
    · exact fun _ => hp

theorem fileClose_other (h : Mirrors old t ρ w v) {g : ℕ} (hg : g ∉ t.handles) :
    Mirrors old t ρ (w.step (.fileClose g)).1 v := by
  have hpath : (w.file g).stub ≠ none → (w.file g).path ∉ t.paths :=
    fun hstub hp => hg ((h.path g hstub).mp hp)
  obtain ⟨-, -, -, hsame, hnone⟩ := (w.file g).close_session w.fs w.mgr
  have hclosed := (h.withFs (h.sound.step (.fileClose g)).fs (OssFile.close_stubs_next ..).ge
    (.refl ρ _) (h.shares.close_other (h.other g hg) hpath w.mgr)).withMgr
    ((w.file g).close w.fs w.mgr).2.2.1 v.mgr
  exact hclosed.setFile_same hg (.inl hnone) hsame

theorem io_other (h : Mirrors old t ρ w v) {g : ℕ} (hg : g ∉ t.handles) {c : IoCall}
    (haddrs : ∀ a ∈ u.addrs, a ∉ t.addrs) (hc : c.Inside u.addrs) :
    Mirrors old t ρ (w.step (.io g c)).1 v := by
  have hsame := (w.file g).io_session w.fs w.mem c
  have hmem : ∀ a ∈ t.addrs, v.mem a = ((w.file g).io w.fs w.mem c).2.1 a := by
    intro a ha
    have hout := (w.file g).io_mem_outside w.fs w.mem hc fun hu => haddrs a hu ha
    exact (h.mem a ha).trans hout.symm
  exact (h.withMem hmem).setFile_same hg (.inr hsame.stub) hsame.path

theorem foreign (h : Mirrors old t ρ w v) (hu : t.Apart u) {c : Call} (hc : u.Allows c) :
    Mirrors old t ρ (w.step c).1 v := by
  cases c with
  | ns c =>
    exact h.withFs (h.sound.fs.ns c) (w.fs.ns_next_le c) (.refl ρ _) (h.shares.ns_other hu.paths hc)
  | fileOpen g path flags mode =>
    exact h.fileOpen_other (hu.handles _ hc.1) (hu.paths _ hc.2) flags mode
  | fileClose g => exact h.fileClose_other (hu.handles _ hc)
  | io g c => exact h.io_other (hu.handles _ hc.1) hu.addrs hc.2
  | stat path => exact h

theorem start (t : Territory) (hw : w.Sound) (hidle : ∀ h, (w.file h).stub = none) :
    Mirrors old t (fun i j => i = j ∧ ∃ p ∈ t.paths, w.fs.files[p]? = some i) w w := by
  refine ⟨hw, ⟨⟨?_, ?_, ?_, ?_⟩, fun p hp => ?_, fun p hp i hbound j hij => ?_⟩, fun g _ => ?_,
    fun g hg => absurd (hidle g) hg, fun g _ i hi => ?_, fun _ _ => rfl⟩
  · exact fun hj hk => hj.1.symm.trans hk.1
  · exact fun hi hj => hi.1.trans hj.1.symm
  · intro i j hij
    obtain ⟨rfl, p, -, hbound⟩ := hij
    exact ⟨hw.fs.bound hbound, hw.fs.bound hbound⟩
  · intro i j hij
    rw [← hij.1]
    exact .refl _
  · cases hfile : w.fs.files[p]? with
    | none => exact .inl ⟨rfl, rfl⟩
    | some i => exact .inr ⟨i, i, rfl, rfl, rfl, p, hp, hfile⟩
  · obtain ⟨-, q, hq, hbound'⟩ := hij
    exact hp (hw.fs.distinct hbound hbound' ▸ hq)
  · exact ⟨.inl ⟨hidle g, hidle g⟩, ⟨rfl, fun _ => rfl⟩, rfl⟩
  · rw [hidle g] at hi
    cases hi

end Mirrors

namespace World

def increments (w : World) : Call → ℕ
  | .ns c => w.fs.increments (.ns c)
  | .fileOpen _ path flags mode => w.fs.increments (.fsOpen path flags mode)
  | _ => 0

theorem step_identified {w : World} (h : w.fs.Identified) (c : Call)
    (hfits : w.fs.fdLast.toNat + w.increments c < 2 ^ 64) :
    (w.step c).1.fs.Identified ∧
      (w.step c).1.fs.fdLast.toNat = w.fs.fdLast.toNat + w.increments c := by
  cases c with
  | ns c => exact h.call (.ns c) hfits
  | fileOpen g path flags mode =>
    rw [step_open_fs]
    exact h.open mode hfits
  | fileClose g =>
    rw [step_close_fs]
    have hnext := (w.file g).close_stubs_next w.fs w.mgr
    have hlast := (w.file g).close_fdLast w.fs w.mgr
    have hsound : ((w.file g).close w.fs w.mgr).2.1.Sound := by
      refine h.sound.of_sub hnext.ge fun p i hp => ?_
      rwa [OssFile.close_files] at hp
    refine ⟨h.of_ids hsound hnext (fun i => ?_) hlast, congrArg BitVec.toNat hlast⟩
    rcases (w.file g).close_stub w.fs w.mgr i with hsame | hstored
    · rw [hsame.stat]
      exact ⟨rfl, rfl⟩
    · rw [hstored.stat]
      exact ⟨rfl, rfl⟩
  | io g c => exact ⟨h, rfl⟩
  | stat path => exact ⟨h, rfl⟩

theorem exec_identified (cs : List Call) (hfits : machine.total increments {} cs < 2 ^ 64) :
    (machine.exec {} cs).fs.Identified ∧
      (machine.exec {} cs).fs.fdLast.toNat = machine.total increments {} cs := by
  have hstep : ∀ w c, w.fs.Identified → w.fs.fdLast.toNat + w.increments c < 2 ^ 64 →
      (machine.next w c).fs.Identified ∧
        (machine.next w c).fs.fdLast.toNat = w.fs.fdLast.toNat + w.increments c :=
    fun w c h hc => step_identified h c hc
  have hzero : ({} : World).fs.fdLast.toNat + machine.total increments {} cs < 2 ^ 64 := by
    rwa [show ({} : World).fs.fdLast.toNat = 0 from rfl, Nat.zero_add]
  constructor
  · exact Machine.exec_invariant_of_total (M := machine) (I := fun w => w.fs.Identified)
      (fun w => w.fs.fdLast.toNat) hstep .init hzero
  · exact (Machine.exec_gauge_of_total (M := machine) (I := fun w => w.fs.Identified)
      (fun w => w.fs.fdLast.toNat) hstep .init hzero).trans (Nat.zero_add _)

theorem exec_room (cs : List Call) {n : ℕ}
    (hfits : machine.total increments {} cs + n < 2 ^ 31) :
    (machine.exec {} cs).fs.Room (machine.exec {} cs).fs.inodes n := by
  obtain ⟨hident, hlast⟩ := exec_identified cs (by omega)
  refine ⟨?_, by omega⟩
  rintro ino ⟨i, hi, rfl⟩
  exact hident.le hi

theorem step_fdLast {w : World} {c : Call}
    (hfits : w.fs.fdLast.toNat + c.descriptors < 2 ^ 31) :
    w.fs.fdLast.toNat ≤ (w.step c).1.fs.fdLast.toNat ∧
      (w.step c).1.fs.fdLast.toNat ≤ w.fs.fdLast.toNat + c.descriptors := by
  have hadd : ∀ k, k = c.descriptors → (w.fs.fdLast + BitVec.ofNat 64 k).toNat =
      w.fs.fdLast.toNat + c.descriptors := by
    intro k hk
    rw [hk]
    exact toNat_add_of_lt (by omega)
  have hgrown : ∀ {k m n : ℕ}, k = m + n → m ≤ k ∧ k ≤ m + n := by
    intro k m n hk
    omega
  cases c with
  | ns c =>
    cases c with
    | seed path size readtype => exact hgrown (hadd 1 rfl)
    | createDefaults path =>
      have hthree : (w.fs.createDefaults path).fdLast = w.fs.fdLast + 1#64 + 1#64 + 1#64 := rfl
      refine hgrown (Eq.trans (congrArg BitVec.toNat ?_) (hadd 3 rfl))
      exact hthree.trans (by bv_omega)
    | rename src dst => simp [World.step, BlackholeFS.ns]
    | unlink fname => simp [World.step, BlackholeFS.ns]
  | fileOpen g path flags mode =>
    rw [step_open_fs]
    by_cases href : w.fs.Refused path flags
    · rw [BlackholeFS.open_of_refused href]
      exact ⟨le_rfl, Nat.le_add_right _ _⟩
    · rw [(BlackholeFS.open_of_not_refused href mode).2]
      exact hgrown (hadd 1 rfl)
  | fileClose g =>
    rw [step_close_fs, OssFile.close_fdLast]
    exact ⟨le_rfl, Nat.le_add_right _ _⟩
  | io g c => exact ⟨le_rfl, Nat.le_add_right _ _⟩
  | stat path => exact ⟨le_rfl, Nat.le_add_right _ _⟩

theorem step_room {old : Set Word} {w : World} {c : Call} {n : ℕ}
    (h : w.fs.Room old (n + c.descriptors)) : (w.step c).1.fs.Room old n := by
  have hfits := h.fits
  obtain ⟨hle, hlast⟩ := step_fdLast (show w.fs.fdLast.toNat + c.descriptors < 2 ^ 31 by omega)
  exact h.advance hle (by omega)

end World

def Isolated (old : Set Word) (t : Territory) (n : ℕ) (w v : World) : Prop :=
  w.fs.Room old n ∧ v.fs.Room old n ∧ ∃ ρ, Mirrors old t ρ w v

namespace Isolated
variable {old : Set Word} {t u : Territory} {n : ℕ} {w v : World} {c : Call}

theorem own (h : Isolated old t (n + c.descriptors) w v) (hc : t.Allows c) :
    Isolated old t n (w.step c).1 (v.step c).1 ∧ (w.step c).2.Alike old (v.step c).2 := by
  obtain ⟨hw, hv, ρ, hmirrors⟩ := h
  have hle : c.descriptors ≤ n + c.descriptors := Nat.le_add_left _ _
  obtain ⟨ρ', hnext, hreply⟩ := hmirrors.own hc (hw.mono hle) (hv.mono hle)
  exact ⟨⟨World.step_room hw, World.step_room hv, ρ', hnext⟩, hreply⟩

theorem foreign (h : Isolated old t (n + c.descriptors) w v) (hu : t.Apart u) (hc : u.Allows c) :
    Isolated old t n (w.step c).1 v := by
  obtain ⟨hw, hv, ρ, hmirrors⟩ := h
  exact ⟨World.step_room hw, hv.mono (Nat.le_add_right _ _), ρ, hmirrors.foreign hu hc⟩

end Isolated

def World.clients (τ : Type) : Machine World (τ × Call) Reply := World.machine.shared τ

/-- Clients whose paths, handles and buffers are their own get, in any order of their
calls, the replies and the bytes which each of them would get alone, apart from the
inodes of files which did not exist at the start, as long as the descriptors fit `int`. -/
theorem clients_isolated {τ : Type} [DecidableEq τ] (territory : τ → Territory)
    (hapart : ∀ a b, a ≠ b → (territory a).Apart (territory b)) (before : List Call)
    (hidle : ∀ h, ((World.machine.exec {} before).file h).stub = none) (cs : List (τ × Call))
    (hcs : ∀ x ∈ cs, (territory x.1).Allows x.2)
    (hfits : World.machine.total World.increments {} before +
      (cs.map fun x => x.2.descriptors).sum < 2 ^ 31) (a : τ) :
    let w := World.machine.exec {} before
    let alone := cs.filter fun x => x.1 = a
    List.Forall₂ (Reply.Alike w.fs.inodes)
        ((World.clients τ).observed (fun x => x.1 = a) w cs)
        ((World.clients τ).outputs w alone) ∧
      ∀ addr ∈ (territory a).addrs, ((World.clients τ).exec w alone).mem addr =
        ((World.clients τ).exec w cs).mem addr := by
  intro w alone
  have hsound : w.Sound := .exec before
  have hroom := World.exec_room before hfits
  have hstart : Isolated w.fs.inodes (territory a)
      (0 + (cs.map fun x => x.2.descriptors).sum) w w := by
    rw [Nat.zero_add]
    exact ⟨hroom, hroom, _, .start (territory a) hsound hidle⟩
  have hown : ∀ n u v, ∀ x : τ × Call, (territory x.1).Allows x.2 → decide (x.1 = a) →
      Isolated w.fs.inodes (territory a) (n + x.2.descriptors) u v →
        Isolated w.fs.inodes (territory a) n ((World.clients τ).next u x)
            ((World.clients τ).next v x) ∧
          ((World.clients τ).out u x).Alike w.fs.inodes ((World.clients τ).out v x) := by
    intro n u v x hx hmine h
    obtain rfl := of_decide_eq_true hmine
    exact h.own hx
  have hforeign : ∀ n u v, ∀ x : τ × Call, (territory x.1).Allows x.2 → ¬ decide (x.1 = a) →
      Isolated w.fs.inodes (territory a) (n + x.2.descriptors) u v →
        Isolated w.fs.inodes (territory a) n ((World.clients τ).next u x) v := by
    intro n u v x hx hother h
    have hne : a ≠ x.1 := fun heq => hother (decide_eq_true heq.symm)
    exact h.foreign (hapart a x.1 hne) hx
  obtain ⟨⟨-, -, ρ, hend⟩, houts⟩ := Machine.exec_isolated hown hforeign hcs hstart
  exact ⟨houts, hend.mem⟩

def ownFile (me : Bool) : Territory where
  paths := {if me then "/a".toList else "/b".toList}
  handles := {if me then 0 else 1}
  addrs := {a | if me then a < 8 else 8 ≤ a}

theorem ownFile_apart : ∀ a b, a ≠ b → (ownFile a).Apart (ownFile b) := by
  intro a b hab
  cases a <;> cases b
  · exact absurd rfl hab
  · constructor <;> simp [ownFile]
  · constructor <;> simp [ownFile]
  · exact absurd rfl hab

def seededBefore : List Call := [.ns (.seed "/a".toList 5 zeros)]

def twoClients : List (Bool × Call) :=
  [(true, .fileOpen 0 "/a".toList O_RDONLY 0), (false, .fileOpen 1 "/b".toList O_WRONLY 0o644),
   (true, .io 0 .fstat), (false, .io 1 (.write 0 7)), (true, .fileClose 0),
   (true, .fileOpen 0 "/a".toList (O_WRONLY ||| O_TRUNC) 0o644), (true, .io 0 (.write 0 5)),
   (false, .fileClose 1), (true, .fileClose 0), (true, .stat "/a".toList)]

theorem clients_isolated_two :
    List.Forall₂ (Reply.Alike (World.machine.exec {} seededBefore).fs.inodes)
      ((World.clients Bool).observed (fun x => x.1 = true) (World.machine.exec {} seededBefore)
        twoClients)
      ((World.clients Bool).outputs (World.machine.exec {} seededBefore)
        (twoClients.filter fun x => x.1 = true)) := by
  have hallows : ∀ x ∈ twoClients, (ownFile x.1).Allows x.2 := by
    simp [twoClients, ownFile, Territory.Allows, IoCall.Inside]
  exact (clients_isolated ownFile ownFile_apart seededBefore (fun _ => rfl) twoClients hallows
    (by decide) true).1

end XrdBlackhole
