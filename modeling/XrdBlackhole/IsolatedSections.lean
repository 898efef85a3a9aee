import XrdBlackhole.Isolation
import XrdBlackhole.Sections

/-!
# Sections of clients with files of their own

What `Isolation` says about whole calls holds for the steps of a call as well: a step of
the client does the same in both worlds, and a step of another one is not seen. A thread
between two steps holds on to handles, paths and buffers of its own.
-/

namespace XrdBlackhole

namespace Progress

def Within (t : Territory) : Progress → Prop
  | .seeding path specs => ∀ spec ∈ specs, path ++ spec.1 ∈ t.paths
  | .opened h _ _ | .found h _ _ | .loaded h _ | .sized h _ | .recorded h | .released h =>
    h ∈ t.handles
  | .acting h acts _ => h ∈ t.handles ∧ ∀ a ∉ t.addrs, ∀ act ∈ acts, ¬ act.StoresAt a
  | .looked _ | .returned _ => True

def Named (t : Territory) (w : World) : Progress → Prop
  | .opened h _ _ | .loaded h _ | .sized h _ | .recorded h =>
    (w.file h).path ∈ t.paths ↔ h ∈ t.handles
  | _ => True

def Foreign (ρ : Pairing) (next : ℕ) : Progress → Prop
  | .looked stub => stub < next ∧ ∀ j, ¬ ρ stub j
  | _ => True

def Alike (old : Set Word) (ρ : Pairing) : Progress → Progress → Prop
  | .acting h acts r, q => ∃ r', q = .acting h acts r' ∧ r.Alike old r'
  | .looked i, q => ∃ j, q = .looked j ∧ ρ i j
  | .returned r, q => ∃ r', q = .returned r' ∧ r.Alike old r'
  | p, q => q = p

def descriptors : Progress → ℕ
  | .seeding _ specs => specs.length
  | _ => 0

theorem Foreign.mono {ρ ρ' : Pairing} {next next' : ℕ} {p : Progress} (h : p.Foreign ρ next)
    (hext : Extends ρ ρ' next) (hle : next ≤ next') : p.Foreign ρ' next' := by
  cases p with
  | looked stub =>
    refine ⟨h.1.trans_le hle, fun j hj => ?_⟩
    rcases hext.fresh stub j hj with hold | hnew
    · exact h.2 j hold
    · exact absurd h.1 (not_lt.mpr hnew)
  | _ => trivial

section
variable {old : Set Word} {ρ ρ' : Pairing} {p q : Progress}

theorem Alike.mono (h : p.Alike old ρ q) (hsub : ∀ i j, ρ i j → ρ' i j) : p.Alike old ρ' q := by
  cases p with
  | looked stub =>
    obtain ⟨j, rfl, hj⟩ := h
    exact ⟨j, rfl, hsub _ _ hj⟩
  | _ => exact h

theorem Alike.result (h : p.Alike old ρ q) :
    Option.Rel (Reply.Alike old) p.result q.result := by
  cases p with
  | acting g acts r =>
    obtain ⟨r', rfl, -⟩ := h
    exact .none
  | looked stub =>
    obtain ⟨j, rfl, -⟩ := h
    exact .none
  | returned r =>
    obtain ⟨r', rfl, hr⟩ := h
    exact .some hr
  | _ =>
    cases h
    exact .none

end

end Progress

theorem OssFile.act_session (f : OssFile) (a : IoAct) : SameSession f (a.file f) := by
  cases a <;> exact ⟨rfl, rfl, rfl, rfl⟩

namespace OssFile.Alike
variable {ρ : Pairing} {f g : OssFile}

theorem setStub (h : f.Alike ρ g) {x y : Option ℕ} (hxy : Paired ρ x y) :
    ({ f with stub := x } : OssFile).Alike ρ { g with stub := y } := by
  refine ⟨hxy, h.view, ?_⟩
  dsimp only
  rw [h.same]

theorem cache {old : Set Word} (h : f.Alike ρ g) {fs gs : BlackholeFS}
    (hstubs : ∀ i j, ρ i j → (fs.stubs.get i).Alike old (gs.stubs.get j)) (path : Str)
    (flags : CInt) : (f.cache fs path flags).Alike ρ (g.cache gs path flags) := by
  refine ⟨h.stub, ?_, ?_⟩
  · rcases h.stub with ⟨hf, hg⟩ | ⟨i, j, hf, hg, hij⟩
    · simp only [OssFile.cache, hf, hg]
      exact ⟨rfl, fun _ => rfl⟩
    · simp only [OssFile.cache, hf, hg]
      exact (hstubs i j hij).view
  · simp only [OssFile.cache, h.path]

end OssFile.Alike

namespace Mirrors
variable {old : Set Word} {t u : Territory} {ρ : Pairing} {w v : World} {g : ℕ}

theorem seedDefault (h : Mirrors old t ρ w v) {n m : ℕ} (hw : w.fs.Room old (n + 1))
    (hv : v.fs.Room old (m + 1)) {path : Str} {spec : Str × Word}
    (hp : path ++ spec.1 ∈ t.paths) : ∃ ρ', Extends ρ ρ' w.fs.stubs.next ∧
      Mirrors old t ρ' (w.seedDefault path spec) (v.seedDefault path spec) := by
  have hzeros : zeros ≠ random := by decide
  obtain ⟨ρ', hext, hshares⟩ := h.shares.seed h.sound.fs hw hv hp spec.2 hzeros
  exact ⟨ρ', hext, h.withFs (h.sound.fs.seed _ _ _) (Nat.le_succ _) hext hshares⟩

theorem fetchStub (h : Mirrors old t ρ w v) (hg : g ∈ t.handles) (hp : (w.file g).path ∈ t.paths) :
    Mirrors old t ρ (w.fetchStub g) (v.fetchStub g) := by
  have hbound := h.shares.bound _ hp
  apply h.setFile hg
  · refine (h.file g hg).setStub ?_
    rw [(h.file g hg).path]
    exact hbound
  · exact fun i hi => h.sound.fs.bound hi
  · exact fun _ => hp

theorem cacheStub (h : Mirrors old t ρ w v) (hg : g ∈ t.handles) (path : Str) (flags : CInt) :
    Mirrors old t ρ (w.cacheStub g path flags) (v.cacheStub g path flags) := by
  apply h.setFile hg
  · exact (h.file g hg).cache (fun i j hij => h.shares.twins.alike hij) path flags
  · exact fun i hi => h.sound.held hi
  · exact fun hstub => (h.path g hstub).mpr hg

theorem storeSize (h : Mirrors old t ρ w v) (hg : g ∈ t.handles) (wb : Word) :
    Mirrors old t ρ (w.storeSize g wb) (v.storeSize g wb) := by
  rcases (h.file g hg).stub with ⟨hf, hf'⟩ | ⟨i, j, hf, hf', hij⟩
  · simp only [World.storeSize, hf, hf']
    exact h
  · simp only [World.storeSize, hf, hf']
    have htouch := h.shares.touch hij (.storeSize wb) w.fs.fdLast v.fs.fdLast
    exact h.withFs (h.sound.fs.of_sub le_rfl fun _ _ => id) le_rfl (.refl ρ _) htouch

theorem recordTransfer (h : Mirrors old t ρ w v) (hg : g ∈ t.handles) (wb : Word) :
    Mirrors old t ρ (w.recordTransfer g wb) (v.recordTransfer g wb) := by
  have hmgr := h.withMgr (w.mgr.recordTransfer ((w.file g).transferStats wb))
    (v.mgr.recordTransfer ((v.file g).transferStats wb))
  apply hmgr.setFile hg
  · exact (h.file g hg).update (k := fun f => { f with stats := f.transferStats wb })
      (fun _ _ _ => rfl) rfl rfl
  · exact fun i hi => h.sound.held hi
  · exact fun hstub => (h.path g hstub).mpr hg

theorem release (h : Mirrors old t ρ w v) (hg : g ∈ t.handles) (hp : (w.file g).path ∈ t.paths) :
    Mirrors old t ρ (w.release g) (v.release g) := by
  rw [World.release, World.release, (h.file g hg).path]
  exact h.withFs (h.sound.fs.close _) (by simp) (.refl ρ _) (h.shares.fsClose hp)

theorem resetStub (h : Mirrors old t ρ w v) (hg : g ∈ t.handles) :
    Mirrors old t ρ (w.resetStub g) (v.resetStub g) := by
  apply h.setFile hg
  · exact (h.file g hg).setStub (.inl ⟨rfl, rfl⟩)
  · exact fun i hi => absurd hi nofun
  · exact fun hstub => absurd rfl hstub

theorem act (h : Mirrors old t ρ w v) (hg : g ∈ t.handles) (a : IoAct) :
    Mirrors old t ρ (w.act g a) (v.act g a) := by
  have hmem : ∀ addr ∈ t.addrs, a.mem v.mem addr = a.mem w.mem addr :=
    fun addr ha => IoAct.mem_congr (h.mem addr ha) a
  have hsame := (w.file g).act_session a
  apply (h.withMem hmem).setFile hg
  · exact (h.file g hg).act a
  · exact fun i hi => h.sound.held (hsame.stub ▸ hi)
  · intro hstub
    rw [IoAct.apply] at hstub ⊢
    rw [hsame.path]
    exact (h.path g (hsame.stub ▸ hstub)).mpr hg

theorem openPath (h : Mirrors old t ρ w v) (hw : w.fs.Room old 1) (hv : v.fs.Room old 1)
    (hg : g ∈ t.handles) {path : Str} (hp : path ∈ t.paths) (flags mode : CInt) :
    ∃ ρ', Extends ρ ρ' w.fs.stubs.next ∧
      Mirrors old t ρ' (w.enter (.fileOpen g path flags mode)).1
        (v.enter (.fileOpen g path flags mode)).1 := by
  obtain ⟨ρ', hext, hshares⟩ := h.shares.open h.sound.fs hw hv hp flags mode
  have hle := w.fs.open_next_le path flags mode
  refine ⟨ρ', hext, ?_⟩
  apply (h.withFs (h.sound.fs.open path flags mode) hle hext hshares).setFile hg
  · exact ((h.file g hg).mono hext.keeps).update (k := fun f => { f with path := path })
      (fun _ _ _ => rfl) rfl rfl
  · exact fun i hi => (h.sound.held hi).trans_le hle
  · exact fun _ => hp

theorem open_progress (h : Mirrors old t ρ w v) (hw : w.fs.Room old 1) (hv : v.fs.Room old 1)
    {path : Str} (hp : path ∈ t.paths) (flags mode : CInt) :
    (v.enter (.fileOpen g path flags mode)).2 = (w.enter (.fileOpen g path flags mode)).2 := by
  have href := h.shares.refused_iff hp flags
  by_cases hr : w.fs.Refused path flags
  · have hrc := BlackholeFS.open_of_refused hr mode
    have hrc' := BlackholeFS.open_of_refused (href.mpr hr) mode
    simp only [World.enter, hrc, hrc']
  · have hrc := (hw.counterFits.open_rc hr mode).1
    have hr' := fun hr' => hr (href.mp hr')
    have hrc' := (hv.counterFits.open_rc hr' mode).1
    simp only [World.enter]
    rw [if_neg (by omega), if_neg (by omega)]

theorem seedDefault_other (h : Mirrors old t ρ w v) {path : Str} {spec : Str × Word}
    (hp : path ++ spec.1 ∉ t.paths) : Mirrors old t ρ (w.seedDefault path spec) v :=
  h.withFs (h.sound.fs.seed _ _ _) (Nat.le_succ _) (.refl ρ _) (h.shares.seed_other hp spec.2 zeros)

theorem fetchStub_other (h : Mirrors old t ρ w v) (hg : g ∉ t.handles)
    (hp : (w.file g).path ∉ t.paths) : Mirrors old t ρ (w.fetchStub g) v := by
  apply h.setFile_other hg
  · exact fun i hi => ⟨h.sound.fs.bound hi, h.shares.other _ hp i hi⟩
  · exact fun _ => hp

theorem storeSize_other (h : Mirrors old t ρ w v) (hg : g ∉ t.handles) (wb : Word) :
    Mirrors old t ρ (w.storeSize g wb) v := by
  cases hf : (w.file g).stub with
  | none => simpa only [World.storeSize, hf] using h
  | some i =>
    simp only [World.storeSize, hf]
    have htouch := h.shares.touch_other (h.other g hg i hf) (fun s =>
      if s.isOpenWrite then { s with size := wb, stat := { s.stat with size := wb } } else s)
      w.fs.fdLast
    exact h.withFs (h.sound.fs.of_sub le_rfl fun _ _ => id) le_rfl (.refl ρ _) htouch

theorem recordTransfer_other (h : Mirrors old t ρ w v) (hg : g ∉ t.handles) (wb : Word) :
    Mirrors old t ρ (w.recordTransfer g wb) v :=
  (h.withMgr (w.mgr.recordTransfer ((w.file g).transferStats wb)) v.mgr).setFile_same hg
    (.inr rfl) rfl

theorem release_other (h : Mirrors old t ρ w v) (hp : (w.file g).path ∉ t.paths) :
    Mirrors old t ρ (w.release g) v :=
  h.withFs (h.sound.fs.close _) (by simp) (.refl ρ _) (h.shares.fsClose_other hp)

theorem act_other (h : Mirrors old t ρ w v) (hg : g ∉ t.handles) {a : IoAct}
    (ha : ∀ addr ∈ t.addrs, ¬ a.StoresAt addr) : Mirrors old t ρ (w.act g a) v := by
  have hmem : ∀ addr ∈ t.addrs, v.mem addr = a.mem w.mem addr := fun addr haddr =>
    (h.mem addr haddr).trans (IoAct.mem_of_not_storesAt (ha addr haddr) w.mem).symm
  have hsame := (w.file g).act_session a
  exact (h.withMem hmem).setFile_same hg (.inr hsame.stub) hsame.path

theorem openPath_other (h : Mirrors old t ρ w v) (hg : g ∉ t.handles) {path : Str}
    (hp : path ∉ t.paths) (flags mode : CInt) :
    Mirrors old t ρ (w.enter (.fileOpen g path flags mode)).1 v := by
  have hle := w.fs.open_next_le path flags mode
  have hfs := h.withFs (h.sound.fs.open path flags mode) hle (.refl ρ _)
    (h.shares.open_other hp flags mode)
  apply hfs.setFile_other hg
  · exact fun i hi => ⟨(h.sound.held hi).trans_le hle, h.other g hg i hi⟩
  · exact fun _ => hp

theorem enter (h : Mirrors old t ρ w v) {c : Call} (hc : t.Allows c)
    (hw : w.fs.Room old c.descriptors) (hv : v.fs.Room old c.descriptors) :
    ∃ ρ', Extends ρ ρ' w.fs.stubs.next ∧ Mirrors old t ρ' (w.enter c).1 (v.enter c).1 ∧
      (w.enter c).2.Alike old ρ' (v.enter c).2 := by
  have hns : ∀ c, t.Allows (.ns c) → w.fs.Room old (Call.ns c).descriptors →
      v.fs.Room old (Call.ns c).descriptors → ∃ ρ', Extends ρ ρ' w.fs.stubs.next ∧
      Mirrors old t ρ' { w with fs := (w.fs.ns c).2 } { v with fs := (v.fs.ns c).2 } ∧
      (Progress.returned ⟨(w.fs.ns c).1, 0, {}⟩).Alike old ρ'
        (.returned ⟨(v.fs.ns c).1, 0, {}⟩) := by
    intro c hc hw hv
    obtain ⟨hrc, ρ', hext, hshares⟩ := h.shares.ns h.sound.fs rfl hc hw hv
    rw [hrc]
    exact ⟨ρ', hext, h.withFs (h.sound.fs.ns c) (w.fs.ns_next_le c) hext hshares, _, rfl, .refl _⟩
  cases c with
  | ns c =>
    cases c with
    | createDefaults path => exact ⟨ρ, .refl ρ _, h, rfl⟩
    | seed path size readtype => exact hns _ hc hw hv
    | rename src dst => exact hns _ hc hw hv
    | unlink fname => exact hns _ hc hw hv
  | fileOpen g path flags mode =>
    obtain ⟨ρ', hext, hnext⟩ := h.openPath hw hv hc.1 hc.2 flags mode
    refine ⟨ρ', hext, hnext, ?_⟩
    rw [h.open_progress hw hv hc.2]
    simp only [World.enter]
    split_ifs
    · exact ⟨_, rfl, .refl _⟩
    · rfl
  | fileClose g =>
    refine ⟨ρ, .refl ρ _, h, ?_⟩
    have hfile := h.file g hc
    rcases hfile.stub with ⟨hf, hf'⟩ | ⟨i, j, hf, hf', -⟩
    · simp only [World.enter, hf, hf']
      exact ⟨_, rfl, .refl _⟩
    · simp only [World.enter, hf, hf', hfile.written]
      rfl
  | io g c =>
    have hfile := h.file g hc.1
    refine ⟨ρ, .refl ρ _, h, _, ?_, hfile.reply (fun i j => h.shares.twins.alike) w.mem v.mem c⟩
    simp only [World.enter, hfile.acts]
  | stat path =>
    refine ⟨ρ, .refl ρ _, h, ?_⟩
    rcases h.shares.bound path hc with ⟨hf, hg⟩ | ⟨i, j, hf, hg, hij⟩
    · simp only [World.enter, BlackholeFS.getStub, hf, hg]
      exact ⟨_, rfl, .refl _⟩
    · simp only [World.enter, BlackholeFS.getStub, hf, hg]
      exact ⟨j, rfl, hij⟩

theorem advance (h : Mirrors old t ρ w v) {p q : Progress} (hp : p.Within t) (hnamed : p.Named t w)
    (hpq : p.Alike old ρ q) (hw : w.fs.Room old p.descriptors)
    (hv : v.fs.Room old q.descriptors) :
    ∃ ρ', Extends ρ ρ' w.fs.stubs.next ∧ Mirrors old t ρ' (w.advance p).1 (v.advance q).1 ∧
      (w.advance p).2.Alike old ρ' (v.advance q).2 := by
  have hok : World.ok.Alike old ρ World.ok := ⟨_, rfl, .refl _⟩
  cases p with
  | seeding path specs =>
    obtain rfl := hpq
    cases specs with
    | nil => exact ⟨ρ, .refl ρ _, h, _, rfl, .refl _⟩
    | cons spec specs =>
      obtain ⟨ρ', hext, hnext⟩ := h.seedDefault hw hv (hp spec List.mem_cons_self)
      exact ⟨ρ', hext, hnext, rfl⟩
  | opened g path flags =>
    obtain rfl := hpq
    exact ⟨ρ, .refl ρ _, h.fetchStub hp (hnamed.mpr hp), rfl⟩
  | found g path flags =>
    obtain rfl := hpq
    exact ⟨ρ, .refl ρ _, h.cacheStub hp path flags, hok⟩
  | loaded g wb =>
    obtain rfl := hpq
    exact ⟨ρ, .refl ρ _, h.storeSize hp wb, rfl⟩
  | sized g wb =>
    obtain rfl := hpq
    exact ⟨ρ, .refl ρ _, h.recordTransfer hp wb, rfl⟩
  | recorded g =>
    obtain rfl := hpq
    exact ⟨ρ, .refl ρ _, h.release hp (hnamed.mpr hp), rfl⟩
  | released g =>
    obtain rfl := hpq
    exact ⟨ρ, .refl ρ _, h.resetStub hp, hok⟩
  | acting g acts r =>
    obtain ⟨r', rfl, hr⟩ := hpq
    cases acts with
    | nil => exact ⟨ρ, .refl ρ _, h, r', rfl, hr⟩
    | cons a acts => exact ⟨ρ, .refl ρ _, h.act hp.1 a, r', rfl, hr⟩
  | looked i =>
    obtain ⟨j, rfl, hij⟩ := hpq
    exact ⟨ρ, .refl ρ _, h, _, rfl, (h.shares.twins.alike hij).reply 0⟩
  | returned r =>
    obtain ⟨r', rfl, hr⟩ := hpq
    exact ⟨ρ, .refl ρ _, h, r', rfl, hr⟩

theorem enter_other (h : Mirrors old t ρ w v) (hu : t.Apart u) {c : Call} (hc : u.Allows c) :
    Mirrors old t ρ (w.enter c).1 v ∧ (w.enter c).2.Foreign ρ (w.enter c).1.fs.stubs.next := by
  have hns : ∀ c, u.Allows (.ns c) → Mirrors old t ρ { w with fs := (w.fs.ns c).2 } v := by
    intro c hc
    exact h.withFs (h.sound.fs.ns c) (w.fs.ns_next_le c) (.refl ρ _) (h.shares.ns_other hu.paths hc)
  cases c with
  | ns c =>
    cases c with
    | createDefaults path => exact ⟨h, trivial⟩
    | seed path size readtype => exact ⟨hns _ hc, trivial⟩
    | rename src dst => exact ⟨hns _ hc, trivial⟩
    | unlink fname => exact ⟨hns _ hc, trivial⟩
  | fileOpen g path flags mode =>
    refine ⟨h.openPath_other (hu.handles g hc.1) (hu.paths path hc.2) flags mode, ?_⟩
    simp only [World.enter]
    split_ifs <;> trivial
  | fileClose g =>
    refine ⟨h, ?_⟩
    cases hf : (w.file g).stub <;> simp only [World.enter, hf] <;> trivial
  | io g c => exact ⟨h, trivial⟩
  | stat path =>
    refine ⟨h, ?_⟩
    cases hf : w.fs.files[path]? with
    | none =>
      simp only [World.enter, BlackholeFS.getStub, hf]
      trivial
    | some i =>
      simp only [World.enter, BlackholeFS.getStub, hf]
      exact ⟨h.sound.fs.bound hf, h.shares.other path (hu.paths path hc) i hf⟩

theorem advance_other (h : Mirrors old t ρ w v) (hu : t.Apart u) {p : Progress} (hp : p.Within u)
    (hnamed : p.Named t w) :
    Mirrors old t ρ (w.advance p).1 v ∧
      (w.advance p).2.Foreign ρ (w.advance p).1.fs.stubs.next := by
  cases p with
  | seeding path specs =>
    cases specs with
    | nil => exact ⟨h, trivial⟩
    | cons spec specs =>
      exact ⟨h.seedDefault_other (hu.paths _ (hp spec List.mem_cons_self)), trivial⟩
  | opened g path flags =>
    have hg := hu.handles g hp
    exact ⟨h.fetchStub_other hg fun hpath => hg (hnamed.mp hpath), trivial⟩
  | found g path flags => exact ⟨h.setFile_same (hu.handles g hp) (.inr rfl) rfl, trivial⟩
  | loaded g wb => exact ⟨h.storeSize_other (hu.handles g hp) wb, trivial⟩
  | sized g wb => exact ⟨h.recordTransfer_other (hu.handles g hp) wb, trivial⟩
  | recorded g =>
    have hg := hu.handles g hp
    exact ⟨h.release_other fun hpath => hg (hnamed.mp hpath), trivial⟩
  | released g => exact ⟨h.setFile_same (hu.handles g hp) (.inl rfl) rfl, trivial⟩
  | acting g acts r =>
    cases acts with
    | nil => exact ⟨h, trivial⟩
    | cons a acts =>
      exact ⟨h.act_other (hu.handles g hp.1) fun addr haddr hstore =>
        hp.2 addr (fun hmem => hu.addrs addr hmem haddr) a List.mem_cons_self hstore, trivial⟩
  | looked i => exact ⟨h, trivial⟩
  | returned r => exact ⟨h, trivial⟩

end Mirrors

end XrdBlackhole
