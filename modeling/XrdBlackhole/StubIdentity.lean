import XrdBlackhole.Namespace

/-!
# The identity of stubs

The inode of a stub is the descriptor counter at its creation, and the counter
never returns to an earlier value before it wraps. So no two stubs which were ever
created share an inode, and no stub looks offline.
-/

namespace XrdBlackhole

namespace BlackholeFS

def increments (fs : BlackholeFS) : FsCall → ℕ
  | .ns (.seed _ _ _) => 1
  | .ns (.createDefaults _) => 3
  | .fsOpen fname flags _ => if fs.Refused fname flags then 0 else 1
  | _ => 0

structure Identified (fs : BlackholeFS) : Prop where
  sound : fs.Sound
  dev {i : ℕ} : i < fs.stubs.next → (fs.stubs.get i).stat.dev = 1
  pos {i : ℕ} : i < fs.stubs.next → 1 ≤ (fs.stubs.get i).stat.ino.toNat
  le {i : ℕ} : i < fs.stubs.next → (fs.stubs.get i).stat.ino.toNat ≤ fs.fdLast.toNat
  inj {i j : ℕ} : i < fs.stubs.next → j < fs.stubs.next →
    (fs.stubs.get i).stat.ino = (fs.stubs.get j).stat.ino → i = j

namespace Identified
variable {fs fs' : BlackholeFS}

theorem init : ({} : BlackholeFS).Identified := by
  refine ⟨.init, ?_, ?_, ?_, ?_⟩ <;> intro i <;> intros <;> contradiction

theorem of_same (h : fs.Identified) (hsound : fs'.Sound) (hnext : fs'.stubs.next = fs.stubs.next)
    (hstat : ∀ i, (fs'.stubs.get i).stat = (fs.stubs.get i).stat)
    (hfd : fs.fdLast.toNat ≤ fs'.fdLast.toNat) : fs'.Identified := by
  refine ⟨hsound, ?_, ?_, ?_, ?_⟩ <;> simp only [hnext, hstat]
  · exact h.dev
  · exact h.pos
  · exact fun hi => (h.le hi).trans hfd
  · exact h.inj

theorem of_ids (h : fs.Identified) (hsound : fs'.Sound)
    (hnext : fs'.stubs.next = fs.stubs.next)
    (hids : ∀ i, (fs'.stubs.get i).stat.dev = (fs.stubs.get i).stat.dev ∧
      (fs'.stubs.get i).stat.ino = (fs.stubs.get i).stat.ino)
    (hfd : fs'.fdLast = fs.fdLast) : fs'.Identified := by
  refine ⟨hsound, fun hi => ?_, fun hi => ?_, fun hi => ?_, fun hi hj hij => ?_⟩
  · exact (hids _).1.trans (h.dev (hnext ▸ hi))
  · exact (hids _).2 ▸ h.pos (hnext ▸ hi)
  · rw [(hids _).2, hfd]
    exact h.le (hnext ▸ hi)
  · rw [(hids _).2, (hids _).2] at hij
    exact h.inj (hnext ▸ hi) (hnext ▸ hj) hij

theorem of_alloc (h : fs.Identified) (hsound : fs'.Sound) {s : Stub}
    (hstubs : fs'.stubs = fs.stubs.alloc s) (hdev : s.stat.dev = 1)
    (hino : s.stat.ino.toNat = fs.fdLast.toNat + 1)
    (hfd : fs'.fdLast.toNat = fs.fdLast.toNat + 1) : fs'.Identified := by
  have hcases : ∀ i, i < fs'.stubs.next →
      i < fs.stubs.next ∧ fs'.stubs.get i = fs.stubs.get i ∨
        i = fs.stubs.next ∧ fs'.stubs.get i = s := by
    intro i hi
    rw [hstubs] at hi ⊢
    rcases Nat.lt_succ_iff_lt_or_eq.mp hi with hlt | rfl
    · exact .inl ⟨hlt, fs.stubs.alloc_get_of_lt s hlt⟩
    · exact .inr ⟨rfl, fs.stubs.alloc_get_next s⟩
  refine ⟨hsound, fun {i} hi => ?_, fun {i} hi => ?_, fun {i} hi => ?_, fun {i j} hi hj heq => ?_⟩
  · rcases hcases i hi with ⟨hlt, hget⟩ | ⟨_, hget⟩ <;> rw [hget]
    · exact h.dev hlt
    · exact hdev
  · rcases hcases i hi with ⟨hlt, hget⟩ | ⟨_, hget⟩ <;> rw [hget]
    · exact h.pos hlt
    · omega
  · rcases hcases i hi with ⟨hlt, hget⟩ | ⟨_, hget⟩ <;> rw [hget, hfd]
    · exact (h.le hlt).trans (Nat.le_succ _)
    · exact hino.le
  · rcases hcases i hi with ⟨hlt, hget⟩ | ⟨hnew, hget⟩ <;>
      rcases hcases j hj with ⟨hlt', hget'⟩ | ⟨hnew', hget'⟩ <;> rw [hget, hget'] at heq
    · exact h.inj hlt hlt' heq
    · have hle := h.le hlt
      rw [heq, hino] at hle
      omega
    · have hle := h.le hlt'
      rw [← heq, hino] at hle
      omega
    · rw [hnew, hnew']

theorem seed (h : fs.Identified) (hfits : fs.fdLast.toNat + 1 < 2 ^ 64) (path : Str) (size : Word)
    (readtype : Str) :
    (fs.seed path size readtype).Identified ∧
      (fs.seed path size readtype).fdLast.toNat = fs.fdLast.toNat + 1 := by
  have hfd : (fs.fdLast + 1).toNat = fs.fdLast.toNat + 1 := toNat_add_of_lt (k := 1) hfits
  exact ⟨h.of_alloc (h.sound.seed path size readtype) rfl rfl hfd hfd, hfd⟩

theorem createDefaults (h : fs.Identified) (hfits : fs.fdLast.toNat + 3 < 2 ^ 64) (path : Str) :
    (fs.createDefaults path).Identified ∧
      (fs.createDefaults path).fdLast.toNat = fs.fdLast.toNat + 3 := by
  obtain ⟨h₁, hfd₁⟩ := h.seed (by omega) (path ++ "/testfile_zeros_1MiB".toList)
    (1 * 1024 * 1024) zeros
  obtain ⟨h₂, hfd₂⟩ := h₁.seed (by omega) (path ++ "/testfile_zeros_1GiB".toList)
    (1 * 1024 * 1024 * 1024) zeros
  obtain ⟨h₃, hfd₃⟩ := h₂.seed (by omega) (path ++ "/testfile_zeros_10GiB".toList)
    (10 * 1024 * 1024 * 1024) zeros
  exact ⟨h₃, hfd₃.trans (by omega)⟩

theorem «open» (h : fs.Identified) {fname : Str} {flags : CInt} (mode : CInt)
    (hfits : fs.fdLast.toNat + (if fs.Refused fname flags then 0 else 1) < 2 ^ 64) :
    (fs.open fname flags mode).2.Identified ∧
      (fs.open fname flags mode).2.fdLast.toNat =
        fs.fdLast.toNat + if fs.Refused fname flags then 0 else 1 := by
  by_cases href : fs.Refused fname flags
  · rw [open_of_refused href, if_pos href]
    exact ⟨h, rfl⟩
  · rw [if_neg href] at hfits ⊢
    have hino : (fs.fdLast + 1).toNat = fs.fdLast.toNat + 1 := toNat_add_of_lt (k := 1) hfits
    have hfd : (fs.open fname flags mode).2.fdLast.toNat = fs.fdLast.toNat + 1 := by
      rw [(open_of_not_refused href mode).2, hino]
    refine ⟨?_, hfd⟩
    have hsound := h.sound.open fname flags mode
    rcases fs.open_get fname flags mode with ⟨hsame, hnext⟩ | ⟨_, hstubs⟩
    · exact h.of_same hsound hnext (fun i => (hsame i).stat) (by omega)
    · exact h.of_alloc hsound hstubs rfl hino hfd

theorem close (h : fs.Identified) (fname : Str) : (fs.close fname).Identified := by
  refine h.of_same (h.sound.close fname) (by simp) (fun i => ?_) (by simp)
  rw [close_get]
  split_ifs <;> rfl

theorem call (h : fs.Identified) (c : FsCall)
    (hfits : fs.fdLast.toNat + fs.increments c < 2 ^ 64) :
    (fs.call c).2.Identified ∧ (fs.call c).2.fdLast.toNat = fs.fdLast.toNat + fs.increments c := by
  cases c with
  | ns c =>
    cases c with
    | seed path size readtype => exact h.seed hfits path size readtype
    | createDefaults path => exact h.createDefaults hfits path
    | rename src dst =>
      exact ⟨h.of_same (h.sound.rename src dst) (by simp [BlackholeFS.call, BlackholeFS.ns])
        (by simp [BlackholeFS.call, BlackholeFS.ns]) (by simp [BlackholeFS.call, BlackholeFS.ns]),
        by simp [BlackholeFS.call, BlackholeFS.ns, increments]⟩
    | unlink fname =>
      exact ⟨h.of_same (h.sound.unlink fname) (by simp [BlackholeFS.call, BlackholeFS.ns])
        (by simp [BlackholeFS.call, BlackholeFS.ns]) (by simp [BlackholeFS.call, BlackholeFS.ns]),
        by simp [BlackholeFS.call, BlackholeFS.ns, increments]⟩
  | fsOpen fname flags mode => exact h.open mode hfits
  | fsClose fname => exact ⟨h.close fname, by simp [BlackholeFS.call, increments]⟩

end Identified

/-- In every run whose increments fit the counter, all stubs which were ever created
have their own inode between 1 and the counter, device 1 and at most one path. -/
theorem stub_identity (cs : List FsCall) (hfits : machine.total increments {} cs < 2 ^ 64) :
    (machine.exec {} cs).Identified := by
  apply Machine.exec_invariant_of_total (M := machine) (fun fs => fs.fdLast.toNat)
    (fun fs c hfs hc => hfs.call c hc) .init
  simpa using hfits

def renamedOnto : List FsCall :=
  [.fsOpen "/a".toList O_WRONLY 0, .fsOpen "/b".toList O_WRONLY 0,
   .ns (.rename "/a".toList "/b".toList), .ns (.rename "/b".toList "/b".toList),
   .fsOpen "/b".toList (O_WRONLY ||| O_TRUNC) 0, .ns (.createDefaults "/d".toList)]

theorem stub_identity_renamed_onto : (machine.exec {} renamedOnto).Identified :=
  stub_identity renamedOnto (by decide)

end BlackholeFS

end XrdBlackhole
