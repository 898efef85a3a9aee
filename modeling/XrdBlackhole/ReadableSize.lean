import XrdBlackhole.SequentialRead
import XrdBlackhole.StubStep
import XrdBlackhole.Writers

/-!
# The advertised size and the readable size

A stub keeps its size twice, unsigned for the readers and signed for `Stat`, and
every handle caches it. The two copies agree in every run whose sizes fit the
signed one, so a reader gets as many bytes as `Stat` advertises.
-/

namespace XrdBlackhole

def SizesBelow (s : World × Past) : Call → Prop
  | .ns (.seed _ size _) => size.toNat < 2 ^ 63
  | .fileClose h => accepted h s.2 < 2 ^ 63
  | _ => True

structure Stub.SizeAgrees (s : Stub) : Prop where
  stat : s.stat.size = s.size
  lt : s.size.toNat < 2 ^ 63

def BlackholeFS.SizesAgree (fs : BlackholeFS) : Prop := ∀ i, (fs.stubs.get i).SizeAgrees

theorem Stub.SizeAgrees.of_same {s s' : Stub} (h : s.SizeAgrees) (hsame : s.SameFile s') :
    s'.SizeAgrees := by
  refine ⟨?_, ?_⟩
  · rw [hsame.stat, hsame.size]
    exact h.stat
  · rw [hsame.size]
    exact h.lt

theorem BlackholeFS.SizesAgree.init : ({} : BlackholeFS).SizesAgree :=
  fun _ => ⟨rfl, Nat.two_pow_pos 63⟩

theorem BlackholeFS.specs_lt : ∀ spec ∈ BlackholeFS.specs, spec.2.toNat < 2 ^ 63 := by decide

namespace World

theorem sizesAgree_step {w : World} {past : Past} (hcounts : Counts w past)
    (hw : w.fs.SizesAgree) {c : Call} (hc : SizesBelow (w, past) c) :
    (w.step c).1.fs.SizesAgree := by
  intro i
  have hstep := w.step_stub c i
  generalize (w.step c).1.fs.stubs.get i = s' at hstep
  cases hstep with
  | same hsame => exact (hw i).of_same hsame
  | seeded path size readtype ino => exact ⟨rfl, hc⟩
  | default path spec ino hspec => exact ⟨rfl, BlackholeFS.specs_lt spec hspec⟩
  | created h path flags mode ino => exact ⟨rfl, Nat.two_pow_pos 63⟩
  | stored h hsame =>
    refine Stub.SizeAgrees.of_same ⟨rfl, ?_⟩ hsame
    have hlt : accepted h past < 2 ^ 63 := hc
    rw [Stub.stored, (hcounts h).written, toNat_ofNat_of_lt hlt]
    exact hlt

theorem sizesAgree_exec {cs : List Call}
    (hcs : World.machine.logged.EveryStep SizesBelow ({}, []) cs) :
    (World.machine.logged.exec ({}, []) cs).1.fs.SizesAgree := by
  have hinv := Machine.exec_invariant_of (M := World.machine.logged)
    (I := fun s => Counts s.1 s.2 ∧ s.1.fs.SizesAgree)
    (fun _ c hs hc => ⟨hs.1.step c, sizesAgree_step hs.1 hs.2 hc⟩)
    ⟨.init, BlackholeFS.SizesAgree.init⟩ hcs
  exact hinv.2

end World

section
variable {s : World × Past} {r : ℕ} {p : Str} {flags mode : CInt}

theorem Reader.opened (hread : readOnly flags)
    (hok : (s.1.step (.fileOpen r p flags mode)).2.rc = XrdOssOK) :
    ∃ i, s.1.fs.files[p]? = some i ∧
      ((World.machine.logged.next s (.fileOpen r p flags mode)).1.file r).toReadView =
        (s.1.fs.stubs.get i).view ∧
      Reader r (s.1.fs.stubs.get i).size.toNat
        (World.machine.logged.next s (.fileOpen r p flags mode)) := by
  have hrc := ((s.1.file r).open_rc_eq_ok_iff s.1.fs p flags mode).mp hok
  have haccept := BlackholeFS.not_refused_of_rc hrc
  cases hfile : s.1.fs.files[p]? with
  | none => exact absurd (.inl ⟨hread, hfile⟩) haccept
  | some i =>
    have hopen : s.1.fs.open p flags mode = s.1.fs.openRead i flags mode := by
      simp [BlackholeFS.open, hread, hfile]
    obtain ⟨j, hbound, hstub, hview⟩ := World.opened_view hok
    rw [World.step_open_fs, hopen] at hbound hview
    obtain rfl : i = j := Option.some.inj (hfile.symm.trans hbound)
    rw [OssFile.openRead_view] at hview
    have hreturned := returned_opened hok
    exact ⟨i, rfl, hview, ⟨i, hstub⟩, congrArg (fun v : ReadView => v.size.toNat) hview, by omega⟩

end

/-- In every run whose sizes fit, both copies of every size agree. A read-only
handle opened then delivers as many bytes as `Stat` has advertised, however its
reads are cut and whatever happens to other handles and paths, and then nothing. -/
theorem advertised_size_readable (cs : List Call)
    (hcs : World.machine.logged.EveryStep SizesBelow ({}, []) cs) :
    let s := World.machine.logged.exec ({}, []) cs
    (∀ i, (s.1.fs.stubs.get i).stat.size.toInt = (s.1.fs.stubs.get i).size.toNat) ∧
      ∀ (r : ℕ) (p : Str) (flags mode : CInt), readOnly flags →
        (s.1.step (.fileOpen r p flags mode)).2.rc = XrdOssOK →
        ∃ n : ℕ, (s.1.step (.stat p)).2.rc = 0 ∧ (s.1.step (.stat p)).2.buf.size.toInt = n ∧
          ∀ rs, World.machine.logged.EveryStep (SeqReadOrOther r)
              (World.machine.logged.next s (.fileOpen r p flags mode)) rs →
            let t := World.machine.logged.exec
              (World.machine.logged.next s (.fileOpen r p flags mode)) rs
            World.machine.logged.EveryStep (DeliversUpTo r n)
                (World.machine.logged.next s (.fileOpen r p flags mode)) rs ∧
              returned r t.2 = min n (requested r rs) ∧
              (n ≤ readCalls r rs → returned r t.2 = n ∧ ∀ buff blen,
                (t.1.step
                  (.io r (.read buff (BitVec.ofNat 64 (returned r t.2)) blen))).2.rc = 0) := by
  intro s
  have hagree : s.1.fs.SizesAgree := World.sizesAgree_exec hcs
  have hsigned : ∀ i, (s.1.fs.stubs.get i).stat.size.toInt = (s.1.fs.stubs.get i).size.toNat := by
    intro i
    rw [(hagree i).stat, toInt_of_lt (hagree i).lt]
  refine ⟨hsigned, fun r p flags mode hread hok => ?_⟩
  obtain ⟨i, hfile, _, hreader⟩ := Reader.opened hread hok
  have hstat : s.1.stat p = (0, (s.1.fs.stubs.get i).stat) := by
    simp only [World.stat, BlackholeFS.getStub, hfile]
  refine ⟨(s.1.fs.stubs.get i).size.toNat, ?_, ?_, fun rs hrs => ?_⟩
  · rw [World.step, hstat]
  · rw [World.step, hstat]
    exact hsigned i
  · have hn := (hagree i).lt
    obtain ⟨hdelivers, _, hend⟩ := hreader.run hn rs hrs
    rw [returned_opened hok, Nat.zero_add] at hend
    refine ⟨hdelivers, hend, fun hlong => ⟨?_, hreader.reaches_end hn hrs hlong⟩⟩
    rw [hend]
    exact min_eq_left (hlong.trans (readCalls_le_requested r rs))

def seededFile : List Call := [.ns (.seed "/f".toList 10 random)]

theorem advertised_size_readable_ten :
    let s := World.machine.logged.exec ({}, []) seededFile
    (s.1.step (.stat "/f".toList)).2.buf.size.toInt = 10 ∧
      returned 0 (World.machine.logged.exec
        (World.machine.logged.next s (.fileOpen 0 "/f".toList O_RDONLY 0))
        [.io 0 (.read 0 0 7), .io 0 (.read 0 7 7)]).2 = 10 := by
  intro s
  obtain ⟨n, _, hstat, hrun⟩ := (advertised_size_readable seededFile
    ⟨by unfold SizesBelow; decide, trivial⟩).2 0 "/f".toList O_RDONLY 0 (by decide) rfl
  have hten : (s.1.step (.stat "/f".toList)).2.buf.size.toInt = 10 := rfl
  obtain rfl : n = 10 := Int.ofNat.inj (hstat.symm.trans hten)
  refine ⟨hten, (hrun [.io 0 (.read 0 0 7), .io 0 (.read 0 7 7)] ?_).2.1⟩
  exact ⟨.inl ⟨0, 7, by decide, rfl⟩, .inl ⟨0, 7, by decide, rfl⟩, trivial⟩

end XrdBlackhole
