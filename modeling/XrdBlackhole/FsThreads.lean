import XrdBlackhole.LockedFS
import XrdBlackhole.OpenResult

/-!
# Threads over the namespace

Since each critical section alone is one whole method, every interleaving of the
sections is explained by one order of methods. So the invariants of runs and the
exactness of listings hold for threads as well.
-/

namespace XrdBlackhole

open Concurrent LockedFS

variable {τ : Type} [DecidableEq τ] {fs₀ : BlackholeFS}
  {past : List (Event τ FsMethod FsReply)} {s : Monitor.State τ BlackholeFS FsMethod FsReply}

/-- The methods look atomic to all threads: every interleaving of their accesses is
explained by one order of whole methods. No two threads are inside the mutex, and a
thread which has called can always return. -/
theorem namespace_linearizable (hrun : (threads τ).Run { shared := fs₀ } past s) :
    (∃ ops, Linearization BlackholeFS.methods fs₀ past ops ∧
        (s.owner = none → s.shared = BlackholeFS.methods.exec fs₀ (ops.map Prod.snd))) ∧
      (∀ t u p q, s.thread t = .inside p → s.thread u = .inside q → t = u) ∧
      ∀ t, s.thread t ≠ .idle → ∃ o s', (threads τ).Run s [.ret t o] s' := by
  refine ⟨Monitor.run_linearization run_method hrun, fun t u p q ht hu => ?_, fun t ht => ?_⟩
  · obtain ⟨a, htracks, -⟩ := Monitor.Tracks.run run_method hrun
    exact htracks.inside_unique ht hu
  · exact Monitor.run_returns run_method hrun ht

def watched : List (Event Bool FsMethod FsReply) :=
  [.ret false (.entries ["a".toList]), .ret true (.rc 1), .call false (.readdir "/".toList []),
   .call true (.open "/a".toList O_WRONLY 0)]

theorem watched_run : ∃ s, s.owner = none ∧ (threads Bool).Run { shared := {} } watched s := by
  obtain ⟨s, hfree, -, -, hrun⟩ := Monitor.overlap_run method {} (t := true) (u := false) nofun
    (.open "/a".toList O_WRONLY 0) (.readdir "/".toList [])
  simp only [run_method] at hrun
  exact ⟨s, hfree, hrun⟩

def creators : List (Event Bool FsMethod FsReply) :=
  [.ret false (.rc 2), .ret true (.rc 1), .call false (.open "/b".toList O_WRONLY 0),
   .call true (.open "/a".toList O_WRONLY 0)]

theorem creators_run : ∃ s, s.owner = none ∧
    s.shared = BlackholeFS.methods.exec {}
      [.open "/a".toList O_WRONLY 0, .open "/b".toList O_WRONLY 0] ∧
    (threads Bool).Run { shared := {} } creators s := by
  obtain ⟨s, hfree, -, hshared, hrun⟩ := Monitor.overlap_run method {} (t := true) (u := false)
    nofun (.open "/a".toList O_WRONLY 0) (.open "/b".toList O_WRONLY 0)
  simp only [run_method] at hshared hrun
  exact ⟨s, hfree, hshared, hrun⟩

theorem namespace_linearizable_watched :
    ∃ ops, Linearization BlackholeFS.methods {} watched ops := by
  obtain ⟨s, -, hrun⟩ := watched_run
  obtain ⟨⟨ops, hlin, -⟩, -, -⟩ := namespace_linearizable hrun
  exact ⟨ops, hlin⟩

namespace BlackholeFS

def methodIncrements (fs : BlackholeFS) (m : FsMethod) : ℕ := m.call.elim 0 fs.increments

theorem methodIncrements_le (fs : BlackholeFS) (m : FsMethod) : fs.methodIncrements m ≤ 1 := by
  cases m with
  | «open» fname flags mode =>
    change (if fs.Refused fname flags then 0 else 1) ≤ 1
    split_ifs <;> decide
  | seed path size readtype => exact le_rfl
  | _ => exact Nat.zero_le 1

theorem Identified.method {fs : BlackholeFS} (h : fs.Identified) (m : FsMethod)
    (hfits : fs.fdLast.toNat + fs.methodIncrements m < 2 ^ 64) :
    (methods.next fs m).Identified ∧
      (methods.next fs m).fdLast.toNat = fs.fdLast.toNat + fs.methodIncrements m := by
  rw [methodIncrements] at hfits ⊢
  rw [next_method]
  cases hcall : m.call with
  | none => exact ⟨h, rfl⟩
  | some c =>
    rw [hcall] at hfits
    exact h.call c hfits

end BlackholeFS

/-- In every interleaving, no two stubs which were ever created share an inode, and no
increment of the counter is lost. -/
theorem threads_identified (hrun : (threads τ).Run { shared := fs₀ } past s)
    (hstart : fs₀.Identified) (hfits : fs₀.fdLast.toNat + (callOps past).length < 2 ^ 64)
    (hfree : s.owner = none) :
    s.shared.Identified ∧ ∃ ops, Linearization BlackholeFS.methods fs₀ past ops ∧
      s.shared.fdLast.toNat = fs₀.fdLast.toNat +
        BlackholeFS.methods.total BlackholeFS.methodIncrements fs₀ (ops.map Prod.snd) := by
  obtain ⟨ops, hlin, hshared⟩ := Monitor.run_linearization run_method hrun
  have hle := BlackholeFS.methods.total_le_length BlackholeFS.methodIncrements_le fs₀
    (ops.map Prod.snd)
  have hlength := hlin.length_le
  rw [List.length_map] at hle
  have htotal : fs₀.fdLast.toNat + BlackholeFS.methods.total BlackholeFS.methodIncrements fs₀
      (ops.map Prod.snd) < 2 ^ 64 := by omega
  rw [hshared hfree]
  refine ⟨?_, ops, hlin, ?_⟩
  · exact Machine.exec_invariant_of_total (fun fs => fs.fdLast.toNat)
      (fun fs m h hm => h.method m hm) hstart htotal
  · exact Machine.exec_gauge_of_total (fun fs => fs.fdLast.toNat)
      (fun fs m h hm => h.method m hm) hstart htotal

theorem threads_identified_creators :
    ∃ s, (threads Bool).Run { shared := {} } creators s ∧ s.shared.Identified ∧
      s.shared.getStub "/a".toList = some 0 ∧ (s.shared.stubs.get 0).stat.ino = 1 ∧
      s.shared.getStub "/b".toList = some 1 ∧ (s.shared.stubs.get 1).stat.ino = 2 ∧
      ∃ ops, Linearization BlackholeFS.methods {} creators ops ∧
        BlackholeFS.methods.total BlackholeFS.methodIncrements {} (ops.map Prod.snd) = 2 := by
  obtain ⟨s, hfree, hshared, hrun⟩ := creators_run
  obtain ⟨hid, ops, hlin, hfd⟩ := threads_identified hrun .init (by decide) hfree
  refine ⟨s, hrun, hid, ?_⟩
  rw [hshared] at hfd ⊢
  exact ⟨by decide, by decide, by decide, by decide, ops, hlin,
    (hfd.trans (Nat.zero_add _)).symm.trans (by decide)⟩

def FsReply.fd? : FsReply → Option ℤ
  | .rc code => if 0 < code then some code else none
  | _ => none

namespace BlackholeFS

theorem method_fd (fs : BlackholeFS) (hfits : fs.fdLast.toNat + 1 < 2 ^ 31) (m : FsMethod) :
    (methods.out fs m).fd? = none ∧ fs.fdLast.toNat ≤ (methods.next fs m).fdLast.toNat ∧
        (methods.next fs m).fdLast.toNat ≤ fs.fdLast.toNat + 1 ∨
      (methods.out fs m).fd? = some (fs.fdLast.toNat + 1 : ℤ) ∧
        (methods.next fs m).fdLast.toNat = fs.fdLast.toNat + 1 := by
  have hsame : ∀ {fs' : BlackholeFS} {r : FsReply}, r.fd? = none → fs'.fdLast = fs.fdLast →
      r.fd? = none ∧ fs.fdLast.toNat ≤ fs'.fdLast.toNat ∧
        fs'.fdLast.toNat ≤ fs.fdLast.toNat + 1 ∨
      r.fd? = some (fs.fdLast.toNat + 1 : ℤ) ∧ fs'.fdLast.toNat = fs.fdLast.toNat + 1 := by
    intro fs' r hr hfd
    rw [hfd]
    exact .inl ⟨hr, le_rfl, Nat.le_succ _⟩
  cases m with
  | «exists» fname => exact hsame rfl rfl
  | getStub fname => exact hsame rfl rfl
  | readdir path entries => exact hsame rfl rfl
  | rename src dst =>
    refine hsame ?_ (fs.rename_fdLast src dst)
    change FsReply.fd? (.rc (fs.rename src dst).1) = none
    cases hsrc : fs.files[src]? <;> simp [BlackholeFS.rename, hsrc, FsReply.fd?, ENOENT]
  | unlink fname =>
    refine hsame ?_ (fs.unlink_fdLast fname)
    change FsReply.fd? (.rc (fs.unlink fname).1) = none
    cases hfile : fs.files[fname]? <;> simp [BlackholeFS.unlink, hfile, FsReply.fd?, ENOENT]
  | «open» fname flags mode =>
    by_cases href : fs.Refused fname flags
    · refine hsame ?_ (congrArg fdLast (congrArg Prod.snd (open_of_refused href mode)))
      exact if_neg (refused_rc_neg href mode).not_gt
    · have hnat : (fs.fdLast + 1).toNat = fs.fdLast.toNat + 1 :=
        toNat_add_of_lt (k := 1) (by omega)
      obtain ⟨hrc, hfd⟩ := open_of_not_refused href mode
      rw [fdToInt_of_lt (by omega), hnat, Nat.cast_succ] at hrc
      refine .inr ⟨?_, by rw [← hnat, ← hfd]; rfl⟩
      change FsReply.fd? (.rc (fs.open fname flags mode).1) = _
      rw [hrc, FsReply.fd?, if_pos (by omega)]
  | close fname => exact hsame rfl (fs.close_fdLast fname)
  | seed path size readtype =>
    have hnat : (fs.fdLast + 1).toNat = fs.fdLast.toNat + 1 :=
      toNat_add_of_lt (k := 1) (by omega)
    exact .inl ⟨rfl, (Nat.le_succ _).trans hnat.ge, hnat.le⟩

theorem outputs_fd (fs : BlackholeFS) (ms : List FsMethod)
    (hfits : fs.fdLast.toNat + ms.length < 2 ^ 31) :
    (∀ fd ∈ (methods.outputs fs ms).filterMap FsReply.fd?, (fs.fdLast.toNat : ℤ) < fd) ∧
      ((methods.outputs fs ms).filterMap FsReply.fd?).Nodup := by
  induction ms generalizing fs with
  | nil => exact ⟨nofun, .nil⟩
  | cons m ms ih =>
    rw [List.length_cons] at hfits
    rw [Machine.outputs, List.filterMap_cons]
    rcases method_fd fs (by omega) m with ⟨hnone, hle, hle'⟩ | ⟨hsome, hnext⟩
    · obtain ⟨habove, hnodup⟩ := ih (methods.next fs m) (by omega)
      rw [hnone]
      exact ⟨fun fd hfd => lt_of_le_of_lt (Int.ofNat_le.mpr hle) (habove fd hfd), hnodup⟩
    · obtain ⟨habove, hnodup⟩ := ih (methods.next fs m) (by omega)
      rw [hnext] at habove
      rw [hsome]
      refine ⟨fun fd hfd => ?_, List.nodup_cons.mpr ⟨fun hmem => ?_, hnodup⟩⟩
      · rcases List.mem_cons.mp hfd with rfl | hfd
        · exact lt_add_one _
        · have := habove fd hfd
          push_cast at this
          omega
      · have := habove _ hmem
        push_cast at this
        omega

end BlackholeFS

/-- In every interleaving, all descriptors which were ever returned differ, as long as
there are no more calls than `int` has descriptors left. -/
theorem threads_descriptors (hrun : (threads τ).Run { shared := fs₀ } past s)
    (hfits : fs₀.fdLast.toNat + (callOps past).length < 2 ^ 31) :
    ((replies past).filterMap FsReply.fd?).Nodup := by
  obtain ⟨ops, hlin, -⟩ := Monitor.run_linearization run_method hrun
  have hlength := hlin.length_le
  have hnodup := (BlackholeFS.outputs_fd fs₀ (ops.map Prod.snd)
    (by rw [List.length_map]; omega)).2
  obtain ⟨l, hperm, hsub⟩ := hlin.replies_subperm
  exact ((hperm.filterMap FsReply.fd?).nodup_iff).mp ((hsub.filterMap FsReply.fd?).nodup hnodup)

theorem threads_descriptors_creators :
    (replies creators).filterMap FsReply.fd? = [2, 1] ∧
      ((replies creators).filterMap FsReply.fd?).Nodup := by
  obtain ⟨s, -, -, hrun⟩ := creators_run
  exact ⟨rfl, threads_descriptors hrun (by decide)⟩

def FsMethod.WellNamed : FsMethod → Prop
  | .rename _ dst => WellFormed dst
  | .open fname _ _ => WellFormed fname
  | .seed path _ _ => WellFormed path
  | _ => True

namespace BlackholeFS

theorem WellNamed.open {fs : BlackholeFS} (h : fs.WellNamed) {fname : Str} (hp : WellFormed fname)
    (flags mode : CInt) : (fs.open fname flags mode).2.WellNamed := by
  intro q i hq
  have hcase := open_case fs fname flags mode
  generalize fs.open fname flags mode = r at hcase hq
  cases hcase with
  | missing _ _ => exact h q i hq
  | exclusive _ _ _ _ => exact h q i hq
  | read _ _ _ => exact h q i hq
  | reuse _ _ _ _ _ => exact h q i hq
  | create _ _ =>
    rw [create_files] at hq
    split_ifs at hq with hname
    · exact hname ▸ hp
    · exact h q i hq

theorem WellNamed.rename {fs : BlackholeFS} (h : fs.WellNamed) (src : Str) {dst : Str}
    (hp : WellFormed dst) : (fs.rename src dst).2.WellNamed := by
  cases hsrc : fs.files[src]? with
  | none => rwa [rename_unbound hsrc]
  | some stub =>
    intro q i hq
    rw [rename_bound hsrc] at hq
    split_ifs at hq with hd
    · exact hd ▸ hp
    · exact h q i hq

theorem WellNamed.method {fs : BlackholeFS} (h : fs.WellNamed) {m : FsMethod}
    (hm : m.WellNamed) : (methods.next fs m).WellNamed := by
  cases m with
  | «exists» fname => exact h
  | getStub fname => exact h
  | readdir path entries => exact h
  | rename src dst => exact h.rename src hm
  | unlink fname =>
    intro q i hq
    change (fs.unlink fname).2.files[q]? = some i at hq
    rw [unlink_files] at hq
    split_ifs at hq
    exact h q i hq
  | «open» fname flags mode => exact h.open hm flags mode
  | close fname =>
    intro q i hq
    exact h q i (by rwa [← close_files fs fname])
  | seed path size readtype => exact h.seed hm size readtype

end BlackholeFS

/-- A listing which a thread gets while others create, rename and unlink is exactly
the directory as it was at one moment of the call: one linearization explains the whole
history, and every listing is that of the namespace behind the methods before it. -/
theorem threads_listing (hrun : (threads τ).Run { shared := fs₀ } past s)
    (hstart : fs₀.WellNamed) (hnames : ∀ t m, Event.call t m ∈ past → m.WellNamed) :
    ∃ ops, Linearization BlackholeFS.methods fs₀ past ops ∧
      ∀ later t names earlier, past = later ++ .ret t (.entries names) :: earlier →
        ∃ pre path entries children post, ops = pre ++ (t, .readdir path entries) :: post ∧
          Explains BlackholeFS.methods fs₀ earlier t (.entries names) pre
            (.readdir path entries) ∧
          names = entries ++ children ∧
          (DirPath path →
            (BlackholeFS.methods.exec fs₀ (pre.map Prod.snd)).ExactListing path children) := by
  obtain ⟨ops, hlin, -⟩ := Monitor.run_linearization run_method hrun
  refine ⟨ops, hlin, fun later t names earlier hret => ?_⟩
  obtain ⟨pre, m, post, hops, hexp⟩ := hlin.explains later t (.entries names) earlier hret
  have hwell : (BlackholeFS.methods.exec fs₀ (pre.map Prod.snd)).WellNamed := by
    refine Machine.exec_invariant_of (G := fun _ m => m.WellNamed)
      (fun fs m hfs hm => hfs.method hm) hstart (Machine.everyStep_of_mem (fun m hm => ?_) fs₀)
    obtain ⟨op, hop, rfl⟩ := List.mem_map.mp hm
    refine hnames op.1 op.2 (hlin.mem_call ?_)
    rw [hops]
    exact List.mem_append_left _ hop
  have hreply := hexp.reply
  cases m with
  | readdir path entries =>
    exact ⟨pre, path, entries, _, post, hops, hexp, FsReply.entries.inj hreply,
      fun hd => BlackholeFS.exactListing hwell hd⟩
  | _ => cases hreply

theorem threads_listing_watched :
    ∃ s, (threads Bool).Run { shared := {} } watched s ∧
      ∃ pre post, Linearization BlackholeFS.methods {} watched
          (pre ++ (false, .readdir "/".toList []) :: post) ∧
        (BlackholeFS.methods.exec {} (pre.map Prod.snd)).ExactListing "/".toList ["a".toList] := by
  obtain ⟨s, -, hrun⟩ := watched_run
  have hnames : ∀ t m, Event.call t m ∈ watched → m.WellNamed := by
    intro t m hm
    simp only [watched, List.mem_cons, reduceCtorEq, Event.call.injEq, List.not_mem_nil,
      false_or, or_false] at hm
    rcases hm with ⟨rfl, rfl⟩ | ⟨rfl, rfl⟩
    · trivial
    · exact (by decide : WellFormed "/a".toList)
  obtain ⟨ops, hlin, hall⟩ := threads_listing hrun .init hnames
  obtain ⟨pre, path, entries, children, post, rfl, hexp, hnames, hexact⟩ :=
    hall [] false ["a".toList] _ rfl
  have hcall := congrArg List.getLast? hexp.latest
  obtain ⟨rfl, rfl⟩ : "/".toList = path ∧ [] = entries := by simpa [calls] using hcall
  obtain rfl : ["a".toList] = children := hnames
  exact ⟨s, hrun, pre, post, hlin, hexact ⟨rfl, by decide⟩⟩

end XrdBlackhole
