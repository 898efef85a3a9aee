import XrdBlackhole.Sessions

/-!
# The result of `open`

The 64-bit descriptor counter is returned through an `int` whose sign doubles as
the error indicator. `OpenSpec` is what callers rely on. A call which is not refused
meets it as long as the next descriptor is below `2 ^ 31`, and the first descriptor from
there on reads as an error although the file was opened.
-/

namespace XrdBlackhole

namespace BlackholeFS

def openResults : Machine.History FsCall ℤ → List ℤ
  | [] => []
  | (.fsOpen _ _ _, rc) :: past => if 0 ≤ rc then rc :: openResults past else openResults past
  | _ :: past => openResults past

structure OpenSpec (s : BlackholeFS × Machine.History FsCall ℤ) (fname : Str)
    (flags mode : CInt) : Prop where
  fails : (s.1.open fname flags mode).1 < 0 ↔ s.1.Refused fname flags
  refused : s.1.Refused fname flags →
    s.1.open fname flags mode = (if readOnly flags then -ENOENT else -EEXIST, s.1)
  accepted : ¬ s.1.Refused fname flags →
    0 < (s.1.open fname flags mode).1 ∧
      (∀ q ∈ openResults s.2, q < (s.1.open fname flags mode).1) ∧
      ∀ f : OssFile, (f.open s.1 fname flags mode).1 = XrdOssOK

def CounterFits (fs : BlackholeFS) : Prop := fs.fdLast.toNat + 1 < 2 ^ 31

theorem fdToInt_of_lt {fd : Word} (h : fd.toNat < 2 ^ 31) : fdToInt fd = fd.toNat := by
  have hset : (fd.setWidth 32).toNat = fd.toNat := by
    rw [BitVec.toNat_setWidth]
    omega
  rw [fdToInt, BitVec.toInt_eq_toNat_cond, hset, if_pos (by omega)]

theorem fdToInt_neg {fd : Word} (hle : 2 ^ 31 ≤ fd.toNat) (hlt : fd.toNat < 2 ^ 32) :
    fdToInt fd < 0 := by
  have hset : (fd.setWidth 32).toNat = fd.toNat := by
    rw [BitVec.toNat_setWidth]
    omega
  rw [fdToInt, BitVec.toInt_eq_toNat_cond, hset, if_neg (by omega)]
  omega

theorem call_fdLast (fs : BlackholeFS) (c : FsCall) :
    ∃ k ≤ 3, (fs.call c).2.fdLast = fs.fdLast + BitVec.ofNat 64 k := by
  cases c with
  | ns c =>
    cases c with
    | seed path size readtype => exact ⟨1, by omega, rfl⟩
    | createDefaults path =>
      refine ⟨3, by omega, ?_⟩
      have hthree : (fs.createDefaults path).fdLast = fs.fdLast + 1#64 + 1#64 + 1#64 := rfl
      rw [BlackholeFS.call, BlackholeFS.ns, hthree]
      bv_omega
    | rename src dst => exact ⟨0, by omega, by simp [BlackholeFS.call, BlackholeFS.ns]⟩
    | unlink fname => exact ⟨0, by omega, by simp [BlackholeFS.call, BlackholeFS.ns]⟩
  | fsOpen fname flags mode =>
    by_cases href : fs.Refused fname flags
    · exact ⟨0, by omega, by simp [BlackholeFS.call, open_of_refused href]⟩
    · exact ⟨1, by omega, (open_of_not_refused href mode).2⟩
  | fsClose fname => exact ⟨0, by omega, by simp [BlackholeFS.call]⟩

section
variable {fs : BlackholeFS} {past : Machine.History FsCall ℤ}

theorem CounterFits.call_toNat (h : fs.CounterFits) (c : FsCall) :
    fs.fdLast.toNat ≤ (fs.call c).2.fdLast.toNat ∧
      (fs.call c).2.fdLast.toNat ≤ fs.fdLast.toNat + 3 := by
  obtain ⟨k, hk, hfd⟩ := fs.call_fdLast c
  rw [CounterFits] at h
  rw [hfd, toNat_add_of_lt (by omega)]
  omega

theorem CounterFits.open_rc (h : fs.CounterFits) {fname : Str} {flags : CInt}
    (haccept : ¬ fs.Refused fname flags) (mode : CInt) :
    (fs.open fname flags mode).1 = fs.fdLast.toNat + 1 ∧
      (fs.open fname flags mode).2.fdLast.toNat = fs.fdLast.toNat + 1 := by
  rw [CounterFits] at h
  have hnat : (fs.fdLast + 1).toNat = fs.fdLast.toNat + 1 :=
    toNat_add_of_lt (k := 1) (by omega)
  obtain ⟨hrc, hfd⟩ := open_of_not_refused haccept mode
  rw [hrc, hfd, fdToInt_of_lt (by omega), hnat]
  exact ⟨by norm_cast, rfl⟩

theorem refused_rc_neg {fname : Str} {flags : CInt} (href : fs.Refused fname flags)
    (mode : CInt) : (fs.open fname flags mode).1 < 0 :=
  not_le.mp fun hrc => not_refused_of_rc hrc href

def ResultsBelow (s : BlackholeFS × Machine.History FsCall ℤ) : Prop :=
  ∀ q ∈ openResults s.2, q ≤ s.1.fdLast.toNat

theorem ResultsBelow.step (h : ResultsBelow (fs, past)) (hfits : fs.CounterFits) (c : FsCall) :
    ResultsBelow (machine.logged.next (fs, past) c) := by
  have hmono := (hfits.call_toNat c).1
  have hold : ∀ q ∈ openResults past, q ≤ (fs.call c).2.fdLast.toNat := by
    intro q hq
    have hle := h q hq
    dsimp only at hle
    omega
  cases c with
  | ns c => exact hold
  | fsOpen fname flags mode =>
    by_cases href : fs.Refused fname flags
    · have hneg := refused_rc_neg href mode
      have hskip : openResults ((.fsOpen fname flags mode, (fs.open fname flags mode).1) :: past) =
          openResults past := if_neg (not_le.mpr hneg)
      intro q hq
      exact hold q (hskip ▸ hq)
    · obtain ⟨hrc, hfd⟩ := hfits.open_rc href mode
      have hpush : openResults ((.fsOpen fname flags mode, (fs.open fname flags mode).1) :: past) =
          (fs.open fname flags mode).1 :: openResults past := if_pos (by omega)
      intro q hq
      have hq' : q ∈ (fs.open fname flags mode).1 :: openResults past := hpush ▸ hq
      rcases List.mem_cons.mp hq' with hnew | hrest
      · have hlast : (fs.open fname flags mode).1 ≤
            ((fs.open fname flags mode).2.fdLast.toNat : ℤ) := by omega
        exact hnew ▸ hlast
      · exact hold q hrest
  | fsClose fname => exact hold

theorem openSpec_of_refused {fname : Str} {flags : CInt} (href : fs.Refused fname flags)
    (mode : CInt) : OpenSpec (fs, past) fname flags mode :=
  ⟨iff_of_true (refused_rc_neg href mode) href, fun _ => open_of_refused href mode,
    fun haccept => absurd href haccept⟩

theorem openSpec_of_fits (hfits : fs.CounterFits) (hbelow : ResultsBelow (fs, past))
    (fname : Str) (flags mode : CInt) : OpenSpec (fs, past) fname flags mode := by
  refine ⟨⟨fun hneg => ?_, fun href => refused_rc_neg href mode⟩,
    fun href => open_of_refused href mode, fun haccept => ?_⟩
  · by_contra haccept
    have hrc := (hfits.open_rc haccept mode).1
    dsimp only at hneg
    omega
  · have hrc := (hfits.open_rc haccept mode).1
    refine ⟨by dsimp only; omega, fun q hq => ?_, fun f => ?_⟩
    · have hle := hbelow q hq
      dsimp only at hle ⊢
      omega
    · exact (f.open_rc_eq_ok_iff fs fname flags mode).mpr (by omega)

end

theorem not_refused_write (fs : BlackholeFS) (fname : Str) : ¬ fs.Refused fname O_WRONLY := by
  intro h
  rcases h with ⟨hread, _⟩ | ⟨_, _, hexcl⟩
  · exact absurd hread (by decide)
  · exact absurd hexcl (by decide)

theorem not_openSpec {fs : BlackholeFS} {past : Machine.History FsCall ℤ}
    (hle : 2 ^ 31 ≤ fs.fdLast.toNat + 1) (hlt : fs.fdLast.toNat + 1 < 2 ^ 32) {fname : Str}
    {flags : CInt} (haccept : ¬ fs.Refused fname flags) (mode : CInt) :
    ¬ OpenSpec (fs, past) fname flags mode := by
  intro hspec
  have hnat : (fs.fdLast + 1).toNat = fs.fdLast.toNat + 1 :=
    toNat_add_of_lt (k := 1) (by omega)
  have hneg : (fs.open fname flags mode).1 < 0 := by
    rw [(open_of_not_refused haccept mode).1]
    exact fdToInt_neg (by omega) (by omega)
  exact haccept (hspec.fails.mp hneg)

/-- In a run which has kept to `int` descriptors so far, an `open` meets its contract
exactly when it is refused or the next descriptor is one too. -/
theorem openSpec_iff (cs : List FsCall)
    (hcs : machine.EveryStep (fun fs _ => fs.CounterFits) {} cs) (fname : Str)
    (flags mode : CInt) :
    OpenSpec (machine.logged.exec ({}, []) cs) fname flags mode ↔
      (machine.exec {} cs).Refused fname flags ∨ (machine.exec {} cs).CounterFits := by
  have hinv : ResultsBelow (machine.logged.exec ({}, []) cs) ∧
      (machine.logged.exec ({}, []) cs).1.fdLast.toNat < 2 ^ 31 + 3 := by
    refine Machine.exec_invariant_of (M := machine.logged)
      (I := fun s => ResultsBelow s ∧ s.1.fdLast.toNat < 2 ^ 31 + 3)
      (fun s c hs hfits => ⟨hs.1.step hfits c, ?_⟩) ⟨by simp [ResultsBelow, openResults], by decide⟩
      ((Machine.everyStep_logged (M := machine)
        (fun (fs : BlackholeFS) _ => fs.CounterFits) {} [] cs).mpr hcs)
    have hnext : (machine.logged.next s c).1.fdLast.toNat ≤ s.1.fdLast.toNat + 3 :=
      (hfits.call_toNat c).2
    rw [CounterFits] at hfits
    omega
  rw [← Machine.exec_logged_fst (M := machine) {} [] cs]
  generalize machine.logged.exec ({}, []) cs = s at hinv
  obtain ⟨fs, past⟩ := s
  constructor
  · intro hspec
    refine or_iff_not_imp_left.mpr fun haccept => ?_
    by_contra hfits
    rw [CounterFits, not_lt] at hfits
    have hlt : fs.fdLast.toNat < 2 ^ 31 + 3 := hinv.2
    exact not_openSpec hfits (by omega) haccept mode hspec
  · rintro (href | hfits)
    · exact openSpec_of_refused href mode
    · exact openSpec_of_fits hfits hinv.1 fname flags mode

theorem openSpec_second_open :
    OpenSpec (machine.logged.exec ({}, []) [.fsOpen "/f".toList O_WRONLY 0]) "/f".toList
      O_RDWR 0 :=
  (openSpec_iff [.fsOpen "/f".toList O_WRONLY 0] ⟨by unfold CounterFits; decide, trivial⟩ _ _
    _).mpr (.inr (by unfold CounterFits; decide))

theorem exec_opens (fs : BlackholeFS) (fname : Str) (mode : CInt) (n : ℕ) :
    (machine.exec fs (List.replicate n (.fsOpen fname O_WRONLY mode))).fdLast =
      fs.fdLast + BitVec.ofNat 64 n := by
  induction n generalizing fs with
  | zero => simp [Machine.exec]
  | succ n ih =>
    have hfirst : (machine.next fs (.fsOpen fname O_WRONLY mode)).fdLast = fs.fdLast + 1 :=
      (open_of_not_refused (fs.not_refused_write fname) mode).2
    rw [List.replicate_succ, Machine.exec, ih, hfirst, Nat.add_comm n 1, BitVec.ofNat_add]
    exact BitVec.add_assoc _ _ _

theorem not_openSpec_after_opens {n : ℕ} (hle : 2 ^ 31 ≤ n + 1) (hlt : n + 1 < 2 ^ 32)
    (fname : Str) (mode : CInt) :
    ¬ OpenSpec (machine.logged.exec ({}, []) (List.replicate n (.fsOpen fname O_WRONLY mode)))
      fname O_WRONLY mode := by
  have hfd : (machine.logged.exec ({}, [])
      (List.replicate n (.fsOpen fname O_WRONLY mode))).1.fdLast.toNat = n := by
    have hzero : ({} : BlackholeFS).fdLast.toNat = 0 := rfl
    rw [Machine.exec_logged_fst, exec_opens, toNat_add_of_lt (by omega), hzero, zero_add]
  generalize machine.logged.exec ({}, []) (List.replicate n (.fsOpen fname O_WRONLY mode)) = s
    at hfd
  exact not_openSpec (by omega) (by omega) (not_refused_write _ fname) mode

theorem open_fails_after_opens : ¬ ∀ fname flags mode,
    OpenSpec (machine.logged.exec ({}, [])
      (List.replicate (2 ^ 31 - 1) (.fsOpen "/f".toList O_WRONLY 0))) fname flags mode :=
  fun hall => not_openSpec_after_opens (by norm_num) (by norm_num) _ _ (hall _ O_WRONLY 0)

end BlackholeFS

end XrdBlackhole
