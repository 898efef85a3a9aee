import XrdBlackhole.RoundTrip

/-!
# Opening an existing file for update

A write session without `O_TRUNC` keeps the stub, but its `Close` stores the bytes
of this session alone. The earlier size and the offsets of the writes do not count,
so the session may shrink the file as well as inflate it.
-/

namespace XrdBlackhole

structure Updating (h : ℕ) (p : Str) (i : ℕ) (w : World) : Prop where
  sound : w.Sound
  bound : w.fs.files[p]? = some i
  writer : w.OpenWriter h i
  flagged : w.Flagged i

section
variable {w : World} {past : Past} {h i : ℕ} {p : Str} {flags mode : CInt} {c : Call}

theorem Away.files_eq (hc : Away h p w c) : (w.step c).1.fs.files[p]? = w.fs.files[p]? := by
  cases c with
  | ns c => exact BlackholeFS.ns_files_of_avoids hc
  | fileOpen g path flags mode =>
    rw [World.step_open_fs]
    exact BlackholeFS.open_files_of_ne hc.2 flags mode
  | fileClose g => rw [World.step_close_fs, OssFile.close_files]
  | io g c => rfl
  | stat path => rfl

/-- A `Close` elsewhere may store a size in the stub, but it clears no flag there. -/
theorem Away.flagged (hsound : w.Sound) (hbound : w.fs.files[p]? = some i)
    (hflag : w.Flagged i) (hc : Away h p w c) : (w.step c).1.Flagged i := by
  cases c with
  | ns c => exact (World.ns_flagged (hsound.fs.bound hbound) c).mpr hflag
  | fileOpen g path flags mode =>
    exact (World.open_flagged (hsound.fs.bound hbound)).mpr (.inl hflag)
  | fileClose g =>
    cases hstub : (w.file g).stub with
    | none =>
      rw [World.Flagged, World.step_close_fs, OssFile.close_none hstub]
      exact hflag
    | some j =>
      refine (World.close_flagged hstub i).mpr ⟨hflag, fun hpath => ?_⟩
      exact hc.2 (hsound.fs.distinct hbound hpath)
  | io g c => exact hflag
  | stat path => exact hflag

theorem Updating.open (hsound : w.Sound) (hexists : w.fs.files[p]? = some i)
    (hwrite : ¬ readOnly flags) (htrunc : ¬ trunc flags)
    (hok : (w.step (.fileOpen h p flags mode)).2.rc = XrdOssOK) :
    Updating h p i (w.step (.fileOpen h p flags mode)).1 := by
  have hrc := ((w.file h).open_rc_eq_ok_iff w.fs p flags mode).mp hok
  have haccept := BlackholeFS.not_refused_of_rc hrc
  have hexcl : ¬ excl flags := fun hexcl => haccept (.inr ⟨hwrite, by simp [hexists], hexcl⟩)
  have hlt := hsound.fs.bound hexists
  have hreuse : w.fs.Reuses p flags i := ⟨hwrite, hexists, hexcl, htrunc⟩
  have hbound : (w.fs.open p flags mode).2.files[p]? = some i :=
    (BlackholeFS.open_path_iff hlt hwrite haccept).mpr hreuse
  refine ⟨hsound.step _, ?_, ?_, (World.open_flagged hlt).mpr (.inr hreuse)⟩
  · rwa [World.step_open_fs]
  · rw [(World.open_holds_ok hrc).2, if_pos rfl]
    exact ⟨hbound, hwrite⟩

theorem Updating.step (hw : Updating h p i w) (hc : WritesOrAway h p (w, past) c) :
    Updating h p i (w.step c).1 := by
  rcases hc with ⟨b, hb⟩ | hc
  · obtain ⟨io, rfl, _⟩ := writeBlock_eq_some hb
    exact ⟨hw.sound.step _, hw.bound, (World.io_holds io).2.mpr hw.writer, hw.flagged⟩
  · refine ⟨hw.sound.step c, hc.files_eq.trans hw.bound, ?_, ?_⟩
    · rw [World.OpenWriter, hc.file]
      exact hw.writer
    · exact hc.flagged hw.sound hw.bound hw.flagged

theorem Updating.stores {s : World × Past} {cs : List Call} (hs : Updating h p i s.1)
    (hcounts : Counts s.1 s.2) (hnone : accepted h s.2 = 0)
    (hcs : World.machine.logged.EveryStep (WritesOrAway h p) s cs)
    (hfits : ((writeBlocks h cs).map Prod.snd).sum < 2 ^ 63) :
    let w := ((World.machine.logged.exec s cs).1.step (.fileClose h)).1
    w.fs.files[p]? = some i ∧
      (w.fs.stubs.get i).size.toNat = ((writeBlocks h cs).map Prod.snd).sum ∧
      (w.fs.stubs.get i).stat.size.toInt = ((writeBlocks h cs).map Prod.snd).sum := by
  intro w
  have hinv := Machine.exec_invariant_of (M := World.machine.logged)
    (I := fun t => Updating h p i t.1 ∧ Counts t.1 t.2)
    (fun _ c ht hc => ⟨ht.1.step hc, ht.2.step c⟩) ⟨hs, hcounts⟩ hcs
  have haccepted := accepted_writes _ cs hcs
  rw [hnone, Nat.zero_add] at haccepted
  rw [← haccepted] at hfits ⊢
  obtain ⟨hsize, hstat⟩ := close_stores hinv.2 hinv.1.writer hinv.1.flagged hfits
  refine ⟨?_, hsize, hstat⟩
  rw [World.step_close_fs, OssFile.close_files]
  exact hinv.1.bound

end

/-- Whatever size an existing file had, a write session without `O_TRUNC` leaves it
with the total length of its own writes, in both copies of the size. -/
theorem update_session_size (pre cs : List Call) (h i : ℕ) (p : Str) (flags mode : CInt)
    (hexists : (World.machine.exec {} pre).fs.files[p]? = some i)
    (hwrite : ¬ readOnly flags) (htrunc : ¬ trunc flags)
    (hok : ((World.machine.exec {} pre).step (.fileOpen h p flags mode)).2.rc = XrdOssOK)
    (hcs : World.machine.logged.EveryStep (WritesOrAway h p)
      (World.machine.logged.exec ({}, []) (pre ++ [.fileOpen h p flags mode])) cs)
    (hfits : ((writeBlocks h cs).map Prod.snd).sum < 2 ^ 63) :
    let w := World.machine.exec {} (pre ++ [.fileOpen h p flags mode] ++ cs ++ [.fileClose h])
    w.fs.files[p]? = some i ∧
      (w.fs.stubs.get i).size.toNat = ((writeBlocks h cs).map Prod.snd).sum ∧
      (w.fs.stubs.get i).stat.size.toInt = ((writeBlocks h cs).map Prod.snd).sum := by
  intro w
  have hsound := World.Sound.exec pre
  rw [← Machine.exec_logged_fst (M := World.machine) {} []] at hexists hok hsound
  rw [Machine.exec_append] at hcs
  have hstores := (Updating.open hsound hexists hwrite htrunc hok).stores ((Counts.exec pre).step _)
    (accepted_opened hok) hcs hfits
  have hend : w = ((World.machine.logged.exec (World.machine.logged.exec
      (World.machine.logged.exec ({}, []) pre) [.fileOpen h p flags mode]) cs).1.step
        (.fileClose h)).1 := by
    simp only [w, ← Machine.exec_logged_fst (M := World.machine) {} [], Machine.exec_append]
    rfl
  rw [hend]
  exact hstores

def seededThenUpdated : List Call :=
  [.ns (.seed "/f".toList 10 zeros), .fileOpen 0 "/f".toList O_WRONLY 0, .io 0 (.write 2 4),
   .io 0 (.write 2 4), .fileClose 0]

theorem update_session_size_eight :
    ((World.machine.exec {} seededThenUpdated).fs.stubs.get 0).size.toNat = 8 :=
  (update_session_size [.ns (.seed "/f".toList 10 zeros)] [.io 0 (.write 2 4), .io 0 (.write 2 4)]
    0 0 "/f".toList O_WRONLY 0 rfl (by decide) (by decide) rfl
    ⟨.inl ⟨_, rfl⟩, .inl ⟨_, rfl⟩, trivial⟩ (by decide)).2.1

def extended (s : ℕ) (bs : List Block) : ℕ :=
  (bs.filter fun b => 0 < b.2).foldl (fun m b => max m (b.1 + b.2)) s

theorem update_session_shrinks :
    let w := World.machine.exec {} [.ns (.seed "/f".toList 10 zeros)]
    (w.fs.stubs.get 0).size.toNat = 10 ∧
      (w.step (.fileOpen 0 "/f".toList O_WRONLY 0)).2.rc = XrdOssOK ∧
      ((World.machine.exec w [.fileOpen 0 "/f".toList O_WRONLY 0, .fileClose 0]).fs.stubs.get
        0).size.toNat ≠ extended 10 (writeBlocks 0 []) := by
  decide

end XrdBlackhole
