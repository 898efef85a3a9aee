import XrdBlackhole.Sessions

/-!
# Byte and transfer accounting

`closes` lists the sessions which a successful `Close` has ended, with the bytes
which their writes accepted and their reads returned. The statistics manager holds
the sums over this list. They only grow, and they do not depend on the order in
which handles are closed.
-/

namespace XrdBlackhole

def closes : Past → List (ℕ × ℕ)
  | [] => []
  | (.fileClose h, r) :: past =>
    if r.rc = XrdOssOK then (accepted h past, returned h past) :: closes past else closes past
  | _ :: past => closes past

namespace Snapshot

structure Matches (m : Snapshot) (ts : List (ℕ × ℕ)) : Prop where
  totalTransfers : m.totalTransfers.toNat = ts.length
  totalBytesWritten : m.totalBytesWritten.toInt = (ts.map Prod.fst).sum
  totalBytesRead : m.totalBytesRead.toInt = (ts.map Prod.snd).sum
  writeTransfers : m.writeTransfers.toNat = ts.countP fun t => 0 < t.1
  readTransfers : m.readTransfers.toNat = ts.countP fun t => 0 < t.2

structure Sums (m : Snapshot) (ts : List (ℕ × ℕ)) : Prop where
  totalTransfers : m.totalTransfers = BitVec.ofNat 64 ts.length
  totalBytesWritten : m.totalBytesWritten = BitVec.ofNat 64 (ts.map Prod.fst).sum
  totalBytesRead : m.totalBytesRead = BitVec.ofNat 64 (ts.map Prod.snd).sum
  writeTransfers :
    m.writeTransfers = BitVec.ofNat 64 (ts.countP fun t => 0 < (BitVec.ofNat 64 t.1).toInt)
  readTransfers :
    m.readTransfers = BitVec.ofNat 64 (ts.countP fun t => 0 < (BitVec.ofNat 64 t.2).toInt)

structure AtMost (m m' : Snapshot) : Prop where
  totalTransfers : m.totalTransfers.toNat ≤ m'.totalTransfers.toNat
  totalBytesWritten : m.totalBytesWritten.toInt ≤ m'.totalBytesWritten.toInt
  totalBytesRead : m.totalBytesRead.toInt ≤ m'.totalBytesRead.toInt
  writeTransfers : m.writeTransfers.toNat ≤ m'.writeTransfers.toNat
  readTransfers : m.readTransfers.toNat ≤ m'.readTransfers.toNat

structure Bounded (ts : List (ℕ × ℕ)) : Prop where
  transfers : ts.length < 2 ^ 63
  written : (ts.map Prod.fst).sum < 2 ^ 63
  read : (ts.map Prod.snd).sum < 2 ^ 63

theorem Sums.nil : ({} : Snapshot).Sums [] := ⟨rfl, rfl, rfl, rfl, rfl⟩

theorem Sums.recordTransfer {m : Snapshot} {ts : List (ℕ × ℕ)} (h : m.Sums ts)
    {s : TransferStats} {a r : ℕ} (ha : s.bytesWritten = BitVec.ofNat 64 a)
    (hr : s.bytesRead = BitVec.ofNat 64 r) : (m.recordTransfer s).Sums ((a, r) :: ts) := by
  refine ⟨?_, ?_, ?_, ?_, ?_⟩
  · rw [List.length_cons, BitVec.ofNat_add, ← h.totalTransfers]
    rfl
  · rw [List.map_cons, List.sum_cons, Nat.add_comm, BitVec.ofNat_add, ← h.totalBytesWritten, ← ha]
    rfl
  · rw [List.map_cons, List.sum_cons, Nat.add_comm, BitVec.ofNat_add, ← h.totalBytesRead, ← hr]
    rfl
  · rw [List.countP_cons, BitVec.ofNat_add, ← h.writeTransfers, ← ha]
    by_cases hpos : 0 < s.bytesWritten.toInt <;> simp [Snapshot.recordTransfer, hpos]
  · rw [List.countP_cons, BitVec.ofNat_add, ← h.readTransfers, ← hr]
    by_cases hpos : 0 < s.bytesRead.toInt <;> simp [Snapshot.recordTransfer, hpos]

theorem countP_ofNat {ts : List (ℕ × ℕ)} (f : ℕ × ℕ → ℕ) (h : (ts.map f).sum < 2 ^ 63) :
    (ts.countP fun t => 0 < (BitVec.ofNat 64 (f t)).toInt) = ts.countP fun t => 0 < f t := by
  refine List.countP_congr fun t ht => ?_
  have hle : f t ≤ (ts.map f).sum := List.single_le_sum (by simp) _ (List.mem_map_of_mem ht)
  simp [toInt_ofNat_of_lt (lt_of_le_of_lt hle h)]

theorem Sums.matches {m : Snapshot} {ts : List (ℕ × ℕ)} (h : m.Sums ts) (hb : Bounded ts) :
    m.Matches ts := by
  have hcount : ∀ f : ℕ × ℕ → ℕ, (ts.countP fun t => 0 < f t) < 2 ^ 63 :=
    fun f => lt_of_le_of_lt List.countP_le_length hb.transfers
  refine ⟨?_, ?_, ?_, ?_, ?_⟩
  · rw [h.totalTransfers, toNat_ofNat_of_lt hb.transfers]
  · rw [h.totalBytesWritten, toInt_ofNat_of_lt hb.written]
  · rw [h.totalBytesRead, toInt_ofNat_of_lt hb.read]
  · rw [h.writeTransfers, countP_ofNat Prod.fst hb.written, toNat_ofNat_of_lt (hcount _)]
  · rw [h.readTransfers, countP_ofNat Prod.snd hb.read, toNat_ofNat_of_lt (hcount _)]

theorem Bounded.of_append {ts us : List (ℕ × ℕ)} (h : Bounded (us ++ ts)) : Bounded ts := by
  have hlen := h.transfers
  have hwritten := h.written
  have hread := h.read
  simp only [List.length_append, List.map_append, List.sum_append] at hlen hwritten hread
  exact ⟨by omega, by omega, by omega⟩

theorem Matches.atMost {m m' : Snapshot} {ts us : List (ℕ × ℕ)} (h : m.Matches ts)
    (h' : m'.Matches (us ++ ts)) : m.AtMost m' := by
  obtain ⟨hlen, hwritten, hread, hwrites, hreads⟩ := h'
  simp only [List.length_append, List.map_append, List.sum_append, List.countP_append]
    at hlen hwritten hread hwrites hreads
  refine ⟨?_, ?_, ?_, ?_, ?_⟩
  · rw [h.totalTransfers]
    omega
  · rw [h.totalBytesWritten]
    omega
  · rw [h.totalBytesRead]
    omega
  · rw [h.writeTransfers]
    omega
  · rw [h.readTransfers]
    omega

end Snapshot

theorem step_mgr_of_not_closed {w : World} {c : Call}
    (hc : ∀ h, c = .fileClose h → (w.step c).2.rc ≠ XrdOssOK) : (w.step c).1.mgr = w.mgr := by
  cases c with
  | fileClose h =>
    cases hstub : (w.file h).stub with
    | none =>
      rw [World.step, OssFile.close_none hstub]
      rfl
    | some i =>
      have hrc := hc h rfl
      rw [World.step, OssFile.close_some hstub] at hrc
      exact absurd rfl hrc
  | ns c => rfl
  | fileOpen h path flags mode => rfl
  | io h c => rfl
  | stat path => rfl

theorem closes_of_not_closed {w : World} {c : Call} {past : Past}
    (hc : ∀ h, c = .fileClose h → (w.step c).2.rc ≠ XrdOssOK) :
    closes ((c, (w.step c).2) :: past) = closes past := by
  cases c with
  | fileClose h => exact if_neg (hc h rfl)
  | ns c => rfl
  | fileOpen h path flags mode => rfl
  | io h c => rfl
  | stat path => rfl

theorem sums_step {w : World} {past : Past} (hcounts : Counts w past)
    (hsums : w.mgr.Sums (closes past)) (c : Call) :
    (w.step c).1.mgr.Sums (closes ((c, (w.step c).2) :: past)) := by
  by_cases hc : ∀ h, c = .fileClose h → (w.step c).2.rc ≠ XrdOssOK
  · rwa [step_mgr_of_not_closed hc, closes_of_not_closed hc]
  · push Not at hc
    obtain ⟨h, rfl, hrc⟩ := hc
    have hcloses : closes ((.fileClose h, (w.step (.fileClose h)).2) :: past) =
        (accepted h past, returned h past) :: closes past := if_pos hrc
    rw [hcloses]
    cases hstub : (w.file h).stub with
    | none =>
      rw [World.step, OssFile.close_none hstub] at hrc
      exact absurd hrc (show -ENOENT ≠ XrdOssOK by decide)
    | some i =>
      rw [World.step, OssFile.close_some hstub]
      exact hsums.recordTransfer (hcounts h).written (hcounts h).readBytes

theorem sums_exec (cs : List Call) :
    (World.machine.logged.exec ({}, []) cs).1.mgr.Sums
      (closes (World.machine.logged.exec ({}, []) cs).2) :=
  (Machine.exec_invariant (M := World.machine.logged)
    (I := fun s => Counts s.1 s.2 ∧ s.1.mgr.Sums (closes s.2))
    (fun _ c hs => ⟨hs.1.step c, sums_step hs.1 hs.2 c⟩) ⟨.init, .nil⟩ cs).2

theorem closes_exec (s : World × Past) (cs : List Call) :
    ∃ new, closes (World.machine.logged.exec s cs).2 = new ++ closes s.2 := by
  induction cs generalizing s with
  | nil => exact ⟨[], rfl⟩
  | cons c cs ih =>
    obtain ⟨new, hnew⟩ := ih (World.machine.logged.next s c)
    have hfirst : ∃ first, closes (World.machine.logged.next s c).2 = first ++ closes s.2 := by
      by_cases hc : ∀ h, c = .fileClose h → (s.1.step c).2.rc ≠ XrdOssOK
      · exact ⟨[], closes_of_not_closed hc⟩
      · push Not at hc
        obtain ⟨h, rfl, hrc⟩ := hc
        exact ⟨[_], if_pos hrc⟩
    obtain ⟨first, hfirst⟩ := hfirst
    exact ⟨new ++ first, by rw [Machine.exec, hnew, hfirst, List.append_assoc]⟩

namespace World

def ledger (w : World) : Snapshot × (ℕ → OssFile) := (w.mgr, w.file)

def closeLedger (l : Snapshot × (ℕ → OssFile)) (h : ℕ) : Snapshot × (ℕ → OssFile) :=
  (((l.2 h).close {} l.1).2.2.1, Function.update l.2 h ((l.2 h).close {} l.1).2.2.2)

theorem close_ledger (f : OssFile) (fs fs' : BlackholeFS) (mgr : Snapshot) :
    (f.close fs mgr).2.2 = (f.close fs' mgr).2.2 := by
  cases hstub : f.stub with
  | none => rw [OssFile.close_none hstub, OssFile.close_none hstub]
  | some i => rw [OssFile.close_some hstub, OssFile.close_some hstub]

theorem ledger_step_close (w : World) (h : ℕ) :
    (w.step (.fileClose h)).1.ledger = closeLedger w.ledger h := by
  rw [closeLedger, close_ledger _ {} w.fs]
  rfl

theorem closeLedger_comm (l : Snapshot × (ℕ → OssFile)) (h g : ℕ) :
    closeLedger (closeLedger l h) g = closeLedger (closeLedger l g) h := by
  by_cases hgh : h = g
  · rw [hgh]
  · have hh : Function.update l.2 g ((l.2 g).close {} l.1).2.2.2 h = l.2 h :=
      Function.update_of_ne hgh _ _
    have hg : Function.update l.2 h ((l.2 h).close {} l.1).2.2.2 g = l.2 g :=
      Function.update_of_ne (Ne.symm hgh) _ _
    simp only [closeLedger, hh, hg]
    cases hstub : (l.2 h).stub with
    | none =>
      cases hstub' : (l.2 g).stub with
      | none => simp only [OssFile.close_none hstub, OssFile.close_none hstub',
          Function.update_comm hgh]
      | some j => simp only [OssFile.close_none hstub, OssFile.close_some hstub',
          Function.update_comm hgh]
    | some i =>
      cases hstub' : (l.2 g).stub with
      | none => simp only [OssFile.close_some hstub, OssFile.close_none hstub',
          Function.update_comm hgh]
      | some j => simp only [OssFile.close_some hstub, OssFile.close_some hstub',
          Function.update_comm hgh, Snapshot.recordTransfer_comm]

theorem ledger_exec_closes (w : World) (hs : List ℕ) :
    (machine.exec w (hs.map .fileClose)).ledger = hs.foldl closeLedger w.ledger := by
  induction hs generalizing w with
  | nil => rfl
  | cons h hs ih =>
    rw [List.map_cons, Machine.exec, ih, List.foldl_cons, ← ledger_step_close]
    rfl

instance : RightCommutative closeLedger := ⟨closeLedger_comm⟩

theorem mgr_exec_closes_perm (w : World) {hs hs' : List ℕ} (hperm : hs.Perm hs') :
    (machine.exec w (hs.map .fileClose)).mgr = (machine.exec w (hs'.map .fileClose)).mgr := by
  have hledger := hperm.foldl_eq (f := closeLedger) w.ledger
  rw [← ledger_exec_closes, ← ledger_exec_closes] at hledger
  exact congrArg Prod.fst hledger

end World

/-- The snapshot holds the sums over the ended sessions. Only a successful `Close`
changes it, it has grown along the run, and what follows when handles are closed
does not depend on their order. -/
theorem accounting (cs : List Call)
    (hbound : Snapshot.Bounded (closes (World.machine.logged.exec ({}, []) cs).2)) :
    (World.machine.exec {} cs).mgr.Matches (closes (World.machine.logged.exec ({}, []) cs).2) ∧
      (∀ c, (∀ h, c = .fileClose h →
          ((World.machine.exec {} cs).step c).2.rc ≠ XrdOssOK) →
        ((World.machine.exec {} cs).step c).1.mgr = (World.machine.exec {} cs).mgr) ∧
      (∀ ds, ds <+: cs → (World.machine.exec {} ds).mgr.AtMost (World.machine.exec {} cs).mgr) ∧
      ∀ hs hs' : List ℕ, hs.Perm hs' →
        (World.machine.exec (World.machine.exec {} cs) (hs.map .fileClose)).mgr =
          (World.machine.exec (World.machine.exec {} cs) (hs'.map .fileClose)).mgr := by
  have hmatch : ∀ ds, Snapshot.Bounded (closes (World.machine.logged.exec ({}, []) ds).2) →
      (World.machine.exec {} ds).mgr.Matches
        (closes (World.machine.logged.exec ({}, []) ds).2) := by
    intro ds hb
    have hsums := sums_exec ds
    rw [Machine.exec_logged_fst] at hsums
    exact hsums.matches hb
  refine ⟨hmatch cs hbound, fun c hc => step_mgr_of_not_closed hc, fun ds hds => ?_,
    fun hs hs' hperm => World.mgr_exec_closes_perm _ hperm⟩
  obtain ⟨es, rfl⟩ := hds
  have hend := hmatch _ hbound
  obtain ⟨new, hnew⟩ := closes_exec (World.machine.logged.exec ({}, []) ds) es
  rw [← Machine.exec_append (M := World.machine.logged)] at hnew
  rw [hnew] at hbound hend
  exact (hmatch ds hbound.of_append).atMost hend

def twoCloses : List Call :=
  [.fileOpen 0 "/f".toList O_WRONLY 0o644, .io 0 (.write 0 10), .io 0 (.writeAio 10 5),
   .fileClose 0, .fileClose 0, .io 0 (.write 0 7), .fileOpen 1 "/f".toList O_RDONLY 0,
   .io 1 (.read 0 0 8), .fileClose 1]

theorem accounting_two_closes :
    (World.machine.exec {} twoCloses).mgr.Matches [(0, 8), (15, 0)] := by
  have hcloses : closes (World.machine.logged.exec ({}, []) twoCloses).2 = [(0, 8), (15, 0)] := by
    decide
  have hbound : Snapshot.Bounded (closes (World.machine.logged.exec ({}, []) twoCloses).2) := by
    rw [hcloses]
    exact ⟨by decide, by decide, by decide⟩
  exact hcloses ▸ (accounting twoCloses hbound).1

end XrdBlackhole
