import XrdBlackhole.Sessions

/-!
# Sequential reads

A client reads a handle from offset 0 on and advances by the count which each read
returns. What the handle delivers is fixed by the size which it cached when it was
opened, so the calls on other handles and on paths may come in between.
-/

namespace XrdBlackhole

def Uses (h : ℕ) : Call → Prop
  | .fileOpen g _ _ _ | .fileClose g | .io g _ => g = h
  | .ns _ | .stat _ => False

section
variable {w : World} {past : Past} {h : ℕ} {c : Call}

theorem World.step_file_of_not_uses (hc : ¬ Uses h c) : (w.step c).1.file h = w.file h := by
  cases c with
  | ns c => rfl
  | fileOpen g path flags mode => rw [World.step_open_file, if_neg (Ne.symm hc)]
  | fileClose g => rw [World.step_close_file, if_neg (Ne.symm hc)]
  | io g c => rw [World.step_io_file, if_neg (Ne.symm hc)]
  | stat path => rfl

theorem sessionSum_of_not_uses {weight : IoCall → Reply → ℕ} (hc : ¬ Uses h c) (r : Reply) :
    sessionSum weight h ((c, r) :: past) = sessionSum weight h past := by
  cases c with
  | ns c => rfl
  | fileOpen g path flags mode => exact if_neg fun hg => hc hg.1
  | fileClose g => rfl
  | io g c => exact if_neg hc
  | stat path => rfl

end

def readLength (r : ℕ) : Call → ℕ
  | .io g (.read _ _ blen) => if g = r then blen.toNat else 0
  | _ => 0

def requested (r : ℕ) (cs : List Call) : ℕ := (cs.map (readLength r)).sum

def readCalls (r : ℕ) (cs : List Call) : ℕ := cs.countP fun c => 0 < readLength r c

theorem readLength_of_not_uses {r : ℕ} {c : Call} (hc : ¬ Uses r c) : readLength r c = 0 := by
  cases c with
  | io g io => cases io <;> first | rfl | exact if_neg hc
  | _ => rfl

theorem readCalls_le_requested (r : ℕ) (cs : List Call) : readCalls r cs ≤ requested r cs := by
  induction cs with
  | nil => exact le_rfl
  | cons c cs ih =>
    simp only [readCalls, requested, List.countP_cons, List.map_cons, List.sum_cons] at ih ⊢
    split_ifs with hpos
    · have hlen := of_decide_eq_true hpos
      omega
    · omega

def SeqReadOrOther (r : ℕ) (s : World × Past) (c : Call) : Prop :=
  (∃ buff blen, 0 < blen.toNat ∧
    c = .io r (.read buff (BitVec.ofNat 64 (returned r s.2)) blen)) ∨ ¬ Uses r c

/-- A read on `r` returns what is left of `n` bytes, up to its length, and writes
to no other place. -/
def DeliversUpTo (r n : ℕ) (s : World × Past) : Call → Prop
  | .io g (.read buff offset blen) => g = r →
      (s.1.step (.io g (.read buff offset blen))).2.rc = min blen.toNat (n - returned r s.2) ∧
        ∀ a, (a < buff ∨ buff + min blen.toNat (n - returned r s.2) ≤ a) →
          (s.1.step (.io g (.read buff offset blen))).1.mem a = s.1.mem a
  | _ => True

structure Reader (r n : ℕ) (s : World × Past) : Prop where
  isOpen : ∃ i, (s.1.file r).stub = some i
  size : (s.1.file r).size.toNat = n
  bound : returned r s.2 ≤ n

namespace Reader
variable {s : World × Past} {r n : ℕ} {c : Call}

theorem count (hs : Reader r n s) (hn : n < 2 ^ 63) (blen : Word) :
    (s.1.file r).count (BitVec.ofNat 64 (returned r s.2)) blen =
      min blen.toNat (n - returned r s.2) := by
  have hlt : returned r s.2 < 2 ^ 63 := hs.bound.trans_lt hn
  have hnonneg : ¬ (BitVec.ofNat 64 (returned r s.2)).toInt < 0 := by
    rw [toInt_ofNat_of_lt hlt]
    omega
  rw [ReadView.count, if_neg hnonneg, toNat_ofNat_of_lt hlt, hs.size]

theorem read_rc (hs : Reader r n s) (hn : n < 2 ^ 63) (buff : ℕ) (blen : Word) :
    (s.1.step (.io r (.read buff (BitVec.ofNat 64 (returned r s.2)) blen))).2.rc =
      min blen.toNat (n - returned r s.2) := by
  obtain ⟨i, hstub⟩ := hs.isOpen
  have hlen := (s.1.file r).readInner_count s.1.mem buff (BitVec.ofNat 64 (returned r s.2)) blen
  rw [hs.count hn] at hlen
  simp only [World.step, OssFile.io, OssFile.read_some hstub]
  rw [toInt_of_lt (by omega), hlen]

theorem read_mem (hs : Reader r n s) (hn : n < 2 ^ 63) (buff : ℕ) (blen : Word) (a : ℕ) :
    (s.1.step (.io r (.read buff (BitVec.ofNat 64 (returned r s.2)) blen))).1.mem a =
      if buff ≤ a ∧ a < buff + min blen.toNat (n - returned r s.2) then
        (s.1.file r).content (BitVec.ofNat 64 (returned r s.2)) (a - buff)
      else s.1.mem a := by
  obtain ⟨i, hstub⟩ := hs.isOpen
  rw [← hs.count hn]
  simp only [World.step, OssFile.io, OssFile.read_some hstub]
  exact (s.1.file r).readInner_mem s.1.mem buff _ blen a

theorem step (hs : Reader r n s) (hn : n < 2 ^ 63) (hc : SeqReadOrOther r s c) :
    Reader r n (World.machine.logged.next s c) ∧
      SameSession (s.1.file r) ((World.machine.logged.next s c).1.file r) ∧
      returned r (World.machine.logged.next s c).2 = min n (returned r s.2 + readLength r c) := by
  have hbound := hs.bound
  rcases hc with ⟨buff, blen, _, rfl⟩ | hc
  · have hreturned : returned r (World.machine.logged.next s
        (.io r (.read buff (BitVec.ofNat 64 (returned r s.2)) blen))).2 =
        returned r s.2 + min blen.toNat (n - returned r s.2) := by
      refine (if_pos rfl).trans ?_
      simp only [bytesReturned, Machine.out, World.machine, hs.read_rc hn buff blen]
      norm_cast
    have hsession : SameSession (s.1.file r) ((World.machine.logged.next s
        (.io r (.read buff (BitVec.ofNat 64 (returned r s.2)) blen))).1.file r) :=
      s.1.step_io_session r r _
    have hlength : readLength r (.io r (.read buff (BitVec.ofNat 64 (returned r s.2)) blen)) =
        blen.toNat := if_pos rfl
    refine ⟨⟨?_, ?_, by omega⟩, hsession, by omega⟩
    · obtain ⟨i, hstub⟩ := hs.isOpen
      exact ⟨i, hsession.stub.trans hstub⟩
    · exact (congrArg (fun v : ReadView => v.size.toNat) hsession.view).trans hs.size
  · have hfile : (World.machine.logged.next s c).1.file r = s.1.file r :=
      World.step_file_of_not_uses hc
    have hreturned : returned r (World.machine.logged.next s c).2 = returned r s.2 :=
      sessionSum_of_not_uses hc _
    have hlength := readLength_of_not_uses hc
    rw [hfile]
    refine ⟨⟨?_, ?_, by omega⟩, ⟨rfl, rfl, rfl, rfl⟩, by omega⟩ <;> rw [hfile]
    · exact hs.isOpen
    · exact hs.size

theorem delivers (hs : Reader r n s) (hn : n < 2 ^ 63) (hc : SeqReadOrOther r s c) :
    DeliversUpTo r n s c := by
  rcases hc with ⟨buff, blen, _, rfl⟩ | hc
  · refine fun _ => ⟨hs.read_rc hn buff blen, fun a ha => ?_⟩
    rw [hs.read_mem hn buff blen, if_neg (by omega)]
  · cases c with
    | io g io => cases io <;> first | trivial | exact fun hg => absurd hg hc
    | _ => trivial

theorem run (hs : Reader r n s) (hn : n < 2 ^ 63) (cs : List Call)
    (hcs : World.machine.logged.EveryStep (SeqReadOrOther r) s cs) :
    World.machine.logged.EveryStep (DeliversUpTo r n) s cs ∧
      Reader r n (World.machine.logged.exec s cs) ∧
      returned r (World.machine.logged.exec s cs).2 =
        min n (returned r s.2 + requested r cs) := by
  induction cs generalizing s with
  | nil => exact ⟨trivial, hs, (min_eq_right hs.bound).symm⟩
  | cons c cs ih =>
    obtain ⟨hnext, _, hreturned⟩ := hs.step hn hcs.1
    obtain ⟨hdelivers, hreader, hend⟩ := ih hnext hcs.2
    refine ⟨⟨hs.delivers hn hcs.1, hdelivers⟩, hreader, ?_⟩
    rw [Machine.exec, hend, hreturned]
    simp only [requested, List.map_cons, List.sum_cons]
    omega

theorem reaches_end (hs : Reader r n s) (hn : n < 2 ^ 63) {cs : List Call}
    (hcs : World.machine.logged.EveryStep (SeqReadOrOther r) s cs) (hlong : n ≤ readCalls r cs)
    (buff : ℕ) (blen : Word) :
    ((World.machine.logged.exec s cs).1.step (.io r (.read buff
      (BitVec.ofNat 64 (returned r (World.machine.logged.exec s cs).2)) blen))).2.rc = 0 := by
  obtain ⟨_, hreader, hend⟩ := hs.run hn cs hcs
  have hle := readCalls_le_requested r cs
  rw [hreader.read_rc hn, hend]
  have hzero : min blen.toNat (n - min n (returned r s.2 + requested r cs)) = 0 := by omega
  rw [hzero]
  rfl

end Reader

end XrdBlackhole
