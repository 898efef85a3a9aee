import XrdBlackhole.Sessions
import XrdBlackhole.Library.Interleaving

/-!
# Threads on one handle

The I/O calls take no lock. What they read of the handle was cached by `Open`; what
they change are bytes of their buffers and counters which are `std::atomic`. So a call
is a list of single stores and increments, and threads may change between any two.
-/

namespace XrdBlackhole

inductive IoAct
  | store (addr : ℕ) (byte : BitVec 8)
  | readBytes (n : Word)
  | readOps (n : CInt)
  | writeBytes (n : Word)
  | writeOps
  | writeAioBytes (n : Word)
  | writeAioOps
  | errors

namespace IoAct

def file (f : OssFile) : IoAct → OssFile
  | .store _ _ => f
  | .readBytes n => { f with readBytes := f.readBytes + n }
  | .readOps n => { f with readOps := f.readOps + n }
  | .writeBytes n => { f with writeBytes := f.writeBytes + n }
  | .writeOps => { f with writeOps := f.writeOps + 1 }
  | .writeAioBytes n => { f with writeBytesAIO := f.writeBytesAIO + n }
  | .writeAioOps => { f with writeAioOps := f.writeAioOps + 1 }
  | .errors => { f with errors := f.errors + 1 }

def mem (m : Mem) : IoAct → Mem
  | .store addr byte => Function.update m addr byte
  | _ => m

def apply (s : OssFile × Mem) (a : IoAct) : OssFile × Mem := (a.file s.1, a.mem s.2)

end IoAct

def ReadView.stores (v : ReadView) (buff : ℕ) (offset blen : Word) : List IoAct :=
  (List.range (v.count offset blen)).map fun k => .store (buff + k) (v.content offset k)

namespace OssFile

def readActs (f : OssFile) (buff : ℕ) (offset blen : Word) : List IoAct :=
  match f.stub with
  | none => [.errors]
  | some _ =>
    let n := BitVec.ofNat 64 (f.count offset blen)
    f.stores buff offset blen ++ if 0 < n.toInt then [.readBytes n, .readOps 1] else []

def segmentStores (f : OssFile) (seg : IOVec) : List IoAct :=
  if seg.size.toInt ≤ 0 then [] else f.stores seg.data seg.offset (seg.size.signExtend 64)

/-- The two counters are updated once, behind the loop. -/
def readVActs (f : OssFile) (segs : List IOVec) : List IoAct :=
  if segs = [] then []
  else
    match f.stub with
    | none => [.errors]
    | some _ => segs.flatMap f.segmentStores ++
        [.readBytes (BitVec.ofNat 64 (vecTotal f.toReadView segs)),
         .readOps (BitVec.ofNat 32 (vecOps segs))]

def acts (f : OssFile) : IoCall → List IoAct
  | .write _ blen => [.writeBytes blen, .writeOps]
  | .writeAio _ nbytes => [.writeAioBytes nbytes, .writeAioOps]
  | .read buff offset blen => f.readActs buff offset blen
  | .readAio buff offset nbytes => f.readActs buff offset nbytes
  | .readRaw buff offset blen => f.readActs buff offset blen
  | .readV segs => f.readVActs segs.1
  | .preposition _ _ => if f.stub = none then [.errors] else []
  | .fstat => []

def methods (f : OssFile) (fs : BlackholeFS) :
    Interleaving.Methods (OssFile × Mem) IoCall IoAct Reply where
  acts := f.acts
  reply c := (f.io fs (fun _ => 0) c).1
  apply := IoAct.apply

def handle (fs : BlackholeFS) : Machine (OssFile × Mem) IoCall Reply :=
  ⟨fun s c => let r := s.1.io fs s.2 c; ((r.2.2, r.2.1), r.1)⟩

theorem foldl_stores (v : ReadView) (f : OssFile) (m : Mem) (buff : ℕ) (offset blen : Word) :
    (v.stores buff offset blen).foldl IoAct.apply (f, m) =
      (f, (v.readInner m buff offset blen).2) := by
  have hpart : ∀ n, ((List.range n).map fun k =>
      IoAct.store (buff + k) (v.content offset k)).foldl IoAct.apply (f, m) =
      (f, fun a => if buff ≤ a ∧ a < buff + n then v.content offset (a - buff) else m a) := by
    intro n
    induction n with
    | zero =>
      refine Prod.ext rfl (funext fun a => ?_)
      exact (if_neg (by omega)).symm
    | succ n ih =>
      rw [List.range_succ, List.map_append, List.foldl_append, ih]
      refine Prod.ext rfl (funext fun a => ?_)
      simp only [List.map_cons, List.map_nil, List.foldl_cons, List.foldl_nil, IoAct.apply,
        IoAct.mem, Function.update_apply]
      by_cases ha : a = buff + n
      · rw [if_pos ha, if_pos (by omega), ha, Nat.add_sub_cancel_left]
      · rw [if_neg ha]
        by_cases hin : buff ≤ a ∧ a < buff + n
        · rw [if_pos hin, if_pos (by omega)]
        · rw [if_neg hin, if_neg (by omega)]
  rw [ReadView.stores, hpart]
  exact Prod.ext rfl (funext fun a => (v.readInner_mem m buff offset blen a).symm)

theorem foldl_segments (f : OssFile) (segs : List IOVec) (m : Mem) :
    (segs.flatMap f.segmentStores).foldl IoAct.apply (f, m) =
      (f, vecMem f.toReadView m segs) := by
  induction segs generalizing m with
  | nil => rfl
  | cons seg segs ih =>
    rw [List.flatMap_cons, List.foldl_append, segmentStores, vecMem]
    split_ifs with hsize
    · exact ih m
    · rw [foldl_stores]
      exact ih _

theorem readActs_none {f : OssFile} (h : f.stub = none) (buff : ℕ) (offset blen : Word) :
    f.readActs buff offset blen = [.errors] := by
  simp only [readActs, h]

theorem readActs_some {f : OssFile} {i : ℕ} (h : f.stub = some i) (m : Mem) (buff : ℕ)
    (offset blen : Word) :
    f.readActs buff offset blen = f.stores buff offset blen ++
      if 0 < (f.readInner m buff offset blen).1.toInt then
        [.readBytes (f.readInner m buff offset blen).1, .readOps 1] else [] := by
  have hcount : BitVec.ofNat 64 (f.count offset blen) = (f.readInner m buff offset blen).1 := by
    rw [← f.readInner_count m buff offset blen, BitVec.ofNat_toNat, BitVec.setWidth_eq]
  simp only [readActs, h, hcount]

theorem readVActs_none {f : OssFile} (h : f.stub = none) {segs : List IOVec} (hsegs : segs ≠ []) :
    f.readVActs segs = [.errors] := by
  simp only [readVActs, h, hsegs, if_false]

theorem readVActs_some {f : OssFile} {i : ℕ} (h : f.stub = some i) {segs : List IOVec}
    (hsegs : segs ≠ []) : f.readVActs segs = segs.flatMap f.segmentStores ++
      [.readBytes (BitVec.ofNat 64 (vecTotal f.toReadView segs)),
       .readOps (BitVec.ofNat 32 (vecOps segs))] := by
  simp only [readVActs, h, hsegs, if_false]

theorem foldl_readActs (f : OssFile) (m : Mem) (buff : ℕ) (offset blen : Word) :
    (f.readActs buff offset blen).foldl IoAct.apply (f, m) =
      ((f.read m buff offset blen).2.2, (f.read m buff offset blen).2.1) := by
  cases hstub : f.stub with
  | none =>
    rw [read_none hstub, readActs_none hstub]
    rfl
  | some i =>
    rw [read_some hstub, readActs_some hstub m, List.foldl_append, foldl_stores]
    split_ifs <;> rfl

theorem foldl_acts (f : OssFile) (fs : BlackholeFS) (m : Mem) (c : IoCall) :
    (f.acts c).foldl IoAct.apply (f, m) = ((f.io fs m c).2.2, (f.io fs m c).2.1) := by
  cases c with
  | write offset blen => rfl
  | writeAio offset nbytes => rfl
  | read buff offset blen => exact f.foldl_readActs m buff offset blen
  | readAio buff offset nbytes => exact f.foldl_readActs m buff offset nbytes
  | readRaw buff offset blen => exact f.foldl_readActs m buff offset blen
  | readV segs =>
    change (f.readVActs segs.1).foldl IoAct.apply (f, m) =
      ((f.readV m segs.1).2.2, (f.readV m segs.1).2.1)
    by_cases hsegs : segs.1 = []
    · simp [readVActs, readV, hsegs]
    · cases hstub : f.stub with
      | none =>
        rw [readV_none hstub m hsegs, readVActs_none hstub hsegs]
        rfl
      | some i =>
        rw [readV_eq hstub, readVActs_some hstub hsegs, List.foldl_append, foldl_segments]
        rfl
  | preposition offset blen =>
    cases hstub : f.stub <;> simp [acts, OssFile.io, preposition, hstub, IoAct.apply, IoAct.file,
      IoAct.mem]
  | fstat => rfl

end OssFile

namespace SameSession
variable {f f' : OssFile}

theorem refl (f : OssFile) : SameSession f f := ⟨rfl, rfl, rfl, rfl⟩

theorem trans {f'' : OssFile} (h : SameSession f f') (h' : SameSession f' f'') :
    SameSession f f'' :=
  ⟨h'.stub.trans h.stub, h'.path.trans h.path, h'.view.trans h.view, h'.stats.trans h.stats⟩

theorem acts (h : SameSession f f') (c : IoCall) : f'.acts c = f.acts c := by
  have hread : ∀ buff offset blen, f'.readActs buff offset blen = f.readActs buff offset blen := by
    intro buff offset blen
    rw [OssFile.readActs, OssFile.readActs, h.stub, h.view]
  cases c with
  | write offset blen => rfl
  | writeAio offset nbytes => rfl
  | read buff offset blen => exact hread _ _ _
  | readAio buff offset nbytes => exact hread _ _ _
  | readRaw buff offset blen => exact hread _ _ _
  | readV segs =>
    have hseg : f'.segmentStores = f.segmentStores := by
      funext seg
      rw [OssFile.segmentStores, OssFile.segmentStores, h.view]
    rw [OssFile.acts, OssFile.acts, OssFile.readVActs, OssFile.readVActs, h.stub, h.view, hseg]
  | preposition offset blen => rw [OssFile.acts, OssFile.acts, h.stub]
  | fstat => rfl

end SameSession

namespace OssFile

theorem exec_handle {f : OssFile} (fs : BlackholeFS) (cs : List IoCall) {s : OssFile × Mem}
    (hs : SameSession f s.1) : (handle fs).exec s cs = (cs.flatMap f.acts).foldl IoAct.apply s := by
  induction cs generalizing s with
  | nil => rfl
  | cons c cs ih =>
    have hnext : (handle fs).next s c = (f.acts c).foldl IoAct.apply s := by
      rw [← hs.acts c]
      exact (s.1.foldl_acts fs s.2 c).symm
    have hsame : SameSession f ((handle fs).next s c).1 :=
      hs.trans (s.1.io_session fs s.2 c)
    rw [Machine.exec, ih hsame, hnext, List.flatMap_cons, List.foldl_append]

theorem io_reply (f : OssFile) (fs : BlackholeFS) (m m' : Mem) (c : IoCall) :
    (f.io fs m c).1 = (f.io fs m' c).1 := by
  have hread : ∀ buff offset blen,
      (f.read m buff offset blen).1 = (f.read m' buff offset blen).1 := by
    intro buff offset blen
    cases hstub : f.stub with
    | none => rw [read_none hstub, read_none hstub]
    | some i =>
      have hcount : (f.readInner m buff offset blen).1 = (f.readInner m' buff offset blen).1 := by
        apply BitVec.eq_of_toNat_eq
        rw [ReadView.readInner_count, ReadView.readInner_count]
      rw [read_some hstub, read_some hstub, hcount]
  cases c with
  | write offset blen => rfl
  | writeAio offset nbytes => rfl
  | read buff offset blen =>
    change Reply.mk _ _ _ = Reply.mk _ _ _
    rw [hread]
  | readAio buff offset nbytes =>
    change Reply.mk _ _ _ = Reply.mk _ _ _
    rw [readAio, readAio]
    exact congrArg (Reply.mk XrdOssOK · {}) (hread buff offset nbytes)
  | readRaw buff offset blen =>
    change Reply.mk _ _ _ = Reply.mk _ _ _
    rw [readRaw, readRaw, hread]
  | readV segs =>
    change Reply.mk _ _ _ = Reply.mk _ _ _
    by_cases hsegs : segs.1 = []
    · simp [readV, hsegs]
    · cases hstub : f.stub with
      | none => rw [readV_none hstub m hsegs, readV_none hstub m' hsegs]
      | some i => rw [readV_eq hstub, readV_eq hstub]
  | preposition offset blen => rfl
  | fstat => rfl

end OssFile

namespace IoAct

theorem foldl_file (as : List IoAct) (s : OssFile × Mem) :
    (as.foldl apply s).1 = as.foldl file s.1 := by
  induction as generalizing s with
  | nil => rfl
  | cons a as ih => exact ih (apply s a)

theorem file_comm (f : OssFile) (a b : IoAct) : b.file (a.file f) = a.file (b.file f) := by
  cases a <;> cases b <;> simp only [file, OssFile.mk.injEq, true_and, and_true] <;> ac_rfl

def StoresAt (a : ℕ) : IoAct → Prop
  | .store addr _ => addr = a
  | _ => False

instance (a : ℕ) (act : IoAct) : Decidable (act.StoresAt a) :=
  match act with
  | .store addr _ => inferInstanceAs (Decidable (addr = a))
  | .readBytes _ | .readOps _ | .writeBytes _ | .writeOps | .writeAioBytes _ | .writeAioOps
  | .errors => inferInstanceAs (Decidable False)

theorem mem_of_not_storesAt {a : ℕ} {act : IoAct} (h : ¬ act.StoresAt a) (m : Mem) :
    act.mem m a = m a := by
  cases act with
  | store addr byte => exact Function.update_of_ne (Ne.symm h) byte m
  | _ => rfl

theorem mem_congr {m m' : Mem} {a : ℕ} (h : m a = m' a) (act : IoAct) :
    act.mem m a = act.mem m' a := by
  cases act with
  | store addr byte => simp only [mem, Function.update_apply, h]
  | _ => exact h

end IoAct

open Concurrent

section
variable {τ : Type} [DecidableEq τ] {f : OssFile} {fs : BlackholeFS} {mem : Mem}
  {past : List (Event τ IoCall Reply)} {s : Interleaving.State τ (OssFile × Mem) IoAct Reply}

/-- Threads on one handle lose no increment: when no call is pending, the handle is the
one which the calls leave behind when they are made one by one, in any order, so that
`Close` submits the same record. The replies are those of the calls alone. -/
theorem handle_threads_serial
    (hrun : (Interleaving.lts (τ := τ) (f.methods fs)).Run { shared := (f, mem) } past s) :
    ((∀ t, s.thread t = .idle) → ∀ cs : List IoCall, cs.Perm ((callOps past).map Prod.snd) →
      s.shared.1 = ((OssFile.handle fs).exec (f, mem) cs).1) ∧
      ∀ later t r earlier, past = later ++ .ret t r :: earlier →
        ∃ c, (calls t earlier).getLast? = some c ∧ ∀ m, r = (f.io fs m c).1 := by
  obtain ⟨done, hdone⟩ := Interleaving.run_performed hrun
  refine ⟨fun hidle cs hcs => ?_, fun later t r earlier hsplit => ?_⟩
  · have hserial : ((Interleaving.serial (f.methods fs) past).map Prod.snd) =
        ((callOps past).map Prod.snd).flatMap f.acts := by
      simp [Interleaving.serial, OssFile.methods, List.map_flatMap, List.flatMap_map,
        Function.comp_def]
    have hperm : (done.map Prod.snd).Perm (cs.flatMap f.acts) := by
      refine ((hdone.perm_serial hidle).map Prod.snd).trans ?_
      rw [hserial]
      exact hcs.symm.flatMap_right f.acts
    rw [OssFile.exec_handle fs cs (SameSession.refl f), hdone.shared]
    change ((done.map Prod.snd).foldl IoAct.apply (f, mem)).1 = _
    rw [IoAct.foldl_file, IoAct.foldl_file]
    exact hperm.foldl_eq' (fun a _ b _ f => IoAct.file_comm f a b) f
  · obtain ⟨c, hlast, hreply⟩ := hdone.returned later t r earlier hsplit
    exact ⟨c, hlast, fun m => hreply.trans (f.io_reply fs _ m c)⟩

def writers : List (Event Bool IoCall Reply) :=
  [.ret true ⟨5, 0, {}⟩, .ret false ⟨7, 0, {}⟩, .call false (.write 0 7), .call true (.write 0 5)]

theorem handle_threads_serial_writes :
    ∃ s, (Interleaving.lts (OssFile.methods {} {})).Run { shared := ({}, fun _ => 0) } writers s ∧
      s.shared.1 = ((OssFile.handle {}).exec ({}, fun _ => 0) [.write 0 7, .write 0 5]).1 ∧
      s.shared.1.writeBytes = 12 ∧ s.shared.1.writeOps = 2 := by
  obtain ⟨s, hidle, hrun⟩ := Interleaving.overlap_run (OssFile.methods {} {}) ({}, fun _ => 0)
    (t := true) (u := false) nofun (.write 0 5) (.write 0 7)
  have hserial := (handle_threads_serial hrun).1 hidle [.write 0 7, .write 0 5] (List.Perm.swap ..)
  exact ⟨s, hrun, hserial, congrArg OssFile.writeBytes hserial, congrArg OssFile.writeOps hserial⟩

/-- A thread whose calls have done all their stores finds at every address which no
other thread stores to what its own calls, alone on the handle, have put there. -/
theorem handle_threads_memory
    (hrun : (Interleaving.lts (τ := τ) (f.methods fs)).Run { shared := (f, mem) } past s)
    {t : τ} (hquiet : (s.thread t).todo = []) {a : ℕ}
    (hother : ∀ u c, u ≠ t → Event.call u c ∈ past → ∀ act ∈ f.acts c, ¬ act.StoresAt a) :
    s.shared.2 a = ((OssFile.handle fs).exec (f, mem) (calls t past)).2 a := by
  obtain ⟨done, hdone⟩ := Interleaving.run_performed hrun
  have hown : opsOf t done = (calls t past).flatMap f.acts := by
    have hpart := hdone.parts t
    rw [hquiet, List.append_nil] at hpart
    exact hpart.symm
  have hforeign : ∀ op ∈ done, op.1 ≠ t → ∀ s : OssFile × Mem,
      (IoAct.apply s op.2).2 a = s.2 a := by
    intro op hop hne s
    have hact : op.2 ∈ (calls op.1 past).flatMap f.acts := by
      have hpart := hdone.parts op.1
      exact hpart ▸ List.mem_append_left _ (mem_opsOf hop)
    obtain ⟨c, hc, hact⟩ := List.mem_flatMap.mp hact
    exact IoAct.mem_of_not_storesAt (hother op.1 c hne (mem_calls hc) op.2 hact) s.2
  rw [hdone.shared, OssFile.exec_handle fs _ (SameSession.refl f), ← hown]
  exact Interleaving.foldl_eq_opsOf (P := f.methods fs) (fun s => s.2 a) t
    (fun s s' act h => IoAct.mem_congr h act) hforeign rfl

def readers : List (Event Bool IoCall Reply) :=
  [.ret true ⟨2, 0, {}⟩, .ret false ⟨2, 0, {}⟩, .call false (.read 8 1 2), .call true (.read 0 0 2)]

theorem handle_threads_memory_reads :
    ∃ s, (Interleaving.lts (OssFile.methods { size := 4, stub := some 0 } {})).Run
        { shared := ({ size := 4, stub := some 0 }, fun _ => 1) } readers s ∧
      s.shared.2 0 = ((OssFile.handle {}).exec ({ size := 4, stub := some 0 }, fun _ => 1)
        [.read 0 0 2]).2 0 ∧ s.shared.2 0 = 0 := by
  obtain ⟨s, hidle, hrun⟩ := Interleaving.overlap_run
    (OssFile.methods { size := 4, stub := some 0 } {})
    ({ size := 4, stub := some 0 }, fun _ => 1) (t := true) (u := false) nofun
    (.read 0 0 2) (.read 8 1 2)
  have hmem := handle_threads_memory hrun (t := true) (by rw [hidle]; rfl) (a := 0)
    fun u c hu hc => ?_
  · exact ⟨s, hrun, hmem, hmem.trans (by decide)⟩
  · simp only [List.mem_cons, reduceCtorEq, Event.call.injEq, hu, List.not_mem_nil, false_and,
      false_or, or_false] at hc
    rw [hc.2]
    decide

end

end XrdBlackhole
