import XrdBlackhole.System

/-!
# The entry points of a read

`ReadV` is its segments read one after the other, in what it returns, stores and adds
to `m_readBytes`. The operations are counted by two rules: `Read` leaves out a request
which delivers nothing, `ReadV` counts it.
-/

namespace XrdBlackhole

namespace OssFile

def readEach (f : OssFile) (mem : Mem) : List IOVec → ℤ × Mem × OssFile
  | [] => (0, mem, f)
  | seg :: segs =>
    if seg.size.toInt ≤ 0 then readEach f mem segs
    else
      let r := f.read mem seg.data seg.offset (seg.size.signExtend 64)
      let rest := readEach r.2.2 r.2.1 segs
      (r.1 + rest.1, rest.2)

def addReads (f : OssFile) (n ops : ℕ) : OssFile :=
  { f with
    readBytes := f.readBytes + BitVec.ofNat 64 n
    readOps := f.readOps + BitVec.ofNat 32 ops }

variable {f : OssFile} {i : ℕ}

theorem addReads_zero (f : OssFile) : f.addReads 0 0 = f := by
  simp [addReads]

theorem addReads_addReads (f : OssFile) (n n' ops ops' : ℕ) :
    (f.addReads n ops).addReads n' ops' = f.addReads (n + n') (ops + ops') := by
  simp [addReads, BitVec.ofNat_add, BitVec.add_assoc]

theorem read_segment (h : f.stub = some i) (mem : Mem) (buff : ℕ) (offset : Word) {size : CInt}
    (hsize : 0 < size.toInt) :
    f.read mem buff offset (size.signExtend 64) =
      ((f.count offset (size.signExtend 64) : ℤ),
        (f.readInner mem buff offset (size.signExtend 64)).2,
        f.addReads (f.count offset (size.signExtend 64))
          (if 0 < f.count offset (size.signExtend 64) then 1 else 0)) := by
  have hcount := f.readInner_count mem buff offset (size.signExtend 64)
  have hlt := count_segment_lt f.toReadView offset hsize
  have hint : (f.readInner mem buff offset (size.signExtend 64)).1.toInt =
      f.count offset (size.signExtend 64) := by
    rw [toInt_of_lt (by omega), hcount]
  have hword : (f.readInner mem buff offset (size.signExtend 64)).1 =
      BitVec.ofNat 64 (f.count offset (size.signExtend 64)) := by
    rw [← hcount, BitVec.ofNat_toNat, BitVec.setWidth_eq]
  rw [read_some h, hint]
  by_cases hpos : 0 < f.count offset (size.signExtend 64)
  · rw [if_pos (by exact_mod_cast hpos), if_pos hpos, hword]
    rfl
  · rw [if_neg (by exact_mod_cast hpos), if_neg hpos, Nat.eq_zero_of_not_pos hpos, addReads_zero]

def deliveries (v : ReadView) : List IOVec → ℕ
  | [] => 0
  | seg :: segs =>
    (if seg.size.toInt ≤ 0 then 0
      else if 0 < v.count seg.offset (seg.size.signExtend 64) then 1 else 0) +
      deliveries v segs

theorem readEach_eq (h : f.stub = some i) (mem : Mem) (segs : List IOVec) :
    f.readEach mem segs =
      ((vecTotal f.toReadView segs : ℤ), vecMem f.toReadView mem segs,
        f.addReads (vecTotal f.toReadView segs) (deliveries f.toReadView segs)) := by
  induction segs generalizing f mem with
  | nil => rw [readEach, vecTotal, vecMem, deliveries, addReads_zero, Nat.cast_zero]
  | cons seg segs ih =>
    rw [readEach, vecTotal, vecMem, deliveries]
    by_cases hsize : seg.size.toInt ≤ 0
    · simp only [hsize, if_true, Nat.zero_add, ih h]
    · simp only [hsize, if_false, read_segment h _ _ _ (not_le.mp hsize)]
      rw [ih (f := f.addReads _ _) h, addReads_addReads]
      rfl

end OssFile

/-- A vectored read on an open handle returns the sum of its reads one by one, leaves
the memory as they do, and adds the same to `m_readBytes`. -/
theorem readV_reads_each (f : OssFile) (i : ℕ) (hopen : f.stub = some i) (mem : Mem)
    (segs : IOVecs) :
    let r := f.readV mem segs.1
    let each := f.readEach mem segs.1
    r.1 = each.1 ∧ r.2.1 = each.2.1 ∧ r.2.2.readBytes = each.2.2.readBytes ∧
      r.2.2.readBytes = f.readBytes + BitVec.ofInt 64 r.1 := by
  intro r each
  have hr : r = _ := OssFile.readV_eq hopen mem segs.1
  have heach : each = _ := OssFile.readEach_eq hopen mem segs.1
  have htotal : r.1 = OssFile.vecTotal f.toReadView segs.1 := by
    rw [hr]
    exact toInt_ofNat_of_lt (OssFile.vecTotal_lt f.toReadView segs)
  refine ⟨?_, ?_, ?_, ?_⟩
  · rw [htotal, heach]
  · rw [hr, heach]
  · rw [hr, heach]
    rfl
  · rw [htotal, hr, BitVec.ofInt_natCast]

def mixedFile : OssFile := { size := 10, isRandom := true, ino := 1, stub := some 0 }

def mixedSegs : IOVecs :=
  ⟨[⟨0, 8, 5⟩, ⟨1, 0, 4⟩, ⟨0, 3, -1⟩, ⟨0, 20, 2⟩], by decide⟩

theorem readV_reads_each_mixed : (mixedFile.readEach (fun _ => 0) mixedSegs.1).1 = 6 :=
  (readV_reads_each mixedFile 0 rfl (fun _ => 0) mixedSegs).1.symm.trans (by decide)

abbrev Request := {seg : IOVec // 0 < seg.size.toInt}

/-- One call which serves a request, or several of them together. -/
inductive Serve
  | read (r : Request)
  | readRaw (r : Request)
  | readAio (r : Request)
  | readV (rs : {rs : List Request // rs.length < 2 ^ 31})

namespace Serve

def requests : Serve → List Request
  | .read r | .readRaw r | .readAio r => [r]
  | .readV rs => rs.1

def call : Serve → IoCall
  | .read r => .read r.1.data r.1.offset (r.1.size.signExtend 64)
  | .readRaw r => .readRaw r.1.data r.1.offset (r.1.size.signExtend 64)
  | .readAio r => .readAio r.1.data r.1.offset (r.1.size.signExtend 64)
  | .readV rs => .readV ⟨rs.1.map Subtype.val, by rw [List.length_map]; exact rs.2⟩

end Serve

def requestsOf (plan : List Serve) : List Request := plan.flatMap Serve.requests

def World.submitted (w : World) (h : ℕ) (plan : List Serve) : TransferStats :=
  ((World.machine.exec w (plan.map (fun s => .io h s.call) ++ [.fileClose h])).file h).stats

/-- All plans for these requests submit the same bytes and operations. -/
def EntryIndependent (w : World) (h : ℕ) (rs : List Request) : Prop :=
  ∀ plan plan', requestsOf plan = rs → requestsOf plan' = rs →
    (w.submitted h plan).bytesRead = (w.submitted h plan').bytesRead ∧
      (w.submitted h plan).readOps = (w.submitted h plan').readOps

def ReadView.Inside (v : ReadView) (r : Request) : Prop :=
  0 ≤ r.1.offset.toInt ∧ r.1.offset.toNat < v.size.toNat

namespace ReadView
variable (v : ReadView)

def delivered (r : Request) : ℕ := v.count r.1.offset (r.1.size.signExtend 64)

theorem delivered_pos_iff (r : Request) : 0 < v.delivered r ↔ v.Inside r := by
  have hsize := OssFile.signExtend_toNat r.2
  have hpos := r.2
  unfold delivered count Inside
  split_ifs with hneg <;> omega

def bytesOf (s : Serve) : ℕ := (s.requests.map v.delivered).sum

def opsOf : Serve → ℕ
  | .read r | .readRaw r | .readAio r => if 0 < v.delivered r then 1 else 0
  | .readV rs => rs.1.length

end ReadView

namespace OssFile
variable {f : OssFile} {i : ℕ}

theorem vecTotal_requests (v : ReadView) (rs : List Request) :
    vecTotal v (rs.map Subtype.val) = (rs.map v.delivered).sum ∧
      vecOps (rs.map Subtype.val) = rs.length := by
  induction rs with
  | nil => exact ⟨rfl, rfl⟩
  | cons r rs ih =>
    have hsize := not_le.mpr r.2
    simp only [List.map_cons, vecTotal, vecOps, hsize, if_false, ih.1, ih.2, List.sum_cons,
      List.length_cons]
    exact ⟨rfl, Nat.add_comm 1 _⟩

theorem read_request (h : f.stub = some i) (mem : Mem) (r : Request) :
    (f.read mem r.1.data r.1.offset (r.1.size.signExtend 64)).2.2 =
      f.addReads (f.delivered r) (if 0 < f.delivered r then 1 else 0) := by
  rw [read_segment h mem _ _ r.2]
  rfl

theorem io_serve (h : f.stub = some i) (fs : BlackholeFS) (mem : Mem) (s : Serve) :
    (f.io fs mem s.call).2.2 = f.addReads (f.bytesOf s) (f.opsOf s) := by
  have hone : ∀ r : Request, ([r].map f.delivered).sum = f.delivered r :=
    fun _ => List.sum_singleton
  cases s with
  | read r => exact (read_request h mem r).trans (congrArg (f.addReads · _) (hone r).symm)
  | readRaw r => exact (read_request h mem r).trans (congrArg (f.addReads · _) (hone r).symm)
  | readAio r => exact (read_request h mem r).trans (congrArg (f.addReads · _) (hone r).symm)
  | readV rs =>
    obtain ⟨htotal, hops⟩ := vecTotal_requests f.toReadView rs.1
    simp only [OssFile.io, Serve.call, readV_eq h, htotal, hops]
    rfl

end OssFile

section
variable {w : World} {h i : ℕ} {rs : List Request} {plan : List Serve}

def planBytes (v : ReadView) (plan : List Serve) : ℕ := (plan.map v.bytesOf).sum

def planOps (v : ReadView) (plan : List Serve) : ℕ := (plan.map v.opsOf).sum

theorem plan_file (hopen : (w.file h).stub = some i) (plan : List Serve) :
    (World.machine.exec w (plan.map fun s => .io h s.call)).file h =
      (w.file h).addReads (planBytes (w.file h).toReadView plan)
        (planOps (w.file h).toReadView plan) := by
  induction plan generalizing w with
  | nil => exact ((w.file h).addReads_zero).symm
  | cons s plan ih =>
    have hstep : (World.machine.next w (.io h s.call)).file h =
        (w.file h).addReads ((w.file h).bytesOf s) ((w.file h).opsOf s) := by
      rw [Machine.next, World.machine, World.step_io_file, if_pos rfl]
      exact OssFile.io_serve hopen w.fs w.mem s
    rw [List.map_cons, Machine.exec, ih (by rw [hstep]; exact hopen), hstep,
      OssFile.addReads_addReads]
    simp only [planBytes, planOps, List.map_cons, List.sum_cons]
    rfl

theorem submitted_eq (hopen : (w.file h).stub = some i) (plan : List Serve) :
    (w.submitted h plan).bytesRead =
        (w.file h).readBytes + BitVec.ofNat 64 (planBytes (w.file h).toReadView plan) ∧
      (w.submitted h plan).readOps =
        (w.file h).readOps + BitVec.ofNat 32 (planOps (w.file h).toReadView plan) := by
  have hfile := plan_file hopen plan
  rw [World.submitted, Machine.exec_append]
  generalize World.machine.exec w (plan.map fun s => .io h s.call) = w' at hfile
  have hopen' : (w'.file h).stub = some i := by
    rw [hfile]
    exact hopen
  rw [Machine.exec, Machine.exec, Machine.next, World.machine, World.step_close_file, if_pos rfl,
    OssFile.close_some hopen', hfile]
  exact ⟨rfl, rfl⟩

theorem planBytes_eq (v : ReadView) (plan : List Serve) :
    planBytes v plan = ((requestsOf plan).map v.delivered).sum := by
  induction plan with
  | nil => rfl
  | cons s plan ih =>
    rw [planBytes, List.map_cons, List.sum_cons, requestsOf, List.flatMap_cons, List.map_append,
      List.sum_append, ← requestsOf, ← ih]
    rfl

theorem planOps_inside {v : ReadView} (hinside : ∀ r ∈ requestsOf plan, v.Inside r) :
    planOps v plan = (requestsOf plan).length := by
  induction plan with
  | nil => rfl
  | cons s plan ih =>
    rw [requestsOf, List.flatMap_cons, ← requestsOf] at hinside ⊢
    rw [List.forall_mem_append] at hinside
    have hhead : v.opsOf s = s.requests.length := by
      have hone : ∀ r, v.Inside r → (if 0 < v.delivered r then 1 else 0) = 1 :=
        fun r hr => if_pos ((v.delivered_pos_iff r).mpr hr)
      cases s with
      | read r => exact hone r (hinside.1 r List.mem_cons_self)
      | readRaw r => exact hone r (hinside.1 r List.mem_cons_self)
      | readAio r => exact hone r (hinside.1 r List.mem_cons_self)
      | readV rs => rfl
    rw [planOps, List.map_cons, List.sum_cons, hhead, ← planOps, ih hinside.2, List.length_append]

theorem inside_of_independent (hopen : (w.file h).stub = some i)
    (hind : EntryIndependent w h rs) : ∀ r ∈ rs, (w.file h).Inside r := by
  intro r hr
  by_contra hout
  obtain ⟨before, after, rfl⟩ := List.append_of_mem hr
  have hreads : ∀ rs : List Request, requestsOf (rs.map .read) = rs := by
    intro rs
    induction rs with
    | nil => rfl
    | cons r rs ih => exact congrArg (r :: ·) ih
  let single : Serve := .readV ⟨[r], Nat.one_lt_two_pow (by decide)⟩
  have hsame := (hind (before.map .read ++ .read r :: after.map .read)
    (before.map .read ++ single :: after.map .read) ?_ ?_).2
  · rw [(submitted_eq hopen _).2, (submitted_eq hopen _).2] at hsame
    have hzero : (w.file h).opsOf (.read r) = 0 :=
      if_neg fun hpos => hout (((w.file h).delivered_pos_iff r).mp hpos)
    have hone : (w.file h).opsOf single = 1 := rfl
    simp only [planOps, List.map_append, List.map_cons, List.sum_append, List.sum_cons, hzero,
      hone] at hsame
    have hmod := congrArg BitVec.toNat ((BitVec.add_right_inj _).mp hsame)
    rw [BitVec.toNat_ofNat, BitVec.toNat_ofNat] at hmod
    omega
  · rw [requestsOf, List.flatMap_append, List.flatMap_cons, ← requestsOf, ← requestsOf, hreads,
      hreads]
    rfl
  · rw [requestsOf, List.flatMap_append, List.flatMap_cons, ← requestsOf, ← requestsOf, hreads,
      hreads]
    rfl

theorem independent_of_inside (hopen : (w.file h).stub = some i)
    (hinside : ∀ r ∈ rs, (w.file h).Inside r) : EntryIndependent w h rs := by
  intro plan plan' hplan hplan'
  obtain ⟨hbytes, hops⟩ := submitted_eq hopen plan
  obtain ⟨hbytes', hops'⟩ := submitted_eq hopen plan'
  refine ⟨?_, ?_⟩
  · rw [hbytes, hbytes', planBytes_eq, planBytes_eq, hplan, hplan']
  · rw [hops, hops', planOps_inside (hplan ▸ hinside), planOps_inside (hplan' ▸ hinside), hplan,
      hplan']

end

/-- On an open handle, the submitted bytes and operations are the same for all ways of
serving the requests exactly when each request starts inside the file. -/
theorem entry_independent_iff (w : World) (h i : ℕ) (hopen : (w.file h).stub = some i)
    (rs : List Request) : EntryIndependent w h rs ↔ ∀ r ∈ rs, (w.file h).Inside r :=
  ⟨inside_of_independent hopen, independent_of_inside hopen⟩

def readerWorld : World :=
  World.machine.exec {} [.ns (.seed "/f".toList 10 zeros), .fileOpen 0 "/f".toList O_RDONLY 0]

def insideRequests : List Request := [⟨⟨0, 0, 4⟩, by decide⟩, ⟨⟨4, 8, 5⟩, by decide⟩]

theorem entry_independent_iff_two : EntryIndependent readerWorld 0 insideRequests := by
  refine (entry_independent_iff readerWorld 0 0 rfl insideRequests).mpr ?_
  refine List.forall_mem_cons.mpr ⟨⟨by decide, by decide⟩, List.forall_mem_singleton.mpr ?_⟩
  exact ⟨by decide, by decide⟩

def pastEnd : Request := ⟨⟨0, 10, 4⟩, by decide⟩

theorem past_end_counted_in_vector : ¬ EntryIndependent readerWorld 0 [pastEnd] := by
  intro hind
  have hsame := (hind [.read pastEnd] [.readV ⟨[pastEnd], by decide⟩] rfl rfl).2
  exact absurd hsame (by decide)

end XrdBlackhole
